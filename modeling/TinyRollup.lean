import TinyRollup.Lib.Bytes
import TinyRollup.Lib.Keccak
import TinyRollup.Lib.Codec
import TinyRollup.Stf.Ledger
import TinyRollup.Stf.Frame
import TinyRollup.Stf.Position
import TinyRollup.Stf.Arithmetic
import TinyRollup.Stf.Supply
import TinyRollup.Stf.Nonces
import TinyRollup.Bridge.Deposits
import TinyRollup.Bridge.Forced
import TinyRollup.Bridge.Honest
import TinyRollup.Bridge.Withdrawals
import TinyRollup.Bridge.Exit
import TinyRollup.Bridge.History
import TinyRollup.Bridge.Nonces
import TinyRollup.Bridge.Treasury
import TinyRollup.Core.Monotree
import TinyRollup.Core.Conservation
import TinyRollup.Core.Replay
import TinyRollup.Core.ReadBack
import TinyRollup.Core.Provable
import TinyRollup.Core.Skips
import TinyRollup.Core.FailedRead
import TinyRollup.Core.SortedTree
import TinyRollup.Core.Cache
import TinyRollup.Core.Generated
import TinyRollup.Core.Agreement
import TinyRollup.Core.Panics
import TinyRollup.Core.Roots
import TinyRollup.Core.Queries
import TinyRollup.Core.Bundle
import TinyRollup.Core.Serialize
import TinyRollup.Core.Stdin
import TinyRollup.Sequencer.Inclusion
import TinyRollup.Sequencer.Failed
import TinyRollup.Sequencer.Proven
import TinyRollup.Sequencer.Window
import TinyRollup.Sequencer.Store
import TinyRollup.Sequencer.Rocks
import TinyRollup.Sequencer.FailedBatch
import TinyRollup.Sequencer.Poison
import TinyRollup.Sequencer.Posted
import TinyRollup.Sequencer.Simulation
import TinyRollup.Sequencer.Attempts
import TinyRollup.Sequencer.Work
import TinyRollup.Sequencer.Fates
import TinyRollup.Sequencer.Settles
