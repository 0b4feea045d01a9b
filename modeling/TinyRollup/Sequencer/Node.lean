import TinyRollup.Lib.Queue
import TinyRollup.Sequencer.System

/-!
# The process of the sequencer

`System` is the sequencer as its blocks see it.  This is the process: what it keeps on disk, what it
keeps in memory, and its two workers, one step for every access to a lock, a database or L1.  The
process may stop after any step; `restart` is what `main` makes of the disk.

A transaction that the prover worker sends to L1 has a life of its own (`Submission`): it is mined
or dropped at any later time, whatever the worker hears of it, and also after the process has
stopped.  A write to a database fails as `workerFails` or `proverFails`.  What reads the state tree
or writes it holds its lock: the optimistic worker from the batch to the counter, the prover worker
while it generates the proofs.

`submitted`, `committed` and `provenBlocks` are history: the transactions accepted since the process
was started, and the blocks ever written to the queue and ever proven.
-/

set_option autoImplicit false

namespace TinyRollup

open ByteString Word Stf

/-! ## The databases -/

/-- A column of blocks.  RocksDB orders its keys bytewise, and these are `to_be_bytes` of the block
numbers, so the order is that of the numbers (`blockKey_lt`). -/
abbrev BlockQueue := KeyedQueue fun b : PendingBlock ↦ b.blockNumber.toNat

/-- The state tree with its head root, and the columns of the queue database. -/
structure Disk (T : Type) where
  tree : T
  headroot : Option Hash
  pending : BlockQueue
  failed : BlockQueue
  blockCounter : Option UInt64

namespace Disk

variable {T : Type}

/-- Empty databases. -/
def new (tree : T) : Disk T where
  tree := tree
  headroot := none
  pending := .empty
  failed := .empty
  blockCounter := none

def getBlockCounter (d : Disk T) : UInt64 := d.blockCounter.getD 0

/-- The head root as `main` reads it; it sets the default where there is none. -/
def initialRoot (d : Disk T) : Hash := d.headroot.getD Hash.default

/-- One batch of two writes. -/
def commitOptimisticBlock (d : Disk T) (block : PendingBlock) (nextBlockNumber : UInt64) : Disk T :=
  { d with pending := d.pending.put block, blockCounter := some nextBlockNumber }

def removePending (d : Disk T) (blockNumber : UInt64) : Disk T :=
  { d with pending := d.pending.erase blockNumber.toNat }

def pushFailed (d : Disk T) (block : PendingBlock) : Disk T :=
  { d with failed := d.failed.put block }

end Disk

/-! ## The workers -/

/-- What goes into a block. -/
structure BlockContents where
  txs : List Transaction
  deposits : List Deposit
  forcedTxs : List ForcedTx

def BlockContents.block (b : BlockContents) (blockNumber : UInt64) (preRoot newRoot : Hash) :
    PendingBlock where
  blockNumber := blockNumber
  txs := b.txs
  deposits := b.deposits
  forcedTxs := b.forcedTxs
  preStateRoot := preRoot
  postStateRoot := newRoot

/-- How far the optimistic worker has come in its loop. -/
inductive OptimisticWorker
  | sleeping
  | fetching (deposits : Fetch Deposit) (forcedTxs : Fetch ForcedTx)
  | copied (batch : BlockContents)
  | rootRead (batch : BlockContents) (preRoot : Hash)
  /-- The tree is locked, and the executor has written to it. -/
  | executed (batch : BlockContents) (preRoot newRoot : Hash)
  | headrootSet (batch : BlockContents) (preRoot newRoot : Hash)
  | numbered (block : PendingBlock)
  | headMoved (block : PendingBlock)
  | drained (block : PendingBlock)
  | dead

/-- How far the prover worker has come. -/
inductive ProverWorker
  | sleeping
  | proving (block : PendingBlock) (retries : ℕ)
  | proved (block : PendingBlock) (retries : ℕ) (publicValues : Bytes)
  /-- The `i`-th transaction to L1 is this one's. -/
  | sent (block : PendingBlock) (retries : ℕ) (i : ℕ)
  | settled (block : PendingBlock)
  | provenMoved (block : PendingBlock)
  | givenUp (block : PendingBlock)
  | failedPushed (block : PendingBlock)
  | dead

inductive TxStatus
  | pending
  | accepted
  | reverted
  | dropped
  deriving DecidableEq

/-- A call of `updateState` that was sent to L1. -/
structure Submission where
  block : PendingBlock
  publicValues : Bytes
  proofBytes : Bytes
  status : TxStatus

structure Heads where
  proven : Hash
  optimistic : Hash

structure Node (T : Type) where
  disk : Disk T
  heads : Heads
  mempool : List Transaction
  blockCounter : UInt64
  /-- A panic while the tree was locked. -/
  poisoned : Bool
  worker : OptimisticWorker
  prover : ProverWorker
  l1 : Bridge
  submissions : List Submission
  submitted : List Transaction
  committed : List PendingBlock
  provenBlocks : List PendingBlock

namespace Node

variable {T : Type}

/-- `main`: everything but the disk and L1 starts anew. -/
def restart (n : Node T) : Node T :=
  { n with
    disk := { n.disk with headroot := some n.disk.initialRoot }
    heads := ⟨n.disk.initialRoot, n.disk.initialRoot⟩
    mempool := []
    blockCounter := n.disk.getBlockCounter
    poisoned := false
    worker := .sleeping
    prover := .sleeping
    submitted := [] }

/-- The first start, with an empty queue database.  Of an empty state tree `main` takes the default
for the head root. -/
def init (tree : T) (root : Hash) (l1 : Bridge) : Node T where
  disk := { Disk.new tree with headroot := some root }
  heads := ⟨root, root⟩
  mempool := []
  blockCounter := 0
  poisoned := false
  worker := .sleeping
  prover := .sleeping
  l1 := l1
  submissions := []
  submitted := []
  committed := []
  provenBlocks := []

section

variable (env : Deployment) (m : Monotree T) (bincode : Bincode) (l1Enabled : Bool)

/-! ## The optimistic worker -/

/-- With L1 disabled there is nothing to fetch. -/
def tick (n : Node T) : Option (Node T) :=
  match n.worker with
  | .sleeping =>
    if l1Enabled then some { n with worker := .fetching .start .start }
    else some { n with worker := .fetching (.done 0 []) (.done 0 []) }
  | _ => none

def fetchDeposits (n : Node T) : Option (Node T) :=
  match n.worker with
  | .fetching d f =>
    match d, fetchNewDeposits n.l1 d with
    | .done _ _, _ => none
    | _, some d => some { n with worker := .fetching d f }
    | _, none => some { n with worker := .dead }
  | _ => none

def fetchForcedTxs (n : Node T) : Option (Node T) :=
  match n.worker with
  | .fetching d f =>
    match f, fetchNewForcedTxs bincode n.l1 f with
    | .done _ _, _ => none
    | _, some f => some { n with worker := .fetching d f }
    | _, none => some { n with worker := .dead }
  | _ => none

/-- The mempool is copied under its read lock. -/
def copyTxs (n : Node T) : Option (Node T) :=
  match n.worker with
  | .fetching (.done _ deposits) (.done _ forcedTxs) =>
    if n.mempool = [] ∧ deposits = [] ∧ forcedTxs = [] then some { n with worker := .sleeping }
    else some { n with worker := .copied ⟨n.mempool, deposits, forcedTxs⟩ }
  | _ => none

def readHead (n : Node T) : Option (Node T) :=
  match n.worker with
  | .copied batch => some { n with worker := .rootRead batch n.heads.optimistic }
  | _ => none

/-- The tree is locked, and the executor commits to it. -/
def execute (order : IterOrder) (n : Node T) : Option (Node T) :=
  match n.worker with
  | .rootRead batch preRoot =>
    if n.poisoned then some { n with worker := .dead }
    else
      match applyOptimisticBatch (Core.getAccount m bincode) m env.crypto order n.disk.tree
          (some preRoot) batch.txs batch.deposits batch.forcedTxs with
      | (.ok newRoot, tree) =>
        some { n with disk := { n.disk with tree }, worker := .executed batch preRoot newRoot }
      | (.error (.err _), tree) => some { n with disk := { n.disk with tree }, worker := .dead }
      | (.error (.panic _), tree) =>
        some { n with disk := { n.disk with tree }, poisoned := true, worker := .dead }
  | _ => none

def setHeadroot (n : Node T) : Option (Node T) :=
  match n.worker with
  | .executed batch preRoot newRoot =>
    some { n with
      disk := { n.disk with headroot := some newRoot }
      worker := .headrootSet batch preRoot newRoot }
  | _ => none

/-- `fetch_add`, which wraps; the lock is released. -/
def countBlock (n : Node T) : Option (Node T) :=
  match n.worker with
  | .headrootSet batch preRoot newRoot =>
    some { n with
      blockCounter := n.blockCounter + 1
      worker := .numbered (batch.block n.blockCounter preRoot newRoot) }
  | _ => none

def moveHead (n : Node T) : Option (Node T) :=
  match n.worker with
  | .numbered block =>
    some { n with
      heads := { n.heads with optimistic := block.postStateRoot }
      worker := .headMoved block }
  | _ => none

/-- `mempool.drain(..txs.len())`, a panic if there are fewer. -/
def drain (n : Node T) : Option (Node T) :=
  match n.worker with
  | .headMoved block =>
    if block.txs.length ≤ n.mempool.length then
      some { n with mempool := n.mempool.drop block.txs.length, worker := .drained block }
    else some { n with worker := .dead }
  | _ => none

def commitBlock (n : Node T) : Option (Node T) :=
  match n.worker with
  | .drained block =>
    some { n with
      disk := n.disk.commitOptimisticBlock block (block.blockNumber + 1)
      committed := n.committed ++ [block]
      worker := .sleeping }
  | _ => none

/-- A request to L1 or a write to a database fails; `set_headroot` does not return an error but
panics. -/
def workerFails (n : Node T) : Option (Node T) :=
  match n.worker with
  | .fetching _ _ | .rootRead _ _ | .drained _ => some { n with worker := .dead }
  | .executed _ _ _ => some { n with poisoned := true, worker := .dead }
  | _ => none

/-! ## The prover worker -/

def peekPending (n : Node T) : Option (Node T) :=
  match n.prover, n.disk.pending.peek with
  | .sleeping, some block => some { n with prover := .proving block 0 }
  | _, _ => none

/-- An attempt has failed. -/
def countRetry (n : Node T) (block : PendingBlock) (retries : ℕ) : Node T :=
  if System.maxRetries ≤ retries + 1 then { n with prover := .givenUp block }
  else { n with prover := .proving block (retries + 1) }

def treeLocked (n : Node T) : Bool :=
  match n.worker with
  | .executed _ _ _ | .headrootSet _ _ _ => true
  | _ => false

/-- The proofs of the accounts, the proof of the block, and the comparison of the roots. -/
def prove (n : Node T) : Option (Node T) :=
  match n.prover with
  | .proving block retries =>
    if n.treeLocked then none
    else if n.poisoned then some (n.countRetry block retries)
    else
      match Core.generateProofsForBlock m bincode env.crypto n.disk.tree block with
      | .error (.panic _) => some ({ n with poisoned := true }.countRetry block retries)
      | .error (.err _) => some (n.countRetry block retries)
      | .ok bundle =>
        match System.publicValuesOf env block bundle with
        | none => some (n.countRetry block retries)
        | some publicValues =>
          if l1Enabled then some { n with prover := .proved block retries publicValues }
          else some { n with prover := .settled block }
  | _ => none

/-- The transaction is on its way, whether or not the worker hears so. -/
def send (proofBytes : Bytes) (n : Node T) : Option (Node T) :=
  match n.prover with
  | .proved block retries publicValues =>
    some { n with
      submissions := n.submissions ++ [⟨block, publicValues, proofBytes, .pending⟩]
      prover := .sent block retries n.submissions.length }
  | _ => none

/-- The receipt has come. -/
def getReceipt (n : Node T) : Option (Node T) :=
  match n.prover with
  | .sent block retries i =>
    match n.submissions[i]?.map Submission.status with
    | some .accepted => some { n with prover := .settled block }
    | some .reverted => some (n.countRetry block retries)
    | _ => none
  | _ => none

/-- The prover does not answer, or sending the transaction or waiting for its receipt ends in an
error, whatever becomes of the transaction. -/
def attemptFails (n : Node T) : Option (Node T) :=
  match n.prover with
  | .proving block retries | .proved block retries _ | .sent block retries _ =>
    some (n.countRetry block retries)
  | _ => none

def moveProven (n : Node T) : Option (Node T) :=
  match n.prover with
  | .settled block =>
    some { n with
      heads := { n.heads with proven := block.postStateRoot }
      provenBlocks := n.provenBlocks ++ [block]
      prover := .provenMoved block }
  | _ => none

def pushFailed (n : Node T) : Option (Node T) :=
  match n.prover with
  | .givenUp block => some { n with disk := n.disk.pushFailed block, prover := .failedPushed block }
  | _ => none

def removePending (n : Node T) : Option (Node T) :=
  match n.prover with
  | .provenMoved block | .failedPushed block =>
    some { n with disk := n.disk.removePending block.blockNumber, prover := .sleeping }
  | _ => none

/-- The queue database fails. -/
def proverFails (n : Node T) : Option (Node T) :=
  match n.prover with
  | .sleeping | .provenMoved _ | .givenUp _ | .failedPushed _ => some { n with prover := .dead }
  | _ => none

/-! ## L1 -/

def setStatus (n : Node T) (i : ℕ) (status : TxStatus) : Node T :=
  { n with submissions := n.submissions.modify i fun tx ↦ { tx with status } }

/-- A call of somebody else; one that reverts changes nothing. -/
def callL1 (n : Node T) (call : Call) : Node T :=
  { n with l1 := (n.l1.exec env call).getD n.l1 }

/-- The `i`-th transaction is mined. -/
def mine (n : Node T) (i : ℕ) : Option (Node T) :=
  match n.submissions[i]? with
  | some ⟨_, publicValues, proofBytes, .pending⟩ =>
    match n.l1.exec env (.updateState publicValues proofBytes) with
    | some l1 => some { n.setStatus i .accepted with l1 }
    | none => some (n.setStatus i .reverted)
  | _ => none

/-- The `i`-th transaction is never mined. -/
def drop (n : Node T) (i : ℕ) : Option (Node T) :=
  match n.submissions[i]? with
  | some ⟨_, _, _, .pending⟩ => some (n.setStatus i .dropped)
  | _ => none

end

end Node

/-! ## Steps -/

inductive NodeEvent
  | submitTx (tx : Transaction)
  | tick
  | fetchDeposits
  | fetchForcedTxs
  | copyTxs
  | readHead
  | execute (order : IterOrder)
  | setHeadroot
  | countBlock
  | moveHead
  | drain
  | commitBlock
  | workerFails
  | peekPending
  | prove
  | send (proofBytes : Bytes)
  | getReceipt
  | attemptFails
  | moveProven
  | pushFailed
  | removePending
  | proverFails
  | callL1 (call : Call)
  | mine (i : ℕ)
  | drop (i : ℕ)
  | restart

namespace Node

variable {T : Type} (env : Deployment) (m : Monotree T) (bincode : Bincode) (l1Enabled : Bool)

def step (n : Node T) : NodeEvent → Option (Node T)
  | .submitTx tx => some { n with mempool := n.mempool ++ [tx], submitted := n.submitted ++ [tx] }
  | .tick => n.tick l1Enabled
  | .fetchDeposits => n.fetchDeposits
  | .fetchForcedTxs => n.fetchForcedTxs bincode
  | .copyTxs => n.copyTxs
  | .readHead => n.readHead
  | .execute order => n.execute env m bincode order
  | .setHeadroot => n.setHeadroot
  | .countBlock => n.countBlock
  | .moveHead => n.moveHead
  | .drain => n.drain
  | .commitBlock => n.commitBlock
  | .workerFails => n.workerFails
  | .peekPending => n.peekPending
  | .prove => n.prove env m bincode l1Enabled
  | .send proofBytes => n.send proofBytes
  | .getReceipt => n.getReceipt
  | .attemptFails => n.attemptFails
  | .moveProven => n.moveProven
  | .pushFailed => n.pushFailed
  | .removePending => n.removePending
  | .proverFails => n.proverFails
  | .callL1 call => some (n.callL1 env call)
  | .mine i => n.mine env i
  | .drop i => n.drop i
  | .restart => some n.restart

/-- A sequence of events; `none` if one of them cannot happen. -/
def run (n : Node T) : List NodeEvent → Option (Node T)
  | [] => some n
  | e :: events => (n.step env m bincode l1Enabled e).bind fun n ↦ n.run events

end Node

end TinyRollup
