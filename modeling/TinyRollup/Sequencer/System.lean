import TinyRollup.Core.Provable
import TinyRollup.Sequencer.Fetch

/-!
# The sequencer and L1

The state of the sequencer with L1 enabled, and the steps of its parts: the optimistic worker, which
makes blocks, the prover worker, which proves them one at a time and sends the proofs to L1, and the
bridge, which anyone may call.  The steps are taken in any order.

Every request that the optimistic worker makes to L1 is a step of its own, so that L1 may change
between two of them.  Making a block is one step, under the lock of the tree, and committing it
another one.  A transaction sent to L1 is mined at any later time, or never.  What fails for a
reason outside of the state (a node that does not answer, a database that does not write) may fail
at any time: a worker that returns an error is gone.

`committed` is history and not state: the blocks that the optimistic worker has committed, each with
the positions in the L1 queues at which its entries were read.
-/

set_option autoImplicit false

namespace TinyRollup

open ByteString Word Stf

/-! ## Fetching the entries of a queue -/

/-- How far `fetch_new_deposits` or `fetch_new_forced_txs` has come. -/
inductive Fetch (α : Type)
  | start
  | processed (processedCount : UInt64)
  | counted (processedCount l1Count : UInt64)
  | done (processedCount : UInt64) (items : List α)

/-- `U256::from(x)`. -/
def u256 (x : UInt64) : U256 := BitVec.ofNat 256 x.toNat

/-- The next request of a fetch, the common body of `fetch_new_deposits` and
`fetch_new_forced_txs`.  `none` is an error or a panic. -/
def Fetch.next {α β : Type} (processedCount l1Count : U256)
    (getRange : U256 → U256 → Option (List β)) (convert : β → Run Unit α) :
    Fetch α → Option (Fetch α)
  | .start => (toU64 processedCount : Run Unit UInt64).toOption.map .processed
  | .processed p => (toU64 l1Count : Run Unit UInt64).toOption.map (.counted p)
  | .counted p n =>
    if p < n then do
      let fromL1 ← getRange (u256 p) (u256 (n - p))
      let items ← (fromL1.mapM convert).toOption
      return .done p items
    else some (.done p [])
  | .done _ _ => none

def fetchNewDeposits (l1 : Bridge) : Fetch Deposit → Option (Fetch Deposit) :=
  Fetch.next l1.processedDepositCount l1.depositCount l1.getDeposits toDeposit

def fetchNewForcedTxs (bincode : Bincode) (l1 : Bridge) :
    Fetch ForcedTx → Option (Fetch ForcedTx) :=
  Fetch.next l1.processedForcedTxCount l1.forcedTxCount l1.getForcedTransactions
    (toForcedTx bincode)

/-! ## The state -/

/-- A block with the positions of its first deposit and its first forced transaction in the queues
of L1. -/
structure Included where
  block : PendingBlock
  firstDeposit : ℕ
  firstForced : ℕ

/-- The optimistic worker. -/
inductive Worker
  | sleeping
  | fetching (deposits : Fetch Deposit) (forcedTxs : Fetch ForcedTx)
  /-- A block was made and is not committed yet. -/
  | made (block : Included)
  | dead

/-- The prover worker. -/
inductive Prover
  | sleeping
  | proving (block : PendingBlock) (retries : ℕ)
  /-- The proof was sent to L1. -/
  | sent (block : PendingBlock) (retries : ℕ) (publicValues : Bytes)
  | dead

structure System (T : Type) where
  l1 : Bridge
  /-- The transactions sent to L1 and not mined yet. -/
  l1Mempool : List Call
  mempool : List Transaction
  tree : T
  headroot : Hash
  /-- A panic while the tree was locked. -/
  poisoned : Bool
  optimistic : Hash
  proven : Hash
  blockCounter : UInt64
  pending : List PendingBlock
  failed : List PendingBlock
  worker : Worker
  prover : Prover
  committed : List Included

/-- The start from an empty queue database. -/
def System.init {T : Type} (tree : T) (root initialStateRoot : Hash) : System T where
  l1 := Bridge.init initialStateRoot
  l1Mempool := []
  mempool := []
  tree := tree
  headroot := root
  poisoned := false
  optimistic := root
  proven := root
  blockCounter := 0
  pending := []
  failed := []
  worker := .sleeping
  prover := .sleeping
  committed := []

namespace System

/-! ## The optimistic worker -/

section

variable {T : Type} (env : Deployment) (m : Monotree T) (bincode : Bincode)

/-- The next request to L1 for deposits. -/
def fetchDeposits (s : System T) : Option (System T) :=
  match s.worker with
  | .fetching d f =>
    match d, fetchNewDeposits s.l1 d with
    | .done _ _, _ => none
    | _, some d => some { s with worker := .fetching d f }
    | _, none => some { s with worker := .dead }
  | _ => none

/-- The next request to L1 for forced transactions. -/
def fetchForcedTxs (s : System T) : Option (System T) :=
  match s.worker with
  | .fetching d f =>
    match f, fetchNewForcedTxs bincode s.l1 f with
    | .done _ _, _ => none
    | _, some f => some { s with worker := .fetching d f }
    | _, none => some { s with worker := .dead }
  | _ => none

/-- The block made of what was fetched and of the mempool. -/
def nextBlock (s : System T) (deposits : List Deposit) (forcedTxs : List ForcedTx) (root : Hash) :
    PendingBlock where
  blockNumber := s.blockCounter
  txs := s.mempool
  deposits := deposits
  forcedTxs := forcedTxs
  preStateRoot := s.optimistic
  postStateRoot := root

/-- Both fetches are through: a block is made, unless there is nothing to put into it. -/
def makeBlock (order : IterOrder) (s : System T) : Option (System T) :=
  match s.worker with
  | .fetching (.done p deposits) (.done q forcedTxs) =>
    if s.mempool = [] ∧ deposits = [] ∧ forcedTxs = [] then
      some { s with worker := .sleeping }
    else if s.poisoned then
      some { s with worker := .dead }
    else
      match applyOptimisticBatch (Core.getAccount m bincode) m env.crypto order s.tree
          (some s.optimistic) s.mempool deposits forcedTxs with
      | (.ok root, tree) =>
        some { s with
          tree
          headroot := root
          blockCounter := s.blockCounter + 1
          worker := .made
            { block := s.nextBlock deposits forcedTxs root
              firstDeposit := p.toNat
              firstForced := q.toNat } }
      | (.error (.err _), tree) => some { s with tree, worker := .dead }
      | (.error (.panic _), tree) => some { s with tree, poisoned := true, worker := .dead }
  | _ => none

/-- The head moves, the transactions leave the mempool, and the block is written to the queue of the
prover. -/
def commitOptimisticBlock (s : System T) : Option (System T) :=
  match s.worker with
  | .made b =>
    some { s with
      optimistic := b.block.postStateRoot
      mempool := s.mempool.drop b.block.txs.length
      pending := s.pending ++ [b.block]
      committed := s.committed ++ [b]
      worker := .sleeping }
  | _ => none

/-- The worker returns an error; if it fails to write the block, the head has already moved. -/
def workerFails (s : System T) : System T :=
  match s.worker with
  | .made b =>
    { s with
      optimistic := b.block.postStateRoot
      mempool := s.mempool.drop b.block.txs.length
      worker := .dead }
  | _ => { s with worker := .dead }

/-! ## The prover worker -/

def maxRetries : ℕ := 3

def removePending (s : System T) (blockNumber : UInt64) : List PendingBlock :=
  s.pending.filter fun b ↦ b.blockNumber ≠ blockNumber

/-- An attempt to prove the block has failed. -/
def attemptFails (s : System T) (block : PendingBlock) (retries : ℕ) : System T :=
  if maxRetries ≤ retries + 1 then
    { s with
      failed := s.failed ++ [block]
      pending := s.removePending block.blockNumber
      prover := .sleeping }
  else { s with prover := .proving block (retries + 1) }

def peekPending (s : System T) : Option (System T) :=
  match s.prover, s.pending with
  | .sleeping, b :: _ => some { s with prover := .proving b 0 }
  | _, _ => none

/-- The public values with which the guest proves the block; `none` is an error of the prover. -/
def publicValuesOf (block : PendingBlock) (bundle : ProofBundle) : Option Bytes := do
  let publicValues ← (guestMain env.crypto (block.inputs bundle)).toOption
  let decodedPv ← Bridge.abiDecode publicValues
  if decodedPv.postStateRoot = block.postStateRoot then some publicValues else none

/-- `process_and_prove_batch` up to the transaction it sends. -/
def processAndProve (proofBytes : Bytes) (s : System T) : Option (System T) :=
  match s.prover with
  | .proving block retries =>
    if s.poisoned then some (s.attemptFails block retries)
    else
      match Core.generateProofsForBlock m bincode env.crypto s.tree block with
      | .error (.panic _) => some ({ s with poisoned := true }.attemptFails block retries)
      | .error (.err _) => some (s.attemptFails block retries)
      | .ok bundle =>
        match publicValuesOf env block bundle with
        | none => some (s.attemptFails block retries)
        | some publicValues =>
          some { s with
            l1Mempool := s.l1Mempool ++ [.updateState publicValues proofBytes]
            prover := .sent block retries publicValues }
  | _ => none

/-- The receipt of the transaction has come. -/
def confirm (s : System T) : Option (System T) :=
  match s.prover with
  | .sent block _ publicValues =>
    if publicValues ∈ s.l1.accepted then
      some { s with
        proven := block.postStateRoot
        pending := s.removePending block.blockNumber
        prover := .sleeping }
    else none
  | _ => none

/-- The prover does not answer, the transaction reverts or its receipt does not come. -/
def proverFails (s : System T) : Option (System T) :=
  match s.prover with
  | .proving block retries | .sent block retries _ => some (s.attemptFails block retries)
  | _ => none

/-! ## L1 -/

/-- A call of the bridge; one that reverts changes nothing. -/
def callL1 (s : System T) (call : Call) : System T :=
  { s with l1 := (s.l1.exec env call).getD s.l1 }

/-- The `i`-th of the sent transactions is mined. -/
def mine (s : System T) (i : ℕ) : Option (System T) :=
  match s.l1Mempool[i]? with
  | some call => some { s.callL1 env call with l1Mempool := s.l1Mempool.eraseIdx i }
  | none => none

end

end System

/-! ## Steps -/

/-- What happens next. -/
inductive Event
  | callL1 (call : Call)
  | mine (i : ℕ)
  | submitTx (tx : Transaction)
  | tick
  | fetchDeposits
  | fetchForcedTxs
  | makeBlock (order : IterOrder)
  | commitOptimisticBlock
  | workerFails
  | peekPending
  | processAndProve (proofBytes : Bytes)
  | confirm
  | proverFails
  | proverDies

namespace System

variable {T : Type} (env : Deployment) (m : Monotree T) (bincode : Bincode)

def step (s : System T) : Event → Option (System T)
  | .callL1 call => some (s.callL1 env call)
  | .mine i => s.mine env i
  | .submitTx tx => some { s with mempool := s.mempool ++ [tx] }
  | .tick =>
    match s.worker with
    | .sleeping => some { s with worker := .fetching .start .start }
    | _ => none
  | .fetchDeposits => s.fetchDeposits
  | .fetchForcedTxs => s.fetchForcedTxs bincode
  | .makeBlock order => s.makeBlock env m bincode order
  | .commitOptimisticBlock => s.commitOptimisticBlock
  | .workerFails => some s.workerFails
  | .peekPending => s.peekPending
  | .processAndProve proofBytes => s.processAndProve env m bincode proofBytes
  | .confirm => s.confirm
  | .proverFails => s.proverFails
  | .proverDies => some { s with prover := .dead }

/-- A sequence of events; `none` if one of them cannot happen. -/
def run (s : System T) : List Event → Option (System T)
  | [] => some s
  | e :: events => (s.step env m bincode e).bind fun s ↦ s.run events

end System

end TinyRollup
