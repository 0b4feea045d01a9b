import TinyRollup.Sequencer.Node

/-!
# What a step of the process does

A step is taken by the optimistic worker, by the prover worker, or by somebody else.  `WorkerStep`
and `ProverStep` list what the workers can do, one constructor for every way through a piece of
their loops, and `step_cases` sorts every step.  Each of the parts leaves the state of the others as
it is (`SameWorker`, `SameProver`), so an invariant of one part is checked for its own steps alone.
-/

set_option autoImplicit false

namespace TinyRollup

open ByteString Word Stf

namespace OptimisticWorker

/-- The batch is made, and the head root is not written yet. -/
inductive BeforeHeadroot : OptimisticWorker → Prop
  | fetching (d : Fetch Deposit) (f : Fetch ForcedTx) : BeforeHeadroot (.fetching d f)
  | rootRead (batch : BlockContents) (preRoot : Hash) : BeforeHeadroot (.rootRead batch preRoot)
  | executed (batch : BlockContents) (preRoot newRoot : Hash) :
    BeforeHeadroot (.executed batch preRoot newRoot)

end OptimisticWorker

namespace ProverWorker

/-- The block that the worker is at, from `peek_pending` to `remove_pending`. -/
def block? : ProverWorker → Option PendingBlock
  | .proving block _ | .proved block _ _ | .sent block _ _ | .settled block | .provenMoved block
  | .givenUp block | .failedPushed block => some block
  | .sleeping | .dead => none

/-- The attempt under way. -/
def attempt? : ProverWorker → Option (PendingBlock × ℕ)
  | .proving block retries | .proved block retries _ | .sent block retries _ =>
    some (block, retries)
  | _ => none

theorem block?_of_attempt? {p : ProverWorker} {block : PendingBlock} {retries : ℕ}
    (h : p.attempt? = some (block, retries)) : p.block? = some block := by
  cases p <;> simp_all [attempt?, block?]

end ProverWorker

namespace Node

section

variable {T : Type} (env : Deployment) (m : Monotree T) (bincode : Bincode) (l1Enabled : Bool)

/-- The steps of the optimistic worker. -/
inductive WorkerStep (n : Node T) : NodeEvent → Node T → Prop
  | tick {d : Fetch Deposit} {f : Fetch ForcedTx} (h : n.worker = .sleeping) :
      WorkerStep n .tick { n with worker := .fetching d f }
  | fetches {e : NodeEvent} {d d' : Fetch Deposit} {f f' : Fetch ForcedTx}
      (h : n.worker = .fetching d f) : WorkerStep n e { n with worker := .fetching d' f' }
  | nothingNew {d : Fetch Deposit} {f : Fetch ForcedTx} (h : n.worker = .fetching d f) :
      WorkerStep n .copyTxs { n with worker := .sleeping }
  | copyTxs {d : Fetch Deposit} {f : Fetch ForcedTx} {deposits : List Deposit}
      {forcedTxs : List ForcedTx} (h : n.worker = .fetching d f) :
      WorkerStep n .copyTxs { n with worker := .copied ⟨n.mempool, deposits, forcedTxs⟩ }
  | readHead {batch : BlockContents} (h : n.worker = .copied batch) :
      WorkerStep n .readHead { n with worker := .rootRead batch n.heads.optimistic }
  | execute {order : IterOrder} {batch : BlockContents} {preRoot newRoot : Hash} {tree : T}
      (h : n.worker = .rootRead batch preRoot)
      (hbatch : applyOptimisticBatch (Core.getAccount m bincode) m env.crypto order n.disk.tree
        (some preRoot) batch.txs batch.deposits batch.forcedTxs = (.ok newRoot, tree)) :
      WorkerStep n (.execute order)
        { n with disk := { n.disk with tree }, worker := .executed batch preRoot newRoot }
  | setHeadroot {batch : BlockContents} {preRoot newRoot : Hash}
      (h : n.worker = .executed batch preRoot newRoot) :
      WorkerStep n .setHeadroot { n with
        disk := { n.disk with headroot := some newRoot }
        worker := .headrootSet batch preRoot newRoot }
  | countBlock {batch : BlockContents} {preRoot newRoot : Hash}
      (h : n.worker = .headrootSet batch preRoot newRoot) :
      WorkerStep n .countBlock { n with
        blockCounter := n.blockCounter + 1
        worker := .numbered (batch.block n.blockCounter preRoot newRoot) }
  | moveHead {block : PendingBlock} (h : n.worker = .numbered block) :
      WorkerStep n .moveHead { n with
        heads := { n.heads with optimistic := block.postStateRoot }
        worker := .headMoved block }
  | drain {block : PendingBlock} (h : n.worker = .headMoved block)
      (hlength : block.txs.length ≤ n.mempool.length) :
      WorkerStep n .drain
        { n with mempool := n.mempool.drop block.txs.length, worker := .drained block }
  | drainPanics {block : PendingBlock} (h : n.worker = .headMoved block)
      (hlength : ¬ block.txs.length ≤ n.mempool.length) :
      WorkerStep n .drain { n with worker := .dead }
  | commitBlock {block : PendingBlock} (h : n.worker = .drained block) :
      WorkerStep n .commitBlock { n with
        disk := n.disk.commitOptimisticBlock block (block.blockNumber + 1)
        committed := n.committed ++ [block]
        worker := .sleeping }
  | commitFails {block : PendingBlock} (h : n.worker = .drained block) :
      WorkerStep n .workerFails { n with worker := .dead }
  /-- A request or the executor fails, possibly with a panic. -/
  | fails {e : NodeEvent} (tree : T) (poisoned : Bool) (h : n.worker.BeforeHeadroot) :
      WorkerStep n e { n with disk := { n.disk with tree }, poisoned, worker := .dead }

/-- The steps of the prover worker. -/
inductive ProverStep (n : Node T) : NodeEvent → Node T → Prop
  | peekPending {block : PendingBlock} (h : n.prover = .sleeping)
      (hpeek : n.disk.pending.peek = some block) :
      ProverStep n .peekPending { n with prover := .proving block 0 }
  | proves {block : PendingBlock} {retries : ℕ} {bundle : ProofBundle} {publicValues : Bytes}
      (h : n.prover = .proving block retries) (hl1 : l1Enabled = true)
      (hpv : System.publicValuesOf env block bundle = some publicValues) :
      ProverStep n .prove { n with prover := .proved block retries publicValues }
  | provesOffline {block : PendingBlock} {retries : ℕ} (h : n.prover = .proving block retries)
      (hl1 : l1Enabled = false) : ProverStep n .prove { n with prover := .settled block }
  | proveFails {block : PendingBlock} {retries : ℕ} (poisoned : Bool)
      (h : n.prover = .proving block retries) :
      ProverStep n .prove ({ n with poisoned }.countRetry block retries)
  | send {proofBytes publicValues : Bytes} {block : PendingBlock} {retries : ℕ}
      (h : n.prover = .proved block retries publicValues) :
      ProverStep n (.send proofBytes) { n with
        submissions := n.submissions ++ [⟨block, publicValues, proofBytes, .pending⟩]
        prover := .sent block retries n.submissions.length }
  | receiptAccepted {block : PendingBlock} {retries i : ℕ} (h : n.prover = .sent block retries i)
      (hstatus : n.submissions[i]?.map Submission.status = some .accepted) :
      ProverStep n .getReceipt { n with prover := .settled block }
  | receiptReverted {block : PendingBlock} {retries i : ℕ} (h : n.prover = .sent block retries i)
      (hstatus : n.submissions[i]?.map Submission.status = some .reverted) :
      ProverStep n .getReceipt (n.countRetry block retries)
  | attemptFails {block : PendingBlock} {retries : ℕ}
      (h : n.prover.attempt? = some (block, retries)) :
      ProverStep n .attemptFails (n.countRetry block retries)
  | moveProven {block : PendingBlock} (h : n.prover = .settled block) :
      ProverStep n .moveProven { n with
        heads := { n.heads with proven := block.postStateRoot }
        provenBlocks := n.provenBlocks ++ [block]
        prover := .provenMoved block }
  | pushFailed {block : PendingBlock} (h : n.prover = .givenUp block) :
      ProverStep n .pushFailed
        { n with disk := n.disk.pushFailed block, prover := .failedPushed block }
  | removePending {block : PendingBlock}
      (h : n.prover = .provenMoved block ∨ n.prover = .failedPushed block) :
      ProverStep n .removePending
        { n with disk := n.disk.removePending block.blockNumber, prover := .sleeping }
  | dies (h : n.prover.attempt? = none) : ProverStep n .proverFails { n with prover := .dead }

/-- The steps of L1. -/
inductive L1Step (n : Node T) : NodeEvent → Node T → Prop
  | callL1 (call : Call) : L1Step n (.callL1 call) (n.callL1 env call)
  | accepted {i : ℕ} {tx : Submission} {l1 : Bridge} (h : n.submissions[i]? = some tx)
      (hpending : tx.status = .pending)
      (hexec : n.l1.exec env (.updateState tx.publicValues tx.proofBytes) = some l1) :
      L1Step n (.mine i) { n.setStatus i .accepted with l1 }
  | reverted {i : ℕ} {tx : Submission} (h : n.submissions[i]? = some tx)
      (hpending : tx.status = .pending) : L1Step n (.mine i) (n.setStatus i .reverted)
  | dropped {i : ℕ} {tx : Submission} (h : n.submissions[i]? = some tx)
      (hpending : tx.status = .pending) : L1Step n (.drop i) (n.setStatus i .dropped)

/-- The steps, by who takes them. -/
inductive Taken (n : Node T) : NodeEvent → Node T → Prop
  | submitTx (tx : Transaction) :
      Taken n (.submitTx tx)
        { n with mempool := n.mempool ++ [tx], submitted := n.submitted ++ [tx] }
  | worker {e : NodeEvent} {n' : Node T} (h : n.WorkerStep env m bincode e n') : Taken n e n'
  | prover {e : NodeEvent} {n' : Node T} (h : n.ProverStep env l1Enabled e n') : Taken n e n'
  | l1 {e : NodeEvent} {n' : Node T} (h : n.L1Step env e n') : Taken n e n'
  | restart : Taken n .restart n.restart

end

section

variable {T : Type} {env : Deployment} {m : Monotree T} {bincode : Bincode} {l1Enabled : Bool}
  {e : NodeEvent} {n n' : Node T}

/-! ## Every step is one of these -/

theorem workerStep_tick (h : n.tick l1Enabled = some n') : n.WorkerStep env m bincode .tick n' := by
  rw [tick] at h
  split at h
  · rename_i hworker
    split at h
    · rw [← Option.some_inj.mp h]
      exact .tick hworker
    · rw [← Option.some_inj.mp h]
      exact .tick hworker
  · exact absurd h (by simp)

theorem workerStep_fetchDeposits (h : n.fetchDeposits = some n') :
    n.WorkerStep env m bincode .fetchDeposits n' := by
  rw [fetchDeposits] at h
  split at h
  swap
  · exact absurd h (by simp)
  rename_i hworker
  split at h
  · exact absurd h (by simp)
  · rw [← Option.some_inj.mp h]
    exact .fetches hworker
  · rw [← Option.some_inj.mp h]
    exact .fails n.disk.tree n.poisoned (hworker ▸ .fetching _ _)

theorem workerStep_fetchForcedTxs (h : n.fetchForcedTxs bincode = some n') :
    n.WorkerStep env m bincode .fetchForcedTxs n' := by
  rw [fetchForcedTxs] at h
  split at h
  swap
  · exact absurd h (by simp)
  rename_i hworker
  split at h
  · exact absurd h (by simp)
  · rw [← Option.some_inj.mp h]
    exact .fetches hworker
  · rw [← Option.some_inj.mp h]
    exact .fails n.disk.tree n.poisoned (hworker ▸ .fetching _ _)

theorem workerStep_copyTxs (h : n.copyTxs = some n') : n.WorkerStep env m bincode .copyTxs n' := by
  rw [copyTxs] at h
  split at h
  · rename_i hworker
    split at h
    · rw [← Option.some_inj.mp h]
      exact .nothingNew hworker
    · rw [← Option.some_inj.mp h]
      exact .copyTxs hworker
  · exact absurd h (by simp)

theorem workerStep_readHead (h : n.readHead = some n') :
    n.WorkerStep env m bincode .readHead n' := by
  rw [readHead] at h
  split at h
  · rename_i hworker
    rw [← Option.some_inj.mp h]
    exact .readHead hworker
  · exact absurd h (by simp)

theorem workerStep_execute {order : IterOrder} (h : n.execute env m bincode order = some n') :
    n.WorkerStep env m bincode (.execute order) n' := by
  rw [execute] at h
  split at h
  swap
  · exact absurd h (by simp)
  rename_i batch preRoot hworker
  have hbefore : n.worker.BeforeHeadroot := hworker ▸ .rootRead batch preRoot
  split at h
  · rw [← Option.some_inj.mp h]
    exact .fails n.disk.tree n.poisoned hbefore
  split at h
  · rename_i hbatch
    rw [← Option.some_inj.mp h]
    exact .execute hworker hbatch
  · rw [← Option.some_inj.mp h]
    exact .fails _ n.poisoned hbefore
  · rw [← Option.some_inj.mp h]
    exact .fails _ true hbefore

theorem workerStep_setHeadroot (h : n.setHeadroot = some n') :
    n.WorkerStep env m bincode .setHeadroot n' := by
  rw [setHeadroot] at h
  split at h
  · rename_i hworker
    rw [← Option.some_inj.mp h]
    exact .setHeadroot hworker
  · exact absurd h (by simp)

theorem workerStep_countBlock (h : n.countBlock = some n') :
    n.WorkerStep env m bincode .countBlock n' := by
  rw [countBlock] at h
  split at h
  · rename_i hworker
    rw [← Option.some_inj.mp h]
    exact .countBlock hworker
  · exact absurd h (by simp)

theorem workerStep_moveHead (h : n.moveHead = some n') :
    n.WorkerStep env m bincode .moveHead n' := by
  rw [moveHead] at h
  split at h
  · rename_i hworker
    rw [← Option.some_inj.mp h]
    exact .moveHead hworker
  · exact absurd h (by simp)

theorem workerStep_drain (h : n.drain = some n') : n.WorkerStep env m bincode .drain n' := by
  rw [drain] at h
  split at h
  · rename_i hworker
    split at h
    · rename_i hlength
      rw [← Option.some_inj.mp h]
      exact .drain hworker hlength
    · rename_i hlength
      rw [← Option.some_inj.mp h]
      exact .drainPanics hworker hlength
  · exact absurd h (by simp)

theorem workerStep_commitBlock (h : n.commitBlock = some n') :
    n.WorkerStep env m bincode .commitBlock n' := by
  rw [commitBlock] at h
  split at h
  · rename_i hworker
    rw [← Option.some_inj.mp h]
    exact .commitBlock hworker
  · exact absurd h (by simp)

theorem workerStep_workerFails (h : n.workerFails = some n') :
    n.WorkerStep env m bincode .workerFails n' := by
  rw [workerFails] at h
  split at h
  · rename_i hworker
    rw [← Option.some_inj.mp h]
    exact .fails n.disk.tree n.poisoned (hworker ▸ .fetching _ _)
  · rename_i hworker
    rw [← Option.some_inj.mp h]
    exact .fails n.disk.tree n.poisoned (hworker ▸ .rootRead _ _)
  · rename_i hworker
    rw [← Option.some_inj.mp h]
    exact .commitFails hworker
  · rename_i hworker
    rw [← Option.some_inj.mp h]
    exact .fails n.disk.tree true (hworker ▸ .executed _ _ _)
  · exact absurd h (by simp)

theorem proverStep_peekPending (h : n.peekPending = some n') :
    n.ProverStep env l1Enabled .peekPending n' := by
  rw [peekPending] at h
  split at h
  · rename_i hprover hpeek
    rw [← Option.some_inj.mp h]
    exact .peekPending hprover hpeek
  · exact absurd h (by simp)

theorem proverStep_prove (h : n.prove env m bincode l1Enabled = some n') :
    n.ProverStep env l1Enabled .prove n' := by
  rw [prove] at h
  split at h
  swap
  · exact absurd h (by simp)
  rename_i hprover
  split at h
  · exact absurd h (by simp)
  split at h
  · rw [← Option.some_inj.mp h]
    exact .proveFails n.poisoned hprover
  split at h
  · rw [← Option.some_inj.mp h]
    exact .proveFails true hprover
  · rw [← Option.some_inj.mp h]
    exact .proveFails n.poisoned hprover
  rename_i bundle hbundle
  split at h
  · rw [← Option.some_inj.mp h]
    exact .proveFails n.poisoned hprover
  rename_i publicValues hpv
  split at h
  · rename_i hl1
    rw [← Option.some_inj.mp h]
    exact .proves hprover hl1 hpv
  · rename_i hl1
    rw [← Option.some_inj.mp h]
    exact .provesOffline hprover (Bool.eq_false_iff.mpr hl1)

theorem proverStep_send {proofBytes : Bytes} (h : n.send proofBytes = some n') :
    n.ProverStep env l1Enabled (.send proofBytes) n' := by
  rw [send] at h
  split at h
  · rename_i hprover
    rw [← Option.some_inj.mp h]
    exact .send hprover
  · exact absurd h (by simp)

theorem proverStep_getReceipt (h : n.getReceipt = some n') :
    n.ProverStep env l1Enabled .getReceipt n' := by
  rw [getReceipt] at h
  split at h
  swap
  · exact absurd h (by simp)
  rename_i hprover
  split at h
  · rename_i hstatus
    rw [← Option.some_inj.mp h]
    exact .receiptAccepted hprover hstatus
  · rename_i hstatus
    rw [← Option.some_inj.mp h]
    exact .receiptReverted hprover hstatus
  · exact absurd h (by simp)

theorem proverStep_attemptFails (h : n.attemptFails = some n') :
    n.ProverStep env l1Enabled .attemptFails n' := by
  rw [attemptFails] at h
  split at h <;> first
    | (rename_i hprover
       rw [← Option.some_inj.mp h]
       exact .attemptFails (by rw [hprover]; rfl))
    | exact absurd h (by simp)

theorem proverStep_moveProven (h : n.moveProven = some n') :
    n.ProverStep env l1Enabled .moveProven n' := by
  rw [moveProven] at h
  split at h
  · rename_i hprover
    rw [← Option.some_inj.mp h]
    exact .moveProven hprover
  · exact absurd h (by simp)

theorem proverStep_pushFailed (h : n.pushFailed = some n') :
    n.ProverStep env l1Enabled .pushFailed n' := by
  rw [pushFailed] at h
  split at h
  · rename_i hprover
    rw [← Option.some_inj.mp h]
    exact .pushFailed hprover
  · exact absurd h (by simp)

theorem proverStep_removePending (h : n.removePending = some n') :
    n.ProverStep env l1Enabled .removePending n' := by
  rw [removePending] at h
  split at h
  · rename_i hprover
    rw [← Option.some_inj.mp h]
    exact .removePending (Or.inl hprover)
  · rename_i hprover
    rw [← Option.some_inj.mp h]
    exact .removePending (Or.inr hprover)
  · exact absurd h (by simp)

theorem proverStep_proverFails (h : n.proverFails = some n') :
    n.ProverStep env l1Enabled .proverFails n' := by
  rw [proverFails] at h
  split at h <;> first
    | (rename_i hprover
       rw [← Option.some_inj.mp h]
       exact .dies (by rw [hprover]; rfl))
    | exact absurd h (by simp)

theorem l1Step_mine {i : ℕ} (h : n.mine env i = some n') : n.L1Step env (.mine i) n' := by
  rw [mine] at h
  split at h
  swap
  · exact absurd h (by simp)
  rename_i hi
  split at h
  · rename_i hexec
    rw [← Option.some_inj.mp h]
    exact .accepted hi rfl hexec
  · rw [← Option.some_inj.mp h]
    exact .reverted hi rfl

theorem l1Step_drop {i : ℕ} (h : n.drop i = some n') : n.L1Step env (.drop i) n' := by
  rw [drop] at h
  split at h
  · rename_i hi
    rw [← Option.some_inj.mp h]
    exact .dropped hi rfl
  · exact absurd h (by simp)

/-- **Every step is taken by somebody.** -/
theorem step_cases (h : n.step env m bincode l1Enabled e = some n') :
    n.Taken env m bincode l1Enabled e n' := by
  cases e with
  | submitTx tx =>
    rw [← Option.some_inj.mp h]
    exact .submitTx tx
  | tick => exact .worker (workerStep_tick h)
  | fetchDeposits => exact .worker (workerStep_fetchDeposits h)
  | fetchForcedTxs => exact .worker (workerStep_fetchForcedTxs h)
  | copyTxs => exact .worker (workerStep_copyTxs h)
  | readHead => exact .worker (workerStep_readHead h)
  | execute order => exact .worker (workerStep_execute h)
  | setHeadroot => exact .worker (workerStep_setHeadroot h)
  | countBlock => exact .worker (workerStep_countBlock h)
  | moveHead => exact .worker (workerStep_moveHead h)
  | drain => exact .worker (workerStep_drain h)
  | commitBlock => exact .worker (workerStep_commitBlock h)
  | workerFails => exact .worker (workerStep_workerFails h)
  | peekPending => exact .prover (proverStep_peekPending h)
  | prove => exact .prover (proverStep_prove h)
  | send proofBytes => exact .prover (proverStep_send h)
  | getReceipt => exact .prover (proverStep_getReceipt h)
  | attemptFails => exact .prover (proverStep_attemptFails h)
  | moveProven => exact .prover (proverStep_moveProven h)
  | pushFailed => exact .prover (proverStep_pushFailed h)
  | removePending => exact .prover (proverStep_removePending h)
  | proverFails => exact .prover (proverStep_proverFails h)
  | callL1 call =>
    rw [← Option.some_inj.mp h]
    exact .l1 (.callL1 call)
  | mine i => exact .l1 (l1Step_mine h)
  | drop i => exact .l1 (l1Step_drop h)
  | restart =>
    rw [← Option.some_inj.mp h]
    exact .restart

/-! ## What the others leave as it is -/

theorem countRetry_eq (block : PendingBlock) (retries : ℕ) :
    n.countRetry block retries = { n with prover := .givenUp block } ∨
      n.countRetry block retries = { n with prover := .proving block (retries + 1) } := by
  rw [countRetry]
  split
  · exact Or.inl rfl
  · exact Or.inr rfl

/-- What the optimistic worker works with. -/
structure SameWorker (n n' : Node T) : Prop where
  worker : n'.worker = n.worker
  mempool : n'.mempool = n.mempool
  submitted : n'.submitted = n.submitted
  optimistic : n'.heads.optimistic = n.heads.optimistic
  blockCounter : n'.blockCounter = n.blockCounter
  headroot : n'.disk.headroot = n.disk.headroot
  storedCounter : n'.disk.blockCounter = n.disk.blockCounter
  committed : n'.committed = n.committed

theorem ProverStep.sameWorker (h : n.ProverStep env l1Enabled e n') : SameWorker n n' := by
  have hretry : ∀ (k : Node T) (block : PendingBlock) (retries : ℕ), SameWorker n k →
      SameWorker n (k.countRetry block retries) := by
    intro k block retries hk
    rcases k.countRetry_eq block retries with heq | heq <;> rw [heq] <;> exact { hk with }
  cases h with
  | proveFails poisoned _ => exact hretry _ _ _ ⟨rfl, rfl, rfl, rfl, rfl, rfl, rfl, rfl⟩
  | receiptReverted _ _ | attemptFails _ =>
    exact hretry _ _ _ ⟨rfl, rfl, rfl, rfl, rfl, rfl, rfl, rfl⟩
  | _ => exact ⟨rfl, rfl, rfl, rfl, rfl, rfl, rfl, rfl⟩

theorem L1Step.sameWorker (h : n.L1Step env e n') : SameWorker n n' := by
  cases h <;> exact ⟨rfl, rfl, rfl, rfl, rfl, rfl, rfl, rfl⟩

/-- What the prover worker works with, but for the queue it takes its blocks from. -/
structure SameProver (n n' : Node T) : Prop where
  prover : n'.prover = n.prover
  failed : n'.disk.failed = n.disk.failed
  proven : n'.heads.proven = n.heads.proven
  provenBlocks : n'.provenBlocks = n.provenBlocks
  l1 : n'.l1 = n.l1
  submissions : n'.submissions = n.submissions

theorem WorkerStep.sameProver (h : n.WorkerStep env m bincode e n') : SameProver n n' := by
  cases h <;> exact ⟨rfl, rfl, rfl, rfl, rfl, rfl⟩

/-- Only the commit of a block writes to the queue of the prover. -/
theorem WorkerStep.pending (h : n.WorkerStep env m bincode e n') :
    (n'.disk.pending = n.disk.pending ∧ n'.disk.blockCounter = n.disk.blockCounter ∧
        n'.committed = n.committed) ∨
      ∃ block, n.worker = .drained block ∧ n' = { n with
        disk := n.disk.commitOptimisticBlock block (block.blockNumber + 1)
        committed := n.committed ++ [block]
        worker := .sleeping } := by
  cases h with
  | commitBlock h => exact Or.inr ⟨_, h, rfl⟩
  | _ => exact Or.inl ⟨rfl, rfl, rfl⟩

/-! ## Runs -/

end

section

variable {T : Type} (env : Deployment) (m : Monotree T) (bincode : Bincode) (l1Enabled : Bool)

/-- Runs in which every event meets a condition on the state it comes in. -/
abbrev Reaches (ok : Node T → NodeEvent → Prop) : Node T → Node T → Prop :=
  Relation.ReflTransGen fun n n' ↦ ∃ e, ok n e ∧ n.step env m bincode l1Enabled e = some n'

variable {env m bincode l1Enabled}

theorem Reaches.mono {ok ok' : Node T → NodeEvent → Prop} {n n' : Node T}
    (h : Reaches env m bincode l1Enabled ok n n') (hok : ∀ k e, ok k e → ok' k e) :
    Reaches env m bincode l1Enabled ok' n n' :=
  h.lift id fun _ _ ⟨e, he, hstep⟩ ↦ ⟨e, hok _ e he, hstep⟩

theorem run_append {events more : List NodeEvent} {n : Node T} :
    n.run env m bincode l1Enabled (events ++ more)
      = (n.run env m bincode l1Enabled events).bind
        fun n ↦ n.run env m bincode l1Enabled more := by
  induction events generalizing n with
  | nil => rfl
  | cons e events ih =>
    rw [List.cons_append, run, run]
    cases n.step env m bincode l1Enabled e with
    | none => rfl
    | some n' => exact ih

theorem reaches_of_run {ok : Node T → NodeEvent → Prop} {events : List NodeEvent} {n n' : Node T}
    (hok : ∀ e ∈ events, ∀ k, ok k e) (h : n.run env m bincode l1Enabled events = some n') :
    Reaches env m bincode l1Enabled ok n n' := by
  induction events generalizing n with
  | nil =>
    obtain rfl := Option.some_inj.mp h
    exact .refl
  | cons e events ih =>
    rw [List.forall_mem_cons] at hok
    obtain ⟨k, hstep, hrest⟩ := Option.bind_eq_some_iff.mp h
    exact .head ⟨e, hok.1 n, hstep⟩ (ih hok.2 hrest)

/-- A sequence of events that pass a check in the states they come in. -/
def runIf (env : Deployment) (m : Monotree T) (bincode : Bincode) (l1Enabled : Bool)
    (check : Node T → NodeEvent → Bool) (n : Node T) : List NodeEvent → Option (Node T)
  | [] => some n
  | e :: events =>
    if check n e then
      (n.step env m bincode l1Enabled e).bind fun n ↦
        n.runIf env m bincode l1Enabled check events
    else none

theorem run_of_runIf {check : Node T → NodeEvent → Bool} {events : List NodeEvent} {n n' : Node T}
    (h : n.runIf env m bincode l1Enabled check events = some n') :
    n.run env m bincode l1Enabled events = some n' := by
  induction events generalizing n with
  | nil => exact h
  | cons e events ih =>
    rw [runIf] at h
    split at h
    · obtain ⟨k, hstep, hrest⟩ := Option.bind_eq_some_iff.mp h
      rw [run, hstep]
      exact ih hrest
    · exact absurd h (by simp)

theorem reaches_of_runIf {ok : Node T → NodeEvent → Prop} {check : Node T → NodeEvent → Bool}
    {events : List NodeEvent} {n n' : Node T} (hok : ∀ e ∈ events, ∀ k, check k e = true → ok k e)
    (h : n.runIf env m bincode l1Enabled check events = some n') :
    Reaches env m bincode l1Enabled ok n n' := by
  induction events generalizing n with
  | nil =>
    obtain rfl := Option.some_inj.mp h
    exact .refl
  | cons e events ih =>
    rw [List.forall_mem_cons] at hok
    rw [runIf] at h
    split at h
    · rename_i hcheck
      obtain ⟨k, hstep, hrest⟩ := Option.bind_eq_some_iff.mp h
      exact .head ⟨e, hok.1 n hcheck, hstep⟩ (ih hok.2 hrest)
    · exact absurd h (by simp)

/-- **An invariant of the steps is an invariant of the runs.** -/
theorem Reaches.invariant {ok : Node T → NodeEvent → Prop} {I : Node T → Prop} {n n' : Node T}
    (h : Reaches env m bincode l1Enabled ok n n') (hn : I n)
    (hstep : ∀ {k k' e}, I k → ok k e → k.Taken env m bincode l1Enabled e k' → I k') : I n' := by
  induction h with
  | refl => exact hn
  | tail _ hlast ih =>
    obtain ⟨e, hok, he⟩ := hlast
    exact hstep ih hok (step_cases he)

end

end Node

end TinyRollup
