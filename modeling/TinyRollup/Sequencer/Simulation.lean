import TinyRollup.Core.Generated
import TinyRollup.Sequencer.Inclusion
import TinyRollup.Sequencer.Submissions

/-!
# The process as the system with L1

`System` takes the making of a block, its commit, an attempt to prove it and the removal of a block
that is settled or given up as one step each; `Node` takes them in pieces, with requests, L1 and the
other worker in between.  This module shows that the pieces do not matter as long as the process is
not started again: every run of the process is a run of the system (`node_simulated`).

The system makes its block where the process executes it, so a transaction that is submitted between
the copy of the mempool and the execution is submitted to the system after it.  The system sends a
proof where the process has it proved; the transaction it sends is never mined there, and the one
that the process sends later is a call of somebody else.  The system removes a block as soon as its
fate is known.
-/

set_option autoImplicit false

namespace TinyRollup

open ByteString Word Stf

namespace System

/-! ## Steps of the system -/

section

variable {T : Type} {env : Deployment} {m : Monotree T} {bincode : Bincode} {s : System T}

theorem fetchDeposits_of_next {d d' : Fetch Deposit} {f : Fetch ForcedTx}
    (hworker : s.worker = .fetching d f) (hnext : fetchNewDeposits s.l1 d = some d') :
    s.fetchDeposits = some { s with worker := .fetching d' f } := by
  rw [fetchDeposits, hworker]
  cases d with
  | done => exact absurd hnext (by simp [fetchNewDeposits, Fetch.next])
  | _ => simp only [hnext]

theorem fetchDeposits_of_error {d : Fetch Deposit} {f : Fetch ForcedTx}
    (hworker : s.worker = .fetching d f) (hnext : fetchNewDeposits s.l1 d = none)
    (hdone : ∀ p items, d ≠ .done p items) :
    s.fetchDeposits = some { s with worker := .dead } := by
  rw [fetchDeposits, hworker]
  cases d with
  | done p items => exact absurd rfl (hdone p items)
  | _ => simp only [hnext]

theorem fetchForcedTxs_of_next {d : Fetch Deposit} {f f' : Fetch ForcedTx}
    (hworker : s.worker = .fetching d f) (hnext : fetchNewForcedTxs bincode s.l1 f = some f') :
    s.fetchForcedTxs bincode = some { s with worker := .fetching d f' } := by
  rw [fetchForcedTxs, hworker]
  cases f with
  | done => exact absurd hnext (by simp [fetchNewForcedTxs, Fetch.next])
  | _ => simp only [hnext]

theorem fetchForcedTxs_of_error {d : Fetch Deposit} {f : Fetch ForcedTx}
    (hworker : s.worker = .fetching d f) (hnext : fetchNewForcedTxs bincode s.l1 f = none)
    (hdone : ∀ p items, f ≠ .done p items) :
    s.fetchForcedTxs bincode = some { s with worker := .dead } := by
  rw [fetchForcedTxs, hworker]
  cases f with
  | done p items => exact absurd rfl (hdone p items)
  | _ => simp only [hnext]

section MakeBlock

variable {order : IterOrder} {p q : UInt64} {deposits : List Deposit} {forcedTxs : List ForcedTx}
  {tree : T} (hworker : s.worker = .fetching (.done p deposits) (.done q forcedTxs))

include hworker

theorem makeBlock_of_empty (hempty : s.mempool = [] ∧ deposits = [] ∧ forcedTxs = []) :
    s.makeBlock env m bincode order = some { s with worker := .sleeping } := by
  rw [makeBlock, hworker]
  exact if_pos hempty

variable (hsome : ¬ (s.mempool = [] ∧ deposits = [] ∧ forcedTxs = []))

include hsome

theorem makeBlock_of_poisoned (hpoisoned : s.poisoned = true) :
    s.makeBlock env m bincode order = some { s with worker := .dead } := by
  rw [makeBlock, hworker]
  exact (if_neg hsome).trans (if_pos hpoisoned)

variable (hpoisoned : ¬ s.poisoned = true)

include hpoisoned

theorem makeBlock_of_ok {root : Hash}
    (hbatch : applyOptimisticBatch (Core.getAccount m bincode) m env.crypto order s.tree
      (some s.optimistic) s.mempool deposits forcedTxs = (.ok root, tree)) :
    s.makeBlock env m bincode order = some { s with
      tree
      headroot := root
      blockCounter := s.blockCounter + 1
      worker := .made
        { block := s.nextBlock deposits forcedTxs root
          firstDeposit := p.toNat
          firstForced := q.toNat } } := by
  rw [makeBlock, hworker]
  simp only [if_neg hsome, if_neg hpoisoned, hbatch]

theorem makeBlock_of_err {e : CoreError}
    (hbatch : applyOptimisticBatch (Core.getAccount m bincode) m env.crypto order s.tree
      (some s.optimistic) s.mempool deposits forcedTxs = (.error (.err e), tree)) :
    s.makeBlock env m bincode order = some { s with tree, worker := .dead } := by
  rw [makeBlock, hworker]
  simp only [if_neg hsome, if_neg hpoisoned, hbatch]

theorem makeBlock_of_panic {msg : String}
    (hbatch : applyOptimisticBatch (Core.getAccount m bincode) m env.crypto order s.tree
      (some s.optimistic) s.mempool deposits forcedTxs = (.error (.panic msg), tree)) :
    s.makeBlock env m bincode order = some { s with tree, poisoned := true, worker := .dead } := by
  rw [makeBlock, hworker]
  simp only [if_neg hsome, if_neg hpoisoned, hbatch]

end MakeBlock

section ProcessAndProve

variable {block : PendingBlock} {retries : ℕ} (proofBytes : Bytes)
  (hprover : s.prover = .proving block retries) (hpoisoned : ¬ s.poisoned = true)

include hprover hpoisoned

theorem processAndProve_of_panic {msg : String}
    (hbundle : Core.generateProofsForBlock m bincode env.crypto s.tree block
      = .error (.panic msg)) :
    s.processAndProve env m bincode proofBytes
      = some ({ s with poisoned := true }.attemptFails block retries) := by
  rw [processAndProve, hprover]
  simp only [if_neg hpoisoned, hbundle]

theorem processAndProve_of_err {e : CoreError}
    (hbundle : Core.generateProofsForBlock m bincode env.crypto s.tree block = .error (.err e)) :
    s.processAndProve env m bincode proofBytes = some (s.attemptFails block retries) := by
  rw [processAndProve, hprover]
  simp only [if_neg hpoisoned, hbundle]

variable {bundle : ProofBundle}
  (hbundle : Core.generateProofsForBlock m bincode env.crypto s.tree block = .ok bundle)

include hbundle

theorem processAndProve_of_refused (hvalues : publicValuesOf env block bundle = none) :
    s.processAndProve env m bincode proofBytes = some (s.attemptFails block retries) := by
  rw [processAndProve, hprover]
  simp only [if_neg hpoisoned, hbundle, hvalues]

theorem processAndProve_of_values {publicValues : Bytes}
    (hvalues : publicValuesOf env block bundle = some publicValues) :
    s.processAndProve env m bincode proofBytes = some { s with
      l1Mempool := s.l1Mempool ++ [.updateState publicValues proofBytes]
      prover := .sent block retries publicValues } := by
  rw [processAndProve, hprover]
  simp only [if_neg hpoisoned, hbundle, hvalues]

end ProcessAndProve

end

end System

namespace Node

variable {T : Type}

/-! ## What a state of the process stands for -/

section

variable (n : Node T) (s : System T)

/-- What the two have in common between two blocks. -/
structure Level : Prop where
  mempool : s.mempool = n.mempool
  optimistic : s.optimistic = n.heads.optimistic
  headroot : n.disk.headroot = some s.headroot
  rooted : s.headroot = s.optimistic
  blockCounter : s.blockCounter = n.blockCounter

/-- A batch was copied, and the system is about to make a block of it. -/
structure Ready (batch : BlockContents) : Prop where
  fetched : ∃ p q, s.worker = .fetching (.done p batch.deposits) (.done q batch.forcedTxs)
  mempool : s.mempool = batch.txs
  optimistic : s.optimistic = n.heads.optimistic
  headroot : n.disk.headroot = some s.headroot
  rooted : s.headroot = s.optimistic
  blockCounter : s.blockCounter = n.blockCounter
  something : ¬ (batch.txs = [] ∧ batch.deposits = [] ∧ batch.forcedTxs = [])

/-- The system has made this block. -/
structure Made (block : PendingBlock) : Prop where
  made : ∃ b, s.worker = .made b ∧ b.block = block
  optimistic : s.optimistic = block.preStateRoot
  headroot : s.headroot = block.postStateRoot

/-- The process has panicked in `set_headroot`.  The system, which has set the head root with the
tree, has failed to write the block. -/
structure Lost (block : PendingBlock) : Prop where
  poisoned : n.poisoned = true
  mempool : n.mempool = block.txs ++ s.mempool
  optimistic : n.heads.optimistic = block.preStateRoot ∧ s.optimistic = block.postStateRoot
  headroot : n.disk.headroot = some block.preStateRoot ∧ s.headroot = block.postStateRoot
  blockCounter : s.blockCounter = n.blockCounter + 1

def WorkerMatches : OptimisticWorker → Prop
  | .sleeping => s.worker = .sleeping ∧ Level n s
  | .fetching d f => s.worker = .fetching d f ∧ Level n s
  | .copied batch => Ready n s batch
  | .rootRead batch preRoot => Ready n s batch ∧ preRoot = n.heads.optimistic
  | .executed batch preRoot newRoot =>
    Made s (batch.block n.blockCounter preRoot newRoot) ∧ s.mempool = n.mempool ∧
      s.blockCounter = n.blockCounter + 1 ∧ n.heads.optimistic = preRoot ∧
      n.disk.headroot = some preRoot
  | .headrootSet batch preRoot newRoot =>
    Made s (batch.block n.blockCounter preRoot newRoot) ∧ s.mempool = n.mempool ∧
      s.blockCounter = n.blockCounter + 1 ∧ n.heads.optimistic = preRoot ∧
      n.disk.headroot = some newRoot
  | .numbered block =>
    Made s block ∧ s.mempool = n.mempool ∧ s.blockCounter = n.blockCounter ∧
      n.heads.optimistic = block.preStateRoot ∧ n.disk.headroot = some block.postStateRoot
  | .headMoved block =>
    Made s block ∧ s.mempool = n.mempool ∧ s.blockCounter = n.blockCounter ∧
      n.heads.optimistic = block.postStateRoot ∧ n.disk.headroot = some block.postStateRoot
  | .drained block =>
    Made s block ∧ s.mempool = block.txs ++ n.mempool ∧ s.blockCounter = n.blockCounter ∧
      n.heads.optimistic = block.postStateRoot ∧ n.disk.headroot = some block.postStateRoot
  | .dead => s.worker = .dead ∧ (Level n s ∨ ∃ block, Lost n s block)

/-- The queue without the block that is settled or given up. -/
def without (block : PendingBlock) : List PendingBlock :=
  n.disk.pending.items.filter fun b ↦ b.blockNumber ≠ block.blockNumber

/-- The queue of failed blocks after these were pushed. -/
def pushed (blocks : List PendingBlock) : BlockQueue := blocks.foldl KeyedQueue.put .empty

/-- The fates of the blocks, as the two have recorded them. -/
structure Even : Prop where
  proven : s.proven = n.heads.proven
  failed : n.disk.failed = pushed s.failed

/-- The process has not pushed this block to the queue of failed ones yet. -/
structure GivenUp (block : PendingBlock) : Prop where
  proven : s.proven = n.heads.proven
  failed : ∃ before, s.failed = before ++ [block] ∧ n.disk.failed = pushed before

def ProverMatches : ProverWorker → Prop
  | .sleeping => s.prover = .sleeping ∧ s.pending = n.disk.pending.items ∧ Even n s
  | .proving block retries =>
    s.prover = .proving block retries ∧ s.pending = n.disk.pending.items ∧ Even n s
  | .proved block retries publicValues =>
    s.prover = .sent block retries publicValues ∧ s.pending = n.disk.pending.items ∧ Even n s
  | .sent block retries i =>
    (∃ tx, n.submissions[i]? = some tx ∧ s.prover = .sent block retries tx.publicValues) ∧
      s.pending = n.disk.pending.items ∧ Even n s
  | .settled block =>
    s.prover = .sleeping ∧ s.pending = n.without block ∧ s.proven = block.postStateRoot ∧
      n.disk.failed = pushed s.failed
  | .provenMoved block | .failedPushed block =>
    s.prover = .sleeping ∧ s.pending = n.without block ∧ Even n s
  | .givenUp block => s.prover = .sleeping ∧ s.pending = n.without block ∧ GivenUp n s block
  | .dead =>
    s.prover = .dead ∧ (s.pending = n.disk.pending.items ∧ Even n s ∨
      ∃ block ∈ n.disk.pending, s.pending = n.without block ∧ (Even n s ∨ GivenUp n s block))

/-- The state of the system that the process stands for. -/
structure Matches : Prop where
  l1 : s.l1 = n.l1
  tree : s.tree = n.disk.tree
  /-- The system does not know of a panic of `set_headroot`, which nothing survives. -/
  poisoned : s.poisoned = n.poisoned ∨ (n.poisoned = true ∧ n.worker = .dead)
  committed : s.committed.map Included.block = n.committed
  worker : WorkerMatches n s n.worker
  prover : ProverMatches n s n.prover

end

section

variable {env : Deployment} {m : Monotree T} {bincode : Bincode} {n n' : Node T} {s s' : System T}

theorem matches_init (tree : T) (head root : Hash) :
    Matches (init tree head (Bridge.init root)) (System.init tree head root) where
  l1 := rfl
  tree := rfl
  poisoned := Or.inl rfl
  committed := rfl
  worker := ⟨rfl, rfl, rfl, rfl, rfl, rfl⟩
  prover := ⟨rfl, rfl, rfl, rfl⟩

theorem Matches.alive (h : Matches n s) {w : OptimisticWorker} (hworker : n.worker = w)
    (hw : w ≠ .dead) : s.poisoned = n.poisoned :=
  h.poisoned.resolve_right fun hdead ↦ hw (hworker.symm.trans hdead.2)

/-- A step of the one worker does not matter to the other. -/
theorem ProverMatches.congr {p : ProverWorker} (h : ProverMatches n s p)
    (hsubmissions : n'.submissions = n.submissions)
    (hdisk : n'.disk.pending = n.disk.pending ∧ n'.disk.failed = n.disk.failed)
    (hproven : n'.heads.proven = n.heads.proven) (hprover : s'.prover = s.prover)
    (hpending : s'.pending = s.pending) (hfailed : s'.failed = s.failed)
    (hproven' : s'.proven = s.proven) : ProverMatches n' s' p := by
  obtain ⟨hqueue, hfailedQueue⟩ := hdisk
  have heven : Even n s → Even n' s' := fun he ↦
    ⟨by rw [hproven', hproven, he.proven], by rw [hfailedQueue, hfailed, he.failed]⟩
  have hgiven : ∀ block, GivenUp n s block → GivenUp n' s' block := by
    rintro block ⟨hp, before, hs, hn⟩
    exact ⟨by rw [hproven', hproven, hp], before, by rw [hfailed, hs], by rw [hfailedQueue, hn]⟩
  have hwithout : ∀ block, n'.without block = n.without block := fun block ↦ by
    rw [without, hqueue, without]
  cases p with
  | sleeping | proving | proved =>
    exact ⟨hprover.trans h.1, by rw [hpending, hqueue, h.2.1], heven h.2.2⟩
  | sent =>
    refine ⟨?_, by rw [hpending, hqueue, h.2.1], heven h.2.2⟩
    simpa only [hsubmissions, hprover] using h.1
  | provenMoved | failedPushed =>
    exact ⟨hprover.trans h.1, by rw [hpending, hwithout, h.2.1], heven h.2.2⟩
  | givenUp =>
    exact ⟨hprover.trans h.1, by rw [hpending, hwithout, h.2.1], hgiven _ h.2.2⟩
  | settled =>
    exact ⟨hprover.trans h.1, by rw [hpending, hwithout, h.2.1], hproven'.trans h.2.2.1,
      by rw [hfailedQueue, hfailed, h.2.2.2]⟩
  | dead =>
    refine ⟨hprover.trans h.1, h.2.imp (fun hq ↦ ?_) ?_⟩
    · exact ⟨by rw [hpending, hqueue, hq.1], heven hq.2⟩
    · rintro ⟨block, hmem, hq, hfate⟩
      exact ⟨block, hqueue ▸ hmem, by rw [hpending, hwithout, hq], hfate.imp heven (hgiven block)⟩

theorem WorkerMatches.congr {w : OptimisticWorker} (h : WorkerMatches n s w)
    (hmempool : n'.mempool = n.mempool) (hheads : n'.heads.optimistic = n.heads.optimistic)
    (hheadroot : n'.disk.headroot = n.disk.headroot) (hcounter : n'.blockCounter = n.blockCounter)
    (hpoisoned : n.poisoned = true → n'.poisoned = true) (hworker : s'.worker = s.worker)
    (hmempool' : s'.mempool = s.mempool) (hoptimistic : s'.optimistic = s.optimistic)
    (hheadroot' : s'.headroot = s.headroot) (hcounter' : s'.blockCounter = s.blockCounter) :
    WorkerMatches n' s' w := by
  have hlevel : Level n s → Level n' s' := fun hl ↦
    ⟨by rw [hmempool', hmempool, hl.mempool], by rw [hoptimistic, hheads, hl.optimistic],
      by rw [hheadroot, hheadroot', hl.headroot], by rw [hheadroot', hoptimistic, hl.rooted],
      by rw [hcounter', hcounter, hl.blockCounter]⟩
  have hready : ∀ batch, Ready n s batch → Ready n' s' batch := fun batch hr ↦
    ⟨by rw [hworker]; exact hr.fetched, by rw [hmempool', hr.mempool],
      by rw [hoptimistic, hheads, hr.optimistic], by rw [hheadroot, hheadroot', hr.headroot],
      by rw [hheadroot', hoptimistic, hr.rooted], by rw [hcounter', hcounter, hr.blockCounter],
      hr.something⟩
  have hmade : ∀ block, Made s block → Made s' block := fun block hm ↦
    ⟨by rw [hworker]; exact hm.made, hoptimistic.trans hm.optimistic, hheadroot'.trans hm.headroot⟩
  cases w with
  | sleeping | fetching => exact ⟨hworker.trans h.1, hlevel h.2⟩
  | copied batch => exact hready batch h
  | rootRead batch preRoot => exact ⟨hready batch h.1, hheads ▸ h.2⟩
  | executed | headrootSet | numbered | headMoved | drained =>
    obtain ⟨hm, hmem, hcount, hopt, hroot⟩ := h
    refine ⟨by simpa only [hcounter] using hmade _ hm, ?_, ?_, hheads.trans hopt,
      hheadroot.trans hroot⟩
    · rw [hmempool', hmempool]
      exact hmem
    · rw [hcounter', hcounter]
      exact hcount
  | dead =>
    refine ⟨hworker.trans h.1, h.2.imp hlevel ?_⟩
    rintro ⟨block, hl⟩
    exact ⟨block, hpoisoned hl.poisoned, by rw [hmempool, hmempool', hl.mempool],
      by rw [hheads, hoptimistic]; exact hl.optimistic,
      by rw [hheadroot, hheadroot']; exact hl.headroot,
      by rw [hcounter', hcounter, hl.blockCounter]⟩

/-! ## The optimistic worker -/

/-- A step of the process that is none of the system. -/
theorem Matches.stay (h : Matches n' s) :
    ∃ s', Relation.ReflTransGen (Step env m bincode) s s' ∧ Matches n' s' :=
  ⟨s, .refl, h⟩

/-- A step of the process that is one of the system. -/
theorem Matches.go (e : Event) (s' : System T) (hstep : s.step env m bincode e = some s')
    (h : Matches n' s') :
    ∃ s', Relation.ReflTransGen (Step env m bincode) s s' ∧ Matches n' s' :=
  ⟨s', .single ⟨e, hstep⟩, h⟩

theorem steps_submitTx (txs : List Transaction) (s : System T) :
    Relation.ReflTransGen (Step env m bincode) s { s with mempool := s.mempool ++ txs } := by
  induction txs generalizing s with
  | nil =>
    rw [List.append_nil]
  | cons tx txs ih =>
    refine .head ⟨.submitTx tx, rfl⟩ ?_
    have htail := ih { s with mempool := s.mempool ++ [tx] }
    rwa [List.append_assoc] at htail

theorem Matches.submitTx (h : Matches n s) {tx : Transaction}
    (hn' : n' = { n with mempool := n.mempool ++ [tx], submitted := n.submitted ++ [tx] }) :
    ∃ s', Relation.ReflTransGen (Step env m bincode) s s' ∧ Matches n' s' := by
  have hstay : WorkerMatches n' s n.worker → Matches n' s := by
    subst hn'
    exact fun hw ↦ ⟨h.l1, h.tree, h.poisoned, h.committed, hw,
      h.prover.congr rfl ⟨rfl, rfl⟩ rfl rfl rfl rfl rfl⟩
  have hgo : WorkerMatches n' { s with mempool := s.mempool ++ [tx] } n.worker →
      ∃ s', Relation.ReflTransGen (Step env m bincode) s s' ∧ Matches n' s' := by
    subst hn'
    exact fun hw ↦ Matches.go (.submitTx tx) _ rfl ⟨h.l1, h.tree, h.poisoned, h.committed, hw,
      h.prover.congr rfl ⟨rfl, rfl⟩ rfl rfl rfl rfl rfl⟩
  have hlevel : Level n s → Level n' { s with mempool := s.mempool ++ [tx] } := by
    subst hn'
    exact fun hl ↦
      ⟨congrArg (· ++ [tx]) hl.mempool, hl.optimistic, hl.headroot, hl.rooted, hl.blockCounter⟩
  have hmade : ∀ block, Made s block → Made { s with mempool := s.mempool ++ [tx] } block :=
    fun block hm ↦ ⟨hm.made, hm.optimistic, hm.headroot⟩
  -- The system copies its mempool later.
  have hready : ∀ batch, Ready n s batch → Ready n' s batch := by
    subst hn'
    exact fun batch hr ↦ ⟨hr.fetched, hr.mempool, hr.optimistic, hr.headroot, hr.rooted,
      hr.blockCounter, hr.something⟩
  have hw := h.worker
  cases hworker : n.worker with
  | copied batch =>
    rw [hworker] at hw hstay
    exact Matches.stay (hstay (hready batch hw))
  | rootRead batch preRoot =>
    rw [hworker] at hw hstay
    exact Matches.stay (hstay ⟨hready batch hw.1, by subst hn'; exact hw.2⟩)
  | sleeping | fetching =>
    rw [hworker] at hw hgo
    exact hgo ⟨hw.1, hlevel hw.2⟩
  | executed | headrootSet | numbered | headMoved =>
    rw [hworker] at hw hgo
    subst hn'
    exact hgo ⟨hmade _ hw.1, congrArg (· ++ [tx]) hw.2.1, hw.2.2⟩
  | drained block =>
    rw [hworker] at hw hgo
    subst hn'
    exact hgo ⟨hmade _ hw.1, (congrArg (· ++ [tx]) hw.2.1).trans (List.append_assoc _ _ _),
      hw.2.2⟩
  | dead =>
    rw [hworker] at hw hgo
    refine hgo ⟨hw.1, hw.2.imp hlevel ?_⟩
    subst hn'
    rintro ⟨block, hl⟩
    exact ⟨block, hl.poisoned, (congrArg (· ++ [tx]) hl.mempool).trans (List.append_assoc _ _ _),
      hl.optimistic, hl.headroot, hl.blockCounter⟩

theorem Matches.tick (h : Matches n s) (hstep : n.tick true = some n') :
    ∃ s', Relation.ReflTransGen (Step env m bincode) s s' ∧ Matches n' s' := by
  rw [Node.tick] at hstep
  split at hstep
  · rename_i hworker
    have halive := h.alive hworker (by simp)
    have hw := h.worker
    rw [hworker] at hw
    obtain ⟨hsleeping, hlevel⟩ := hw
    obtain rfl := Option.some_inj.mp hstep
    refine Matches.go .tick { s with worker := .fetching .start .start } ?_
      ⟨h.l1, h.tree, Or.inl halive, h.committed, ⟨rfl, hlevel.mempool, hlevel.optimistic,
        hlevel.headroot, hlevel.rooted, hlevel.blockCounter⟩,
        h.prover.congr rfl ⟨rfl, rfl⟩ rfl rfl rfl rfl rfl⟩
    rw [System.step, hsleeping]
  · exact absurd hstep (by simp)

/-- A request of the worker that gets an answer. -/
theorem Matches.fetching (h : Matches n s) {d : Fetch Deposit} {f : Fetch ForcedTx}
    (hworker : n.worker = .fetching d f) {e : Event} (d' : Fetch Deposit) (f' : Fetch ForcedTx)
    (hstep : s.step env m bincode e = some { s with worker := .fetching d' f' }) :
    ∃ s', Relation.ReflTransGen (Step env m bincode) s s' ∧
      Matches { n with worker := .fetching d' f' } s' := by
  have halive := h.alive hworker (by simp)
  have hw := h.worker
  rw [hworker] at hw
  obtain ⟨-, hlevel⟩ := hw
  exact Matches.go _ _ hstep ⟨h.l1, h.tree, Or.inl halive, h.committed,
    ⟨rfl, hlevel.mempool, hlevel.optimistic, hlevel.headroot, hlevel.rooted,
      hlevel.blockCounter⟩, h.prover.congr rfl ⟨rfl, rfl⟩ rfl rfl rfl rfl rfl⟩

/-- The worker of both is gone, before it has made a block. -/
theorem Matches.dies (h : Matches n s) {e : Event} {tree : T} {poisoned : Bool}
    (hstep : s.step env m bincode e = some { s with tree, poisoned, worker := .dead })
    {later : List Transaction} (hmempool : s.mempool ++ later = n.mempool)
    (hoptimistic : s.optimistic = n.heads.optimistic)
    (hheadroot : n.disk.headroot = some s.headroot) (hrooted : s.headroot = s.optimistic)
    (hcounter : s.blockCounter = n.blockCounter) :
    ∃ s', Relation.ReflTransGen (Step env m bincode) s s' ∧
      Matches { n with disk := { n.disk with tree }, poisoned, worker := .dead } s' := by
  -- What was submitted after the copy comes now.
  refine ⟨_, .head ⟨e, hstep⟩ (steps_submitTx later _), ?_⟩
  exact ⟨h.l1, rfl, Or.inl rfl, h.committed,
    ⟨rfl, Or.inl ⟨hmempool, hoptimistic, hheadroot, hrooted, hcounter⟩⟩,
    h.prover.congr rfl ⟨rfl, rfl⟩ rfl rfl rfl rfl rfl⟩

theorem Matches.dies_fetching (h : Matches n s) {d : Fetch Deposit} {f : Fetch ForcedTx}
    (hworker : n.worker = .fetching d f) {e : Event}
    (hstep : s.step env m bincode e = some { s with worker := .dead }) :
    ∃ s', Relation.ReflTransGen (Step env m bincode) s s' ∧
      Matches { n with worker := .dead } s' := by
  have halive := h.alive hworker (by simp)
  have hw := h.worker
  rw [hworker] at hw
  obtain ⟨-, hlevel⟩ := hw
  refine Matches.go _ _ hstep ⟨h.l1, h.tree, Or.inl halive, h.committed, ⟨rfl, Or.inl ?_⟩,
    h.prover.congr rfl ⟨rfl, rfl⟩ rfl rfl rfl rfl rfl⟩
  exact ⟨hlevel.mempool, hlevel.optimistic, hlevel.headroot, hlevel.rooted, hlevel.blockCounter⟩

theorem Matches.fetchDeposits (h : Matches n s) (hstep : n.fetchDeposits = some n') :
    ∃ s', Relation.ReflTransGen (Step env m bincode) s s' ∧ Matches n' s' := by
  rw [Node.fetchDeposits] at hstep
  split at hstep
  swap
  · exact absurd hstep (by simp)
  rename_i d f hworker
  have hw := h.worker
  rw [hworker] at hw
  split at hstep
  · exact absurd hstep (by simp)
  · rename_i hnext
    obtain rfl := Option.some_inj.mp hstep
    rw [← h.l1] at hnext
    exact h.fetching (e := .fetchDeposits) hworker _ f (System.fetchDeposits_of_next hw.1 hnext)
  · rename_i hdone hnext
    obtain rfl := Option.some_inj.mp hstep
    rw [← h.l1] at hnext
    exact h.dies_fetching (e := .fetchDeposits) hworker
      (System.fetchDeposits_of_error hw.1 hnext fun p items heq ↦ hdone p items heq)

theorem Matches.fetchForcedTxs (h : Matches n s) (hstep : n.fetchForcedTxs bincode = some n') :
    ∃ s', Relation.ReflTransGen (Step env m bincode) s s' ∧ Matches n' s' := by
  rw [Node.fetchForcedTxs] at hstep
  split at hstep
  swap
  · exact absurd hstep (by simp)
  rename_i d f hworker
  have hw := h.worker
  rw [hworker] at hw
  split at hstep
  · exact absurd hstep (by simp)
  · rename_i hnext
    obtain rfl := Option.some_inj.mp hstep
    rw [← h.l1] at hnext
    exact h.fetching (e := .fetchForcedTxs) hworker d _ (System.fetchForcedTxs_of_next hw.1 hnext)
  · rename_i hdone hnext
    obtain rfl := Option.some_inj.mp hstep
    rw [← h.l1] at hnext
    exact h.dies_fetching (e := .fetchForcedTxs) hworker
      (System.fetchForcedTxs_of_error hw.1 hnext fun p items heq ↦ hdone p items heq)

theorem Matches.copyTxs (h : Matches n s) (hstep : n.copyTxs = some n') :
    ∃ s', Relation.ReflTransGen (Step env m bincode) s s' ∧ Matches n' s' := by
  rw [Node.copyTxs] at hstep
  split at hstep
  swap
  · exact absurd hstep (by simp)
  rename_i p deposits q forcedTxs hworker
  have halive := h.alive hworker (by simp)
  have hw := h.worker
  rw [hworker] at hw
  obtain ⟨hfetching, hlevel⟩ := hw
  split at hstep
  · rename_i hempty
    obtain rfl := Option.some_inj.mp hstep
    rw [← hlevel.mempool] at hempty
    exact Matches.go (.makeBlock .cached) _ (System.makeBlock_of_empty hfetching hempty)
      ⟨h.l1, h.tree, Or.inl halive, h.committed,
        ⟨rfl, hlevel.mempool, hlevel.optimistic, hlevel.headroot, hlevel.rooted,
          hlevel.blockCounter⟩, h.prover.congr rfl ⟨rfl, rfl⟩ rfl rfl rfl rfl rfl⟩
  · rename_i hsome
    obtain rfl := Option.some_inj.mp hstep
    exact Matches.stay ⟨h.l1, h.tree, Or.inl halive, h.committed,
      ⟨⟨p, q, hfetching⟩, hlevel.mempool, hlevel.optimistic, hlevel.headroot, hlevel.rooted,
        hlevel.blockCounter, hsome⟩, h.prover.congr rfl ⟨rfl, rfl⟩ rfl rfl rfl rfl rfl⟩

theorem Matches.readHead (h : Matches n s) (hstep : n.readHead = some n') :
    ∃ s', Relation.ReflTransGen (Step env m bincode) s s' ∧ Matches n' s' := by
  rw [Node.readHead] at hstep
  split at hstep
  · rename_i batch hworker
    have halive := h.alive hworker (by simp)
    have hw := h.worker
    rw [hworker] at hw
    obtain rfl := Option.some_inj.mp hstep
    exact Matches.stay ⟨h.l1, h.tree, Or.inl halive, h.committed,
      ⟨⟨hw.fetched, hw.mempool, hw.optimistic, hw.headroot, hw.rooted, hw.blockCounter,
        hw.something⟩, rfl⟩, h.prover.congr rfl ⟨rfl, rfl⟩ rfl rfl rfl rfl rfl⟩
  · exact absurd hstep (by simp)

/-- **The block is made where the batch is executed.** -/
theorem Matches.execute (h : Matches n s) (hcopied : n.Copied) {order : IterOrder}
    (hstep : n.execute env m bincode order = some n') :
    ∃ s', Relation.ReflTransGen (Step env m bincode) s s' ∧ Matches n' s' := by
  rw [Node.execute] at hstep
  split at hstep
  swap
  · exact absurd hstep (by simp)
  rename_i batch preRoot hworker
  have halive := h.alive hworker (by simp)
  have hw := h.worker
  rw [hworker] at hw
  obtain ⟨hready, hroot⟩ := hw
  obtain ⟨p, q, hfetching⟩ := hready.fetched
  have hsome := hready.something
  have hhead : s.optimistic = preRoot := hready.optimistic.trans hroot.symm
  -- What was submitted after the copy comes after the block.
  obtain ⟨later, hlater⟩ := hcopied batch.txs (by rw [hworker]; rfl)
  rw [← hready.mempool] at hsome hlater
  have hdies : ∀ {tree : T} {poisoned : Bool}, s.makeBlock env m bincode order
      = some { s with tree, poisoned, worker := .dead } →
      ∃ s', Relation.ReflTransGen (Step env m bincode) s s' ∧
        Matches { n with disk := { n.disk with tree }, poisoned, worker := .dead } s' :=
    fun hmake ↦ h.dies (e := .makeBlock order) hmake hlater hready.optimistic hready.headroot
      hready.rooted hready.blockCounter
  split at hstep
  · rename_i hpoisoned
    obtain rfl := Option.some_inj.mp hstep
    rw [← halive] at hpoisoned
    have hmake := hdies (System.makeBlock_of_poisoned hfetching hsome hpoisoned)
    rw [h.tree, halive] at hmake
    exact hmake
  rename_i hpoisoned
  rw [← halive] at hpoisoned
  rw [← h.tree, ← hhead, ← hready.mempool] at hstep
  split at hstep
  · rename_i newRoot tree hbatch
    obtain rfl := Option.some_inj.mp hstep
    refine ⟨_, .head ⟨.makeBlock order, System.makeBlock_of_ok hfetching hsome hpoisoned hbatch⟩
      (steps_submitTx later _), ?_⟩
    have hblock : s.nextBlock batch.deposits batch.forcedTxs newRoot
        = batch.block n.blockCounter s.optimistic newRoot := by
      rw [System.nextBlock, hready.blockCounter, hready.mempool]
      rfl
    have hdisk : n.disk.headroot = some s.optimistic := by rw [hready.headroot, hready.rooted]
    exact ⟨h.l1, rfl, Or.inl halive, h.committed,
      ⟨⟨⟨_, rfl, hblock⟩, rfl, rfl⟩, hlater, congrArg (· + 1) hready.blockCounter,
        hready.optimistic.symm, hdisk⟩, h.prover.congr rfl ⟨rfl, rfl⟩ rfl rfl rfl rfl rfl⟩
  · rename_i err tree hbatch
    obtain rfl := Option.some_inj.mp hstep
    have hmake := hdies (System.makeBlock_of_err hfetching hsome hpoisoned hbatch)
    rw [halive] at hmake
    exact hmake
  · rename_i msg tree hbatch
    obtain rfl := Option.some_inj.mp hstep
    exact hdies (System.makeBlock_of_panic hfetching hsome hpoisoned hbatch)

theorem Matches.setHeadroot (h : Matches n s) (hstep : n.setHeadroot = some n') :
    ∃ s', Relation.ReflTransGen (Step env m bincode) s s' ∧ Matches n' s' := by
  rw [Node.setHeadroot] at hstep
  split at hstep
  · rename_i hworker
    have halive := h.alive hworker (by simp)
    have hw := h.worker
    rw [hworker] at hw
    obtain ⟨hmade, hmempool, hcounter, hhead, -⟩ := hw
    obtain rfl := Option.some_inj.mp hstep
    exact Matches.stay ⟨h.l1, h.tree, Or.inl halive, h.committed,
      ⟨hmade, hmempool, hcounter, hhead, rfl⟩, h.prover.congr rfl ⟨rfl, rfl⟩ rfl rfl rfl rfl rfl⟩
  · exact absurd hstep (by simp)

theorem Matches.countBlock (h : Matches n s) (hstep : n.countBlock = some n') :
    ∃ s', Relation.ReflTransGen (Step env m bincode) s s' ∧ Matches n' s' := by
  rw [Node.countBlock] at hstep
  split at hstep
  · rename_i hworker
    have halive := h.alive hworker (by simp)
    have hw := h.worker
    rw [hworker] at hw
    obtain rfl := Option.some_inj.mp hstep
    exact Matches.stay ⟨h.l1, h.tree, Or.inl halive, h.committed, hw,
      h.prover.congr rfl ⟨rfl, rfl⟩ rfl rfl rfl rfl rfl⟩
  · exact absurd hstep (by simp)

theorem Matches.moveHead (h : Matches n s) (hstep : n.moveHead = some n') :
    ∃ s', Relation.ReflTransGen (Step env m bincode) s s' ∧ Matches n' s' := by
  rw [Node.moveHead] at hstep
  split at hstep
  · rename_i block hworker
    have halive := h.alive hworker (by simp)
    have hw := h.worker
    rw [hworker] at hw
    obtain ⟨hmade, hmempool, hcounter, -, hroot⟩ := hw
    obtain rfl := Option.some_inj.mp hstep
    exact Matches.stay ⟨h.l1, h.tree, Or.inl halive, h.committed,
      ⟨hmade, hmempool, hcounter, rfl, hroot⟩, h.prover.congr rfl ⟨rfl, rfl⟩ rfl rfl rfl rfl rfl⟩
  · exact absurd hstep (by simp)

theorem Matches.drain (h : Matches n s) (hcopied : n.Copied) (hstep : n.drain = some n') :
    ∃ s', Relation.ReflTransGen (Step env m bincode) s s' ∧ Matches n' s' := by
  rw [Node.drain] at hstep
  split at hstep
  swap
  · exact absurd hstep (by simp)
  rename_i block hworker
  have halive := h.alive hworker (by simp)
  have hw := h.worker
  rw [hworker] at hw
  obtain ⟨hmade, hmempool, hrest⟩ := hw
  rw [if_pos (hcopied.drain_le hworker)] at hstep
  obtain rfl := Option.some_inj.mp hstep
  obtain ⟨later, hlater⟩ := hcopied block.txs (by rw [hworker]; rfl)
  have hdrop : s.mempool = block.txs ++ n.mempool.drop block.txs.length := by
    rw [hmempool, ← hlater, List.drop_left]
  exact Matches.stay ⟨h.l1, h.tree, Or.inl halive, h.committed, ⟨hmade, hdrop, hrest⟩,
    h.prover.congr rfl ⟨rfl, rfl⟩ rfl rfl rfl rfl rfl⟩

/-- A new block goes to the end of both queues. -/
theorem ProverMatches.commitBlock (h : ProverMatches n s n.prover) (hqueued : n.Queued)
    (hbound : n.Bounded) {block : PendingBlock} (hworker : n.worker = .drained block)
    (hs : s'.prover = s.prover ∧ s'.failed = s.failed ∧ s'.proven = s.proven)
    (hpending : s'.pending = s.pending ++ [block])
    (hn : n'.submissions = n.submissions ∧ n'.disk.failed = n.disk.failed ∧
      n'.heads.proven = n.heads.proven)
    (hput : n'.disk.pending = n.disk.pending.put block) : ProverMatches n' s' n.prover := by
  obtain ⟨hprover, hfailed', hproven'⟩ := hs
  obtain ⟨hsubmissions, hfailed, hproven⟩ := hn
  have hitems : n'.disk.pending.items = n.disk.pending.items ++ [block] := by
    rw [hput, hqueued.items_put hbound hworker]
  have hwithout : ∀ b ∈ n.disk.pending, n'.without b = n.without b ++ [block] := by
    intro b hb
    have hlt := hqueued.number_lt hbound (hqueued.mem_committed hb)
    have hcounted : n.worker.counted? = some block := by
      rw [hworker]
      rfl
    rw [← hqueued.toNat_counted hbound hcounted] at hlt
    have hne : block.blockNumber ≠ b.blockNumber :=
      fun heq ↦ absurd (congrArg UInt64.toNat heq) hlt.ne'
    rw [without, hitems, List.filter_append, List.filter_singleton, decide_eq_true hne]
    rfl
  have hmem : ∀ b, n.prover.block? = some b → b ∈ n.disk.pending := fun b hb ↦
    (hqueued.mem_of_block? hb).1
  have heven : Even n s → Even n' s' := fun he ↦
    ⟨by rw [hproven', hproven, he.proven], by rw [hfailed, hfailed', he.failed]⟩
  have hgiven : ∀ b, GivenUp n s b → GivenUp n' s' b := by
    rintro b ⟨hp, before, hsf, hnf⟩
    exact ⟨by rw [hproven', hproven, hp], before, by rw [hfailed', hsf], by rw [hfailed, hnf]⟩
  cases hp : n.prover with
  | sleeping | proving | proved | sent =>
    rw [hp] at h
    obtain ⟨hsame, hqueue, he⟩ := h
    refine ⟨?_, ?_, heven he⟩
    · simpa only [hprover, hsubmissions] using hsame
    · rw [hpending, hqueue, hitems]
  | settled b =>
    rw [hp] at h
    obtain ⟨hsame, hqueue, hroot, hf⟩ := h
    refine ⟨hprover.trans hsame, ?_, hproven'.trans hroot, by rw [hfailed, hfailed', hf]⟩
    rw [hpending, hqueue, hwithout b (hmem b (by rw [hp]; rfl))]
  | provenMoved b | failedPushed b =>
    rw [hp] at h
    obtain ⟨hsame, hqueue, he⟩ := h
    refine ⟨hprover.trans hsame, ?_, heven he⟩
    rw [hpending, hqueue, hwithout b (hmem b (by rw [hp]; rfl))]
  | givenUp b =>
    rw [hp] at h
    obtain ⟨hsame, hqueue, hg⟩ := h
    refine ⟨hprover.trans hsame, ?_, hgiven b hg⟩
    rw [hpending, hqueue, hwithout b (hmem b (by rw [hp]; rfl))]
  | dead =>
    rw [hp] at h
    refine ⟨hprover.trans h.1, h.2.imp (fun hq ↦ ?_) ?_⟩
    · exact ⟨by rw [hpending, hq.1, hitems], heven hq.2⟩
    · rintro ⟨b, hb, hqueue, hfate⟩
      refine ⟨b, ?_, by rw [hpending, hqueue, hwithout b hb], hfate.imp heven (hgiven b)⟩
      rw [KeyedQueue.mem_iff, hitems]
      exact List.mem_append_left _ hb

theorem Matches.commitBlock (h : Matches n s) (hqueued : n.Queued) (hbound : n.Bounded)
    (hstep : n.commitBlock = some n') :
    ∃ s', Relation.ReflTransGen (Step env m bincode) s s' ∧ Matches n' s' := by
  rw [Node.commitBlock] at hstep
  split at hstep
  swap
  · exact absurd hstep (by simp)
  rename_i block hworker
  have halive := h.alive hworker (by simp)
  have hw := h.worker
  rw [hworker] at hw
  obtain ⟨⟨⟨b, hmade, rfl⟩, -, hset⟩, hmempool, hcounter, hhead, hroot⟩ := hw
  obtain rfl := Option.some_inj.mp hstep
  refine Matches.go .commitOptimisticBlock { s with
      optimistic := b.block.postStateRoot
      mempool := s.mempool.drop b.block.txs.length
      pending := s.pending ++ [b.block]
      committed := s.committed ++ [b]
      worker := .sleeping } ?_ ⟨h.l1, h.tree, Or.inl halive, ?_,
        ⟨rfl, ?_, hhead.symm, ?_, hset, hcounter⟩,
        h.prover.commitBlock hqueued hbound hworker ⟨rfl, rfl, rfl⟩ rfl ⟨rfl, rfl, rfl⟩ rfl⟩
  · rw [System.step, System.commitOptimisticBlock, hmade]
  · show (s.committed ++ [b]).map Included.block = n.committed ++ [b.block]
    rw [List.map_append, h.committed]
    rfl
  · show s.mempool.drop b.block.txs.length = n.mempool
    rw [hmempool, List.drop_left]
  · show n.disk.headroot = some s.headroot
    rw [hroot, hset]

/-- The worker is gone with the block that it was about to write. -/
theorem Matches.commitFails (h : Matches n s) {block : PendingBlock}
    (hworker : n.worker = .drained block) :
    ∃ s', Relation.ReflTransGen (Step env m bincode) s s' ∧
      Matches { n with worker := .dead } s' := by
  have halive := h.alive hworker (by simp)
  have hw := h.worker
  rw [hworker] at hw
  obtain ⟨⟨⟨b, hmade, rfl⟩, -, hset⟩, hmempool, hcounter, hhead, hroot⟩ := hw
  have hfails : s.workerFails = { s with
      optimistic := b.block.postStateRoot
      mempool := s.mempool.drop b.block.txs.length
      worker := .dead } := by
    rw [System.workerFails, hmade]
  refine Matches.go .workerFails _ (congrArg some hfails) ⟨h.l1, h.tree, Or.inl halive,
    h.committed, ⟨rfl, Or.inl ⟨?_, hhead.symm, ?_, hset, hcounter⟩⟩,
    h.prover.congr rfl ⟨rfl, rfl⟩ rfl rfl rfl rfl rfl⟩
  · show s.mempool.drop b.block.txs.length = n.mempool
    rw [hmempool, List.drop_left]
  · show n.disk.headroot = some s.headroot
    rw [hroot, hset]

/-- In `set_headroot` it is gone with the lock as well. -/
theorem Matches.headrootFails (h : Matches n s) (hcopied : n.Copied) {batch : BlockContents}
    {preRoot newRoot : Hash} (hworker : n.worker = .executed batch preRoot newRoot) :
    ∃ s', Relation.ReflTransGen (Step env m bincode) s s' ∧
      Matches { n with poisoned := true, worker := .dead } s' := by
  have hw := h.worker
  rw [hworker] at hw
  obtain ⟨⟨⟨b, hmade, hb⟩, -, hset⟩, hmempool, hcounter, hhead, hroot⟩ := hw
  have hfails : s.workerFails = { s with
      optimistic := b.block.postStateRoot
      mempool := s.mempool.drop b.block.txs.length
      worker := .dead } := by
    rw [System.workerFails, hmade]
  obtain ⟨later, hlater⟩ := hcopied batch.txs (by rw [hworker]; rfl)
  refine Matches.go .workerFails _ (congrArg some hfails) ⟨h.l1, h.tree, Or.inr ⟨rfl, rfl⟩,
    h.committed, ⟨rfl, Or.inr ⟨batch.block n.blockCounter preRoot newRoot, rfl, ?_, ⟨hhead, ?_⟩,
      ⟨hroot, hset⟩, hcounter⟩⟩, h.prover.congr rfl ⟨rfl, rfl⟩ rfl rfl rfl rfl rfl⟩
  · show n.mempool = batch.txs ++ s.mempool.drop b.block.txs.length
    rw [hmempool, hb, ← hlater, show (batch.block n.blockCounter preRoot newRoot).txs = batch.txs
      from rfl, List.drop_left]
  · show b.block.postStateRoot = newRoot
    rw [hb]
    rfl

theorem Matches.workerFails (h : Matches n s) (hcopied : n.Copied)
    (hstep : n.workerFails = some n') :
    ∃ s', Relation.ReflTransGen (Step env m bincode) s s' ∧ Matches n' s' := by
  rw [Node.workerFails] at hstep
  split at hstep
  · rename_i hworker
    obtain rfl := Option.some_inj.mp hstep
    have hw := h.worker
    rw [hworker] at hw
    refine h.dies_fetching (e := .workerFails) hworker (congrArg some ?_)
    rw [System.workerFails, hw.1]
  · rename_i batch preRoot hworker
    obtain rfl := Option.some_inj.mp hstep
    have hw := h.worker
    rw [hworker] at hw
    obtain ⟨hready, -⟩ := hw
    obtain ⟨p, q, hfetching⟩ := hready.fetched
    obtain ⟨later, hlater⟩ := hcopied batch.txs (by rw [hworker]; rfl)
    rw [← hready.mempool] at hlater
    have hfails : s.step env m bincode .workerFails = some { s with worker := .dead } := by
      rw [System.step, System.workerFails, hfetching]
    have hdies := h.dies hfails hlater hready.optimistic hready.headroot hready.rooted
      hready.blockCounter
    rw [h.tree, h.alive hworker (by simp)] at hdies
    exact hdies
  · rename_i hworker
    obtain rfl := Option.some_inj.mp hstep
    exact h.commitFails hworker
  · rename_i hworker
    obtain rfl := Option.some_inj.mp hstep
    exact h.headrootFails hcopied hworker
  · exact absurd hstep (by simp)

/-! ## The prover worker -/

theorem Even.push {block : PendingBlock} (h : GivenUp n s block)
    (hfailed : n'.disk.failed = n.disk.failed.put block)
    (hproven : n'.heads.proven = n.heads.proven) : Even n' s := by
  obtain ⟨before, hs, hn⟩ := h.failed
  refine ⟨h.proven.trans hproven.symm, ?_⟩
  rw [hfailed, hn, hs, pushed, pushed, List.foldl_append]
  rfl

/-- A step beside the optimistic worker matches if L1 and the prover worker do. -/
theorem Matches.beside (h : Matches n s) (hsame : SameWorker n n')
    (htree : n'.disk.tree = n.disk.tree) (hpoisoned : n'.poisoned = n.poisoned) {l1 : Bridge}
    {l1Mempool : List Call} {proven : Hash} {pending failed : List PendingBlock} {prover : Prover}
    (hl1 : l1 = n'.l1)
    (hprover : ProverMatches n' { s with l1, l1Mempool, proven, pending, failed, prover }
      n'.prover) :
    Matches n' { s with l1, l1Mempool, proven, pending, failed, prover } where
  l1 := hl1
  tree := h.tree.trans htree.symm
  poisoned := by
    rw [hpoisoned, hsame.worker]
    exact h.poisoned
  committed := h.committed.trans hsame.committed.symm
  worker := by
    rw [hsame.worker]
    exact h.worker.congr hsame.mempool hsame.optimistic hsame.headroot hsame.blockCounter
      (fun hn ↦ hpoisoned.trans hn) rfl rfl rfl rfl rfl
  prover := hprover

/-- The attempt fails on both sides. -/
theorem Matches.attemptFails (h : Matches n s) {block : PendingBlock} {retries : ℕ}
    (hpending : s.pending = n.disk.pending.items) (heven : Even n s) :
    Matches (n.countRetry block retries) (s.attemptFails block retries) := by
  rw [countRetry, System.attemptFails]
  split
  · have hsame : SameWorker n { n with prover := .givenUp block } :=
      ⟨rfl, rfl, rfl, rfl, rfl, rfl, rfl, rfl⟩
    exact h.beside hsame rfl rfl h.l1
      ⟨rfl, congrArg (List.filter _) hpending, heven.proven, _, rfl, heven.failed⟩
  · have hsame : SameWorker n { n with prover := .proving block (retries + 1) } :=
      ⟨rfl, rfl, rfl, rfl, rfl, rfl, rfl, rfl⟩
    exact h.beside hsame rfl rfl h.l1 ⟨rfl, hpending, heven.proven, heven.failed⟩

theorem Matches.prove (h : Matches n s) (hstep : n.prove env m bincode true = some n') :
    ∃ s', Relation.ReflTransGen (Step env m bincode) s s' ∧ Matches n' s' := by
  rw [Node.prove] at hstep
  split at hstep
  swap
  · exact absurd hstep (by simp)
  rename_i block retries hprover
  have hp := h.prover
  rw [hprover] at hp
  obtain ⟨hproving, hpending, heven⟩ := hp
  split at hstep
  · exact absurd hstep (by simp)
  split at hstep
  · obtain rfl := Option.some_inj.mp hstep
    refine Matches.go .proverFails (s.attemptFails block retries) ?_
      (h.attemptFails hpending heven)
    rw [System.step, System.proverFails, hproving]
  rename_i hpoisoned
  have hsame : s.poisoned = n.poisoned := h.poisoned.resolve_right fun hdead ↦ hpoisoned hdead.1
  rw [← hsame] at hpoisoned
  rw [← h.tree] at hstep
  split at hstep
  · rename_i msg hbundle
    obtain rfl := Option.some_inj.mp hstep
    have hboth : Matches { n with poisoned := true } { s with poisoned := true } :=
      ⟨h.l1, h.tree, Or.inl rfl, h.committed,
        h.worker.congr rfl rfl rfl rfl (fun _ ↦ rfl) rfl rfl rfl rfl rfl,
        h.prover.congr rfl ⟨rfl, rfl⟩ rfl rfl rfl rfl rfl⟩
    exact Matches.go (.processAndProve []) _
      (System.processAndProve_of_panic [] hproving hpoisoned hbundle)
      (hboth.attemptFails hpending ⟨heven.proven, heven.failed⟩)
  · rename_i e hbundle
    obtain rfl := Option.some_inj.mp hstep
    exact Matches.go (.processAndProve []) _
      (System.processAndProve_of_err [] hproving hpoisoned hbundle) (h.attemptFails hpending heven)
  · rename_i bundle hbundle
    split at hstep
    · rename_i hvalues
      obtain rfl := Option.some_inj.mp hstep
      exact Matches.go (.processAndProve []) _
        (System.processAndProve_of_refused [] hproving hpoisoned hbundle hvalues)
        (h.attemptFails hpending heven)
    · rename_i publicValues hvalues
      rw [if_pos rfl] at hstep
      obtain rfl := Option.some_inj.mp hstep
      have hproves : n.ProverStep env true .prove
          { n with prover := .proved block retries publicValues } := .proves hprover rfl hvalues
      exact Matches.go (.processAndProve []) _
        (System.processAndProve_of_values [] hproving hpoisoned hbundle hvalues)
        (h.beside hproves.sameWorker rfl rfl h.l1 ⟨rfl, hpending, heven.proven, heven.failed⟩)

/-- The prover worker of both is gone. -/
theorem Matches.proverFails (h : Matches n s) (hqueued : n.Queued)
    (hstep : n.proverFails = some n') :
    ∃ s', Relation.ReflTransGen (Step env m bincode) s s' ∧ Matches n' s' := by
  have hmem : ∀ b, n.prover.block? = some b → b ∈ n.disk.pending := fun b hb ↦
    (hqueued.mem_of_block? hb).1
  have hdies : (s.pending = n.disk.pending.items ∧ Even n s ∨
      ∃ block ∈ n.disk.pending, s.pending = n.without block ∧ (Even n s ∨ GivenUp n s block)) →
      ∃ s', Relation.ReflTransGen (Step env m bincode) s s' ∧
        Matches { n with prover := .dead } s' := by
    intro hfate
    have hsame : SameWorker n { n with prover := .dead } :=
      ⟨rfl, rfl, rfl, rfl, rfl, rfl, rfl, rfl⟩
    refine Matches.go .proverDies { s with prover := .dead } rfl
      (h.beside hsame rfl rfl h.l1 ⟨rfl, ?_⟩)
    refine hfate.imp (fun hq ↦ ⟨hq.1, hq.2.proven, hq.2.failed⟩) ?_
    rintro ⟨block, hb, hq, he⟩
    exact ⟨block, hb, hq, he.imp (fun he ↦ ⟨he.proven, he.failed⟩) fun hg ↦ ⟨hg.proven, hg.failed⟩⟩
  have hp := h.prover
  rw [Node.proverFails] at hstep
  split at hstep
  · rename_i hprover
    obtain rfl := Option.some_inj.mp hstep
    rw [hprover] at hp
    exact hdies (Or.inl hp.2)
  · rename_i block hprover
    obtain rfl := Option.some_inj.mp hstep
    rw [hprover] at hp
    exact hdies (Or.inr ⟨block, hmem block (by rw [hprover]; rfl), hp.2.1, Or.inl hp.2.2⟩)
  · rename_i block hprover
    obtain rfl := Option.some_inj.mp hstep
    rw [hprover] at hp
    exact hdies (Or.inr ⟨block, hmem block (by rw [hprover]; rfl), hp.2.1, Or.inr hp.2.2⟩)
  · rename_i block hprover
    obtain rfl := Option.some_inj.mp hstep
    rw [hprover] at hp
    exact hdies (Or.inr ⟨block, hmem block (by rw [hprover]; rfl), hp.2.1, Or.inl hp.2.2⟩)
  · exact absurd hstep (by simp)

/-- L1 knows of the transactions that it has accepted. -/
def Logged (n : Node T) : Prop :=
  ∀ (i : ℕ) (tx : Submission), n.submissions[i]? = some tx → tx.status = .accepted →
    tx.publicValues ∈ n.l1.accepted

theorem logged_init (tree : T) (root : Hash) (l1 : Bridge) : (init tree root l1).Logged :=
  fun _ _ h ↦ absurd h (by simp [init])

theorem Logged.setStatus (h : n.Logged) (i : ℕ) {status : TxStatus} (hstatus : status ≠ .accepted) :
    (n.setStatus i status).Logged := by
  intro j tx htx haccepted
  obtain ⟨tx', htx', -, hvalues, ⟨-, hnew⟩ | ⟨-, hold⟩⟩ := exists_of_setStatus htx
  · exact absurd (hnew.symm.trans haccepted) hstatus
  · rw [hvalues]
    exact h j tx' htx' (hold.symm.trans haccepted)

/-- **One step** keeps the log of L1 complete. -/
theorem Logged.step {l1Enabled : Bool} {e : NodeEvent} (h : n.Logged)
    (hstep : n.Taken env m bincode l1Enabled e n') : n'.Logged := by
  have hretry : ∀ (k : Node T) (block : PendingBlock) (retries : ℕ), k.Logged →
      (k.countRetry block retries).Logged := by
    intro k block retries hk
    rcases k.countRetry_eq block retries with heq | heq <;> rw [heq] <;> exact hk
  cases hstep with
  | submitTx tx => exact h
  | worker hstep =>
    have hsame := hstep.sameProver
    rw [Logged, hsame.submissions, hsame.l1]
    exact h
  | prover hstep =>
    cases hstep with
    | send hp =>
      intro i tx htx haccepted
      rcases getElem?_concat_eq_some htx with htx | ⟨-, rfl⟩
      · exact h i tx htx haccepted
      · exact absurd haccepted (by simp)
    | proveFails | receiptReverted | attemptFails => exact hretry _ _ _ h
    | _ => exact h
  | l1 hstep =>
    cases hstep with
    | callL1 call =>
      intro i tx htx haccepted
      have hmem := h i tx htx haccepted
      rw [Node.callL1]
      cases hexec : n.l1.exec env call with
      | none => exact hmem
      | some l1 => exact (Bridge.exec_steps env call _ _ hexec).extends.accepted.subset hmem
    | @accepted i tx l1 htx hpending hexec =>
      have hextends := (Bridge.exec_steps env _ _ _ hexec).extends.accepted
      intro j tx' htx' haccepted
      obtain ⟨old, hold, -, hvalues, ⟨rfl, -⟩ | ⟨-, hsame⟩⟩ :=
        exists_of_setStatus (n := n) htx'
      · obtain rfl := Option.some_inj.mp (htx.symm.trans hold)
        have hupdate : n.l1.updateState env tx.publicValues tx.proofBytes = some l1 := hexec
        obtain ⟨_, _, _, -, -, -, -, -, -, -, p, q, -, -, rfl⟩ :=
          Bridge.updateState_eq_some hupdate
        rw [hvalues]
        exact List.mem_append_right _ (List.mem_singleton_self _)
      · rw [hvalues]
        exact hextends.subset (h j old hold (hsame.symm.trans haccepted))
    | reverted | dropped => exact h.setStatus _ (by simp)
  | restart => exact h

/-- The block leaves the queue of the system with its fate, and that of the process at the end. -/
theorem Matches.proverStep (h : Matches n s) (hlogged : n.Logged) {e : NodeEvent}
    (he : e ≠ .prove ∧ e ≠ .proverFails) (hstep : n.ProverStep env true e n') :
    ∃ s', Relation.ReflTransGen (Step env m bincode) s s' ∧ Matches n' s' := by
  have hp := h.prover
  have hsame := hstep.sameWorker
  cases hstep with
  | @peekPending block hsleeping hpeek =>
    rw [hsleeping] at hp
    obtain ⟨hsleeps, hpending, heven⟩ := hp
    obtain ⟨rest, hrest⟩ := List.head?_eq_some_iff.mp hpeek
    refine Matches.go .peekPending { s with prover := .proving block 0 } ?_
      (h.beside hsame rfl rfl h.l1 ⟨rfl, hpending, heven.proven, heven.failed⟩)
    rw [System.step, System.peekPending, hsleeps, hpending, hrest]
  | proves | provesOffline | proveFails => exact absurd rfl he.1
  | send hproved =>
    rw [hproved] at hp
    obtain ⟨hsent, hpending, heven⟩ := hp
    exact Matches.stay (h.beside hsame rfl rfl h.l1
      ⟨⟨_, List.getElem?_concat_length, hsent⟩, hpending, heven.proven, heven.failed⟩)
  | @receiptAccepted block retries i hsent hstatus =>
    rw [hsent] at hp
    obtain ⟨⟨tx, htx, hsent⟩, hpending, heven⟩ := hp
    rw [htx, Option.map_some, Option.some_inj] at hstatus
    have haccepted : tx.publicValues ∈ s.l1.accepted := h.l1 ▸ hlogged i tx htx hstatus
    refine Matches.go .confirm { s with
        proven := block.postStateRoot
        pending := s.removePending block.blockNumber
        prover := .sleeping } ?_
      (h.beside hsame rfl rfl h.l1
        ⟨rfl, congrArg (List.filter _) hpending, rfl, heven.failed⟩)
    rw [System.step, System.confirm, hsent]
    exact if_pos haccepted
  | @receiptReverted block retries i hsent hstatus =>
    rw [hsent] at hp
    obtain ⟨⟨tx, htx, hsent⟩, hpending, heven⟩ := hp
    refine Matches.go .proverFails (s.attemptFails block retries) ?_
      (h.attemptFails hpending heven)
    rw [System.step, System.proverFails, hsent]
  | @attemptFails block retries hattempt =>
    cases hprover : n.prover with
    | proving | proved =>
      rw [hprover] at hp hattempt
      obtain ⟨hattempting, hpending, heven⟩ := hp
      obtain ⟨rfl, rfl⟩ := Prod.mk.inj (Option.some_inj.mp hattempt)
      refine Matches.go .proverFails (s.attemptFails _ _) ?_ (h.attemptFails hpending heven)
      rw [System.step, System.proverFails, hattempting]
    | sent =>
      rw [hprover] at hp hattempt
      obtain ⟨⟨tx, -, hattempting⟩, hpending, heven⟩ := hp
      obtain ⟨rfl, rfl⟩ := Prod.mk.inj (Option.some_inj.mp hattempt)
      refine Matches.go .proverFails (s.attemptFails _ _) ?_ (h.attemptFails hpending heven)
      rw [System.step, System.proverFails, hattempting]
    | _ =>
      rw [hprover] at hattempt
      exact absurd hattempt (by simp [ProverWorker.attempt?])
  | moveProven hsettled =>
    rw [hsettled] at hp
    obtain ⟨hsleeps, hpending, hproven, hfailed⟩ := hp
    exact Matches.stay
      (h.beside hsame rfl rfl h.l1 ⟨hsleeps, hpending, hproven, hfailed⟩)
  | pushFailed hgiven =>
    rw [hgiven] at hp
    obtain ⟨hsleeps, hpending, hlate⟩ := hp
    exact Matches.stay
      (h.beside hsame rfl rfl h.l1 ⟨hsleeps, hpending, .push hlate rfl rfl⟩)
  | @removePending block hdone =>
    have hp' : s.prover = .sleeping ∧ s.pending = n.without block ∧ Even n s := by
      rcases hdone with hdone | hdone
      · rw [hdone] at hp
        exact hp
      · rw [hdone] at hp
        exact hp
    obtain ⟨hsleeps, hpending, heven⟩ := hp'
    refine Matches.stay (h.beside hsame rfl rfl h.l1
      ⟨hsleeps, hpending.trans ?_, heven.proven, heven.failed⟩)
    refine List.filter_congr fun b _ ↦ ?_
    rw [decide_eq_decide, ne_eq, ne_eq, UInt64.toNat_inj]
  | dies => exact absurd rfl he.2

/-! ## L1 -/

theorem ProverMatches.setStatus {p : ProverWorker} (h : ProverMatches n s p) (i : ℕ)
    (status : TxStatus) : ProverMatches (n.setStatus i status) s p := by
  cases p with
  | sent block retries j =>
    obtain ⟨⟨tx, htx, hsent⟩, hqueue, heven⟩ := h
    refine ⟨?_, hqueue, heven.proven, heven.failed⟩
    rw [getElem?_setStatus, htx]
    split
    · exact ⟨_, rfl, hsent⟩
    · exact ⟨_, rfl, hsent⟩
  | sleeping | proving | proved | provenMoved | failedPushed =>
    exact ⟨h.1, h.2.1, h.2.2.proven, h.2.2.failed⟩
  | givenUp => exact ⟨h.1, h.2.1, h.2.2.proven, h.2.2.failed⟩
  | settled => exact h
  | dead =>
    refine ⟨h.1, h.2.imp (fun hq ↦ ⟨hq.1, hq.2.proven, hq.2.failed⟩) ?_⟩
    rintro ⟨block, hb, hq, hfate⟩
    exact ⟨block, hb, hq,
      hfate.imp (fun he ↦ ⟨he.proven, he.failed⟩) fun hg ↦ ⟨hg.proven, hg.failed⟩⟩

/-- What the process has sent is to the system a call like any other. -/
theorem Matches.l1Step (h : Matches n s) {e : NodeEvent} (hstep : n.L1Step env e n') :
    ∃ s', Relation.ReflTransGen (Step env m bincode) s s' ∧ Matches n' s' := by
  have hsame := hstep.sameWorker
  cases hstep with
  | callL1 call =>
    refine Matches.go (.callL1 call) { s with l1 := (s.l1.exec env call).getD s.l1 } rfl
      (h.beside hsame rfl rfl ?_ (h.prover.congr rfl ⟨rfl, rfl⟩ rfl rfl rfl rfl rfl))
    rw [Node.callL1, h.l1]
  | @accepted i tx l1 _ _ hexec =>
    have hset : ProverMatches (n.setStatus i .accepted) s n.prover :=
      h.prover.setStatus i .accepted
    refine Matches.go (.callL1 (.updateState tx.publicValues tx.proofBytes))
      { s with l1 := (s.l1.exec env (.updateState tx.publicValues tx.proofBytes)).getD s.l1 } rfl
      (h.beside hsame rfl rfl ?_ (hset.congr rfl ⟨rfl, rfl⟩ rfl rfl rfl rfl rfl))
    rw [h.l1, hexec]
    rfl
  | reverted | dropped =>
    exact Matches.stay (h.beside hsame rfl rfl h.l1 (h.prover.setStatus _ _))

/-! ## Every run -/

/-- **One step of the process** is some steps of the system. -/
theorem Matches.step (h : Matches n s) (hqueued : n.Queued) (hbound : n.Bounded)
    (hcopied : n.Copied) (hlogged : n.Logged) {e : NodeEvent} (he : e ≠ .restart)
    (hstep : n.step env m bincode true e = some n') :
    ∃ s', Relation.ReflTransGen (Step env m bincode) s s' ∧ Matches n' s' := by
  cases e with
  | submitTx tx =>
    exact h.submitTx (Option.some_inj.mp hstep).symm
  | tick => exact h.tick hstep
  | fetchDeposits => exact h.fetchDeposits hstep
  | fetchForcedTxs => exact h.fetchForcedTxs hstep
  | copyTxs => exact h.copyTxs hstep
  | readHead => exact h.readHead hstep
  | execute order => exact h.execute hcopied hstep
  | setHeadroot => exact h.setHeadroot hstep
  | countBlock => exact h.countBlock hstep
  | moveHead => exact h.moveHead hstep
  | drain => exact h.drain hcopied hstep
  | commitBlock => exact h.commitBlock hqueued hbound hstep
  | workerFails => exact h.workerFails hcopied hstep
  | peekPending => exact h.proverStep hlogged ⟨by simp, by simp⟩ (proverStep_peekPending hstep)
  | prove => exact h.prove hstep
  | send => exact h.proverStep hlogged ⟨by simp, by simp⟩ (proverStep_send hstep)
  | getReceipt => exact h.proverStep hlogged ⟨by simp, by simp⟩ (proverStep_getReceipt hstep)
  | attemptFails => exact h.proverStep hlogged ⟨by simp, by simp⟩ (proverStep_attemptFails hstep)
  | moveProven => exact h.proverStep hlogged ⟨by simp, by simp⟩ (proverStep_moveProven hstep)
  | pushFailed => exact h.proverStep hlogged ⟨by simp, by simp⟩ (proverStep_pushFailed hstep)
  | removePending => exact h.proverStep hlogged ⟨by simp, by simp⟩ (proverStep_removePending hstep)
  | proverFails => exact h.proverFails hqueued hstep
  | callL1 call =>
    obtain rfl := Option.some_inj.mp hstep
    exact h.l1Step (.callL1 call)
  | mine i => exact h.l1Step (l1Step_mine hstep)
  | drop i => exact h.l1Step (l1Step_drop hstep)
  | restart => exact absurd rfl he

end

/-- The process is not started again. -/
def NoRestart (T : Type) (_ : Node T) (e : NodeEvent) : Prop := e ≠ .restart

section

variable {env : Deployment} {m : Monotree T} {bincode : Bincode} {n : Node T} {tree : T}
  {head root : Hash}

/-- **Every run of the process is a run of the system**, with the same L1, the same state tree and
the same blocks, and with the heads, queues and workers that match, from the first start to the next
one. -/
theorem node_simulated
    (hrun : Reaches env m bincode true (NoRestart T) (init tree head (Bridge.init root)) n)
    (hbound : n.Bounded) :
    ∃ s, Relation.ReflTransGen (Step env m bincode) (System.init tree head root) s ∧
      Matches n s := by
  induction hrun with
  | refl => exact ⟨_, .refl, matches_init tree head root⟩
  | tail hprefix hlast ih =>
    obtain ⟨e, he, hstep⟩ := hlast
    have hbound' := hbound.of_taken (step_cases hstep)
    obtain ⟨s, hs, hmatches⟩ := ih hbound'
    have hcopied : Copied _ := Reaches.invariant hprefix
      (fun _ h ↦ absurd h (by simp [init, OptimisticWorker.copied?]))
      fun hk _ hstep ↦ hk.taken hstep
    have hlogged : Logged _ :=
      Reaches.invariant hprefix (logged_init tree head _) fun hk _ hstep ↦ hk.step hstep
    have hqueued := Reaches.queued hprefix hbound'
    obtain ⟨s', hs', hmatches'⟩ := hmatches.step hqueued hbound' hcopied hlogged he hstep
    exact ⟨s', hs.trans hs', hmatches'⟩

/-- **The process credits no deposit twice**, however the pieces of its work are interleaved with
each other and with L1: the entries of its blocks are entries of the L1 queues, and no position of
the deposit queue is in two of them.  The process starts from a head root with accounts, as the one
of an empty state tree (`holds_empty`). -/
theorem node_deposits_once {laws : MonotreeLaws m} (hshort : bincode.RefusesShort)
    {a : AccountMap} (hstart : Holds laws env.crypto tree head a)
    (hrun : Reaches env m bincode true (NoRestart T) (init tree head (Bridge.init root)) n)
    (hbound : n.Bounded) :
    ∃ blocks : List Included, blocks.map Included.block = n.committed ∧ DepositsOnce blocks ∧
      ∀ b ∈ blocks, b.FromL1 bincode n.l1 := by
  obtain ⟨s, hs, hmatches⟩ := node_simulated hrun hbound
  refine ⟨s.committed, hmatches.committed, deposits_enter_once hshort hstart hs, fun b hb ↦ ?_⟩
  rw [← hmatches.l1]
  exact (Fetched.run hs).fromL1 b ((committed_sublist s).subset hb)

end

end Node

/-! ### A deposit and a late request

A transaction is submitted after the mempool was copied, so it stays there. -/

namespace LateRequest

open Requests (env m start tx)

def events : List NodeEvent :=
  LostBlock.deposit :: LostBlock.fetch ++ [.readHead, .submitTx (tx 0), .execute .cached,
    .setHeadroot, .countBlock, .moveHead, .drain, .commitBlock]

theorem run_events : (start.run env m .v1 true events).map
    (fun n ↦ (n.committed.map fun b ↦ (b.deposits.length, b.txs.length), n.mempool.length))
      = some ([(1, 0)], 1) := by
  decide +kernel

theorem reaches : ∃ n, Node.Reaches env m .v1 true (Node.NoRestart MemTree) start n ∧
    n.Bounded ∧ n.mempool.length = 1 ∧ n.committed.map (fun b ↦ b.deposits.length) = [1] := by
  obtain ⟨n, hrun, hview⟩ := Option.map_eq_some_iff.mp run_events
  obtain ⟨hblocks, hmempool⟩ := Prod.mk.inj hview
  have hdeposits := congrArg (List.map Prod.fst) hblocks
  have hlength := congrArg List.length hblocks
  rw [List.length_map] at hlength
  rw [List.map_map] at hdeposits
  refine ⟨n, Node.reaches_of_run (fun e he k ↦ ?_) hrun, ?_, hmempool, hdeposits⟩
  · rintro rfl
    simp [events, LostBlock.deposit, LostBlock.fetch] at he
  · rw [Node.Bounded, hlength]
    decide

end LateRequest

open Requests LateRequest in
theorem node_simulated_lateRequest : ∃ (n : Node MemTree) (s : System MemTree),
    n.mempool.length = 1 ∧ n.committed.map (fun b ↦ b.deposits.length) = [1] ∧ n.Matches s ∧
      Relation.ReflTransGen (Step env m .v1) (System.init FirstDeposit.tree' root root) s := by
  obtain ⟨n, hrun, hbound, hmempool, hdeposits⟩ := reaches
  obtain ⟨s, hs, hmatches⟩ := Node.node_simulated hrun hbound
  exact ⟨n, s, hmempool, hdeposits, hmatches, hs⟩

open Requests LateRequest in
theorem node_deposits_once_lateRequest : ∃ (n : Node MemTree) (blocks : List Included),
    n.committed.map (fun b ↦ b.deposits.length) = [1] ∧
      blocks.map Included.block = n.committed ∧ DepositsOnce blocks ∧
      ∀ b ∈ blocks, b.FromL1 .v1 n.l1 := by
  obtain ⟨n, hrun, hbound, -, hdeposits⟩ := reaches
  obtain ⟨blocks, hblocks, honce, hfrom⟩ :=
    Node.node_deposits_once Bincode.v1_refusesShort Payment.holds_deposit hrun hbound
  exact ⟨n, blocks, hdeposits, hblocks, honce, hfrom⟩

end TinyRollup
