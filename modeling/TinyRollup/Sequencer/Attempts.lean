import TinyRollup.Sequencer.Failed

/-!
# How often a block is sent

The prover worker gives a block up after `maxRetries` attempts, and every attempt sends at most one
transaction.  It takes the first pending block, and removes it when it is done with it, so it comes
back to a block only if the process stops in between, or the database fails and the worker with it.
So a block is sent at most `maxRetries` times for every start of the process (`attempts_bounded`).
-/

set_option autoImplicit false

namespace TinyRollup

/-- The event is a start of the process. -/
def NodeEvent.isRestart : NodeEvent → Bool
  | .restart => true
  | _ => false

namespace Node

variable {T : Type} {env : Deployment} {m : Monotree T} {bincode : Bincode} {l1Enabled : Bool}
  {e : NodeEvent} {n n' : Node T} {starts : ℕ}

/-- How many transactions were sent for the block with a number. -/
def sentFor (n : Node T) (number : UInt64) : ℕ :=
  (n.submissions.map Submission.block).countP fun b ↦ b.blockNumber == number

/-- The transactions sent before the attempt under way, where it has not sent its own. -/
def Unsent (p : ProverWorker) (block : PendingBlock) (retries : ℕ) : Prop :=
  p = .proving block retries ∨ ∃ publicValues, p = .proved block retries publicValues

/-- What the transactions of every block are accounted for by, after some starts of the process. -/
structure Tried (starts : ℕ) (n : Node T) : Prop where
  committed : ∀ tx ∈ n.submissions, tx.block ∈ n.committed
  total : ∀ number, n.sentFor number ≤ System.maxRetries * (starts + 1)
  /-- A block that the worker has yet to take was only sent before the last start. -/
  waiting : n.prover ≠ .dead → ∀ b ∈ n.disk.pending, n.prover.block? ≠ some b →
    n.sentFor b.blockNumber ≤ System.maxRetries * starts
  attempt : ∀ b retries, n.prover.attempt? = some (b, retries) →
    retries < System.maxRetries ∧
      n.sentFor b.blockNumber ≤ System.maxRetries * starts + retries + 1
  unsent : ∀ b retries, Unsent n.prover b retries →
    n.sentFor b.blockNumber ≤ System.maxRetries * starts + retries

theorem map_block_setStatus (i : ℕ) (status : TxStatus) :
    (n.setStatus i status).submissions.map Submission.block
      = n.submissions.map Submission.block := by
  refine List.ext_getElem? fun j ↦ ?_
  rw [List.getElem?_map, List.getElem?_map, getElem?_setStatus]
  split
  · rw [Option.map_map]
    rfl
  · rfl

/-- A block that is not committed was never sent. -/
theorem Tried.sentFor_eq_zero (h : n.Tried starts) {number : UInt64}
    (hnumber : ∀ b ∈ n.committed, b.blockNumber ≠ number) : n.sentFor number = 0 := by
  refine List.countP_eq_zero.mpr fun b hb heq ↦ ?_
  obtain ⟨tx, htx, rfl⟩ := List.mem_map.mp hb
  exact hnumber _ (h.committed tx htx) (eq_of_beq heq)

theorem tried_init (tree : T) (root : Hash) (l1 : Bridge) : (init tree root l1).Tried 0 where
  committed _ h := absurd h List.not_mem_nil
  total _ := Nat.zero_le _
  waiting _ _ _ _ := Nat.zero_le _
  attempt _ _ h := absurd h (by simp [init, ProverWorker.attempt?])
  unsent _ _ h := absurd h (by simp [init, Unsent])

/-! ## The steps -/

theorem WorkerStep.committed_subset (hstep : n.WorkerStep env m bincode e n') :
    n.committed ⊆ n'.committed := by
  rcases hstep.pending with ⟨-, -, heq⟩ | ⟨block, -, rfl⟩
  · rw [heq]
    exact List.Subset.refl _
  · exact List.subset_append_left _ _

theorem Tried.workerStep (h : n.Tried starts) (hqueued : n.Queued) (hbound : n.Bounded)
    (hstep : n.WorkerStep env m bincode e n') : n'.Tried starts := by
  obtain ⟨hprover, -, -, -, -, hsub⟩ := hstep.sameProver
  have hsent : ∀ number, n'.sentFor number = n.sentFor number := fun number ↦ by
    rw [sentFor, hsub, sentFor]
  refine ⟨fun tx htx ↦ hstep.committed_subset (h.committed tx (hsub ▸ htx)), fun number ↦ ?_,
    fun halive b hb hnot ↦ ?_, fun b retries hattempt ↦ ?_, fun b retries hunsent ↦ ?_⟩
  · rw [hsent]
    exact h.total number
  · rw [hsent]
    rw [hprover] at halive hnot
    rcases hstep.pending with ⟨hpending, -⟩ | ⟨block, hw, rfl⟩
    · exact h.waiting halive b (hpending ▸ hb) hnot
    · rcases KeyedQueue.mem_put.mp hb with rfl | ⟨hold, -⟩
      · -- The new block has a number of its own.
        have hzero : n.sentFor b.blockNumber = 0 := h.sentFor_eq_zero fun b' hb' heq ↦ by
          have hlt := hqueued.number_lt hbound hb'
          rw [heq, hqueued.toNat_counted hbound (by rw [hw]; rfl)] at hlt
          exact Nat.lt_irrefl _ hlt
        rw [hzero]
        exact Nat.zero_le _
      · exact h.waiting halive b hold hnot
  · rw [hsent]
    exact h.attempt b retries (hprover ▸ hattempt)
  · rw [hsent]
    exact h.unsent b retries (hprover ▸ hunsent)

/-- A step that sends nothing, and leaves the worker at its block with no attempt under way. -/
theorem Tried.of_same (h : n.Tried starts) (hsub : n'.submissions = n.submissions)
    (hcommitted : n'.committed = n.committed)
    (hwaiting : n'.prover ≠ .dead → ∀ b ∈ n'.disk.pending, n'.prover.block? ≠ some b →
      n.prover ≠ .dead ∧ b ∈ n.disk.pending ∧ n.prover.block? ≠ some b)
    (hattempt : n'.prover.attempt? = none) : n'.Tried starts := by
  have hsent : ∀ number, n'.sentFor number = n.sentFor number := fun number ↦ by
    rw [sentFor, hsub, sentFor]
  refine ⟨fun tx htx ↦ ?_, fun number ↦ ?_, fun halive b hb hnot ↦ ?_,
    fun b retries hsome ↦ ?_, fun b retries hunsent ↦ ?_⟩
  · rw [hcommitted]
    exact h.committed tx (hsub ▸ htx)
  · rw [hsent]
    exact h.total number
  · rw [hsent]
    obtain ⟨halive', hb', hnot'⟩ := hwaiting halive b hb hnot
    exact h.waiting halive' b hb' hnot'
  · exact absurd (hattempt.symm.trans hsome) (by simp)
  · rcases hunsent with hp | ⟨_, hp⟩
    all_goals
      rw [hp] at hattempt
      exact absurd hattempt (by simp [ProverWorker.attempt?])

/-- An attempt ends. -/
theorem Tried.countRetry (h : n.Tried starts) (poisoned : Bool) {block : PendingBlock}
    {retries : ℕ} (hp : n.prover.attempt? = some (block, retries)) :
    ({ n with poisoned }.countRetry block retries).Tried starts := by
  have hblock := ProverWorker.block?_of_attempt? hp
  have halive : n.prover ≠ .dead := fun hdead ↦ by
    rw [hdead] at hp
    exact absurd hp (by simp [ProverWorker.attempt?])
  obtain ⟨hretries, hsent⟩ := h.attempt block retries hp
  rw [Node.countRetry]
  split
  · exact h.of_same rfl rfl (fun _ b hb hnot ↦ ⟨halive, hb, hblock ▸ hnot⟩) rfl
  · rename_i hmore
    refine ⟨h.committed, h.total, fun _ b hb hnot ↦ h.waiting halive b hb (hblock ▸ hnot),
      fun b r hattempt ↦ ?_, fun b r hunsent ↦ ?_⟩
    · obtain ⟨rfl, rfl⟩ := Prod.mk.inj (Option.some_inj.mp hattempt)
      exact ⟨Nat.not_le.mp hmore, Nat.le_succ_of_le hsent⟩
    · rcases hunsent with hunsent | ⟨_, hunsent⟩
      · obtain ⟨rfl, rfl⟩ := ProverWorker.proving.inj hunsent
        exact hsent
      · exact absurd hunsent (by simp)

theorem Tried.proverStep (h : n.Tried starts) (hqueued : n.Queued) (hbound : n.Bounded)
    (hstep : n.ProverStep env l1Enabled e n') : n'.Tried starts := by
  cases hstep with
  | @peekPending block hp hpeek =>
    have hwaiting := h.waiting (by rw [hp]; simp) block (KeyedQueue.mem_of_peek hpeek)
      (by rw [hp]; simp [ProverWorker.block?])
    refine ⟨h.committed, h.total, fun _ b hb _ ↦ h.waiting (by rw [hp]; simp) b hb
      (by rw [hp]; simp [ProverWorker.block?]), fun b r hattempt ↦ ?_, fun b r hunsent ↦ ?_⟩
    · obtain ⟨rfl, rfl⟩ := Prod.mk.inj (Option.some_inj.mp hattempt)
      exact ⟨by decide, Nat.le_succ_of_le hwaiting⟩
    · rcases hunsent with hunsent | ⟨_, hunsent⟩
      · obtain ⟨rfl, rfl⟩ := ProverWorker.proving.inj hunsent
        exact hwaiting
      · exact absurd hunsent (by simp)
  | @proves block retries _ publicValues hp _ _ =>
    have hattempt := h.attempt block retries (by rw [hp]; rfl)
    have hunsent := h.unsent block retries (Or.inl hp)
    refine ⟨h.committed, h.total, fun _ b hb hnot ↦ h.waiting (by rw [hp]; simp) b hb
      (by rw [hp]; exact hnot), fun b r hb ↦ ?_, fun b r hb ↦ ?_⟩
    · obtain ⟨rfl, rfl⟩ := Prod.mk.inj (Option.some_inj.mp hb)
      exact hattempt
    · rcases hb with hb | ⟨_, hb⟩
      · exact absurd hb (by simp)
      · obtain ⟨rfl, rfl, -⟩ := ProverWorker.proved.inj hb
        exact hunsent
  | @send proofBytes publicValues block retries hp =>
    obtain ⟨hretries, -⟩ := h.attempt block retries (by rw [hp]; rfl)
    have hunsent := h.unsent block retries (Or.inr ⟨_, hp⟩)
    obtain ⟨hpending, hmem⟩ := hqueued.mem_of_block? (b := block) (by rw [hp]; rfl)
    have hsent : ∀ number, (n.sentFor number + if block.blockNumber = number then 1 else 0)
        = sentFor { n with
            submissions := n.submissions ++ [⟨block, publicValues, proofBytes, .pending⟩]
            prover := .sent block retries n.submissions.length } number := by
      intro number
      rw [sentFor, sentFor, List.map_append, List.countP_append, List.map_singleton,
        List.countP_singleton]
      simp only [beq_iff_eq]
    refine ⟨?_, fun number ↦ ?_, fun _ b hb hnot ↦ ?_, fun b r hb ↦ ?_, fun b r hb ↦ ?_⟩
    · rw [List.forall_mem_append, List.forall_mem_singleton]
      exact ⟨h.committed, hmem⟩
    · rw [← hsent]
      split
      · rename_i heq
        rw [heq] at hunsent
        rw [Nat.mul_add, Nat.mul_one]
        omega
      · exact h.total number
    · have hne : block.blockNumber ≠ b.blockNumber := fun heq ↦
        hnot (congrArg some (hqueued.eq_of_number hbound hmem (hqueued.mem_committed hb) heq))
      rw [← hsent, if_neg hne]
      exact h.waiting (by rw [hp]; simp) b hb (by rw [hp]; exact hnot)
    · obtain ⟨rfl, rfl⟩ := Prod.mk.inj (Option.some_inj.mp hb)
      rw [← hsent, if_pos rfl]
      exact ⟨hretries, Nat.succ_le_succ hunsent⟩
    · rcases hb with hb | ⟨_, hb⟩ <;> exact absurd hb (by simp)
  | proveFails poisoned hp => exact h.countRetry poisoned (by rw [hp]; rfl)
  | receiptReverted hp _ => exact h.countRetry n.poisoned (by rw [hp]; rfl)
  | attemptFails hp => exact h.countRetry n.poisoned hp
  | provesOffline hp | receiptAccepted hp _ | moveProven hp | pushFailed hp =>
    exact h.of_same rfl rfl
      (fun _ b hb hnot ↦ ⟨by rw [hp]; simp, hb, by rw [hp]; exact hnot⟩) rfl
  | @removePending block hp =>
    refine h.of_same rfl rfl (fun _ b hb _ ↦ ?_) rfl
    obtain ⟨hb, hne⟩ := KeyedQueue.mem_erase.mp hb
    have hblock : ∀ b', n.prover.block? = some b' → b' = block := by
      rcases hp with hp | hp <;> rw [hp] <;> exact fun b' hb' ↦ (Option.some_inj.mp hb').symm
    refine ⟨?_, hb, fun hat ↦ hne ?_⟩
    · rcases hp with hp | hp <;> rw [hp] <;> simp
    · rw [hblock b hat]
  | dies _ => exact h.of_same rfl rfl (fun halive ↦ absurd rfl halive) rfl

theorem Tried.l1Step (h : n.Tried starts) (hstep : n.L1Step env e n') : n'.Tried starts := by
  have hset : ∀ (i : ℕ) (status : TxStatus), (n.setStatus i status).Tried starts := by
    intro i status
    refine ⟨fun tx htx ↦ ?_, fun number ↦ ?_, fun halive b hb hnot ↦ ?_, fun b r hb ↦ ?_,
      fun b r hb ↦ ?_⟩
    · obtain ⟨j, hj⟩ := List.mem_iff_getElem?.mp htx
      obtain ⟨tx', htx', hblock, -⟩ := exists_of_setStatus hj
      rw [hblock]
      exact h.committed tx' (List.mem_of_getElem? htx')
    all_goals rw [sentFor, map_block_setStatus]
    · exact h.total number
    · exact h.waiting halive b hb hnot
    · exact h.attempt b r hb
    · exact h.unsent b r hb
  cases hstep with
  | callL1 call => exact ⟨h.committed, h.total, h.waiting, h.attempt, h.unsent⟩
  | @accepted i _ l1 =>
    have h' := hset i .accepted
    exact ⟨h'.committed, h'.total, h'.waiting, h'.attempt, h'.unsent⟩
  | reverted | dropped => exact hset _ _

/-- A start of the process, which sends every block anew. -/
theorem Tried.restart (h : n.Tried starts) : n.restart.Tried (starts + 1) where
  committed := h.committed
  total number := (h.total number).trans (Nat.mul_le_mul_left _ (Nat.le_succ _))
  waiting _ b _ _ := h.total b.blockNumber
  attempt _ _ hattempt := absurd hattempt (by simp [Node.restart, ProverWorker.attempt?])
  unsent _ _ hunsent := absurd hunsent (by simp [Node.restart, Unsent])

/-- **One step.** -/
theorem Tried.step (h : n.Tried starts) (hqueued : n.Queued) (hbound : n.Bounded)
    (hstep : n.step env m bincode l1Enabled e = some n') :
    n'.Tried (starts + if e.isRestart then 1 else 0) := by
  cases he : e.isRestart with
  | true =>
    cases e with
    | restart =>
      rw [if_pos rfl, ← Option.some_inj.mp hstep]
      exact h.restart
    | _ => exact absurd he (by simp [NodeEvent.isRestart])
  | false =>
    rw [if_neg (by simp), Nat.add_zero]
    cases step_cases hstep with
    | submitTx tx => exact ⟨h.committed, h.total, h.waiting, h.attempt, h.unsent⟩
    | worker hstep => exact h.workerStep hqueued hbound hstep
    | prover hstep => exact h.proverStep hqueued hbound hstep
    | l1 hstep => exact h.l1Step hstep
    | restart => exact absurd he (by simp [NodeEvent.isRestart])

/-- A run that ends with few blocks has few blocks all along. -/
theorem Bounded.of_run {events : List NodeEvent} (h : n'.Bounded)
    (hrun : n.run env m bincode l1Enabled events = some n') : n.Bounded := by
  have hreaches : Reaches env m bincode l1Enabled (fun _ _ ↦ True) n n' :=
    reaches_of_run (fun _ _ _ ↦ trivial) hrun
  exact hreaches.invariant (I := fun k ↦ k.Bounded → n.Bounded) id
    (fun hk _ hstep hb ↦ hk (hb.of_taken hstep)) h

/-- What holds of the events so far and the state, and is kept by every step, holds after a run. -/
theorem run_invariant {I : List NodeEvent → Node T → Prop} {events : List NodeEvent}
    (hinit : I [] n) (hqueued : n.Queued)
    (hstep : ∀ past k k' e, I past k → k.Queued → k.Bounded →
      k.step env m bincode l1Enabled e = some k' → I (past ++ [e]) k')
    (hrun : n.run env m bincode l1Enabled events = some n') (hbound : n'.Bounded) :
    I events n' := by
  have hpast : ∀ (events past : List NodeEvent) (k : Node T), I past k → k.Queued →
      k.run env m bincode l1Enabled events = some n' → I (past ++ events) n' := by
    intro events
    induction events with
    | nil =>
      intro past k h _ hrun
      rw [List.append_nil, ← Option.some_inj.mp hrun]
      exact h
    | cons e events ih =>
      intro past k h hk hrun
      obtain ⟨k', hfirst, hrest⟩ := Option.bind_eq_some_iff.mp hrun
      have hboundk' := hbound.of_run hrest
      have htaken := step_cases hfirst
      have hnext := hstep past k k' e h hk (hboundk'.of_taken htaken) hfirst
      have hall := ih (past ++ [e]) k' hnext (hk.step hboundk' htaken) hrest
      rwa [List.append_assoc, List.singleton_append] at hall
  exact hpast events [] n hinit hqueued hrun

/-- **A block is sent to L1 a bounded number of times.**  In every run that makes fewer blocks than
there are numbers, whatever fails and whenever the process is started anew, at most `maxRetries`
transactions are sent for every block and every start. -/
theorem attempts_bounded {tree : T} {root : Hash} {l1 : Bridge} {events : List NodeEvent}
    (hrun : (init tree root l1).run env m bincode l1Enabled events = some n) (hbound : n.Bounded)
    (number : UInt64) :
    n.sentFor number ≤ System.maxRetries * (1 + events.countP NodeEvent.isRestart) := by
  have htried : n.Tried (events.countP NodeEvent.isRestart) := by
    refine run_invariant (I := fun past k ↦ k.Tried (past.countP NodeEvent.isRestart))
      (tried_init tree root l1) (queued_init tree root l1) (fun past k k' e h hk hboundk hstep ↦ ?_)
      hrun hbound
    rw [List.countP_append, List.countP_singleton]
    exact h.step hk hboundk hstep
  rw [Nat.add_comm 1]
  exact htried.total number

end Node

/-! ## A transaction that never makes it -/

namespace Resent

open Requests (env m start)

/-- The block is proven, and the request that sends it fails. -/
def tryAgain : List NodeEvent := [.prove, .send [], .attemptFails]

def events : List NodeEvent :=
  ThreeBlocks.force :: ThreeBlocks.makeBlock ++ .peekPending :: (tryAgain ++ tryAgain ++ tryAgain)

theorem run_events : (start.run env m .v1 true events).map
    (fun n ↦ (n.sentFor 0, n.committed.length)) = some (3, 1) := by
  decide +kernel

end Resent

open Resent in
open Requests (env m start) in
/-- The bound is reached. -/
theorem attempts_bounded_resent : ∃ n : Node MemTree,
    start.run env m .v1 true events = some n ∧ n.sentFor 0 = 3 ∧
      n.sentFor 0 ≤ System.maxRetries * (1 + events.countP NodeEvent.isRestart) ∧
      System.maxRetries * (1 + events.countP NodeEvent.isRestart) = 3 := by
  obtain ⟨n, hrun, hview⟩ := Option.map_eq_some_iff.mp run_events
  obtain ⟨hsent, hlength⟩ := Prod.mk.inj hview
  have hbound : n.Bounded := by
    rw [Node.Bounded, hlength]
    omega
  exact ⟨n, hrun, hsent, Node.attempts_bounded hrun hbound 0, rfl⟩

end TinyRollup
