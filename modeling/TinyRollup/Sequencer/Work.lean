import TinyRollup.Sequencer.Attempts

/-!
# How much the prover worker does

The loop of the prover worker has no counter of its own: it takes blocks as long as there are any.
Every block is charged for the steps that it may take, and so is every start of the process, after
which the first block is taken anew.  What a block is charged for pays for the attempts, for what
comes after them and for the removal, whatever fails in between (`Charged.step`); so the worker
takes a bounded number of steps for every block and every start (`work_bounded`).
-/

set_option autoImplicit false

namespace TinyRollup

/-- The event is a step of the prover worker. -/
def NodeEvent.isProver : NodeEvent → Bool
  | .peekPending | .prove | .send _ | .getReceipt | .attemptFails | .moveProven | .pushFailed
  | .removePending | .proverFails => true
  | _ => false

/-- Three steps for an attempt, and the steps that take the block, record what became of it and
remove it. -/
def System.stepsPerBlock : ℕ := 3 * System.maxRetries + 3

/-- How many steps the worker can take, at most, until it is done with the block that it is at, and
one to stop. -/
def ProverWorker.rank : ProverWorker → ℕ
  | .sleeping => System.stepsPerBlock + 1
  | .proving _ retries => 3 * (System.maxRetries - 1 - retries) + 6
  | .proved _ retries _ => 3 * (System.maxRetries - 1 - retries) + 5
  | .sent _ retries _ => 3 * (System.maxRetries - 1 - retries) + 4
  | .settled _ | .givenUp _ => 3
  | .provenMoved _ | .failedPushed _ => 2
  | .dead => 1

theorem ProverWorker.rank_pos (p : ProverWorker) : 0 < p.rank := by
  cases p <;> exact Nat.succ_pos _

namespace Node

variable {T : Type} {env : Deployment} {m : Monotree T} {bincode : Bincode} {l1Enabled : Bool}
  {e : NodeEvent} {n n' : Node T} {steps starts : ℕ}

/-! ## The steps of the worker -/

theorem proverStep_of_isProver (hstep : n.step env m bincode l1Enabled e = some n')
    (he : e.isProver = true) : n.ProverStep env l1Enabled e n' := by
  cases e with
  | peekPending => exact proverStep_peekPending hstep
  | prove => exact proverStep_prove hstep
  | send proofBytes => exact proverStep_send hstep
  | getReceipt => exact proverStep_getReceipt hstep
  | attemptFails => exact proverStep_attemptFails hstep
  | moveProven => exact proverStep_moveProven hstep
  | pushFailed => exact proverStep_pushFailed hstep
  | removePending => exact proverStep_removePending hstep
  | proverFails => exact proverStep_proverFails hstep
  | _ => exact absurd he (by simp [NodeEvent.isProver])

/-- A worker that has stopped takes no step. -/
theorem not_dead_of_isProver (hstep : n.step env m bincode l1Enabled e = some n')
    (he : e.isProver = true) : n.prover ≠ .dead := by
  intro hdead
  have hnone : n.step env m bincode l1Enabled e = none := by
    cases e with
    | peekPending => rw [step, peekPending, hdead]
    | prove => rw [step, prove, hdead]
    | send proofBytes => rw [step, send, hdead]
    | getReceipt => rw [step, getReceipt, hdead]
    | attemptFails => rw [step, attemptFails, hdead]
    | moveProven => rw [step, moveProven, hdead]
    | pushFailed => rw [step, pushFailed, hdead]
    | removePending => rw [step, removePending, hdead]
    | proverFails => rw [step, proverFails, hdead]
    | _ => exact absurd he (by simp [NodeEvent.isProver])
  rw [hnone] at hstep
  exact absurd hstep (by simp)

theorem not_isProver_of_proverStep (hstep : n.ProverStep env l1Enabled e n') :
    e.isProver = true := by
  cases hstep <;> rfl

/-- The attempt that failed has used one step at least. -/
theorem rank_countRetry (block : PendingBlock) (retries : ℕ) :
    (n.countRetry block retries).prover.rank < 3 * (System.maxRetries - 1 - retries) + 4 := by
  rw [countRetry]
  split
  · show 3 < _
    omega
  · show 3 * (System.maxRetries - 1 - (retries + 1)) + 6 < _
    omega

/-- What a step of the worker costs.  Only the removal of a block is paid for by the block. -/
theorem ProverStep.rank_lt (hstep : n.ProverStep env l1Enabled e n') (halive : n.prover ≠ .dead) :
    n'.prover.rank < n.prover.rank ∧ n'.disk.pending = n.disk.pending ∨
      ∃ block, (n.prover = .provenMoved block ∨ n.prover = .failedPushed block) ∧
        n' = { n with disk := n.disk.removePending block.blockNumber, prover := .sleeping } := by
  have hretry : ∀ (poisoned : Bool) (block : PendingBlock) (retries : ℕ),
      3 * (System.maxRetries - 1 - retries) + 4 ≤ n.prover.rank →
        ({ n with poisoned }.countRetry block retries).prover.rank < n.prover.rank ∧
          ({ n with poisoned }.countRetry block retries).disk.pending = n.disk.pending := by
    intro poisoned block retries hle
    refine ⟨Nat.lt_of_lt_of_le (rank_countRetry block retries) hle, ?_⟩
    rw [(countRetry_block block retries).2]
  cases hstep with
  | peekPending hp _ =>
    refine Or.inl ⟨?_, rfl⟩
    rw [hp]
    show 3 * (System.maxRetries - 1 - 0) + 6 < System.stepsPerBlock + 1
    decide
  | proves hp _ _ | provesOffline hp _ | send hp | receiptAccepted hp _ =>
    refine Or.inl ⟨?_, rfl⟩
    rw [hp]
    simp only [ProverWorker.rank]
    omega
  | moveProven hp | pushFailed hp =>
    refine Or.inl ⟨?_, rfl⟩
    rw [hp]
    exact Nat.lt_succ_self 2
  | @proveFails block retries poisoned hp =>
    refine Or.inl (hretry poisoned block retries ?_)
    rw [hp]
    exact Nat.add_le_add_left (by decide) _
  | @receiptReverted block retries i hp _ =>
    refine Or.inl (hretry n.poisoned block retries ?_)
    rw [hp]
    exact Nat.le_refl _
  | @attemptFails block retries hp =>
    refine Or.inl (hretry n.poisoned block retries ?_)
    cases hprover : n.prover with
    | proving b r | proved b r publicValues | sent b r i =>
      rw [hprover] at hp
      obtain ⟨-, rfl⟩ := Prod.mk.inj (Option.some_inj.mp hp)
      simp only [ProverWorker.rank]
      omega
    | _ =>
      rw [hprover] at hp
      exact absurd hp (by simp [ProverWorker.attempt?])
  | @removePending block hp => exact Or.inr ⟨block, hp, rfl⟩
  | dies _ =>
    refine Or.inl ⟨?_, rfl⟩
    show 1 < n.prover.rank
    cases hprover : n.prover with
    | dead => exact absurd hprover halive
    | sleeping => decide
    | _ =>
      simp only [ProverWorker.rank]
      omega

/-! ## The charges -/

/-- The steps taken so far, after some starts of the process, are paid for by the blocks that are no
longer pending and by the starts; the worker has the rest for the block that it is at. -/
structure Charged (steps starts : ℕ) (n : Node T) : Prop where
  rest : steps + n.prover.rank + System.stepsPerBlock * n.disk.pending.items.length ≤
    System.stepsPerBlock * (n.committed.length + starts + 1) + 1
  total : steps ≤ System.stepsPerBlock * (n.committed.length + starts) + 1

theorem charged_init (tree : T) (root : Hash) (l1 : Bridge) : (init tree root l1).Charged 0 0 where
  rest := Nat.le_of_eq rfl
  total := Nat.zero_le _

/-- Where the worker can take a step, it is at a block or has all its steps before it. -/
theorem Queued.credit (h : n.Queued) (halive : n.prover ≠ .dead) :
    System.stepsPerBlock + 1 ≤
      n.prover.rank + System.stepsPerBlock * n.disk.pending.items.length := by
  cases hblock : n.prover.block? with
  | none =>
    have hsleeping : n.prover = .sleeping := by
      cases hprover : n.prover with
      | sleeping => rfl
      | dead => exact absurd hprover halive
      | _ =>
        rw [hprover] at hblock
        exact absurd hblock (by simp [ProverWorker.block?])
    rw [hsleeping]
    exact Nat.le_add_right _ _
  | some block =>
    have hlength := List.length_pos_of_mem (h.mem_of_block? hblock).1
    have hmul := Nat.mul_le_mul_left System.stepsPerBlock hlength
    have hrank := n.prover.rank_pos
    omega

/-- A removed block leaves the queue one shorter. -/
theorem Queued.length_removePending (h : n.Queued) {block : PendingBlock}
    (hp : n.prover.block? = some block) :
    (n.disk.removePending block.blockNumber).pending.items.length + 1
      = n.disk.pending.items.length := by
  have hpeek := h.taken block hp
  have herase : (n.disk.removePending block.blockNumber).pending.items
      = n.disk.pending.items.tail := KeyedQueue.items_erase_peek hpeek
  have hlength := List.length_pos_of_mem (KeyedQueue.mem_of_peek hpeek)
  rw [herase, List.length_tail]
  omega

theorem Charged.proverStep (h : n.Charged steps starts) (hqueued : n.Queued)
    (halive : n.prover ≠ .dead) (hstep : n.ProverStep env l1Enabled e n') :
    n'.Charged (steps + 1) starts := by
  have hrest := h.rest
  have hcredit := hqueued.credit halive
  have hcommitted := hstep.sameWorker.committed
  refine ⟨?_, ?_⟩
  · rw [hcommitted]
    rcases hstep.rank_lt halive with ⟨hrank, hpending⟩ | ⟨block, hp, rfl⟩
    · rw [hpending]
      omega
    · -- The steps of the next block are those that this one was charged for.
      have hblock : n.prover.block? = some block := by
        rcases hp with hp | hp <;> rw [hp] <;> rfl
      have hlength := hqueued.length_removePending hblock
      have hrank : n.prover.rank = 2 := by rcases hp with hp | hp <;> rw [hp] <;> rfl
      rw [← hlength, Nat.mul_add, hrank] at hrest
      show steps + 1 + (System.stepsPerBlock + 1)
        + System.stepsPerBlock * (n.disk.removePending block.blockNumber).pending.items.length ≤ _
      omega
  · rw [hcommitted]
    rw [Nat.mul_add _ _ 1] at hrest
    omega

theorem Charged.workerStep (h : n.Charged steps starts) (hqueued : n.Queued) (hbound : n.Bounded)
    (hstep : n.WorkerStep env m bincode e n') : n'.Charged steps starts := by
  have hprover := hstep.sameProver.prover
  rcases hstep.pending with ⟨hpending, -, hcommitted⟩ | ⟨block, hw, rfl⟩
  · refine ⟨?_, ?_⟩
    · rw [hprover, hpending, hcommitted]
      exact h.rest
    · rw [hcommitted]
      exact h.total
  · have hrest := h.rest
    have htotal := h.total
    have hput : (n.disk.commitOptimisticBlock block (block.blockNumber + 1)).pending.items
        = n.disk.pending.items ++ [block] := hqueued.items_put hbound hw
    refine ⟨?_, ?_⟩
    · show steps + n.prover.rank + System.stepsPerBlock
        * (n.disk.commitOptimisticBlock block (block.blockNumber + 1)).pending.items.length ≤ _
      rw [hput, List.length_append, List.length_append, List.length_singleton]
      simp only [Nat.mul_add] at hrest ⊢
      omega
    · rw [List.length_append, List.length_singleton]
      simp only [Nat.mul_add] at htotal ⊢
      omega

/-- The block that the worker was at is charged to the start. -/
theorem Charged.restart (h : n.Charged steps starts) : n.restart.Charged steps (starts + 1) := by
  have hrest := h.rest
  have htotal := h.total
  have hrank := n.prover.rank_pos
  refine ⟨?_, ?_⟩
  · show steps + (System.stepsPerBlock + 1) + System.stepsPerBlock * n.disk.pending.items.length ≤
      System.stepsPerBlock * (n.committed.length + (starts + 1) + 1) + 1
    simp only [Nat.mul_add] at hrest ⊢
    omega
  · show steps ≤ System.stepsPerBlock * (n.committed.length + (starts + 1)) + 1
    simp only [Nat.mul_add] at htotal ⊢
    omega

/-- **One step.** -/
theorem Charged.step (h : n.Charged steps starts) (hqueued : n.Queued) (hbound : n.Bounded)
    (hstep : n.step env m bincode l1Enabled e = some n') :
    n'.Charged (steps + if e.isProver then 1 else 0) (starts + if e.isRestart then 1 else 0) := by
  cases he : e.isProver with
  | true =>
    have hprover := proverStep_of_isProver hstep he
    have hnot : e.isRestart = false := by cases hprover <;> rfl
    rw [if_pos rfl, hnot]
    exact h.proverStep hqueued (not_dead_of_isProver hstep he) hprover
  | false =>
    cases hr : e.isRestart with
    | true =>
      cases e with
      | restart =>
        rw [← Option.some_inj.mp hstep]
        exact h.restart
      | _ => exact absurd hr (by simp [NodeEvent.isRestart])
    | false =>
      show n'.Charged steps starts
      cases step_cases hstep with
      | submitTx tx => exact ⟨h.rest, h.total⟩
      | worker hworker => exact h.workerStep hqueued hbound hworker
      | prover hprover => exact absurd (not_isProver_of_proverStep hprover) (by rw [he]; simp)
      | l1 hl1 => cases hl1 <;> exact ⟨h.rest, h.total⟩
      | restart => exact absurd hr (by simp [NodeEvent.isRestart])

/-- **The prover worker takes a bounded number of steps.**  In every run that makes fewer blocks
than there are numbers, whatever fails and whenever the process is started anew, it takes at most
`stepsPerBlock` steps for every committed block and every start but the first, and one more with
which it stops. -/
theorem work_bounded {tree : T} {root : Hash} {l1 : Bridge} {events : List NodeEvent}
    (hrun : (init tree root l1).run env m bincode l1Enabled events = some n) (hbound : n.Bounded) :
    events.countP NodeEvent.isProver ≤
      System.stepsPerBlock * (n.committed.length + events.countP NodeEvent.isRestart) + 1 := by
  have hcharged : n.Charged (events.countP NodeEvent.isProver)
      (events.countP NodeEvent.isRestart) := by
    refine run_invariant (I := fun past k ↦
        k.Charged (past.countP NodeEvent.isProver) (past.countP NodeEvent.isRestart))
      (charged_init tree root l1) (queued_init tree root l1)
      (fun past k k' e h hk hboundk hstep ↦ ?_) hrun hbound
    rw [List.countP_append, List.countP_append, List.countP_singleton, List.countP_singleton]
    exact h.step hk hboundk hstep
  exact hcharged.total

end Node

/-! ## A block that uses all its steps -/

namespace Resent

open Requests (env m start)

/-- The block is given up, and the queue database fails afterwards. -/
def allEvents : List NodeEvent := events ++ [.pushFailed, .removePending, .proverFails]

theorem run_allEvents : (start.run env m .v1 true allEvents).map
    (fun n ↦ n.committed.length) = some 1 := by
  decide +kernel

end Resent

open Resent in
open Requests (env m start) in
/-- The bound is reached. -/
theorem work_bounded_resent : ∃ n : Node MemTree,
    start.run env m .v1 true allEvents = some n ∧ allEvents.countP NodeEvent.isProver = 13 ∧
      allEvents.countP NodeEvent.isProver ≤ System.stepsPerBlock
        * (n.committed.length + allEvents.countP NodeEvent.isRestart) + 1 ∧
      System.stepsPerBlock * (n.committed.length + allEvents.countP NodeEvent.isRestart) + 1
        = 13 := by
  obtain ⟨n, hrun, hlength⟩ := Option.map_eq_some_iff.mp run_allEvents
  have hbound : n.Bounded := by
    rw [Node.Bounded, hlength]
    omega
  refine ⟨n, hrun, by decide, Node.work_bounded hrun hbound, ?_⟩
  rw [hlength]
  decide

end TinyRollup
