import TinyRollup.Sequencer.Attempts
import TinyRollup.Sequencer.Proven
import TinyRollup.Sequencer.Simulation

/-!
# What becomes of a block

A block that is committed stays in the queue until the prover worker removes it, and the worker
removes it only after it has recorded what became of it.  The process may stop in between, requests
may fail, and transactions may be mined whenever they want: a block that is no longer pending is
among the failed ones, or L1 has accepted public values with its root (`blocks_accounted`).  A block
may well be both (`accepted_fails`), but it is never neither.
-/

set_option autoImplicit false

namespace TinyRollup

open ByteString Stf

namespace Node

variable {T : Type} {env : Deployment} {m : Monotree T} {bincode : Bincode} {l1Enabled : Bool}
  {e : NodeEvent} {n n' : Node T} {b : PendingBlock}

/-- L1 has accepted a transaction that was sent for the block. -/
def Accepted (n : Node T) (b : PendingBlock) : Prop :=
  ∃ tx ∈ n.submissions, tx.block = b ∧ tx.status = .accepted

/-- A transaction that is accepted stays so. -/
theorem Accepted.setStatus (h : n.Accepted b) {i : ℕ} {tx : Submission} {status : TxStatus}
    (htx : n.submissions[i]? = some tx) (hpending : tx.status = .pending) :
    (n.setStatus i status).Accepted b := by
  obtain ⟨tx', htx', hblock, haccepted⟩ := h
  obtain ⟨j, hj⟩ := List.mem_iff_getElem?.mp htx'
  have hne : i ≠ j := by
    rintro rfl
    obtain rfl := Option.some_inj.mp (htx.symm.trans hj)
    exact absurd (hpending.symm.trans haccepted) (by simp)
  refine ⟨tx', List.mem_of_getElem? (i := j) ?_, hblock, haccepted⟩
  rw [getElem?_setStatus, if_neg hne]
  exact hj

/-- The worker records what becomes of a block before it removes it. -/
structure Fated (l1Enabled : Bool) (n : Node T) : Prop where
  failed : ∀ b ∈ n.disk.failed, b ∈ n.committed
  done : ∀ b ∈ n.done, b ∈ n.disk.failed ∨ b ∈ n.provenBlocks
  failedPushed : ∀ b, n.prover = .failedPushed b → b ∈ n.disk.failed
  provenMoved : ∀ b, n.prover = .provenMoved b → b ∈ n.provenBlocks
  settled : l1Enabled = true → ∀ b, n.prover = .settled b → n.Accepted b
  proven : l1Enabled = true → ∀ b ∈ n.provenBlocks, n.Accepted b

theorem fated_init (tree : T) (root : Hash) (l1 : Bridge) :
    (init tree root l1).Fated l1Enabled where
  failed _ h := absurd h List.not_mem_nil
  done _ h := absurd h List.not_mem_nil
  failedPushed _ h := absurd h (by simp [init])
  provenMoved _ h := absurd h (by simp [init])
  settled _ _ h := absurd h (by simp [init])
  proven _ _ h := absurd h List.not_mem_nil

/-! ## The steps -/

/-- A step that records nothing, after which the worker is not about to remove a block. -/
theorem Fated.of_same (h : n.Fated l1Enabled) (hcommitted : n'.committed = n.committed)
    (hdisk : n'.disk.pending = n.disk.pending ∧ n'.disk.failed = n.disk.failed)
    (hproven : n'.provenBlocks = n.provenBlocks) (haccepted : ∀ b, n.Accepted b → n'.Accepted b)
    (hprover : ∀ b, n'.prover ≠ .failedPushed b ∧ n'.prover ≠ .provenMoved b)
    (hsettled : l1Enabled = true → ∀ b, n'.prover = .settled b → n'.Accepted b) :
    n'.Fated l1Enabled := by
  obtain ⟨hpending, hfailed⟩ := hdisk
  refine ⟨?_, ?_, fun b hb ↦ absurd hb (hprover b).1, fun b hb ↦ absurd hb (hprover b).2,
    hsettled, fun hl1 b hb ↦ haccepted b (h.proven hl1 b (hproven ▸ hb))⟩
  · rw [hfailed, hcommitted]
    exact h.failed
  · rw [Node.done, hpending, hcommitted, hfailed, hproven]
    exact h.done

theorem Fated.workerStep (h : n.Fated l1Enabled) (hqueued : n.Queued) (hbound : n.Bounded)
    (hstep : n.WorkerStep env m bincode e n') : n'.Fated l1Enabled := by
  have hsame := hstep.sameProver
  have haccepted : ∀ b, n.Accepted b → n'.Accepted b := by
    intro b hb
    rw [Accepted, hsame.submissions]
    exact hb
  have hdone : n'.done = n.done := by
    rcases hstep.pending with ⟨hpending, -, hcommitted⟩ | ⟨block, hw, rfl⟩
    · rw [Node.done, hpending, hcommitted, Node.done]
    · exact hqueued.done_commitBlock hbound hw
  refine ⟨fun b hb ↦ ?_, ?_, ?_, ?_, fun hl1 b hb ↦ ?_, fun hl1 b hb ↦ ?_⟩
  · exact hstep.committed_subset (h.failed b (hsame.failed ▸ hb))
  · rw [hdone, hsame.failed, hsame.provenBlocks]
    exact h.done
  · rw [hsame.prover, hsame.failed]
    exact h.failedPushed
  · rw [hsame.prover, hsame.provenBlocks]
    exact h.provenMoved
  · exact haccepted b (h.settled hl1 b (hsame.prover ▸ hb))
  · exact haccepted b (h.proven hl1 b (hsame.provenBlocks ▸ hb))

theorem Fated.countRetry (h : n.Fated l1Enabled) (poisoned : Bool) (block : PendingBlock)
    (retries : ℕ) : ({ n with poisoned }.countRetry block retries).Fated l1Enabled := by
  rcases ({ n with poisoned } : Node T).countRetry_eq block retries with heq | heq <;> rw [heq]
  all_goals
    exact h.of_same rfl ⟨rfl, rfl⟩ rfl (fun _ hb ↦ hb) (fun _ ↦ ⟨by simp, by simp⟩)
      (fun _ _ hb ↦ absurd hb (by simp))

/-- The failed block takes the place of no other. -/
theorem Fated.pushFailed (h : n.Fated l1Enabled) (hqueued : n.Queued) (hbound : n.Bounded)
    {block : PendingBlock} (hp : n.prover = .givenUp block) :
    Fated l1Enabled { n with disk := n.disk.pushFailed block, prover := .failedPushed block } := by
  have hmem := (hqueued.mem_of_block? (b := block) (by rw [hp]; rfl)).2
  have hput : ∀ b ∈ n.disk.failed, b ∈ n.disk.failed.put block := by
    intro b hb
    refine KeyedQueue.mem_put.mpr ?_
    by_cases heq : b.blockNumber = block.blockNumber
    · exact Or.inl (hqueued.eq_of_number hbound (h.failed b hb) hmem heq)
    · exact Or.inr ⟨hb, fun hkey ↦ heq (UInt64.toNat_inj.mp hkey)⟩
  refine ⟨fun b hb ↦ ?_, fun b hb ↦ (h.done b hb).imp_left (hput b), fun b hb ↦ ?_,
    fun b hb ↦ absurd hb (by simp), fun _ b hb ↦ absurd hb (by simp), h.proven⟩
  · rcases KeyedQueue.mem_put.mp hb with rfl | ⟨hb, -⟩
    · exact hmem
    · exact h.failed b hb
  · obtain rfl := ProverWorker.failedPushed.inj hb
    exact KeyedQueue.mem_put.mpr (Or.inl rfl)

theorem Fated.proverStep (h : n.Fated l1Enabled) (hqueued : n.Queued) (hbound : n.Bounded)
    (htracked : n.Tracked) (hstep : n.ProverStep env l1Enabled e n') : n'.Fated l1Enabled := by
  cases hstep with
  | peekPending _ _ | proves _ _ _ =>
    exact h.of_same rfl ⟨rfl, rfl⟩ rfl (fun _ hb ↦ hb) (fun _ ↦ ⟨by simp, by simp⟩)
      (fun _ _ hb ↦ absurd hb (by simp))
  | provesOffline _ hl1 =>
    exact h.of_same rfl ⟨rfl, rfl⟩ rfl (fun _ hb ↦ hb) (fun _ ↦ ⟨by simp, by simp⟩)
      (fun hl1' _ _ ↦ absurd (hl1'.symm.trans hl1) (by simp))
  | proveFails poisoned _ => exact h.countRetry poisoned _ _
  | receiptReverted | attemptFails => exact h.countRetry n.poisoned _ _
  | send _ =>
    refine h.of_same rfl ⟨rfl, rfl⟩ rfl ?_ (fun _ ↦ ⟨by simp, by simp⟩)
      (fun _ _ hb ↦ absurd hb (by simp))
    rintro b ⟨tx, htx, hblock⟩
    exact ⟨tx, List.mem_append_left _ htx, hblock⟩
  | @receiptAccepted block retries i hp hstatus =>
    obtain ⟨tx, htx, hblock⟩ := htracked block retries i hp
    rw [htx, Option.map_some, Option.some_inj] at hstatus
    refine h.of_same rfl ⟨rfl, rfl⟩ rfl (fun _ hb ↦ hb) (fun _ ↦ ⟨by simp, by simp⟩)
      fun _ b hb ↦ ?_
    obtain rfl := ProverWorker.settled.inj hb
    exact ⟨tx, List.mem_of_getElem? htx, hblock, hstatus⟩
  | @moveProven block hp =>
    refine ⟨h.failed, fun b hb ↦ (h.done b hb).imp_right (List.mem_append_left _),
      fun b hb ↦ absurd hb (by simp), fun b hb ↦ ?_, fun _ b hb ↦ absurd hb (by simp),
      fun hl1 b hb ↦ ?_⟩
    · obtain rfl := ProverWorker.provenMoved.inj hb
      exact List.mem_append_right _ (List.mem_singleton_self _)
    · rcases List.mem_append.mp hb with hb | hb
      · exact h.proven hl1 b hb
      · obtain rfl := List.mem_singleton.mp hb
        exact h.settled hl1 b hp
  | pushFailed hp => exact h.pushFailed hqueued hbound hp
  | @removePending block hp =>
    have hblock : n.prover.block? = some block := by
      rcases hp with hp | hp <;> rw [hp] <;> rfl
    refine ⟨h.failed, fun b hb ↦ ?_, fun b hb ↦ absurd hb (by simp),
      fun b hb ↦ absurd hb (by simp), fun _ b hb ↦ absurd hb (by simp), h.proven⟩
    rw [hqueued.done_removePending hblock] at hb
    rcases List.mem_append.mp hb with hb | hb
    · exact h.done b hb
    · obtain rfl := List.mem_singleton.mp hb
      rcases hp with hp | hp
      · exact Or.inr (h.provenMoved b hp)
      · exact Or.inl (h.failedPushed b hp)
  | dies _ =>
    exact h.of_same rfl ⟨rfl, rfl⟩ rfl (fun _ hb ↦ hb) (fun _ ↦ ⟨by simp, by simp⟩)
      (fun _ _ hb ↦ absurd hb (by simp))

theorem Fated.l1Step (h : n.Fated l1Enabled) (hstep : n.L1Step env e n') :
    n'.Fated l1Enabled := by
  have hset : ∀ {i : ℕ} {tx : Submission} (status : TxStatus), n.submissions[i]? = some tx →
      tx.status = .pending → (n.setStatus i status).Fated l1Enabled := by
    intro i tx status htx hpending
    exact ⟨h.failed, h.done, h.failedPushed, h.provenMoved,
      fun hl1 b hb ↦ (h.settled hl1 b hb).setStatus htx hpending,
      fun hl1 b hb ↦ (h.proven hl1 b hb).setStatus htx hpending⟩
  cases hstep with
  | callL1 call => exact { h with }
  | accepted htx hpending _ => exact { hset .accepted htx hpending with }
  | reverted htx hpending => exact hset _ htx hpending
  | dropped htx hpending => exact hset _ htx hpending

/-- **One step.** -/
theorem Fated.step (h : n.Fated l1Enabled) (hqueued : n.Queued) (hbound : n.Bounded)
    (htracked : n.Tracked) (hstep : n.Taken env m bincode l1Enabled e n') :
    n'.Fated l1Enabled := by
  cases hstep with
  | submitTx tx => exact { h with }
  | worker hstep => exact h.workerStep hqueued hbound hstep
  | prover hstep => exact h.proverStep hqueued hbound htracked hstep
  | l1 hstep => exact h.l1Step hstep
  | restart =>
    exact h.of_same rfl ⟨rfl, rfl⟩ rfl (fun _ hb ↦ hb)
      (fun _ ↦ ⟨by simp [Node.restart], by simp [Node.restart]⟩)
      (fun _ _ hb ↦ absurd hb (by simp [Node.restart]))

/-! ## Every run -/

/-- What holds of the process whoever fails. -/
structure Recorded (l1Enabled : Bool) (n : Node T) : Prop where
  fated : n.Fated l1Enabled
  tracked : n.Tracked
  carried : n.Carried
  logged : n.Logged

/-- **No block is lost.**  In every run that makes fewer blocks than there are numbers, whatever
fails and whenever the process is started anew, the committed blocks are those that have left the
queue and those in it, in order; every block that has left it is among the failed ones, or is proven
and, with L1 enabled, was accepted on L1 with its root. -/
theorem blocks_accounted {tree : T} {root : Hash} {l1 : Bridge} {events : List NodeEvent}
    (hrun : (init tree root l1).run env m bincode l1Enabled events = some n) (hbound : n.Bounded) :
    ∃ done, done ++ n.disk.pending.items = n.committed ∧
      ∀ b ∈ done, b ∈ n.disk.failed ∨ (b ∈ n.provenBlocks ∧
        (l1Enabled = true → ∃ publicValues ∈ n.l1.accepted, Carries publicValues b)) := by
  have hinit : (init tree root l1).Recorded l1Enabled :=
    ⟨fated_init tree root l1, tracked_init tree root l1, carried_init tree root l1,
      logged_init tree root l1⟩
  have hrecorded : n.Recorded l1Enabled := by
    refine run_invariant (I := fun _ k ↦ k.Recorded l1Enabled) hinit (queued_init tree root l1)
      (fun _ k k' e h hk hboundk hstep ↦ ?_) hrun hbound
    have htaken := step_cases hstep
    exact ⟨h.fated.step hk hboundk h.tracked htaken, h.tracked.step htaken, h.carried.step htaken,
      h.logged.step htaken⟩
  have hreaches : Reaches env m bincode l1Enabled (fun _ _ ↦ True) (init tree root l1) n :=
    reaches_of_run (fun _ _ _ ↦ trivial) hrun
  have hqueued := hreaches.queued hbound
  refine ⟨n.done, hqueued.done_append, fun b hb ↦ ?_⟩
  refine (hrecorded.fated.done b hb).imp_right fun hproven ↦ ⟨hproven, fun hl1 ↦ ?_⟩
  obtain ⟨tx, htx, rfl, hstatus⟩ := hrecorded.fated.proven hl1 b hproven
  obtain ⟨i, hi⟩ := List.mem_iff_getElem?.mp htx
  exact ⟨tx.publicValues, hrecorded.logged i tx hi hstatus, hrecorded.carried.sent i tx hi⟩

end Node

open Forgotten ThreeBlocks Requests in
/-- One block is settled, one has failed and one is pending. -/
theorem blocks_accounted_settled : ∃ (n : Node MemTree) (done : List PendingBlock),
    sent n = [(.accepted, 0)] ∧ numbers n.disk.failed = [1] ∧ n.committed.length = 3 ∧
      done ++ n.disk.pending.items = n.committed ∧
      ∀ b ∈ done, b ∈ n.disk.failed ∨
        (b ∈ n.provenBlocks ∧ ∃ publicValues ∈ n.l1.accepted, Node.Carries publicValues b) := by
  obtain ⟨k, hprove, -, k', hsettle, -, -, -, -, hview⟩ := run_prove
  obtain ⟨n, hrun, hview⟩ := Option.map_eq_some_iff.mp hview
  obtain ⟨hsent, hrest⟩ := Prod.mk.inj hview
  obtain ⟨hfailed, hlength⟩ := Prod.mk.inj hrest
  have hall : start.run env m .v1 true (force :: makeBlock ++ prove ++ (settle
      ++ (.peekPending :: giveUp ++ [.removePending]))) = some n := by
    rw [Node.run_append, Node.run_of_runIf hprove, Option.bind_some, Node.run_append,
      Node.run_of_runIf hsettle, Option.bind_some, Node.run_of_runIf hrun]
  have hbound : n.Bounded := by
    rw [Node.Bounded, hlength]
    omega
  obtain ⟨done, hdone, hfates⟩ := Node.blocks_accounted hall hbound
  exact ⟨n, done, hsent, hfailed, hlength, hdone,
    fun b hb ↦ (hfates b hb).imp_right fun h ↦ ⟨h.1, h.2 rfl⟩⟩

end TinyRollup
