import TinyRollup.Sequencer.Submissions

/-!
# The queue of failed blocks

A block is moved to the queue of failed blocks after three attempts, whatever became of the
transactions of these attempts.  As long as the prover worker forgets no transaction that L1
accepts, the blocks that it moves are not settled by it, and no block is left in both queues
(`Filed`).  Nobody else may settle them either: anyone can send what the worker would send.
-/

set_option autoImplicit false

namespace TinyRollup

open ByteString Stf

namespace Node

variable {T : Type} {env : Deployment} {m : Monotree T} {bincode : Bincode} {l1Enabled : Bool}
  {e : NodeEvent} {n n' : Node T}

/-- The failed blocks and the accepted ones are the prover worker's own: it is at those of them that
are still pending. -/
structure Filed (n : Node T) : Prop where
  failed : ∀ b ∈ n.disk.failed, b ∈ n.committed ∧
    (b ∈ n.disk.pending → n.prover = .failedPushed b)
  accepted : ∀ i tx, n.submissions[i]? = some tx → tx.status = .accepted →
    tx.block ∈ n.committed ∧ tx.block ∉ n.disk.failed ∧
      (tx.block ∈ n.disk.pending → n.prover.Awaits tx.block i)

theorem filed_init (tree : T) (root : Hash) (l1 : Bridge) : (init tree root l1).Filed where
  failed _ h := absurd h List.not_mem_nil
  accepted _ _ h := absurd h (by simp [init])

/-! ## The steps -/

/-- A step that moves no block between the queues and changes no transaction. -/
theorem Filed.of_same (h : n.Filed) (hcommitted : n'.committed = n.committed)
    (hdisk : n'.disk.pending = n.disk.pending ∧ n'.disk.failed = n.disk.failed)
    (hsub : n'.submissions = n.submissions)
    (hfailed : ∀ b, n.prover = .failedPushed b → n'.prover = .failedPushed b)
    (haccepted : ∀ i tx, n.submissions[i]? = some tx → tx.status = .accepted →
      n.prover.Awaits tx.block i → n'.prover.Awaits tx.block i) : n'.Filed := by
  obtain ⟨hpending, hfailedQueue⟩ := hdisk
  constructor
  · rw [hcommitted, hpending, hfailedQueue]
    exact fun b hb ↦ ⟨(h.failed b hb).1, fun hmem ↦ hfailed b ((h.failed b hb).2 hmem)⟩
  · rw [hcommitted, hpending, hfailedQueue, hsub]
    intro i tx htx hstatus
    obtain ⟨hcom, hnot, hawaits⟩ := h.accepted i tx htx hstatus
    exact ⟨hcom, hnot, fun hmem ↦ haccepted i tx htx hstatus (hawaits hmem)⟩

theorem Filed.commitBlock (h : n.Filed) (hqueued : n.Queued) (hbound : n.Bounded)
    {block : PendingBlock} (hw : n.worker = .drained block) :
    Filed { n with
      disk := n.disk.commitOptimisticBlock block (block.blockNumber + 1)
      committed := n.committed ++ [block]
      worker := .sleeping } := by
  -- The block is new, so it is neither a failed one nor one with an accepted transaction.
  have hnew : block ∉ n.committed := by
    intro hmem
    have hlt := hqueued.number_lt hbound hmem
    rw [hqueued.toNat_counted hbound (by rw [hw]; rfl)] at hlt
    omega
  have hold : ∀ b ∈ n.committed, b ∈ n.disk.pending.put block → b ∈ n.disk.pending := by
    intro b hb hmem
    rcases KeyedQueue.mem_put.mp hmem with rfl | ⟨hmem, -⟩
    · exact absurd hb hnew
    · exact hmem
  constructor
  · intro b hb
    obtain ⟨hcom, hpushed⟩ := h.failed b hb
    exact ⟨List.mem_append_left _ hcom, fun hmem ↦ hpushed (hold b hcom hmem)⟩
  · intro i tx htx hstatus
    obtain ⟨hcom, hnot, hawaits⟩ := h.accepted i tx htx hstatus
    exact ⟨List.mem_append_left _ hcom, hnot, fun hmem ↦ hawaits (hold _ hcom hmem)⟩

theorem Filed.workerStep (h : n.Filed) (hqueued : n.Queued) (hbound : n.Bounded)
    (hstep : n.WorkerStep env m bincode e n') : n'.Filed := by
  have hsame := hstep.sameProver
  rcases hstep.pending with ⟨hpending, -, hcommitted⟩ | ⟨block, hw, rfl⟩
  · refine h.of_same hcommitted ⟨hpending, hsame.failed⟩ hsame.submissions ?_ ?_
    · exact fun b hb ↦ hsame.prover.trans hb
    · exact fun i tx _ _ hawaits ↦ hsame.prover ▸ hawaits
  · exact h.commitBlock hqueued hbound hw

/-- The worker gives a block up, which it has been at since it took it from the queue. -/
theorem Filed.pushFailed (h : n.Filed) (hqueued : n.Queued) {block : PendingBlock}
    (hp : n.prover = .givenUp block) :
    Filed { n with disk := n.disk.pushFailed block, prover := .failedPushed block } := by
  obtain ⟨hpending, hcommitted⟩ := hqueued.mem_of_block? (b := block) (by rw [hp]; rfl)
  constructor
  · intro b hb
    rcases KeyedQueue.mem_put.mp hb with rfl | ⟨hb, -⟩
    · exact ⟨hcommitted, fun _ ↦ rfl⟩
    · obtain ⟨hcom, hpushed⟩ := h.failed b hb
      refine ⟨hcom, fun hmem ↦ absurd (hpushed hmem) ?_⟩
      rw [hp]
      simp
  · intro i tx htx hstatus
    obtain ⟨hcom, hnot, hawaits⟩ := h.accepted i tx htx hstatus
    have hleft : tx.block ∉ n.disk.pending := by
      intro hmem
      have hat := hawaits hmem
      rw [hp] at hat
      exact hat
    refine ⟨hcom, fun hmem ↦ ?_, fun hmem ↦ absurd hmem hleft⟩
    rcases KeyedQueue.mem_put.mp hmem with heq | ⟨hmem, -⟩
    · exact hleft (heq ▸ hpending)
    · exact hnot hmem

theorem Filed.removePending (h : n.Filed) {block : PendingBlock}
    (hp : n.prover = .provenMoved block ∨ n.prover = .failedPushed block) :
    Filed { n with disk := n.disk.removePending block.blockNumber, prover := .sleeping } := by
  constructor
  · intro b hb
    obtain ⟨hcom, hpushed⟩ := h.failed b hb
    refine ⟨hcom, fun hmem ↦ ?_⟩
    obtain ⟨hmem, hne⟩ := KeyedQueue.mem_erase.mp hmem
    have hat := hpushed hmem
    rcases hp with hp | hp
    · exact absurd (hp.symm.trans hat) (by simp)
    · obtain rfl := ProverWorker.failedPushed.inj (hp.symm.trans hat)
      exact absurd rfl hne
  · intro i tx htx hstatus
    obtain ⟨hcom, hnot, hawaits⟩ := h.accepted i tx htx hstatus
    refine ⟨hcom, hnot, fun hmem ↦ ?_⟩
    obtain ⟨hmem, hne⟩ := KeyedQueue.mem_erase.mp hmem
    have hat := hawaits hmem
    rcases hp with hp | hp
    · rw [hp] at hat
      obtain rfl : block = tx.block := hat
      exact absurd rfl hne
    · rw [hp] at hat
      exact hat.elim

/-- A step of the worker that changes neither queue, where it forgets nothing. -/
theorem Filed.of_quiet (h : n.Filed) (hquiet : n.Quiet) (hcommitted : n'.committed = n.committed)
    (hdisk : n'.disk.pending = n.disk.pending ∧ n'.disk.failed = n.disk.failed)
    (hsub : n'.submissions = n.submissions) : n'.Filed := by
  refine h.of_same hcommitted hdisk hsub (fun b hb ↦ ?_) fun i tx htx hstatus hawaits ↦ ?_
  · rw [Quiet, hb] at hquiet
    exact hquiet.elim
  · exact absurd hawaits (hquiet.not_awaits htx hstatus _)

theorem Filed.proverStep (h : n.Filed) (hqueued : n.Queued) (hok : n.Attentive env e)
    (hstep : n.ProverStep env l1Enabled e n') : n'.Filed := by
  have hretry : ∀ (poisoned : Bool) (block : PendingBlock) (retries : ℕ), n.Quiet →
      ({ n with poisoned }.countRetry block retries).Filed := by
    intro poisoned block retries hquiet
    refine h.of_quiet hquiet ?_ ?_ (countRetry_submissions _ _)
    · rcases countRetry_eq (n := { n with poisoned }) block retries with heq | heq <;> rw [heq]
    · rw [(countRetry_block block retries).2]
      exact ⟨rfl, rfl⟩
  cases hstep with
  | peekPending hp _ | proves hp _ _ | provesOffline hp _ =>
    exact h.of_quiet (by rw [Quiet, hp]; trivial) rfl ⟨rfl, rfl⟩ rfl
  | proveFails poisoned hp => exact hretry poisoned _ _ (by rw [Quiet, hp]; trivial)
  | @send proofBytes publicValues block retries hp =>
    constructor
    · intro b hb
      obtain ⟨hcom, hpushed⟩ := h.failed b hb
      exact ⟨hcom, fun hmem ↦ absurd (hp.symm.trans (hpushed hmem)) (by simp)⟩
    · intro i tx htx hstatus
      rcases getElem?_concat_eq_some htx with htx | ⟨-, rfl⟩
      · obtain ⟨hcom, hnot, hawaits⟩ := h.accepted i tx htx hstatus
        refine ⟨hcom, hnot, fun hmem ↦ ?_⟩
        have hat := hawaits hmem
        rw [hp] at hat
        exact hat.elim
      · exact absurd hstatus (by simp)
  | @receiptAccepted block retries i hp hstatus =>
    refine h.of_same rfl ⟨rfl, rfl⟩ rfl (fun b hb ↦ absurd (hp.symm.trans hb) (by simp)) ?_
    intro j tx htx _ hawaits
    rw [hp] at hawaits
    exact hawaits.1
  | receiptReverted hp hstatus =>
    refine hretry n.poisoned _ _ ?_
    rw [Quiet, hp]
    show n.statusOf _ ≠ some .accepted
    rw [statusOf, hstatus]
    simp
  | attemptFails hp => exact hretry n.poisoned _ _ (hok.quiet (Or.inr (Or.inl rfl)))
  | @moveProven block hp =>
    refine h.of_same rfl ⟨rfl, rfl⟩ rfl (fun b hb ↦ absurd (hp.symm.trans hb) (by simp)) ?_
    intro j tx _ _ hawaits
    rw [hp] at hawaits
    exact hawaits
  | pushFailed hp => exact h.pushFailed hqueued hp
  | removePending hp => exact h.removePending hp
  | dies => exact h.of_quiet (hok.quiet (Or.inr (Or.inr rfl))) rfl ⟨rfl, rfl⟩ rfl

theorem Filed.setStatus (h : n.Filed) (i : ℕ) {status : TxStatus}
    (hblock : ∀ tx, n.submissions[i]? = some tx → status = .accepted →
      tx.block ∈ n.committed ∧ tx.block ∉ n.disk.failed ∧ n.prover.Awaits tx.block i) :
    (n.setStatus i status).Filed := by
  refine ⟨h.failed, fun j tx htx hstatus ↦ ?_⟩
  obtain ⟨tx', htx', hsame, -, ⟨rfl, hset⟩ | ⟨-, hset⟩⟩ := exists_of_setStatus htx
  · obtain ⟨hcom, hnot, hawaits⟩ := hblock tx' htx' (hset.symm.trans hstatus)
    rw [hsame]
    exact ⟨hcom, hnot, fun _ ↦ hawaits⟩
  · rw [hsame]
    exact h.accepted j tx' htx' (hset.symm.trans hstatus)

theorem Filed.l1Step (h : n.Filed) (hqueued : n.Queued) (htracked : n.Tracked)
    (hok : n.Attentive env e) (hstep : n.L1Step env e n') : n'.Filed := by
  cases hstep with
  | callL1 call => exact ⟨h.failed, h.accepted⟩
  | @accepted i tx l1 htx hpending hexec =>
    have hset : (n.setStatus i .accepted).Filed := by
      refine h.setStatus i fun tx' htx' _ ↦ ?_
      obtain rfl := Option.some_inj.mp (htx.symm.trans htx')
      have hawaits := hok.awaits htracked rfl htx hexec
      obtain ⟨hmem, hcom⟩ := hqueued.mem_of_block? hawaits.block?
      refine ⟨hcom, fun hfailed ↦ ?_, hawaits⟩
      rw [(h.failed _ hfailed).2 hmem] at hawaits
      exact hawaits
    exact ⟨hset.failed, hset.accepted⟩
  | reverted | dropped => exact h.setStatus _ fun _ _ hne ↦ absurd hne (by simp)

/-- **One step** keeps the queues apart, if no accepted transaction is forgotten in it. -/
theorem Filed.step (h : n.Filed) (hqueued : n.Queued) (hbound : n.Bounded) (htracked : n.Tracked)
    (hok : n.Attentive env e) (hstep : n.Taken env m bincode l1Enabled e n') : n'.Filed := by
  cases hstep with
  | submitTx tx => exact ⟨h.failed, h.accepted⟩
  | worker hstep => exact h.workerStep hqueued hbound hstep
  | prover hstep => exact h.proverStep hqueued hok hstep
  | l1 hstep => exact h.l1Step hqueued htracked hok hstep
  | restart => exact h.of_quiet (hok.quiet (Or.inl rfl)) rfl ⟨rfl, rfl⟩ rfl

theorem Reaches.filed {tree : T} {root : Hash} {l1 : Bridge}
    (hrun : Reaches env m bincode l1Enabled (Attentive env) (init tree root l1) n)
    (hbound : n.Bounded) : n.Filed := by
  refine (hrun.invariant (I := fun k ↦ k.Tracked ∧ (k.Bounded → k.Queued ∧ k.Filed))
    ⟨tracked_init tree root l1, fun _ ↦ ⟨queued_init tree root l1, filed_init tree root l1⟩⟩
    fun hk hok hstep ↦ ⟨hk.1.step hstep, fun hb ↦ ?_⟩).2 hbound |>.2
  have hbefore := hb.of_taken hstep
  obtain ⟨hqueued, hfiled⟩ := hk.2 hbefore
  exact ⟨hqueued.step hb hstep, hfiled.step hqueued hbefore hk.1 hok hstep⟩

/-- **When only blocks that were not settled fail.**  In every run in which the prover worker
forgets no transaction that L1 accepts and L1 accepts nobody else's, and that makes fewer blocks
than there are numbers: what L1 has accepted since the start are the accepted transactions of the
worker, the block of none of them has failed, and when the worker takes its next block, none is both
pending and failed. -/
theorem failed_unsettled {tree : T} {root : Hash} {l1 : Bridge}
    (hrun : Reaches env m bincode l1Enabled (Unrivalled env) (init tree root l1) n)
    (hbound : n.Bounded) :
    n.l1.accepted.Perm (l1.accepted ++ n.acceptedTxs.map Submission.publicValues) ∧
      (∀ tx ∈ n.acceptedTxs, ∀ b ∈ n.disk.failed, b.blockNumber ≠ tx.block.blockNumber) ∧
      (n.prover = .sleeping → ∀ b ∈ n.disk.failed, ∀ b' ∈ n.disk.pending,
        b.blockNumber ≠ b'.blockNumber) := by
  have hqueued := hrun.queued hbound
  have hfiled := (Reaches.mono hrun fun _ _ hok ↦ hok.toAttentive).filed hbound
  refine ⟨?_, ?_, ?_⟩
  · exact hrun.invariant (I := fun k ↦ k.Sole l1.accepted) (sole_init tree root l1)
      fun hk hok hstep ↦ hk.step hok hstep
  · intro tx htx b hb heq
    obtain ⟨htx, hstatus⟩ := List.mem_filter.mp htx
    obtain ⟨i, hi⟩ := List.mem_iff_getElem?.mp htx
    obtain ⟨hcom, hnot, -⟩ := hfiled.accepted i tx hi (of_decide_eq_true hstatus)
    exact hnot (hqueued.eq_of_number hbound (hfiled.failed b hb).1 hcom heq ▸ hb)
  · intro hp b hb b' hb' heq
    obtain ⟨hcom, hpushed⟩ := hfiled.failed b hb
    obtain rfl := hqueued.eq_of_number hbound hcom (hqueued.mem_committed hb') heq
    exact absurd (hp.symm.trans (hpushed hb')) (by simp)

end Node

/-! ## A transaction that is forgotten

The block of an undecodable forced transaction is proven and sent.  L1 accepts the transaction, but
the request for its receipt fails, and so do two more attempts. -/

namespace Forgotten

open Requests (env m start)
open ThreeBlocks

/-- The attempt under way fails, and the block is given up. -/
def giveUp : List NodeEvent := [.attemptFails, .attemptFails, .attemptFails, .pushFailed]

/-- The transactions that were sent, with the numbers of their blocks. -/
def sent (n : Node MemTree) : List (TxStatus × UInt64) :=
  n.submissions.map fun tx ↦ (tx.status, tx.block.blockNumber)

def rests (n : Node MemTree) : Bool :=
  match n.prover with
  | .sleeping => true
  | _ => false

/-- The events that an attentive worker takes part in. -/
def attends (n : Node MemTree) : NodeEvent → Bool
  | .restart | .attemptFails | .proverFails =>
    match n.prover with
    | .sent _ _ i => n.statusOf i ≠ some .accepted
    | .settled _ | .provenMoved _ | .failedPushed _ => false
    | _ => true
  | .mine i =>
    match n.prover with
    | .sent _ _ j => i = j
    | _ => false
  | _ => true

theorem attentive_of_attends (e : NodeEvent) (n : Node MemTree) (h : attends n e = true) :
    n.Attentive env e := by
  have hquiet : e = .restart ∨ e = .attemptFails ∨ e = .proverFails → n.Quiet := by
    rintro (rfl | rfl | rfl)
    all_goals
      rw [Node.Quiet]
      cases hp : n.prover <;> simp_all [attends]
  refine ⟨hquiet, ?_⟩
  rintro i tx rfl - -
  cases hp : n.prover with
  | sent block retries j =>
    simp only [attends, hp, decide_eq_true_eq] at h
    exact ⟨block, retries, by rw [h]⟩
  | _ => simp [attends, hp] at h

/-- A forced transaction settles nothing. -/
theorem callL1_force (n : Node MemTree) (msg : Msg) (calldata : Bytes) :
    (n.callL1 env (.forceTransaction msg calldata)).l1.accepted = n.l1.accepted ∧
      (n.callL1 env (.forceTransaction msg calldata)).l1.stateRoot = n.l1.stateRoot := by
  show ((n.l1.forceTransaction msg calldata).getD n.l1).accepted = n.l1.accepted ∧
    ((n.l1.forceTransaction msg calldata).getD n.l1).stateRoot = n.l1.stateRoot
  cases hforce : n.l1.forceTransaction msg calldata with
  | none => exact ⟨rfl, rfl⟩
  | some l1 =>
    obtain ⟨-, rfl⟩ := Bridge.forceTransaction_eq_some.mp hforce
    exact ⟨rfl, rfl⟩

theorem unrivalled_of_attends (e : NodeEvent) (n : Node MemTree)
    (he : ∀ call, e = .callL1 call → e = force) (h : attends n e = true) :
    n.Unrivalled env e where
  toAttentive := attentive_of_attends e n h
  callL1 call hcall := by
    have hforce := hcall.symm.trans (he call hcall)
    rw [force, NodeEvent.callL1.injEq] at hforce
    rw [hforce]
    exact (callL1_force n _ _).1

theorem run_prove : ∃ n,
    start.runIf env m .v1 true attends (force :: makeBlock ++ prove) = some n ∧
      (n.run env m .v1 true giveUp).map (fun n ↦ (sent n, numbers n.disk.failed))
        = some ([(.accepted, 0)], [0]) ∧
      ∃ n', n.runIf env m .v1 true attends settle = some n' ∧ sent n' = [(.accepted, 0)] ∧
        rests n' = true ∧ numbers n'.disk.pending = [1, 2] ∧ n'.committed.length = 3 ∧
        (n'.runIf env m .v1 true attends (.peekPending :: giveUp ++ [.removePending])).map
          (fun n ↦ (sent n, numbers n.disk.failed, n.committed.length))
            = some ([(.accepted, 0)], [1], 3) := by
  -- One evaluation of the hashes serves all continuations.
  have hany : (start.runIf env m .v1 true attends (force :: makeBlock ++ prove)).any (fun n ↦
      decide ((n.run env m .v1 true giveUp).map (fun n ↦ (sent n, numbers n.disk.failed))
        = some ([(.accepted, 0)], [0])) &&
      (n.runIf env m .v1 true attends settle).any fun n' ↦
        decide (sent n' = [(.accepted, 0)] ∧ rests n' = true ∧
          numbers n'.disk.pending = [1, 2] ∧ n'.committed.length = 3 ∧
          (n'.runIf env m .v1 true attends (.peekPending :: giveUp ++ [.removePending])).map
            (fun n ↦ (sent n, numbers n.disk.failed, n.committed.length))
              = some ([(.accepted, 0)], [1], 3))) = true := by
    decide +kernel
  obtain ⟨n, hn, hviews⟩ := (Option.any_eq_true _ _).mp hany
  rw [Bool.and_eq_true, decide_eq_true_eq] at hviews
  obtain ⟨n', hn', hview⟩ := (Option.any_eq_true _ _).mp hviews.2
  exact ⟨n, hn, hviews.1, n', hn', of_decide_eq_true hview⟩

end Forgotten

open Forgotten ThreeBlocks Requests in
/-- The block that L1 accepted is in the queue of failed blocks. -/
theorem accepted_fails : ∃ n,
    start.run env m .v1 true (force :: makeBlock ++ prove ++ giveUp) = some n ∧
      ¬ ∀ tx ∈ n.submissions, tx.status = .accepted →
        ∀ b ∈ n.disk.failed, b.blockNumber ≠ tx.block.blockNumber := by
  obtain ⟨k, hprove, hview, -⟩ := run_prove
  obtain ⟨n, hrun, hview⟩ := Option.map_eq_some_iff.mp hview
  obtain ⟨hsent, hfailed⟩ := Prod.mk.inj hview
  obtain ⟨tx, htx, hstatus⟩ :=
    List.mem_map.mp (hsent ▸ List.mem_singleton_self (TxStatus.accepted, (0 : UInt64)))
  obtain ⟨b, hb, hnumber⟩ := List.mem_map.mp (hfailed ▸ List.mem_singleton_self (0 : UInt64))
  obtain ⟨haccepted, hblock⟩ := Prod.mk.inj hstatus
  refine ⟨n, ?_, fun h ↦ h tx htx haccepted b hb (hnumber.trans hblock.symm)⟩
  rw [Node.run_append, Node.run_of_runIf hprove]
  exact hrun

open Forgotten ThreeBlocks Requests in
/-- The first block is settled, and the second one fails.  Blocks that the guest proves leave the
root where it is. -/
theorem failed_unsettled_settled : ∃ n : Node MemTree, sent n = [(.accepted, 0)] ∧
    numbers n.disk.failed = [1] ∧
    n.l1.accepted.Perm (n.acceptedTxs.map Submission.publicValues) ∧
      ∀ tx ∈ n.acceptedTxs, ∀ b ∈ n.disk.failed, b.blockNumber ≠ tx.block.blockNumber := by
  obtain ⟨k, hprove, -, k', hsettle, -, -, -, -, hview⟩ := run_prove
  obtain ⟨n, hrun, hview⟩ := Option.map_eq_some_iff.mp hview
  obtain ⟨hsent, hrest⟩ := Prod.mk.inj hview
  obtain ⟨hfailed, hlength⟩ := Prod.mk.inj hrest
  have hreaches : Node.Reaches env m .v1 true (Node.Unrivalled env) start n := by
    refine ((Node.reaches_of_runIf (fun e he k ↦ unrivalled_of_attends e k ?_) hprove).trans
      (Node.reaches_of_runIf (fun e he k ↦ unrivalled_of_attends e k ?_) hsettle)).trans
      (Node.reaches_of_runIf (fun e he k ↦ unrivalled_of_attends e k ?_) hrun)
    · revert e
      simp [makeBlock, LostBlock.fetch, prove, force]
    · revert e
      simp [settle, makeBlock, LostBlock.fetch, force]
    · revert e
      simp [giveUp]
  have hbound : n.Bounded := by
    rw [Node.Bounded, hlength]
    omega
  obtain ⟨haccepted, hunfailed, -⟩ := Node.failed_unsettled hreaches hbound
  exact ⟨n, hsent, hfailed, haccepted, hunfailed⟩

end TinyRollup
