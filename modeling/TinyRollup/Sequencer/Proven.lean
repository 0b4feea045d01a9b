import TinyRollup.Sequencer.Failed

/-!
# The proven head

The prover worker takes the blocks from the front of the queue, so the proven head should be the
root after the blocks that have left it, all of them proven, and the next block starts there
(`Settled`).  Two things break this: a start takes the optimistic head for the proven one, and a
block that is given up leaves the queue unproven.
-/

set_option autoImplicit false

namespace TinyRollup

open ByteString Stf

namespace ProverWorker

/-- The block that is proven and still in the queue. -/
def moved? : ProverWorker → Option PendingBlock
  | .provenMoved block => some block
  | _ => none

theorem block?_of_moved? {p : ProverWorker} {block : PendingBlock} (h : p.moved? = some block) :
    p.block? = some block := by
  cases p <;> simp_all [moved?, block?]

end ProverWorker

namespace Node

variable {T : Type} {env : Deployment} {m : Monotree T} {bincode : Bincode} {l1Enabled : Bool}
  {e : NodeEvent} {n n' : Node T} {root : Hash}

/-- The blocks that have left the queue. -/
def done (n : Node T) : List PendingBlock :=
  n.committed.take (n.committed.length - n.disk.pending.items.length)

/-- The block that L1 has accepted and that is still in the queue. -/
def accepted? (n : Node T) : Option PendingBlock :=
  match n.prover with
  | .sent block _ i => if n.statusOf i = some .accepted then some block else none
  | .settled block | .provenMoved block => some block
  | _ => none

/-- The root after the blocks that have left the queue, the first of which starts from `root`, and
possibly one more. -/
def rootAfter (n : Node T) (root : Hash) (block? : Option PendingBlock) : Hash :=
  (block?.map PendingBlock.postStateRoot).getD (tip root n.done)

theorem Quiet.eq_none (h : n.Quiet) : n.prover.moved? = none ∧ n.accepted? = none := by
  rw [accepted?]
  rw [Quiet] at h
  cases hp : n.prover with
  | sent block retries i =>
    rw [hp] at h
    exact ⟨rfl, if_neg h⟩
  | settled | provenMoved | failedPushed =>
    rw [hp] at h
    exact h.elim
  | _ => exact ⟨rfl, rfl⟩

/-! ## The blocks that have left the queue -/

/-- They are the ones before the first block of the queue. -/
theorem Queued.done_append (h : n.Queued) : n.done ++ n.disk.pending.items = n.committed := by
  obtain ⟨k, hk, hitems⟩ := h.range
  have hlen : n.committed.length - n.disk.pending.items.length = k := by
    rw [hitems, List.length_drop]
    omega
  rw [done, hlen, hitems, List.take_append_drop]

/-- The queue with its end and the blocks that have left it. -/
theorem done_eq_of_append {l : List PendingBlock} (h : l ++ n.disk.pending.items = n.committed) :
    n.done = l := by
  rw [done, ← h, List.length_append, Nat.add_sub_cancel_right, List.take_left]

/-- The first block of the queue starts from the root after the ones that have left it. -/
theorem Chained.preStateRoot_of_peek (h : n.Chained root) (hqueued : n.Queued) {b : PendingBlock}
    (hpeek : n.disk.pending.peek = some b) : b.preStateRoot = tip root n.done := by
  obtain ⟨rest, hrest⟩ := List.head?_eq_some_iff.mp hpeek
  have happend := hqueued.done_append
  rw [hrest] at happend
  have hget : n.committed[n.done.length]? = some b := by
    rw [← happend, List.getElem?_append_right le_rfl, Nat.sub_self]
    rfl
  rw [h.linked _ b hget, ← happend, List.take_left]

/-- Committing a block adds to the end of the queue. -/
theorem Queued.done_commitBlock (h : n.Queued) (hbound : n.Bounded) {block : PendingBlock}
    (hw : n.worker = .drained block) :
    done { n with
      disk := n.disk.commitOptimisticBlock block (block.blockNumber + 1)
      committed := n.committed ++ [block]
      worker := .sleeping } = n.done := by
  refine done_eq_of_append ?_
  show n.done ++ (n.disk.pending.put block).items = n.committed ++ [block]
  rw [h.items_put hbound hw, ← List.append_assoc, h.done_append]

/-- Removing a block adds it to the ones that have left the queue. -/
theorem Queued.done_removePending (h : n.Queued) {block : PendingBlock}
    (hp : n.prover.block? = some block) :
    done { n with disk := n.disk.removePending block.blockNumber, prover := .sleeping }
      = n.done ++ [block] := by
  have hpeek := h.taken block hp
  obtain ⟨rest, hrest⟩ := List.head?_eq_some_iff.mp hpeek
  refine done_eq_of_append ?_
  show (n.done ++ [block]) ++ (n.disk.pending.erase block.blockNumber.toNat).items = n.committed
  have herase : (n.disk.pending.erase block.blockNumber.toNat).items = n.disk.pending.items.tail :=
    KeyedQueue.items_erase_peek hpeek
  rw [herase, hrest, List.tail_cons, List.append_assoc, List.singleton_append, ← hrest,
    h.done_append]

/-! ## What L1 is told -/

/-- Public values with the root after the block. -/
def Carries (publicValues : Bytes) (block : PendingBlock) : Prop :=
  ∃ pv, Bridge.abiDecode publicValues = some pv ∧ pv.postStateRoot = block.postStateRoot

theorem carries_of_publicValuesOf {block : PendingBlock} {bundle : ProofBundle}
    {publicValues : Bytes} (h : System.publicValuesOf env block bundle = some publicValues) :
    Carries publicValues block := by
  obtain ⟨values, -, h⟩ := Option.bind_eq_some_iff.mp h
  obtain ⟨pv, hdecode, h⟩ := Option.bind_eq_some_iff.mp h
  split at h
  · rename_i hroot
    obtain rfl := Option.some_inj.mp h
    exact ⟨pv, hdecode, hroot⟩
  · exact absurd h (by simp)

/-- What is proven and sent for a block has its root. -/
structure Carried (n : Node T) : Prop where
  proved : ∀ block retries publicValues, n.prover = .proved block retries publicValues →
    Carries publicValues block
  sent : ∀ (i : ℕ) (tx : Submission), n.submissions[i]? = some tx →
    Carries tx.publicValues tx.block

theorem carried_init (tree : T) (root : Hash) (l1 : Bridge) : (init tree root l1).Carried where
  proved _ _ _ h := absurd h (by simp [init])
  sent _ _ h := absurd h (by simp [init])

theorem Carried.proverStep (h : n.Carried) (hstep : n.ProverStep env l1Enabled e n') :
    n'.Carried := by
  have hretry : ∀ (k : Node T) (block : PendingBlock) (retries : ℕ),
      k.submissions = n.submissions → (k.countRetry block retries).Carried := by
    intro k block retries hsub
    refine ⟨fun b r pv hp ↦ ?_, ?_⟩
    · rcases k.countRetry_attempt block retries with hp' | hp' <;>
        exact absurd (hp'.symm.trans hp) (by simp)
    · rw [countRetry_submissions, hsub]
      exact h.sent
  cases hstep with
  | proves hp hl1 hpv =>
    refine ⟨fun b r pv hp ↦ ?_, h.sent⟩
    obtain ⟨rfl, -, rfl⟩ := ProverWorker.proved.inj hp
    exact carries_of_publicValuesOf hpv
  | send hp =>
    refine ⟨fun _ _ _ hsent ↦ absurd hsent (by simp), fun i tx htx ↦ ?_⟩
    rcases getElem?_concat_eq_some htx with htx | ⟨-, rfl⟩
    · exact h.sent i tx htx
    · exact h.proved _ _ _ hp
  | proveFails | receiptReverted | attemptFails => exact hretry _ _ _ rfl
  | _ => exact ⟨fun _ _ _ hp ↦ absurd hp (by simp), h.sent⟩

theorem Carried.step (h : n.Carried) (hstep : n.Taken env m bincode l1Enabled e n') :
    n'.Carried := by
  have hset : ∀ (i : ℕ) (status : TxStatus), (n.setStatus i status).Carried := by
    intro i status
    refine ⟨h.proved, fun j tx htx ↦ ?_⟩
    obtain ⟨tx', htx', hblock, hvalues, -⟩ := exists_of_setStatus htx
    rw [hblock, hvalues]
    exact h.sent j tx' htx'
  cases hstep with
  | submitTx tx => exact ⟨h.proved, h.sent⟩
  | worker hstep =>
    have hsame := hstep.sameProver
    refine ⟨?_, ?_⟩
    · rw [hsame.prover]
      exact h.proved
    · rw [hsame.submissions]
      exact h.sent
  | prover hstep => exact h.proverStep hstep
  | l1 hstep =>
    cases hstep with
    | callL1 call => exact ⟨h.proved, h.sent⟩
    | @accepted i =>
      have hset' := hset i .accepted
      exact ⟨hset'.proved, hset'.sent⟩
    | reverted | dropped => exact hset _ _
  | restart => exact ⟨fun _ _ _ hp ↦ absurd hp (by simp [restart]), h.sent⟩

/-- L1 takes over the root of the block. -/
theorem Carries.stateRoot_of_exec {publicValues proofBytes : Bytes} {block : PendingBlock}
    {l1 l1' : Bridge} (h : Carries publicValues block)
    (hexec : l1.exec env (.updateState publicValues proofBytes) = some l1') :
    l1'.stateRoot = block.postStateRoot := by
  obtain ⟨pv, hdecode, hroot⟩ := h
  have hupdate : l1.updateState env publicValues proofBytes = some l1' := hexec
  obtain ⟨pv', _, _, hdecode', -, -, -, -, -, -, p, q, -, -, rfl⟩ :=
    Bridge.updateState_eq_some hupdate
  obtain rfl := Option.some_inj.mp (hdecode.symm.trans hdecode')
  exact hroot

/-! ## The invariant -/

/-- The prover worker forgets no accepted transaction and gives no block up, the process starts with
the proven root only, and nobody else moves the root on L1. -/
structure Orderly (env : Deployment) (l1Enabled : Bool) (n : Node T) (e : NodeEvent) : Prop
    extends Attentive env n e where
  careful : n.Careful e
  restart : e = .restart → n.disk.initialRoot = n.heads.proven
  pushFailed : e ≠ .pushFailed
  callL1 : l1Enabled = true → ∀ call, e = .callL1 call →
    (n.callL1 env call).l1.stateRoot = n.l1.stateRoot

/-- The two proven heads, in memory and on L1, are the root after the blocks that have left the
queue, and these are proven. -/
structure Settled (l1Enabled : Bool) (root : Hash) (n : Node T) : Prop where
  proven : n.heads.proven = n.rootAfter root n.prover.moved?
  stateRoot : l1Enabled = true → n.l1.stateRoot = n.rootAfter root n.accepted?
  blocks : ∀ b ∈ n.done, b ∈ n.provenBlocks
  moved : ∀ b, n.prover.moved? = some b → b ∈ n.provenBlocks
  unfailed : ∀ b, n.prover ≠ .failedPushed b

theorem settled_init (tree : T) {l1 : Bridge} (hl1 : l1Enabled = true → l1.stateRoot = root) :
    (init tree root l1).Settled l1Enabled root where
  proven := rfl
  stateRoot := hl1
  blocks _ h := absurd h List.not_mem_nil
  moved _ h := absurd h (by simp [init, ProverWorker.moved?])
  unfailed _ h := absurd h (by simp [init])

/-- What the invariant is about. -/
structure SameSettled (l1Enabled : Bool) (n n' : Node T) : Prop where
  done : n'.done = n.done
  proven : n'.heads.proven = n.heads.proven
  provenBlocks : n'.provenBlocks = n.provenBlocks
  moved : n'.prover.moved? = n.prover.moved?
  unfailed : ∀ b, n'.prover ≠ .failedPushed b
  stateRoot : l1Enabled = true → n'.l1.stateRoot = n.l1.stateRoot
  accepted : l1Enabled = true → n'.accepted? = n.accepted?

theorem Settled.of_same (h : n.Settled l1Enabled root) (hsame : SameSettled l1Enabled n n') :
    n'.Settled l1Enabled root where
  proven := by
    rw [rootAfter, hsame.proven, hsame.moved, hsame.done]
    exact h.proven
  stateRoot hl1 := by
    rw [rootAfter, hsame.stateRoot hl1, hsame.accepted hl1, hsame.done]
    exact h.stateRoot hl1
  blocks := by
    rw [hsame.done, hsame.provenBlocks]
    exact h.blocks
  moved := by
    rw [hsame.moved, hsame.provenBlocks]
    exact h.moved
  unfailed := hsame.unfailed

theorem Settled.workerStep (h : n.Settled l1Enabled root) (hqueued : n.Queued) (hbound : n.Bounded)
    (hstep : n.WorkerStep env m bincode e n') : n'.Settled l1Enabled root := by
  have hsame := hstep.sameProver
  have hdone : n'.done = n.done := by
    rcases hstep.pending with ⟨hpending, -, hcommitted⟩ | ⟨block, hw, rfl⟩
    · rw [done, hpending, hcommitted, done]
    · exact hqueued.done_commitBlock hbound hw
  refine h.of_same ⟨hdone, hsame.proven, hsame.provenBlocks, ?_, ?_, fun _ ↦ ?_, fun _ ↦ ?_⟩
  · rw [hsame.prover]
  · rw [hsame.prover]
    exact h.unfailed
  · rw [hsame.l1]
  · have hstatus : n'.statusOf = n.statusOf := by
      funext i
      rw [statusOf, hsame.submissions, statusOf]
    rw [accepted?, hsame.prover, hstatus, accepted?]

/-- A step of the prover worker from a state in which nothing is settled to another one. -/
theorem Settled.of_none (h : n.Settled l1Enabled root)
    (hdisk : n'.committed = n.committed ∧ n'.disk.pending = n.disk.pending)
    (hheads : n'.heads.proven = n.heads.proven ∧ n'.provenBlocks = n.provenBlocks)
    (hl1 : n'.l1 = n.l1) (hmoved : n.prover.moved? = none ∧ n.accepted? = none)
    (hmoved' : n'.prover.moved? = none ∧ n'.accepted? = none)
    (hunfailed : ∀ b, n'.prover ≠ .failedPushed b) : n'.Settled l1Enabled root := by
  refine h.of_same ⟨?_, hheads.1, hheads.2, ?_, hunfailed, fun _ ↦ ?_, fun _ ↦ ?_⟩
  · rw [done, hdisk.1, hdisk.2, done]
  · rw [hmoved.1, hmoved'.1]
  · rw [hl1]
  · rw [hmoved.2, hmoved'.2]

theorem Settled.moveProven (h : n.Settled l1Enabled root) {block : PendingBlock}
    (hp : n.prover = .settled block) :
    Settled l1Enabled root { n with
      heads := { n.heads with proven := block.postStateRoot }
      provenBlocks := n.provenBlocks ++ [block]
      prover := .provenMoved block } where
  proven := rfl
  stateRoot hl1 := by
    have hroot := h.stateRoot hl1
    rw [accepted?, hp] at hroot
    exact hroot
  blocks b hb := List.mem_append_left _ (h.blocks b hb)
  moved b hb := by
    obtain rfl := Option.some_inj.mp hb
    exact List.mem_append_right _ (List.mem_singleton_self _)
  unfailed b := by simp

/-- The block that leaves the queue is the one that the heads have moved over. -/
theorem Settled.removePending (h : n.Settled l1Enabled root) (hqueued : n.Queued)
    {block : PendingBlock} (hp : n.prover = .provenMoved block) :
    Settled l1Enabled root
      { n with disk := n.disk.removePending block.blockNumber, prover := .sleeping } := by
  have hblock : n.prover.block? = some block := by
    rw [hp]
    rfl
  have hdone := hqueued.done_removePending hblock
  have hproven := h.proven
  have hroot := h.stateRoot
  rw [hp] at hproven
  rw [accepted?, hp] at hroot
  refine ⟨?_, fun hl1 ↦ ?_, fun b hb ↦ ?_, fun b hb ↦ absurd hb (by simp [ProverWorker.moved?]),
    by simp⟩
  · rw [rootAfter, hdone, tip_concat]
    exact hproven
  · rw [rootAfter, hdone, tip_concat]
    exact hroot hl1
  · rw [hdone] at hb
    rcases List.mem_append.mp hb with hb | hb
    · exact h.blocks b hb
    · obtain rfl := List.mem_singleton.mp hb
      exact h.moved b (by rw [hp]; rfl)

theorem Settled.proverStep (h : n.Settled l1Enabled root) (hqueued : n.Queued)
    (hok : n.Orderly env l1Enabled e) (hstep : n.ProverStep env l1Enabled e n') :
    n'.Settled l1Enabled root := by
  have hretry : ∀ (poisoned : Bool) (block : PendingBlock) (retries : ℕ), n.Quiet →
      ({ n with poisoned }.countRetry block retries).Settled l1Enabled root := by
    intro poisoned block retries hquiet
    rcases countRetry_eq (n := { n with poisoned }) block retries with heq | heq <;> rw [heq] <;>
      exact h.of_none ⟨rfl, rfl⟩ ⟨rfl, rfl⟩ rfl hquiet.eq_none ⟨rfl, rfl⟩ (by simp)
  cases hstep with
  | peekPending hp _ | proves hp _ _ =>
    refine h.of_none ⟨rfl, rfl⟩ ⟨rfl, rfl⟩ rfl (Quiet.eq_none ?_) ⟨rfl, rfl⟩ (by simp)
    rw [Quiet, hp]
    trivial
  | provesOffline hp hl1 =>
    refine h.of_same ⟨rfl, rfl, rfl, ?_, by simp, fun _ ↦ rfl, fun hl1' ↦ ?_⟩
    · rw [hp]
      rfl
    · exact absurd (hl1.symm.trans hl1') (by simp)
  | proveFails poisoned hp => exact hretry poisoned _ _ (by rw [Quiet, hp]; trivial)
  | send hp =>
    refine h.of_none ⟨rfl, rfl⟩ ⟨rfl, rfl⟩ rfl (Quiet.eq_none ?_) ⟨rfl, if_neg ?_⟩ (by simp)
    · rw [Quiet, hp]
      trivial
    · show (n.submissions ++ [_])[n.submissions.length]?.map Submission.status ≠ some .accepted
      rw [List.getElem?_concat_length]
      simp
  | receiptAccepted hp hstatus =>
    refine h.of_same ⟨rfl, rfl, rfl, ?_, by simp, fun _ ↦ rfl, fun _ ↦ ?_⟩
    · rw [hp]
      rfl
    · rw [accepted?, accepted?, hp]
      exact (if_pos hstatus).symm
  | receiptReverted hp hstatus =>
    refine hretry n.poisoned _ _ ?_
    rw [Quiet, hp]
    show n.submissions[_]?.map Submission.status ≠ some .accepted
    rw [hstatus]
    simp
  | attemptFails hp => exact hretry n.poisoned _ _ (hok.quiet (Or.inr (Or.inl rfl)))
  | moveProven hp => exact h.moveProven hp
  | pushFailed => exact absurd rfl hok.pushFailed
  | @removePending block hp => exact h.removePending hqueued (hp.resolve_right (h.unfailed block))
  | dies =>
    exact h.of_none ⟨rfl, rfl⟩ ⟨rfl, rfl⟩ rfl (hok.quiet (Or.inr (Or.inr rfl))).eq_none ⟨rfl, rfl⟩
      (by simp)

theorem accepted?_setStatus {i : ℕ} {tx : Submission} {status : TxStatus}
    (htx : n.submissions[i]? = some tx) (hpending : tx.status = .pending)
    (hstatus : status ≠ .accepted) : (n.setStatus i status).accepted? = n.accepted? := by
  have hold : n.statusOf i ≠ some .accepted := by
    rw [statusOf, htx, Option.map_some, hpending]
    simp
  rw [accepted?, accepted?, show (n.setStatus i status).prover = n.prover from rfl]
  cases n.prover with
  | sent block retries j =>
    show (if _ then _ else _) = if _ then _ else _
    rw [statusOf, getElem?_setStatus]
    split
    · rename_i hij
      subst hij
      rw [if_neg hold, htx, if_neg (by simpa using hstatus)]
    · rfl
  | _ => rfl

theorem Settled.l1Step (h : n.Settled l1Enabled root) (htracked : n.Tracked) (hcarried : n.Carried)
    (hok : n.Orderly env l1Enabled e) (hstep : n.L1Step env e n') : n'.Settled l1Enabled root := by
  cases hstep with
  | callL1 call =>
    exact h.of_same ⟨rfl, rfl, rfl, rfl, h.unfailed, fun hl1 ↦ hok.callL1 hl1 call rfl, fun _ ↦ rfl⟩
  | @accepted i tx l1 htx hpending hexec =>
    obtain ⟨block, retries, hsent⟩ := hok.mine i tx rfl htx (by rw [hexec]; rfl)
    obtain ⟨tx', htx', rfl⟩ := htracked block retries i hsent
    obtain rfl := Option.some_inj.mp (htx.symm.trans htx')
    refine ⟨h.proven, fun _ ↦ ?_, h.blocks, h.moved, h.unfailed⟩
    have haccepted : accepted? { n.setStatus i .accepted with l1 } = some tx.block := by
      rw [accepted?]
      show (match n.prover with
        | .sent block _ i =>
          if (n.setStatus _ .accepted).statusOf i = some .accepted then some block else none
        | .settled block | .provenMoved block => some block
        | _ => none) = some tx.block
      rw [hsent]
      refine if_pos ?_
      rw [statusOf, getElem?_setStatus, if_pos rfl, htx]
      rfl
    rw [haccepted]
    exact (hcarried.sent i tx htx).stateRoot_of_exec hexec
  | reverted htx hpending | dropped htx hpending =>
    exact h.of_same ⟨rfl, rfl, rfl, rfl, h.unfailed, fun _ ↦ rfl,
      fun _ ↦ accepted?_setStatus htx hpending (by simp)⟩

/-- **One step** keeps the proven heads where they belong, if it is one of an orderly run. -/
theorem Settled.step (h : n.Settled l1Enabled root) (hqueued : n.Queued) (hbound : n.Bounded)
    (htracked : n.Tracked) (hcarried : n.Carried) (hok : n.Orderly env l1Enabled e)
    (hstep : n.Taken env m bincode l1Enabled e n') : n'.Settled l1Enabled root := by
  cases hstep with
  | submitTx tx => exact h.of_same ⟨rfl, rfl, rfl, rfl, h.unfailed, fun _ ↦ rfl, fun _ ↦ rfl⟩
  | worker hstep => exact h.workerStep hqueued hbound hstep
  | prover hstep => exact h.proverStep hqueued hok hstep
  | l1 hstep => exact h.l1Step htracked hcarried hok hstep
  | restart =>
    exact h.of_none ⟨rfl, rfl⟩ ⟨hok.restart rfl, rfl⟩ rfl (hok.quiet (Or.inl rfl)).eq_none
      ⟨rfl, rfl⟩ (by simp [Node.restart])

theorem Reaches.settled {tree : T} {l1 : Bridge} (hl1 : l1Enabled = true → l1.stateRoot = root)
    (hrun : Reaches env m bincode l1Enabled (fun k e ↦ k.Orderly env l1Enabled e)
      (init tree root l1) n)
    (hbound : n.Bounded) : n.Settled l1Enabled root := by
  refine (hrun.invariant
    (I := fun k ↦ (k.Tracked ∧ k.Carried) ∧ (k.Bounded → k.Queued ∧ k.Settled l1Enabled root))
    ⟨⟨tracked_init tree root l1, carried_init tree root l1⟩,
      fun _ ↦ ⟨queued_init tree root l1, settled_init tree hl1⟩⟩
    fun hk hok hstep ↦ ⟨⟨hk.1.1.step hstep, hk.1.2.step hstep⟩, fun hb ↦ ?_⟩).2 hbound |>.2
  have hbefore := hb.of_taken hstep
  obtain ⟨hqueued, hsettled⟩ := hk.2 hbefore
  exact ⟨hqueued.step hb hstep, hsettled.step hqueued hbefore hk.1.1 hk.1.2 hok hstep⟩

/-! ## What follows from it -/

/-- The proven head is the initial root, or a block has it that is proven with all before it. -/
theorem Settled.exists_block (h : n.Settled l1Enabled root) (hqueued : n.Queued) :
    n.heads.proven = root ∨ ∃ (i : ℕ) (b : PendingBlock), n.committed[i]? = some b ∧
      n.heads.proven = b.postStateRoot ∧
        ∀ j ≤ i, ∀ b' : PendingBlock, n.committed[j]? = some b' → b' ∈ n.provenBlocks := by
  have happend := hqueued.done_append
  have hbefore : ∀ j < n.done.length, ∀ b' : PendingBlock, n.committed[j]? = some b' →
      b' ∈ n.provenBlocks := by
    intro j hj b' hb'
    rw [← happend, List.getElem?_append_left hj] at hb'
    exact h.blocks b' (List.mem_of_getElem? hb')
  have hproven := h.proven
  cases hmoved : n.prover.moved? with
  | some b =>
    obtain ⟨rest, hrest⟩ := List.head?_eq_some_iff.mp
      (hqueued.taken b (ProverWorker.block?_of_moved? hmoved))
    have hget : n.committed[n.done.length]? = some b := by
      rw [← happend, hrest, List.getElem?_append_right le_rfl, Nat.sub_self]
      rfl
    rw [hmoved] at hproven
    refine Or.inr ⟨n.done.length, b, hget, hproven, fun j hj b' hb' ↦ ?_⟩
    rcases Nat.eq_or_lt_of_le hj with rfl | hj
    · obtain rfl := Option.some_inj.mp (hget.symm.trans hb')
      exact h.moved b hmoved
    · exact hbefore j hj b' hb'
  | none =>
    rw [hmoved] at hproven
    cases hlast : n.done.getLast? with
    | none =>
      refine Or.inl (hproven.trans ?_)
      rw [rootAfter, tip, hlast]
      rfl
    | some b =>
      obtain ⟨front, hfront⟩ := List.getLast?_eq_some_iff.mp hlast
      have hlength : n.done.length = front.length + 1 := by rw [hfront]; simp
      have hget : n.committed[front.length]? = some b := by
        rw [← happend, hfront, List.append_assoc, List.getElem?_append_right le_rfl, Nat.sub_self]
        rfl
      refine Or.inr ⟨front.length, b, hget, ?_, fun j hj ↦ hbefore j (by omega)⟩
      rw [hproven, rootAfter, tip, hlast]
      rfl

/-- A restart keeps the proven head where it belongs only if the head on disk is the proven one. -/
theorem Settled.restart_iff (h : n.Settled l1Enabled root) (hqueued : n.Queued)
    (hchained : n.Chained root) (hquiet : n.Quiet) (hwindow : n.worker.window? = none) :
    (∀ b : PendingBlock, n.disk.pending.peek = some b → b.preStateRoot = n.restart.heads.proven) ↔
      n.disk.initialRoot = n.heads.proven := by
  have hproven := h.proven
  rw [hquiet.eq_none.1] at hproven
  have hroot : n.disk.initialRoot = tip root n.committed := by
    rw [hchained.initialRoot_eq, hwindow]
    rfl
  show (∀ b : PendingBlock, _ → b.preStateRoot = n.disk.initialRoot) ↔ _
  constructor
  · intro hpre
    cases hpeek : n.disk.pending.peek with
    | some b =>
      rw [← hpre b hpeek, hproven]
      exact hchained.preStateRoot_of_peek hqueued hpeek
    | none =>
      have happend := hqueued.done_append
      rw [List.head?_eq_none_iff.mp hpeek, List.append_nil] at happend
      rw [hroot, hproven, rootAfter, happend]
      rfl
  · intro hinitial b hpeek
    rw [hinitial, hproven]
    exact hchained.preStateRoot_of_peek hqueued hpeek

/-- **When the proven head advances along the chain.**  In every orderly run from an empty queue,
any state tree and head root, and a bridge with this root, with fewer blocks than there are numbers:
the first block of the queue starts from the proven head, but between the move of the head and
`remove_pending`, and from the root on L1, but between its acceptance there and `remove_pending`;
the proven head is the initial root, or the root of a block that is proven with all blocks before
it; and after a restart between ticks the next block starts from the proven head only if the head on
disk was the proven one. -/
theorem proven_advances {tree : T} {l1 : Bridge} (hl1 : l1Enabled = true → l1.stateRoot = root)
    (hrun : Reaches env m bincode l1Enabled (fun k e ↦ k.Orderly env l1Enabled e)
      (init tree root l1) n)
    (hbound : n.Bounded) :
    (∀ b : PendingBlock, n.disk.pending.peek = some b →
        (n.prover.moved? = none → b.preStateRoot = n.heads.proven) ∧
          (l1Enabled = true → n.accepted? = none → b.preStateRoot = n.l1.stateRoot)) ∧
      (n.heads.proven = root ∨ ∃ (i : ℕ) (b : PendingBlock), n.committed[i]? = some b ∧
        n.heads.proven = b.postStateRoot ∧
          ∀ j ≤ i, ∀ b' : PendingBlock, n.committed[j]? = some b' → b' ∈ n.provenBlocks) ∧
      (n.Quiet → n.worker.window? = none →
        ((∀ b : PendingBlock, n.disk.pending.peek = some b →
            b.preStateRoot = n.restart.heads.proven) ↔ n.disk.initialRoot = n.heads.proven)) := by
  have hqueued := hrun.queued hbound
  have hsettled := Reaches.settled hl1 hrun hbound
  have hchained := (Reaches.mono hrun fun _ _ hok ↦ hok.careful).chained.2
  refine ⟨fun b hpeek ↦ ?_, hsettled.exists_block hqueued, hsettled.restart_iff hqueued hchained⟩
  have hpre := hchained.preStateRoot_of_peek hqueued hpeek
  constructor
  · intro hmoved
    rw [hpre, hsettled.proven, hmoved]
    rfl
  · intro hl1 haccepted
    rw [hpre, hsettled.stateRoot hl1, haccepted]
    rfl

end Node

/-! ## A restart with a pending block

The block of a deposit is committed when the process starts again. -/

namespace Restarted

open Requests (env m root start)

def events : List NodeEvent := LostBlock.deposit :: ThreeBlocks.makeBlock ++ [.restart]

theorem run_events : (start.run env m .v1 true events).map
    (fun n ↦ (Forgotten.rests n, n.disk.pending.items.map PendingBlock.preStateRoot,
      decide (n.heads.proven = root))) = some (true, [root], false) := by
  decide +kernel

end Restarted

namespace Forgotten

open Requests (env m)
open ThreeBlocks (force)

theorem prover_of_rests {n : Node MemTree} (h : rests n = true) : n.prover = .sleeping := by
  rw [rests] at h
  split at h
  · assumption
  · exact absurd h (by simp)

/-- The other events in which an orderly run may go wrong do not occur. -/
theorem orderly_of_attends (e : NodeEvent) (n : Node MemTree)
    (he : e ≠ .restart ∧ e ≠ .workerFails ∧ e ≠ .pushFailed ∧ ∀ call, e = .callL1 call → e = force)
    (h : attends n e = true) : n.Orderly env true e where
  toAttentive := attentive_of_attends e n h
  careful _ := ⟨he.1, he.2.1⟩
  restart hrestart := absurd hrestart he.1
  pushFailed := he.2.2.1
  callL1 _ call hcall := by
    have hforce := hcall.symm.trans (he.2.2.2 call hcall)
    rw [force, NodeEvent.callL1.injEq] at hforce
    rw [hforce]
    exact (callL1_force n _ _).2

end Forgotten

open Requests (env m start) in
/-- The proven head is not the root that the pending block starts from. -/
theorem proven_ahead : ∃ (n : Node MemTree) (b : PendingBlock),
    start.run env m .v1 true Restarted.events = some n ∧ n.prover = .sleeping ∧
      n.disk.pending.peek = some b ∧ b.preStateRoot ≠ n.heads.proven := by
  obtain ⟨n, hrun, hview⟩ := Option.map_eq_some_iff.mp Restarted.run_events
  obtain ⟨hrests, hrest⟩ := Prod.mk.inj hview
  obtain ⟨hpre, hproven⟩ := Prod.mk.inj hrest
  obtain ⟨b, hitems, hb⟩ := List.map_eq_singleton_iff.mp hpre
  refine ⟨n, b, hrun, Forgotten.prover_of_rests hrests, ?_, ?_⟩
  · rw [KeyedQueue.peek, hitems]
    rfl
  · rw [hb]
    exact Ne.symm (of_decide_eq_false hproven)

open Forgotten ThreeBlocks Requests in
/-- After the first block is settled, the second one starts from its root.  Blocks that the guest
proves leave the root where it is. -/
theorem proven_advances_settled : ∃ (n : Node MemTree) (b : PendingBlock),
    sent n = [(.accepted, 0)] ∧ n.disk.pending.peek = some b ∧ b.blockNumber = 1 ∧
      b.preStateRoot = n.heads.proven ∧ b.preStateRoot = n.l1.stateRoot := by
  obtain ⟨k, hprove, -, n, hsettle, hsent, hrests, hpending, hlength, -⟩ := run_prove
  have hreaches : Node.Reaches env m .v1 true (fun k e ↦ k.Orderly env true e) start n := by
    refine (Node.reaches_of_runIf (fun e he k ↦ orderly_of_attends e k ?_) hprove).trans
      (Node.reaches_of_runIf (fun e he k ↦ orderly_of_attends e k ?_) hsettle)
    · revert e
      simp [makeBlock, LostBlock.fetch, prove, force]
    · revert e
      simp [settle, makeBlock, LostBlock.fetch, force]
  have hbound : n.Bounded := by
    rw [Node.Bounded, hlength]
    omega
  obtain ⟨b, rest, hitems, hnumber, -⟩ := List.map_eq_cons_iff.mp hpending
  have hpeek : n.disk.pending.peek = some b := by
    rw [KeyedQueue.peek, hitems]
    rfl
  have hl1 : true = true → (Bridge.init root).stateRoot = root := fun _ ↦ rfl
  obtain ⟨hpre, hroot⟩ := (Node.proven_advances hl1 hreaches hbound).1 b hpeek
  have hsleeps := prover_of_rests hrests
  refine ⟨n, b, hsent, hpeek, hnumber, hpre ?_, hroot rfl ?_⟩
  · rw [hsleeps]
    rfl
  · rw [Node.accepted?, hsleeps]

end TinyRollup
