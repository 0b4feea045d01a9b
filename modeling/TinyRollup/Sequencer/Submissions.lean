import TinyRollup.Bridge.Queues
import TinyRollup.Sequencer.Pending

/-!
# The transactions to L1

The prover worker hears of the transaction it has sent through messages that may fail, and forgets
it when the process stops, while L1 may accept it at any time.  If it never forgets one that L1
accepts (`Attentive`), then it is still at the block of every transaction that becomes accepted.
-/

set_option autoImplicit false

namespace TinyRollup

open ByteString Stf

namespace ProverWorker

/-- The worker waits for the `i`-th transaction, which is this block's, or knows that the block is
settled and has not removed it. -/
def Awaits (p : ProverWorker) (block : PendingBlock) (i : ℕ) : Prop :=
  match p with
  | .sent b _ j => b = block ∧ j = i
  | .settled b | .provenMoved b => b = block
  | _ => False

theorem Awaits.block? {p : ProverWorker} {block : PendingBlock} {i : ℕ} (h : p.Awaits block i) :
    p.block? = some block := by
  cases p with
  | sent b retries j =>
    obtain ⟨rfl, -⟩ := h
    rfl
  | settled b | provenMoved b =>
    obtain rfl := h
    rfl
  | _ => exact h.elim

end ProverWorker

namespace Node

variable {T : Type} {env : Deployment} {m : Monotree T} {bincode : Bincode} {l1Enabled : Bool}
  {e : NodeEvent} {n n' : Node T}

def statusOf (n : Node T) (i : ℕ) : Option TxStatus := n.submissions[i]?.map Submission.status

/-- There is nothing for the prover worker to forget: no accepted transaction, and no half of a move
between two queues. -/
def Quiet (n : Node T) : Prop :=
  match n.prover with
  | .sent _ _ i => n.statusOf i ≠ some .accepted
  | .settled _ | .provenMoved _ | .failedPushed _ => False
  | _ => True

/-- The prover worker never forgets a transaction that L1 accepts: neither does an attempt end in an
error, or the worker or the process stop, after it was accepted, nor does L1 accept one that the
worker no longer waits for. -/
structure Attentive (env : Deployment) (n : Node T) (e : NodeEvent) : Prop where
  quiet : e = .restart ∨ e = .attemptFails ∨ e = .proverFails → n.Quiet
  mine : ∀ i tx, e = .mine i → n.submissions[i]? = some tx →
    (n.l1.exec env (.updateState tx.publicValues tx.proofBytes)).isSome →
      ∃ block retries, n.prover = .sent block retries i

/-- Where the worker is quiet it waits for no transaction that was accepted. -/
theorem Quiet.not_awaits (h : n.Quiet) {i : ℕ} {tx : Submission} (htx : n.submissions[i]? = some tx)
    (haccepted : tx.status = .accepted) (block : PendingBlock) : ¬ n.prover.Awaits block i := by
  intro hawaits
  rw [Quiet] at h
  cases hp : n.prover with
  | sent b retries j =>
    rw [hp] at h hawaits
    obtain ⟨-, rfl⟩ := hawaits
    refine h ?_
    rw [statusOf, htx, Option.map_some, haccepted]
  | settled b | provenMoved b =>
    rw [hp] at h
    exact h
  | _ =>
    rw [hp] at hawaits
    exact hawaits

/-! ## The status of a transaction -/

theorem getElem?_setStatus (i j : ℕ) (status : TxStatus) :
    (n.setStatus i status).submissions[j]?
      = if i = j then n.submissions[j]?.map fun tx ↦ { tx with status } else n.submissions[j]? := by
  rw [setStatus, List.getElem?_modify]
  split
  · rfl
  · exact Option.map_id'

/-- A transaction after a change of status is an old one, but for its status. -/
theorem exists_of_setStatus {i j : ℕ} {status : TxStatus} {tx : Submission}
    (h : (n.setStatus i status).submissions[j]? = some tx) :
    ∃ tx', n.submissions[j]? = some tx' ∧ tx.block = tx'.block ∧
      tx.publicValues = tx'.publicValues ∧
      ((i = j ∧ tx.status = status) ∨ (i ≠ j ∧ tx.status = tx'.status)) := by
  rw [getElem?_setStatus] at h
  split at h
  · rename_i hij
    obtain ⟨tx', htx', rfl⟩ := Option.map_eq_some_iff.mp h
    exact ⟨tx', htx', rfl, rfl, Or.inl ⟨hij, rfl⟩⟩
  · rename_i hij
    exact ⟨tx, h, rfl, rfl, Or.inr ⟨hij, rfl⟩⟩

theorem exists_setStatus {i j : ℕ} {status : TxStatus} {tx : Submission}
    (h : n.submissions[j]? = some tx) :
    ∃ tx', (n.setStatus i status).submissions[j]? = some tx' ∧ tx'.block = tx.block := by
  rw [getElem?_setStatus, h]
  split
  · exact ⟨_, rfl, rfl⟩
  · exact ⟨_, rfl, rfl⟩

theorem countRetry_submissions (block : PendingBlock) (retries : ℕ) :
    (n.countRetry block retries).submissions = n.submissions := by
  rcases n.countRetry_eq block retries with heq | heq <;> rw [heq]

theorem countRetry_l1 (block : PendingBlock) (retries : ℕ) :
    (n.countRetry block retries).l1 = n.l1 := by
  rcases n.countRetry_eq block retries with heq | heq <;> rw [heq]

/-- An attempt that has failed has sent nothing. -/
theorem countRetry_attempt (block : PendingBlock) (retries : ℕ) :
    (n.countRetry block retries).prover = .givenUp block ∨
      (n.countRetry block retries).prover = .proving block (retries + 1) := by
  rcases n.countRetry_eq block retries with heq | heq
  · exact Or.inl (by rw [heq])
  · exact Or.inr (by rw [heq])

/-! ## The transaction that the worker waits for -/

/-- The transaction that the prover worker waits for is its block's. -/
def Tracked (n : Node T) : Prop :=
  ∀ block retries i, n.prover = .sent block retries i →
    ∃ tx, n.submissions[i]? = some tx ∧ tx.block = block

theorem tracked_init (tree : T) (root : Hash) (l1 : Bridge) : (init tree root l1).Tracked :=
  fun _ _ _ h ↦ absurd h (by simp [init])

theorem ProverStep.tracked (hstep : n.ProverStep env l1Enabled e n') : n'.Tracked := by
  have hretry : ∀ (k : Node T) (block : PendingBlock) (retries : ℕ),
      (k.countRetry block retries).Tracked := by
    intro k block retries b r i hsent
    rcases k.countRetry_attempt block retries with hp | hp <;>
      exact absurd (hp.symm.trans hsent) (by simp)
  cases hstep with
  | send hp =>
    intro b r i hsent
    obtain ⟨rfl, -, rfl⟩ := ProverWorker.sent.inj hsent
    exact ⟨_, List.getElem?_concat_length, rfl⟩
  | proveFails | receiptReverted | attemptFails => exact hretry _ _ _
  | _ => exact fun _ _ _ hsent ↦ absurd hsent (by simp)

/-- **One step** keeps track of the transaction. -/
theorem Tracked.step (h : n.Tracked) (hstep : n.Taken env m bincode l1Enabled e n') :
    n'.Tracked := by
  have hset : ∀ (i : ℕ) (status : TxStatus), (n.setStatus i status).Tracked := by
    intro i status block retries j hsent
    obtain ⟨tx, htx, rfl⟩ := h block retries j hsent
    exact exists_setStatus htx
  cases hstep with
  | submitTx tx => exact h
  | worker hstep =>
    have hsame := hstep.sameProver
    rw [Tracked, hsame.submissions, hsame.prover]
    exact h
  | prover hstep => exact hstep.tracked
  | l1 hstep =>
    cases hstep with
    | callL1 call => exact h
    | accepted => exact hset _ _
    | reverted | dropped => exact hset _ _
  | restart => exact fun _ _ _ hsent ↦ absurd hsent (by simp [restart])

/-- L1 accepts the transaction of the block that the worker is at. -/
theorem Attentive.awaits (hok : n.Attentive env e) (htracked : n.Tracked) {i : ℕ} {tx : Submission}
    {l1 : Bridge} (he : e = .mine i) (htx : n.submissions[i]? = some tx)
    (hexec : n.l1.exec env (.updateState tx.publicValues tx.proofBytes) = some l1) :
    n.prover.Awaits tx.block i := by
  obtain ⟨block, retries, hsent⟩ := hok.mine i tx he htx (by rw [hexec]; rfl)
  obtain ⟨tx', htx', rfl⟩ := htracked block retries i hsent
  obtain rfl := Option.some_inj.mp (htx.symm.trans htx')
  rw [hsent]
  exact ⟨rfl, rfl⟩

/-! ## What L1 has accepted -/

/-- The prover worker is attentive, and L1 accepts no `updateState` of anybody else. -/
structure Unrivalled (env : Deployment) (n : Node T) (e : NodeEvent) : Prop
    extends Attentive env n e where
  callL1 : ∀ call, e = .callL1 call → (n.callL1 env call).l1.accepted = n.l1.accepted

/-- The transactions that L1 has accepted. -/
def acceptedTxs (n : Node T) : List Submission :=
  n.submissions.filter fun tx ↦ tx.status = .accepted

theorem acceptedTxs_setStatus {i : ℕ} {tx : Submission} (htx : n.submissions[i]? = some tx)
    (hpending : tx.status = .pending) {status : TxStatus} (hstatus : status ≠ .accepted) :
    (n.setStatus i status).acceptedTxs = n.acceptedTxs := by
  obtain ⟨hi, rfl⟩ := List.getElem?_eq_some_iff.mp htx
  have hsplit := List.take_append_drop i n.submissions
  rw [List.drop_eq_getElem_cons hi] at hsplit
  rw [acceptedTxs, acceptedTxs, setStatus, List.modify_eq_take_cons_drop hi, List.filter_append,
    List.filter_cons_of_neg (by simpa using hstatus)]
  conv_rhs => rw [← hsplit, List.filter_append, List.filter_cons_of_neg (by simp [hpending])]

theorem acceptedTxs_accept {i : ℕ} {tx : Submission} (htx : n.submissions[i]? = some tx)
    (hpending : tx.status = .pending) :
    (n.setStatus i .accepted).acceptedTxs.Perm
      (n.acceptedTxs ++ [{ tx with status := .accepted }]) := by
  obtain ⟨hi, rfl⟩ := List.getElem?_eq_some_iff.mp htx
  have hsplit := List.take_append_drop i n.submissions
  rw [List.drop_eq_getElem_cons hi] at hsplit
  have hold : n.acceptedTxs
      = (n.submissions.take i).filter (fun tx ↦ tx.status = .accepted)
        ++ (n.submissions.drop (i + 1)).filter (fun tx ↦ tx.status = .accepted) := by
    conv_lhs => rw [acceptedTxs, ← hsplit, List.filter_append,
      List.filter_cons_of_neg (by simp [hpending])]
  rw [hold, acceptedTxs, setStatus, List.modify_eq_take_cons_drop hi, List.filter_append,
    List.filter_cons_of_pos (by simp), List.append_assoc]
  exact (List.perm_append_singleton _ _).symm.append_left _

/-- Since `before`, L1 has accepted what the worker has sent, and nothing else. -/
def Sole (n : Node T) (before : List Bytes) : Prop :=
  n.l1.accepted.Perm (before ++ n.acceptedTxs.map Submission.publicValues)

theorem sole_init (tree : T) (root : Hash) (l1 : Bridge) :
    (init tree root l1).Sole l1.accepted := by
  rw [Sole, acceptedTxs]
  exact (List.append_nil _).symm ▸ .refl _

theorem Sole.step {before : List Bytes} (h : n.Sole before) (hok : n.Unrivalled env e)
    (hstep : n.Taken env m bincode l1Enabled e n') : n'.Sole before := by
  have hsame : ∀ k : Node T, k.l1 = n.l1 → k.submissions = n.submissions → k.Sole before := by
    intro k hl1 hsub
    rw [Sole, acceptedTxs, hl1, hsub]
    exact h
  cases hstep with
  | submitTx tx => exact h
  | worker hstep => exact hsame n' hstep.sameProver.l1 hstep.sameProver.submissions
  | prover hstep =>
    cases hstep with
    | send hp =>
      rw [Sole, acceptedTxs, List.filter_append, List.filter_singleton]
      exact (List.append_nil _).symm ▸ h
    | proveFails | receiptReverted | attemptFails =>
      exact hsame _ (countRetry_l1 _ _) (countRetry_submissions _ _)
    | _ => exact h
  | l1 hstep =>
    cases hstep with
    | callL1 call =>
      rw [Sole, hok.callL1 call rfl]
      exact h
    | @accepted i tx l1 htx hpending hexec =>
      obtain ⟨-, -, -, -, -, -, -, -, -, -, p, q, -, -, rfl⟩ :=
        Bridge.updateState_eq_some (show n.l1.updateState env _ _ = some l1 from hexec)
      have hvalues := (acceptedTxs_accept htx hpending).map Submission.publicValues
      rw [List.map_append] at hvalues
      refine .trans ?_ (hvalues.symm.append_left before)
      rw [← List.append_assoc]
      exact h.append_right _
    | reverted htx hpending | dropped htx hpending =>
      rw [Sole, acceptedTxs_setStatus htx hpending (by simp)]
      exact h
  | restart => exact h

end Node

end TinyRollup
