import TinyRollup.Core.Serialize
import TinyRollup.Sequencer.Inclusion

/-!
# What becomes of posted bytes

Anyone may post any bytes as a forced transaction.  Whatever happens between the posting and the
block that has the entry, the block does what the bytes say: bytes that begin with a serialized
transaction are that transaction, and no others are one (`posted_bytes_execute`).
-/

set_option autoImplicit false

namespace TinyRollup

open ByteString Codec Stf

/-- What posted bytes mean: the transaction that they begin with, if there is one, at the time of
the posting. -/
structure Means (data : Bytes) (tx : ForcedTx) : Prop where
  calldata : tx.l2Calldata = data
  /-- The rest of the bytes is ignored. -/
  transaction : ∀ posted, ForcedTx.codec.Valid posted → ForcedTx.codec.encode posted <+: data →
    tx = { posted with timestamp := tx.timestamp, l2Calldata := data }
  dummy : (∀ posted, ForcedTx.codec.Valid posted → ¬ ForcedTx.codec.encode posted <+: data) →
    tx = { from_ := Hash.default, to_ := Hash.default, nonce := 0, fee := 0, amount := 0,
           timestamp := tx.timestamp, l2Calldata := data }

theorem means_decodePosted (data : Bytes) (timestamp : UInt64) :
    Means data (decodePosted .v1 data timestamp) := by
  refine ⟨decodePosted_l2Calldata _ _ _, fun posted hvalid hprefix ↦ ?_, fun hnone ↦ ?_⟩
  · have hread : Bincode.v1.forcedTx data = some posted := by
      rw [Bincode.forcedTx_eq_read]
      exact read_eq_some.mpr ⟨hvalid, hprefix⟩
    rw [decodePosted_timestamp, decodePosted, hread]
  · have hread : Bincode.v1.forcedTx data = none := by
      rw [Bincode.forcedTx_eq_read, Option.eq_none_iff_forall_ne_some]
      intro posted hposted
      obtain ⟨hvalid, hprefix⟩ := read_eq_some.mp hposted
      exact hnone posted hvalid hprefix
    rw [decodePosted_timestamp, decodePosted, hread]

section

variable {T : Type} {env : Deployment} {m : Monotree T} {bincode : Bincode} {e : Event}
  {s s' : System T}

theorem Move.l1_steps (h : Move env m bincode e s s') : Bridge.Steps env s.l1 s'.l1 := by
  cases h with
  | elsewhere hl1 => exact hl1
  | died hl1 => exact hl1 ▸ .refl
  | _ => exact .refl

/-- The queues of L1 only grow in a run. -/
theorem extends_of_run (h : Relation.ReflTransGen (Step env m bincode) s s') :
    Bridge.Extends s.l1 s'.l1 := by
  induction h with
  | refl => exact .refl _
  | tail _ hstep ih =>
    obtain ⟨e, hstep⟩ := hstep
    exact ih.trans (step_move hstep).l1_steps.extends

/-- The posting is a call like any other. -/
theorem step_of_post {msg : Msg} {data : Bytes} {l1 : Bridge}
    (h : s.l1.forceTransaction msg data = some l1) : Step env m bincode s { s with l1 } := by
  refine ⟨.callL1 (.forceTransaction msg data), congrArg some ?_⟩
  rw [System.callL1, Bridge.exec, h, Option.getD_some]

/-- **A posted transaction means the same when it is executed.**  In every run, in whatever block
the entry of a posting ends up, it is the transaction that was posted. -/
theorem posted_bytes_execute {tree : T} {head root : Hash}
    (hbefore : Relation.ReflTransGen (Step env m .v1) (System.init tree head root) s) {msg : Msg}
    {data : Bytes} {l1 : Bridge} (hpost : s.l1.forceTransaction msg data = some l1)
    (hafter : Relation.ReflTransGen (Step env m .v1) { s with l1 } s') {b : Included}
    (hb : b ∈ s'.committed) (hi : b.HasForced s.l1.forcedTransactions.length) :
    ∃ tx, b.block.forcedTxs[s.l1.forcedTransactions.length - b.firstForced]? = some tx ∧
      Means data tx ∧ tx.timestamp.toNat = msg.timestamp.toNat := by
  obtain ⟨hle, hlt⟩ := hi
  have hrun := (hbefore.tail (step_of_post hpost)).trans hafter
  have hfrom := (Fetched.run hrun).fromL1 b ((committed_sublist s').subset hb)
  have htx := List.getElem?_eq_getElem (l := b.block.forcedTxs)
    (i := s.l1.forcedTransactions.length - b.firstForced) (by omega)
  obtain ⟨entry, hentry, hconvert⟩ := hfrom.forcedTxs _ _ htx
  rw [Nat.add_sub_cancel' hle] at hentry
  -- The queue has the posting where it was put.
  have hposted : s'.l1.forcedTransactions[s.l1.forcedTransactions.length]?
      = some { data, timestamp := msg.timestamp } := by
    obtain ⟨-, rfl⟩ := Bridge.forceTransaction_eq_some.mp hpost
    obtain ⟨rest, hrest⟩ := (extends_of_run hafter).forcedTxs
    rw [← hrest, List.append_assoc, List.getElem?_append_right le_rfl, Nat.sub_self]
    rfl
  obtain rfl := Option.some_inj.mp (hposted.symm.trans hentry)
  obtain ⟨-, htime, hdecoded⟩ := toForcedTx_eq_ok hconvert
  refine ⟨_, htx, ?_, htime⟩
  rw [hdecoded]
  exact means_decodePosted _ _

end

namespace Garbage

/-- A transfer as its sender has serialized it. -/
def meant : ForcedTx := ⟨Hash.ofByte 1, Hash.ofByte 2, 0, 1, 5, 0, [9]⟩

def postMsg : Msg := { sender := zeros 20, value := 10 ^ 15, timestamp := 7 }

/-- L1 with the transfer posted. -/
def posted : Bridge :=
  { Bridge.init Hash.default with
    forcedTransactions := [{ data := ForcedTx.codec.encode meant, timestamp := 7 }]
    forcedTxCount := 1 }

theorem run_posted : (({ start with l1 := posted } : System MemTree).run env m .v1 tick).map
    positions = some [(0, 1)] := by
  decide +kernel

end Garbage

open Garbage in
/-- The transfer is in the block with its own sender, recipient, nonce, fee and amount. -/
theorem posted_bytes_execute_transfer : ∃ s b tx, b ∈ System.committed s ∧
    b.block.forcedTxs[0]? = some tx ∧
    tx = { meant with timestamp := tx.timestamp, l2Calldata := ForcedTx.codec.encode meant } ∧
    Relation.ReflTransGen (Step env m .v1) { start with l1 := posted } s := by
  obtain ⟨s, hrun, hpositions⟩ := Option.map_eq_some_iff.mp run_posted
  obtain ⟨b, hcommitted, hb⟩ := List.map_eq_singleton_iff.mp hpositions
  obtain ⟨hfirst, hlength⟩ := Prod.mk.inj hb
  have hmem : b ∈ s.committed := hcommitted ▸ List.mem_singleton_self b
  have hpost : start.l1.forceTransaction postMsg (ForcedTx.codec.encode meant) = some posted :=
    rfl
  have hi : b.HasForced 0 := ⟨hfirst.le, by omega⟩
  obtain ⟨tx, htx, hmeans, -⟩ := posted_bytes_execute .refl hpost (run_steps hrun) hmem hi
  rw [show start.l1.forcedTransactions.length - b.firstForced = 0 from Nat.zero_sub _] at htx
  exact ⟨s, b, tx, hmem, htx, hmeans.transaction meant
    (ForcedTx.codec_valid_iff.mpr (by decide)) (List.prefix_refl _), run_steps hrun⟩

end TinyRollup
