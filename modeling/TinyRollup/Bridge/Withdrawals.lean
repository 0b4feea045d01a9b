import TinyRollup.Bridge.Steps

/-!
# A withdrawal is paid at most once

`withdraw` sets the nullifier before it sends the ether, and hands control to the receiver in
between.  `Vault` is the state of the contract with the payments it has made; `pay` and `payAll` are
`exec` and `execAll` with these kept (`payAll_bridge`), so a call that reverts takes back its own
payment and those of the calls inside of it.

However the calls are nested, the nullifiers that are set are those of the payments that were made
and not taken back, and no triple of sender, amount and nonce is among them twice (`Settled`).  The
contract packs the triple into bytes of fixed widths, so that no two triples share a nullifier
unless Keccak-256 has a collision (`packed_injective`).
-/

set_option autoImplicit false

namespace TinyRollup

open ByteString Word

/-- A payment of the contract. -/
structure Payment where
  sender : Address
  amount : U256
  nonce : UInt64
  deriving DecidableEq

namespace Payment

/-- `abi.encodePacked(msg.sender, amount, nonce)`. -/
def packed (p : Payment) : Bytes :=
  p.sender.toList ++ (beBytes 32 p.amount.toNat ++ beBytes 8 p.nonce.toNat)

def nullifier (env : Deployment) (p : Payment) : Hash := env.crypto.keccak256 p.packed

/-- The packed encoding separates all triples. -/
theorem packed_injective : Function.Injective packed := by
  rintro ⟨sender, amount, nonce⟩ ⟨sender', amount', nonce'⟩ h
  obtain ⟨hsender, hrest⟩ := append_inj_of_length
    (sender.toList_length.trans sender'.toList_length.symm) h
  obtain ⟨hamount, hnonce⟩ := append_inj_of_length (by simp) hrest
  have ha : amount = amount' := BitVec.toNat_inj.mp (beBytes_inj amount.isLt amount'.isLt hamount)
  have hn : nonce = nonce' :=
    UInt64.toNat_inj.mp (beBytes_inj nonce.toNat_lt nonce'.toNat_lt hnonce)
  rw [List.Vector.toList_injective hsender, ha, hn]

/-- Where Keccak-256 has no collision, a nullifier belongs to one triple. -/
theorem nullifier_injOn {env : Deployment} {A : Set Payment}
    (h : Set.InjOn env.crypto.keccak256 (packed '' A)) : Set.InjOn (nullifier env) A :=
  fun _ hp _ hq heq ↦ packed_injective
    (h (Set.mem_image_of_mem _ hp) (Set.mem_image_of_mem _ hq) heq)

end Payment

/-- The contract and the payments it has made. -/
structure Vault where
  bridge : Bridge
  paid : List Payment

namespace Vault

def init (initialStateRoot : Hash) : Vault := ⟨Bridge.init initialStateRoot, []⟩

mutual

/-- One call, with the payments it makes. -/
def pay (env : Deployment) : Call → Vault → Option Vault
  | .deposit msg, v => (v.bridge.deposit msg).map fun bridge ↦ { v with bridge }
  | .forceTransaction msg l2TxData, v =>
    (v.bridge.forceTransaction msg l2TxData).map fun bridge ↦ { v with bridge }
  | .updateState publicValues proofBytes, v =>
    (v.bridge.updateState env publicValues proofBytes).map fun bridge ↦ { v with bridge }
  | .withdraw msg amount nonce merkleProof receiver success, v =>
    match v.bridge.beginWithdraw env msg amount nonce merkleProof with
    | none => none
    | some bridge =>
      if success then
        some (payAll env receiver ⟨bridge, v.paid ++ [⟨msg.sender, amount, nonce⟩]⟩)
      else none

/-- Calls one after the other; the ones that revert leave the state and the payments as they are. -/
def payAll (env : Deployment) : List Call → Vault → Vault
  | [], v => v
  | call :: calls, v => payAll env calls ((pay env call v).getD v)

end

mutual

theorem pay_bridge (env : Deployment) : ∀ (call : Call) (v : Vault),
    (pay env call v).map bridge = Bridge.exec env call v.bridge
  | .deposit msg, v => by
    rw [pay, Bridge.exec, Option.map_map]
    exact Option.map_id'
  | .forceTransaction msg l2TxData, v => by
    rw [pay, Bridge.exec, Option.map_map]
    exact Option.map_id'
  | .updateState publicValues proofBytes, v => by
    rw [pay, Bridge.exec, Option.map_map]
    exact Option.map_id'
  | .withdraw msg amount nonce merkleProof receiver success, v => by
    rw [pay, Bridge.exec]
    cases v.bridge.beginWithdraw env msg amount nonce merkleProof with
    | none => rfl
    | some bridge =>
      cases success with
      | true => exact congrArg some (payAll_bridge env receiver _)
      | false => rfl

/-- The payments do not change what the contract does. -/
theorem payAll_bridge (env : Deployment) : ∀ (calls : List Call) (v : Vault),
    (payAll env calls v).bridge = Bridge.execAll env calls v.bridge
  | [], v => rfl
  | call :: calls, v => by
    have hcall := pay_bridge env call v
    rw [payAll, Bridge.execAll, payAll_bridge env calls, ← hcall]
    cases pay env call v with
    | none => rfl
    | some v' => rfl

end

/-! ## Steps -/

/-- One change of the state, at any depth of the calls. -/
inductive Step (env : Deployment) : Vault → Vault → Prop
  | other {v : Vault} {bridge : Bridge} (h : Bridge.Step env v.bridge bridge)
      (hnullifiers : bridge.nullifiers = v.bridge.nullifiers) : Step env v { v with bridge }
  | withdraw {v : Vault} {bridge : Bridge} {msg : Msg} {amount : U256} {nonce : UInt64}
      {merkleProof : List Hash}
      (h : v.bridge.beginWithdraw env msg amount nonce merkleProof = some bridge) :
      Step env v ⟨bridge, v.paid ++ [⟨msg.sender, amount, nonce⟩]⟩

abbrev Steps (env : Deployment) : Vault → Vault → Prop := Relation.ReflTransGen (Step env)

mutual

theorem pay_steps (env : Deployment) : ∀ (call : Call) (v v' : Vault),
    pay env call v = some v' → Steps env v v'
  | .deposit msg, v, v', h => by
    rw [pay] at h
    obtain ⟨bridge, hbridge, rfl⟩ := Option.map_eq_some_iff.mp h
    refine .single (.other (.deposit hbridge) ?_)
    obtain ⟨-, rfl⟩ := Bridge.deposit_eq_some.mp hbridge
    rfl
  | .forceTransaction msg l2TxData, v, v', h => by
    rw [pay] at h
    obtain ⟨bridge, hbridge, rfl⟩ := Option.map_eq_some_iff.mp h
    refine .single (.other (.forceTransaction hbridge) ?_)
    obtain ⟨-, rfl⟩ := Bridge.forceTransaction_eq_some.mp hbridge
    rfl
  | .updateState publicValues proofBytes, v, v', h => by
    rw [pay] at h
    obtain ⟨bridge, hbridge, rfl⟩ := Option.map_eq_some_iff.mp h
    refine .single (.other (.updateState hbridge) ?_)
    obtain ⟨pv, dh, fh, -, -, -, -, -, -, -, p, q, -, -, rfl⟩ := Bridge.updateState_eq_some hbridge
    rfl
  | .withdraw msg amount nonce merkleProof receiver success, v, v', h => by
    rw [pay] at h
    split at h
    · exact absurd h (by simp)
    · rename_i bridge hbegin
      split at h
      · rw [← Option.some_inj.mp h]
        exact .head (.withdraw hbegin) (payAll_steps env receiver _)
      · exact absurd h (by simp)

theorem payAll_steps (env : Deployment) : ∀ (calls : List Call) (v : Vault),
    Steps env v (payAll env calls v)
  | [], _ => .refl
  | call :: calls, v => by
    rw [payAll]
    have hfirst : Steps env v ((pay env call v).getD v) := by
      cases h : pay env call v with
      | none => exact .refl
      | some v' => exact pay_steps env call v v' h
    exact hfirst.trans (payAll_steps env calls _)

end

/-! ## The invariant -/

/-- No triple was paid twice, and the nullifiers that are set are those of the payments. -/
structure Settled (env : Deployment) (v : Vault) : Prop where
  nodup : v.paid.Nodup
  nullifiers : ∀ n, v.bridge.nullifiers n = true ↔ ∃ p ∈ v.paid, p.nullifier env = n

variable {env : Deployment} {v v' : Vault}

theorem settled_init (root : Hash) : (init root).Settled env where
  nodup := List.nodup_nil
  nullifiers n := by simp [init, Bridge.init]

theorem Step.settled (h : Step env v v') (hv : v.Settled env) : v'.Settled env := by
  cases h with
  | other h hnullifiers => exact ⟨hv.nodup, fun n ↦ hnullifiers ▸ hv.nullifiers n⟩
  | @withdraw bridge msg amount nonce merkleProof h =>
    rw [Bridge.beginWithdraw] at h
    split at h
    swap
    · exact absurd h (by simp)
    rename_i hcond
    obtain ⟨hunused, -⟩ := hcond
    obtain rfl := Option.some_inj.mp h
    -- The nullifier was not set, so the triple is not among the payments.
    have hnew : (⟨msg.sender, amount, nonce⟩ : Payment) ∉ v.paid := by
      intro hmem
      have hset := (hv.nullifiers _).mpr ⟨_, hmem, rfl⟩
      exact absurd (hset.symm.trans hunused) (by decide)
    refine ⟨List.nodup_append.mpr ⟨hv.nodup, List.nodup_singleton _, ?_⟩, fun n ↦ ?_⟩
    · rintro p hp q hq rfl
      exact hnew (List.mem_singleton.mp hq ▸ hp)
    · simp only [List.mem_append, List.mem_singleton, or_and_right, exists_or, exists_eq_left]
      rw [Function.update_apply, ← hv.nullifiers n]
      split
      · rename_i hn
        exact iff_of_true rfl (Or.inr hn.symm)
      · rename_i hn
        exact (or_iff_left fun heq ↦ hn heq.symm).symm

theorem Steps.settled (h : Steps env v v') (hv : v.Settled env) : v'.Settled env := by
  induction h with
  | refl => exact hv
  | tail _ hstep ih => exact hstep.settled ih

/-- The ether paid in total. -/
def totalPaid (v : Vault) : ℕ := (v.paid.map fun p ↦ p.amount.toNat).sum

/-- Among triples with different nullifiers, the paid ones are those whose nullifier is set. -/
theorem Settled.totalPaid_eq (h : v.Settled env) {A : Finset Payment} (hA : ∀ p ∈ v.paid, p ∈ A)
    (hcf : Set.InjOn env.crypto.keccak256 (Payment.packed '' A)) :
    v.totalPaid
      = ∑ p ∈ A with v.bridge.nullifiers (p.nullifier env) = true, p.amount.toNat := by
  have hpaid : (A.filter fun p ↦ v.bridge.nullifiers (p.nullifier env) = true)
      = v.paid.toFinset := by
    ext p
    rw [Finset.mem_filter, List.mem_toFinset, h.nullifiers]
    constructor
    · rintro ⟨hp, q, hq, heq⟩
      exact Payment.nullifier_injOn hcf (hA q hq) hp heq ▸ hq
    · exact fun hp ↦ ⟨hA p hp, p, hp, rfl⟩
  rw [hpaid, List.sum_toFinset _ h.nodup, totalPaid]

/-- **A withdrawal is paid at most once.**  Whatever calls are made, and nested in each other, no
triple is paid twice and the nullifiers that are set are those of the payments; so among triples on
which Keccak-256 has no collision, the total paid is the sum over those whose nullifier is set; and
a call that reverts leaves the state and the payments as it found them. -/
theorem withdrawals_paid_once (env : Deployment) (root : Hash) (calls : List Call) :
    let v := payAll env calls (init root)
    v.bridge = Bridge.execAll env calls (Bridge.init root) ∧ v.paid.Nodup ∧
    (∀ n, v.bridge.nullifiers n = true ↔ ∃ p ∈ v.paid, p.nullifier env = n) ∧
    (∀ A : Finset Payment, (∀ p ∈ v.paid, p ∈ A) →
      Set.InjOn env.crypto.keccak256 (Payment.packed '' A) →
      v.totalPaid
        = ∑ p ∈ A with v.bridge.nullifiers (p.nullifier env) = true, p.amount.toNat) ∧
    ∀ (call : Call) (more : List Call) (w : Vault), pay env call w = none →
      payAll env (call :: more) w = payAll env more w := by
  intro v
  have hsettled : v.Settled env := Steps.settled (payAll_steps env calls _) (settled_init root)
  refine ⟨payAll_bridge env calls _, hsettled.nodup, hsettled.nullifiers,
    fun A hA hcf ↦ hsettled.totalPaid_eq hA hcf, fun call more w hrevert ↦ ?_⟩
  rw [payAll, hrevert, Option.getD_none]

end Vault

/-! ## A receiver that calls again -/

namespace Reentrant

/-- A Merkle proof check that lets everything through. -/
def env : Deployment where
  crypto := .sha3Crate
  verifyProof _ _ _ := false
  rollupProgramVKey := Hash.default
  merkleVerify _ _ _ := true

def alice : Msg where
  sender := Stf.userAddress (Hash.ofByte 1)
  value := 0
  timestamp := 7

def claim : Payment := ⟨alice.sender, 5, 0⟩

/-- Alice withdraws, calls again before the transfer is through, and once more afterwards. -/
def calls : List Call :=
  [.withdraw alice 5 0 [] [.withdraw alice 5 0 [] [] true] true, .withdraw alice 5 0 [] [] true]

theorem paid_calls : (Vault.payAll env calls (Vault.init Hash.default)).paid = [claim] := by
  decide +kernel

end Reentrant

open Reentrant in
theorem withdrawals_paid_once_reentrant :
    (Vault.payAll env calls (Vault.init Hash.default)).paid = [claim] ∧
      (Vault.payAll env calls (Vault.init Hash.default)).totalPaid
        = ∑ p ∈ {claim} with
          (Vault.payAll env calls (Vault.init Hash.default)).bridge.nullifiers
            (p.nullifier env) = true, p.amount.toNat := by
  refine ⟨paid_calls, (Vault.withdrawals_paid_once env Hash.default calls).2.2.2.1 _ ?_ ?_⟩
  · rw [paid_calls]
    exact fun p hp ↦ Finset.mem_singleton.mpr (List.mem_singleton.mp hp)
  · rw [Finset.coe_singleton, Set.image_singleton]
    exact Set.injOn_singleton _ _

end TinyRollup
