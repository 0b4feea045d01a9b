import TinyRollup.Stf.Apply

/-!
# The arithmetic of a transfer

`apply_transaction` and `apply_forced_tx` against the same transfer over the natural numbers.  The
debit and the recipient's new balance are checked sums, the debit is subtracted after a comparison,
and the fee of a sender who cannot pay is subtracted with saturation.  Only the increment of the
nonce is a plain one.  `transfer_arithmetic_iff` says that this is the one place where the code is
not exact, and that it matters exactly if none of the checks, which come later, refuses the
transfer.
-/

set_option autoImplicit false

namespace TinyRollup

namespace Stf

open UInt64 (Fits)

/-- One of the checks in the code refuses the transfer. -/
def Refused (from_ to_ : Account) (nonce fee amount : UInt64) : Prop :=
  from_.nonce ≠ nonce ∨ ¬ Fits (amount.toNat + fee.toNat) ∨
    (Paid from_ fee amount ∧ ¬ Fits (to_.balance.toNat + amount.toNat))

/-- The transfer over the natural numbers does not apply, or one of its results is not a `u64`. -/
def MustFail (from_ to_ : Account) (nonce fee amount : UInt64) : Prop :=
  from_.nonce ≠ nonce ∨ ¬ Fits (amount.toNat + fee.toNat) ∨ ¬ Fits (from_.nonce.toNat + 1) ∨
    (Paid from_ fee amount ∧ ¬ Fits (to_.balance.toNat + amount.toNat))

/-- The two accounts after a transfer that was paid: nothing but the fee has gone. -/
structure ExactlyPaid (a b : Account) (fee : UInt64) (a' b' : Account) : Prop where
  balances :
    a'.balance.toNat + b'.balance.toNat + fee.toNat = a.balance.toNat + b.balance.toNat
  nonce : a'.nonce.toNat = a.nonce.toNat + 1
  fromId : a'.id = a.id
  toId : b'.id = b.id
  toNonce : b'.nonce = b.nonce

/-- The sender after a transfer that was not paid: the fee has gone, or what there was of it. -/
structure ExactlyCharged (a : Account) (fee : UInt64) (a' : Account) : Prop where
  balance : a'.balance.toNat = a.balance.toNat - min fee.toNat a.balance.toNat
  nonce : a'.nonce.toNat = a.nonce.toNat + 1
  fromId : a'.id = a.id

/-- The result is that of the transfer over the natural numbers. -/
def ExactResult (from_ to_ : Account) (nonce fee amount : UInt64) :
    Except StfError TransactionResult → Prop
  | .error _ => MustFail from_ to_ nonce fee amount
  | .ok (.success updatedFrom updatedTo) =>
    ¬ MustFail from_ to_ nonce fee amount ∧ Paid from_ fee amount ∧
      ExactlyPaid from_ to_ fee updatedFrom updatedTo
  | .ok (.failure updatedFrom) =>
    ¬ MustFail from_ to_ nonce fee amount ∧ ¬ Paid from_ fee amount ∧
      ExactlyCharged from_ fee updatedFrom

section

variable {a b : Account} {nonce fee amount : UInt64}

theorem mustFail_iff :
    MustFail a b nonce fee amount ↔ Refused a b nonce fee amount ∨ ¬ Fits (a.nonce.toNat + 1) := by
  rw [MustFail, Refused]
  tauto

theorem exists_transfer_eq_error_iff :
    (∃ e, transfer a b nonce fee amount = .error e) ↔ Refused a b nonce fee amount := by
  simp only [transfer_eq_error_iff, Refused]
  constructor
  · rintro ⟨e, ⟨hnonce, -⟩ | ⟨-, -, hchecks⟩⟩
    · exact Or.inl hnonce
    · exact Or.inr hchecks
  · rintro (hnonce | hchecks)
    · exact ⟨_, Or.inl ⟨hnonce, rfl⟩⟩
    · by_cases hnonce : a.nonce = nonce
      · exact ⟨_, Or.inr ⟨hnonce, rfl, hchecks⟩⟩
      · exact ⟨_, Or.inl ⟨hnonce, rfl⟩⟩

/-- All but the nonce of the sender is exact when the transfer is paid. -/
theorem exactlyPaid_iff (hpaid : Paid a fee amount)
    (hto : Fits (b.balance.toNat + amount.toNat)) :
    ExactlyPaid a b fee (debited a fee amount) (credited b amount) ↔
      Fits (a.nonce.toNat + 1) := by
  rw [← UInt64.toNat_add_one_iff]
  refine ⟨fun h ↦ h.nonce, fun h ↦ ⟨?_, h, rfl, rfl, rfl⟩⟩
  rw [debited_balance hpaid, credited_balance hto]
  have hle : amount.toNat + fee.toNat ≤ a.balance.toNat := hpaid
  omega

/-- All but the nonce of the sender is exact when the transfer is not paid. -/
theorem exactlyCharged_iff : ExactlyCharged a fee (charged a fee) ↔ Fits (a.nonce.toNat + 1) := by
  rw [← UInt64.toNat_add_one_iff]
  exact ⟨fun h ↦ h.nonce, fun h ↦ ⟨charged_balance a fee, h, rfl⟩⟩

/-- The common body is exact unless it accepts a transfer with the largest nonce. -/
theorem exactResult_iff :
    ExactResult a b nonce fee amount (transfer a b nonce fee amount) ↔
      Fits (a.nonce.toNat + 1) ∨ Refused a b nonce fee amount := by
  by_cases hrefused : Refused a b nonce fee amount
  · obtain ⟨e, he⟩ := exists_transfer_eq_error_iff.mpr hrefused
    rw [he]
    exact iff_of_true (mustFail_iff.mpr (Or.inl hrefused)) (Or.inr hrefused)
  · have hmust : ¬ MustFail a b nonce fee amount ↔ Fits (a.nonce.toNat + 1) := by
      simp [mustFail_iff, hrefused]
    cases hres : transfer a b nonce fee amount with
    | error e => exact absurd (exists_transfer_eq_error_iff.mp ⟨e, hres⟩) hrefused
    | ok r =>
      obtain ⟨-, -, ⟨hunpaid, rfl⟩ | ⟨hpaid, hto, rfl⟩⟩ := transfer_eq_ok_iff.mp hres
      · simp only [ExactResult, hmust, exactlyCharged_iff, hunpaid, hrefused, not_false_eq_true,
          true_and, and_self, or_false]
      · simp only [ExactResult, hmust, exactlyPaid_iff hpaid hto, hpaid, hrefused, true_and,
          and_self, or_false]

end

/-- **When transfers are exact.**  Both functions return what the transfer over the natural numbers
does if and only if the sender's nonce can be incremented or a check refuses the transfer. -/
theorem transfer_arithmetic_iff (from_ to_ : Account) :
    (∀ tx : Transaction,
      ExactResult from_ to_ tx.nonce tx.fee tx.amount (applyTransaction from_ to_ tx) ↔
        Fits (from_.nonce.toNat + 1) ∨ Refused from_ to_ tx.nonce tx.fee tx.amount) ∧
      ∀ tx : ForcedTx,
        ExactResult from_ to_ tx.nonce tx.fee tx.amount (applyForcedTx from_ to_ tx) ↔
          Fits (from_.nonce.toNat + 1) ∨ Refused from_ to_ tx.nonce tx.fee tx.amount :=
  ⟨fun _ ↦ exactResult_iff, fun _ ↦ exactResult_iff⟩

/-! ## The largest nonce -/

namespace LargestNonce

def alice : Account := { id := Hash.ofByte 1, balance := 10, nonce := 0xffffffffffffffff }

def bob : Account := Account.new (Hash.ofByte 2)

def tx : Transaction :=
  { from_ := alice.id, to_ := bob.id, nonce := 0xffffffffffffffff, fee := 1, amount := 5 }

def forcedTx : ForcedTx :=
  { from_ := alice.id, to_ := bob.id, nonce := 0xffffffffffffffff, fee := 1, amount := 5,
    timestamp := 0, l2Calldata := [] }

end LargestNonce

open LargestNonce in
/-- Alice pays with the largest nonce, and has nonce 0 afterwards. -/
theorem nonce_wraps :
    applyTransaction alice bob tx
        = .ok (.success { alice with balance := 4, nonce := 0 } { bob with balance := 5 }) ∧
      applyForcedTx alice bob forcedTx
        = .ok (.success { alice with balance := 4, nonce := 0 } { bob with balance := 5 }) ∧
      ¬ ExactResult alice bob tx.nonce tx.fee tx.amount (applyTransaction alice bob tx) ∧
      ¬ ExactResult alice bob forcedTx.nonce forcedTx.fee forcedTx.amount
        (applyForcedTx alice bob forcedTx) := by
  have htx : applyTransaction alice bob tx
      = .ok (.success { alice with balance := 4, nonce := 0 } { bob with balance := 5 }) := by
    decide
  have hforced : applyForcedTx alice bob forcedTx
      = .ok (.success { alice with balance := 4, nonce := 0 } { bob with balance := 5 }) := by
    decide
  have hmust : MustFail alice bob tx.nonce tx.fee tx.amount :=
    Or.inr (Or.inr (Or.inl (by decide)))
  refine ⟨htx, hforced, ?_, ?_⟩
  · rw [htx]
    exact fun h ↦ h.1 hmust
  · rw [hforced]
    exact fun h ↦ h.1 hmust

end Stf

end TinyRollup
