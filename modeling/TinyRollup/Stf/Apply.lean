import TinyRollup.Lib.U64
import TinyRollup.Stf.Account

/-!
# The operations of the ledger, on accounts

`apply_deposit`, `apply_transaction` and `apply_forced_tx` of the `stf` crate.  They take the
accounts an operation names and return them updated; where the accounts come from and where they
go is the business of the three callers (the guest, the executor and the proof generator).

The two transfers have the same body, `transfer`.  `transfer_eq_ok_iff` and `transfer_eq_error_iff`
say what it does over the natural numbers: a transfer that is `Paid` moves `amount` and burns
`fee`, another one only charges the sender, and either way the sender's nonce goes up by one,
wrapping at the largest `u64`.
-/

set_option autoImplicit false

namespace TinyRollup

open ByteString

structure Transaction where
  from_ : Hash
  to_ : Hash
  nonce : UInt64
  fee : UInt64
  amount : UInt64
  deriving DecidableEq

structure Deposit where
  to_ : Hash
  amount : UInt64
  timestamp : UInt64
  deriving DecidableEq

structure ForcedTx where
  from_ : Hash
  to_ : Hash
  nonce : UInt64
  fee : UInt64
  amount : UInt64
  timestamp : UInt64
  l2Calldata : Bytes
  deriving DecidableEq

inductive StfError
  | insufficientBalance
  | balanceOverflow
  | merkleProofVerificationFailed
  | invalidNonce (expected got : UInt64)
  | invalidTransaction (msg : String)
  deriving DecidableEq

inductive TransactionResult
  | success (from_ to_ : Account)
  /-- The sender after the changes of nonce and fee. -/
  | failure (from_ : Account)
  deriving DecidableEq

namespace Stf

open UInt64 (Fits)

def applyDeposit (account : Account) (deposit : Deposit) : Except StfError Account :=
  match account.balance.checkedAdd deposit.amount with
  | some balance => .ok { account with balance }
  | none => .error .balanceOverflow

/-- The common body of `apply_transaction` and `apply_forced_tx`. -/
def transfer (from_ to_ : Account) (nonce fee amount : UInt64) :
    Except StfError TransactionResult :=
  if from_.nonce ≠ nonce then
    .error (.invalidNonce from_.nonce nonce)
  else
    let from_ := { from_ with nonce := from_.nonce + 1 }
    match amount.checkedAdd fee with
    | none => .error .balanceOverflow
    | some totalDebit =>
      if from_.balance < totalDebit then
        .ok (.failure { from_ with balance := from_.balance.saturatingSub fee })
      else
        let from_ := { from_ with balance := from_.balance - totalDebit }
        match to_.balance.checkedAdd amount with
        | none => .error .balanceOverflow
        | some balance => .ok (.success from_ { to_ with balance })

def applyTransaction (from_ to_ : Account) (tx : Transaction) :
    Except StfError TransactionResult :=
  transfer from_ to_ tx.nonce tx.fee tx.amount

def applyForcedTx (from_ to_ : Account) (tx : ForcedTx) : Except StfError TransactionResult :=
  transfer from_ to_ tx.nonce tx.fee tx.amount

/-! ## Deposits -/

theorem applyDeposit_eq (a : Account) (d : Deposit) :
    applyDeposit a d =
      if Fits (a.balance.toNat + d.amount.toNat) then
        .ok { a with balance := a.balance + d.amount }
      else .error .balanceOverflow := by
  rw [applyDeposit, UInt64.checkedAdd]
  by_cases h : Fits (a.balance.toNat + d.amount.toNat)
  · rw [if_pos h, if_pos h]
  · rw [if_neg h, if_neg h]

theorem applyDeposit_eq_ok_iff {a a' : Account} {d : Deposit} :
    applyDeposit a d = .ok a' ↔
      Fits (a.balance.toNat + d.amount.toNat) ∧
        a' = { a with balance := a.balance + d.amount } := by
  rw [applyDeposit_eq]
  by_cases h : Fits (a.balance.toNat + d.amount.toNat)
  · simp [h, eq_comm]
  · simp [h]

theorem applyDeposit_eq_error_iff {a : Account} {d : Deposit} {e : StfError} :
    applyDeposit a d = .error e ↔
      ¬ Fits (a.balance.toNat + d.amount.toNat) ∧ e = .balanceOverflow := by
  rw [applyDeposit_eq]
  by_cases h : Fits (a.balance.toNat + d.amount.toNat)
  · simp [h]
  · simp [h, eq_comm]

/-- A new account takes every deposit. -/
theorem applyDeposit_new (id : Hash) (d : Deposit) :
    applyDeposit (Account.new id) d = .ok { id, balance := 0 + d.amount, nonce := 0 } := by
  refine applyDeposit_eq_ok_iff.mpr ⟨?_, rfl⟩
  rw [show (Account.new id).balance.toNat = 0 from rfl, Nat.zero_add]
  exact UInt64.fits_toNat d.amount

/-! ## Transfers -/

/-- The sender's balance covers the transfer. -/
def Paid (a : Account) (fee amount : UInt64) : Prop :=
  amount.toNat + fee.toNat ≤ a.balance.toNat

instance (a : Account) (fee amount : UInt64) : Decidable (Paid a fee amount) :=
  inferInstanceAs (Decidable (_ ≤ _))

/-- The sender after a transfer that was paid. -/
def debited (a : Account) (fee amount : UInt64) : Account :=
  { a with nonce := a.nonce + 1, balance := a.balance - (amount + fee) }

/-- The sender after a transfer that was not paid. -/
def charged (a : Account) (fee : UInt64) : Account :=
  { a with nonce := a.nonce + 1, balance := a.balance.saturatingSub fee }

/-- The recipient after a transfer that was paid. -/
def credited (a : Account) (amount : UInt64) : Account :=
  { a with balance := a.balance + amount }

@[simp] theorem debited_id (a : Account) (fee amount : UInt64) : (debited a fee amount).id = a.id :=
  rfl

@[simp] theorem charged_id (a : Account) (fee : UInt64) : (charged a fee).id = a.id := rfl

@[simp] theorem credited_id (a : Account) (amount : UInt64) : (credited a amount).id = a.id := rfl

@[simp] theorem debited_nonce (a : Account) (fee amount : UInt64) :
    (debited a fee amount).nonce = a.nonce + 1 := rfl

@[simp] theorem charged_nonce (a : Account) (fee : UInt64) : (charged a fee).nonce = a.nonce + 1 :=
  rfl

@[simp] theorem credited_nonce (a : Account) (amount : UInt64) :
    (credited a amount).nonce = a.nonce := rfl

theorem debited_balance {a : Account} {fee amount : UInt64} (h : Paid a fee amount) :
    (debited a fee amount).balance.toNat = a.balance.toNat - (amount.toNat + fee.toNat) := by
  have hfits : Fits (amount.toNat + fee.toNat) := (UInt64.fits_toNat a.balance).mono h
  have htotal := UInt64.toNat_add_of_fits hfits
  have hle : amount + fee ≤ a.balance := by
    rw [UInt64.le_iff_toNat_le, htotal]
    exact h
  rw [debited, UInt64.toNat_sub_of_le _ _ hle, htotal]

theorem charged_balance (a : Account) (fee : UInt64) :
    (charged a fee).balance.toNat = a.balance.toNat - min fee.toNat a.balance.toNat :=
  UInt64.toNat_saturatingSub _ _

theorem credited_balance {a : Account} {amount : UInt64}
    (h : Fits (a.balance.toNat + amount.toNat)) :
    (credited a amount).balance.toNat = a.balance.toNat + amount.toNat :=
  UInt64.toNat_add_of_fits h

/-- What `transfer` returns, one line per way through its body. -/
theorem transfer_eq (a b : Account) (nonce fee amount : UInt64) :
    transfer a b nonce fee amount =
      if a.nonce ≠ nonce then .error (.invalidNonce a.nonce nonce)
      else if ¬ Fits (amount.toNat + fee.toNat) then .error .balanceOverflow
      else if ¬ Paid a fee amount then .ok (.failure (charged a fee))
      else if ¬ Fits (b.balance.toNat + amount.toNat) then .error .balanceOverflow
      else .ok (.success (debited a fee amount) (credited b amount)) := by
  rw [transfer]
  by_cases hn : a.nonce ≠ nonce
  · rw [if_pos hn, if_pos hn]
  rw [if_neg hn, if_neg hn]
  by_cases hfits : Fits (amount.toNat + fee.toNat)
  · have hpaid : a.balance < amount + fee ↔ ¬ Paid a fee amount := by
      rw [UInt64.lt_iff_toNat_lt, UInt64.toNat_add_of_fits hfits, Paid, Nat.not_le]
    rw [if_neg (not_not.mpr hfits), UInt64.checkedAdd_of_fits hfits]
    simp only [hpaid]
    by_cases hp : Paid a fee amount
    · rw [if_neg (not_not.mpr hp), if_neg (not_not.mpr hp)]
      by_cases hto : Fits (b.balance.toNat + amount.toNat)
      · rw [if_neg (not_not.mpr hto), UInt64.checkedAdd_of_fits hto]
        rfl
      · rw [if_pos hto, UInt64.checkedAdd_of_not_fits hto]
    · rw [if_pos hp, if_pos hp]
      rfl
  · rw [if_pos hfits, UInt64.checkedAdd_of_not_fits hfits]

theorem transfer_eq_ok_iff {a b : Account} {nonce fee amount : UInt64} {r : TransactionResult} :
    transfer a b nonce fee amount = .ok r ↔
      a.nonce = nonce ∧ Fits (amount.toNat + fee.toNat) ∧
        ((¬ Paid a fee amount ∧ r = .failure (charged a fee)) ∨
          (Paid a fee amount ∧ Fits (b.balance.toNat + amount.toNat) ∧
            r = .success (debited a fee amount) (credited b amount))) := by
  rw [transfer_eq]
  by_cases hn : a.nonce = nonce
  · by_cases hfits : Fits (amount.toNat + fee.toNat)
    · by_cases hp : Paid a fee amount
      · by_cases hto : Fits (b.balance.toNat + amount.toNat)
        · simp [hn, hp, hto, hfits, eq_comm]
        · simp [hn, hp, hto, hfits]
      · simp [hn, hp, hfits, eq_comm]
    · simp [hn, hfits]
  · simp [hn]

theorem transfer_eq_error_iff {a b : Account} {nonce fee amount : UInt64} {e : StfError} :
    transfer a b nonce fee amount = .error e ↔
      (a.nonce ≠ nonce ∧ e = .invalidNonce a.nonce nonce) ∨
        (a.nonce = nonce ∧ e = .balanceOverflow ∧
          (¬ Fits (amount.toNat + fee.toNat) ∨
            (Paid a fee amount ∧ ¬ Fits (b.balance.toNat + amount.toNat)))) := by
  rw [transfer_eq]
  by_cases hn : a.nonce = nonce
  · by_cases hfits : Fits (amount.toNat + fee.toNat)
    · by_cases hp : Paid a fee amount
      · by_cases hto : Fits (b.balance.toNat + amount.toNat)
        · simp [hn, hp, hto, hfits]
        · simp [hn, hp, hto, hfits, eq_comm]
      · simp [hn, hp, hfits]
    · simp [hn, hfits, eq_comm]
  · simp [hn, eq_comm]

/-- In a transfer that is paid nothing but the fee leaves the two accounts. -/
theorem transfer_conserves {a b a' b' : Account} {nonce fee amount : UInt64}
    (h : transfer a b nonce fee amount = .ok (.success a' b')) :
    a'.balance.toNat + b'.balance.toNat + fee.toNat = a.balance.toNat + b.balance.toNat := by
  obtain ⟨_, _, ⟨_, hr⟩ | ⟨hp, hto, hr⟩⟩ := transfer_eq_ok_iff.mp h
  · exact absurd hr (by simp)
  · obtain ⟨rfl, rfl⟩ := TransactionResult.success.inj hr
    rw [debited_balance hp, credited_balance hto]
    have hp' : amount.toNat + fee.toNat ≤ a.balance.toNat := hp
    omega

end Stf

end TinyRollup
