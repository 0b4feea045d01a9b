import TinyRollup.Bridge.Contract
import TinyRollup.Core.Bincode

/-!
# What the sequencer makes of the entries of the L1 queues

`address_to_hash` of the core, and the two loops at the end of `fetch_new_deposits` and
`fetch_new_forced_txs`, which turn entries read from L1 into the deposits and forced transactions of
a block.

A deposit is credited to its user's address, padded with zeros to a key.  A forced transaction is
decoded from the posted bytes; bytes that do not decode become a dummy with a zero sender, which the
executor and the guest skip.  `Posted` says that a forced transaction of a block does what the bytes
it was posted with say, and `posted_decodePosted` that this loop produces no others.
-/

set_option autoImplicit false

namespace TinyRollup

open ByteString Word
open UInt64 (Fits)

/-- `address_to_hash`. -/
def addressToHash (addr : Address) : Hash := ⟨List.replicate 12 0 ++ addr.toList, by simp⟩

/-- `x.to::<u64>()`. -/
def toU64 {ε : Type} (x : U256) : Run ε UInt64 :=
  if x.toNat < 2 ^ 64 then .ok (UInt64.ofNat x.toNat) else Run.panic "Uint conversion error"

/-- The body of the loop of `fetch_new_deposits`. -/
def toDeposit {ε : Type} (d : L1Deposit) : Run ε Deposit := do
  let amount ← toU64 d.amount
  let timestamp ← toU64 d.timestamp
  return { to_ := addressToHash d.user, amount, timestamp }

/-- What a forced transaction that was posted as `data` is taken for. -/
def decodePosted (bincode : Bincode) (data : Bytes) (timestamp : UInt64) : ForcedTx :=
  match bincode.forcedTx data with
  | some tx => { tx with timestamp, l2Calldata := data }
  | none =>
    { from_ := Hash.default, to_ := Hash.default, nonce := 0, fee := 0, amount := 0, timestamp,
      l2Calldata := data }

/-- The body of the loop of `fetch_new_forced_txs`. -/
def toForcedTx {ε : Type} (bincode : Bincode) (f : ForcedTransaction) : Run ε ForcedTx := do
  let timestamp ← toU64 f.timestamp
  return decodePosted bincode f.data timestamp

/-- The forced transaction is executed as `data` decodes, and skipped only if `data` does not decode
or decodes to a zero sender. -/
def PostedAs (bincode : Bincode) (data : Bytes) (tx : ForcedTx) : Prop :=
  if tx.from_ = Hash.default then
    ∀ d, bincode.forcedTx data = some d → d.from_ = Hash.default
  else
    ∃ d, bincode.forcedTx data = some d ∧ tx.from_ = d.from_ ∧ tx.to_ = d.to_ ∧
      tx.nonce = d.nonce ∧ tx.fee = d.fee ∧ tx.amount = d.amount

/-- The forced transaction is consistent with the calldata it carries. -/
def ForcedTx.Posted (bincode : Bincode) (tx : ForcedTx) : Prop := PostedAs bincode tx.l2Calldata tx

theorem decodePosted_l2Calldata (bincode : Bincode) (data : Bytes) (timestamp : UInt64) :
    (decodePosted bincode data timestamp).l2Calldata = data := by
  rw [decodePosted]
  split <;> rfl

theorem decodePosted_timestamp (bincode : Bincode) (data : Bytes) (timestamp : UInt64) :
    (decodePosted bincode data timestamp).timestamp = timestamp := by
  rw [decodePosted]
  split <;> rfl

/-- What the sequencer takes posted bytes for is consistent with them. -/
theorem posted_decodePosted (bincode : Bincode) (data : Bytes) (timestamp : UInt64) :
    (decodePosted bincode data timestamp).Posted bincode := by
  rw [ForcedTx.Posted, PostedAs, decodePosted_l2Calldata, decodePosted]
  cases h : bincode.forcedTx data with
  | none => simp
  | some d =>
    by_cases hzero : d.from_ = Hash.default
    · simp [hzero]
    · simp [hzero]

/-! ## What the conversions keep -/

theorem toU64_of_fits {ε : Type} {x : U256} (h : Fits x.toNat) :
    (toU64 x : Run ε UInt64) = .ok (UInt64.ofNat x.toNat) :=
  if_pos h

theorem toU64_eq_ok {ε : Type} {x : U256} {y : UInt64} (h : (toU64 x : Run ε UInt64) = .ok y) :
    Fits x.toNat ∧ y.toNat = x.toNat := by
  rw [toU64] at h
  split at h
  · rename_i hlt
    rw [← Except.ok.inj h, UInt64.toNat_ofNat']
    exact ⟨hlt, Nat.mod_eq_of_lt hlt⟩
  · exact absurd h (by simp [Run.panic])

/-- The deposit is the one that was made on L1. -/
structure FetchedAs (d : L1Deposit) (x : Deposit) : Prop where
  to_ : x.to_ = addressToHash d.user
  amount : x.amount.toNat = d.amount.toNat
  timestamp : x.timestamp.toNat = d.timestamp.toNat

/-- The forced transaction is the one that was posted on L1. -/
structure ForcedAs (bincode : Bincode) (f : ForcedTransaction) (x : ForcedTx) : Prop where
  timestamp : x.timestamp.toNat = f.timestamp.toNat
  decoded : x = decodePosted bincode f.data x.timestamp

theorem toDeposit_of_fits {ε : Type} {d : L1Deposit}
    (h : Fits d.amount.toNat ∧ Fits d.timestamp.toNat) :
    ∃ x, (toDeposit d : Run ε Deposit) = .ok x := by
  rw [toDeposit, toU64_of_fits h.1, Run.ok_bind, toU64_of_fits h.2]
  exact ⟨_, rfl⟩

theorem toDeposit_eq_ok {ε : Type} {d : L1Deposit} {x : Deposit}
    (h : (toDeposit d : Run ε Deposit) = .ok x) :
    (Fits d.amount.toNat ∧ Fits d.timestamp.toNat) ∧ FetchedAs d x := by
  obtain ⟨amount, hamount, h⟩ := Run.bind_eq_ok.mp h
  obtain ⟨timestamp, htimestamp, h⟩ := Run.bind_eq_ok.mp h
  obtain ⟨hfits, hsame⟩ := toU64_eq_ok hamount
  obtain ⟨hfits', hsame'⟩ := toU64_eq_ok htimestamp
  rw [← Run.pure_eq_ok.mp h]
  exact ⟨⟨hfits, hfits'⟩, rfl, hsame, hsame'⟩

theorem toForcedTx_of_fits {ε : Type} (bincode : Bincode) {f : ForcedTransaction}
    (h : Fits f.timestamp.toNat) : ∃ x, (toForcedTx bincode f : Run ε ForcedTx) = .ok x := by
  rw [toForcedTx, toU64_of_fits h]
  exact ⟨_, rfl⟩

theorem toForcedTx_eq_ok {ε : Type} {bincode : Bincode} {f : ForcedTransaction} {x : ForcedTx}
    (h : (toForcedTx bincode f : Run ε ForcedTx) = .ok x) :
    Fits f.timestamp.toNat ∧ ForcedAs bincode f x := by
  obtain ⟨timestamp, htimestamp, h⟩ := Run.bind_eq_ok.mp h
  obtain ⟨hfits, hsame⟩ := toU64_eq_ok htimestamp
  rw [← Run.pure_eq_ok.mp h]
  refine ⟨hfits, ?_, ?_⟩
  · rw [decodePosted_timestamp, hsame]
  · rw [decodePosted_timestamp]

end TinyRollup
