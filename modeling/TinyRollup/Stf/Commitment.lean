import TinyRollup.Lib.Abi
import TinyRollup.Lib.HashList
import TinyRollup.Stf.Apply

/-!
# What the guest commits to

`build_commitment`, `hash_deposits`, `hash_forced_txs` and the public values of the `stf` crate.

The two list hashes are instances of `HashList.hashList` over the ABI encodings of the items, also
for the empty list, which the source treats on its own (`hashDeposits_eq`, `hashForcedTxs_eq`).
What the encodings determine is

* of a deposit: its amount, its timestamp, and the last 20 of the 32 bytes of the account it
  credits (`depositItem_inj`);
* of a forced transaction: its calldata and its timestamp, and none of the five fields the guest
  executes (`forcedItem_inj`).
-/

set_option autoImplicit false

namespace TinyRollup

open ByteString

/-! ## Commitments -/

namespace Stf

/-- `build_commitment`: 28 bytes of the hash, then the count. -/
def buildCommitment (hash : Hash) (count : UInt32) : Hash :=
  ⟨hash.toList.take 28 ++ beBytes 4 count.toNat, by simp⟩

/-- `Address::from_slice(&item.to[12..])`. -/
def userAddress (to_ : Hash) : FixedBytes 20 := ⟨to_.toList.drop 12, by simp⟩

/-- The `DepositL1` of a deposit. -/
def depositWords (item : Deposit) : List Hash :=
  [Abi.address (userAddress item.to_), Abi.uint item.amount.toNat, Abi.uint item.timestamp.toNat]

/-- Its `abi_encode`. -/
def depositItem (item : Deposit) : Bytes := Abi.encodeStruct ((depositWords item).map .word)

def hashDeposits (c : Crypto) (items : List Deposit) : Hash :=
  if items.isEmpty then
    c.keccak256 []
  else
    let itemHashes := items.foldl
      (fun itemHashes item ↦ itemHashes ++ (c.keccak256 (depositItem item)).toList) []
    c.keccak256 itemHashes

/-- `abi_encode` of the `ForcedTransactionL1` of a forced transaction. -/
def forcedItem (item : ForcedTx) : Bytes :=
  Abi.encodeStruct [.bytes item.l2Calldata, .word (Abi.uint item.timestamp.toNat)]

def hashForcedTxs (c : Crypto) (items : List ForcedTx) : Hash :=
  if items.isEmpty then
    c.keccak256 []
  else
    let itemHashes := items.foldl
      (fun itemHashes item ↦ itemHashes ++ (c.keccak256 (forcedItem item)).toList) []
    c.keccak256 itemHashes

end Stf

structure PublicValues where
  preStateRoot : Hash
  postStateRoot : Hash
  depositsCommitment : Hash
  forcedTxsCommitment : Hash
  deriving DecidableEq

namespace PublicValues

def words (pv : PublicValues) : List Hash :=
  [pv.preStateRoot, pv.postStateRoot, pv.depositsCommitment, pv.forcedTxsCommitment]

/-- `PublicValues::abi_encode`. -/
def abiEncode (pv : PublicValues) : Bytes := Abi.encodeStruct (pv.words.map Abi.Field.word)

theorem abiEncode_eq (pv : PublicValues) :
    pv.abiEncode = (pv.words.map List.Vector.toList).flatten := Abi.encodeStruct_words _

theorem abiEncode_injective : Function.Injective abiEncode := by
  intro p q h
  have hwords : p.words = q.words := Abi.encodeWords_inj h
  cases p; cases q
  simpa [words] using hwords

end PublicValues

namespace Stf

/-! ## The list hashes as commitments to lists -/

theorem foldl_digests {α : Type} (c : Crypto) (encode : α → Bytes) (items : List α) :
    items.foldl (fun itemHashes item ↦ itemHashes ++ (c.keccak256 (encode item)).toList) []
      = HashList.digests c.keccak256 (items.map encode) := by
  rw [HashList.digests, List.map_map, ← List.flatMap_def, List.flatMap_eq_foldl]
  rfl

theorem hashDeposits_eq (c : Crypto) (items : List Deposit) :
    hashDeposits c items = HashList.hashList c.keccak256 (items.map depositItem) := by
  cases items with
  | nil => rfl
  | cons item items => exact congrArg c.keccak256 (foldl_digests c depositItem (item :: items))

theorem hashForcedTxs_eq (c : Crypto) (items : List ForcedTx) :
    hashForcedTxs c items = HashList.hashList c.keccak256 (items.map forcedItem) := by
  cases items with
  | nil => rfl
  | cons item items => exact congrArg c.keccak256 (foldl_digests c forcedItem (item :: items))

/-! ## What an item determines -/

theorem toNat_lt_uint256 (x : UInt64) : x.toNat < 2 ^ 256 :=
  Nat.lt_trans x.toNat_lt (by decide)

theorem uint_toNat_inj {x y : UInt64} (h : Abi.uint x.toNat = Abi.uint y.toNat) : x = y :=
  UInt64.toNat_inj.mp (Abi.uint_inj (toNat_lt_uint256 x) (toNat_lt_uint256 y) h)

/-- A deposit's item is the encoding of exactly this. -/
theorem depositItem_inj {d e : Deposit} :
    depositItem d = depositItem e ↔
      userAddress d.to_ = userAddress e.to_ ∧ d.amount = e.amount ∧ d.timestamp = e.timestamp := by
  refine ⟨fun h ↦ ?_, fun ⟨hto, hamount, htime⟩ ↦ ?_⟩
  swap
  · rw [depositItem, depositItem, depositWords, depositWords, hto, hamount, htime]
  have hwords : depositWords d = depositWords e := Abi.encodeWords_inj h
  simp only [depositWords, List.cons.injEq, and_true] at hwords
  obtain ⟨hto, hamount, htime⟩ := hwords
  exact ⟨Abi.address_injective hto, uint_toNat_inj hamount, uint_toNat_inj htime⟩

/-- A forced transaction's item is the encoding of exactly this. -/
theorem forcedItem_inj {x y : ForcedTx} :
    forcedItem x = forcedItem y ↔ x.l2Calldata = y.l2Calldata ∧ x.timestamp = y.timestamp := by
  refine ⟨fun h ↦ ?_, fun ⟨hdata, htime⟩ ↦ by rw [forcedItem, forcedItem, hdata, htime]⟩
  obtain ⟨hdata, htime⟩ := Abi.encodeBytesWord_inj h
  exact ⟨hdata, uint_toNat_inj htime⟩

end Stf

end TinyRollup
