import TinyRollup.Lib.Codec
import TinyRollup.Core.Tree

/-!
# The binary formats of the data

What the derives of `Serialize` and `Deserialize` make of the structures of `stf` and of the core
under `bincode`: the fields in the order of their declaration.  Every value is written whose lists
have a length, which is a `u64`.

`account_eq_read` and `forcedTx_eq_read` say that the decoders of the rest of the development are
the readers of these formats.
-/

set_option autoImplicit false

namespace TinyRollup

open ByteString Codec

namespace Account

def fields : Hash × UInt64 × UInt64 ≃ Account where
  toFun x := { id := x.1, balance := x.2.1, nonce := x.2.2 }
  invFun a := (a.id, a.balance, a.nonce)
  left_inv _ := rfl
  right_inv _ := rfl

def codec : Codec Account := ((fixed 32).pair (u64.pair u64)).map fields

end Account

namespace Transaction

def fields : Hash × Hash × UInt64 × UInt64 × UInt64 ≃ Transaction where
  toFun x := { from_ := x.1, to_ := x.2.1, nonce := x.2.2.1, fee := x.2.2.2.1, amount := x.2.2.2.2 }
  invFun tx := (tx.from_, tx.to_, tx.nonce, tx.fee, tx.amount)
  left_inv _ := rfl
  right_inv _ := rfl

def codec : Codec Transaction :=
  ((fixed 32).pair ((fixed 32).pair (u64.pair (u64.pair u64)))).map fields

end Transaction

namespace Deposit

def fields : Hash × UInt64 × UInt64 ≃ Deposit where
  toFun x := { to_ := x.1, amount := x.2.1, timestamp := x.2.2 }
  invFun d := (d.to_, d.amount, d.timestamp)
  left_inv _ := rfl
  right_inv _ := rfl

def codec : Codec Deposit := ((fixed 32).pair (u64.pair u64)).map fields

end Deposit

namespace ForcedTx

def fields : Hash × Hash × UInt64 × UInt64 × UInt64 × UInt64 × Bytes ≃ ForcedTx where
  toFun x :=
    { from_ := x.1
      to_ := x.2.1
      nonce := x.2.2.1
      fee := x.2.2.2.1
      amount := x.2.2.2.2.1
      timestamp := x.2.2.2.2.2.1
      l2Calldata := x.2.2.2.2.2.2 }
  invFun tx := (tx.from_, tx.to_, tx.nonce, tx.fee, tx.amount, tx.timestamp, tx.l2Calldata)
  left_inv _ := rfl
  right_inv _ := rfl

def codec : Codec ForcedTx :=
  ((fixed 32).pair ((fixed 32).pair
    (u64.pair (u64.pair (u64.pair (u64.pair byte.list)))))).map fields

end ForcedTx

namespace MerkleProof

def fields : Account × List (Bool × Hash) ≃ MerkleProof where
  toFun x := { account := x.1, siblings := x.2 }
  invFun p := (p.account, p.siblings)
  left_inv _ := rfl
  right_inv _ := rfl

def codec : Codec MerkleProof := (Account.codec.pair (bool.pair (fixed 32)).list).map fields

end MerkleProof

namespace PendingBlock

def fields :
    UInt64 × List Transaction × List Deposit × List ForcedTx × Hash × Hash ≃ PendingBlock where
  toFun x :=
    { blockNumber := x.1
      txs := x.2.1
      deposits := x.2.2.1
      forcedTxs := x.2.2.2.1
      preStateRoot := x.2.2.2.2.1
      postStateRoot := x.2.2.2.2.2 }
  invFun b :=
    (b.blockNumber, b.txs, b.deposits, b.forcedTxs, b.preStateRoot, b.postStateRoot)
  left_inv _ := rfl
  right_inv _ := rfl

def codec : Codec PendingBlock :=
  (u64.pair (Transaction.codec.list.pair (Deposit.codec.list.pair
    (ForcedTx.codec.list.pair ((fixed 32).pair (fixed 32)))))).map fields

end PendingBlock

/-! ## What can be written -/

theorem Account.codec_valid (a : Account) : Account.codec.Valid a := ⟨trivial, trivial, trivial⟩

theorem Transaction.codec_valid (tx : Transaction) : Transaction.codec.Valid tx :=
  ⟨trivial, trivial, trivial, trivial, trivial⟩

theorem Deposit.codec_valid (d : Deposit) : Deposit.codec.Valid d := ⟨trivial, trivial, trivial⟩

theorem ForcedTx.codec_valid_iff {tx : ForcedTx} :
    ForcedTx.codec.Valid tx ↔ tx.l2Calldata.length < 2 ^ 64 := by
  constructor
  · rintro ⟨-, -, -, -, -, -, hlen, -⟩
    exact hlen
  · intro h
    exact ⟨trivial, trivial, trivial, trivial, trivial, trivial, h, fun _ _ ↦ trivial⟩

theorem MerkleProof.codec_valid_iff {p : MerkleProof} :
    MerkleProof.codec.Valid p ↔ p.siblings.length < 2 ^ 64 := by
  constructor
  · rintro ⟨-, hlen, -⟩
    exact hlen
  · intro h
    exact ⟨p.account.codec_valid, h, fun _ _ ↦ ⟨trivial, trivial⟩⟩

/-- Every list in the block has a length. -/
structure PendingBlock.Sized (block : PendingBlock) : Prop where
  txs : block.txs.length < 2 ^ 64
  deposits : block.deposits.length < 2 ^ 64
  forcedTxs : block.forcedTxs.length < 2 ^ 64
  calldata : ∀ tx ∈ block.forcedTxs, tx.l2Calldata.length < 2 ^ 64

theorem PendingBlock.codec_valid_iff {block : PendingBlock} :
    PendingBlock.codec.Valid block ↔ block.Sized := by
  constructor
  · rintro ⟨-, htxs, hdeposits, ⟨hforced, hdata⟩, -, -⟩
    exact ⟨htxs.1, hdeposits.1, hforced, fun tx htx ↦ ForcedTx.codec_valid_iff.mp (hdata tx htx)⟩
  · rintro ⟨htxs, hdeposits, hforced, hdata⟩
    exact ⟨trivial, ⟨htxs, fun tx _ ↦ tx.codec_valid⟩, ⟨hdeposits, fun d _ ↦ d.codec_valid⟩,
      ⟨hforced, fun tx htx ↦ ForcedTx.codec_valid_iff.mpr (hdata tx htx)⟩, trivial, trivial⟩

/-! ## The decoders -/

namespace Bincode

theorem takeU64_eq (b : Bytes) : takeU64 b = u64.decode b := by
  show (takeFixed 8 b).bind _ = (takeFixed 8 b).map _
  rw [Option.map_eq_bind]
  rfl

/-- The bytes of a vector one by one, or all at once. -/
theorem decodeMany_byte : ∀ (n : ℕ) (b : Bytes),
    decodeMany byte n b = if n ≤ b.length then some (b.take n, b.drop n) else none
  | 0, _ => rfl
  | n + 1, [] => rfl
  | n + 1, x :: b => by
    have hbyte : byte.decode (x :: b) = some (x, b) := rfl
    rw [decodeMany, hbyte, Option.bind_some, decodeMany_byte n b]
    have hle : n + 1 ≤ (x :: b).length ↔ n ≤ b.length := Nat.succ_le_succ_iff
    by_cases h : n ≤ b.length
    · rw [if_pos h, if_pos (hle.mpr h)]
      rfl
    · rw [if_neg h, if_neg (mt hle.mp h)]
      rfl

theorem takeVec_eq (b : Bytes) : takeVec b = byte.list.decode b := by
  rw [takeVec, list, takeU64_eq]
  refine Option.bind_congr fun x _ ↦ ?_
  rw [decodeMany_byte]
  rfl

theorem account_eq_read : v1.account = Account.codec.read := by
  funext b
  simp only [v1, decodeAccount, Codec.read, Account.codec, Codec.map, Codec.pair, takeU64_eq,
    Option.bind_eq_bind, Option.map_eq_bind, Option.bind_assoc]
  rfl

theorem forcedTx_eq_read : v1.forcedTx = ForcedTx.codec.read := by
  funext b
  simp only [v1, decodeForcedTx, Codec.read, ForcedTx.codec, Codec.map, Codec.pair, takeU64_eq,
    takeVec_eq, Option.bind_eq_bind, Option.map_eq_bind, Option.bind_assoc]
  rfl

end Bincode

end TinyRollup
