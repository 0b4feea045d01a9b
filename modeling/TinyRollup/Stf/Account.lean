import TinyRollup.Lib.HashTree
import TinyRollup.Lib.Keccak

/-!
# Accounts, Merkle proofs, and the state tree they speak about

The data of `stf` that lives in the state tree, and the two functions that fold a leaf through the
siblings of a proof: `computeNewRoot`, which returns the root it arrives at, and
`MerkleProof.verify`, which compares it.

The hash functions are a parameter, `Crypto`.  An account is hashed as the 48 bytes of its nonce,
id and balance, a node as the 64 bytes of its children; `stateDigest` reads the two as one hash of
`HashTree.Preimage`s, which makes the state tree an instance of `HashTree.Tree` and both folds an
instance of `HashTree.fold`.
-/

set_option autoImplicit false

namespace TinyRollup

open ByteString

/-- `[u8; 32]`: state roots, account ids, and digests. -/
abbrev Hash := FixedBytes 32

/-- `Hash::default()`. -/
def Hash.default : Hash := zeros 32

/-- The key of the account whose address is `n`. -/
def Hash.ofByte (n : UInt8) : Hash := ⟨List.replicate 31 0 ++ [n], by simp⟩

/-- The hash functions of the `sha3` crate. -/
structure Crypto where
  sha3_256 : Bytes → Hash
  keccak256 : Bytes → Hash

/-- The `sha3` crate itself. -/
def Crypto.sha3Crate : Crypto := ⟨Keccak.sha3_256, Keccak.keccak256⟩

structure Account where
  id : Hash
  balance : UInt64
  nonce : UInt64
  deriving DecidableEq

namespace Account

/-- `Account::new`. -/
def new (id : Hash) : Account := { id, nonce := 0, balance := 0 }

/-- The bytes `Account::hash` hashes. -/
def data (a : Account) : Bytes :=
  beBytes 8 a.nonce.toNat ++ (a.id.toList ++ beBytes 8 a.balance.toNat)

def hash (c : Crypto) (a : Account) : Hash := c.sha3_256 a.data

@[simp] theorem length_data (a : Account) : a.data.length = 48 := by simp [data]

theorem data_injective : Function.Injective data := by
  intro a b h
  have hlt : ∀ x : UInt64, x.toNat < 256 ^ 8 := fun x ↦ x.toNat_lt
  obtain ⟨hnonce, hrest⟩ := append_inj_of_length (by simp) h
  obtain ⟨hid, hbalance⟩ := append_inj_of_length (by simp) hrest
  cases a; cases b
  simp only [Account.mk.injEq]
  exact ⟨List.Vector.toList_injective hid,
    UInt64.toNat_inj.mp (beBytes_inj (hlt _) (hlt _) hbalance),
    UInt64.toNat_inj.mp (beBytes_inj (hlt _) (hlt _) hnonce)⟩

end Account

/-- A leaf and its siblings, from the leaf up; `true` says that the sibling is on the right. -/
structure MerkleProof where
  account : Account
  siblings : List (Bool × Hash)
  deriving DecidableEq

namespace Stf

def hashNodes (c : Crypto) (left right : Hash) : Hash := c.sha3_256 (left.toList ++ right.toList)

def computeNewRoot (c : Crypto) (proof : MerkleProof) (newLeafHash : Hash) : Hash :=
  proof.siblings.foldl
    (fun currentHash s ↦
      if s.1 then hashNodes c currentHash s.2 else hashNodes c s.2 currentHash) newLeafHash

end Stf

open Stf

/-- `MerkleProof::verify`. -/
def MerkleProof.verify (c : Crypto) (p : MerkleProof) (expectedRoot : Hash) : Bool :=
  let currentHash := p.siblings.foldl
    (fun currentHash s ↦
      if s.1 then hashNodes c currentHash s.2 else hashNodes c s.2 currentHash) (p.account.hash c)
  currentHash == expectedRoot

/-! ## The state tree as a hash tree -/

/-- A tree of accounts, as the guest commits to it. -/
abbrev StateTree := HashTree.Tree Account Hash

/-- The bytes hashed for a leaf or a node. -/
def preimageBytes : HashTree.Preimage Account Hash → Bytes
  | .leaf a => a.data
  | .node l r => l.toList ++ r.toList

/-- `Account::hash` on leaves and `hash_nodes` on nodes. -/
def stateDigest (c : Crypto) (p : HashTree.Preimage Account Hash) : Hash :=
  c.sha3_256 (preimageBytes p)

/-- A leaf is hashed from 48 bytes and a node from 64, so the two never meet. -/
theorem preimageBytes_injective : Function.Injective preimageBytes := by
  intro p q h
  have hlen := congrArg List.length h
  cases p with
  | leaf a =>
    cases q with
    | leaf b => rw [Account.data_injective h]
    | node l r => simp [preimageBytes] at hlen
  | node l r =>
    cases q with
    | leaf b => simp [preimageBytes] at hlen
    | node l' r' =>
      obtain ⟨hl, hr⟩ := append_inj_of_length (by simp) h
      rw [List.Vector.toList_injective hl, List.Vector.toList_injective hr]

theorem stateDigest_injOn {c : Crypto} {S : Set (HashTree.Preimage Account Hash)}
    (h : Set.InjOn c.sha3_256 (preimageBytes '' S)) : Set.InjOn (stateDigest c) S :=
  fun _ hp _ hq hpq ↦
    preimageBytes_injective (h (Set.mem_image_of_mem _ hp) (Set.mem_image_of_mem _ hq) hpq)

theorem step_eq (c : Crypto) (h : Hash) (s : Bool × Hash) :
    (if s.1 then hashNodes c h s.2 else hashNodes c s.2 h)
      = stateDigest c (HashTree.stepPreimage h s) := by
  rw [HashTree.stepPreimage]
  split <;> rfl

theorem computeNewRoot_eq (c : Crypto) (p : MerkleProof) (h : Hash) :
    computeNewRoot c p h = HashTree.fold (stateDigest c) h p.siblings := by
  simp only [computeNewRoot, HashTree.fold, step_eq]

theorem verify_iff (c : Crypto) (p : MerkleProof) (root : Hash) :
    p.verify c root = true ↔
      HashTree.fold (stateDigest c) (p.account.hash c) p.siblings = root := by
  simp only [MerkleProof.verify, HashTree.fold, step_eq, beq_iff_eq]

end TinyRollup
