import TinyRollup.Bridge.Withdrawals
import TinyRollup.Sequencer.Fetch
import TinyRollup.Stf.Transition

/-!
# The balances that can be withdrawn

`withdraw` checks a Merkle proof of a balance against the state root.  The contract library folds
Keccak-256 over sorted pairs, from a leaf of sender, amount and nonce; the state tree that the guest
commits to has SHA3-256 leaves of nonce, id and balance, and SHA3-256 nodes in the order of the
path.

So a proof that verifies against the state root ends in a digest of the one hash and the check of
`withdraw` in a digest of the other, and where these have no digest in common there is no balance
that can be withdrawn (`never_withdrawable`).
-/

set_option autoImplicit false

namespace TinyRollup

open ByteString Word Stf HashTree

/-! ## `MerkleProof` of the contract library -/

namespace Oz

/-- The two hashes in the order of their values, packed. -/
def sortedPair (a b : Hash) : Bytes :=
  if (Word.ofBytes a).toNat < (Word.ofBytes b).toNat then a.toList ++ b.toList
  else b.toList ++ a.toList

/-- `_hashPair`. -/
def hashPair (c : Crypto) (a b : Hash) : Hash := c.keccak256 (sortedPair a b)

def processProof (c : Crypto) (proof : List Hash) (leaf : Hash) : Hash :=
  proof.foldl (hashPair c) leaf

/-- `MerkleProof.verify`. -/
def verify (c : Crypto) (proof : List Hash) (root leaf : Hash) : Bool :=
  processProof c proof leaf == root

/-- What folding `h` through a proof hashes. -/
def processed (c : Crypto) (h : Hash) : List Hash → Set Bytes
  | [] => ∅
  | p :: proof => insert (sortedPair h p) (processed c (hashPair c h p) proof)

/-- A fold that starts at a digest ends at one. -/
theorem exists_processProof (c : Crypto) : ∀ (proof : List Hash) (b : Bytes),
    ∃ b' ∈ insert b (processed c (c.keccak256 b) proof),
      processProof c proof (c.keccak256 b) = c.keccak256 b'
  | [], b => ⟨b, Set.mem_insert _ _, rfl⟩
  | p :: proof, b => by
    obtain ⟨b', hb', heq⟩ := exists_processProof c proof (sortedPair (c.keccak256 b) p)
    exact ⟨b', Set.mem_insert_of_mem _ hb', heq⟩

end Oz

/-! ## The two checks of one balance -/

/-- What `MerkleProof::verify` of the guest hashes. -/
def verifyHashed (c : Crypto) (p : MerkleProof) : Set Bytes :=
  preimageBytes '' insert (.leaf p.account)
    (pathPreimages (stateDigest c) (p.account.hash c) p.siblings)

/-- What the check of `withdraw` hashes. -/
def withdrawHashed (c : Crypto) (claim : Payment) (merkleProof : List Hash) : Set Bytes :=
  insert claim.packed (Oz.processed c (c.keccak256 claim.packed) merkleProof)

/-- The claim of a balance. -/
def balanceClaim (sender : Address) (a : Account) : Payment :=
  ⟨sender, BitVec.ofNat 256 a.balance.toNat, a.nonce⟩

/-- SHA3-256 and Keccak-256 have no digest in common on what the two checks hash. -/
def NoCommonDigest (c : Crypto) (sender : Address) (p : MerkleProof) : Prop :=
  ∀ x ∈ verifyHashed c p,
    ∀ y ∈ withdrawHashed c (balanceClaim sender p.account) (p.siblings.map Prod.snd),
      c.sha3_256 x ≠ c.keccak256 y

/-- The proof check of `withdraw`, for the balance, the nonce and the siblings of a proof. -/
def PassesCheck (env : Deployment) (s : Bridge) (sender : Address) (p : MerkleProof) : Prop :=
  env.merkleVerify (p.siblings.map Prod.snd) s.stateRoot
    ((balanceClaim sender p.account).nullifier env) = true

/-- A withdrawal that fails the check reverts. -/
theorem exec_withdraw_of_not_passesCheck {env : Deployment} {s : Bridge} {msg : Msg}
    {p : MerkleProof} (h : ¬ PassesCheck env s msg.sender p) (receiver : List Call)
    (success : Bool) :
    Bridge.exec env (.withdraw msg (balanceClaim msg.sender p.account).amount p.account.nonce
      (p.siblings.map Prod.snd) receiver success) s = none := by
  have hbegin : s.beginWithdraw env msg (balanceClaim msg.sender p.account).amount p.account.nonce
      (p.siblings.map Prod.snd) = none := if_neg fun hcond ↦ h hcond.2
  rw [Bridge.exec, hbegin]

/-- A root that a proof verifies against is a digest of something the check hashes. -/
theorem root_eq_sha3 {c : Crypto} {p : MerkleProof} {root : Hash} (h : p.verify c root = true) :
    ∃ x ∈ verifyHashed c p, root = c.sha3_256 x := by
  obtain ⟨q, hq, heq⟩ := exists_fold_eq (stateDigest c) p.siblings (.leaf p.account)
  exact ⟨preimageBytes q, Set.mem_image_of_mem _ hq, ((verify_iff c p root).mp h).symm.trans heq⟩

/-- **No balance can be withdrawn**: whatever the tree, the account and the proof are, a proof that
verifies against the state root does not pass the check of `withdraw`. -/
theorem never_withdrawable {env : Deployment} {s : Bridge} {msg : Msg} {p : MerkleProof}
    (henv : env.merkleVerify = Oz.verify env.crypto)
    (hverify : p.verify env.crypto s.stateRoot = true)
    (hdigests : NoCommonDigest env.crypto msg.sender p) :
    ¬ PassesCheck env s msg.sender p ∧
      ∀ (receiver : List Call) (success : Bool),
        Bridge.exec env (.withdraw msg (balanceClaim msg.sender p.account).amount p.account.nonce
          (p.siblings.map Prod.snd) receiver success) s = none := by
  have hcheck : ¬ PassesCheck env s msg.sender p := by
    obtain ⟨x, hx, hroot⟩ := root_eq_sha3 hverify
    obtain ⟨y, hy, hleaf⟩ := Oz.exists_processProof env.crypto (p.siblings.map Prod.snd)
      (balanceClaim msg.sender p.account).packed
    rw [PassesCheck, henv, Oz.verify, Payment.nullifier, hleaf, hroot, beq_iff_eq]
    exact fun heq ↦ hdigests x hx y hy heq.symm
  exact ⟨hcheck, exec_withdraw_of_not_passesCheck hcheck⟩

/-! ## A balance that is locked -/

namespace Locked

abbrev env : Deployment where
  crypto := .sha3Crate
  verifyProof _ _ _ := false
  rollupProgramVKey := Hash.default
  merkleVerify := Oz.verify .sha3Crate

def alice : Msg where
  sender := userAddress (Hash.ofByte 1)
  value := 0
  timestamp := 7

/-- Alice has the only account. -/
def proof : MerkleProof :=
  { account := { id := addressToHash alice.sender, balance := 5, nonce := 0 }, siblings := [] }

abbrev bridge : Bridge := .init (proof.account.hash .sha3Crate)

theorem verify_proof : proof.verify env.crypto bridge.stateRoot = true := (verify_iff _ _ _).mpr rfl

set_option maxRecDepth 10000 in
theorem digest_ne : Crypto.sha3_256 .sha3Crate proof.account.data
    ≠ Crypto.keccak256 .sha3Crate (balanceClaim alice.sender proof.account).packed := by
  decide +kernel

theorem noCommonDigest : NoCommonDigest env.crypto alice.sender proof := by
  rintro _ ⟨q, hq | hq, rfl⟩ y (rfl | hy)
  · rw [hq]
    exact digest_ne
  · exact absurd hy (Set.notMem_empty y)
  · exact absurd hq (Set.notMem_empty q)
  · exact absurd hq (Set.notMem_empty q)

end Locked

open Locked in
/-- Alice's balance is in the tree of the state root, her nullifier is not used, and the check
fails. -/
theorem locked_balance :
    proof.account.id = addressToHash alice.sender ∧
      proof.verify env.crypto bridge.stateRoot = true ∧
      bridge.nullifiers ((balanceClaim alice.sender proof.account).nullifier env) = false ∧
      NoCommonDigest env.crypto alice.sender proof ∧
      ¬ PassesCheck env bridge alice.sender proof := by
  refine ⟨rfl, verify_proof, rfl, noCommonDigest, fun h ↦ ?_⟩
  have hroot : Crypto.keccak256 .sha3Crate (balanceClaim alice.sender proof.account).packed
      = proof.account.hash .sha3Crate := beq_iff_eq.mp h
  exact digest_ne hroot.symm

open Locked in
theorem never_withdrawable_locked : ¬ PassesCheck env bridge alice.sender proof :=
  (never_withdrawable rfl verify_proof noCommonDigest).1

end TinyRollup
