import TinyRollup.Stf.Writes

/-!
# A proof binds a position

What the guest knows of the state tree is a root, and what it is shown is a proof.  A proof that
verifies pins down the one place that its directions lead to: the account there is the account of
the proof, and folding another account through the siblings gives the root of the tree with this
one leaf replaced.  A proof is itself determined by its directions and the root it verifies against.

The set `S` collects what is hashed in the situation: the tree and the proofs at hand.
-/

set_option autoImplicit false

namespace TinyRollup

open ByteString Stf HashTree

namespace MerkleProof

/-- The directions from the leaf up; `true` says that the sibling is on the right. -/
def directions (p : MerkleProof) : List Bool := p.siblings.map Prod.fst

/-- The place the directions lead to, from the root down. -/
def position (p : MerkleProof) : List Bool := HashTree.position p.siblings

/-- What verifying the proof hashes. -/
def preimages (c : Crypto) (p : MerkleProof) : Set (Preimage Account Hash) :=
  insert (.leaf p.account) (pathPreimages (stateDigest c) (p.account.hash c) p.siblings)

theorem reverse_position (p : MerkleProof) : p.position.reverse = p.directions :=
  List.reverse_reverse _

variable {c : Crypto} {S : Set (Preimage Account Hash)} {t : StateTree} {p q : MerkleProof}
  {root : Hash}

/-- Two proofs with the same directions that verify against one root are equal. -/
theorem eq_of_verify (hinj : Set.InjOn c.sha3_256 (preimageBytes '' S)) (hp : p.preimages c ⊆ S)
    (hq : q.preimages c ⊆ S) (hdir : p.directions = q.directions) (hvp : p.verify c root = true)
    (hvq : q.verify c root = true) : p = q := by
  have hinj' := stateDigest_injOn hinj
  obtain ⟨hpleaf, hppath⟩ := Set.insert_subset_iff.mp hp
  obtain ⟨hqleaf, hqpath⟩ := Set.insert_subset_iff.mp hq
  have hfold := ((verify_iff c p root).mp hvp).trans ((verify_iff c q root).mp hvq).symm
  obtain ⟨hhash, hsiblings⟩ := eq_of_fold_eq _ hinj' hdir hppath hqpath hfold
  have haccount := Preimage.leaf.inj (hinj' hpleaf hqleaf hhash)
  cases p
  cases q
  exact congr (congrArg MerkleProof.mk haccount) hsiblings

/-- **A proof that verifies binds its position.**  There is one leaf with the directions of the
proof, and it holds the account of the proof; folding another account replaces this leaf and nothing
else; and no other proof with these directions verifies. -/
theorem binds_position (hcf : CollisionFree c S t) (hp : p.preimages c ⊆ S)
    (hv : p.verify c (t.root (stateDigest c)) = true) :
    (∃! ds, ds.reverse = p.directions ∧ t.get? ds ≠ none) ∧
      t.get? p.position = some p.account ∧
      (∀ a : Account,
        computeNewRoot c p (a.hash c) = (t.set p.position a).root (stateDigest c) ∧
        (t.set p.position a).get? p.position = some a ∧
        (∀ ds, ds ≠ p.position → (t.set p.position a).get? ds = t.get? ds) ∧
        (t.set p.position a).shape = t.shape) ∧
      ∀ (q q' : MerkleProof) (root : Hash), q.preimages c ⊆ S → q'.preimages c ⊆ S →
        q.directions = q'.directions → q.verify c root = true → q'.verify c root = true →
        q = q' := by
  have hinj := stateDigest_injOn hcf.injOn
  obtain ⟨hleaf, hpath⟩ := Set.insert_subset_iff.mp hp
  have hfold := (verify_iff c p _).mp hv
  have hget : t.get? p.position = some p.account :=
    get?_of_fold_eq_root _ hinj hcf.within hleaf hpath hfold
  refine ⟨⟨p.position, ⟨p.reverse_position, by simp [hget]⟩, ?_⟩, hget, fun a ↦ ?_, ?_⟩
  · rintro ds ⟨hds, -⟩
    exact List.reverse_injective (hds.trans p.reverse_position.symm)
  · refine ⟨?_, Tree.get?_set_self a hget, fun ds hne ↦ Tree.get?_set_ne a hget hne,
      Tree.shape_set t _ a⟩
    rw [computeNewRoot_eq]
    exact (root_set _ hinj hcf.within hleaf hpath hfold a).symm
  · exact fun q q' root hq hq' hdir hvq hvq' ↦ eq_of_verify hcf.injOn hq hq' hdir hvq hvq'

end MerkleProof

/-! ## A tree of two accounts -/

namespace TwoAccounts

abbrev c : Crypto := Crypto.sha3Crate

def alice : Account := { id := Hash.ofByte 1, balance := 10, nonce := 0 }

def bob : Account := { id := Hash.ofByte 2, balance := 5, nonce := 3 }

def tree : StateTree := .node (.leaf alice) (.leaf bob)

/-- The proof of Alice's account: Bob's is on the right. -/
def proof : MerkleProof := { account := alice, siblings := [(true, bob.hash c)] }

/-- What the tree hashes. -/
def hashed : List (Preimage Account Hash) :=
  [.leaf alice, .leaf bob, .node (alice.hash c) (bob.hash c)]

theorem hashes_nodup : (hashed.map (stateDigest c)).Nodup := by decide +kernel

theorem collisionFree : CollisionFree c {p | p ∈ hashed} tree := by
  refine ⟨?_, ?_, fun e he ↦ ?_⟩
  · rintro _ ⟨p, hp, rfl⟩ _ ⟨q, hq, rfl⟩ h
    rw [List.inj_on_of_nodup_map hashes_nodup hp hq h]
  · rintro p (rfl | rfl | rfl)
    · exact List.mem_cons_of_mem _ (List.mem_cons_of_mem _ List.mem_cons_self)
    · exact List.mem_cons_self
    · exact List.mem_cons_of_mem _ List.mem_cons_self
  · rcases he with he | he
    · exact he.elim
    · exact he.elim

theorem preimages_subset : proof.preimages c ⊆ {p | p ∈ hashed} := by
  rintro p (rfl | rfl | hp)
  · exact List.mem_cons_self
  · exact List.mem_cons_of_mem _ (List.mem_cons_of_mem _ List.mem_cons_self)
  · exact hp.elim

theorem verify_left (c : Crypto) (a b : Account) :
    MerkleProof.verify c ⟨a, [(true, b.hash c)]⟩
      (Tree.root (stateDigest c) (.node (.leaf a) (.leaf b))) = true :=
  (verify_iff c _ _).mpr rfl

end TwoAccounts

open TwoAccounts in
/-- The proof leads to Alice's account, on the left of the root. -/
theorem binds_position_alice : proof.position = [true] ∧ tree.get? [true] = some alice ∧
    ∀ a : Account, computeNewRoot c proof (a.hash c)
      = Tree.root (stateDigest c) (.node (.leaf a) (.leaf bob)) := by
  obtain ⟨-, hget, hset, -⟩ := MerkleProof.binds_position collisionFree preimages_subset
    (verify_left c alice bob)
  exact ⟨rfl, hget, fun a ↦ (hset a).1⟩

end TinyRollup
