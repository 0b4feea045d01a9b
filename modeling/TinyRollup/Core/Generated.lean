import TinyRollup.Core.Cache
import TinyRollup.Core.Provable

/-!
# The proof of one account

`build_stf_proof` makes a proof of every account, also of one that is not there.  The tree proves
present keys only, so the proof of an absent one is made up, a new account without siblings.  It
would be the proof of a tree with this one leaf, and that tree has another root.
-/

set_option autoImplicit false

namespace TinyRollup

open ByteString Stf HashTree AccountMap

theorem rawPath_injective : Function.Injective rawPath := by
  refine List.map_injective_iff.mpr fun st st' h ↦ ?_
  obtain ⟨hdir, hsibling⟩ := Prod.mk.inj h
  exact Prod.ext hdir (List.Vector.toList_injective hsibling)

theorem mapM_siblingHash (path : List (Bool × Hash)) :
    (rawPath path).mapM (fun s ↦ do return (s.1, ← Core.siblingHash s.2)) = .ok path := by
  induction path with
  | nil => rfl
  | cons s path ih =>
    have hsibling : Core.siblingHash s.2.toList = .ok s.2 := dif_pos s.2.toList_length
    rw [rawPath, List.map_cons, List.mapM_cons, hsibling, ← rawPath, ih]
    rfl

section

variable {T : Type} {m : Monotree T} {bincode : Bincode} {c : Crypto} {laws : MonotreeLaws m}
  {tree : T} {root : Hash} {s : AccountMap} {k : Hash}

/-- The proof verifies, and from the hash of any account it leads to the root of the map that has
this account at the key and is the same elsewhere. -/
structure ProvesKey (laws : MonotreeLaws m) (c : Crypto) (tree : T) (root k : Hash)
    (p : MerkleProof) : Prop where
  verifies : p.verify c root = true
  updates : ∀ (a : Account) (tree' : T) (root' : Hash), laws.known tree' root' →
    (∀ k', laws.leaf tree' root' k'
      = if k' = k then some (a.hash c) else laws.leaf tree root k') →
      computeNewRoot c p (a.hash c) = root'

/-- The siblings of a committed account prove its key. -/
theorem Holds.provesKey (h : Holds laws c tree root s) (hpresent : laws.ProvesPresent c)
    (hkeeps : laws.KeepsSiblings) {a : Account} (ha : s k = some a) {path : List (Bool × Hash)}
    (hpath : m.getMerkleProof tree (some root) k = .ok (some (rawPath path)))
    (hfold : fold (stateDigest c) (a.hash c) path = root) :
    ProvesKey laws c tree root k ⟨a, path⟩ := by
  refine ⟨(verify_iff c _ _).mpr hfold, fun a' tree' root' hknown hleaf ↦ ?_⟩
  have hold : laws.leaf tree root k = some (a.hash c) := by rw [h.leaf, ha, Option.map_some]
  have hnew : laws.leaf tree' root' k = some (a'.hash c) := by rw [hleaf, if_pos rfl]
  have hsame := hkeeps tree tree' root root' k _ _ h.known hknown hold hnew fun k' hk' ↦ by
    rw [hleaf, if_neg hk']
  obtain ⟨path', hpath', hfold'⟩ := hpresent tree' root' k _ hknown hnew
  have heq : path' = path := by
    rw [hsame, hpath] at hpath'
    exact (rawPath_injective (Option.some_inj.mp (Except.ok.inj hpath'))).symm
  rw [computeNewRoot_eq]
  exact heq ▸ hfold'

/-- What is returned for a committed account, if anything is. -/
theorem Holds.buildStfProof_some (h : Holds laws c tree root s) (hpresent : laws.ProvesPresent c)
    {a : Account} (ha : s k = some a)
    (hread : ∀ b, Core.getAccount m bincode tree (some root) k = .ok b → s k = some b)
    {p : MerkleProof} (hp : Core.buildStfProof m bincode tree root k = .ok p) :
    ∃ path, m.getMerkleProof tree (some root) k = .ok (some (rawPath path)) ∧
      fold (stateDigest c) (a.hash c) path = root ∧ p = ⟨a, path⟩ := by
  obtain ⟨path, hpath, hproof, hfold⟩ := h.getProof_some hpresent ha
  refine ⟨path, hpath, hfold, ?_⟩
  rw [Core.buildStfProof, hproof] at hp
  obtain ⟨b, hb, hp⟩ := Run.bind_eq_ok.mp hp
  simp only [Core.orEmpty, Run.ok_bind, mapM_siblingHash] at hp
  rw [← Run.pure_eq_ok.mp hp]
  -- The account was read: a present one is never reported as not found.
  have hget : Core.getAccount m bincode tree (some root) k
      = Run.okOr (bincode.account (a.hash c).toList) (.accountDataCorrupted k) := by
    rw [h.getAccount_eq (h.root_ne_default ha), ha]
  cases haccount : bincode.account (a.hash c).toList with
  | none =>
    simp only [hget, haccount] at hb
    exact absurd hb (by simp [Run.okOr, Run.err, Core.orNew])
  | some b' =>
    simp only [haccount, Run.okOr] at hget
    rw [hget] at hb
    obtain rfl := Except.ok.inj hb
    rw [Option.some_inj.mp (ha.symm.trans (hread b' hget))]

/-- The proof that the generator makes at a root that its tree has. -/
theorem Holds.buildStfProof_reads (h : Holds laws c tree root s) (hpresent : laws.ProvesPresent c)
    (habsent : laws.ProvesNoAbsent)
    (hread : Reads (Core.getAccount m bincode) tree (some root) s) (k : Hash) :
    ∃ p, Core.buildStfProof m bincode tree root k = .ok p ∧ p.account = s.getOrNew k ∧
      ∀ a, s k = some a → p.verify c root = true := by
  have hget := hread k
  cases hs : s k with
  | none =>
    refine ⟨Core.dummyProof k, h.buildStfProof habsent hs, by rw [getOrNew, hs]; rfl, by simp⟩
  | some a =>
    rw [hs] at hget
    obtain ⟨path, -, hproof, hfold⟩ := h.getProof_some hpresent hs
    refine ⟨⟨a, path⟩, ?_, by rw [getOrNew, hs]; rfl, fun _ _ ↦ (verify_iff c _ _).mpr hfold⟩
    rw [Core.buildStfProof, hget, hproof]
    simp only [Core.orNew, Core.orEmpty, Run.ok_bind, mapM_siblingHash]
    rfl

/-- **When generated proofs verify.**  Under every root of accounts: the proof made for a key proves
it exactly if the key is present. -/
theorem generated_proof_iff (h : Holds laws c tree root s) (hpresent : laws.ProvesPresent c)
    (habsent : laws.ProvesNoAbsent) (hkeeps : laws.KeepsSiblings)
    (hread : ∀ b, Core.getAccount m bincode tree (some root) k = .ok b → s k = some b)
    (hcf : CollisionFreeAt m c tree root s [k]) :
    (∀ p, Core.buildStfProof m bincode tree root k = .ok p → ProvesKey laws c tree root k p) ↔
      ∃ a, s k = some a := by
  constructor
  · intro hproves
    rw [← Option.ne_none_iff_exists']
    intro hs
    have hverify := (hproves _ (h.buildStfProof habsent hs)).verifies
    exact h.new_ne_root hpresent hcf (List.mem_singleton_self k) hs (verify_dummyProof.mp hverify)
  · rintro ⟨a, ha⟩ p hp
    obtain ⟨path, hpath, hfold, rfl⟩ := h.buildStfProof_some hpresent ha hread hp
    exact h.provesKey hpresent hkeeps ha hpath hfold

end

/-! ## A first account and a first proof -/

open FirstDeposit in
/-- The proof of Alice in the empty tree is returned and does not verify. -/
theorem absent_unverified :
    Core.buildStfProof (MemTree.monotree c) Bincode.v1 [] Hash.default alice
        = .ok (Core.dummyProof alice) ∧
      ¬ ∀ p, Core.buildStfProof (MemTree.monotree c) Bincode.v1 [] Hash.default alice = .ok p →
        ProvesKey (MemTree.sortedLaws c) c [] Hash.default alice p := by
  have hbuild : Core.buildStfProof (MemTree.monotree c) Bincode.v1 [] Hash.default alice
      = .ok (Core.dummyProof alice) := rfl
  refine ⟨hbuild, fun h ↦ ?_⟩
  exact AbsentSender.new_ne_default (verify_dummyProof.mp (h _ hbuild).verifies)

namespace Payment

open FirstDeposit (c alice account tree')

def accounts : AccountMap := AccountMap.set (fun _ ↦ none) alice account

theorem accounts_alice : accounts alice = some account := set_self _ _ _

theorem new_ne_account : (Account.new alice).hash c ≠ account.hash c := by decide +kernel

theorem holds_deposit :
    Holds (MemTree.sortedLaws c) c tree' (account.hash c) accounts where
  known := ⟨_, entriesAt_deposit, rfl, List.pairwise_singleton _ _⟩
  leaf k := by
    rw [accounts, set_apply]
    simp only [MemTree.sortedLaws, MemTree.leaf, entriesAt_deposit, Option.bind_some,
      MemTree.lookup_cons_eq, List.lookup_nil]
    split <;> rfl
  keyed k a h := by
    rw [accounts, set_apply] at h
    split at h
    · rename_i hk
      rw [hk, ← Option.some_inj.mp h]
      rfl
    · exact absurd h (by simp)
  nonempty _ := ⟨alice, account, accounts_alice⟩

theorem getMerkleProof_deposit (k : Hash) (path : List (Bool × Hash))
    (h : (MemTree.monotree c).getMerkleProof tree' (some (account.hash c)) k
      = .ok (some (rawPath path))) : k = alice ∧ path = [] := by
  have hfind := MemTree.find_of_entriesAt account_ne_default entriesAt_deposit
  simp only [MemTree.monotree, hfind, MemTree.proofOf, Except.ok.injEq] at h
  split at h
  · rename_i hk
    simp only [Option.map_some, Option.some_inj, if_true] at h
    exact ⟨hk, List.map_eq_nil_iff.mp h.symm⟩
  · exact absurd h (by simp)

theorem collisionFreeAt_deposit : CollisionFreeAt (MemTree.monotree c) c tree' (account.hash c)
    accounts [alice] where
  injOn := by
    have hpreimage : ∀ p ∈ hashedAt (MemTree.monotree c) c tree' (account.hash c)
        accounts [alice],
          p = .leaf (Account.new alice) ∨ p = .leaf account := by
      rintro p (⟨k, hk, rfl⟩ | ⟨k, a, path, ha, hpath, hp⟩)
      · exact Or.inl (by rw [List.mem_singleton.mp hk])
      · obtain ⟨rfl, rfl⟩ := getMerkleProof_deposit k path hpath
        obtain rfl := Option.some_inj.mp (accounts_alice.symm.trans ha)
        exact Or.inr (by simpa [pathPreimages] using hp)
    rintro _ ⟨p, hp, rfl⟩ _ ⟨q, hq, rfl⟩ heq
    rcases hpreimage p hp with rfl | rfl <;> rcases hpreimage q hq with rfl | rfl
    · rfl
    · exact absurd heq new_ne_account
    · exact absurd heq.symm new_ne_account
    · rfl
  default_ne k hk := List.mem_singleton.mp hk ▸ AbsentSender.new_ne_default

end Payment

open FirstDeposit Payment in
theorem generated_proof_iff_alice : ∃ p,
    Core.buildStfProof (MemTree.monotree c) decoder tree' (account.hash c) alice = .ok p ∧
      ProvesKey (MemTree.sortedLaws c) c tree' (account.hash c) alice p := by
  have hget : Reads (Core.getAccount (MemTree.monotree c) decoder) tree' (some (account.hash c))
      accounts := by
    intro k
    have hview : (start.cacheInsert alice account).view (fun _ ↦ none) = accounts :=
      BlockExecutor.view_cacheInsert alice account
    rw [← hview]
    exact reads_deposit k
  have hread : ∀ b, Core.getAccount (MemTree.monotree c) decoder tree' (some (account.hash c)) alice
      = .ok b → accounts alice = some b := by
    intro b hb
    rw [hget, accounts_alice] at hb
    rw [accounts_alice, Except.ok.inj hb]
  have hpresent := MemTree.sortedLaws_provesPresent c
  have habsent := MemTree.sortedLaws_provesNoAbsent c
  have hiff := generated_proof_iff holds_deposit hpresent habsent
    (MemTree.sortedLaws_keepsSiblings c) hread collisionFreeAt_deposit
  obtain ⟨p, hp, -⟩ := holds_deposit.buildStfProof_reads hpresent habsent hget alice
  exact ⟨p, hp, hiff.mpr ⟨account, accounts_alice⟩ p hp⟩

end TinyRollup
