import TinyRollup.Core.Chain

/-!
# More about the state tree

Three more properties that the `monotree` crate is assumed to have where a theorem says so: a root
is determined by the map it denotes, `None` stands for the empty map, and the siblings of a present
key do not depend on its own leaf.

The tree in memory has them for the roots whose entries are sorted by key, as those of every root
are that it returns.
-/

set_option autoImplicit false

namespace TinyRollup

open ByteString Stf HashTree

section

variable {T : Type} {m : Monotree T}

/-- Two roots of the same map are equal, also in different trees. -/
def MonotreeLaws.RootsDetermined (laws : MonotreeLaws m) : Prop :=
  ∀ t t' r r', laws.known t r → laws.known t' r' → laws.leaf t r = laws.leaf t' r' → r = r'

/-- `None` stands for the empty map: what is inserted there is all there is. -/
def MonotreeLaws.NoneIsEmpty (laws : MonotreeLaws m) : Prop :=
  ∀ t t' r' (es : List (Hash × Hash)), (es.map Prod.fst).Nodup →
    m.inserts t none (es.map Prod.fst) (es.map Prod.snd) = (.ok (some r'), t') →
    laws.known t' r' ∧ ∀ k, laws.leaf t' r' k = es.lookup k

/-- The siblings of a present key are made of the other leaves. -/
def MonotreeLaws.KeepsSiblings (laws : MonotreeLaws m) : Prop :=
  ∀ t t' r r' k v v', laws.known t r → laws.known t' r' → laws.leaf t r k = some v →
    laws.leaf t' r' k = some v' → (∀ k' ≠ k, laws.leaf t' r' k' = laws.leaf t r k') →
      m.getMerkleProof t' (some r') k = m.getMerkleProof t (some r) k

end

/-! ## Sorted entries -/

namespace MemTree

/-- Sorted by key, every key once. -/
def Sorted (es : Entries) : Prop := es.Pairwise fun e e' ↦ beNat e.1.toList < beNat e'.1.toList

theorem key_inj {k k' : Hash} (h : beNat k.toList = beNat k'.toList) : k = k' :=
  List.Vector.toList_injective (beNat_inj (by simp) h)

theorem mem_insertKey {k v : Hash} {e : Hash × Hash} :
    ∀ {es : Entries}, e ∈ insertKey k v es → e = (k, v) ∨ e ∈ es
  | [], h => Or.inl (List.mem_singleton.mp h)
  | (k', v') :: es, h => by
    rw [insertKey] at h
    split at h
    · exact (List.mem_cons.mp h).imp_right (List.mem_cons_of_mem _)
    · split at h
      · exact List.mem_cons.mp h
      · rcases List.mem_cons.mp h with rfl | h
        · exact Or.inr (List.mem_cons_self ..)
        · exact (mem_insertKey h).imp_right (List.mem_cons_of_mem _)

theorem Sorted.insertKey (k v : Hash) : ∀ {es : Entries}, Sorted es → Sorted (insertKey k v es)
  | [], _ => List.pairwise_singleton _ _
  | (k', v') :: es, h => by
    obtain ⟨hhead, htail : Sorted es⟩ := List.pairwise_cons.mp h
    rw [MemTree.insertKey]
    split
    · rename_i hk
      subst hk
      exact List.pairwise_cons.mpr ⟨hhead, htail⟩
    · rename_i hk
      split
      · rename_i hlt
        refine List.pairwise_cons.mpr ⟨fun e he ↦ ?_, h⟩
        rcases List.mem_cons.mp he with rfl | he
        · exact hlt
        · exact hlt.trans (hhead e he)
      · rename_i hlt
        have hgt : beNat k'.toList < beNat k.toList := by
          have hne : beNat k.toList ≠ beNat k'.toList := fun heq ↦ hk (key_inj heq)
          omega
        refine List.pairwise_cons.mpr ⟨fun e he ↦ ?_, htail.insertKey k v⟩
        rcases mem_insertKey he with rfl | he
        · exact hgt
        · exact hhead e he

theorem Sorted.insertAll {new es : Entries} (h : Sorted es) : Sorted (insertAll es new) := by
  induction new generalizing es with
  | nil => exact h
  | cons e new ih => exact ih (h.insertKey e.1 e.2)

theorem Sorted.nodup {es : Entries} (h : Sorted es) : (es.map Prod.fst).Nodup := by
  refine List.pairwise_map.mpr (h.imp fun {e e'} hlt heq ↦ ?_)
  rw [heq] at hlt
  exact absurd hlt (lt_irrefl _)

/-- Sorted entries of the same map are the same. -/
theorem Sorted.eq_of_lookup {es es' : Entries} (h : Sorted es) (h' : Sorted es')
    (hlookup : ∀ k, es.lookup k = es'.lookup k) : es = es' := by
  have hperm : es.Perm es' := by
    rw [List.perm_ext_iff_of_nodup h.nodup.of_map h'.nodup.of_map]
    rintro ⟨k, v⟩
    rw [← lookup_of_mem h.nodup, ← lookup_of_mem h'.nodup, hlookup]
  refine List.Perm.eq_of_pairwise (fun e e' _ _ hlt hgt ↦ ?_) h h' hperm
  exact absurd (hlt.trans hgt) (lt_irrefl _)

/-- The proof of a present key does not depend on its leaf. -/
theorem proofOf_insertKey (c : Crypto) {k v v' : Hash} : ∀ {es : Entries}, Sorted es →
    es.lookup k = some v → proofOf c k (insertKey k v' es) = proofOf c k es
  | [], _, hv => absurd hv (by simp)
  | (k', v₀) :: es, h, hv => by
    obtain ⟨hhead, htail : Sorted es⟩ := List.pairwise_cons.mp h
    rw [lookup_cons_eq] at hv
    rw [insertKey]
    by_cases hk : k = k'
    · rw [if_pos hk, proofOf, proofOf, if_pos hk, if_pos rfl]
    · rw [if_neg hk] at hv
      -- The key comes later, so it is greater.
      have hlt : ¬ beNat k.toList < beNat k'.toList :=
        (hhead _ ((lookup_of_mem htail.nodup).mp hv)).not_gt
      rw [if_neg hk, if_neg hlt, proofOf, proofOf, if_neg hk, if_neg hk,
        proofOf_insertKey c htail hv]

/-- The entries that a root without a map or a root with sorted entries leads to are sorted. -/
theorem Sorted.of_inserts {c : Crypto} {t t' : MemTree} {root : Option Hash} {r' : Hash}
    {ks vs : List Hash} (h : inserts c t root ks vs = (.ok (some r'), t'))
    (hsorted : ∀ es, find t root = .ok es → Sorted es) :
    ∃ es, entriesAt t' r' = some es ∧ rootOf c es = r' ∧ Sorted es := by
  obtain ⟨es, hfind, hr', hnew⟩ := entriesAt_of_inserts c h
  exact ⟨_, hnew, hr'.symm, (hsorted es hfind).insertAll⟩

/-- The laws for the roots with sorted entries. -/
def sortedLaws (c : Crypto) : MonotreeLaws (monotree c) where
  known t r := ∃ es, entriesAt t r = some es ∧ rootOf c es = r ∧ Sorted es
  leaf := leaf
  known_default := fun _ ↦ ⟨[], if_pos rfl, rfl, List.Pairwise.nil⟩
  leaf_default := (laws c).leaf_default
  get_eq := fun t r k hr ⟨es, hes, hroot, _⟩ ↦ (laws c).get_eq t r k hr ⟨es, hes, hroot⟩
  known_inserts := fun _ _ _ _ _ ⟨es, hes, hroot, hsorted⟩ ↦
    ⟨es, entriesAt_inserts c hes, hroot, hsorted⟩
  leaf_inserts := fun t r root ks vs ⟨es, hes, hroot, _⟩ ↦
    (laws c).leaf_inserts t r root ks vs ⟨es, hes, hroot⟩
  inserts_known := fun _ _ _ _ _ _ ⟨_, hes, _, hsorted⟩ h ↦
    Sorted.of_inserts h fun _ hfind ↦
      Option.some_inj.mp (hes.symm.trans (entriesAt_of_find hfind)) ▸ hsorted
  inserts_leaf := fun t t' r r' es ⟨es₀, hes, hroot, _⟩ ↦
    (laws c).inserts_leaf t t' r r' es ⟨es₀, hes, hroot⟩

theorem sortedLaws_provesPresent (c : Crypto) : (sortedLaws c).ProvesPresent c := by
  rintro t r k v ⟨es, hes, hroot, -⟩
  exact laws_provesPresent c t r k v ⟨es, hes, hroot⟩

theorem sortedLaws_provesNoAbsent (c : Crypto) : (sortedLaws c).ProvesNoAbsent := by
  rintro t r k hr ⟨es, hes, hroot, -⟩
  exact laws_provesNoAbsent c t r k hr ⟨es, hes, hroot⟩

theorem sortedLaws_noneIsEmpty (c : Crypto) : (sortedLaws c).NoneIsEmpty := by
  intro t t' r' es hnd hinserts
  have h : inserts c t none (es.map Prod.fst) (es.map Prod.snd) = (.ok (some r'), t') := hinserts
  have hsorted : ∀ es₀, find t none = .ok es₀ → Sorted es₀ := by
    rintro _ ⟨⟩
    exact List.Pairwise.nil
  refine ⟨Sorted.of_inserts h hsorted, fun k ↦ ?_⟩
  obtain ⟨es₀, hfind, -, hnew⟩ := entriesAt_of_inserts c h
  obtain rfl : [] = es₀ := Except.ok.inj hfind
  rw [zip_map_fst_snd] at hnew
  simp only [sortedLaws, leaf]
  rw [hnew, Option.bind_some, lookup_insertAll es [] hnd, List.lookup_nil, Option.or_none]

theorem sortedLaws_rootsDetermined (c : Crypto) : (sortedLaws c).RootsDetermined := by
  rintro t t' r r' ⟨es, hes, rfl, hsorted⟩ ⟨es', hes', rfl, hsorted'⟩ hleaf
  refine congrArg (rootOf c) (hsorted.eq_of_lookup hsorted' fun k ↦ ?_)
  have hk := congrFun hleaf k
  simpa only [sortedLaws, leaf, hes, hes', Option.bind_some] using hk

theorem sortedLaws_keepsSiblings (c : Crypto) : (sortedLaws c).KeepsSiblings := by
  rintro t t' r r' k v v' ⟨es, hes, hroot, hsorted⟩ ⟨es', hes', hroot', hsorted'⟩ hv hv' hothers
  have hne : ∀ {t : MemTree} {r v : Hash}, (sortedLaws c).leaf t r k = some v →
      r ≠ Hash.default := by
    rintro t r v hv rfl
    rw [(sortedLaws c).leaf_default] at hv
    exact absurd hv (by simp)
  have hfind := find_of_entriesAt (hne hv) hes
  have hfind' := find_of_entriesAt (hne hv') hes'
  simp only [sortedLaws, leaf, hes, hes', Option.bind_some] at hv hv' hothers
  have hnew : es' = insertKey k v' es := by
    refine hsorted'.eq_of_lookup (hsorted.insertKey k v') fun k' ↦ ?_
    rw [lookup_insertKey]
    split
    · rename_i hk
      rw [hk, hv']
    · rename_i hk
      exact hothers k' hk
  simp only [monotree, hfind, hfind', hnew, proofOf_insertKey c hsorted hv]

end MemTree

end TinyRollup
