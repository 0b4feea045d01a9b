import TinyRollup.Core.Executor

/-!
# What is assumed of the state tree

`MonotreeLaws` collects the laws of the `monotree` crate that the development relies on: every root
that the tree knows denotes a map from keys to leaves, and an insertion leaves the roots known
before as they are and returns the root of the updated map.  The all-zero root stands for the empty
map; the crate has no node there, so nothing is said of what it does at this root, only of the root
that it returns if it returns one.  What is assumed of the proofs are two properties on their own.
A theorem that needs less assumes less.

`MemTree` is a tree that obeys all of them: it keeps every map with its root in memory, the entries
sorted by key and hashed along a spine.  As the crate does, it starts a map where no root is given,
and it panics at a root that it does not have, the all-zero root among them.  It is there to run the
model.
-/

set_option autoImplicit false

namespace TinyRollup

open ByteString Stf HashTree

/-- An audit path as the crate returns it. -/
def rawPath (path : List (Bool × Hash)) : List (Bool × Bytes) := path.map fun s ↦ (s.1, s.2.toList)

/-- The laws of the state tree. -/
structure MonotreeLaws {T : Type} (m : Monotree T) where
  /-- The tree has this root. -/
  known : T → Hash → Prop
  /-- The map that a root denotes. -/
  leaf : T → Hash → Hash → Option Hash
  known_default : ∀ t, known t Hash.default
  leaf_default : ∀ t k, leaf t Hash.default k = none
  get_eq : ∀ t r k, r ≠ Hash.default → known t r → m.get t (some r) k = .ok (leaf t r k)
  known_inserts : ∀ t r root ks vs, known t r → known (m.inserts t root ks vs).2 r
  leaf_inserts : ∀ t r root ks vs, known t r → leaf (m.inserts t root ks vs).2 r = leaf t r
  inserts_known : ∀ t t' r r' ks vs, known t r → m.inserts t (some r) ks vs = (.ok (some r'), t') →
    known t' r'
  inserts_leaf : ∀ t t' r r' (es : List (Hash × Hash)), known t r → (es.map Prod.fst).Nodup →
    m.inserts t (some r) (es.map Prod.fst) (es.map Prod.snd) = (.ok (some r'), t') →
    ∀ k, leaf t' r' k = (es.lookup k).or (leaf t r k)

section

variable {T : Type} {m : Monotree T}

/-- The proof of a present key folds from its leaf to the root. -/
def MonotreeLaws.ProvesPresent (laws : MonotreeLaws m) (c : Crypto) : Prop :=
  ∀ t r k v, laws.known t r → laws.leaf t r k = some v →
    ∃ path, m.getMerkleProof t (some r) k = .ok (some (rawPath path)) ∧
      fold (stateDigest c) v path = r

/-- There is no proof of an absent key. -/
def MonotreeLaws.ProvesNoAbsent (laws : MonotreeLaws m) : Prop :=
  ∀ t r k, r ≠ Hash.default → laws.known t r → laws.leaf t r k = none →
    m.getMerkleProof t (some r) k = .ok none

end

/-! ## A tree in memory -/

/-- The entries of a map, sorted by key. -/
abbrev Entries := List (Hash × Hash)

/-- The maps of a tree by their roots. -/
abbrev MemTree := List (Hash × Entries)

namespace MemTree

def insertKey (k v : Hash) : Entries → Entries
  | [] => [(k, v)]
  | (k', v') :: es =>
    if k = k' then (k, v) :: es
    else if beNat k.toList < beNat k'.toList then (k, v) :: (k', v') :: es
    else (k', v') :: insertKey k v es

def insertAll (es : Entries) (new : List (Hash × Hash)) : Entries :=
  new.foldl (fun es e ↦ insertKey e.1 e.2 es) es

theorem lookup_cons_eq (k v x : Hash) (es : Entries) :
    ((k, v) :: es).lookup x = if x = k then some v else es.lookup x := by
  rw [List.lookup_cons]
  by_cases h : x = k
  · rw [if_pos h, beq_iff_eq.mpr h]
  · rw [if_neg h, beq_eq_false_iff_ne.mpr h]

theorem lookup_insertKey (k v x : Hash) (es : Entries) :
    (insertKey k v es).lookup x = if x = k then some v else es.lookup x := by
  induction es with
  | nil => rw [insertKey, lookup_cons_eq]
  | cons e es ih =>
    obtain ⟨k', v'⟩ := e
    rw [insertKey]
    split
    · rename_i h
      subst h
      by_cases hx : x = k <;> simp [lookup_cons_eq, hx]
    · split
      · rw [lookup_cons_eq]
      · rename_i hk _
        by_cases hx : x = k'
        · have hne : k' ≠ k := fun h ↦ hk h.symm
          simp [hx, hne]
        · simp [lookup_cons_eq, hx, ih]

theorem lookup_insertAll (new es : List (Hash × Hash)) (hnd : (new.map Prod.fst).Nodup) (k : Hash) :
    (insertAll es new).lookup k = (new.lookup k).or (es.lookup k) := by
  induction new generalizing es with
  | nil => simp [insertAll]
  | cons e new ih =>
    obtain ⟨k', v'⟩ := e
    rw [List.map_cons, List.nodup_cons] at hnd
    rw [insertAll, List.foldl_cons, ← insertAll, ih _ hnd.2, lookup_insertKey, lookup_cons_eq]
    by_cases hk : k = k'
    · subst hk
      have hnone : new.lookup k = none := by
        rw [List.lookup_eq_none_iff]
        intro p hp
        have hne : k ≠ p.1 := fun h ↦ hnd.1 (List.mem_map.mpr ⟨p, hp, h.symm⟩)
        simpa using hne
      simp [hnone]
    · simp [hk]

variable (c : Crypto)

def rootOf : Entries → Hash
  | [] => Hash.default
  | [(_, v)] => v
  | (_, v) :: es => hashNodes c v (rootOf es)

def proofOf (k : Hash) : Entries → Option (List (Bool × Hash))
  | [] => none
  | (k', v') :: es =>
    if k = k' then some (if es = [] then [] else [(true, rootOf c es)])
    else (proofOf k es).map fun path ↦ path ++ [(false, v')]

theorem rootOf_cons {k v : Hash} {es : Entries} (h : es ≠ []) :
    rootOf c ((k, v) :: es) = hashNodes c v (rootOf c es) := by
  cases es with
  | nil => exact absurd rfl h
  | cons e es => rfl

theorem proofOf_eq_none {k : Hash} : ∀ {es : Entries}, es.lookup k = none → proofOf c k es = none
  | [], _ => rfl
  | (k', v') :: es, h => by
    rw [lookup_cons_eq] at h
    by_cases hk : k = k'
    · rw [if_pos hk] at h
      exact absurd h (by simp)
    · rw [if_neg hk] at h
      rw [proofOf, if_neg hk, proofOf_eq_none h]
      rfl

theorem proofOf_fold {k v : Hash} : ∀ {es : Entries}, es.lookup k = some v →
    ∃ path, proofOf c k es = some path ∧ fold (stateDigest c) v path = rootOf c es
  | [], h => absurd h (by simp)
  | (k', v') :: es, h => by
    rw [lookup_cons_eq] at h
    by_cases hk : k = k'
    · rw [if_pos hk, Option.some_inj] at h
      subst h
      rw [proofOf, if_pos hk]
      by_cases hes : es = []
      · subst hes
        exact ⟨[], rfl, rfl⟩
      · rw [if_neg hes, rootOf_cons c hes]
        exact ⟨_, rfl, rfl⟩
    · have hes : es.lookup k = some v := by rwa [if_neg hk] at h
      obtain ⟨path, hpath, hfold⟩ := proofOf_fold hes
      have hne : es ≠ [] := by
        rintro rfl
        exact absurd hes (by simp)
      rw [proofOf, if_neg hk, hpath, rootOf_cons c hne]
      refine ⟨_, rfl, ?_⟩
      rw [fold_concat, hfold]
      rfl

/-- The map that a root denotes; the empty one has the default root. -/
def entriesAt (t : MemTree) (r : Hash) : Option Entries :=
  if r = Hash.default then some [] else t.lookup r

/-- The map that is found at a root, where it has a node. -/
def find (t : MemTree) : Option Hash → Run String Entries
  | none => .ok []
  | some r =>
    if r = Hash.default then Run.panic "no node"
    else
      match t.lookup r with
      | none => Run.panic "no node"
      | some es => .ok es

/-- Two maps with one root are refused. -/
def inserts (t : MemTree) (root : Option Hash) (ks vs : List Hash) :
    Run String (Option Hash) × MemTree :=
  match find t root with
  | .error e => (.error e, t)
  | .ok es =>
    let es' := insertAll es (ks.zip vs)
    if es' = [] then (.ok none, t)
    else
      let r' := rootOf c es'
      match entriesAt t r' with
      | none => (.ok (some r'), (r', es') :: t)
      | some es'' => if es'' = es' then (.ok (some r'), t) else (Run.err "collision", t)

def monotree : Monotree MemTree where
  get := fun t root k ↦
    match find t root with
    | .error e => .error e
    | .ok es => .ok (es.lookup k)
  getMerkleProof := fun t root k ↦
    match find t root with
    | .error e => .error e
    | .ok es => .ok ((proofOf c k es).map rawPath)
  inserts := inserts c

def known (t : MemTree) (r : Hash) : Prop := ∃ es, entriesAt t r = some es ∧ rootOf c es = r

def leaf (t : MemTree) (r k : Hash) : Option Hash := (entriesAt t r).bind fun es ↦ es.lookup k

theorem find_of_entriesAt {t : MemTree} {r : Hash} {es : Entries} (hr : r ≠ Hash.default)
    (h : entriesAt t r = some es) : find t (some r) = .ok es := by
  rw [entriesAt, if_neg hr] at h
  simp only [find, if_neg hr, h]

theorem entriesAt_of_find {t : MemTree} {r : Hash} {es : Entries} (h : find t (some r) = .ok es) :
    entriesAt t r = some es := by
  simp only [find] at h
  split at h
  · simp [Run.panic] at h
  · rename_i hr
    split at h
    · simp [Run.panic] at h
    · rename_i es' hes
      rw [entriesAt, if_neg hr, hes, Except.ok.inj h]

/-- What an insertion does: it fails and the tree stays, or it returns the root of the updated map,
which the tree then has. -/
theorem inserts_cases (t : MemTree) (root : Option Hash) (ks vs : List Hash) :
    (∃ e, inserts c t root ks vs = (.error e, t)) ∨
    inserts c t root ks vs = (.ok none, t) ∨
    ∃ es t', find t root = .ok es ∧
      inserts c t root ks vs = (.ok (some (rootOf c (insertAll es (ks.zip vs)))), t') ∧
      entriesAt t' (rootOf c (insertAll es (ks.zip vs))) = some (insertAll es (ks.zip vs)) ∧
      ∀ r es', entriesAt t r = some es' → entriesAt t' r = some es' := by
  rw [inserts]
  split
  · exact Or.inl ⟨_, rfl⟩
  · rename_i es hfind
    dsimp only
    split
    · exact Or.inr (Or.inl rfl)
    · split
      · rename_i hnone
        refine Or.inr (Or.inr ⟨es, _, hfind, rfl, ?_, fun r es' h ↦ ?_⟩)
        · rw [entriesAt] at hnone ⊢
          split
          · rename_i hdef
            exact absurd hnone (by simp [hdef])
          · simp
        · -- The new root had no entries.
          have hne : r ≠ rootOf c (insertAll es (ks.zip vs)) := by
            rintro rfl
            exact absurd (hnone.symm.trans h) (by simp)
          rw [entriesAt] at h ⊢
          split
          · rename_i hdef
            rwa [if_pos hdef] at h
          · rename_i hdef
            rw [if_neg hdef] at h
            rw [List.lookup_cons, beq_eq_false_iff_ne.mpr hne]
            exact h
      · rename_i es'' hsome
        split
        · rename_i heq
          exact Or.inr (Or.inr ⟨es, t, hfind, rfl, heq ▸ hsome, fun _ _ h ↦ h⟩)
        · exact Or.inl ⟨_, rfl⟩

theorem entriesAt_inserts {t : MemTree} {root : Option Hash} {ks vs : List Hash} {r : Hash}
    {es : Entries} (h : entriesAt t r = some es) :
    entriesAt (inserts c t root ks vs).2 r = some es := by
  obtain ⟨e, he⟩ | he | ⟨es', t', -, he, -, hkept⟩ := inserts_cases c t root ks vs
  · rwa [he]
  · rwa [he]
  · rw [he]
    exact hkept r es h

/-- The entries at the root that an insertion returns. -/
theorem entriesAt_of_inserts {t t' : MemTree} {root : Option Hash} {r' : Hash} {ks vs : List Hash}
    (h : inserts c t root ks vs = (.ok (some r'), t')) :
    ∃ es, find t root = .ok es ∧ r' = rootOf c (insertAll es (ks.zip vs)) ∧
      entriesAt t' r' = some (insertAll es (ks.zip vs)) := by
  obtain ⟨e, he⟩ | he | ⟨es, t'', hfind, he, hes, -⟩ := inserts_cases c t root ks vs
  · rw [he] at h
    exact absurd h (by simp)
  · rw [he] at h
    exact absurd h (by simp)
  · rw [he, Prod.mk.injEq, Except.ok.injEq, Option.some_inj] at h
    obtain ⟨rfl, rfl⟩ := h
    exact ⟨es, hfind, rfl, hes⟩

theorem zip_map_fst_snd (es : List (Hash × Hash)) :
    (es.map Prod.fst).zip (es.map Prod.snd) = es := by
  rw [List.zip_map', List.map_id'']
  exact fun _ ↦ rfl

/-- The tree in memory obeys the laws. -/
def laws : MonotreeLaws (monotree c) where
  known := known c
  leaf := leaf
  known_default := fun t ↦ ⟨[], if_pos rfl, rfl⟩
  leaf_default := fun t k ↦ by simp [leaf, entriesAt]
  get_eq := fun t r k hr ⟨es, hes, _⟩ ↦ by simp [monotree, leaf, hes, find_of_entriesAt hr hes]
  known_inserts := fun t r root ks vs ⟨es, hes, hroot⟩ ↦ ⟨es, entriesAt_inserts c hes, hroot⟩
  leaf_inserts := fun t r root ks vs ⟨es, hes, _⟩ ↦ by
    funext k
    rw [leaf, leaf, hes, show (monotree c).inserts = inserts c from rfl, entriesAt_inserts c hes]
  inserts_known := fun t t' r r' ks vs _ h ↦ by
    obtain ⟨es, -, hr', hes⟩ := entriesAt_of_inserts c h
    exact ⟨_, hes, hr'.symm⟩
  inserts_leaf := fun t t' r r' es _ hnd h k ↦ by
    obtain ⟨es₀, hes₀, -, hes'⟩ := entriesAt_of_inserts c h
    rw [zip_map_fst_snd] at hes'
    rw [leaf, leaf, hes', entriesAt_of_find hes₀, Option.bind_some, Option.bind_some,
      lookup_insertAll es es₀ hnd]

theorem laws_provesPresent : (laws c).ProvesPresent c := by
  rintro t r k v ⟨es, hes, hroot⟩ hv
  have hr : r ≠ Hash.default := by
    rintro rfl
    rw [(laws c).leaf_default] at hv
    exact absurd hv (by simp)
  simp only [laws, leaf, hes, Option.bind_some] at hv
  obtain ⟨path, hpath, hfold⟩ := proofOf_fold c hv
  exact ⟨path, by simp [monotree, find_of_entriesAt hr hes, hpath], hfold.trans hroot⟩

theorem laws_provesNoAbsent : (laws c).ProvesNoAbsent := by
  rintro t r k hr ⟨es, hes, _⟩ hv
  simp only [laws, leaf, hes, Option.bind_some] at hv
  simp [monotree, find_of_entriesAt hr hes, proofOf_eq_none c hv]

end MemTree

end TinyRollup
