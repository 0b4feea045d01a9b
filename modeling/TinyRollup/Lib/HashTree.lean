import Mathlib

/-!
# Binary hash trees

A hash tree has its data at the leaves, digests at the inner nodes, and possibly empty places that
hold a digest of nothing.  The one cryptographic object is `dig`, which takes a digest of the
content of a leaf or of two digests; what is hashed is a `Preimage`, so that a leaf and a node are
never the same preimage.

No hash into a finite type is injective, so collision freeness is always relative to a set `S` of
preimages: those that were hashed in the situation at hand.  `Tree.preimages` and `pathPreimages`
list what a tree and an audit path hash, and `Tree.Within dig S t` says that `S` covers `t` and
that no preimage of `S` has the digest of an empty place.

* `get?_of_fold_eq_root` — **binding**: an audit path that folds to the root of a tree, whatever
  its length and whoever made it up, leads to the leaf it claims.
* `root_set` — folding another leaf through the same path gives the root of the tree with that one
  leaf replaced.
* `eq_of_fold_eq` — two audit paths with the same directions and one root are equal.
* `eq_of_root_eq` — two trees of one shape with one root are equal.
* `set_eq_adjust` — in a tree whose leaves have distinct keys, replacing the leaf at a position is
  the same as rewriting every leaf with that key.
-/

set_option autoImplicit false

namespace HashTree

universe u v

/-- What is hashed: the content of a leaf, or the digests of two children. -/
inductive Preimage (α : Type u) (H : Type v)
  | leaf (a : α)
  | node (l r : H)

/-- A tree with data `α` at the leaves and digests `H`. -/
inductive Tree (α : Type u) (H : Type v)
  | leaf (a : α)
  | empty (h : H)
  | node (l r : Tree α H)
  deriving DecidableEq

variable {α β : Type u} {H : Type v} (dig : Preimage α H → H)

/-! ## Roots and audit paths -/

namespace Tree

def root : Tree α H → H
  | leaf a => dig (.leaf a)
  | empty h => h
  | node l r => dig (.node l.root r.root)

/-- The leaf at a position, a list of directions from the root down; `true` goes left. -/
def get? : Tree α H → List Bool → Option α
  | leaf a, [] => some a
  | node l _, true :: ds => l.get? ds
  | node _ r, false :: ds => r.get? ds
  | _, _ => none

/-- Replace the leaf at a position. -/
def set : Tree α H → List Bool → α → Tree α H
  | leaf _, [], b => leaf b
  | node l r, true :: ds, b => node (l.set ds b) r
  | node l r, false :: ds, b => node l (r.set ds b)
  | t, _, _ => t

/-- The leaves, from left to right. -/
def leaves : Tree α H → List α
  | leaf a => [a]
  | empty _ => []
  | node l r => l.leaves ++ r.leaves

/-- Rewrite every leaf. -/
def map (f : α → β) : Tree α H → Tree β H
  | leaf a => leaf (f a)
  | empty h => empty h
  | node l r => node (l.map f) (r.map f)

/-- What computing the root hashes. -/
def preimages : Tree α H → Set (Preimage α H)
  | leaf a => {.leaf a}
  | empty _ => ∅
  | node l r => insert (.node (l.root dig) (r.root dig)) (l.preimages ∪ r.preimages)

/-- The digests in the empty places. -/
def empties : Tree α H → Set H
  | leaf _ => ∅
  | empty h => {h}
  | node l r => l.empties ∪ r.empties

/-- `S` covers what `t` hashes, and the empty places of `t` hold the digest of nothing in `S`. -/
structure Within (S : Set (Preimage α H)) (t : Tree α H) : Prop where
  preimages : t.preimages dig ⊆ S
  empties : ∀ h ∈ t.empties, ∀ p ∈ S, dig p ≠ h

theorem Within.left {S : Set (Preimage α H)} {l r : Tree α H} (h : (node l r).Within dig S) :
    l.Within dig S :=
  ⟨fun _ hp ↦ h.preimages (Or.inr (Or.inl hp)), fun e he ↦ h.empties e (Or.inl he)⟩

theorem Within.right {S : Set (Preimage α H)} {l r : Tree α H} (h : (node l r).Within dig S) :
    r.Within dig S :=
  ⟨fun _ hp ↦ h.preimages (Or.inr (Or.inr hp)), fun e he ↦ h.empties e (Or.inr he)⟩

theorem Within.mono {S S' : Set (Preimage α H)} {t : Tree α H} (h : t.Within dig S)
    (hS : t.preimages dig ⊆ S') (hsub : S' ⊆ S) : t.Within dig S' :=
  ⟨hS, fun e he p hp ↦ h.empties e he p (hsub hp)⟩

end Tree

/-- The preimage of one step of an audit path: `true` says that the sibling is on the right. -/
def stepPreimage (h : H) (s : Bool × H) : Preimage α H :=
  if s.1 then .node h s.2 else .node s.2 h

/-- Fold a digest through an audit path, the siblings from the leaf up. -/
def fold (h : H) (path : List (Bool × H)) : H :=
  path.foldl (fun h s ↦ dig (stepPreimage h s)) h

/-- The position an audit path leads to. -/
def position (path : List (Bool × H)) : List Bool := (path.map Prod.fst).reverse

/-- What folding `h` through an audit path hashes. -/
def pathPreimages (h : H) : List (Bool × H) → Set (Preimage α H)
  | [] => ∅
  | s :: path => insert (stepPreimage h s) (pathPreimages (dig (stepPreimage h s)) path)

@[simp] theorem fold_nil (h : H) : fold dig h [] = h := rfl

@[simp] theorem fold_cons (h : H) (s : Bool × H) (path : List (Bool × H)) :
    fold dig h (s :: path) = fold dig (dig (stepPreimage h s)) path := rfl

theorem fold_concat (h : H) (path : List (Bool × H)) (s : Bool × H) :
    fold dig h (path ++ [s]) = dig (stepPreimage (fold dig h path) s) := by
  rw [fold, List.foldl_append]
  rfl

@[simp] theorem position_nil : position ([] : List (Bool × H)) = [] := rfl

theorem position_concat (path : List (Bool × H)) (s : Bool × H) :
    position (path ++ [s]) = s.1 :: position path := by
  simp [position]

theorem pathPreimages_concat (h : H) (path : List (Bool × H)) (s : Bool × H) :
    pathPreimages dig h (path ++ [s])
      = insert (stepPreimage (fold dig h path) s) (pathPreimages dig h path) := by
  induction path generalizing h with
  | nil => simp [pathPreimages]
  | cons s' path ih => rw [List.cons_append, pathPreimages, ih, pathPreimages, Set.insert_comm]; rfl

/-- A fold that starts at a digest ends at one. -/
theorem exists_fold_eq (path : List (Bool × H)) : ∀ p : Preimage α H,
    ∃ q ∈ insert p (pathPreimages dig (dig p) path), fold dig (dig p) path = dig q := by
  induction path with
  | nil => exact fun p ↦ ⟨p, Set.mem_insert _ _, rfl⟩
  | cons s path ih =>
    intro p
    obtain ⟨q, hq, heq⟩ := ih (stepPreimage (dig p) s)
    exact ⟨q, Set.mem_insert_of_mem _ hq, heq⟩

/-! ## Binding -/

section Binding

variable {S : Set (Preimage α H)} (hinj : Set.InjOn dig S)

include hinj

/-- A tree whose root is the digest of a known node is that node. -/
theorem node_of_root_eq {t : Tree α H} (ht : t.Within dig S) {l r : H}
    (hS : Preimage.node l r ∈ S) (h : dig (.node l r) = t.root dig) :
    ∃ tl tr, t = .node tl tr ∧ tl.root dig = l ∧ tr.root dig = r := by
  cases t with
  | leaf a =>
    have hp := hinj hS (ht.preimages (Set.mem_singleton _)) h
    exact Preimage.noConfusion rfl rfl (heq_of_eq hp)
  | empty e => exact absurd h (ht.empties e rfl _ hS)
  | node tl tr =>
    have hp := hinj hS (ht.preimages (Set.mem_insert _ _)) h
    rw [Preimage.node.injEq] at hp
    exact ⟨tl, tr, rfl, hp.1.symm, hp.2.symm⟩

/-- A tree whose root is the digest of a known leaf is that leaf. -/
theorem leaf_of_root_eq {t : Tree α H} (ht : t.Within dig S) {a : α}
    (hS : Preimage.leaf a ∈ S) (h : dig (.leaf a) = t.root dig) : t = .leaf a := by
  cases t with
  | leaf b =>
    have hp := hinj hS (ht.preimages (Set.mem_singleton _)) h
    rw [Preimage.leaf.injEq] at hp
    rw [hp]
  | empty e => exact absurd h (ht.empties e rfl _ hS)
  | node tl tr =>
    have hp := hinj hS (ht.preimages (Set.mem_insert _ _)) h
    exact Preimage.noConfusion rfl rfl (heq_of_eq hp)

/-- The induction behind `get?_of_fold_eq_root` and `root_set`: peel the audit path from the root
down.  The last step of the path hashes to the root, so by collision freeness the tree is a node
and the rest of the path folds to the root of the child it points to. -/
theorem bind_aux {a : α} (ha : Preimage.leaf a ∈ S) (path : List (Bool × H)) :
    ∀ t : Tree α H, t.Within dig S → pathPreimages dig (dig (.leaf a)) path ⊆ S →
      fold dig (dig (.leaf a)) path = t.root dig →
      t.get? (position path) = some a ∧
        ∀ b, (t.set (position path) b).root dig = fold dig (dig (.leaf b)) path := by
  induction path using List.reverseRecOn with
  | nil =>
    intro t ht _ h
    rw [leaf_of_root_eq dig hinj ht ha h]
    exact ⟨rfl, fun b ↦ rfl⟩
  | append_singleton path s ih =>
    intro t ht hpath h
    rw [pathPreimages_concat, Set.insert_subset_iff] at hpath
    rw [fold_concat] at h
    obtain ⟨dir, sib⟩ := s
    cases dir with
    | true =>
      obtain ⟨tl, tr, rfl, hl, hr⟩ := node_of_root_eq dig hinj ht hpath.1 h
      obtain ⟨hget, hset⟩ := ih tl (ht.left dig) hpath.2 hl.symm
      rw [position_concat]
      refine ⟨hget, fun b ↦ ?_⟩
      rw [fold_concat, ← hset b, Tree.set, Tree.root, hr]
      rfl
    | false =>
      obtain ⟨tl, tr, rfl, hl, hr⟩ := node_of_root_eq dig hinj ht hpath.1 h
      obtain ⟨hget, hset⟩ := ih tr (ht.right dig) hpath.2 hr.symm
      rw [position_concat]
      refine ⟨hget, fun b ↦ ?_⟩
      rw [fold_concat, ← hset b, Tree.set, Tree.root, hl]
      rfl

variable {a : α} {path : List (Bool × H)} {t : Tree α H}

/-- **Binding**: a path that folds to the root leads to the leaf it was folded from. -/
theorem get?_of_fold_eq_root (ht : t.Within dig S) (ha : Preimage.leaf a ∈ S)
    (hpath : pathPreimages dig (dig (.leaf a)) path ⊆ S)
    (h : fold dig (dig (.leaf a)) path = t.root dig) : t.get? (position path) = some a :=
  (bind_aux dig hinj ha path t ht hpath h).1

/-- **Update**: folding another leaf through a path that verified replaces that leaf. -/
theorem root_set (ht : t.Within dig S) (ha : Preimage.leaf a ∈ S)
    (hpath : pathPreimages dig (dig (.leaf a)) path ⊆ S)
    (h : fold dig (dig (.leaf a)) path = t.root dig) (b : α) :
    (t.set (position path) b).root dig = fold dig (dig (.leaf b)) path :=
  (bind_aux dig hinj ha path t ht hpath h).2 b

/-- The updated tree hashes nothing but what the tree and the two folds hash. -/
theorem within_set {b : α} (hb : Preimage.leaf b ∈ S) (path : List (Bool × H)) :
    ∀ {t : Tree α H}, t.Within dig S → Preimage.leaf a ∈ S →
      pathPreimages dig (dig (.leaf a)) path ⊆ S → pathPreimages dig (dig (.leaf b)) path ⊆ S →
      fold dig (dig (.leaf a)) path = t.root dig →
      (t.set (position path) b).Within dig S := by
  induction path using List.reverseRecOn with
  | nil =>
    intro t ht ha _ _ h
    rw [leaf_of_root_eq dig hinj ht ha h]
    exact ⟨Set.singleton_subset_iff.mpr hb, fun e he ↦ he.elim⟩
  | append_singleton path s ih =>
    intro t ht ha hpa hpb h
    rw [pathPreimages_concat, Set.insert_subset_iff] at hpa hpb
    rw [fold_concat] at h
    obtain ⟨dir, sib⟩ := s
    cases dir with
    | true =>
      obtain ⟨tl, tr, rfl, hl, hr⟩ := node_of_root_eq dig hinj ht hpa.1 h
      have hw := ih (ht.left dig) ha hpa.2 hpb.2 hl.symm
      have hroot := root_set dig hinj (ht.left dig) ha hpa.2 hl.symm b
      rw [position_concat]
      refine ⟨Set.insert_subset_iff.mpr ⟨?_, Set.union_subset hw.preimages
        (ht.right dig).preimages⟩, fun e he ↦ ?_⟩
      · rw [hroot, hr]; exact hpb.1
      · exact he.elim (hw.empties e) ((ht.right dig).empties e)
    | false =>
      obtain ⟨tl, tr, rfl, hl, hr⟩ := node_of_root_eq dig hinj ht hpa.1 h
      have hw := ih (ht.right dig) ha hpa.2 hpb.2 hr.symm
      have hroot := root_set dig hinj (ht.right dig) ha hpa.2 hr.symm b
      rw [position_concat]
      refine ⟨Set.insert_subset_iff.mpr ⟨?_, Set.union_subset (ht.left dig).preimages
        hw.preimages⟩, fun e he ↦ ?_⟩
      · rw [hroot, hl]; exact hpb.1
      · exact he.elim ((ht.left dig).empties e) (hw.empties e)

/-- Two audit paths with the same directions that fold to one root are equal, and so are the digests
they start from. -/
theorem eq_of_fold_eq {path path' : List (Bool × H)}
    (hdir : path.map Prod.fst = path'.map Prod.fst) :
    ∀ {h h' : H}, pathPreimages dig h path ⊆ S → pathPreimages dig h' path' ⊆ S →
      fold dig h path = fold dig h' path' → h = h' ∧ path = path' := by
  induction path generalizing path' with
  | nil =>
    intro h h' _ _ heq
    obtain rfl := List.map_eq_nil_iff.mp hdir.symm
    exact ⟨heq, rfl⟩
  | cons s path ih =>
    intro h h' hS hS' heq
    obtain ⟨s', rest', rfl, hfst, hrest⟩ := List.map_eq_cons_iff.mp hdir.symm
    rw [pathPreimages, Set.insert_subset_iff] at hS hS'
    obtain ⟨hdig, rfl⟩ := ih hrest.symm hS.2 hS'.2 heq
    have hstep := hinj hS.1 hS'.1 hdig
    obtain ⟨dir, sib⟩ := s
    obtain ⟨dir', sib'⟩ := s'
    obtain rfl : dir' = dir := hfst
    cases dir' with
    | true =>
      obtain ⟨rfl, rfl⟩ := Preimage.node.inj hstep
      exact ⟨rfl, rfl⟩
    | false =>
      obtain ⟨rfl, rfl⟩ := Preimage.node.inj hstep
      exact ⟨rfl, rfl⟩

/-- Two trees with one root are equal. -/
theorem eq_of_root_eq {t t' : Tree α H} (ht : t.Within dig S) (ht' : t'.Within dig S)
    (h : t.root dig = t'.root dig) : t = t' := by
  induction t generalizing t' with
  | leaf a => exact (leaf_of_root_eq dig hinj ht' (ht.preimages rfl) h).symm
  | empty e =>
    cases t' with
    | leaf b => exact absurd h.symm (ht.empties e rfl _ (ht'.preimages rfl))
    | empty e' => rw [show e = e' from h]
    | node l r => exact absurd h.symm (ht.empties e rfl _ (ht'.preimages (Set.mem_insert _ _)))
  | node l r ihl ihr =>
    obtain ⟨l', r', rfl, hl, hr⟩ :=
      node_of_root_eq dig hinj ht' (ht.preimages (Set.mem_insert _ _)) h
    rw [ihl (ht.left dig) (ht'.left dig) hl.symm, ihr (ht.right dig) (ht'.right dig) hr.symm]

end Binding

/-! ## Trees with keyed leaves -/

namespace Tree

variable {K : Type*}

theorem mem_leaves_of_get? : ∀ {t : Tree α H} {ds : List Bool} {a : α},
    t.get? ds = some a → a ∈ t.leaves
  | leaf b, [], a, h => by simp_all [get?, leaves]
  | node l r, true :: ds, a, h => List.mem_append_left _ (mem_leaves_of_get? (t := l) h)
  | node l r, false :: ds, a, h => List.mem_append_right _ (mem_leaves_of_get? (t := r) h)

theorem map_eq_self {f : α → α} : ∀ {t : Tree α H}, (∀ a ∈ t.leaves, f a = a) → t.map f = t
  | leaf a, h => by rw [map, h a (by simp [leaves])]
  | empty _, _ => rfl
  | node l r, h => by
    rw [map, map_eq_self (t := l) fun a ha ↦ h a (List.mem_append_left _ ha),
      map_eq_self (t := r) fun a ha ↦ h a (List.mem_append_right _ ha)]

theorem leaves_map (f : α → β) (t : Tree α H) : (t.map f).leaves = t.leaves.map f := by
  induction t with
  | leaf a => rfl
  | empty h => rfl
  | node l r ihl ihr => simp [map, leaves, ihl, ihr]

theorem empties_map (f : α → β) (t : Tree α H) : (t.map f).empties = t.empties := by
  induction t with
  | leaf a => rfl
  | empty h => rfl
  | node l r ihl ihr => rw [map, empties, empties, ihl, ihr]

theorem get?_map (f : α → β) : ∀ (t : Tree α H) (ds : List Bool),
    (t.map f).get? ds = (t.get? ds).map f
  | leaf _, [] => rfl
  | leaf _, _ :: _ => rfl
  | empty _, _ => rfl
  | node _ _, [] => rfl
  | node l _, true :: ds => get?_map f l ds
  | node _ r, false :: ds => get?_map f r ds

theorem map_set (f : α → β) : ∀ (t : Tree α H) (ds : List Bool) (b : α),
    (t.set ds b).map f = (t.map f).set ds (f b)
  | leaf _, [], _ => rfl
  | leaf _, _ :: _, _ => rfl
  | empty _, _, _ => rfl
  | node _ _, [], _ => rfl
  | node l r, true :: ds, b => by rw [set, map, map_set f l ds b]; rfl
  | node l r, false :: ds, b => by rw [set, map, map_set f r ds b]; rfl

theorem map_injective {f : α → β} (hf : Function.Injective f) :
    Function.Injective (map f : Tree α H → Tree β H) := by
  intro t
  induction t with
  | leaf a =>
    intro t' h
    cases t' with
    | leaf b => rw [map, map, leaf.injEq] at h; rw [hf h]
    | empty _ => exact Tree.noConfusion rfl rfl (heq_of_eq h)
    | node _ _ => exact Tree.noConfusion rfl rfl (heq_of_eq h)
  | empty e =>
    intro t' h
    cases t' with
    | leaf _ => exact Tree.noConfusion rfl rfl (heq_of_eq h)
    | empty e' => rw [map, map, empty.injEq] at h; rw [h]
    | node _ _ => exact Tree.noConfusion rfl rfl (heq_of_eq h)
  | node l r ihl ihr =>
    intro t' h
    cases t' with
    | leaf _ => exact Tree.noConfusion rfl rfl (heq_of_eq h)
    | empty _ => exact Tree.noConfusion rfl rfl (heq_of_eq h)
    | node l' r' => rw [map, map, node.injEq] at h; rw [ihl h.1, ihr h.2]

theorem get?_set_self : ∀ {t : Tree α H} {ds : List Bool} {a : α} (b : α),
    t.get? ds = some a → (t.set ds b).get? ds = some b
  | leaf _, [], _, _, _ => rfl
  | node l _, true :: _, _, b, h => get?_set_self (t := l) b h
  | node _ r, false :: _, _, b, h => get?_set_self (t := r) b h

theorem get?_set_ne : ∀ {t : Tree α H} {ds ds' : List Bool} {a : α} (b : α),
    t.get? ds = some a → ds' ≠ ds → (t.set ds b).get? ds' = t.get? ds'
  | leaf _, [], [], _, _, _, hne => absurd rfl hne
  | leaf _, [], _ :: _, _, _, _, _ => rfl
  | node _ _, true :: _, [], _, _, _, _ => rfl
  | node _ _, false :: _, [], _, _, _, _ => rfl
  | node _ _, true :: _, false :: _, _, _, _, _ => rfl
  | node _ _, false :: _, true :: _, _, _, _, _ => rfl
  | node l _, true :: _, true :: _, _, b, h, hne =>
    get?_set_ne (t := l) b h fun heq ↦ hne (congrArg _ heq)
  | node _ r, false :: _, false :: _, _, b, h, hne =>
    get?_set_ne (t := r) b h fun heq ↦ hne (congrArg _ heq)

/-- The sum of a quantity over the leaves. -/
def weight (f : α → ℕ) (t : Tree α H) : ℕ := (t.leaves.map f).sum

/-- Replacing a leaf moves the weight by the difference of the two leaves. -/
theorem weight_set (f : α → ℕ) : ∀ {t : Tree α H} {ds : List Bool} {a : α} (b : α),
    t.get? ds = some a → (t.set ds b).weight f + f a = t.weight f + f b
  | leaf c, [], a, b, h => by
    obtain rfl : c = a := Option.some_inj.mp h
    simp only [set, weight, leaves, List.map_singleton, List.sum_singleton]
    exact Nat.add_comm _ _
  | node l r, true :: ds, a, b, h => by
    have ih := weight_set f (t := l) b h
    simp only [set, weight, leaves, List.map_append, List.sum_append] at ih ⊢
    omega
  | node l r, false :: ds, a, b, h => by
    have ih := weight_set f (t := r) b h
    simp only [set, weight, leaves, List.map_append, List.sum_append] at ih ⊢
    omega

/-- The tree without its data. -/
def shape (t : Tree α H) : Tree PUnit H := t.map fun _ ↦ PUnit.unit

theorem shape_set : ∀ (t : Tree α H) (ds : List Bool) (b : α), (t.set ds b).shape = t.shape
  | leaf _, [], _ => rfl
  | leaf _, _ :: _, _ => rfl
  | empty _, _, _ => rfl
  | node _ _, [], _ => rfl
  | node l r, true :: ds, b => congrArg (node · r.shape) (shape_set l ds b)
  | node l r, false :: ds, b => congrArg (node l.shape ·) (shape_set r ds b)

theorem set_inj {t : Tree α H} {ds : List Bool} {a b b' : α} (h : t.get? ds = some a) :
    t.set ds b = t.set ds b' ↔ b = b' := by
  refine ⟨fun heq ↦ ?_, fun heq ↦ heq ▸ rfl⟩
  have hb := get?_set_self b h
  rw [heq, get?_set_self b' h] at hb
  exact (Option.some_inj.mp hb).symm

theorem set_set : ∀ (t : Tree α H) (ds : List Bool) (a b : α), (t.set ds a).set ds b = t.set ds b
  | leaf _, [], _, _ => rfl
  | leaf _, _ :: _, _, _ => rfl
  | empty _, _, _, _ => rfl
  | node _ _, [], _, _ => rfl
  | node l r, true :: ds, a, b => congrArg (node · r) (set_set l ds a b)
  | node l r, false :: ds, a, b => congrArg (node l ·) (set_set r ds a b)

theorem set_eq_self : ∀ {t : Tree α H} {ds : List Bool} {a : α}, t.get? ds = some a → t.set ds a = t
  | leaf _, [], _, h => congrArg leaf (Option.some_inj.mp h).symm
  | node l r, true :: _, _, h => congrArg (node · r) (set_eq_self (t := l) h)
  | node l r, false :: _, _, h => congrArg (node l ·) (set_eq_self (t := r) h)

/-- Setting a leaf to one with the same key keeps the keys of the tree. -/
theorem leaves_set_key (key : α → K) : ∀ {t : Tree α H} {ds : List Bool} {a b : α},
    t.get? ds = some a → key b = key a → (t.set ds b).leaves.map key = t.leaves.map key
  | leaf c, [], a, b, h, hk => by simp_all [get?, set, leaves]
  | node l r, true :: ds, a, b, h, hk => by
    have ih := leaves_set_key key (t := l) h hk
    simp only [set, leaves, List.map_append, ih]
  | node l r, false :: ds, a, b, h, hk => by
    have ih := leaves_set_key key (t := r) h hk
    simp only [set, leaves, List.map_append, ih]

variable [DecidableEq K]

/-- Rewrite the leaves with key `k`. -/
def adjust (key : α → K) (k : K) (f : α → α) (t : Tree α H) : Tree α H :=
  t.map fun a ↦ if key a = k then f a else a

/-- The first leaf with key `k`. -/
def find? (key : α → K) (k : K) (t : Tree α H) : Option α :=
  t.leaves.find? fun a ↦ key a = k

/-- In a tree with distinct keys a position and the key of its leaf say the same. -/
theorem set_eq_adjust (key : α → K) (f : α → α) : ∀ {t : Tree α H} {ds : List Bool} {a : α},
    (t.leaves.map key).Nodup → t.get? ds = some a → t.set ds (f a) = t.adjust key (key a) f
  | leaf c, [], a, _, h => by
    obtain rfl : c = a := Option.some_inj.mp h
    simp [set, adjust, map]
  | node l r, true :: ds, a, hnd, h => by
    rw [leaves, List.map_append, List.nodup_append] at hnd
    have ha : key a ∈ l.leaves.map key := List.mem_map_of_mem (mem_leaves_of_get? h)
    have hr : (r.map fun x ↦ if key x = key a then f x else x) = r :=
      map_eq_self fun x hx ↦ if_neg fun hxa ↦
        hnd.2.2 _ ha _ (List.mem_map_of_mem hx) hxa.symm
    have ih := set_eq_adjust key f (t := l) hnd.1 h
    rw [set, ih, adjust, adjust, map, hr]
  | node l r, false :: ds, a, hnd, h => by
    rw [leaves, List.map_append, List.nodup_append] at hnd
    have ha : key a ∈ r.leaves.map key := List.mem_map_of_mem (mem_leaves_of_get? h)
    have hl : (l.map fun x ↦ if key x = key a then f x else x) = l :=
      map_eq_self fun x hx ↦ if_neg fun hxa ↦ hnd.2.2 _ (List.mem_map_of_mem hx) _ ha hxa
    have ih := set_eq_adjust key f (t := r) hnd.2.1 h
    rw [set, ih, adjust, adjust, map, hl]

/-- In a tree with distinct keys a leaf is found by its key. -/
theorem find?_eq_some (key : α → K) {t : Tree α H} {ds : List Bool} {a : α}
    (hnd : (t.leaves.map key).Nodup) (h : t.get? ds = some a) : t.find? key (key a) = some a := by
  have ha : a ∈ t.leaves := mem_leaves_of_get? h
  rw [find?, List.find?_eq_some_iff_append]
  obtain ⟨as, bs, hl⟩ := List.append_of_mem ha
  refine ⟨by simp, as, bs, hl, fun x hx ↦ ?_⟩
  rw [hl, List.map_append, List.nodup_append] at hnd
  have hne := hnd.2.2 (key x) (List.mem_map_of_mem hx) (key a) (by simp)
  simpa using hne

/-- Rewriting the leaves with one key changes nothing under another one. -/
theorem find?_adjust_ne (key : α → K) {k k' : K} {f : α → α} (hf : ∀ a, key a = k → key (f a) = k)
    (hne : k' ≠ k) (t : Tree α H) : (t.adjust key k f).find? key k' = t.find? key k' := by
  rw [find?, adjust, leaves_map, find?]
  induction t.leaves with
  | nil => rfl
  | cons a as ih =>
    rw [List.map_cons, List.find?_cons, List.find?_cons, ih]
    by_cases ha : key a = k
    · have hfa : key (f a) ≠ k' := fun h ↦ hne (h.symm.trans (hf a ha))
      simp [ha, hfa, hne.symm]
    · simp [ha]

/-- Setting a leaf to one with the same key changes what is found under this key alone. -/
theorem find?_set (key : α → K) {t : Tree α H} {ds : List Bool} {a b : α}
    (hnd : (t.leaves.map key).Nodup) (h : t.get? ds = some a) (hk : key b = key a) (k : K) :
    (t.set ds b).find? key k = if k = key a then some b else t.find? key k := by
  split
  · rename_i heq
    rw [heq, ← hk]
    refine find?_eq_some key ?_ (get?_set_self b h)
    rwa [leaves_set_key key h hk]
  · rename_i hne
    have hset : t.set ds b = t.adjust key (key a) fun _ ↦ b := set_eq_adjust key (fun _ ↦ b) hnd h
    rw [hset]
    exact find?_adjust_ne key (fun _ _ ↦ hk) hne t

end Tree

end HashTree
