import Mathlib

/-!
# Queues sorted by key

A column of a database whose keys are ordered: items with a key each, at most one for every key,
read from the least key on.  Writing an item replaces the one that has its key.  A queue is the list
of its items, which carries the proof that it is sorted.
-/

set_option autoImplicit false

universe u v

/-- Items in the order of their keys. -/
structure KeyedQueue {α : Type u} {κ : Type v} [LinearOrder κ] (key : α → κ) where
  items : List α
  sorted : items.Pairwise fun a b ↦ key a < key b

namespace KeyedQueue

variable {α : Type u} {κ : Type v} [LinearOrder κ] {key : α → κ}

def empty : KeyedQueue key := ⟨[], List.Pairwise.nil⟩

instance : Membership α (KeyedQueue key) := ⟨fun q a ↦ a ∈ q.items⟩

theorem mem_iff {a : α} {q : KeyedQueue key} : a ∈ q ↔ a ∈ q.items := Iff.rfl

@[ext] theorem ext {q q' : KeyedQueue key} (h : q.items = q'.items) : q = q' := by
  cases q
  cases q'
  obtain rfl := h
  rfl

/-! ## Writing -/

/-- Write an item into a sorted list. -/
def insertItem (key : α → κ) (a : α) : List α → List α
  | [] => [a]
  | b :: l =>
    if key a < key b then a :: b :: l
    else if key a = key b then a :: l
    else b :: insertItem key a l

theorem mem_insertItem {a b : α} : ∀ {l : List α}, l.Pairwise (fun a b ↦ key a < key b) →
    (b ∈ insertItem key a l ↔ b = a ∨ (b ∈ l ∧ key b ≠ key a))
  | [], _ => by simp [insertItem]
  | x :: l, h => by
    rw [List.pairwise_cons] at h
    rw [insertItem]
    split
    · rename_i hlt
      have hne : ∀ y ∈ x :: l, key y ≠ key a := by
        rintro y (_ | ⟨_, hy⟩)
        · exact hlt.ne'
        · exact (hlt.trans (h.1 y hy)).ne'
      rw [List.mem_cons]
      exact or_congr_right ⟨fun hb ↦ ⟨hb, hne b hb⟩, fun hb ↦ hb.1⟩
    · split
      · rename_i heq
        have hne : ∀ y ∈ l, key y ≠ key a := fun y hy ↦ (heq ▸ h.1 y hy).ne'
        rw [List.mem_cons, List.mem_cons]
        refine or_congr_right ⟨fun hb ↦ ⟨Or.inr hb, hne b hb⟩, ?_⟩
        rintro ⟨rfl | hb, hk⟩
        · exact absurd heq.symm hk
        · exact hb
      · rename_i hne
        have ih := mem_insertItem (a := a) (b := b) h.2
        rw [List.mem_cons, ih, List.mem_cons]
        constructor
        · rintro (rfl | rfl | ⟨hb, hk⟩)
          · exact Or.inr ⟨Or.inl rfl, fun heq ↦ hne heq.symm⟩
          · exact Or.inl rfl
          · exact Or.inr ⟨Or.inr hb, hk⟩
        · rintro (rfl | ⟨rfl | hb, hk⟩)
          · exact Or.inr (Or.inl rfl)
          · exact Or.inl rfl
          · exact Or.inr (Or.inr ⟨hb, hk⟩)

theorem sorted_insertItem {a : α} : ∀ {l : List α}, l.Pairwise (fun a b ↦ key a < key b) →
    (insertItem key a l).Pairwise fun a b ↦ key a < key b
  | [], _ => List.pairwise_singleton _ a
  | x :: l, h => by
    have hx := (List.pairwise_cons.mp h).1
    have hl := (List.pairwise_cons.mp h).2
    rw [insertItem]
    split
    · rename_i hlt
      refine List.pairwise_cons.mpr ⟨?_, h⟩
      rintro y (_ | ⟨_, hy⟩)
      · exact hlt
      · exact hlt.trans (hx y hy)
    · split
      · rename_i heq
        exact List.pairwise_cons.mpr ⟨fun y hy ↦ heq ▸ hx y hy, hl⟩
      · rename_i hnlt hne
        refine List.pairwise_cons.mpr ⟨fun y hy ↦ ?_, sorted_insertItem hl⟩
        rcases (mem_insertItem hl).mp hy with rfl | ⟨hy, -⟩
        · exact lt_of_le_of_ne (not_lt.mp hnlt) (Ne.symm hne)
        · exact hx y hy

/-- Write an item under its key. -/
def put (q : KeyedQueue key) (a : α) : KeyedQueue key :=
  ⟨insertItem key a q.items, sorted_insertItem q.sorted⟩

theorem mem_put {q : KeyedQueue key} {a b : α} : b ∈ q.put a ↔ b = a ∨ (b ∈ q ∧ key b ≠ key a) :=
  mem_insertItem q.sorted

/-- An item with a key above all others goes to the end. -/
theorem items_put_of_lt {q : KeyedQueue key} {a : α} (h : ∀ b ∈ q, key b < key a) :
    (q.put a).items = q.items ++ [a] := by
  have hlist : ∀ l : List α, (∀ b ∈ l, key b < key a) → insertItem key a l = l ++ [a] := by
    intro l hl
    induction l with
    | nil => rfl
    | cons b l ih =>
      rw [List.forall_mem_cons] at hl
      rw [insertItem, if_neg (not_lt.mpr hl.1.le), if_neg hl.1.ne', ih hl.2]
      rfl
  exact hlist q.items h

/-! ## Removing and reading -/

/-- Remove the item with a key. -/
def erase (q : KeyedQueue key) (k : κ) : KeyedQueue key :=
  ⟨q.items.filter fun a ↦ key a ≠ k, q.sorted.filter _⟩

theorem mem_erase {q : KeyedQueue key} {k : κ} {a : α} : a ∈ q.erase k ↔ a ∈ q ∧ key a ≠ k := by
  simp [mem_iff, erase]

/-- The item with the least key. -/
def peek (q : KeyedQueue key) : Option α := q.items.head?

theorem mem_of_peek {q : KeyedQueue key} {a : α} (h : q.peek = some a) : a ∈ q :=
  List.mem_of_mem_head? h

/-- Removing the first item leaves the rest. -/
theorem items_erase_peek {q : KeyedQueue key} {a : α} (h : q.peek = some a) :
    (q.erase (key a)).items = q.items.tail := by
  obtain ⟨l, hl⟩ := List.head?_eq_some_iff.mp h
  have hsorted := q.sorted
  rw [hl, List.pairwise_cons] at hsorted
  have hkeep : ∀ b ∈ l, decide (key b ≠ key a) = true :=
    fun b hb ↦ decide_eq_true (hsorted.1 b hb).ne'
  show q.items.filter (fun b ↦ key b ≠ key a) = q.items.tail
  rw [hl, List.filter_cons_of_neg (by simp), List.filter_eq_self.mpr hkeep, List.tail_cons]

theorem peek_eq_some_iff {q : KeyedQueue key} {a : α} :
    q.peek = some a ↔ a ∈ q ∧ ∀ b ∈ q, key a ≤ key b := by
  have hsorted := q.sorted
  rw [peek, mem_iff]
  cases hitems : q.items with
  | nil => simp
  | cons x l =>
    rw [hitems, List.pairwise_cons] at hsorted
    rw [List.head?_cons, Option.some_inj]
    constructor
    · rintro rfl
      refine ⟨List.mem_cons_self, fun b hb ↦ ?_⟩
      rw [mem_iff, hitems] at hb
      rcases List.mem_cons.mp hb with rfl | hb
      · exact le_refl _
      · exact (hsorted.1 b hb).le
    · rintro ⟨ha, hle⟩
      rcases List.mem_cons.mp ha with rfl | ha
      · rfl
      · have hx : x ∈ q := by
          rw [mem_iff, hitems]
          exact List.mem_cons_self
        exact absurd (hle x hx) (not_le.mpr (hsorted.1 a ha))

theorem peek_eq_none_iff {q : KeyedQueue key} : q.peek = none ↔ ∀ a, a ∉ q := by
  rw [peek, List.head?_eq_none_iff, List.eq_nil_iff_forall_not_mem]
  rfl

/-- The item with a key. -/
def get (q : KeyedQueue key) (k : κ) : Option α := q.items.find? fun a ↦ key a = k

/-- What was written last under a key is found under it. -/
theorem get_put_self (q : KeyedQueue key) (a : α) : (q.put a).get (key a) = some a := by
  have hlist : ∀ l : List α,
      (insertItem key a l).find? (fun b ↦ key b = key a) = some a := by
    intro l
    induction l with
    | nil => exact List.find?_cons_of_pos (by simp)
    | cons b l ih =>
      rw [insertItem]
      split
      · exact List.find?_cons_of_pos (by simp)
      · split
        · exact List.find?_cons_of_pos (by simp)
        · rename_i hne
          rw [List.find?_cons_of_neg (by simpa using fun heq ↦ hne heq.symm), ih]
  exact hlist q.items

/-! ## Other keys of the same order -/

section Recode

variable {β : Type u} {κ' : Type v} [LinearOrder κ'] {key' : β → κ'} {f : α → β}

/-- The queue with every item replaced; the new keys have the order of the old ones. -/
def recode (f : α → β) (hf : ∀ a b, key' (f a) < key' (f b) ↔ key a < key b) (q : KeyedQueue key) :
    KeyedQueue key' :=
  ⟨q.items.map f, List.pairwise_map.mpr (q.sorted.imp (hf _ _).mpr)⟩

variable (hf : ∀ a b, key' (f a) < key' (f b) ↔ key a < key b)

include hf

theorem key_eq_iff (a b : α) : key' (f a) = key' (f b) ↔ key a = key b := by
  rw [eq_iff_le_not_lt, eq_iff_le_not_lt, hf, ← not_lt, ← not_lt, hf]

theorem insertItem_map (a : α) (l : List α) :
    insertItem key' (f a) (l.map f) = (insertItem key a l).map f := by
  induction l with
  | nil => rfl
  | cons b l ih =>
    simp only [List.map_cons, insertItem, hf, key_eq_iff hf, ih]
    split
    · rfl
    · split <;> rfl

theorem recode_put (q : KeyedQueue key) (a : α) :
    (q.put a).recode f hf = (q.recode f hf).put (f a) :=
  ext (insertItem_map hf a q.items).symm

theorem recode_erase (q : KeyedQueue key) (a : α) :
    (q.erase (key a)).recode f hf = (q.recode f hf).erase (key' (f a)) := by
  refine ext ?_
  show (q.items.filter _).map f = (q.items.map f).filter _
  rw [List.filter_map]
  congr 1
  refine List.filter_congr fun b _ ↦ ?_
  simp [key_eq_iff hf]

theorem peek_recode (q : KeyedQueue key) : (q.recode f hf).peek = q.peek.map f := List.head?_map

end Recode

end KeyedQueue
