import TinyRollup.Lib.Bytes

/-!
# Committing to a list by its item hashes

`hashList h items` hashes every item, concatenates the digests and hashes the result.  Where `h`
has no collision among the strings this hashes, the commitment determines the list
(`hashList_inj`); that is still so when only a part of the outer digest is compared, as long as
that part has no collision either, which is why the statement carries a function `cut` applied to
the digests before they are compared.
-/

set_option autoImplicit false

namespace HashList

open ByteString

variable (h : Bytes → FixedBytes 32)

/-- The digests of the items, one after the other. -/
def digests (items : List Bytes) : Bytes := (items.map fun b ↦ (h b).toList).flatten

def hashList (items : List Bytes) : FixedBytes 32 := h (digests h items)

/-- The strings `hashList` hashes. -/
def preimages (items : List Bytes) : Set Bytes := insert (digests h items) {b | b ∈ items}

theorem digests_mem_preimages (items : List Bytes) : digests h items ∈ preimages h items :=
  Set.mem_insert _ _

theorem item_mem_preimages {items : List Bytes} {b : Bytes} (hb : b ∈ items) :
    b ∈ preimages h items :=
  Set.mem_insert_of_mem _ hb

/-- Slices of a list of one item. -/
theorem preimages_of_infix_singleton {α : Type} {encode : α → Bytes} {x : α} {l : List α}
    (hl : l <:+: [x]) :
    preimages h (l.map encode) ⊆ {b | b ∈ [[], encode x, digests h [encode x]]} := by
  rcases (List.infix_singleton_iff l x).mp hl with rfl | rfl <;> rintro b (rfl | hb)
  · exact List.mem_cons_self
  · exact absurd hb List.not_mem_nil
  · exact List.mem_cons_of_mem _ (List.mem_cons_of_mem _ List.mem_cons_self)
  · rw [List.mem_singleton.mp hb]
    exact List.mem_cons_of_mem _ List.mem_cons_self

theorem digests_inj {items items' : List Bytes} (heq : digests h items = digests h items') :
    items.map h = items'.map h := by
  have hwidth : ∀ l : List Bytes, ∀ b ∈ l.map fun b ↦ (h b).toList, b.length = 32 := by
    intro l b hb
    obtain ⟨c, _, rfl⟩ := List.mem_map.mp hb
    exact (h c).toList_length
  have hlists := flatten_inj_of_length (by decide) (hwidth items) (hwidth items') heq
  refine List.map_injective_iff.mpr List.Vector.toList_injective ?_
  rw [List.map_map, List.map_map]
  exact hlists

/-- Where `h` is injective on the items, their digests determine them. -/
theorem map_injOn {S : Set Bytes} (hinj : Set.InjOn h S) : ∀ {items items' : List Bytes},
    (∀ b ∈ items, b ∈ S) → (∀ b ∈ items', b ∈ S) → items.map h = items'.map h → items = items'
  | [], [], _, _, _ => rfl
  | [], _ :: _, _, _, heq => by simp at heq
  | _ :: _, [], _, _, heq => by simp at heq
  | b :: items, b' :: items', hS, hS', heq => by
    rw [List.map_cons, List.map_cons, List.cons.injEq] at heq
    have hhead : b = b' := hinj (hS b (by simp)) (hS' b' (by simp)) heq.1
    have htail : items = items' := map_injOn hinj (fun c hc ↦ hS c (List.mem_cons_of_mem _ hc))
      (fun c hc ↦ hS' c (List.mem_cons_of_mem _ hc)) heq.2
    rw [hhead, htail]

/-- **The commitment determines the list**, also when the digests are compared after `cut`. -/
theorem hashList_inj {γ : Type*} {cut : FixedBytes 32 → γ} {S : Set Bytes}
    (hinj : Set.InjOn (cut ∘ h) S) {items items' : List Bytes} (hS : preimages h items ⊆ S)
    (hS' : preimages h items' ⊆ S) (heq : cut (hashList h items) = cut (hashList h items')) :
    items = items' := by
  have hdig : digests h items = digests h items' :=
    hinj (hS (digests_mem_preimages h _)) (hS' (digests_mem_preimages h _)) heq
  have hfull : Set.InjOn h S := fun a ha b hb hab ↦ hinj ha hb (congrArg cut hab)
  exact map_injOn h hfull (fun b hb ↦ hS (item_mem_preimages h hb))
    (fun b hb ↦ hS' (item_mem_preimages h hb)) (digests_inj h hdig)

end HashList
