import TinyRollup.Lib.Bytes

/-!
# Binary formats

A format writes values as byte strings and reads a value off the front of a byte string.  Its one
law says that the two belong together: what is read is what was written there, and every value that
the format can write is read back, whatever comes after it.  So parts can be put one after the other
without a separator.

The formats of a structure are built from those of its fields with `pair`, `list` and `map`, and the
law comes with them.
-/

set_option autoImplicit false

universe u v

namespace ByteString

structure Codec (α : Type u) where
  encode : α → Bytes
  /-- The value at the front, and what comes after it. -/
  decode : Bytes → Option (α × Bytes)
  /-- The values that can be written. -/
  Valid : α → Prop
  decode_eq_some : ∀ {b a rest}, decode b = some (a, rest) ↔ Valid a ∧ b = encode a ++ rest

namespace Codec

section Laws

variable {α : Type u} (c : Codec α)

/-- Read a value and ignore the bytes after it. -/
def read (b : Bytes) : Option α := (c.decode b).map Prod.fst

variable {c}

theorem decode_encode {a : α} (h : c.Valid a) (rest : Bytes) :
    c.decode (c.encode a ++ rest) = some (a, rest) :=
  c.decode_eq_some.mpr ⟨h, rfl⟩

theorem read_eq_some {b : Bytes} {a : α} : c.read b = some a ↔ c.Valid a ∧ c.encode a <+: b := by
  rw [read, Option.map_eq_some_iff]
  constructor
  · rintro ⟨⟨_, rest⟩, hb, rfl⟩
    obtain ⟨hvalid, rfl⟩ := c.decode_eq_some.mp hb
    exact ⟨hvalid, List.prefix_append _ rest⟩
  · rintro ⟨hvalid, rest, rfl⟩
    exact ⟨(a, rest), decode_encode hvalid rest, rfl⟩

theorem read_encode {a : α} (h : c.Valid a) : c.read (c.encode a) = some a :=
  read_eq_some.mpr ⟨h, List.prefix_refl _⟩

end Laws

/-! ## Words -/

/-- Split off the next `n` bytes. -/
def takeFixed (n : ℕ) (b : Bytes) : Option (FixedBytes n × Bytes) :=
  if h : (b.take n).length = n then some (⟨b.take n, h⟩, b.drop n) else none

theorem takeFixed_eq_some {n : ℕ} {b rest : Bytes} {w : FixedBytes n} :
    takeFixed n b = some (w, rest) ↔ True ∧ b = w.toList ++ rest := by
  rw [takeFixed, true_and]
  constructor
  · intro h
    split at h
    · obtain ⟨rfl, rfl⟩ := Prod.mk.inj (Option.some_inj.mp h)
      exact (List.take_append_drop n b).symm
    · exact absurd h (by simp)
  · rintro rfl
    have htake : (w.toList ++ rest).take n = w.toList := List.take_left' w.toList_length
    have hdrop : (w.toList ++ rest).drop n = rest := List.drop_left' w.toList_length
    have hlen : ((w.toList ++ rest).take n).length = n := by rw [htake, w.toList_length]
    rw [dif_pos hlen]
    exact congrArg some (Prod.ext (List.Vector.toList_injective htake) hdrop)

/-- `[u8; n]`: the bytes as they are. -/
def fixed (n : ℕ) : Codec (FixedBytes n) where
  encode w := w.toList
  decode := takeFixed n
  Valid _ := True
  decode_eq_some := takeFixed_eq_some

/-! ## Formats from formats -/

section Map

variable {α : Type u} {β : Type v} (c : Codec α) (e : α ≃ β)

/-- The values of another type, written as their images. -/
def map : Codec β where
  encode b := c.encode (e.symm b)
  decode b := (c.decode b).map fun x ↦ (e x.1, x.2)
  Valid b := c.Valid (e.symm b)
  decode_eq_some := by
    intro b a rest
    rw [Option.map_eq_some_iff, ← c.decode_eq_some]
    constructor
    · rintro ⟨⟨x, rest⟩, hx, heq⟩
      obtain ⟨rfl, rfl⟩ := Prod.mk.inj heq
      rw [e.symm_apply_apply]
      exact hx
    · exact fun h ↦ ⟨_, h, by rw [e.apply_symm_apply]⟩

end Map

section Pair

variable {α : Type u} {β : Type v} (c : Codec α) (d : Codec β)

/-- One value after the other. -/
def pair : Codec (α × β) where
  encode x := c.encode x.1 ++ d.encode x.2
  decode b := (c.decode b).bind fun x ↦ (d.decode x.2).map fun y ↦ ((x.1, y.1), y.2)
  Valid x := c.Valid x.1 ∧ d.Valid x.2
  decode_eq_some := by
    rintro b ⟨x, y⟩ rest
    simp only [Option.bind_eq_some_iff, Option.map_eq_some_iff, Prod.exists, Prod.mk.injEq]
    constructor
    · rintro ⟨x', mid, hx, y', rest', hy, ⟨rfl, rfl⟩, rfl⟩
      obtain ⟨hvx, rfl⟩ := c.decode_eq_some.mp hx
      obtain ⟨hvy, rfl⟩ := d.decode_eq_some.mp hy
      exact ⟨⟨hvx, hvy⟩, (List.append_assoc _ _ _).symm⟩
    · rintro ⟨⟨hvx, hvy⟩, rfl⟩
      refine ⟨x, d.encode y ++ rest, ?_, y, rest, decode_encode hvy rest, ⟨rfl, rfl⟩, rfl⟩
      rw [List.append_assoc]
      exact decode_encode hvx _

end Pair

section Many

variable {α : Type u} (c : Codec α)

/-- The next `n` values. -/
def decodeMany : ℕ → Bytes → Option (List α × Bytes)
  | 0, b => some ([], b)
  | n + 1, b => (c.decode b).bind fun x ↦ (decodeMany n x.2).map fun y ↦ (x.1 :: y.1, y.2)

theorem decodeMany_eq_some : ∀ {n : ℕ} {b rest : Bytes} {l : List α},
    decodeMany c n b = some (l, rest) ↔
      (l.length = n ∧ ∀ a ∈ l, c.Valid a) ∧ b = l.flatMap c.encode ++ rest
  | 0, b, rest, l => by
    rw [decodeMany, Option.some_inj, Prod.mk.injEq, List.length_eq_zero_iff]
    constructor
    · rintro ⟨rfl, rfl⟩
      exact ⟨⟨rfl, by simp⟩, rfl⟩
    · rintro ⟨⟨rfl, -⟩, rfl⟩
      exact ⟨rfl, rfl⟩
  | n + 1, b, rest, l => by
    simp only [decodeMany, Option.bind_eq_some_iff, Option.map_eq_some_iff, Prod.exists,
      Prod.mk.injEq]
    constructor
    · rintro ⟨a, mid, ha, l', rest', hl, rfl, rfl⟩
      obtain ⟨hva, rfl⟩ := c.decode_eq_some.mp ha
      obtain ⟨⟨rfl, hvl⟩, rfl⟩ := decodeMany_eq_some.mp hl
      refine ⟨⟨rfl, List.forall_mem_cons.mpr ⟨hva, hvl⟩⟩, ?_⟩
      rw [List.flatMap_cons, List.append_assoc]
    · rintro ⟨⟨hlen, hvalid⟩, rfl⟩
      cases l with
      | nil => exact absurd hlen (by simp)
      | cons a l =>
        rw [List.forall_mem_cons] at hvalid
        refine ⟨a, l.flatMap c.encode ++ rest, ?_, l, rest, ?_, rfl, rfl⟩
        · rw [List.flatMap_cons, List.append_assoc]
          exact decode_encode hvalid.1 _
        · exact decodeMany_eq_some.mpr ⟨⟨Nat.succ.inj hlen, hvalid.2⟩, rfl⟩

end Many

/-! ## Words with a meaning -/

/-- A `u64` and its bytes, the least significant one first. -/
def wordEquiv : FixedBytes 8 ≃ UInt64 where
  toFun w := UInt64.ofNat (beNat w.toList.reverse)
  invFun x := ⟨(beBytes 8 x.toNat).reverse, by simp⟩
  left_inv w := by
    have hlen : w.toList.reverse.length = 8 := by simp
    have hlt : beNat w.toList.reverse < 2 ^ 64 := by
      have h := beNat_lt w.toList.reverse
      rwa [hlen] at h
    have hword := beBytes_beNat w.toList.reverse
    rw [hlen] at hword
    refine List.Vector.toList_injective ?_
    show (beBytes 8 (UInt64.ofNat (beNat w.toList.reverse)).toNat).reverse = w.toList
    rw [UInt64.toNat_ofNat_of_lt' hlt, hword, List.reverse_reverse]
  right_inv x := by
    have hlt : x.toNat < 256 ^ 8 := x.toNat_lt
    show UInt64.ofNat (beNat (beBytes 8 x.toNat).reverse.reverse) = x
    rw [List.reverse_reverse, beNat_beBytes, Nat.mod_eq_of_lt hlt, UInt64.ofNat_toNat]

/-- Eight bytes, the least significant one first. -/
def u64 : Codec UInt64 := (fixed 8).map wordEquiv

/-- The byte 1 or the byte 0. -/
def bool : Codec Bool where
  encode x := [if x then 1 else 0]
  decode b :=
    match b with
    | [] => none
    | x :: rest => if x = 0 then some (false, rest) else if x = 1 then some (true, rest) else none
  Valid _ := True
  decode_eq_some := by
    intro b a rest
    cases b with
    | nil => cases a <;> simp
    | cons x b =>
      by_cases h0 : x = 0
      · subst h0
        cases a <;> simp
      · by_cases h1 : x = 1
        · subst h1
          cases a <;> simp
        · cases a <;> simp [h0, h1]

/-- A byte as it is. -/
def byte : Codec UInt8 where
  encode x := [x]
  decode b :=
    match b with
    | [] => none
    | x :: rest => some (x, rest)
  Valid _ := True
  decode_eq_some := by
    intro b a rest
    cases b <;> simp

/-- The number of the values, and then the values. -/
def list {α : Type u} (c : Codec α) : Codec (List α) where
  encode l := u64.encode (UInt64.ofNat l.length) ++ l.flatMap c.encode
  decode b := (u64.decode b).bind fun x ↦ decodeMany c x.1.toNat x.2
  Valid l := l.length < 2 ^ 64 ∧ ∀ a ∈ l, c.Valid a
  decode_eq_some := by
    intro b l rest
    simp only [Option.bind_eq_some_iff, Prod.exists, decodeMany_eq_some]
    constructor
    · rintro ⟨n, mid, hn, ⟨hlen, hvalid⟩, rfl⟩
      obtain ⟨-, rfl⟩ := u64.decode_eq_some.mp hn
      refine ⟨⟨hlen ▸ n.toNat_lt, hvalid⟩, ?_⟩
      rw [hlen, UInt64.ofNat_toNat, List.append_assoc]
    · rintro ⟨⟨hlt, hvalid⟩, rfl⟩
      refine ⟨UInt64.ofNat l.length, l.flatMap c.encode ++ rest, ?_, ⟨?_, hvalid⟩, rfl⟩
      · rw [List.append_assoc]
        exact decode_encode trivial _
      · exact (UInt64.toNat_ofNat_of_lt' hlt).symm

end Codec

end ByteString
