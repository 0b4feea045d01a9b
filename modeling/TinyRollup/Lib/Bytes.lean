import Mathlib

/-!
# Byte strings

Byte strings, the fixed-width ones `[u8; n]` among them, and the big-endian encoding of a natural
number in a fixed number of bytes.  What the rest of the library needs of an encoding is that it
can be undone:

* `beNat_beBytes` and `beBytes_beNat` say that the two readings of a word are inverse to each
  other, and `beBytes_inj` that a word determines its value;
* `append_inj_of_length` and `flatten_inj_of_length` split a concatenation of pieces of a known
  width back into the pieces.
-/

set_option autoImplicit false

namespace ByteString

/-- A byte string of any length. -/
abbrev Bytes := List UInt8

/-- `[u8; n]`. -/
abbrev FixedBytes (n : ℕ) := List.Vector UInt8 n

instance instFintypeUInt8 : Fintype UInt8 :=
  Fintype.ofEquiv (Fin 256)
    { toFun := UInt8.ofFin
      invFun := UInt8.toFin
      left_inv := fun _ ↦ rfl
      right_inv := fun _ ↦ rfl }

/-- `[0u8; n]`. -/
def zeros (n : ℕ) : FixedBytes n := ⟨List.replicate n 0, by simp⟩

@[simp] theorem toList_zeros (n : ℕ) : (zeros n).toList = List.replicate n 0 := rfl

/-! ## Big-endian words -/

/-- The last `w` base-256 digits of `x`, most significant first. -/
def beBytes : ℕ → ℕ → Bytes
  | 0, _ => []
  | w + 1, x => beBytes w (x / 256) ++ [UInt8.ofNat x]

/-- The number a byte string spells, most significant byte first. -/
def beNat (b : Bytes) : ℕ := b.foldl (fun n x ↦ n * 256 + x.toNat) 0

@[simp] theorem length_beBytes (w x : ℕ) : (beBytes w x).length = w := by
  induction w generalizing x with
  | zero => rfl
  | succ w ih => simp [beBytes, ih]

@[simp] theorem beNat_nil : beNat [] = 0 := rfl

theorem beNat_concat (b : Bytes) (x : UInt8) : beNat (b ++ [x]) = beNat b * 256 + x.toNat := by
  simp [beNat]

theorem beNat_append (a b : Bytes) : beNat (a ++ b) = beNat a * 256 ^ b.length + beNat b := by
  induction b using List.reverseRecOn with
  | nil => simp
  | append_singleton b x ih =>
    rw [← List.append_assoc, beNat_concat, ih, beNat_concat, List.length_append,
      List.length_singleton, pow_succ, Nat.add_mul, Nat.mul_assoc, Nat.add_assoc]

theorem beNat_lt (b : Bytes) : beNat b < 256 ^ b.length := by
  induction b using List.reverseRecOn with
  | nil => simp
  | append_singleton b x ih =>
    have hx : x.toNat < 256 := x.toNat_lt
    rw [beNat_concat, List.length_append, List.length_singleton, pow_succ]
    omega

theorem beNat_beBytes (w x : ℕ) : beNat (beBytes w x) = x % 256 ^ w := by
  induction w generalizing x with
  | zero => simp [beBytes, Nat.mod_one]
  | succ w ih =>
    have hx : (UInt8.ofNat x).toNat = x % 256 := by simp
    rw [beBytes, beNat_concat, ih, hx, pow_succ', Nat.mod_mul]
    omega

theorem beBytes_beNat (b : Bytes) : beBytes b.length (beNat b) = b := by
  induction b using List.reverseRecOn with
  | nil => rfl
  | append_singleton b x ih =>
    have hx : x.toNat < 256 := x.toNat_lt
    have hdiv : (beNat b * 256 + x.toNat) / 256 = beNat b := by omega
    have hlow : UInt8.ofNat (beNat b * 256 + x.toNat) = x := by
      refine UInt8.toNat_inj.mp ?_
      simp only [UInt8.toNat_ofNat']
      omega
    rw [List.length_append, List.length_singleton, beNat_concat, beBytes, hdiv, ih, hlow]

/-- A word determines every value that fits in it. -/
theorem beBytes_inj {w x y : ℕ} (hx : x < 256 ^ w) (hy : y < 256 ^ w)
    (h : beBytes w x = beBytes w y) : x = y := by
  have hn : x % 256 ^ w = y % 256 ^ w := by rw [← beNat_beBytes, ← beNat_beBytes, h]
  rwa [Nat.mod_eq_of_lt hx, Nat.mod_eq_of_lt hy] at hn

theorem beNat_inj {a b : Bytes} (hlen : a.length = b.length) (h : beNat a = beNat b) : a = b := by
  rw [← beBytes_beNat a, ← beBytes_beNat b, hlen, h]

/-- Words of one width are ordered like their values. -/
theorem lt_iff_beNat_lt : ∀ {a b : Bytes}, a.length = b.length → (a < b ↔ beNat a < beNat b)
  | [], [], _ => by simp
  | [], _ :: _, h => absurd h (by simp)
  | _ :: _, [], h => absurd h (by simp)
  | x :: a, y :: b, h => by
    have hlen : a.length = b.length := Nat.succ.inj h
    have ha := beNat_lt a
    have hb := beNat_lt b
    have hx : beNat (x :: a) = x.toNat * 256 ^ b.length + beNat a := by
      rw [← hlen]
      exact (beNat_append [x] a).trans (by simp [beNat])
    have hy : beNat (y :: b) = y.toNat * 256 ^ b.length + beNat b :=
      (beNat_append [y] b).trans (by simp [beNat])
    rw [List.cons_lt_cons_iff, lt_iff_beNat_lt hlen, hx, hy, UInt8.lt_iff_toNat_lt,
      ← UInt8.toNat_inj]
    rw [hlen] at ha
    constructor
    · rintro (hlt | ⟨heq, hlt⟩)
      · have hstep := Nat.mul_le_mul_right (256 ^ b.length) hlt
        rw [Nat.succ_mul] at hstep
        omega
      · rw [heq]
        omega
    · intro hlt
      rcases Nat.lt_trichotomy x.toNat y.toNat with hxy | hxy | hxy
      · exact Or.inl hxy
      · rw [hxy] at hlt
        exact Or.inr ⟨hxy, by omega⟩
      · have hstep := Nat.mul_le_mul_right (256 ^ b.length) hxy
        rw [Nat.succ_mul] at hstep
        omega

/-- `to_be_bytes`: the word as an array. -/
def beWord (w x : ℕ) : FixedBytes w := ⟨beBytes w x, length_beBytes w x⟩

@[simp] theorem toList_beWord (w x : ℕ) : (beWord w x).toList = beBytes w x := rfl

theorem beWord_inj {w x y : ℕ} (hx : x < 256 ^ w) (hy : y < 256 ^ w) (h : beWord w x = beWord w y) :
    x = y :=
  beBytes_inj hx hy (congrArg List.Vector.toList h)

/-! ## Taking a concatenation apart -/

theorem append_inj_of_length {a b c d : Bytes} (hlen : a.length = c.length)
    (h : a ++ b = c ++ d) : a = c ∧ b = d :=
  List.append_inj h hlen

/-- A concatenation of pieces of one positive width determines the pieces. -/
theorem flatten_inj_of_length {n : ℕ} (hn : 0 < n) :
    ∀ {l m : List Bytes}, (∀ b ∈ l, b.length = n) → (∀ b ∈ m, b.length = n) →
      l.flatten = m.flatten → l = m
  | [], [], _, _, _ => rfl
  | [], b :: m, _, hm, h => by
    have hb : b.length = n := hm b (by simp)
    have hlen := congrArg List.length h
    simp only [List.flatten_nil, List.length_nil, List.flatten_cons, List.length_append] at hlen
    omega
  | a :: l, [], hl, _, h => by
    have ha : a.length = n := hl a (by simp)
    have hlen := congrArg List.length h
    simp only [List.flatten_nil, List.length_nil, List.flatten_cons, List.length_append] at hlen
    omega
  | a :: l, b :: m, hl, hm, h => by
    have ha : a.length = n := hl a (by simp)
    have hb : b.length = n := hm b (by simp)
    rw [List.flatten_cons, List.flatten_cons] at h
    obtain ⟨hab, hrest⟩ := append_inj_of_length (ha.trans hb.symm) h
    have htail : l = m := flatten_inj_of_length hn (fun c hc ↦ hl c (List.mem_cons_of_mem _ hc))
      (fun c hc ↦ hm c (List.mem_cons_of_mem _ hc)) hrest
    rw [hab, htail]

end ByteString
