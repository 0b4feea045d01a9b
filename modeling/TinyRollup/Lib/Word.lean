import TinyRollup.Lib.Bytes

/-!
# 256-bit words

`uint256` with the checked addition of a contract, and the bit masks that split a 32-byte word into
its first 28 and its last 4 bytes.

A word is read from its bytes by `ofBytes`.  Over the natural numbers the two masks are division
and remainder (`toNat_and_low`, `toNat_and_high`), which on a word put together from 28 and 4 bytes
gives back the pieces.
-/

set_option autoImplicit false

namespace Word

open ByteString

/-- `uint256`. -/
abbrev U256 := BitVec 256

/-- `a + b`, reverting on overflow. -/
def checkedAdd (a b : U256) : Option U256 :=
  if a.toNat + b.toNat < 2 ^ 256 then some (a + b) else none

theorem checkedAdd_eq_some {a b c : U256} :
    checkedAdd a b = some c ↔ a.toNat + b.toNat < 2 ^ 256 ∧ a + b = c := by
  rw [checkedAdd]
  split
  · rename_i h
    rw [Option.some_inj]
    exact ⟨fun hc ↦ ⟨h, hc⟩, And.right⟩
  · rename_i h
    exact iff_of_false (by simp) fun hc ↦ h hc.1

theorem toNat_of_checkedAdd {a b c : U256} (h : checkedAdd a b = some c) :
    c.toNat = a.toNat + b.toNat := by
  obtain ⟨hlt, rfl⟩ := checkedAdd_eq_some.mp h
  rw [BitVec.toNat_add, Nat.mod_eq_of_lt hlt]

/-- A 32-byte word as a number. -/
def ofBytes (w : FixedBytes 32) : U256 := BitVec.ofNat 256 (beNat w.toList)

theorem toNat_ofBytes (w : FixedBytes 32) : (ofBytes w).toNat = beNat w.toList := by
  have hlt : beNat w.toList < 256 ^ w.toList.length := beNat_lt _
  rw [w.toList_length] at hlt
  rw [ofBytes, BitVec.toNat_ofNat, Nat.mod_eq_of_lt (by simpa using hlt)]

/-- The mask of the last four bytes. -/
def lowMask : U256 := 0xFFFFFFFF

/-- The mask of the first 28 bytes.  The contract writes it with 72 digits instead of 64, eight `F`
too many at the front; this is its value modulo `2 ^ 256`. -/
def highMask : U256 := 0xFFFFFFFFFFFFFFFFFFFFFFFFFFFFFFFFFFFFFFFFFFFFFFFFFFFFFFFF00000000

theorem toNat_and_low (x : U256) : (x &&& lowMask).toNat = x.toNat % 2 ^ 32 := by
  have hmask : lowMask.toNat = 2 ^ 32 - 1 := by decide
  rw [BitVec.toNat_and, hmask, Nat.and_two_pow_sub_one_eq_mod]

theorem and_allOnes_shiftLeft {w : ℕ} (x : BitVec w) (n : ℕ) :
    x &&& (BitVec.allOnes w <<< n) = (x >>> n) <<< n := by
  ext i hi
  rw [BitVec.getElem_and, BitVec.getElem_shiftLeft, BitVec.getElem_shiftLeft]
  by_cases h : i < n
  · simp [h]
  · have hadd : n + (i - n) = i := by omega
    rw [BitVec.getElem_ushiftRight, hadd]
    simp [h, BitVec.getLsbD_eq_getElem hi]

theorem toNat_and_high (x : U256) : (x &&& highMask).toNat = x.toNat / 2 ^ 32 * 2 ^ 32 := by
  have hle : x.toNat / 2 ^ 32 * 2 ^ 32 < 2 ^ 256 :=
    Nat.lt_of_le_of_lt (Nat.div_mul_le_self _ _) x.isLt
  have hmask : highMask = BitVec.allOnes 256 <<< 32 := by decide
  rw [hmask, and_allOnes_shiftLeft, BitVec.toNat_shiftLeft, BitVec.toNat_ushiftRight,
    Nat.shiftRight_eq_div_pow, Nat.shiftLeft_eq, Nat.mod_eq_of_lt hle]

/-- The value of a word in two parts. -/
theorem beNat_split (w : FixedBytes 32) :
    beNat w.toList = beNat (w.toList.take 28) * 2 ^ 32 + beNat (w.toList.drop 28) := by
  have hlen : (w.toList.drop 28).length = 4 := by simp
  conv_lhs => rw [← List.take_append_drop 28 w.toList, beNat_append, hlen]
  rfl

theorem beNat_drop_lt (w : FixedBytes 32) : beNat (w.toList.drop 28) < 2 ^ 32 := by
  have hlt := beNat_lt (w.toList.drop 28)
  rw [List.length_drop, w.toList_length] at hlt
  exact hlt

/-- The low mask keeps the last four bytes. -/
theorem toNat_low (w : FixedBytes 32) :
    (ofBytes w &&& lowMask).toNat = beNat (w.toList.drop 28) := by
  have hlt := beNat_drop_lt w
  rw [toNat_and_low, toNat_ofBytes, beNat_split]
  omega

/-- The high mask keeps the first 28 bytes. -/
theorem high_eq_iff (w v : FixedBytes 32) :
    ofBytes w &&& highMask = ofBytes v &&& highMask ↔ w.toList.take 28 = v.toList.take 28 := by
  have hw := beNat_drop_lt w
  have hv := beNat_drop_lt v
  have hlen : (w.toList.take 28).length = (v.toList.take 28).length := by simp
  rw [← BitVec.toNat_inj, toNat_and_high, toNat_and_high, toNat_ofBytes, toNat_ofBytes,
    beNat_split w, beNat_split v]
  refine ⟨fun h ↦ beNat_inj hlen ?_, fun h ↦ ?_⟩
  · omega
  · rw [h]
    omega

end Word
