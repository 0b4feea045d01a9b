import Mathlib

/-!
# Checked and saturating `u64` arithmetic

The operations of the same names on `u64`, and what each of them is over the natural numbers.  The
plain `+` of `UInt64` wraps, as `+` on `u64` does in a release build.
-/

set_option autoImplicit false

namespace UInt64

/-- The number is a `u64`. -/
def Fits (n : ℕ) : Prop := n < 2 ^ 64

instance (n : ℕ) : Decidable (Fits n) := inferInstanceAs (Decidable (_ < _))

def checkedAdd (a b : UInt64) : Option UInt64 :=
  if Fits (a.toNat + b.toNat) then some (a + b) else none

def saturatingSub (a b : UInt64) : UInt64 := if b ≤ a then a - b else 0

theorem fits_toNat (a : UInt64) : Fits a.toNat := a.toNat_lt

theorem Fits.mono {m n : ℕ} (h : Fits n) (hmn : m ≤ n) : Fits m := Nat.lt_of_le_of_lt hmn h

theorem toNat_add_of_fits {a b : UInt64} (h : Fits (a.toNat + b.toNat)) :
    (a + b).toNat = a.toNat + b.toNat := by
  rw [UInt64.toNat_add, Nat.mod_eq_of_lt h]

theorem checkedAdd_of_fits {a b : UInt64} (h : Fits (a.toNat + b.toNat)) :
    a.checkedAdd b = some (a + b) :=
  if_pos h

theorem checkedAdd_of_not_fits {a b : UInt64} (h : ¬ Fits (a.toNat + b.toNat)) :
    a.checkedAdd b = none :=
  if_neg h

theorem toNat_saturatingSub (a b : UInt64) :
    (a.saturatingSub b).toNat = a.toNat - min b.toNat a.toNat := by
  rw [saturatingSub]
  split
  · rename_i h
    rw [UInt64.toNat_sub_of_le a b h, Nat.min_eq_left (UInt64.le_iff_toNat_le.mp h)]
  · rename_i h
    have hlt : a.toNat < b.toNat := by
      rw [UInt64.le_iff_toNat_le] at h
      exact Nat.not_le.mp h
    rw [Nat.min_eq_right (Nat.le_of_lt hlt), Nat.sub_self]
    rfl

/-- The wrapping increment is exact below the largest value. -/
theorem toNat_add_one {a : UInt64} (h : Fits (a.toNat + 1)) : (a + 1).toNat = a.toNat + 1 :=
  toNat_add_of_fits h

/-- The wrapping increment is exact below the largest value only. -/
theorem toNat_add_one_iff {a : UInt64} : (a + 1).toNat = a.toNat + 1 ↔ Fits (a.toNat + 1) :=
  ⟨fun h ↦ h ▸ fits_toNat _, toNat_add_one⟩

/-- At the largest value the increment wraps to zero. -/
theorem add_one_of_not_fits {a : UInt64} (h : ¬ Fits (a.toNat + 1)) : a + 1 = 0 := by
  have ha : a.toNat < 2 ^ 64 := a.toNat_lt
  have hmax : a.toNat + 1 = 2 ^ 64 := by
    rw [Fits, Nat.not_lt] at h
    exact Nat.le_antisymm ha h
  refine UInt64.toNat_inj.mp ?_
  rw [UInt64.toNat_add, UInt64.toNat_one, hmax]
  rfl

theorem lt_add_one_iff {a : UInt64} : a < a + 1 ↔ Fits (a.toNat + 1) := by
  rw [UInt64.lt_iff_toNat_lt]
  by_cases h : Fits (a.toNat + 1)
  · rw [toNat_add_one h]
    exact iff_of_true (Nat.lt_succ_self _) h
  · rw [add_one_of_not_fits h]
    exact iff_of_false (Nat.not_lt_zero _) h

theorem add_one_ne (a : UInt64) : a + 1 ≠ a := by
  intro h
  by_cases hfits : Fits (a.toNat + 1)
  · have hlt := lt_add_one_iff.mpr hfits
    rw [h] at hlt
    exact absurd hlt (UInt64.lt_irrefl a)
  · rw [add_one_of_not_fits hfits] at h
    rw [← h] at hfits
    exact hfits (by decide)

end UInt64
