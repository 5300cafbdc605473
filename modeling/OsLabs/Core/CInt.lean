import Mathlib.Tactic.NormNum

/-! # Signed C integers

Values of a signed type are integers. `checked` is the arithmetic C defines: no
value where the result does not fit. `wrap` is the two's-complement result.
-/

namespace OsLabs.CInt

/-- `x` is a value of the signed type of `w` bits. -/
def Fits (w : Nat) (x : Int) : Prop := -2 ^ (w - 1) ≤ x ∧ x < 2 ^ (w - 1)

instance (w : Nat) (x : Int) : Decidable (Fits w x) :=
  inferInstanceAs (Decidable (-2 ^ (w - 1) ≤ x ∧ x < 2 ^ (w - 1)))

def checked (w : Nat) (x : Int) : Option Int := if Fits w x then some x else none

theorem checked_of_fits {w : Nat} {x : Int} (h : Fits w x) : checked w x = some x := by
  simp [checked, h]

theorem fits_32_iff {x : Int} : Fits 32 x ↔ -2147483648 ≤ x ∧ x < 2147483648 := by
  norm_num [Fits]

theorem fits_64_iff {x : Int} :
    Fits 64 x ↔ -9223372036854775808 ≤ x ∧ x < 9223372036854775808 := by
  norm_num [Fits]

/-- The two's-complement value of `w` bits congruent to `x`. -/
def wrap (w : Nat) (x : Int) : Int := Int.bmod x (2 ^ w)

theorem wrap_wrap_add (w : Nat) (x y : Int) : wrap w (wrap w x + y) = wrap w (x + y) := by
  simp [wrap]

theorem wrap_add_wrap (w : Nat) (x y : Int) : wrap w (x + wrap w y) = wrap w (x + y) := by
  rw [add_comm, wrap_wrap_add, add_comm]

theorem fits_wrap_64 (x : Int) : Fits 64 (wrap 64 x) := by
  have hl : -(2 ^ 64 : Nat) / 2 ≤ Int.bmod x (2 ^ 64) := Int.le_bmod (by norm_num)
  have hu : Int.bmod x (2 ^ 64) < ((2 ^ 64 : Nat) + 1) / 2 := Int.bmod_lt (by norm_num)
  norm_num at hl hu
  exact fits_64_iff.mpr ⟨hl, hu⟩

theorem wrap_of_fits {w : Nat} {x : Int} (hw : 0 < w) (h : Fits w x) : wrap w x = x := by
  obtain ⟨v, rfl⟩ : ∃ v, w = v + 1 := ⟨w - 1, by omega⟩
  obtain ⟨hl, hu⟩ := h
  rw [Nat.add_sub_cancel] at hl hu
  have hcast : ((2 ^ (v + 1) : Nat) : Int) = 2 * 2 ^ v := by
    rw [Nat.pow_succ]
    push_cast
    omega
  unfold wrap
  rw [Int.bmod_eq_of_le] <;> rw [hcast] <;> omega

end OsLabs.CInt
