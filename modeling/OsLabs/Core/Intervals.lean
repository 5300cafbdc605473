import Mathlib.Data.List.Range
import Mathlib.Tactic.Common
import Mathlib.Order.Monotone.Basic

/-! # Consecutive ranges

Ranges cut at the points of a monotone sequence tile the interval between its
ends: written one after the other they are the interval itself, so every number
of it lies in exactly one range, once.
-/

namespace OsLabs.Intervals

/-- The numbers from `a` up to and not including `b`. -/
def interval (a b : Nat) : List Nat := List.range' a (b - a)

@[simp] theorem mem_interval {a b x : Nat} : x ∈ interval a b ↔ a ≤ x ∧ x < b := by
  simp only [interval, List.mem_range'_1]
  omega

@[simp] theorem interval_self (a : Nat) : interval a a = [] := by simp [interval]

theorem interval_nodup (a b : Nat) : (interval a b).Nodup := List.nodup_range'

theorem interval_append {a b c : Nat} (hab : a ≤ b) (hbc : b ≤ c) :
    interval a b ++ interval b c = interval a c := by
  obtain ⟨m, rfl⟩ := Nat.exists_eq_add_of_le hab
  obtain ⟨n, rfl⟩ := Nat.exists_eq_add_of_le hbc
  have hm : a + m - a = m := by omega
  have hn : a + m + n - (a + m) = n := by omega
  have hmn : a + m + n - a = m + n := by omega
  simp only [interval, hm, hn, hmn, List.range'_append_1]

/-- Consecutive ranges concatenate to the range between the outer cuts. -/
theorem flatMap_interval {cut : Nat → Nat} (hcut : Monotone cut) (n : Nat) :
    (List.range n).flatMap (fun i => interval (cut i) (cut (i + 1))) =
      interval (cut 0) (cut n) := by
  induction n with
  | zero => simp
  | succ n ih =>
      rw [List.range_succ, List.flatMap_append, ih, List.flatMap_singleton]
      exact interval_append (hcut (Nat.zero_le n)) (hcut (Nat.le_succ n))

/-- Every number between the outer cuts lies in exactly one range. -/
theorem existsUnique_interval {cut : Nat → Nat} (hcut : Monotone cut) {n x : Nat}
    (hlow : cut 0 ≤ x) (hhigh : x < cut n) :
    ∃! i, i < n ∧ x ∈ interval (cut i) (cut (i + 1)) := by
  have hmem : x ∈ interval (cut 0) (cut n) := mem_interval.mpr ⟨hlow, hhigh⟩
  rw [← flatMap_interval hcut n] at hmem
  obtain ⟨i, hi, hx⟩ := List.mem_flatMap.mp hmem
  refine ⟨i, ⟨List.mem_range.mp hi, hx⟩, ?_⟩
  rintro j ⟨_, hy⟩
  obtain ⟨hi₁, hi₂⟩ := mem_interval.mp hx
  obtain ⟨hj₁, hj₂⟩ := mem_interval.mp hy
  rcases Nat.lt_trichotomy i j with hij | hij | hij
  · have := hcut (show i + 1 ≤ j from hij)
    omega
  · exact hij.symm
  · have := hcut (show j + 1 ≤ i from hij)
    omega

/-- Indices `p * n + t` of a two-level numbering run through `0 .. m * n - 1`. -/
theorem flatten_range_mul {α : Type} (m n : Nat) (f : Nat → α) :
    ((List.range m).map fun p => (List.range n).map fun t => f (p * n + t)).flatten =
      (List.range (m * n)).map f := by
  induction m with
  | zero => simp
  | succ m ih =>
      rw [List.range_succ, List.map_append, List.flatten_append, ih, Nat.succ_mul, List.range_add]
      simp [Function.comp_def]

/-! ## Equal slices with a longer last one -/

/-- Cut points of `n` slices of `size`: multiples of `size / n`, the last at `size`. -/
def cut (size n i : Nat) : Nat := if n ≤ i then size else i * (size / n)

theorem cut_of_lt {size n i : Nat} (h : i < n) : cut size n i = i * (size / n) := by
  simp [cut, Nat.not_le.mpr h]

theorem cut_of_le {size n i : Nat} (h : n ≤ i) : cut size n i = size := by
  simp [cut, h]

theorem cut_zero {size n : Nat} (h : 0 < n) : cut size n 0 = 0 := by
  simp [cut_of_lt h]

theorem mul_div_le (size : Nat) {n i : Nat} (h : i ≤ n) : i * (size / n) ≤ size :=
  Nat.le_trans (Nat.mul_le_mul_right _ h) (Nat.mul_div_le size n)

theorem cut_le (size n i : Nat) : cut size n i ≤ size := by
  rcases Nat.lt_or_ge i n with h | h
  · rw [cut_of_lt h]
    exact mul_div_le size (Nat.le_of_lt h)
  · rw [cut_of_le h]

theorem cut_monotone (size n : Nat) : Monotone (cut size n) := by
  apply monotone_nat_of_le_succ
  intro i
  rcases Nat.lt_or_ge (i + 1) n with h | h
  · rw [cut_of_lt h, cut_of_lt (by omega)]
    exact Nat.mul_le_mul_right _ (Nat.le_succ i)
  · rw [cut_of_le h]
    exact cut_le size n i

/-- The slices tile `[0, size)`. -/
theorem existsUnique_slice {size n x : Nat} (hn : 0 < n) (hx : x < size) :
    ∃! i, i < n ∧ x ∈ interval (cut size n i) (cut size n (i + 1)) :=
  existsUnique_interval (cut_monotone size n) (by rw [cut_zero hn]; exact Nat.zero_le x)
    (by rwa [cut_of_le (Nat.le_refl n)])

end OsLabs.Intervals
