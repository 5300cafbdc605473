import Mathlib.Data.List.Perm.Basic
import Mathlib.Data.Nat.Prime.Basic
import OsLabs.Core.CInt
import OsLabs.Core.Residues

/-! # Reading all pages with a stride

`main` reads the pages of a file twice: in order, and by steps of half their number
and one. Indices are of type `size_t`, offsets of type `off_t`.
-/

namespace OsLabs.StorageFs

open CInt

/-- `size_t idx = (i * (npages / 2 + 1)) % npages;` -/
def stridedIdx (npages i : Nat) : Nat := i * ((npages / 2 + 1) % 2 ^ 64) % 2 ^ 64 % npages

/-- `(off_t)(idx * page_size)` -/
def pageOffset (pageSize idx : Nat) : Int := wrap 64 (idx * pageSize % 2 ^ 64 : Nat)

def sequentialOffsets (pageSize npages : Nat) : List Int :=
  (List.range npages).map (pageOffset pageSize)

def stridedPages (npages : Nat) : List Nat := (List.range npages).map (stridedIdx npages)

def stridedOffsets (pageSize npages : Nat) : List Int :=
  (stridedPages npages).map (pageOffset pageSize)

variable {npages : Nat}

/-- No index computation wraps around. -/
theorem stridedIdx_eq (h : npages * npages < 2 ^ 64) {i : Nat} (hi : i < npages) :
    stridedIdx npages i = i * (npages / 2 + 1) % npages := by
  have hstride : npages / 2 + 1 ≤ npages := by omega
  have hsmall : npages / 2 + 1 < 2 ^ 64 := by
    have hself : npages ≤ npages * npages := Nat.le_mul_self npages
    omega
  have hproduct : i * (npages / 2 + 1) < 2 ^ 64 :=
    Nat.lt_of_le_of_lt (Nat.mul_le_mul (Nat.le_of_lt hi) hstride) h
  rw [stridedIdx, Nat.mod_eq_of_lt hsmall, Nat.mod_eq_of_lt hproduct]

/-- Twice the stride is one or two more than the number of pages. -/
theorem coprime_stride_iff (npages : Nat) :
    (npages / 2 + 1).Coprime npages ↔ npages % 4 ≠ 2 := by
  have hleft : (npages / 2 + 1).gcd npages ∣ 2 * (npages / 2 + 1) :=
    (Nat.gcd_dvd_left _ _).mul_left 2
  have hright : (npages / 2 + 1).gcd npages ∣ npages := Nat.gcd_dvd_right _ _
  have hdiff := Nat.dvd_sub hleft hright
  constructor
  · intro h hmod
    have htwo : 2 ∣ (npages / 2 + 1).gcd npages := Nat.dvd_gcd (by omega) (by omega)
    rw [Nat.Coprime.gcd_eq_one h] at htwo
    omega
  · intro hmod
    by_cases hodd : npages % 2 = 1
    · have hone : 2 * (npages / 2 + 1) - npages = 1 := by omega
      rw [hone] at hdiff
      exact Nat.dvd_one.mp hdiff
    · have htwo : 2 * (npages / 2 + 1) - npages = 2 := by omega
      rw [htwo] at hdiff
      rcases (Nat.dvd_prime Nat.prime_two).mp hdiff with hone | heven
      · exact hone
      · have hstride := Nat.gcd_dvd_left (npages / 2 + 1) npages
        rw [heven] at hstride
        omega

theorem bijOn_stridedIdx_iff (hpos : 1 ≤ npages) (h : npages * npages < 2 ^ 64) :
    Set.BijOn (stridedIdx npages) (Set.Iio npages) (Set.Iio npages) ↔ npages % 4 ≠ 2 := by
  have heq : Set.EqOn (stridedIdx npages) (fun i => i * (npages / 2 + 1) % npages) (Set.Iio npages) :=
    fun i hi => stridedIdx_eq h hi
  rw [heq.bijOn_iff, bijOn_mul_mod_iff hpos, coprime_stride_iff]

theorem stridedPages_perm
    (hbij : Set.BijOn (stridedIdx npages) (Set.Iio npages) (Set.Iio npages)) :
    (stridedPages npages).Perm (List.range npages) := by
  have hnodup : (stridedPages npages).Nodup := by
    apply List.Nodup.map_on _ List.nodup_range
    intro i hi j hj heq
    exact hbij.injOn (List.mem_range.mp hi) (List.mem_range.mp hj) heq
  apply (List.perm_ext_iff_of_nodup hnodup List.nodup_range).mpr
  intro p
  simp only [stridedPages, List.mem_map, List.mem_range]
  constructor
  · rintro ⟨i, hi, rfl⟩
    exact hbij.mapsTo hi
  · intro hp
    exact hbij.surjOn hp

end OsLabs.StorageFs
