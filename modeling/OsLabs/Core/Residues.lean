import Mathlib.Data.Nat.ModEq
import Mathlib.Data.Set.Function
import Mathlib.Order.Interval.Finset.Nat

/-! # Multiples modulo a number

Stepping through the residues of `n` by a stride meets each of them once exactly
when the stride is coprime to `n`.
-/

namespace OsLabs

variable {n a : Nat}

theorem injOn_mul_mod (h : a.Coprime n) : Set.InjOn (fun i => i * a % n) (Set.Iio n) := by
  intro i hi j hj heq
  have hgcd : n.gcd a = 1 := Nat.gcd_comm a n ▸ h
  have hmod : i ≡ j [MOD n] := Nat.ModEq.cancel_right_of_coprime hgcd heq
  rwa [Nat.ModEq, Nat.mod_eq_of_lt hi, Nat.mod_eq_of_lt hj] at hmod

theorem bijOn_mul_mod_iff (hn : 0 < n) :
    Set.BijOn (fun i => i * a % n) (Set.Iio n) (Set.Iio n) ↔ a.Coprime n := by
  constructor
  · intro h
    by_cases hone : n = 1
    · rw [hone]
      exact Nat.coprime_one_right a
    · obtain ⟨i, -, hi⟩ := h.surjOn (show 1 < n by omega)
      have hmod : a * i ≡ 1 [MOD n] := by
        rw [Nat.ModEq, Nat.mul_comm, Nat.mod_eq_of_lt (show 1 < n by omega)]
        exact hi
      exact Nat.coprime_of_mul_modEq_one i hmod
  · intro h
    have hmaps : Set.MapsTo (fun i => i * a % n) (Finset.range n) (Finset.range n) := by
      intro i _
      simpa using Nat.mod_lt (i * a) hn
    have hset : (Finset.range n : Set Nat) = Set.Iio n := by
      ext i
      simp
    have hinj := injOn_mul_mod h
    rw [← hset] at hinj ⊢
    exact ⟨hmaps, hinj, Finset.surjOn_of_injOn_of_card_le _ hmaps hinj (Nat.le_refl _)⟩

end OsLabs
