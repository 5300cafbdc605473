import Mathlib.Algebra.BigOperators.Group.Finset.Basic
import Mathlib.Algebra.Order.BigOperators.Group.Finset
import Mathlib.Data.Fintype.BigOperators
import Mathlib.Tactic.Abel

/-! # Threads at their program points

Quantities summed over all threads, where a step moves one of them, and the
mutual exclusion a lock gives to the threads in their critical sections.
-/

namespace OsLabs.Threads

/-! ## Totals -/

section Total

variable {T L : Type} [Fintype T]

def total (f : L → Nat) (pc : T → L) : Nat := ∑ t, f (pc t)

theorem total_mono {f g : L → Nat} {pc : T → L} (h : ∀ t, f (pc t) ≤ g (pc t)) :
    total f pc ≤ total g pc :=
  Finset.sum_le_sum fun t _ => h t

theorem le_total (f : L → Nat) (pc : T → L) (t : T) : f (pc t) ≤ total f pc :=
  Finset.single_le_sum (f := fun t => f (pc t)) (fun _ _ => Nat.zero_le _) (Finset.mem_univ t)

theorem exists_of_total_pos {f : L → Nat} {pc : T → L} (h : 0 < total f pc) : ∃ t, 0 < f (pc t) := by
  obtain ⟨t, _, ht⟩ := (Finset.sum_pos_iff_of_nonneg fun t _ => Nat.zero_le (f (pc t))).mp h
  exact ⟨t, ht⟩

theorem total_lt {f g : L → Nat} {pc : T → L} (h : ∀ t, f (pc t) ≤ g (pc t)) {t : T}
    (ht : f (pc t) < g (pc t)) : total f pc < total g pc :=
  Finset.sum_lt_sum (fun u _ => h u) ⟨t, Finset.mem_univ t, ht⟩

theorem total_congr {f g : L → Nat} {pc : T → L} (h : ∀ t, f (pc t) = g (pc t)) :
    total f pc = total g pc :=
  Finset.sum_congr rfl fun t _ => h t

theorem total_add (f g : L → Nat) (pc : T → L) :
    total (fun p => f p + g p) pc = total f pc + total g pc :=
  Finset.sum_add_distrib

theorem total_const {f : L → Nat} {pc : T → L} {n : Nat} (h : ∀ t, f (pc t) = n) :
    total f pc = Fintype.card T * n := by
  rw [total, Finset.sum_congr rfl fun t _ => h t]
  simp

variable [DecidableEq T]

theorem total_update (f : L → Nat) (pc : T → L) (t : T) (p : L) :
    total f (Function.update pc t p) + f (pc t) = total f pc + f p := by
  have hrest : ∑ u ∈ Finset.univ.erase t, f (Function.update pc t p u) =
      ∑ u ∈ Finset.univ.erase t, f (pc u) := by
    apply Finset.sum_congr rfl
    intro u hu
    rw [Function.update_of_ne (Finset.ne_of_mem_erase hu)]
  have hnew := Finset.add_sum_erase Finset.univ (fun u => f (Function.update pc t p u))
    (Finset.mem_univ t)
  have hold := Finset.add_sum_erase Finset.univ (fun u => f (pc u)) (Finset.mem_univ t)
  simp only [Function.update_self] at hnew
  rw [total, total, ← hnew, ← hold, hrest]
  omega

/-- A step of a thread that does not count. -/
theorem total_keep {f : L → Nat} {pc : T → L} {t : T} {p : L} (h : f p = f (pc t)) :
    total f (Function.update pc t p) = total f pc := by
  have hupdate := total_update f pc t p
  omega

/-- A step of a thread that counts once. -/
theorem total_succ {f : L → Nat} {pc : T → L} {t : T} {p : L} (h : f p = f (pc t) + 1) :
    total f (Function.update pc t p) = total f pc + 1 := by
  have hupdate := total_update f pc t p
  omega

/-- All threads but one count at most once. -/
theorem total_le_pred {f : L → Nat} {pc : T → L} (h : ∀ t, f (pc t) ≤ 1) {t : T}
    (ht : f (pc t) = 0) : total f pc ≤ Fintype.card T - 1 := by
  have hsplit := Finset.add_sum_erase Finset.univ (fun u => f (pc u)) (Finset.mem_univ t)
  have hrest : ∑ u ∈ Finset.univ.erase t, f (pc u) ≤ ∑ _u ∈ Finset.univ.erase t, 1 :=
    Finset.sum_le_sum fun u _ => h u
  rw [← Finset.card_eq_sum_ones, Finset.card_erase_of_mem (Finset.mem_univ t),
    Finset.card_univ] at hrest
  rw [total, ← hsplit, ht]
  omega

/-- A step that brings a thread nearer to its end. -/
theorem total_update_lt {f : L → Nat} {pc : T → L} {t : T} {p : L} (h : f p < f (pc t)) :
    total f (Function.update pc t p) < total f pc := by
  have hupdate := total_update f pc t p
  omega

/-- Where the other threads have counted the same, one thread makes the difference. -/
theorem total_add_of_others {f g : L → Nat} {pc : T → L} {t : T}
    (h : ∀ u, u ≠ t → f (pc u) = g (pc u)) :
    total f pc + g (pc t) = total g pc + f (pc t) := by
  have hf := Finset.add_sum_erase Finset.univ (fun u => f (pc u)) (Finset.mem_univ t)
  have hg := Finset.add_sum_erase Finset.univ (fun u => g (pc u)) (Finset.mem_univ t)
  have hrest : ∑ u ∈ Finset.univ.erase t, f (pc u) = ∑ u ∈ Finset.univ.erase t, g (pc u) :=
    Finset.sum_congr rfl fun u hu => h u (Finset.ne_of_mem_erase hu)
  rw [total, total, ← hf, ← hg, hrest]
  omega

/-- The sum of a quantity that may differ from thread to thread falls with one
of its terms. -/
theorem sum_update_lt {f : T → L → Nat} {pc : T → L} {t : T} {p : L} (h : f t p < f t (pc t)) :
    ∑ u, f u (Function.update pc t p u) < ∑ u, f u (pc u) := by
  apply Finset.sum_lt_sum
  · intro u _
    by_cases hu : u = t
    · rw [hu, Function.update_self]
      exact Nat.le_of_lt h
    · rw [Function.update_of_ne hu]
  · exact ⟨t, Finset.mem_univ t, by rwa [Function.update_self]⟩

/-- Where one term grows, the sum grows with it. -/
theorem sum_add_of_others {M : Type} [AddCommMonoid M] {f g : T → M} {t : T} {x : M}
    (ht : g t = f t + x) (hrest : ∀ u, u ≠ t → g u = f u) : ∑ u, g u = ∑ u, f u + x := by
  have hsame : ∑ u ∈ Finset.univ.erase t, g u = ∑ u ∈ Finset.univ.erase t, f u :=
    Finset.sum_congr rfl fun u hu => hrest u (Finset.ne_of_mem_erase hu)
  rw [← Finset.add_sum_erase Finset.univ g (Finset.mem_univ t),
    ← Finset.add_sum_erase Finset.univ f (Finset.mem_univ t), hsame, ht]
  abel

end Total

/-! ## Mutual exclusion -/

/-- The thread in the critical section is the owner of the lock. -/
def Exclusive {T : Type} (holds : T → Bool) (owner : Option T) : Prop :=
  ∀ t, holds t = true ↔ owner = some t

namespace Exclusive

variable {T : Type} {holds holds' : T → Bool} {owner : Option T} {t u : T}

theorem initial : Exclusive (fun _ : T => false) none := by
  intro t
  simp

theorem owner_eq (h : Exclusive holds owner) (ht : holds t = true) : owner = some t := (h t).mp ht

theorem other (h : Exclusive holds owner) (ht : holds t = true) (hu : u ≠ t) : holds u = false := by
  rw [Bool.eq_false_iff]
  intro hheld
  have howner := h.owner_eq hheld
  rw [h.owner_eq ht] at howner
  exact hu (Option.some.inj howner).symm

theorem free (h : Exclusive holds none) (t : T) : holds t = false := by
  rw [Bool.eq_false_iff]
  intro hheld
  cases h.owner_eq hheld

theorem acquire (h : Exclusive holds none) (ht : holds' t = true)
    (hrest : ∀ u, u ≠ t → holds' u = holds u) : Exclusive holds' (some t) := by
  intro u
  by_cases hut : u = t
  · simp [hut, ht]
  · simp [hrest u hut, h.free u, Ne.symm hut]

theorem release (h : Exclusive holds owner) (ht : holds t = true) (ht' : holds' t = false)
    (hrest : ∀ u, u ≠ t → holds' u = holds u) : Exclusive holds' none := by
  intro u
  by_cases hut : u = t
  · simp [hut, ht']
  · simp [hrest u hut, h.other ht hut]

theorem keep (h : Exclusive holds owner) (heq : ∀ u, holds' u = holds u) :
    Exclusive holds' owner := by
  intro u
  rw [heq u]
  exact h u

end Exclusive

end OsLabs.Threads
