import OsLabs.Mpmc.Ring

/-! # Producers and consumers that balance come to an end

A thread outside `sem_wait` and the lock can always move, and so can the holder
of the mutex. All others would have to wait for permits; the accounts say that
then the loops have not been run the same number of times.
-/

namespace OsLabs.Mpmc

open Threads CInt

/-! ## Loop counters -/

/-- What the loop counter of a thread with bound `n` can be. -/
def ProdPc.Counts (n : Nat) : ProdPc → Prop
  | .loop i => i ≤ n
  | .returned i => i = n
  | .semWait i | .lock i | .fetchAdd i | .store i _ | .advance i _ | .print i _ | .unlock i
  | .semPost i => i < n

def ConsPc.Counts (n : Nat) : ConsPc → Prop
  | .loop i => i ≤ n
  | .returned i => i = n
  | .semWait i | .lock i | .load i | .advance i _ | .fetchAdd i _ | .print i _ | .unlock i
  | .semPost i => i < n

theorem ProdPc.Counts.posts_le {n : Nat} {pc : ProdPc} (h : pc.Counts n) : pc.posts ≤ n := by
  cases pc <;> first | exact h | exact Nat.le_of_lt h | exact Nat.le_of_eq h

theorem ConsPc.Counts.posts_le {n : Nat} {pc : ConsPc} (h : pc.Counts n) : pc.posts ≤ n := by
  cases pc <;> first | exact h | exact Nat.le_of_lt h | exact Nat.le_of_eq h

/-- Steps a thread with bound `n` still makes. -/
def ProdPc.stepsLeft (n : Nat) : ProdPc → Nat
  | .loop i => 9 * (n - i) + 1
  | .semWait i => 9 * (n - (i + 1)) + 9
  | .lock i => 9 * (n - (i + 1)) + 8
  | .fetchAdd i => 9 * (n - (i + 1)) + 7
  | .store i _ => 9 * (n - (i + 1)) + 6
  | .advance i _ => 9 * (n - (i + 1)) + 5
  | .print i _ => 9 * (n - (i + 1)) + 4
  | .unlock i => 9 * (n - (i + 1)) + 3
  | .semPost i => 9 * (n - (i + 1)) + 2
  | .returned _ => 0

def ConsPc.stepsLeft (n : Nat) : ConsPc → Nat
  | .loop i => 9 * (n - i) + 1
  | .semWait i => 9 * (n - (i + 1)) + 9
  | .lock i => 9 * (n - (i + 1)) + 8
  | .load i => 9 * (n - (i + 1)) + 7
  | .advance i _ => 9 * (n - (i + 1)) + 6
  | .fetchAdd i _ => 9 * (n - (i + 1)) + 5
  | .print i _ => 9 * (n - (i + 1)) + 4
  | .unlock i => 9 * (n - (i + 1)) + 3
  | .semPost i => 9 * (n - (i + 1)) + 2
  | .returned _ => 0

section Model

variable {P C : Type} {iters : P ⊕ C → Nat} {bufSize : Nat} {s s' : State P C}

structure Counters (iters : P ⊕ C → Nat) (s : State P C) : Prop where
  stop : s.stop = false
  prod : ∀ p, (s.prod p).Counts (iters (.inl p))
  cons : ∀ c, (s.cons c).Counts (iters (.inr c))

theorem Counters.init : Counters iters (initState bufSize) :=
  ⟨rfl, fun _ => Nat.zero_le _, fun _ => Nat.zero_le _⟩

variable {p : P} {c : C}

/-- A producer step changes its own point only, to one that counts and has fewer
steps left. -/
theorem ProdStep.moves [DecidableEq P] (h : ProdStep iters bufSize s p s') (hstop : s.stop = false)
    (hcounts : (s.prod p).Counts (iters (.inl p))) :
    ∃ pc, s'.prod = Function.update s.prod p pc ∧ pc.Counts (iters (.inl p)) ∧
      pc.stepsLeft (iters (.inl p)) < (s.prod p).stepsLeft (iters (.inl p)) := by
  cases h with
  | @goes i hpc hi _ =>
      refine ⟨.semWait i, rfl, hi, ?_⟩
      rw [hpc]
      simp only [ProdPc.stepsLeft]
      omega
  | @returns i hpc hi =>
      rw [hpc] at hcounts
      have hle : i ≤ iters (.inl p) := hcounts
      have hge : ¬ i < iters (.inl p) := by
        intro hlt
        have hset := hi hlt
        rw [hstop] at hset
        cases hset
      refine ⟨.returned i, rfl, Nat.le_antisymm hle (Nat.not_lt.mp hge), ?_⟩
      rw [hpc]
      exact Nat.succ_pos _
  | waits hpc _ | locks hpc _ | adds hpc | stores hpc | advances hpc | prints hpc | unlocks hpc
  | posts hpc =>
      rw [hpc] at hcounts ⊢
      exact ⟨_, rfl, hcounts, Nat.lt_succ_self _⟩

theorem ConsStep.moves [DecidableEq C] (h : ConsStep iters bufSize s c s') (hstop : s.stop = false)
    (hcounts : (s.cons c).Counts (iters (.inr c))) :
    ∃ pc, s'.cons = Function.update s.cons c pc ∧ pc.Counts (iters (.inr c)) ∧
      pc.stepsLeft (iters (.inr c)) < (s.cons c).stepsLeft (iters (.inr c)) := by
  cases h with
  | @goes i hpc hi _ =>
      refine ⟨.semWait i, rfl, hi, ?_⟩
      rw [hpc]
      simp only [ConsPc.stepsLeft]
      omega
  | @returns i hpc hi =>
      rw [hpc] at hcounts
      have hle : i ≤ iters (.inr c) := hcounts
      have hge : ¬ i < iters (.inr c) := by
        intro hlt
        have hset := hi hlt
        rw [hstop] at hset
        cases hset
      refine ⟨.returned i, rfl, Nat.le_antisymm hle (Nat.not_lt.mp hge), ?_⟩
      rw [hpc]
      exact Nat.succ_pos _
  | waits hpc _ | locks hpc _ | loads hpc | advances hpc | adds hpc | prints hpc | unlocks hpc
  | posts hpc =>
      rw [hpc] at hcounts ⊢
      exact ⟨_, rfl, hcounts, Nat.lt_succ_self _⟩

/-! ## Who can move -/

theorem prod_blocked [DecidableEq P] (h : prodNext iters bufSize s p = none) :
    (∃ i, s.prod p = .returned i) ∨ (∃ i, s.prod p = .semWait i ∧ s.emptySlots = 0) ∨
      (∃ i, s.prod p = .lock i ∧ s.owner ≠ none) := by
  unfold prodNext at h
  split at h
  next => split at h <;> cases h
  next i hpc =>
    split at h
    next => cases h
    next hempty => exact .inr (.inl ⟨i, hpc, by omega⟩)
  next i hpc =>
    split at h
    next => cases h
    next howner => exact .inr (.inr ⟨i, hpc, howner⟩)
  iterate 6 next => cases h
  next i hpc => exact .inl ⟨i, hpc⟩

theorem cons_blocked [DecidableEq C] (h : consNext iters bufSize s c = none) :
    (∃ i, s.cons c = .returned i) ∨ (∃ i, s.cons c = .semWait i ∧ s.fullSlots = 0) ∨
      (∃ i, s.cons c = .lock i ∧ s.owner ≠ none) := by
  unfold consNext at h
  split at h
  next => split at h <;> cases h
  next i hpc =>
    split at h
    next => cases h
    next hempty => exact .inr (.inl ⟨i, hpc, by omega⟩)
  next i hpc =>
    split at h
    next => cases h
    next howner => exact .inr (.inr ⟨i, hpc, howner⟩)
  iterate 6 next => cases h
  next i hpc => exact .inl ⟨i, hpc⟩

/-- All threads are done or wait for a permit that is not there. -/
structure Stuck (s : State P C) : Prop where
  prod : ∀ p, (∃ i, s.prod p = .returned i) ∨ ∃ i, s.prod p = .semWait i ∧ s.emptySlots = 0
  cons : ∀ c, (∃ i, s.cons c = .returned i) ∨ ∃ i, s.cons c = .semWait i ∧ s.fullSlots = 0

section Deadlock

variable [DecidableEq P] [DecidableEq C]

/-- Where nobody can move, nobody is in a critical section: the holder could. -/
theorem MutexOk.free_of_stuck (h : MutexOk s) (hstuck : ∀ a, next iters bufSize s a = none) :
    s.owner = none := by
  cases howner : s.owner with
  | none => rfl
  | some t =>
      have hholds := (h t).mpr howner
      cases t with
      | inl p =>
          have hp : (s.prod p).holds = true := hholds
          rcases prod_blocked (hstuck (.prod p)) with ⟨i, hpc⟩ | ⟨i, hpc, _⟩ | ⟨i, hpc, _⟩ <;>
            rw [hpc] at hp <;> cases hp
      | inr c =>
          have hc : (s.cons c).holds = true := hholds
          rcases cons_blocked (hstuck (.cons c)) with ⟨i, hpc⟩ | ⟨i, hpc, _⟩ | ⟨i, hpc, _⟩ <;>
            rw [hpc] at hc <;> cases hc

theorem Stuck.of_next (h : MutexOk s) (hstuck : ∀ a, next iters bufSize s a = none) : Stuck s := by
  have howner := h.free_of_stuck hstuck
  constructor
  · intro p
    rcases prod_blocked (hstuck (.prod p)) with hpc | hpc | ⟨i, _, hheld⟩
    · exact .inl hpc
    · exact .inr hpc
    · exact absurd howner hheld
  · intro c
    rcases cons_blocked (hstuck (.cons c)) with hpc | hpc | ⟨i, _, hheld⟩
    · exact .inl hpc
    · exact .inr hpc
    · exact absurd howner hheld

end Deadlock

/-! ## Balanced loops -/

def Returned (s : State P C) : Prop :=
  (∀ p, ∃ i, s.prod p = .returned i) ∧ ∀ c, ∃ i, s.cons c = .returned i

variable [Fintype P] [Fintype C]

/-- Neither side can wait for permits: the other one has then returned, having
run its loops as often. -/
theorem Stuck.returned (h : Stuck s) (hpos : 0 < bufSize)
    (hbalance : ∑ p, iters (.inl p) = ∑ c, iters (.inr c)) (haccounts : Accounts bufSize s)
    (hcounters : Counters iters s) : Returned s := by
  have hprod : total ProdPc.waits s.prod = total ProdPc.posts s.prod := by
    apply total_congr
    intro p
    rcases h.prod p with ⟨i, hpc⟩ | ⟨i, hpc, _⟩ <;> rw [hpc] <;> rfl
  have hcons : total ConsPc.waits s.cons = total ConsPc.posts s.cons := by
    apply total_congr
    intro c
    rcases h.cons c with ⟨i, hpc⟩ | ⟨i, hpc, _⟩ <;> rw [hpc] <;> rfl
  have hempty := haccounts.empty
  have hfull := haccounts.full
  have hprodLe : total ProdPc.posts s.prod ≤ ∑ p, iters (.inl p) :=
    Finset.sum_le_sum fun p _ => (hcounters.prod p).posts_le
  have hcons_of_full (hpos : 0 < s.fullSlots) : ∀ c, ∃ i, s.cons c = .returned i := by
    intro c
    rcases h.cons c with hpc | ⟨i, _, hzero⟩
    · exact hpc
    · omega
  have hprod_of_empty (hpos : 0 < s.emptySlots) : ∀ p, ∃ i, s.prod p = .returned i := by
    intro p
    rcases h.prod p with hpc | ⟨i, _, hzero⟩
    · exact hpc
    · omega
  constructor
  · intro p
    rcases h.prod p with hpc | ⟨i, hpc, hzero⟩
    · exact hpc
    · have hall := hcons_of_full (by omega)
      have hdone : total ConsPc.posts s.cons = ∑ c, iters (.inr c) := by
        apply Finset.sum_congr rfl
        intro c _
        obtain ⟨j, hj⟩ := hall c
        have hcount := hcounters.cons c
        rw [hj] at hcount ⊢
        exact hcount
      omega
  · intro c
    rcases h.cons c with hpc | ⟨i, hpc, hzero⟩
    · exact hpc
    · have hall := hprod_of_empty (by omega)
      have hdone : total ProdPc.posts s.prod = ∑ p, iters (.inl p) := by
        apply Finset.sum_congr rfl
        intro p _
        obtain ⟨j, hj⟩ := hall p
        have hcount := hcounters.prod p
        rw [hj] at hcount ⊢
        exact hcount
      have hless : total ConsPc.posts s.cons < ∑ c, iters (.inr c) := by
        apply Finset.sum_lt_sum (fun d _ => (hcounters.cons d).posts_le)
        have hcount := hcounters.cons c
        rw [hpc] at hcount
        exact ⟨c, Finset.mem_univ c, by rw [hpc]; exact hcount⟩
      omega

end Model

end OsLabs.Mpmc
