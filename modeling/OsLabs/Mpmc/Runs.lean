import OsLabs.Mpmc.Completion

/-! # Runs of producers and consumers

The counters and the values are `int`s: after 2^31 of them they wrap around.
-/

namespace OsLabs.Mpmc

open Threads CInt

section Model

variable {P C : Type} [Fintype P] [Fintype C] [DecidableEq P] [DecidableEq C]
  {iters : P ⊕ C → Nat} {bufSize : Nat} {s s' : State P C}
  {ts : List (Transition (State P C) (Act P C))} {a : Act P C}

/-! ## Progress -/

/-- The invariant of a run without its history. -/
structure RunInv (iters : P ⊕ C → Nat) (bufSize : Nat) (s : State P C) : Prop where
  mutex : MutexOk s
  accounts : Accounts bufSize s
  counters : Counters iters s

def stepsLeft (iters : P ⊕ C → Nat) (s : State P C) : Nat :=
  ∑ p, (s.prod p).stepsLeft (iters (.inl p)) + ∑ c, (s.cons c).stepsLeft (iters (.inr c))

theorem RunInv.step (h : RunInv iters bufSize s) (hnext : next iters bufSize s a = some s') :
    RunInv iters bufSize s' ∧ stepsLeft iters s' < stepsLeft iters s := by
  cases a with
  | prod p =>
      have hstep := prodNext_cases hnext
      obtain ⟨hcons, _, _, hstop⟩ := hstep.frame
      obtain ⟨pc, hprod, hcounts, hless⟩ := hstep.moves h.counters.stop (h.counters.prod p)
      refine ⟨⟨h.mutex.prodStep hstep, h.accounts.prodStep hstep, ?_, ?_, ?_⟩, ?_⟩
      · rw [hstop]
        exact h.counters.stop
      · intro q
        rw [hprod]
        by_cases hq : q = p
        · rw [hq, Function.update_self]
          exact hcounts
        · rw [Function.update_of_ne hq]
          exact h.counters.prod q
      · rw [hcons]
        exact h.counters.cons
      · unfold stepsLeft
        rw [hcons, hprod]
        exact Nat.add_lt_add_right
          (sum_update_lt (f := fun q (pc : ProdPc) => pc.stepsLeft (iters (.inl q))) hless) _
  | cons c =>
      have hstep := consNext_cases hnext
      obtain ⟨hprod, _, _, _, hstop⟩ := hstep.frame
      obtain ⟨pc, hcons, hcounts, hless⟩ := hstep.moves h.counters.stop (h.counters.cons c)
      refine ⟨⟨h.mutex.consStep hstep, h.accounts.consStep hstep, ?_, ?_, ?_⟩, ?_⟩
      · rw [hstop]
        exact h.counters.stop
      · rw [hprod]
        exact h.counters.prod
      · intro d
        rw [hcons]
        by_cases hd : d = c
        · rw [hd, Function.update_self]
          exact hcounts
        · rw [Function.update_of_ne hd]
          exact h.counters.cons d
      · unfold stepsLeft
        rw [hprod, hcons]
        exact Nat.add_lt_add_left
          (sum_update_lt (f := fun d (pc : ConsPc) => pc.stepsLeft (iters (.inr d))) hless) _

omit [DecidableEq P] [DecidableEq C] in
theorem RunInv.init : RunInv iters bufSize (initState bufSize) :=
  ⟨MutexOk.init, Accounts.init, Counters.init⟩

theorem RunInv.of_reachable (h : (system iters bufSize).Reachable s) : RunInv iters bufSize s := by
  apply h.invariant
  · intro s₀ hinit
    rw [hinit]
    exact RunInv.init
  · intro s₁ a s₂ hinv hnext
    exact (hinv.step hnext).1

theorem RunInv.progress (h : RunInv iters bufSize s) (hpos : 0 < bufSize)
    (hbalance : ∑ p, iters (.inl p) = ∑ c, iters (.inr c)) :
    Returned s ∨ (system iters bufSize).Enabled s := by
  by_cases henabled : (system iters bufSize).Enabled s
  · exact .inr henabled
  · left
    have hstuck : ∀ a, next iters bufSize s a = none := by
      intro a
      cases hnext : next iters bufSize s a with
      | none => rfl
      | some s' => exact absurd ⟨a, s', hnext⟩ henabled
    exact (Stuck.of_next h.mutex hstuck).returned hpos hbalance h.accounts h.counters

/-- However the threads are scheduled, all of them return. -/
theorem returns_inevitably (hpos : 0 < bufSize)
    (hbalance : ∑ p, iters (.inl p) = ∑ c, iters (.inr c)) :
    (system iters bufSize).Inevitable Returned (initState bufSize) :=
  .of_measure (I := RunInv iters bufSize) (stepsLeft iters)
    (fun _ hinv => hinv.progress hpos hbalance) (fun _ _ _ hinv hnext => hinv.step hnext) RunInv.init

/-! ## The end -/

omit [DecidableEq P] [DecidableEq C] in
/-- At the end every operation has been made once in each iteration. -/
theorem Counters.totals (h : Counters iters s) (hreturned : Returned s) :
    (∀ f : ProdPc → Nat, (∀ i, f (.returned i) = i) → total f s.prod = ∑ p, iters (.inl p)) ∧
    (∀ f : ConsPc → Nat, (∀ i, f (.returned i) = i) → total f s.cons = ∑ c, iters (.inr c)) := by
  constructor
  · intro f hf
    apply Finset.sum_congr rfl
    intro p _
    obtain ⟨i, hpc⟩ := hreturned.1 p
    have hcount := h.prod p
    rw [hpc] at hcount
    rw [hpc, hf]
    exact hcount
  · intro f hf
    apply Finset.sum_congr rfl
    intro c _
    obtain ⟨i, hpc⟩ := hreturned.2 c
    have hcount := h.cons c
    rw [hpc] at hcount
    rw [hpc, hf]
    exact hcount

omit [DecidableEq P] [DecidableEq C] in
theorem RunInv.returned (h : RunInv iters bufSize s) (hreturned : Returned s) {n : Nat}
    (hprod : ∑ p, iters (.inl p) = n) (hcons : ∑ c, iters (.inr c) = n) :
    s.totalProduced = wrap 32 n ∧ s.totalConsumed = wrap 32 n ∧ s.inI = s.outI ∧
      s.emptySlots = bufSize ∧ s.fullSlots = 0 ∧ s.read = n := by
  have hprods := (h.counters.totals hreturned).1
  have hconss := (h.counters.totals hreturned).2
  rw [hprod] at hprods
  rw [hcons] at hconss
  have hempty := h.accounts.empty
  have hfull := h.accounts.full
  rw [hprods _ fun _ => rfl, hconss _ fun _ => rfl] at hempty
  rw [hprods _ fun _ => rfl, hconss _ fun _ => rfl] at hfull
  refine ⟨?_, ?_, ?_, by omega, by omega, hconss _ fun _ => rfl⟩
  · rw [h.accounts.produced, hprods _ fun _ => rfl]
  · rw [h.accounts.consumed, hconss _ fun _ => rfl]
  · rw [h.accounts.inI, h.accounts.outI, hprods _ fun _ => rfl, hconss _ fun _ => rfl]

/-! ## Safety and completion -/

end Model

/-- Two slots, two producers and two consumers. Both producers hold a permit before one
stores, both consumers before one loads; the third value goes to the first slot again, while
consumer `false` still holds its permit. -/
def overlapping : List (Act Bool Bool) :=
  List.flatten
    [[.prod false, .prod false, .prod true, .prod true], List.replicate 7 (.prod true),
      List.replicate 7 (.prod false), [.cons false, .cons false, .cons true, .cons true],
      List.replicate 7 (.cons true), [.prod true, .prod true], List.replicate 6 (.cons false),
      List.replicate 7 (.prod true), [.cons true, .cons true, .cons false, .cons false],
      List.replicate 3 (.cons true)]

theorem wrap_two_pow_31 : wrap 32 2147483648 = -2147483648 := by decide

/-- `n` producers and `n` consumers with `K` iterations each: a state in which
one of them has not returned has an enabled step, and where all have returned
the counters are `n * K` as `int`s and the ring is empty again. -/
theorem balanced_threads_return {n K bufSize : Nat} (hpos : 0 < bufSize)
    {s : State (Fin n) (Fin n)} (h : (system (fun _ => K) bufSize).Reachable s) :
    (¬ Returned s → (system (fun _ => K) bufSize).Enabled s) ∧
    (Returned s →
      s.totalProduced = wrap 32 (n * K : Nat) ∧ s.totalConsumed = wrap 32 (n * K : Nat) ∧
      (n * K < 2 ^ 31 → s.totalProduced = (n * K : Nat) ∧ s.totalConsumed = (n * K : Nat)) ∧
      s.inI = s.outI ∧ s.emptySlots = bufSize ∧ s.fullSlots = 0) := by
  have hinv := RunInv.of_reachable h
  have hsum : ∑ _p : Fin n, K = n * K := by simp
  constructor
  · intro hnot
    exact (hinv.progress hpos rfl).resolve_left hnot
  · intro hreturned
    obtain ⟨hproduced, hconsumed, hidx, hempty, hfull, _⟩ := hinv.returned hreturned hsum hsum
    refine ⟨hproduced, hconsumed, ?_, hidx, hempty, hfull⟩
    intro hsmall
    have hfits : wrap 32 (n * K : Nat) = (n * K : Nat) :=
      wrap_of_fits (by decide) (fits_32_iff.mpr (by omega))
    rw [hproduced, hconsumed, hfits]
    exact ⟨rfl, rfl⟩

/-- Two producers and two consumers with 2^30 iterations each end at -2^31. -/
theorem totals_wrap_around :
    ¬ ∀ (n K bufSize : Nat) (s : State (Fin n) (Fin n)), 0 < n → 0 < bufSize →
      (system (fun _ => K) bufSize).Reachable s → Returned s →
        s.totalProduced = (n * K : Nat) ∧ s.totalConsumed = (n * K : Nat) := by
  intro h
  have hends : (system (fun _ => 2 ^ 30) 1).Inevitable Returned
      (initState 1 : State (Fin 2) (Fin 2)) := returns_inevitably (by decide) rfl
  obtain ⟨ts, s, hruns, hreturned⟩ := hends.exists_run
  have hreachable : (system (fun _ => 2 ^ 30) 1).Reachable s := ⟨_, ts, rfl, hruns⟩
  have hsum : ∑ _p : Fin 2, 2 ^ 30 = 2147483648 := by simp
  have hactual := ((RunInv.of_reachable hreachable).returned hreturned hsum hsum).1
  have hclaimed := (h 2 (2 ^ 30) 1 s (by decide) (by decide) hreachable hreturned).1
  rw [hactual] at hclaimed
  norm_num [wrap_two_pow_31] at hclaimed

theorem balanced_threads_return_two :
    (¬ Returned (initState 5 : State (Fin 2) (Fin 2)) →
      (system (fun _ => 10) 5).Enabled (initState 5 : State (Fin 2) (Fin 2))) ∧
    ∃ s : State (Fin 2) (Fin 2), (system (fun _ => 10) 5).Reachable s ∧ Returned s ∧
      s.totalProduced = 20 ∧ s.totalConsumed = 20 := by
  constructor
  · exact (balanced_threads_return (by decide) (.of_init rfl)).1
  · have hends : (system (fun _ => 10) 5).Inevitable Returned
        (initState 5 : State (Fin 2) (Fin 2)) := returns_inevitably (by decide) rfl
    obtain ⟨ts, s, hruns, hreturned⟩ := hends.exists_run
    have hreachable : (system (fun _ => 10) 5).Reachable s := ⟨_, ts, rfl, hruns⟩
    have hcounts := ((balanced_threads_return (by decide) hreachable).2 hreturned).2.2.1 (by decide)
    exact ⟨s, hreachable, hreturned, hcounts⟩

end OsLabs.Mpmc
