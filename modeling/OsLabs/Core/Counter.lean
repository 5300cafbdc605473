import Mathlib.Tactic.Ring
import OsLabs.Core.Lts
import OsLabs.Core.Threads

/-! # A counter as its users see it

Threads add a fixed amount, each up to its quota, and an addition is one step. A
program that synchronises its additions has to simulate this system; its counter
then has the bounds and the final value proved here.
-/

namespace OsLabs.Counter

open Threads

structure State (T : Type) where
  value : Int
  made : T → Nat

section Model

variable {T : Type} [DecidableEq T] (start amount : Int) (quota : T → Nat)

def State.add (s : State T) (t : T) : State T :=
  ⟨s.value + amount, Function.update s.made t (s.made t + 1)⟩

def next (s : State T) (t : T) : Option (State T) :=
  if s.made t < quota t then some (s.add amount t) else none

def initState : State T := ⟨start, fun _ => 0⟩

def system : Lts (State T) T where
  init s := s = initState start
  next := next amount quota

end Model

variable {T : Type} {start amount : Int} {quota : T → Nat} {s s' : State T} {t : T}

/-! ## What is reached -/

structure Inv [Fintype T] (start amount : Int) (quota : T → Nat) (s : State T) : Prop where
  value : s.value = start + amount * total id s.made
  made : ∀ t, s.made t ≤ quota t

theorem Inv.init [Fintype T] : Inv start amount quota (initState start) := by
  refine ⟨?_, fun t => Nat.zero_le _⟩
  simp [initState, total]

variable [DecidableEq T]

theorem system_next (h : s.made t < quota t) :
    (system start amount quota).next s t = some (s.add amount t) :=
  if_pos h

theorem next_cases (h : next amount quota s t = some s') :
    s.made t < quota t ∧ s' = s.add amount t := by
  unfold next at h
  split at h
  next hlt => exact ⟨hlt, (Option.some.inj h).symm⟩
  next => cases h

theorem Inv.step [Fintype T] (h : Inv start amount quota s)
    (hnext : next amount quota s t = some s') : Inv start amount quota s' := by
  obtain ⟨hlt, rfl⟩ := next_cases hnext
  refine ⟨?_, ?_⟩
  · have htotal : total id (s.add amount t).made = total id s.made + 1 := total_succ rfl
    show s.value + amount = _
    rw [htotal, h.value]
    push_cast
    ring
  · exact (Function.forall_update_iff s.made fun t n => n ≤ quota t).mpr
      ⟨hlt, fun u _ => h.made u⟩

theorem Inv.of_exec [Fintype T] {as : List T} (h : Inv start amount quota s)
    (hexec : (system start amount quota).exec s as = some s') : Inv start amount quota s' := by
  induction as generalizing s with
  | nil =>
      cases hexec
      exact h
  | cons t as ih =>
      obtain ⟨s₁, hnext, hrest⟩ := Option.bind_eq_some_iff.mp hexec
      exact ih (h.step hnext) hrest

theorem value_of_exec {as : List T} (hexec : (system start amount quota).exec s as = some s') :
    s'.value = s.value + amount * as.length := by
  induction as generalizing s with
  | nil =>
      cases hexec
      simp
  | cons t as ih =>
      obtain ⟨s₁, hnext, hrest⟩ := Option.bind_eq_some_iff.mp hexec
      have hvalue : s₁.value = s.value + amount := by rw [(next_cases hnext).2]; rfl
      rw [ih hrest, hvalue, List.length_cons]
      push_cast
      ring

omit [DecidableEq T] in
/-- Threads that have all used up their quota. -/
theorem Inv.value_of_done [Fintype T] (h : Inv start amount quota s)
    (hdone : ∀ t, s.made t = quota t) : s.value = start + amount * (∑ t, quota t : Nat) := by
  have htotal : total id s.made = ∑ t, quota t := Finset.sum_congr rfl fun t _ => hdone t
  rw [h.value, htotal]

omit [DecidableEq T] in
theorem Inv.total_le [Fintype T] (h : Inv start amount quota s) :
    total id s.made ≤ ∑ t, quota t :=
  Finset.sum_le_sum fun t _ => h.made t

/-! ## Programs that simulate the counter -/

/-- The additions a simulating program shows, in the order it makes them. -/
theorem exec_of_simulates {σ α : Type} {M : Lts σ α} {obs : Transition σ α → Option T}
    {R : σ → State T → Prop} (h : M.Simulates (system start amount quota) obs R) {x x' : σ}
    {ts : List (Transition σ α)} (hruns : M.RunsTo x ts x') (hR : R x (initState start)) :
    ∃ c, (system start amount quota).exec (initState start) (Lts.observed obs ts) = some c ∧ R x' c :=
  h.run hruns hR

theorem inv_of_simulates [Fintype T] {σ α : Type} {M : Lts σ α} {obs : Transition σ α → Option T}
    {R : σ → State T → Prop} (h : M.Simulates (system start amount quota) obs R) {x : σ}
    (hreach : M.Reachable x) : ∃ c, Inv start amount quota c ∧ R x c := by
  obtain ⟨x₀, ts, hinit, hruns⟩ := hreach
  obtain ⟨c₀, hc₀, hR₀⟩ := h.init x₀ hinit
  obtain ⟨c, hexec, hR⟩ := h.run hruns hR₀
  have hinv₀ : Inv start amount quota c₀ := by
    rw [show c₀ = initState start from hc₀]
    exact .init
  exact ⟨c, hinv₀.of_exec hexec, hR⟩

end OsLabs.Counter
