import OsLabs.Concurrency.RacySchedules
import OsLabs.Core.Counter

/-! # The atomic counter

Threads that run `safe_inc`: the increment that `racy_inc` makes in two accesses is
one `atomic_fetch_add`. The program is the counter of the library. A racy schedule
gives the same value where each load is followed by its store at once.
-/

namespace OsLabs.Concurrency

open Threads

/-- Where a thread is in `safe_inc`; `returned` keeps the last `i`. -/
inductive SafePc where
  | loop (i : Nat)
  | returned (i : Nat)
  deriving DecidableEq

structure SafeState (T : Type) where
  counterSafe : Int  -- an `atomic_long`
  pc : T → SafePc

section Model

variable {T : Type} [DecidableEq T] (n : Nat)

def SafeState.setPc (s : SafeState T) (t : T) (pc : SafePc) : SafeState T :=
  { s with pc := Function.update s.pc t pc }

/-- One step of thread `t`: the loop test with the `atomic_fetch_add`, or the return. -/
def safeNext (s : SafeState T) (t : T) : Option (SafeState T) :=
  match s.pc t with
  | .loop i =>
      if i < n then some ({ s with counterSafe := s.counterSafe + 1 }.setPc t (.loop (i + 1)))
      else some (s.setPc t (.returned i))
  | .returned _ => none

def safeInitState : SafeState T := ⟨0, fun _ => .loop 0⟩

def safeSystem : Lts (SafeState T) T where
  init s := s = safeInitState
  next := safeNext n

/-- All threads have been joined. -/
def SafeJoined (s : SafeState T) : Prop := ∀ t, ∃ i, s.pc t = .returned i

/-! ## Steps -/

variable {n} {s s' : SafeState T} {t : T}

inductive SafeStep (n : Nat) (s : SafeState T) (t : T) : SafeState T → Prop
  | adds {i : Nat} (hpc : s.pc t = .loop i) (hi : i < n) :
      SafeStep n s t ({ s with counterSafe := s.counterSafe + 1 }.setPc t (.loop (i + 1)))
  | returns {i : Nat} (hpc : s.pc t = .loop i) (hi : n ≤ i) :
      SafeStep n s t (s.setPc t (.returned i))

theorem safeNext_cases (h : safeNext n s t = some s') : SafeStep n s t s' := by
  unfold safeNext at h
  split at h
  next i hpc =>
    split at h
    next hi =>
      cases h
      exact .adds hpc hi
    next hi =>
      cases h
      exact .returns hpc (Nat.not_lt.mp hi)
  next => cases h

/-! ## The counter of the library -/

/-- Additions a thread has made. -/
def SafePc.adds : SafePc → Nat
  | .loop i | .returned i => i

def SafePc.Counts (n : Nat) : SafePc → Prop
  | .loop i => i ≤ n
  | .returned i => i = n

/-- The thread that adds in a step. -/
def addsOf (n : Nat) (x : Transition (SafeState T) T) : Option T :=
  match x.before.pc x.action with
  | .loop i => if i < n then some x.action else none
  | .returned _ => none

structure SafeRel (n : Nat) (s : SafeState T) (c : Counter.State T) : Prop where
  value : c.value = s.counterSafe
  made : c.made = fun t => (s.pc t).adds
  counts : ∀ t, (s.pc t).Counts n

theorem adds_setPc (s : SafeState T) (t : T) (pc : SafePc) :
    (fun u => ((s.setPc t pc).pc u).adds) =
      Function.update (fun u => (s.pc u).adds) t pc.adds :=
  (Function.comp_update SafePc.adds s.pc t pc)

theorem SafeRel.setPc {c : Counter.State T} (h : SafeRel n s c) {pc : SafePc}
    (hcounts : pc.Counts n) (u : T) : ((s.setPc t pc).pc u).Counts n :=
  (Function.forall_update_iff s.pc fun _ pc => pc.Counts n).mpr ⟨hcounts, fun u _ => h.counts u⟩ u

theorem SafeRel.adds {c : Counter.State T} (h : SafeRel n s c) {i : Nat} (hpc : s.pc t = .loop i)
    (hi : i < n) : c.made t = i ∧
      SafeRel n ({ s with counterSafe := s.counterSafe + 1 }.setPc t (.loop (i + 1))) (c.add 1 t) := by
  have hmade : c.made t = i := by
    rw [h.made]
    simp [hpc, SafePc.adds]
  refine ⟨hmade, ?_, ?_, ?_⟩
  · exact congrArg (· + 1) h.value
  · show Function.update c.made t (c.made t + 1) = _
    rw [hmade, h.made]
    exact (adds_setPc s t (.loop (i + 1))).symm
  · exact h.setPc hi

theorem SafeRel.returns {c : Counter.State T} (h : SafeRel n s c) {i : Nat} (hpc : s.pc t = .loop i)
    (hi : n ≤ i) : SafeRel n (s.setPc t (.returned i)) c := by
  have hcounts := h.counts t
  rw [hpc] at hcounts
  refine ⟨h.value, ?_, h.setPc (Nat.le_antisymm hcounts hi)⟩
  rw [adds_setPc, h.made, eq_comm, Function.update_eq_self_iff, hpc]
  rfl

theorem safe_simulates (T : Type) [DecidableEq T] (n : Nat) :
    (safeSystem n : Lts (SafeState T) T).Simulates (Counter.system 0 1 fun _ => n) (addsOf n)
      (SafeRel n) where
  init s hs := by
    refine ⟨Counter.initState 0, rfl, ?_⟩
    rw [show s = safeInitState from hs]
    exact ⟨rfl, rfl, fun _ => Nat.zero_le n⟩
  stutter s c t s' h hnext hobs := by
    cases safeNext_cases hnext with
    | adds hpc hi => simp [addsOf, hpc, hi] at hobs
    | returns hpc hi => exact h.returns hpc hi
  step s c t s' u h hnext hobs := by
    cases safeNext_cases hnext with
    | @adds i hpc hi =>
        obtain rfl : t = u := by simpa [addsOf, hpc, hi] using hobs
        obtain ⟨hmade, hrel⟩ := h.adds hpc hi
        exact ⟨_, Counter.system_next (by rwa [hmade]), hrel⟩
    | returns hpc hi => simp [addsOf, hpc, Nat.not_lt.mpr hi] at hobs

/-! ## Termination -/

/-- Steps a thread has still to make. -/
def SafePc.remaining (n : Nat) : SafePc → Nat
  | .loop i => n - i + 1
  | .returned _ => 0

theorem SafeStep.remaining_lt [Fintype T] (hstep : SafeStep n s t s') :
    total (SafePc.remaining n) s'.pc < total (SafePc.remaining n) s.pc := by
  cases hstep with
  | adds hpc hi | returns hpc hi =>
      apply total_update_lt
      show _ < (s.pc t).remaining n
      rw [hpc]
      simp only [SafePc.remaining]
      omega

theorem safeJoined_or_enabled (n : Nat) (s : SafeState T) :
    SafeJoined s ∨ (safeSystem n).Enabled s := by
  by_cases hjoined : SafeJoined s
  · exact .inl hjoined
  · obtain ⟨t, ht⟩ := not_forall.mp hjoined
    right
    apply Lts.enabled_of_isSome t
    show (safeNext n s t).isSome
    unfold safeNext
    cases hpc : s.pc t with
    | loop i => by_cases hi : i < n <;> simp [hi]
    | returned i => exact (ht ⟨i, hpc⟩).elim

theorem safe_joins_inevitable [Fintype T] (n : Nat) (s : SafeState T) :
    (safeSystem n).Inevitable SafeJoined s := by
  apply Lts.Inevitable.of_measure (I := fun _ => True) fun s => total (SafePc.remaining n) s.pc
  · intro s _
    exact safeJoined_or_enabled n s
  · intro s t s' _ hnext
    exact ⟨trivial, (safeNext_cases hnext).remaining_lt⟩
  · trivial

/-! ## The racy counter without races -/

def SafePc.toRacy : SafePc → Pc
  | .loop i => .loop i
  | .returned i => .returned i

/-- The state of `racy_inc` with the same value, each thread at the same iteration. -/
def SafeState.toRacy (s : SafeState T) : State T := ⟨s.counterSafe, fun t => (s.pc t).toRacy⟩

theorem toRacy_setPc (s : SafeState T) (t : T) (pc : SafePc) :
    (s.setPc t pc).toRacy = s.toRacy.setPc t pc.toRacy := by
  show State.mk _ _ = State.mk _ _
  congr 1
  exact Function.comp_update SafePc.toRacy s.pc t pc

/-- An `atomic_fetch_add` is a load of `racy_inc` with its store behind it. -/
theorem SafeStep.leads_racy (hstep : SafeStep n s t s') :
    (system n).Leads s.toRacy s'.toRacy := by
  cases hstep with
  | @adds i hpc hi =>
      have hloop : s.toRacy.pc t = .loop i := by
        show (s.pc t).toRacy = _
        rw [hpc]
        rfl
      have hstores := leads_stores (n := n) (State.setPc_self s.toRacy t (.store i s.counterSafe))
      have hsame : { s with counterSafe := s.counterSafe + 1 }.toRacy.setPc t (.loop (i + 1)) =
          { s.toRacy.setPc t (.store i s.counterSafe) with
            counterRacy := s.counterSafe + 1 }.setPc t (.loop (i + 1)) := by
        simp [State.setPc, SafeState.toRacy]
      rw [toRacy_setPc]
      exact (leads_loads hloop hi).trans (hsame ▸ hstores)
  | @returns i hpc hi =>
      have hloop : s.toRacy.pc t = .loop i := by
        show (s.pc t).toRacy = _
        rw [hpc]
        rfl
      rw [toRacy_setPc]
      exact leads_returns hloop hi

theorem racy_reaches (h : (safeSystem n).Reachable s) : (system n).Reachable s.toRacy := by
  apply Lts.Leads.reachable (s := (initState : State T)) _ rfl
  apply h.invariant (I := fun s => (system n).Leads initState s.toRacy)
  · intro s₀ hinit
    rw [show s₀ = safeInitState from hinit]
    exact .refl _
  · intro s₁ t s₂ hleads hnext
    exact hleads.trans (safeNext_cases hnext).leads_racy

end Model

/-! ## No update is lost -/

/-- Every state of the atomic program is one the racy program can be in too; its
counter never passes the number of increments, all of them are in it once the
threads are joined, and they are joined in every run. -/
theorem safe_counter_exact {T : Type} [Fintype T] [DecidableEq T] {n : Nat} {s : SafeState T}
    (h : (safeSystem n).Reachable s) :
    (system n).Reachable s.toRacy ∧
      s.counterSafe = (∑ t, (s.pc t).adds : Nat) ∧
      s.counterSafe ≤ (Fintype.card T * n : Nat) ∧
      (SafeJoined s → s.counterSafe = (Fintype.card T * n : Nat)) ∧
      (safeSystem n).Inevitable SafeJoined s := by
  obtain ⟨c, hinv, hrel⟩ := Counter.inv_of_simulates (safe_simulates T n) h
  have hquota : ∑ _t : T, n = Fintype.card T * n := by simp
  have hvalue : s.counterSafe = (total id c.made : Nat) := by
    rw [← hrel.value, hinv.value]
    simp
  refine ⟨racy_reaches h, ?_, ?_, ?_, safe_joins_inevitable n s⟩
  · rw [hvalue, hrel.made]
    rfl
  · rw [hvalue, ← hquota]
    exact_mod_cast hinv.total_le
  · intro hjoined
    have hdone : ∀ t, c.made t = n := by
      intro t
      obtain ⟨i, hpc⟩ := hjoined t
      have hcounts := hrel.counts t
      rw [hpc] at hcounts
      rw [hrel.made]
      simpa [hpc, SafePc.adds, SafePc.Counts] using hcounts
    rw [← hrel.value, hinv.value_of_done hdone, hquota]
    simp

theorem safe_counter_exact_four_threads :
    ∃ s : SafeState (Fin 4), (safeSystem 1000000).Reachable s ∧ SafeJoined s ∧
      s.counterSafe = 4000000 ∧ (system 1000000).Reachable s.toRacy := by
  have hends : (safeSystem 1000000).Inevitable SafeJoined (safeInitState : SafeState (Fin 4)) :=
    safe_joins_inevitable 1000000 safeInitState
  obtain ⟨ts, s, hruns, hjoined⟩ := hends.exists_run
  have hreach : (safeSystem 1000000).Reachable s := ⟨_, ts, rfl, hruns⟩
  have hexact := safe_counter_exact hreach
  exact ⟨s, hreach, hjoined, hexact.2.2.2.1 hjoined, hexact.1⟩

end OsLabs.Concurrency
