import OsLabs.Core.Lts
import OsLabs.Core.Threads

/-! # The racy counter

Threads that run `racy_inc`, each `counter_racy++` being a load and, later, a
store of the loaded value plus one. A stale store loses any number of updates;
still at least two survive, or the only one of each thread.
-/

namespace OsLabs.Concurrency

open Threads

/-- Where a thread is in `racy_inc`; `returned` keeps the last `i`. -/
inductive Pc where
  | loop (i : Nat)
  | store (i : Nat) (loaded : Int)
  | returned (i : Nat)
  deriving DecidableEq

structure State (T : Type) where
  counterRacy : Int  -- a `long`: the product of two `int`s bounds it
  pc : T → Pc

section Model

variable {T : Type} [DecidableEq T] (n : Nat)

def State.setPc (s : State T) (t : T) (pc : Pc) : State T :=
  { s with pc := Function.update s.pc t pc }

/-- One step of thread `t`: the loop test with the load, or the store. -/
def next (s : State T) (t : T) : Option (State T) :=
  match s.pc t with
  | .loop i =>
      if i < n then some (s.setPc t (.store i s.counterRacy)) else some (s.setPc t (.returned i))
  | .store i loaded => some ({ s with counterRacy := loaded + 1 }.setPc t (.loop (i + 1)))
  | .returned _ => none

def initState : State T := ⟨0, fun _ => .loop 0⟩

def system : Lts (State T) T where
  init s := s = initState
  next := next n

/-- All threads have been joined. -/
def Joined (s : State T) : Prop := ∀ t, ∃ i, s.pc t = .returned i

/-- `(long)N*T-counter_racy` -/
def lostUpdates (threads : Nat) (s : State T) : Int := n * threads - s.counterRacy

/-! ## Steps -/

variable {n} {s s' : State T} {t : T}

inductive Step (n : Nat) (s : State T) (t : T) : State T → Prop
  | loads {i : Nat} (hpc : s.pc t = .loop i) (hi : i < n) :
      Step n s t (s.setPc t (.store i s.counterRacy))
  | returns {i : Nat} (hpc : s.pc t = .loop i) (hi : n ≤ i) : Step n s t (s.setPc t (.returned i))
  | stores {i : Nat} {loaded : Int} (hpc : s.pc t = .store i loaded) :
      Step n s t ({ s with counterRacy := loaded + 1 }.setPc t (.loop (i + 1)))

theorem next_cases (h : next n s t = some s') : Step n s t s' := by
  unfold next at h
  split at h
  next i hpc =>
    split at h
    next hi =>
      cases h
      exact .loads hpc hi
    next hi =>
      cases h
      exact .returns hpc (Nat.not_lt.mp hi)
  next i loaded hpc =>
    cases h
    exact .stores hpc
  next => cases h

/-! ## Bounds -/

/-- Stores a thread has made. -/
def Pc.increments : Pc → Nat
  | .loop i | .store i _ | .returned i => i

def Pc.Counts (n : Nat) : Pc → Prop
  | .loop i => i ≤ n
  | .store i _ => i < n
  | .returned i => i = n

/-- What a thread between its load and its store has loaded: at least 1 once it
has stored itself, and no more than all stores. -/
def Pc.Loaded (stores : Nat) : Pc → Prop
  | .store i loaded => 0 ≤ loaded ∧ loaded ≤ stores ∧ (0 < i → 1 ≤ loaded)
  | _ => True

theorem Pc.Loaded.mono {a b : Nat} {pc : Pc} (h : pc.Loaded a) (hle : a ≤ b) : pc.Loaded b := by
  cases pc with
  | store i loaded => exact ⟨h.1, by have := h.2.1; omega, h.2.2⟩
  | _ => trivial

/-- The last store was of a thread that had stored at least 1, and at least 2
unless it was its first. -/
def LastStore (s : State T) : Prop :=
  (s.counterRacy = 0 ∧ ∀ t, (s.pc t).increments = 0) ∨
    ∃ t, 0 < (s.pc t).increments ∧ (min 2 (s.pc t).increments : Nat) ≤ s.counterRacy

structure CounterInv [Fintype T] (n : Nat) (s : State T) : Prop where
  counts : ∀ t, (s.pc t).Counts n
  loaded : ∀ t, (s.pc t).Loaded (total Pc.increments s.pc)
  upper : s.counterRacy ≤ total Pc.increments s.pc
  last : LastStore s

omit [DecidableEq T] in
theorem LastStore.nonneg (h : LastStore s) : 0 ≤ s.counterRacy := by
  rcases h with ⟨hzero, _⟩ | ⟨t, _, hle⟩ <;> omega

omit [DecidableEq T] in
/-- Once a thread has stored, the counter never is 0 again. -/
theorem LastStore.pos (h : LastStore s) (ht : 0 < (s.pc t).increments) : 1 ≤ s.counterRacy := by
  rcases h with ⟨_, hzero⟩ | ⟨u, hpos, hle⟩
  · have hnone := hzero t
    omega
  · omega

/-- A step without a store. -/
theorem LastStore.setPc (h : LastStore s) {pc : Pc} (hpc : pc.increments = (s.pc t).increments) :
    LastStore (s.setPc t pc) := by
  have hsame : ∀ u, ((s.setPc t pc).pc u).increments = (s.pc u).increments := by
    intro u
    by_cases hu : u = t
    · simp [State.setPc, hu, hpc]
    · simp [State.setPc, hu]
  unfold LastStore
  simp only [hsame]
  exact h

variable [Fintype T]

omit [DecidableEq T] in
theorem CounterInv.init : CounterInv n (initState : State T) :=
  ⟨fun _ => Nat.zero_le _, fun _ => trivial, by simp [initState, total, Pc.increments],
    .inl ⟨rfl, fun _ => rfl⟩⟩

theorem CounterInv.setPc (h : CounterInv n s) {pc : Pc} (hcounts : pc.Counts n)
    (hincrements : pc.increments = (s.pc t).increments)
    (hloaded : pc.Loaded (total Pc.increments s.pc)) : CounterInv n (s.setPc t pc) := by
  have htotal : total Pc.increments (Function.update s.pc t pc) = total Pc.increments s.pc :=
    total_keep hincrements
  refine ⟨?_, ?_, ?_, h.last.setPc hincrements⟩
  · exact (Function.forall_update_iff s.pc fun _ pc => pc.Counts n).mpr
      ⟨hcounts, fun u _ => h.counts u⟩
  · simp only [State.setPc, htotal]
    exact (Function.forall_update_iff s.pc fun _ pc => pc.Loaded (total Pc.increments s.pc)).mpr
      ⟨hloaded, fun u _ => h.loaded u⟩
  · simp only [State.setPc, htotal]
    exact h.upper

theorem CounterInv.step (h : CounterInv n s) (hstep : Step n s t s') : CounterInv n s' := by
  have hcounts := h.counts t
  cases hstep with
  | loads hpc hi =>
      refine h.setPc hi (by rw [hpc]; rfl) ⟨h.last.nonneg, h.upper, ?_⟩
      intro hpos
      exact h.last.pos (t := t) (by rw [hpc]; exact hpos)
  | returns hpc hi =>
      rw [hpc] at hcounts
      exact h.setPc (Nat.le_antisymm hcounts hi) (by rw [hpc]; rfl) trivial
  | @stores i loaded hpc =>
      have hloaded := h.loaded t
      rw [hpc] at hcounts hloaded
      obtain ⟨hnonneg, hle, hpos⟩ := hloaded
      have htotal : total Pc.increments (Function.update s.pc t (.loop (i + 1))) =
          total Pc.increments s.pc + 1 := total_succ (by rw [hpc]; rfl)
      refine ⟨?_, ?_, ?_, .inr ⟨t, ?_, ?_⟩⟩
      · exact (Function.forall_update_iff s.pc fun _ pc => pc.Counts n).mpr
          ⟨hcounts, fun u _ => h.counts u⟩
      · simp only [State.setPc, htotal]
        exact (Function.forall_update_iff s.pc fun _ pc =>
          pc.Loaded (total Pc.increments s.pc + 1)).mpr
            ⟨trivial, fun u _ => (h.loaded u).mono (Nat.le_succ _)⟩
      · simp only [State.setPc, htotal]
        omega
      · simp [State.setPc, Pc.increments]
      · simp only [State.setPc, Function.update_self, Pc.increments]
        omega

theorem CounterInv.of_reachable (h : (system n).Reachable s) : CounterInv n s := by
  apply h.invariant
  · intro s₀ hinit
    rw [hinit]
    exact CounterInv.init
  · intro s₁ t s₂ hinv hnext
    exact hinv.step (next_cases hnext)

omit [DecidableEq T] in
theorem CounterInv.joined (h : CounterInv n s) (hjoined : Joined s) (t : T) :
    s.pc t = .returned n := by
  obtain ⟨i, hpc⟩ := hjoined t
  have hcounts := h.counts t
  rw [hpc] at hcounts
  rw [hpc, hcounts]

omit [DecidableEq T] in
theorem CounterInv.bounds (h : CounterInv n s) (hjoined : Joined s) (hthreads : 0 < Fintype.card T) :
    (min 2 n : Nat) ≤ s.counterRacy ∧ s.counterRacy ≤ (Fintype.card T * n : Nat) := by
  have hreturned := h.joined hjoined
  constructor
  · rcases h.last with ⟨hzero, hnone⟩ | ⟨t, _, hle⟩
    · obtain ⟨t⟩ := Fintype.card_pos_iff.mp hthreads
      have hn := hnone t
      rw [hreturned t] at hn
      simp only [Pc.increments] at hn
      omega
    · rw [hreturned t] at hle
      exact hle
  · have htotal : total Pc.increments s.pc = Fintype.card T * n :=
      total_const fun t => by rw [hreturned t]; rfl
    rw [← htotal]
    exact h.upper

/-! ## Termination -/

/-- Accesses a thread has still to make, and its return. -/
def Pc.remaining (n : Nat) : Pc → Nat
  | .loop i => 2 * (n - i) + 1
  | .store i _ => 2 * (n - i)
  | .returned _ => 0

theorem Step.remaining_lt (h : CounterInv n s) (hstep : Step n s t s') :
    total (Pc.remaining n) s'.pc < total (Pc.remaining n) s.pc := by
  have hcounts := h.counts t
  cases hstep with
  | loads hpc hi | returns hpc hi =>
      apply total_update_lt
      rw [hpc]
      simp [Pc.remaining]
  | stores hpc =>
      apply total_update_lt
      rw [hpc] at hcounts ⊢
      simp only [Pc.Counts, Pc.remaining] at hcounts ⊢
      omega

omit [Fintype T] in
theorem joined_or_enabled (n : Nat) (s : State T) : Joined s ∨ (system n).Enabled s := by
  by_cases hjoined : Joined s
  · exact .inl hjoined
  · obtain ⟨t, ht⟩ := not_forall.mp hjoined
    right
    apply Lts.enabled_of_isSome t
    show (next n s t).isSome
    unfold next
    cases hpc : s.pc t with
    | loop i => by_cases hi : i < n <;> simp [hi]
    | store i loaded => rfl
    | returned i => exact (ht ⟨i, hpc⟩).elim

/-- All threads are joined at last, whatever the interleaving. -/
theorem joins_inevitable (n : Nat) : (system n).Inevitable Joined (initState : State T) := by
  apply Lts.Inevitable.of_measure (I := CounterInv n) fun s => total (Pc.remaining n) s.pc
  · intro s _
    exact joined_or_enabled n s
  · intro s t s' hinv hnext
    have hstep := next_cases hnext
    exact ⟨hinv.step hstep, hstep.remaining_lt hinv⟩
  · exact CounterInv.init

end Model

end OsLabs.Concurrency
