import OsLabs.Core.Lts

/-! # A byte between two pipes

The loops that measure a context switch: the parent writes a byte to one pipe and reads
one from the other, and the child, or the thread `thread_ping`, reads and writes the
other way around. Both keep all ends of the pipes open, so a read of an empty pipe
blocks. There is only one schedule.
-/

namespace OsLabs.Processes.PingPong

/-- The next call of the parent; behind its loop it waits for the child. -/
inductive ParentPc where
  | write (i : Nat)
  | read (i : Nat)
  | wait
  | returned
  deriving DecidableEq

inductive ChildPc where
  | read (i : Nat)
  | write (i : Nat)
  | returned
  deriving DecidableEq

structure State where
  p1 : List UInt8
  p2 : List UInt8
  parent : ParentPc
  parentC : UInt8
  child : ChildPc
  childC : UInt8

/-- Who makes the step. -/
inductive Party where
  | parent
  | child
  deriving DecidableEq

def ParentPc.loop (N i : Nat) : ParentPc := if i < N then .write i else .wait

def ChildPc.loop (M i : Nat) : ChildPc := if i < M then .read i else .returned

/-- `write(fd, &c, 1)`, which blocks while the pipe is full. -/
def pipeWrite (cap : Nat) (pipe : List UInt8) (c : UInt8) : Option (List UInt8) :=
  if pipe.length < cap then some (pipe ++ [c]) else none

/-- `read(fd, &c, 1)`, which blocks while the pipe is empty. -/
def pipeRead : List UInt8 → Option (UInt8 × List UInt8)
  | [] => none
  | c :: pipe => some (c, pipe)

def parentNext (cap N : Nat) (s : State) : Option State :=
  match s.parent with
  | .write i => (pipeWrite cap s.p1 s.parentC).map fun p1 => { s with p1, parent := .read i }
  | .read i =>
      (pipeRead s.p2).map fun r => { s with parentC := r.1, p2 := r.2, parent := .loop N (i + 1) }
  | .wait => if s.child = .returned then some { s with parent := .returned } else none
  | .returned => none

def childNext (cap M : Nat) (s : State) : Option State :=
  match s.child with
  | .read i => (pipeRead s.p1).map fun r => { s with childC := r.1, p1 := r.2, child := .write i }
  | .write i =>
      (pipeWrite cap s.p2 s.childC).map fun p2 => { s with p2, child := .loop M (i + 1) }
  | .returned => none

def next (cap N M : Nat) (s : State) : Party → Option State
  | .parent => parentNext cap N s
  | .child => childNext cap M s

def initState (N M : Nat) (c : UInt8) : State := ⟨[], [], .loop N 0, c, .loop M 0, c⟩

/-- The loops make `N` and `M` iterations; both are 100000 in the lab, and `c` is 0. -/
def system (cap N M : Nat) (c : UInt8) : Lts State Party where
  init s := s = initState N M c
  next := next cap N M

/-! ## The schedule -/

def roundTrip : List Party := [.parent, .child, .child, .parent]

def roundTrips (i : Nat) : List Party := (List.replicate i roundTrip).flatten

/-- All steps of the program, the last one the parent's `wait` or a `write` that is not
answered. -/
def schedule (N M : Nat) : List Party :=
  if N < M then roundTrips N else roundTrips M ++ [.parent]

theorem roundTrips_succ (i : Nat) : roundTrips (i + 1) = roundTrips i ++ roundTrip := by
  rw [roundTrips, roundTrips, List.replicate_succ', List.flatten_append]
  simp

theorem roundTrips_isPrefix {i j : Nat} (h : i ≤ j) : roundTrips i <+: roundTrips j := by
  induction h with
  | refl => exact List.prefix_refl _
  | step _ ih =>
      rw [roundTrips_succ]
      exact ih.trans (List.prefix_append _ _)

/-- Where the byte is. -/
inductive Turn where
  | parent (i : Nat)
  | sent (i : Nat)
  | child (i : Nat)
  | replied (i : Nat)
  | joined

/-- The state at a turn. -/
def Turn.At (N M : Nat) (c : UInt8) (s : State) : Turn → Prop
  | .parent i => i ≤ N ∧ i ≤ M ∧ s.parent = .loop N i ∧ s.child = .loop M i ∧ s.p1 = [] ∧ s.p2 = []
  | .sent i => i < N ∧ i ≤ M ∧ s.parent = .read i ∧ s.child = .loop M i ∧ s.p1 = [c] ∧ s.p2 = []
  | .child i =>
      i < N ∧ i < M ∧ s.parent = .read i ∧ s.child = .write i ∧ s.p1 = [] ∧ s.p2 = [] ∧ s.childC = c
  | .replied i =>
      i < N ∧ i < M ∧ s.parent = .read i ∧ s.child = .loop M (i + 1) ∧ s.p1 = [] ∧ s.p2 = [c]
  | .joined => N = M ∧ s.parent = .returned ∧ s.child = .returned ∧ s.p1 = [] ∧ s.p2 = []

/-- The steps made up to a turn. -/
def Turn.made (N : Nat) : Turn → List Party
  | .parent i => roundTrips i
  | .sent i => roundTrips i ++ [.parent]
  | .child i => roundTrips i ++ [.parent, .child]
  | .replied i => roundTrips i ++ [.parent, .child, .child]
  | .joined => roundTrips N ++ [.parent]

structure Inv (N M : Nat) (c : UInt8) (ts : List (Transition State Party)) (s : State) : Prop where
  parentC : s.parentC = c
  turn : ∃ turn : Turn, turn.At N M c s ∧ ts.map (·.action) = turn.made N

section Steps

variable {cap N M : Nat} {c : UInt8} {s s' : State} {ts : List (Transition State Party)}

theorem Inv.init (N M : Nat) (c : UInt8) : Inv N M c [] (initState N M c) :=
  ⟨rfl, .parent 0, ⟨Nat.zero_le N, Nat.zero_le M, rfl, rfl, rfl, rfl⟩, rfl⟩

theorem Inv.parent_step (h : Inv N M c ts s) (hcap : 0 < cap) (hnext : parentNext cap N s = some s') :
    Inv N M c (ts ++ [⟨s, .parent, s'⟩]) s' := by
  obtain ⟨hc, turn, hturn, hmade⟩ := h
  cases turn with
  | parent i =>
      obtain ⟨hiN, hiM, hparent, hchild, hp1, hp2⟩ := hturn
      unfold parentNext at hnext
      by_cases hi : i < N
      · simp only [hparent, ParentPc.loop, if_pos hi, pipeWrite, hp1, List.length_nil, if_pos hcap,
          Option.map_some, Option.some.injEq] at hnext
        subst hnext
        refine ⟨hc, .sent i, ⟨hi, hiM, rfl, hchild, by simp [hc], hp2⟩, ?_⟩
        simp [Turn.made, hmade]
      · simp only [hparent, ParentPc.loop, if_neg hi] at hnext
        split at hnext
        next hreturned =>
          cases hnext
          have hiM' : ¬ i < M := by
            intro hlt
            rw [hchild, ChildPc.loop, if_pos hlt] at hreturned
            cases hreturned
          refine ⟨hc, .joined, ⟨by omega, rfl, hreturned, hp1, hp2⟩, ?_⟩
          have hi' : i = N := by omega
          simp [Turn.made, hmade, hi']
        next => cases hnext
  | sent i | child i =>
      simp [parentNext, hturn.2.2.1, pipeRead, hturn.2.2.2.2.2] at hnext
  | replied i =>
      obtain ⟨hiN, hiM, hparent, hchild, hp1, hp2⟩ := hturn
      simp only [parentNext, hparent, pipeRead, hp2, Option.map_some, Option.some.injEq] at hnext
      subst hnext
      refine ⟨rfl, .parent (i + 1), ⟨hiN, hiM, rfl, hchild, hp1, rfl⟩, ?_⟩
      simp [Turn.made, hmade, roundTrips_succ, roundTrip]
  | joined => simp [parentNext, hturn.2.1] at hnext

theorem Inv.child_step (h : Inv N M c ts s) (hcap : 0 < cap) (hnext : childNext cap M s = some s') :
    Inv N M c (ts ++ [⟨s, .child, s'⟩]) s' := by
  obtain ⟨hc, turn, hturn, hmade⟩ := h
  have hloop : ∀ i, s.child = .loop M i → s.p1 = [] → False := by
    intro i hchild hp1
    unfold childNext at hnext
    by_cases hi : i < M
    · simp [hchild, ChildPc.loop, hi, pipeRead, hp1] at hnext
    · simp [hchild, ChildPc.loop, hi] at hnext
  cases turn with
  | parent i => exact (hloop i hturn.2.2.2.1 hturn.2.2.2.2.1).elim
  | sent i =>
      obtain ⟨hiN, hiM, hparent, hchild, hp1, hp2⟩ := hturn
      unfold childNext at hnext
      by_cases hi : i < M
      · simp only [hchild, ChildPc.loop, if_pos hi, pipeRead, hp1, Option.map_some,
          Option.some.injEq] at hnext
        subst hnext
        refine ⟨hc, .child i, ⟨hiN, hi, hparent, rfl, rfl, hp2, rfl⟩, ?_⟩
        simp [Turn.made, hmade]
      · simp [hchild, ChildPc.loop, hi] at hnext
  | child i =>
      obtain ⟨hiN, hiM, hparent, hchild, hp1, hp2, hchildC⟩ := hturn
      simp only [childNext, hchild, pipeWrite, hp2, List.length_nil, if_pos hcap, Option.map_some,
        Option.some.injEq] at hnext
      subst hnext
      refine ⟨hc, .replied i, ⟨hiN, hiM, hparent, rfl, hp1, by simp [hchildC]⟩, ?_⟩
      simp [Turn.made, hmade]
  | replied i => exact (hloop (i + 1) hturn.2.2.2.1 hturn.2.2.2.2.1).elim
  | joined => simp [childNext, hturn.2.2.1] at hnext

theorem Inv.of_runs (hcap : 0 < cap) (hruns : (system cap N M c).RunsTo (initState N M c) ts s) :
    Inv N M c ts s := by
  apply hruns.history (I := Inv N M c) (.init N M c)
  intro ts₁ s₁ a s₂ _ h hnext
  cases a with
  | parent => exact h.parent_step hcap hnext
  | child => exact h.child_step hcap hnext

/-- The steps made are the first of the schedule. -/
theorem Turn.made_prefix {turn : Turn} (h : turn.At N M c s) : turn.made N <+: schedule N M := by
  have htrip : ∀ i (steps : List Party), i < N → i < M → steps <+: roundTrip →
      roundTrips i ++ steps <+: schedule N M := by
    intro i steps hiN hiM hsteps
    have hnext : roundTrips i ++ steps <+: roundTrips (i + 1) := by
      rw [roundTrips_succ]
      exact (List.prefix_append_right_inj _).mpr hsteps
    unfold schedule
    split
    · exact hnext.trans (roundTrips_isPrefix hiN)
    · exact (hnext.trans (roundTrips_isPrefix hiM)).trans (List.prefix_append _ _)
  cases turn with
  | parent i =>
      unfold schedule
      split
      · exact roundTrips_isPrefix h.1
      · exact (roundTrips_isPrefix h.2.1).trans (List.prefix_append _ _)
  | sent i =>
      by_cases hi : i < M
      · exact htrip i _ h.1 hi ⟨[.child, .child, .parent], rfl⟩
      · have hM : i = M := Nat.le_antisymm h.2.1 (Nat.le_of_not_lt hi)
        have hlt := h.1
        have hschedule : schedule N M = roundTrips M ++ [.parent] := if_neg (by omega)
        simp [hschedule, Turn.made, hM]
  | child i => exact htrip i _ h.1 h.2.1 ⟨[.child, .parent], rfl⟩
  | replied i => exact htrip i _ h.1 h.2.1 ⟨[.parent], rfl⟩
  | joined =>
      have heq := h.1
      have hschedule : schedule N M = roundTrips N ++ [.parent] := by
        rw [schedule, if_neg (by omega), heq]
      simp [hschedule, Turn.made]

/-- A program that cannot go on is at the end of its schedule. -/
theorem Turn.stuck {turn : Turn} (h : turn.At N M c s) (hcap : 0 < cap)
    (hparent : parentNext cap N s = none) (hchild : childNext cap M s = none) :
    turn.made N = schedule N M ∧ (s.parent = .returned ↔ N = M) := by
  cases turn with
  | parent i =>
      obtain ⟨hiN, hiM, hpc, hchildPc, hp1, hp2⟩ := h
      have hi : i = N := by
        by_contra hne
        have hlt : i < N := by omega
        simp [parentNext, hpc, ParentPc.loop, hlt, pipeWrite, hp1, hcap] at hparent
      have hlt : N < M := by
        by_contra hge
        simp [parentNext, hpc, ParentPc.loop, hi, hchildPc, ChildPc.loop, hge] at hparent
      rw [Turn.made, schedule, if_pos hlt, hi, hpc, ParentPc.loop, if_neg (by omega)]
      exact ⟨rfl, by simp, by omega⟩
  | sent i =>
      obtain ⟨hiN, hiM, hpc, hchildPc, hp1, hp2⟩ := h
      have hi : i = M := by
        by_contra hne
        have hlt : i < M := by omega
        simp [childNext, hchildPc, ChildPc.loop, hlt, pipeRead, hp1] at hchild
      rw [Turn.made, schedule, if_neg (by omega), hi, hpc]
      exact ⟨rfl, by simp, by omega⟩
  | child i =>
      obtain ⟨hiN, hiM, hpc, hchildPc, hp1, hp2, hchildC⟩ := h
      simp [childNext, hchildPc, pipeWrite, hp2, hcap] at hchild
  | replied i =>
      obtain ⟨hiN, hiM, hpc, hchildPc, hp1, hp2⟩ := h
      simp [parentNext, hpc, pipeRead, hp2] at hparent
  | joined =>
      obtain ⟨heq, hpc, hchildPc, hp1, hp2⟩ := h
      rw [Turn.made, schedule, if_neg (by omega), hpc, heq]
      exact ⟨rfl, fun _ => rfl, fun _ => rfl⟩

theorem Turn.one_byte {turn : Turn} (h : turn.At N M c s) :
    s.p1.length + s.p2.length ≤ 1 ∧ ∀ b ∈ s.p1 ++ s.p2, b = c := by
  cases turn with
  | parent i => simp [h.2.2.2.2.1, h.2.2.2.2.2]
  | sent i => simp [h.2.2.2.2.1, h.2.2.2.2.2]
  | child i => simp [h.2.2.2.2.1, h.2.2.2.2.2.1]
  | replied i => simp [h.2.2.2.2.1, h.2.2.2.2.2]
  | joined => simp [h.2.2.2.1, h.2.2.2.2]

end Steps

/-- Whatever the lengths of the loops: at most one byte is on its way, always the
parent's, the steps of every run are the first ones of one schedule, and a run stops
only at the end of it, where the parent has returned if and only if the loops are of
one length. -/
theorem one_schedule {cap N M : Nat} (hcap : 0 < cap) {c : UInt8} {s : State}
    {ts : List (Transition State Party)}
    (hruns : (system cap N M c).RunsTo (initState N M c) ts s) :
    (s.p1.length + s.p2.length ≤ 1 ∧ ∀ b ∈ s.parentC :: (s.p1 ++ s.p2), b = c) ∧
      ts.map (·.action) <+: schedule N M ∧
      (¬ (system cap N M c).Enabled s →
        ts.map (·.action) = schedule N M ∧ (s.parent = .returned ↔ N = M)) := by
  obtain ⟨hc, turn, hturn, hmade⟩ := Inv.of_runs hcap hruns
  obtain ⟨hlength, hbytes⟩ := Turn.one_byte hturn
  refine ⟨⟨hlength, ?_⟩, ?_, ?_⟩
  · rw [List.forall_mem_cons]
    exact ⟨hc, hbytes⟩
  · rw [hmade]
    exact Turn.made_prefix hturn
  · intro hstuck
    have hnone : ∀ party, next cap N M s party = none := by
      intro party
      cases hnext : next cap N M s party with
      | none => rfl
      | some s' => exact (hstuck ⟨party, s', hnext⟩).elim
    rw [hmade]
    exact Turn.stuck hturn hcap (hnone .parent) (hnone .child)

/-- Two round trips of a pipe that holds one byte. -/
theorem one_schedule_two_trips :
    ∃ (ts : List (Transition State Party)) (s : State),
      (system 1 2 2 0).RunsTo (initState 2 2 0) ts s ∧ ts.length = 9 ∧ s.parent = .returned ∧
      ts.map (·.action) <+: schedule 2 2 := by
  have htrace : (system 1 2 2 0).trace (initState 2 2 0) (schedule 2 2) = some (_, _) := rfl
  have hruns := Lts.RunsTo.of_trace htrace
  exact ⟨_, _, hruns, rfl, rfl, (one_schedule (by decide) hruns).2.1⟩

end OsLabs.Processes.PingPong
