import Mathlib.Data.Finset.Prod
import Mathlib.Data.Fintype.Prod
import Mathlib.Order.Interval.Finset.Nat
import OsLabs.PageCache.OpenFiles

/-! # The pipes the processes hold open

The processes and hybrid path again, with its descriptors in place of what the pipes
carry: `pipe` fails where it finds no two descriptors left, and a child, which inherits
the read ends of the pipes before its own, exits where one of its threads finds none for
the file. All other calls succeed here. Pipes and children are known by their round and
index.
-/

namespace OsLabs.PageCacheModels.Descriptors

open Threads

abbrev PipeId : Type := Nat × Nat

/-- The ends of pipes that a process holds open. -/
structure Ends where
  rd : Finset PipeId
  wr : Finset PipeId

def Ends.none : Ends := ⟨∅, ∅⟩

def Ends.count (e : Ends) : Nat := e.rd.card + e.wr.card

inductive ChildPc (workers : Nat) where
  | unborn
  | closeRead
  | team (team : Team workers)
  | closeWrite
  | exiting
  | zombie (status : Nat)
  | reaped (status : Nat)

structure ForkedChild (workers : Nat) where
  pc : ChildPc workers
  ends : Ends
  /-- Its line is in the pipe. -/
  wrote : Bool

inductive ForkPc (procs : Nat) where
  | pipe (p : Nat)
  | pipeFailed (p : Nat)
  | fork (p : Fin procs)
  | closeWrite (p : Fin procs)
  | scan (p : Nat)
  | fclose (p : Fin procs)
  | wait (j : Nat)
  | returned

/-- `round` counts from 0, and `summaries` the lines printed. -/
structure ForkState (procs workers rounds : Nat) where
  round : Fin rounds
  pc : ForkPc procs
  ends : Ends
  child : Fin rounds × Fin procs → ForkedChild workers
  summaries : Nat

inductive ForkAct (procs workers rounds : Nat) where
  | main
  | reap (q : Fin rounds × Fin procs)
  | child (q : Fin rounds × Fin procs) (a : TeamAct workers)

section Model

variable {procs workers rounds : Nat} (limit base : Nat)

def pipeId (q : Fin rounds × Fin procs) : PipeId := (q.1, q.2)

def ForkedChild.exits (ch : ForkedChild workers) (status : Nat) : ForkedChild workers :=
  { ch with pc := .zombie status, ends := .none }

def ForkedChild.after (ch : ForkedChild workers) : Except Nat (Team workers) → ForkedChild workers
  | .ok team => { ch with pc := .team team }
  | .error status => ch.exits status

def ForkedChild.reap (ch : ForkedChild workers) (status : Nat) : ForkedChild workers :=
  { ch with pc := .reaped status }

/-- `wait` knows of the child. -/
def ForkedChild.alive (ch : ForkedChild workers) : Nat :=
  match ch.pc with
  | .unborn | .reaped _ => 0
  | _ => 1

/-- The child of the pipe `q`. -/
def ForkedChild.next (q : PipeId) (ch : ForkedChild workers) (a : TeamAct workers) :
    Option (ForkedChild workers) :=
  match ch.pc with
  | .team team =>
      match team.pc, a with
      | .joined, .main => some { ch with pc := .closeWrite, wrote := true }
      | _, _ => (team.next limit (base + ch.ends.count) a).map ch.after
  | .closeRead =>
      some { ch with pc := .team .start, ends := { ch.ends with rd := ch.ends.rd.erase q } }
  | .closeWrite => some { ch with pc := .exiting, ends := { ch.ends with wr := ch.ends.wr.erase q } }
  | .exiting => some (ch.exits 0)
  | .unborn | .zombie _ | .reaped _ => none

namespace ForkState

variable (s : ForkState procs workers rounds)

def setChild (q : Fin rounds × Fin procs) (ch : ForkedChild workers) :
    ForkState procs workers rounds :=
  { s with child := Function.update s.child q ch }

/-- The pipe is at its end once it is empty. -/
def NoWriter (q : PipeId) : Prop := q ∉ s.ends.wr ∧ ∀ q', q ∉ (s.child q').ends.wr

instance (q : PipeId) : Decidable (s.NoWriter q) :=
  inferInstanceAs (Decidable (_ ∧ ∀ _, _))

/-- The summary line, and the next round if there is one. -/
def summary : ForkState procs workers rounds :=
  if h : s.round + 1 < rounds then
    { s with round := ⟨s.round + 1, h⟩, pc := .pipe 0, summaries := s.summaries + 1 }
  else { s with pc := .returned, summaries := s.summaries + 1 }

end ForkState

def forkNext (s : ForkState procs workers rounds) : Option (ForkState procs workers rounds) :=
  match s.pc with
  | .pipe p =>
      if h : p < procs then
        if base + s.ends.count + 2 ≤ limit then
          some { s with
            pc := .fork ⟨p, h⟩
            ends := ⟨insert (s.round.val, p) s.ends.rd, insert (s.round.val, p) s.ends.wr⟩ }
        else some { s with pc := .pipeFailed p }
      else some { s with pc := .scan 0 }
  | .fork p => some { s.setChild (s.round, p) ⟨.closeRead, s.ends, false⟩ with pc := .closeWrite p }
  | .closeWrite p =>
      some { s with
        pc := .pipe (p + 1)
        ends := { s.ends with wr := s.ends.wr.erase (pipeId (s.round, p)) } }
  | .scan p =>
      if h : p < procs then
        -- `fscanf` returns with the line, or at the end of the pipe
        if (s.child (s.round, ⟨p, h⟩)).wrote ∨ s.NoWriter (s.round, p) then
          some { s with pc := .fclose ⟨p, h⟩ }
        else none
      else some { s with pc := .wait 0 }
  | .fclose p =>
      some { s with
        pc := .scan (p + 1)
        ends := { s.ends with rd := s.ends.rd.erase (pipeId (s.round, p)) } }
  | .wait j =>
      if j < procs then
        -- `wait` returns -1 where there is no child
        if total ForkedChild.alive s.child = 0 then some { s with pc := .wait (j + 1) } else none
      else some s.summary
  | .pipeFailed _ | .returned => none

def reapNext (s : ForkState procs workers rounds) (q : Fin rounds × Fin procs) :
    Option (ForkState procs workers rounds) :=
  match s.pc, (s.child q).pc with
  | .wait j, .zombie status =>
      if j < procs then
        some { s.setChild q ((s.child q).reap status) with pc := .wait (j + 1) }
      else none
  | _, _ => none

def processesNext (s : ForkState procs workers rounds) :
    ForkAct procs workers rounds → Option (ForkState procs workers rounds)
  | .main => forkNext limit base s
  | .reap q => reapNext s q
  | .child q a => ((s.child q).next limit base (pipeId q) a).map (s.setChild q)

def processesInit (hrounds : 0 < rounds) : ForkState procs workers rounds :=
  ⟨⟨0, hrounds⟩, .pipe 0, .none, fun _ => ⟨.unborn, .none, false⟩, 0⟩

/-- `base` descriptors are open from the start, and each process may have `limit`. -/
def processesSystem (hrounds : 0 < rounds) :
    Lts (ForkState procs workers rounds) (ForkAct procs workers rounds) where
  init s := s = processesInit hrounds
  next := processesNext limit base

end Model

variable {procs workers rounds limit base : Nat}

/-! ## A child -/

/-- The ends a child holds. -/
def ChildPc.ends (q : PipeId) : ChildPc workers → Ends
  | .closeRead => ⟨{q.1} ×ˢ Finset.range (q.2 + 1), {q}⟩
  | .team _ | .closeWrite => ⟨{q.1} ×ˢ Finset.range q.2, {q}⟩
  | .exiting => ⟨{q.1} ×ˢ Finset.range q.2, ∅⟩
  | .unborn | .zombie _ | .reaped _ => .none

structure ForkedChild.Ok (q : PipeId) (ch : ForkedChild workers) : Prop where
  ends : ch.ends = ch.pc.ends q
  team : ∀ team, ch.pc = .team team → team.Ok

/-- What a step of a child does. -/
inductive ForkedChild.Step (limit base : Nat) (q : PipeId) (ch : ForkedChild workers) :
    ForkedChild workers → Prop
  | closeRead (hpc : ch.pc = .closeRead) :
      Step limit base q ch
        { ch with pc := .team .start, ends := { ch.ends with rd := ch.ends.rd.erase q } }
  | team {team team' : Team workers} (hpc : ch.pc = .team team)
      (hteam : team.Step limit (base + ch.ends.count) team') :
      Step limit base q ch { ch with pc := .team team' }
  | full {team : Team workers} {t : Fin workers} (hpc : ch.pc = .team team)
      (ht : team.thread t = .opening) (hfull : limit ≤ base + ch.ends.count + team.files) :
      Step limit base q ch (ch.exits 1)
  | write {team : Team workers} (hpc : ch.pc = .team team) (hjoined : team.pc = .joined) :
      Step limit base q ch { ch with pc := .closeWrite, wrote := true }
  | closeWrite (hpc : ch.pc = .closeWrite) :
      Step limit base q ch
        { ch with pc := .exiting, ends := { ch.ends with wr := ch.ends.wr.erase q } }
  | exits (hpc : ch.pc = .exiting) : Step limit base q ch (ch.exits 0)

section Child

variable {q : PipeId} {ch ch' : ForkedChild workers}

theorem ForkedChild.step_of_next {a : TeamAct workers} (h : ch.next limit base q a = some ch') :
    Step limit base q ch ch' := by
  unfold next at h
  split at h
  next team hpc =>
    split at h
    next hjoined =>
      cases h
      exact .write hpc hjoined
    next =>
      obtain ⟨o, ho, rfl⟩ := Option.map_eq_some_iff.mp h
      cases o with
      | ok team' => exact .team hpc (Team.step_of_next ho)
      | error status =>
          obtain ⟨rfl, t, ht, hfull⟩ := Team.exit_of_next ho
          exact .full hpc ht hfull
  next hpc =>
    cases h
    exact .closeRead hpc
  next hpc =>
    cases h
    exact .closeWrite hpc
  next hpc =>
    cases h
    exact .exits hpc
  next => cases h
  next => cases h
  next => cases h

/-- Steps of the team are steps of the child. -/
theorem ForkedChild.next_team {team : Team workers} {a : TeamAct workers}
    {o : Except Nat (Team workers)} (hpc : ch.pc = .team team)
    (h : team.next limit (base + ch.ends.count) a = some o) :
    ch.next limit base q a = some (ch.after o) := by
  simp only [next, hpc]
  split
  next hjoined =>
    simp only [Team.next, Team.mainNext, hjoined, Option.map_none] at h
    cases h
  next => rw [h, Option.map_some]

theorem erase_product_range (k n : Nat) :
    ({k} ×ˢ Finset.range (n + 1)).erase (k, n) = {k} ×ˢ Finset.range n := by
  ext ⟨a, b⟩
  simp only [Finset.mem_erase, Finset.mem_product, Finset.mem_singleton, Finset.mem_range, ne_eq,
    Prod.mk.injEq]
  omega

theorem ForkedChild.Ok.step (h : ch.Ok q) (hstep : Step limit base q ch ch') : ch'.Ok q := by
  have hends := h.ends
  cases hstep with
  | closeRead hpc =>
      rw [hpc] at hends
      refine ⟨?_, ?_⟩
      · simp only [hends, ChildPc.ends, Ends.mk.injEq, and_true]
        exact erase_product_range q.1 q.2
      · intro team heq
        cases heq
        exact .start
  | @team team team' hpc hteam =>
      rw [hpc] at hends
      refine ⟨hends, ?_⟩
      intro _ heq
      cases heq
      exact (h.team team hpc).step hteam
  | full => exact ⟨rfl, nofun⟩
  | write hpc hjoined =>
      rw [hpc] at hends
      exact ⟨hends, nofun⟩
  | closeWrite hpc =>
      rw [hpc] at hends
      refine ⟨?_, nofun⟩
      simp [hends, ChildPc.ends]
  | exits => exact ⟨rfl, nofun⟩

/-- A child that has a step is alive and stays so. -/
theorem ForkedChild.Step.alive (h : Step limit base q ch ch') :
    ch.alive = 1 ∧ ch'.alive = 1 := by
  cases h <;> simp [ForkedChild.alive, ForkedChild.exits, *]

theorem ForkedChild.Step.unborn (h : Step limit base q ch ch') : ch.pc ≠ .unborn ∧ ch'.pc ≠ .unborn := by
  cases h <;> simp [ForkedChild.exits, *]

def ChildPc.rest : ChildPc workers → Nat
  | .unborn => (Team.start : Team workers).rest + 6
  | .closeRead => (Team.start : Team workers).rest + 5
  | .team t => t.rest + 4
  | .closeWrite => 3
  | .exiting => 2
  | .zombie _ => 1
  | .reaped _ => 0

def ForkedChild.rest (ch : ForkedChild workers) : Nat := ch.pc.rest

theorem ForkedChild.Step.rest_lt (hok : ch.Ok q) (h : Step limit base q ch ch') : ch'.rest < ch.rest := by
  cases h with
  | closeRead hpc =>
      simp only [rest, hpc, ChildPc.rest]
      omega
  | @team team team' hpc hteam =>
      have hlt := hteam.rest_lt (hok.team team hpc)
      simp only [rest, hpc, ChildPc.rest]
      omega
  | full hpc =>
      simp only [rest, hpc, ChildPc.rest, ForkedChild.exits]
      omega
  | write hpc =>
      simp only [rest, hpc, ChildPc.rest]
      omega
  | closeWrite hpc =>
      simp only [rest, hpc, ChildPc.rest]
      omega
  | exits hpc =>
      simp only [rest, hpc, ChildPc.rest, ForkedChild.exits]
      omega

/-- A child moves on until it is a zombie. -/
theorem ForkedChild.Ok.enabled (h : ch.Ok q) (halive : ch.alive = 1) :
    (∃ status, ch.pc = .zombie status) ∨ ∃ a, (ch.next limit base q a).isSome := by
  cases hpc : ch.pc with
  | unborn => simp [ForkedChild.alive, hpc] at halive
  | closeRead => exact .inr ⟨.main, by simp [next, hpc]⟩
  | team team =>
      right
      by_cases hjoined : team.pc = .joined
      · exact ⟨.main, by simp [next, hpc, hjoined]⟩
      · obtain ⟨a, ha⟩ := @Team.Ok.enabled workers limit (base + ch.ends.count) team (h.team team hpc)
          hjoined
        obtain ⟨o, ho⟩ := Option.isSome_iff_exists.mp ha
        exact ⟨a, by rw [next_team hpc ho]; rfl⟩
  | closeWrite => exact .inr ⟨.main, by simp [next, hpc]⟩
  | exiting => exact .inr ⟨.main, by simp [next, hpc]⟩
  | zombie status => exact .inl ⟨status, rfl⟩
  | reaped status => simp [ForkedChild.alive, hpc] at halive

/-- Only the child of a pipe, and the parent, ever hold its write end. -/
theorem ForkedChild.Ok.mem_wr (h : ch.Ok q) {q' : PipeId} (hmem : q' ∈ ch.ends.wr) :
    q' = q ∧ ch.alive = 1 ∧ ∀ status, ch.pc ≠ .zombie status := by
  rw [h.ends] at hmem
  cases hpc : ch.pc <;> simp [hpc, ChildPc.ends, Ends.none] at hmem <;>
    simp [hmem, ForkedChild.alive, hpc]

/-- The descriptors of a child while its threads run, apart from the file. -/
theorem ForkedChild.Ok.count_team (h : ch.Ok q) {team : Team workers} (hpc : ch.pc = .team team) :
    ch.ends.count = q.2 + 1 := by
  simp [h.ends, hpc, ChildPc.ends, Ends.count]

end Child

/-! ## The parent -/

variable {s s' : ForkState procs workers rounds}

/-- What a step of the parent does. -/
inductive ForkStep (limit base : Nat) (s : ForkState procs workers rounds) :
    ForkState procs workers rounds → Prop
  | pipe {p : Nat} (hpc : s.pc = .pipe p) (hp : p < procs) (hroom : base + s.ends.count + 2 ≤ limit) :
      ForkStep limit base s { s with
        pc := .fork ⟨p, hp⟩
        ends := ⟨insert (s.round.val, p) s.ends.rd, insert (s.round.val, p) s.ends.wr⟩ }
  | pipeFailed {p : Nat} (hpc : s.pc = .pipe p) (hp : p < procs)
      (hfull : limit < base + s.ends.count + 2) : ForkStep limit base s { s with pc := .pipeFailed p }
  | forkedAll {p : Nat} (hpc : s.pc = .pipe p) (hp : procs ≤ p) :
      ForkStep limit base s { s with pc := .scan 0 }
  | fork {p : Fin procs} (hpc : s.pc = .fork p) :
      ForkStep limit base s
        { s.setChild (s.round, p) ⟨.closeRead, s.ends, false⟩ with pc := .closeWrite p }
  | closeWrite {p : Fin procs} (hpc : s.pc = .closeWrite p) :
      ForkStep limit base s { s with
        pc := .pipe (p + 1)
        ends := { s.ends with wr := s.ends.wr.erase (pipeId (s.round, p)) } }
  | scan {p : Nat} (hpc : s.pc = .scan p) (hp : p < procs) :
      ForkStep limit base s { s with pc := .fclose ⟨p, hp⟩ }
  | scannedAll {p : Nat} (hpc : s.pc = .scan p) (hp : procs ≤ p) :
      ForkStep limit base s { s with pc := .wait 0 }
  | fclose {p : Fin procs} (hpc : s.pc = .fclose p) :
      ForkStep limit base s { s with
        pc := .scan (p + 1)
        ends := { s.ends with rd := s.ends.rd.erase (pipeId (s.round, p)) } }
  | noChild {j : Nat} (hpc : s.pc = .wait j) (hj : j < procs)
      (hnone : total ForkedChild.alive s.child = 0) : ForkStep limit base s { s with pc := .wait (j + 1) }
  | summary {j : Nat} (hpc : s.pc = .wait j) (hj : procs ≤ j) : ForkStep limit base s s.summary

theorem fork_cases (h : forkNext limit base s = some s') : ForkStep limit base s s' := by
  unfold forkNext at h
  split at h
  next p hpc =>
    split at h
    next hp =>
      split at h
      next hroom =>
        cases h
        exact .pipe hpc hp hroom
      next hfull =>
        cases h
        exact .pipeFailed hpc hp (by omega)
    next hp =>
      cases h
      exact .forkedAll hpc (Nat.le_of_not_lt hp)
  next p hpc =>
    cases h
    exact .fork hpc
  next p hpc =>
    cases h
    exact .closeWrite hpc
  next p hpc =>
    split at h
    next hp =>
      split at h
      next =>
        cases h
        exact .scan hpc hp
      next => cases h
    next hp =>
      cases h
      exact .scannedAll hpc (Nat.le_of_not_lt hp)
  next p hpc =>
    cases h
    exact .fclose hpc
  next j hpc =>
    split at h
    next hj =>
      split at h
      next hnone =>
        cases h
        exact .noChild hpc hj hnone
      next => cases h
    next hj =>
      cases h
      exact .summary hpc (Nat.le_of_not_lt hj)
  next => cases h
  next => cases h

theorem reap_cases {q : Fin rounds × Fin procs} (h : reapNext s q = some s') :
    ∃ j status, s.pc = .wait j ∧ j < procs ∧ (s.child q).pc = .zombie status ∧
      s' = { s.setChild q ((s.child q).reap status) with pc := .wait (j + 1) } := by
  unfold reapNext at h
  split at h
  next j status hpc hzombie =>
    split at h
    next hj =>
      cases h
      exact ⟨j, status, hpc, hj, hzombie, rfl⟩
    next => cases h
  next => cases h

/-! ## What a run keeps -/

/-- The ends the parent holds in round `k`. -/
def ForkPc.ends (k : Nat) : ForkPc procs → Ends
  | .pipe p | .pipeFailed p => ⟨{k} ×ˢ Finset.range p, ∅⟩
  | .fork p | .closeWrite p => ⟨{k} ×ˢ Finset.range (p + 1), {(k, p.val)}⟩
  | .scan p => ⟨{k} ×ˢ Finset.Ico p procs, ∅⟩
  | .fclose p => ⟨{k} ×ˢ Finset.Ico p.val procs, ∅⟩
  | .wait _ | .returned => .none

/-- The children forked in this round. -/
def ForkPc.forked : ForkPc procs → Nat
  | .pipe p | .pipeFailed p => p
  | .fork p => p
  | .closeWrite p => p + 1
  | .scan _ | .fclose _ | .wait _ | .returned => procs

/-- The pipes opened in this round. -/
def ForkPc.opened : ForkPc procs → Nat
  | .pipe p | .pipeFailed p => p
  | .fork p | .closeWrite p => p + 1
  | .scan _ | .fclose _ | .wait _ | .returned => procs

/-- The children not waited for. -/
def ForkPc.unwaited : ForkPc procs → Nat
  | .pipe p | .pipeFailed p => p
  | .fork p => p
  | .closeWrite p => p + 1
  | .scan _ | .fclose _ => procs
  | .wait j => procs - j
  | .returned => 0

/-- The bounds of the loops. -/
def ForkPc.Bound (limit base : Nat) : ForkPc procs → Prop
  | .pipe p => p ≤ procs
  | .pipeFailed p => p < procs ∧ limit < base + p + 2
  | .wait j => j ≤ procs
  | _ => True

/-- The child is not forked yet. -/
def ForkState.Future (s : ForkState procs workers rounds) (q : Fin rounds × Fin procs) : Prop :=
  s.round < q.1 ∨ s.round = q.1 ∧ s.pc.forked ≤ q.2

structure ForkInv (limit base : Nat) (s : ForkState procs workers rounds) : Prop where
  child : ∀ q, (s.child q).Ok (pipeId q)
  unborn : ∀ q, (s.child q).pc = .unborn ↔ s.Future q
  alive : total ForkedChild.alive s.child = s.pc.unwaited
  ends : s.ends = s.pc.ends s.round
  bound : s.pc.Bound limit base
  room : 0 < s.pc.opened → base + s.pc.opened + 1 ≤ limit
  later : 0 < s.round.val → base + procs + 1 ≤ limit
  summaries : s.pc ≠ .returned → s.summaries = s.round
  returned : s.pc = .returned → s.round + 1 = rounds ∧ s.summaries = rounds

theorem ForkInv.init (hrounds : 0 < rounds) :
    ForkInv limit base (processesInit hrounds : ForkState procs workers rounds) := by
  refine ⟨fun q => ⟨rfl, nofun⟩, fun q => ?_, ?_, ?_, Nat.zero_le _, ?_, ?_, fun _ => rfl, nofun⟩
  · have hround : (⟨0, hrounds⟩ : Fin rounds) < q.1 ∨ ⟨0, hrounds⟩ = q.1 := by
      rcases Nat.eq_zero_or_pos q.1.val with hzero | hpos
      · exact .inr (Fin.ext hzero.symm)
      · exact .inl hpos
    simpa [processesInit, ForkState.Future, ForkPc.forked] using hround
  · have hnone : ∀ q, ForkedChild.alive ((processesInit hrounds :
        ForkState procs workers rounds).child q) = 0 := fun _ => rfl
    rw [total_const hnone, Nat.mul_zero]
    rfl
  · simp [processesInit, ForkPc.ends, Ends.none]
  · intro hpos
    exact absurd hpos (Nat.lt_irrefl 0)
  · intro hpos
    exact absurd hpos (Nat.lt_irrefl 0)

/-- The descriptors at the call of `pipe`. -/
theorem ForkInv.count_pipe (h : ForkInv limit base s) {p : Nat} (hpc : s.pc = .pipe p) :
    s.ends.count = p := by
  simp [h.ends, hpc, ForkPc.ends, Ends.count]

/-- A child of this round or an earlier one changes. -/
theorem ForkInv.unborn_set (h : ForkInv limit base s) {q : Fin rounds × Fin procs}
    {ch : ForkedChild workers} (hold : (s.child q).pc ≠ .unborn) (hnew : ch.pc ≠ .unborn)
    (q' : Fin rounds × Fin procs) :
    (Function.update s.child q ch q').pc = .unborn ↔ s.Future q' := by
  by_cases hq : q' = q
  · subst hq
    rw [Function.update_self, ← h.unborn q']
    exact ⟨fun heq => absurd heq hnew, fun heq => absurd heq hold⟩
  · rw [Function.update_of_ne hq]
    exact h.unborn q'

theorem ForkInv.child_set (h : ForkInv limit base s) {q : Fin rounds × Fin procs}
    {ch : ForkedChild workers} (hok : ch.Ok (pipeId q)) (q' : Fin rounds × Fin procs) :
    (Function.update s.child q ch q').Ok (pipeId q') :=
  (Function.forall_update_iff s.child fun q' ch' => ch'.Ok (pipeId q')).mpr
    ⟨hok, fun q'' _ => h.child q''⟩ q'

theorem ForkInv.childStep (h : ForkInv limit base s) {q : Fin rounds × Fin procs}
    {ch : ForkedChild workers} (hstep : (s.child q).Step limit base (pipeId q) ch) :
    ForkInv limit base (s.setChild q ch) := by
  refine ⟨h.child_set ((h.child q).step hstep), h.unborn_set hstep.unborn.1 hstep.unborn.2, ?_,
    h.ends, h.bound, h.room, h.later, h.summaries, h.returned⟩
  have hkeep : total ForkedChild.alive (s.setChild q ch).child = total ForkedChild.alive s.child :=
    total_keep (hstep.alive.2.trans hstep.alive.1.symm)
  rw [hkeep]
  exact h.alive

theorem ForkInv.reap (h : ForkInv limit base s) {q : Fin rounds × Fin procs} {j status : Nat}
    (hpc : s.pc = .wait j) (hj : j < procs) (hzombie : (s.child q).pc = .zombie status) :
    ForkInv limit base
      { s.setChild q ((s.child q).reap status) with pc := .wait (j + 1) } := by
  have hends := h.ends
  have hroom := h.room
  rw [hpc] at hends hroom
  have hok : ((s.child q).reap status).Ok (pipeId q) := by
    refine ⟨?_, nofun⟩
    have hnone := (h.child q).ends
    rw [hzombie] at hnone
    exact hnone
  refine ⟨h.child_set hok, ?_, ?_, hends, hj, hroom, h.later, fun _ => h.summaries (by simp [hpc]),
    nofun⟩
  · intro q'
    have hfuture : ForkState.Future
        { s.setChild q ((s.child q).reap status) with pc := .wait (j + 1) } q' ↔
        s.Future q' := by
      simp only [ForkState.Future, hpc]
      rfl
    rw [hfuture]
    exact h.unborn_set (by simp [hzombie]) (by simp [ForkedChild.reap]) q'
  · have hupdate := total_update ForkedChild.alive s.child q ((s.child q).reap status)
    have hold : (s.child q).alive = 1 := by simp [ForkedChild.alive, hzombie]
    have hnew : ((s.child q).reap status).alive = 0 := rfl
    have halive := h.alive
    rw [hold, hnew, halive, hpc] at hupdate
    simp only [ForkPc.unwaited] at hupdate ⊢
    simp only [ForkState.setChild]
    omega

/-- A step of the parent alone. -/
theorem ForkInv.move (h : ForkInv limit base s) {pc : ForkPc procs} {ends : Ends}
    (hforked : pc.forked = s.pc.forked) (hunwaited : pc.unwaited = s.pc.unwaited)
    (hends : ends = pc.ends s.round) (hbound : pc.Bound limit base)
    (hroom : 0 < pc.opened → base + pc.opened + 1 ≤ limit) (hold : s.pc ≠ .returned)
    (hnew : pc ≠ .returned) : ForkInv limit base { s with pc, ends } := by
  refine ⟨h.child, ?_, h.alive.trans hunwaited.symm, hends, hbound, hroom, h.later,
    fun _ => h.summaries hold, fun hreturned => absurd hreturned hnew⟩
  intro q
  have hfuture : ForkState.Future { s with pc, ends } q ↔ s.Future q := by
    simp only [ForkState.Future, hforked]
  rw [hfuture]
  exact h.unborn q

theorem ForkInv.fork (h : ForkInv limit base s) {p : Fin procs} (hpc : s.pc = .fork p) :
    ForkInv limit base
      { s.setChild (s.round, p) ⟨.closeRead, s.ends, false⟩ with pc := .closeWrite p } := by
  have hends := h.ends
  have hroom := h.room
  rw [hpc] at hends hroom
  have hunborn : (s.child (s.round, p)).pc = .unborn := by
    rw [h.unborn, ForkState.Future, hpc]
    exact .inr ⟨rfl, Nat.le_refl _⟩
  have hok : (⟨.closeRead, s.ends, false⟩ : ForkedChild workers).Ok (pipeId (s.round, p)) :=
    ⟨hends, nofun⟩
  refine ⟨h.child_set hok, ?_, ?_, hends, trivial, hroom, h.later, fun _ => h.summaries (by simp [hpc]),
    nofun⟩
  · intro q
    have hold := h.unborn q
    simp only [ForkState.setChild, ForkState.Future, hpc, ForkPc.forked] at hold ⊢
    by_cases hq : q = (s.round, p)
    · subst hq
      simp
    · rw [Function.update_of_ne hq, hold]
      have hne : s.round = q.1 → p.val ≠ q.2.val := by
        intro hround hval
        exact hq (Prod.ext hround.symm (Fin.ext hval.symm))
      constructor
      · rintro (hlt | ⟨hround, hle⟩)
        · exact .inl hlt
        · have hval := hne hround
          exact .inr ⟨hround, by omega⟩
      · rintro (hlt | ⟨hround, hle⟩)
        · exact .inl hlt
        · exact .inr ⟨hround, Nat.le_of_succ_le hle⟩
  · have hnew : total ForkedChild.alive (s.setChild (s.round, p) ⟨.closeRead, s.ends, false⟩).child =
        total ForkedChild.alive s.child + 1 :=
      total_succ (by simp [ForkedChild.alive, hunborn])
    rw [hnew, h.alive, hpc]
    rfl

/-- At the end of a round nothing is left of it. -/
theorem ForkInv.summary (h : ForkInv limit base s) (hprocs : 0 < procs) {j : Nat} (hpc : s.pc = .wait j)
    (hj : procs ≤ j) : ForkInv limit base s.summary := by
  have hends := h.ends
  have halive := h.alive
  have hroom := h.room
  have hunborn := h.unborn
  have hsummaries := h.summaries (by simp [hpc])
  simp only [ForkState.Future, hpc, ForkPc.ends, ForkPc.unwaited, ForkPc.opened, ForkPc.forked]
    at hends halive hroom hunborn
  rw [Nat.sub_eq_zero_of_le hj] at halive
  unfold ForkState.summary
  split
  next hnext =>
    refine ⟨h.child, ?_, halive, ?_, Nat.zero_le _, fun hpos => absurd hpos (Nat.lt_irrefl 0),
      fun _ => hroom hprocs, fun _ => congrArg Nat.succ hsummaries, nofun⟩
    · intro q
      have hq := q.2.isLt
      rw [hunborn q]
      simp only [ForkState.Future, ForkPc.forked, Fin.lt_def, Fin.ext_iff]
      omega
    · rw [hends]
      simp [ForkPc.ends, Ends.none]
  next hlast =>
    refine ⟨h.child, hunborn, halive, hends, trivial, hroom, h.later, fun hne => absurd rfl hne, ?_⟩
    intro _
    have hround := s.round.isLt
    simp only [hsummaries]
    omega

theorem ForkInv.forkStep (h : ForkInv limit base s) (hprocs : 0 < procs) (hstep : ForkStep limit base s s') :
    ForkInv limit base s' := by
  have hends := h.ends
  have hbound := h.bound
  have hroom := h.room
  cases hstep with
  | @pipe p hpc hp hfree =>
      rw [h.count_pipe hpc] at hfree
      rw [hpc] at hends
      refine h.move (by rw [hpc]; rfl) (by rw [hpc]; rfl) ?_ trivial ?_ (by simp [hpc]) nofun
      · rw [hends]
        simp only [ForkPc.ends, Ends.mk.injEq]
        refine ⟨?_, rfl⟩
        rw [← erase_product_range, Finset.insert_erase]
        simp
      · intro _
        simp only [ForkPc.opened]
        omega
  | @pipeFailed p hpc hp hfull =>
      rw [h.count_pipe hpc] at hfull
      rw [hpc] at hends hroom
      exact h.move (by rw [hpc]; rfl) (by rw [hpc]; rfl) hends ⟨hp, hfull⟩ hroom (by simp [hpc]) nofun
  | @forkedAll p hpc hp =>
      rw [hpc] at hends hroom hbound
      have hall : p = procs := Nat.le_antisymm hbound hp
      subst hall
      refine h.move (by rw [hpc]; rfl) (by rw [hpc]; rfl) ?_ trivial hroom (by simp [hpc]) nofun
      rw [hends, ForkPc.ends, ForkPc.ends, Finset.range_eq_Ico]
  | @fork p hpc => exact h.fork hpc
  | @closeWrite p hpc =>
      rw [hpc] at hends hroom
      refine h.move (by rw [hpc]; rfl) (by rw [hpc]; rfl) ?_ p.isLt hroom (by simp [hpc]) nofun
      simp [hends, ForkPc.ends, pipeId]
  | @scan p hpc hp =>
      rw [hpc] at hends hroom
      exact h.move (by rw [hpc]; rfl) (by rw [hpc]; rfl) hends trivial hroom (by simp [hpc]) nofun
  | @scannedAll p hpc hp =>
      rw [hpc] at hends hroom
      refine h.move (by rw [hpc]; rfl) (by rw [hpc]; rfl) ?_ (Nat.zero_le _) hroom (by simp [hpc]) nofun
      rw [hends, ForkPc.ends, Finset.Ico_eq_empty_of_le hp, Finset.product_empty]
      rfl
  | @fclose p hpc =>
      rw [hpc] at hends hroom
      refine h.move (by rw [hpc]; rfl) (by rw [hpc]; rfl) ?_ trivial hroom (by simp [hpc]) nofun
      simp only [hends, ForkPc.ends, Ends.mk.injEq, and_true, pipeId]
      ext ⟨a, b⟩
      simp only [Finset.mem_erase, Finset.mem_product, Finset.mem_singleton, Finset.mem_Ico, ne_eq,
        Prod.mk.injEq]
      omega
  | @noChild j hpc hj hnone =>
      -- as many children are left as `wait` is still called for
      have halive := h.alive
      rw [hnone, hpc] at halive
      simp only [ForkPc.unwaited] at halive
      omega
  | summary hpc hj => exact h.summary hprocs hpc hj

theorem ForkInv.step (h : ForkInv limit base s) (hprocs : 0 < procs) {a : ForkAct procs workers rounds}
    (hnext : processesNext limit base s a = some s') : ForkInv limit base s' := by
  cases a with
  | main => exact h.forkStep hprocs (fork_cases hnext)
  | reap q =>
      obtain ⟨j, status, hpc, hj, hzombie, rfl⟩ := reap_cases hnext
      exact h.reap hpc hj hzombie
  | child q a =>
      obtain ⟨ch, hch, rfl⟩ := Option.map_eq_some_iff.mp hnext
      exact h.childStep (ForkedChild.step_of_next hch)

theorem ForkInv.of_reachable (hprocs : 0 < procs) {hrounds : 0 < rounds}
    (h : (processesSystem limit base hrounds).Reachable s) : ForkInv limit base s := by
  refine h.invariant ?_ fun _ _ _ h hnext => h.step hprocs hnext
  intro s hinit
  cases hinit
  exact .init hrounds

end OsLabs.PageCacheModels.Descriptors
