import Mathlib.Logic.Relation
import OsLabs.Core.Lts
import OsLabs.Core.Threads
import OsLabs.PageCache.Setup

/-! # The files the workers hold open

Each worker opens the file for itself, so a process holds up to one descriptor more for
each of its threads. `open` fails where the process has as many as its limit, and
`read_range` then exits the whole process. All other calls succeed here.
-/

namespace OsLabs.PageCacheModels.Descriptors

open Threads

/-- Where a thread is: before `open`, before `close`, behind it. -/
inductive ThreadPc where
  | notCreated
  | opening
  | reading
  | done
  deriving DecidableEq

inductive TeamPc where
  | create (t : Nat)
  | join (t : Nat)
  | joined
  deriving DecidableEq

/-- The loops over the threads in `main`, or in a child. -/
structure Team (workers : Nat) where
  pc : TeamPc
  thread : Fin workers → ThreadPc

inductive TeamAct (workers : Nat) where
  | main
  | thread (t : Fin workers)

section Model

variable {workers : Nat}

def Team.start : Team workers := ⟨.create 0, fun _ => .notCreated⟩

def ThreadPc.files : ThreadPc → Nat
  | .reading => 1
  | _ => 0

/-- The descriptors of the threads. -/
def Team.files (team : Team workers) : Nat := total ThreadPc.files team.thread

def Team.set (team : Team workers) (t : Fin workers) (pc : ThreadPc) : Team workers :=
  { team with thread := Function.update team.thread t pc }

def Team.mainNext (team : Team workers) : Option (Team workers) :=
  match team.pc with
  | .create t =>
      if h : t < workers then some { team.set ⟨t, h⟩ .opening with pc := .create (t + 1) }
      else some { team with pc := .join 0 }
  | .join t =>
      if h : t < workers then
        if team.thread ⟨t, h⟩ = .done then some { team with pc := .join (t + 1) } else none
      else some { team with pc := .joined }
  | .joined => none

/-- `.error` is the status the process exits with; `held` are its other descriptors. -/
def Team.threadNext (limit held : Nat) (team : Team workers) (t : Fin workers) :
    Option (Except Nat (Team workers)) :=
  match team.thread t with
  | .opening =>
      if held + team.files < limit then some (.ok (team.set t .reading)) else some (.error 1)
  | .reading => some (.ok (team.set t .done))
  | .notCreated | .done => none

def Team.next (limit held : Nat) (team : Team workers) :
    TeamAct workers → Option (Except Nat (Team workers))
  | .main => team.mainNext.map .ok
  | .thread t => team.threadNext limit held t

end Model

variable {workers limit held : Nat} {team team' : Team workers}

/-! ## Steps of a process -/

/-- What a step does, unless the process exits. -/
inductive Team.Step (limit held : Nat) (team : Team workers) : Team workers → Prop
  | create {t : Nat} (hpc : team.pc = .create t) (ht : t < workers) :
      Step limit held team { team.set ⟨t, ht⟩ .opening with pc := .create (t + 1) }
  | created {t : Nat} (hpc : team.pc = .create t) (ht : workers ≤ t) :
      Step limit held team { team with pc := .join 0 }
  | join {t : Nat} (hpc : team.pc = .join t) (ht : t < workers) (hdone : team.thread ⟨t, ht⟩ = .done) :
      Step limit held team { team with pc := .join (t + 1) }
  | joined {t : Nat} (hpc : team.pc = .join t) (ht : workers ≤ t) :
      Step limit held team { team with pc := .joined }
  | opens {t : Fin workers} (ht : team.thread t = .opening) (hfree : held + team.files < limit) :
      Step limit held team (team.set t .reading)
  | closes {t : Fin workers} (ht : team.thread t = .reading) :
      Step limit held team (team.set t .done)

theorem Team.step_of_next {a : TeamAct workers} (h : team.next limit held a = some (.ok team')) :
    Step limit held team team' := by
  cases a with
  | main =>
      obtain ⟨team₁, hmain, hok⟩ := Option.map_eq_some_iff.mp h
      cases hok
      unfold mainNext at hmain
      split at hmain
      next t hpc =>
        split at hmain
        next ht =>
          cases hmain
          exact .create hpc ht
        next ht =>
          cases hmain
          exact .created hpc (Nat.le_of_not_lt ht)
      next t hpc =>
        split at hmain
        next ht =>
          split at hmain
          next hdone =>
            cases hmain
            exact .join hpc ht hdone
          next => cases hmain
        next ht =>
          cases hmain
          exact .joined hpc (Nat.le_of_not_lt ht)
      next => cases hmain
  | thread t =>
      simp only [next, threadNext] at h
      split at h
      next ht =>
        split at h
        next hfree =>
          cases h
          exact .opens ht hfree
        next => cases h
      next ht =>
        cases h
        exact .closes ht
      next => cases h
      next => cases h

/-- A process exits where a thread finds no descriptor left. -/
theorem Team.exit_of_next {a : TeamAct workers} {status : Nat}
    (h : team.next limit held a = some (.error status)) :
    status = 1 ∧ ∃ t, team.thread t = .opening ∧ limit ≤ held + team.files := by
  cases a with
  | main =>
      obtain ⟨team₁, _, herror⟩ := Option.map_eq_some_iff.mp h
      cases herror
  | thread t =>
      simp only [next, threadNext] at h
      split at h
      next ht =>
        split at h
        next => cases h
        next hfull =>
          cases h
          exact ⟨rfl, t, ht, Nat.le_of_not_lt hfull⟩
      next => cases h
      next => cases h
      next => cases h

theorem Team.next_opening {t : Fin workers} (ht : team.thread t = .opening)
    (hfree : held + team.files < limit) :
    team.next limit held (.thread t) = some (.ok (team.set t .reading)) := by
  simp only [next, threadNext, ht, if_pos hfree]

theorem Team.next_full {t : Fin workers} (ht : team.thread t = .opening)
    (hfull : limit ≤ held + team.files) : team.next limit held (.thread t) = some (.error 1) := by
  simp only [next, threadNext, ht, if_neg (Nat.not_lt.mpr hfull)]

/-! ## Created and joined threads -/

/-- Threads from here on are not created. -/
def TeamPc.created (workers : Nat) : TeamPc → Nat
  | .create t => t
  | .join _ | .joined => workers

/-- Threads up to here are joined. -/
def TeamPc.joinedTo (workers : Nat) : TeamPc → Nat
  | .create _ => 0
  | .join t => t
  | .joined => workers

structure Team.Ok (team : Team workers) : Prop where
  created : ∀ t, team.thread t = .notCreated ↔ team.pc.created workers ≤ t
  joined : ∀ t : Fin workers, t < team.pc.joinedTo workers → team.thread t = .done

theorem Team.Ok.start : (start : Team workers).Ok := by
  refine ⟨fun t => ?_, fun t ht => absurd ht (Nat.not_lt_zero t)⟩
  simp [Team.start, TeamPc.created]

/-- A thread that moves on was created and is not joined. -/
theorem Team.Ok.set (h : team.Ok) {t : Fin workers} {pc : ThreadPc}
    (hold : team.thread t ≠ .notCreated) (hnew : pc ≠ .notCreated) (hdone : team.thread t ≠ .done) :
    (team.set t pc).Ok := by
  refine ⟨?_, ?_⟩
  · intro u
    by_cases hu : u = t
    · subst hu
      have hcreated := h.created u
      simp only [Team.set, Function.update_self]
      constructor
      · intro hpc
        exact absurd hpc hnew
      · intro hle
        exact absurd (hcreated.mpr hle) hold
    · simp only [Team.set, Function.update_of_ne hu]
      exact h.created u
  · intro u hu
    have hne : u ≠ t := by
      intro heq
      exact hdone (heq ▸ h.joined u hu)
    simp only [Team.set, Function.update_of_ne hne]
    exact h.joined u hu

theorem Team.Ok.step (h : team.Ok) (hstep : Step limit held team team') : team'.Ok := by
  cases hstep with
  | @create t hpc ht =>
      refine ⟨?_, fun u hu => absurd hu (Nat.not_lt_zero u)⟩
      intro u
      have hcreated := h.created u
      rw [hpc] at hcreated
      by_cases hu : u = ⟨t, ht⟩
      · subst hu
        simp [Team.set, TeamPc.created]
      · have hne : u.val ≠ t := fun heq => hu (Fin.ext heq)
        simp only [Team.set, Function.update_of_ne hu, TeamPc.created] at hcreated ⊢
        rw [hcreated]
        omega
  | @created t hpc ht =>
      refine ⟨?_, fun u hu => absurd hu (Nat.not_lt_zero u)⟩
      intro u
      have hcreated := h.created u
      have hlt := u.isLt
      simp only [hpc, TeamPc.created] at hcreated ⊢
      rw [hcreated]
      omega
  | @join t hpc ht hdone =>
      refine ⟨fun u => ?_, ?_⟩
      · have hcreated := h.created u
        rwa [hpc] at hcreated
      · intro u hu
        rcases Nat.lt_or_ge u t with hlt | hge
        · apply h.joined
          rw [hpc]
          exact hlt
        · have heq : u = ⟨t, ht⟩ := by
            apply Fin.ext
            simp only [TeamPc.joinedTo] at hu
            show u.val = t
            omega
          rw [heq]
          exact hdone
  | @joined t hpc ht =>
      refine ⟨fun u => ?_, ?_⟩
      · have hcreated := h.created u
        rwa [hpc] at hcreated
      · intro u hu
        apply h.joined
        rw [hpc]
        exact Nat.lt_of_lt_of_le u.isLt ht
  | opens ht => exact h.set (by simp [ht]) nofun (by simp [ht])
  | closes ht => exact h.set (by simp [ht]) nofun (by simp [ht])

theorem Team.Ok.enabled (h : team.Ok) (hpc : team.pc ≠ .joined) :
    ∃ a, (team.next limit held a).isSome := by
  cases hteam : team.pc with
  | joined => exact absurd hteam hpc
  | create t =>
      refine ⟨.main, ?_⟩
      simp only [next, mainNext, hteam, Option.isSome_map]
      split <;> rfl
  | join t =>
      by_cases ht : t < workers
      · -- the thread `main` waits for is behind its creation
        have hcreated : team.thread ⟨t, ht⟩ ≠ .notCreated := by
          intro hnot
          have hle := (h.created ⟨t, ht⟩).mp hnot
          simp only [hteam, TeamPc.created] at hle
          omega
        cases hthread : team.thread ⟨t, ht⟩ with
        | notCreated => exact absurd hthread hcreated
        | opening =>
            refine ⟨.thread ⟨t, ht⟩, ?_⟩
            simp only [next, threadNext, hthread]
            split <;> rfl
        | reading => exact ⟨.thread ⟨t, ht⟩, by simp [next, threadNext, hthread]⟩
        | done => exact ⟨.main, by simp [next, mainNext, hteam, ht, hthread]⟩
      · exact ⟨.main, by simp [next, mainNext, hteam, ht]⟩

theorem ThreadPc.files_le (pc : ThreadPc) : pc.files ≤ 1 := by
  cases pc <;> decide

/-- A thread that cannot open the file meets all others reading, at most. -/
theorem Team.files_lt {t : Fin workers} (ht : team.thread t = .opening) : team.files < workers := by
  have hle : team.files ≤ Fintype.card (Fin workers) - 1 :=
    total_le_pred (fun u => (team.thread u).files_le) (by rw [ht]; rfl)
  rw [Fintype.card_fin] at hle
  have hpos := t.isLt
  omega

/-! ## The end of a team -/

def TeamPc.rest (workers : Nat) : TeamPc → Nat
  | .create t => (workers - t) + workers + 2
  | .join t => (workers - t) + 1
  | .joined => 0

def ThreadPc.rest : ThreadPc → Nat
  | .notCreated => 3
  | .opening => 2
  | .reading => 1
  | .done => 0

/-- An upper bound of the steps a team still makes. -/
def Team.rest (team : Team workers) : Nat := team.pc.rest workers + total ThreadPc.rest team.thread

theorem Team.Step.rest_lt (hok : team.Ok) (h : Step limit held team team') : team'.rest < team.rest := by
  cases h with
  | @create t hpc ht =>
      have hnew : team.thread ⟨t, ht⟩ = .notCreated := by
        rw [hok.created, hpc]
        exact Nat.le_refl t
      have hlt : total ThreadPc.rest (team.set ⟨t, ht⟩ .opening).thread <
          total ThreadPc.rest team.thread :=
        total_update_lt (by rw [hnew]; decide)
      simp only [rest, hpc, TeamPc.rest]
      omega
  | created hpc ht =>
      simp only [rest, hpc, TeamPc.rest]
      omega
  | join hpc ht hdone =>
      simp only [rest, hpc, TeamPc.rest]
      omega
  | joined hpc ht =>
      simp only [rest, hpc, TeamPc.rest]
      omega
  | @opens t ht hfree =>
      have hlt : total ThreadPc.rest (team.set t .reading).thread < total ThreadPc.rest team.thread :=
        total_update_lt (by rw [ht]; decide)
      exact Nat.add_lt_add_left hlt _
  | @closes t ht =>
      have hlt : total ThreadPc.rest (team.set t .done).thread < total ThreadPc.rest team.thread :=
        total_update_lt (by rw [ht]; decide)
      exact Nat.add_lt_add_left hlt _

/-! ## A team that runs out of descriptors -/

/-- Some steps lead from one state of a process to the other. -/
def Team.Leads (limit held : Nat) : Team workers → Team workers → Prop :=
  Relation.ReflTransGen fun team team' => ∃ a, team.next limit held a = some (.ok team')

/-- All threads may be created before any of them opens the file. -/
theorem Team.leads_created (limit held : Nat) {n : Nat} (hn : n ≤ workers) :
    ∃ team : Team workers, Leads limit held .start team ∧ team.pc = .create n ∧
      ∀ t, team.thread t = if t < n then .opening else .notCreated := by
  induction n with
  | zero => exact ⟨.start, .refl, rfl, fun t => rfl⟩
  | succ n ih =>
      obtain ⟨team, hleads, hpc, hthread⟩ := ih (Nat.le_of_succ_le hn)
      refine ⟨{ team.set ⟨n, hn⟩ .opening with pc := .create (n + 1) }, hleads.tail ⟨.main, ?_⟩, rfl, ?_⟩
      · simp only [next, mainNext, hpc, dif_pos (Nat.lt_of_succ_le hn), Option.map_some]
      · intro t
        by_cases ht : t = ⟨n, hn⟩
        · simp [Team.set, ht]
        · have hne : t.val ≠ n := fun heq => ht (Fin.ext heq)
          simp only [Team.set, Function.update_of_ne ht, hthread]
          have hiff : t.val < n + 1 ↔ t.val < n := by omega
          simp only [hiff]

/-- Then they may open it one after the other, as long as there are descriptors. -/
theorem Team.leads_reading {n : Nat} (hn : n ≤ workers) (hfree : n = 0 ∨ held + n ≤ limit) :
    ∃ team : Team workers, Leads limit held .start team ∧ team.files = n ∧
      ∀ t : Fin workers, n ≤ t → team.thread t = .opening := by
  induction n with
  | zero =>
      obtain ⟨team, hleads, -, hthread⟩ := leads_created limit held (Nat.le_refl workers)
      have hopening : ∀ t, team.thread t = .opening := by
        intro t
        rw [hthread, if_pos t.isLt]
      refine ⟨team, hleads, ?_, fun t _ => hopening t⟩
      have hnone : ∀ t, ThreadPc.files (team.thread t) = 0 := by
        intro t
        rw [hopening]
        rfl
      rw [files, total_const hnone, Nat.mul_zero]
  | succ n ih =>
      obtain ⟨team, hleads, hfiles, hthread⟩ := ih (Nat.le_of_succ_le hn) (by omega)
      have hopening := hthread ⟨n, hn⟩ (Nat.le_refl n)
      refine ⟨team.set ⟨n, hn⟩ .reading, hleads.tail ⟨.thread ⟨n, hn⟩, ?_⟩, ?_, ?_⟩
      · exact next_opening hopening (by omega)
      · have hsucc : (team.set ⟨n, hn⟩ .reading).files = team.files + 1 :=
          total_succ (by rw [hopening]; rfl)
        rw [hsucc, hfiles]
      · intro t ht
        have hne : t ≠ ⟨n, hn⟩ := by
          intro heq
          rw [heq] at ht
          exact absurd ht (by simp)
        simp only [Team.set, Function.update_of_ne hne]
        exact hthread t (Nat.le_of_succ_le ht)

/-- If the threads together need more than there are, one of them may find none left. -/
theorem Team.leads_exit (h : limit < held + workers) (hworkers : 0 < workers) :
    ∃ (team : Team workers) (a : TeamAct workers), Leads limit held .start team ∧
      team.next limit held a = some (.error 1) := by
  have hn : limit - held < workers := by omega
  obtain ⟨team, hleads, hfiles, hthread⟩ :=
    @leads_reading workers limit held (limit - held) (Nat.le_of_lt hn) (by omega)
  exact ⟨team, .thread ⟨limit - held, hn⟩, hleads,
    next_full (hthread ⟨_, hn⟩ (Nat.le_refl _)) (by omega)⟩

/-! ## The single and threads path -/

/-- `main` with its threads; `round` counts from 0, and `summaries` the lines printed. -/
structure ThreadsState (workers : Nat) where
  round : Nat
  team : Team workers
  summaries : Nat
  status : Option Nat

section Model

variable (workers : Nat) (rounds limit base : Nat)

/-- The summary line, and the next round if there is one. -/
def ThreadsState.summary (s : ThreadsState workers) : ThreadsState workers :=
  if s.round + 1 < rounds then ⟨s.round + 1, .start, s.summaries + 1, none⟩
  else { s with summaries := s.summaries + 1, status := some 0 }

def ThreadsState.after (s : ThreadsState workers) : Except Nat (Team workers) → ThreadsState workers
  | .ok team => { s with team }
  | .error status => { s with status := some status }

def threadsNext (s : ThreadsState workers) (a : TeamAct workers) : Option (ThreadsState workers) :=
  match s.status, s.team.pc, a with
  | some _, _, _ => none
  | none, .joined, .main => some (s.summary workers rounds)
  | none, _, _ => (s.team.next limit base a).map (s.after workers)

/-- `base` descriptors are open from the start. -/
def threadsSystem : Lts (ThreadsState workers) (TeamAct workers) where
  init s := s = ⟨0, .start, 0, none⟩
  next := threadsNext workers rounds limit base

end Model

variable {rounds base : Nat} {s s' : ThreadsState workers}

/-- What a step of `main` does. -/
inductive ThreadsStep (rounds limit base : Nat) (s : ThreadsState workers) :
    ThreadsState workers → Prop
  | team {team : Team workers} (hstatus : s.status = none) (hteam : s.team.Step limit base team) :
      ThreadsStep rounds limit base s { s with team }
  | exits {t : Fin workers} (hstatus : s.status = none) (ht : s.team.thread t = .opening)
      (hfull : limit ≤ base + s.team.files) :
      ThreadsStep rounds limit base s { s with status := some 1 }
  | summary (hstatus : s.status = none) (hpc : s.team.pc = .joined) :
      ThreadsStep rounds limit base s (s.summary workers rounds)

theorem threads_cases {a : TeamAct workers} (h : threadsNext workers rounds limit base s a = some s') :
    ThreadsStep rounds limit base s s' := by
  unfold threadsNext at h
  split at h
  next => cases h
  next hstatus hpc =>
    cases h
    exact .summary hstatus hpc
  next hstatus _ =>
    obtain ⟨o, ho, rfl⟩ := Option.map_eq_some_iff.mp h
    cases o with
    | ok team => exact .team hstatus (Team.step_of_next ho)
    | error status =>
        obtain ⟨rfl, t, ht, hfull⟩ := Team.exit_of_next ho
        exact .exits hstatus ht hfull

/-- Steps of the team are steps of `main`. -/
theorem threadsNext_team {a : TeamAct workers} {o : Except Nat (Team workers)}
    (hstatus : s.status = none) (h : s.team.next limit base a = some o) :
    threadsNext workers rounds limit base s a = some (s.after workers o) := by
  unfold threadsNext
  split
  next hsome =>
    rw [hstatus] at hsome
    cases hsome
  next hpc =>
    simp only [Team.next, Team.mainNext, hpc, Option.map_none] at h
    cases h
  next =>
    rw [h, Option.map_some]

structure ThreadsInv (rounds : Nat) (s : ThreadsState workers) : Prop where
  team : s.team.Ok
  running : s.status = none → s.round < rounds ∧ s.summaries = s.round
  returned : ∀ status, s.status = some status → status = 0 ∧ s.summaries = rounds ∨ status = 1

theorem ThreadsInv.init (hrounds : 0 < rounds) :
    ThreadsInv rounds (⟨0, .start, 0, none⟩ : ThreadsState workers) :=
  ⟨.start, fun _ => ⟨hrounds, rfl⟩, nofun⟩

theorem ThreadsInv.step (h : ThreadsInv rounds s) (hstep : ThreadsStep rounds limit base s s') :
    ThreadsInv rounds s' := by
  cases hstep with
  | team hstatus hteam => exact ⟨h.team.step hteam, h.running, h.returned⟩
  | exits hstatus ht hfull =>
      refine ⟨h.team, nofun, ?_⟩
      intro status hsome
      cases hsome
      exact .inr rfl
  | summary hstatus hpc =>
      obtain ⟨hround, hsummaries⟩ := h.running hstatus
      unfold ThreadsState.summary
      split
      next hnext => exact ⟨.start, fun _ => ⟨hnext, by rw [hsummaries]⟩, nofun⟩
      next hlast =>
        refine ⟨h.team, nofun, ?_⟩
        intro status hsome
        cases hsome
        refine .inl ⟨rfl, ?_⟩
        simp only [hsummaries]
        omega

/-- An upper bound of the steps `main` still makes. -/
def ThreadsState.rest (rounds : Nat) (s : ThreadsState workers) : Nat :=
  match s.status with
  | some _ => 0
  | none => (rounds - 1 - s.round) * ((Team.start : Team workers).rest + 1) + s.team.rest + 1

theorem ThreadsStep.rest_lt (hok : s.team.Ok) (h : ThreadsStep rounds limit base s s') :
    s'.rest rounds < s.rest rounds := by
  cases h with
  | team hstatus hteam =>
      have hlt := hteam.rest_lt hok
      simp only [ThreadsState.rest, hstatus]
      omega
  | exits hstatus ht hfull =>
      simp only [ThreadsState.rest, hstatus]
      omega
  | summary hstatus hpc =>
      unfold ThreadsState.summary
      split
      next hnext =>
        have hround : rounds - 1 - s.round = rounds - 1 - (s.round + 1) + 1 := by omega
        simp only [ThreadsState.rest, hstatus, hround, Nat.succ_mul]
        omega
      next =>
        simp only [ThreadsState.rest, hstatus]
        omega

theorem threads_inevitable (h : ThreadsInv rounds s) :
    (threadsSystem workers rounds limit base).Inevitable
      (fun s' => s'.status = some 0 ∧ s'.summaries = rounds ∨ s'.status = some 1) s := by
  refine Lts.Inevitable.of_measure (fun s' => s'.rest rounds) (I := ThreadsInv rounds) ?_ ?_ h
  · intro s h
    cases hstatus : s.status with
    | some status =>
        rcases h.returned status hstatus with ⟨rfl, hsummaries⟩ | rfl
        · exact .inl (.inl ⟨rfl, hsummaries⟩)
        · exact .inl (.inr rfl)
    | none =>
        refine .inr ?_
        by_cases hpc : s.team.pc = .joined
        · refine ⟨.main, s.summary workers rounds, ?_⟩
          simp only [threadsSystem, threadsNext, hstatus, hpc]
        · obtain ⟨a, ha⟩ := @Team.Ok.enabled workers limit base s.team h.team hpc
          obtain ⟨o, ho⟩ := Option.isSome_iff_exists.mp ha
          exact ⟨a, _, threadsNext_team hstatus ho⟩
  · intro s a s' h hnext
    have hstep := threads_cases hnext
    exact ⟨h.step hstep, hstep.rest_lt h.team⟩

theorem threads_leads {team team' : Team workers} (h : team.Leads limit base team') (round summaries : Nat) :
    (threadsSystem workers rounds limit base).Leads ⟨round, team, summaries, none⟩
      ⟨round, team', summaries, none⟩ := by
  induction h with
  | refl => exact .refl _
  | tail _ hstep ih =>
      obtain ⟨a, ha⟩ := hstep
      have hnext := @threadsNext_team workers limit rounds base ⟨round, _, summaries, none⟩ a _ rfl ha
      exact ih.trans (.single (a := a) hnext)

/-- With `base` descriptors open and `limit` allowed, the run comes to its end in every
order of steps, with a summary for each round or with status 1, and the latter can happen
exactly where the threads together need more descriptors than there are. -/
theorem threads_descriptors (hworkers : 0 < workers) (hrounds : 0 < rounds) (limit base : Nat) :
    (threadsSystem workers rounds limit base).Inevitable
        (fun s => s.status = some 0 ∧ s.summaries = rounds ∨ s.status = some 1)
        ⟨0, .start, 0, none⟩ ∧
      ((∃ s, (threadsSystem workers rounds limit base).Reachable s ∧ s.status = some 1) ↔
        limit < base + workers) := by
  refine ⟨threads_inevitable (.init hrounds), ?_, ?_⟩
  · intro ⟨s, hreach, hstatus⟩
    by_contra hle
    have hnever : ThreadsInv rounds s ∧ s.status ≠ some 1 := by
      refine Lts.Reachable.invariant (I := fun s => ThreadsInv rounds s ∧ s.status ≠ some 1) ?_ ?_ hreach
      · intro s hinit
        cases hinit
        exact ⟨.init hrounds, nofun⟩
      · intro s a s' ⟨h, hne⟩ hnext
        have hstep := threads_cases hnext
        refine ⟨h.step hstep, ?_⟩
        cases hstep with
        | team hstatus hteam => exact hne
        | exits hstatus ht hfull =>
            have hlt := Team.files_lt ht
            omega
        | summary hstatus hpc =>
            unfold ThreadsState.summary
            split <;> simp
    exact hnever.2 hstatus
  · intro hlt
    obtain ⟨team, a, hleads, hexit⟩ := Team.leads_exit hlt hworkers
    refine ⟨⟨0, team, 0, some 1⟩, ?_, rfl⟩
    have hnext := @threadsNext_team workers limit rounds base ⟨0, team, 0, none⟩ a _ rfl hexit
    exact ((threads_leads hleads 0 0).trans (.single (a := a) hnext)).reachable rfl

/-- As many threads as there are descriptors, three of which are taken. -/
theorem threads_descriptors_1024 :
    ∃ s, (threadsSystem 1024 2 1024 3).Reachable s ∧ s.status = some 1 :=
  (threads_descriptors (by decide) (by decide) 1024 3).2.mpr (by decide)

end OsLabs.PageCacheModels.Descriptors
