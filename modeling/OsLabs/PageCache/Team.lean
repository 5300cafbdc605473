import OsLabs.Core.Lts
import OsLabs.PageCache.ReadRange
import OsLabs.PageCache.Totals

/-! # The threads of one process

A process creates its workers, joins them in order and adds up what they
return: `main` itself on the single and threads path, every child on the
processes and hybrid path. Each call that can fail is a parameter.
-/

namespace OsLabs.PageCacheModels

/-- How `thread_worker` ends: in `exit(1)`, or in `pthread_exit`. -/
inductive ThreadEnd where
  | exitProcess
  | null
  | result (r : WorkerResult)

/-- `thread_worker`, given what `read_range` comes to. -/
def threadWorker (mallocOk : Bool) (outcome : ReadOutcome) : ThreadEnd :=
  if mallocOk then
    match outcome with
    | .ok r _ => .result r
    | .exit1 | .overflow => .exitProcess
  else .null

/-- What the calls of one process return. -/
structure TeamCalls where
  callocOk : Bool
  createOk : Nat → Bool
  thread : Nat → ThreadEnd

inductive MainPc where
  | calloc
  | create (i : Nat)
  | join (i : Nat)
  | joinedAll
  deriving DecidableEq

inductive ThreadState where
  | notCreated
  | running
  | exited (res : Option WorkerResult)

/-- `joined` are the results in the order of the joins, `totals` their sums,
`status` the exit status once the process has ended. -/
structure TeamState where
  main : MainPc
  threads : Nat → ThreadState
  joined : List WorkerResult
  totals : WorkerResult
  status : Option Nat

inductive TeamAct where
  | main
  | thread (w : Nat)
  deriving DecidableEq

section Model

variable (workers : Nat) (calls : TeamCalls)

def mainNext (s : TeamState) : Option TeamState :=
  match s.main with
  | .calloc =>
      if calls.callocOk then some { s with main := .create 0 } else some { s with status := some 1 }
  | .create i =>
      if i < workers then
        if calls.createOk i then
          some { s with main := .create (i + 1), threads := Function.update s.threads i .running }
        else some { s with status := some 1 }
      else some { s with main := .join 0 }
  | .join i =>
      if i < workers then
        match s.threads i with
        | .exited (some r) =>
            some { s with
              main := .join (i + 1)
              joined := s.joined ++ [r]
              totals := s.totals.addLong r }
        | .exited none => some { s with status := some 1 }
        | .notCreated | .running => none
      else some { s with main := .joinedAll }
  | .joinedAll => none

def threadNext (s : TeamState) (w : Nat) : Option TeamState :=
  match s.threads w with
  | .running =>
      match calls.thread w with
      | .exitProcess => some { s with status := some 1 }
      | .null => some { s with threads := Function.update s.threads w (.exited none) }
      | .result r => some { s with threads := Function.update s.threads w (.exited (some r)) }
  | .notCreated | .exited _ => none

def teamNext (s : TeamState) (a : TeamAct) : Option TeamState :=
  if s.status.isSome then none
  else
    match a with
    | .main => mainNext workers calls s
    | .thread w => if w < workers then threadNext calls s w else none

def teamInit : TeamState where
  main := .calloc
  threads := fun _ => .notCreated
  joined := []
  totals := .zero
  status := none

def teamSystem : Lts TeamState TeamAct where
  init s := s = teamInit
  next := teamNext workers calls

end Model

/-- What the process comes to: the totals of its workers, or an exit status. -/
inductive TeamEnd where
  | totals (t : WorkerResult)
  | status (code : Nat)

def TeamState.ended (s : TeamState) : Option TeamEnd :=
  match s.status with
  | some code => some (.status code)
  | none => if s.main = .joinedAll then some (.totals s.totals) else none

def ThreadEnd.result? : ThreadEnd → Option WorkerResult
  | .result r => some r
  | .exitProcess | .null => none

/-- No call of the process fails. -/
structure TeamCalls.Succeed (workers : Nat) (calls : TeamCalls) : Prop where
  calloc : calls.callocOk = true
  create : ∀ i, i < workers → calls.createOk i = true
  thread : ∀ i, i < workers → (calls.thread i).result?.isSome

/-- The results of the first `n` workers that have one. -/
def TeamCalls.results (calls : TeamCalls) (n : Nat) : List WorkerResult :=
  (List.range n).filterMap fun i => (calls.thread i).result?

/-! ## The end does not depend on the interleaving -/

section Model

variable {workers : Nat} {calls : TeamCalls} {s s' : TeamState}

/-- Workers created when `main` is at this point. -/
def MainPc.created (workers : Nat) : MainPc → Nat
  | .calloc => 0
  | .create i => i
  | _ => workers

/-- Workers joined when `main` is at this point. -/
def MainPc.joins (workers : Nat) : MainPc → Nat
  | .calloc | .create _ => 0
  | .join i => i
  | .joinedAll => workers

/-- A thread's state goes with its place in the creation order and its end. -/
def ThreadState.Agrees (created : Prop) (e : ThreadEnd) : ThreadState → Prop
  | .notCreated => ¬ created
  | .running => created
  | .exited res => created ∧ e.result? = res

structure TeamInv (workers : Nat) (calls : TeamCalls) (s : TeamState) : Prop where
  created_le : s.main.created workers ≤ workers
  joins_le : s.main.joins workers ≤ workers
  calloc : s.main ≠ .calloc → calls.callocOk = true
  create : ∀ i, i < s.main.created workers → calls.createOk i = true
  threads : ∀ i, i < workers →
    (s.threads i).Agrees (i < s.main.created workers) (calls.thread i)
  success : ∀ i, i < s.main.joins workers → (calls.thread i).result?.isSome
  joined : s.joined = calls.results (s.main.joins workers)
  totals : s.totals = s.joined.foldl WorkerResult.addLong .zero
  stopped : ∀ code, s.status = some code → code = 1 ∧ ¬ calls.Succeed workers

inductive TeamStep (workers : Nat) (calls : TeamCalls) (s : TeamState) : TeamState → Prop
  | calloc (hpc : s.main = .calloc) (h : calls.callocOk = true) :
      TeamStep workers calls s { s with main := .create 0 }
  | create {i : Nat} (hpc : s.main = .create i) (hi : i < workers) (h : calls.createOk i = true) :
      TeamStep workers calls s
        { s with main := .create (i + 1), threads := Function.update s.threads i .running }
  | createdAll {i : Nat} (hpc : s.main = .create i) (hi : ¬ i < workers) :
      TeamStep workers calls s { s with main := .join 0 }
  | join {i : Nat} {r : WorkerResult} (hpc : s.main = .join i) (hi : i < workers)
      (h : s.threads i = .exited (some r)) :
      TeamStep workers calls s { s with
        main := .join (i + 1)
        joined := s.joined ++ [r]
        totals := s.totals.addLong r }
  | joinedAll {i : Nat} (hpc : s.main = .join i) (hi : ¬ i < workers) :
      TeamStep workers calls s { s with main := .joinedAll }
  | threadExits {w : Nat} (hw : w < workers) (hrunning : s.threads w = .running)
      (h : calls.thread w = .null ∨ ∃ r, calls.thread w = .result r) :
      TeamStep workers calls s
        { s with threads := Function.update s.threads w (.exited (calls.thread w).result?) }
  | fails (h : (s.main = .calloc ∧ calls.callocOk = false) ∨
        (∃ i, s.main = .create i ∧ i < workers ∧ calls.createOk i = false) ∨
        (∃ i, s.main = .join i ∧ i < workers ∧ s.threads i = .exited none) ∨
        ∃ w, w < workers ∧ s.threads w = .running ∧ calls.thread w = .exitProcess) :
      TeamStep workers calls s { s with status := some 1 }

theorem mainNext_cases (h : mainNext workers calls s = some s') : TeamStep workers calls s s' := by
  unfold mainNext at h
  split at h
  next hpc =>
    split at h
    next hok =>
      cases h
      exact .calloc hpc hok
    next hfail =>
      cases h
      exact .fails (.inl ⟨hpc, by simpa using hfail⟩)
  next i hpc =>
    split at h
    next hi =>
      split at h
      next hok =>
        cases h
        exact .create hpc hi hok
      next hfail =>
        cases h
        exact .fails (.inr (.inl ⟨i, hpc, hi, by simpa using hfail⟩))
    next hi =>
      cases h
      exact .createdAll hpc hi
  next i hpc =>
    split at h
    next hi =>
      split at h
      next r hthread =>
        cases h
        exact .join hpc hi hthread
      next hthread =>
        cases h
        exact .fails (.inr (.inr (.inl ⟨i, hpc, hi, hthread⟩)))
      all_goals cases h
    next hi =>
      cases h
      exact .joinedAll hpc hi
  next => cases h

theorem threadNext_cases {w : Nat} (hw : w < workers) (h : threadNext calls s w = some s') :
    TeamStep workers calls s s' := by
  unfold threadNext at h
  split at h
  next hrunning =>
    split at h
    next hend =>
      cases h
      exact .fails (.inr (.inr (.inr ⟨w, hw, hrunning, hend⟩)))
    next hend =>
      cases h
      have hstep := @TeamStep.threadExits workers calls s w hw hrunning (.inl hend)
      rwa [hend] at hstep
    next r hend =>
      cases h
      have hstep := @TeamStep.threadExits workers calls s w hw hrunning (.inr ⟨r, hend⟩)
      rwa [hend] at hstep
  all_goals cases h

theorem teamNext_cases {a : TeamAct} (h : teamNext workers calls s a = some s') :
    s.status = none ∧ TeamStep workers calls s s' := by
  unfold teamNext at h
  split at h
  next => cases h
  next hrunning =>
    constructor
    · simpa using hrunning
    · cases a with
      | main => exact mainNext_cases h
      | thread w =>
          simp only at h
          split at h
          next hw => exact threadNext_cases hw h
          next => cases h

end Model

end OsLabs.PageCacheModels
