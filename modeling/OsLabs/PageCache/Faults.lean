import Mathlib.Algebra.BigOperators.Fin
import Mathlib.Algebra.Order.BigOperators.Group.Finset
import OsLabs.Core.Lts
import OsLabs.PageCache.Totals

/-! # Fault accounting

`getrusage(RUSAGE_SELF)` reads counters of the whole process. A worker's window
is the span between its two calls; its result is the difference. The processes
of a round run side by side: workers enter and leave their windows and any
thread of a process may take a fault, in any order. Counts are exact integers.
-/

namespace OsLabs.PageCacheModels

inductive FaultKind where
  | minor
  | major
  deriving DecidableEq, Repr

def WorkerResult.faults (r : WorkerResult) : FaultKind → Int
  | .minor => r.minflt
  | .major => r.majflt

/-- Where a worker is with respect to its measured window. -/
inductive Window where
  | before
  | inside (usage0 : FaultKind → Int)
  | after (r : WorkerResult)

/-- `ru_minflt` and `ru_majflt` of a process, and its workers. -/
structure Proc (W : Nat) where
  usage : FaultKind → Int
  worker : Fin W → Window

abbrev RoundState (P W : Nat) := Fin P → Proc W

inductive FaultAct (P W : Nat) where
  | enter (p : Fin P) (w : Fin W)
  | leave (p : Fin P) (w : Fin W) (checksum : BitVec 64)
  | fault (p : Fin P) (kind : FaultKind)

section Model

variable {P W : Nat}

def RoundState.setWindow (s : RoundState P W) (p : Fin P) (w : Fin W) (x : Window) :
    RoundState P W :=
  Function.update s p { s p with worker := Function.update (s p).worker w x }

def RoundState.addFault (s : RoundState P W) (p : Fin P) (kind : FaultKind) : RoundState P W :=
  Function.update s p
    { s p with usage := Function.update (s p).usage kind ((s p).usage kind + 1) }

/-- `enter` is the first `get_faults` of `read_range`, `leave` the second one
with the subtraction, `fault` a page fault of any thread of the process. -/
def faultNext (s : RoundState P W) : FaultAct P W → Option (RoundState P W)
  | .enter p w =>
      match (s p).worker w with
      | .before => some (s.setWindow p w (.inside (s p).usage))
      | _ => none
  | .leave p w checksum =>
      match (s p).worker w with
      | .inside usage0 => some (s.setWindow p w (.after
          ⟨(s p).usage .minor - usage0 .minor, (s p).usage .major - usage0 .major, checksum⟩))
      | _ => none
  | .fault p kind => some (s.addFault p kind)

/-- The counters of a process may start anywhere. -/
def faultSystem (P W : Nat) : Lts (RoundState P W) (FaultAct P W) where
  init s := ∀ p w, (s p).worker w = .before
  next := faultNext

/-- The result of a worker that has left its window. -/
def Window.result : Window → Option WorkerResult
  | .after r => some r
  | _ => none

def Window.isOpen : Window → Bool
  | .inside _ => true
  | _ => false

/-- Workers of process `p` that are inside their windows. -/
def openWorkers (s : RoundState P W) (p : Fin P) : Nat :=
  ∑ w, if ((s p).worker w).isOpen then 1 else 0

theorem openWorkers_le (s : RoundState P W) (p : Fin P) : openWorkers s p ≤ W := by
  calc openWorkers s p ≤ ∑ _w : Fin W, 1 := Finset.sum_le_sum fun w _ => by split <;> decide
    _ = W := by simp

/-- The windows open when a fault of this kind is taken. -/
def openAt (kind : FaultKind) (t : Transition (RoundState P W) (FaultAct P W)) : Option Nat :=
  match t.action with
  | .fault p k => if k = kind then some (openWorkers t.before p) else none
  | _ => none

/-- The faults of this kind taken while a worker of their process was inside
its window. -/
def faultsInWindows (kind : FaultKind)
    (ts : List (Transition (RoundState P W) (FaultAct P W))) : Nat :=
  (Lts.observed (openAt kind) ts).countP (0 < ·)

/-! ## What a window has counted so far -/

def contribution (kind : FaultKind) (proc : Proc W) (w : Fin W) : Int :=
  match proc.worker w with
  | .before => 0
  | .inside usage0 => proc.usage kind - usage0 kind
  | .after r => r.faults kind

def counted (kind : FaultKind) (s : RoundState P W) : Int :=
  ∑ p, ∑ w, contribution kind (s p) w

theorem contribution_setWindow (s : RoundState P W) (p : Fin P) (w : Fin W) (x : Window)
    (kind : FaultKind)
    (h : contribution kind { s p with worker := Function.update (s p).worker w x } w =
      contribution kind (s p) w) (q : Fin P) (v : Fin W) :
    contribution kind (s.setWindow p w x q) v = contribution kind (s q) v := by
  unfold RoundState.setWindow
  by_cases hq : q = p
  · subst hq
    by_cases hv : v = w
    · subst hv
      simpa using h
    · simp [contribution, hv]
  · simp [hq]

theorem contribution_addFault (s : RoundState P W) (p : Fin P) (k kind : FaultKind) (q : Fin P)
    (v : Fin W) :
    contribution kind (s.addFault p k q) v = contribution kind (s q) v +
      if q = p ∧ k = kind ∧ ((s q).worker v).isOpen then 1 else 0 := by
  unfold RoundState.addFault
  by_cases hq : q = p
  · subst hq
    by_cases hk : k = kind
    · subst hk
      cases hw : (s q).worker v <;> simp [contribution, hw, Window.isOpen]
      omega
    · cases hw : (s q).worker v <;> simp [contribution, hw, hk, Ne.symm hk]
  · simp [hq]

/-- A fault is counted once for each window open in its process. -/
theorem counted_step {s s' : RoundState P W} {a : FaultAct P W} (kind : FaultKind)
    (h : faultNext s a = some s') :
    counted kind s' = counted kind s + ((openAt kind ⟨s, a, s'⟩).getD 0 : Nat) := by
  cases a with
  | enter p w =>
      cases hw : (s p).worker w with
      | before =>
          simp only [faultNext, hw, Option.some.injEq] at h
          subst h
          have hsame := contribution_setWindow s p w (.inside (s p).usage) kind
            (by simp [contribution, hw])
          simp [counted, hsame, openAt]
      | inside usage0 => simp [faultNext, hw] at h
      | after r => simp [faultNext, hw] at h
  | leave p w checksum =>
      cases hw : (s p).worker w with
      | before => simp [faultNext, hw] at h
      | inside usage0 =>
          simp only [faultNext, hw, Option.some.injEq] at h
          subst h
          have hsame := contribution_setWindow s p w (.after ⟨(s p).usage .minor - usage0 .minor,
            (s p).usage .major - usage0 .major, checksum⟩) kind
            (by cases kind <;> simp [contribution, hw, WorkerResult.faults])
          simp [counted, hsame, openAt]
      | after r => simp [faultNext, hw] at h
  | fault p k =>
      simp only [faultNext, Option.some.injEq] at h
      subst h
      simp only [counted, contribution_addFault, Finset.sum_add_distrib]
      congr 1
      by_cases hk : k = kind
      · subst hk
        simp [openAt, openWorkers, ite_and]
      · simp [openAt, hk]

theorem counted_init {s : RoundState P W} (h : (faultSystem P W).init s) (kind : FaultKind) :
    counted kind s = 0 := by
  have hzero : ∀ p w, contribution kind (s p) w = 0 := by
    intro p w
    simp [contribution, h p w]
  simp [counted, hzero]

/-- Over a run each fault is counted as often as windows were open. -/
theorem counted_run {s₀ s : RoundState P W} {ts : List (Transition (RoundState P W) (FaultAct P W))}
    (hinit : (faultSystem P W).init s₀) (hruns : (faultSystem P W).RunsTo s₀ ts s)
    (kind : FaultKind) : counted kind s = (Lts.observed (openAt kind) ts).sum := by
  refine Lts.RunsTo.history (I := fun ts s => counted kind s =
    ((Lts.observed (openAt kind) ts).sum : Nat)) ?_ ?_ hruns
  · simp [counted_init hinit kind]
  · intro ts s₁ a s₂ _ ih hstep
    rw [counted_step kind hstep, ih, Lts.observed_snoc]
    cases openAt kind ⟨s₁, a, s₂⟩ <;> simp

/-- The results of finished workers, process by process. -/
def resultLists (rs : Fin P → Fin W → WorkerResult) : List (List WorkerResult) :=
  (List.finRange P).map fun p => (List.finRange W).map (rs p)

theorem faults_additive (kind : FaultKind) : Additive (WorkerResult.faults · kind) := by
  cases kind
  · exact minflt_additive
  · exact majflt_additive

theorem summary_eq_counted (mode : Mode) {s : RoundState P W} {rs : Fin P → Fin W → WorkerResult}
    (hdone : ∀ p w, ((s p).worker w).result = some (rs p w)) (kind : FaultKind) :
    (summaryOf mode (resultLists rs)).faults kind = counted kind s := by
  have hresult : ∀ p w, contribution kind (s p) w = (rs p w).faults kind := by
    intro p w
    have hw := hdone p w
    cases hworker : (s p).worker w <;> simp_all [contribution, Window.result]
  rw [(faults_additive kind).summaryOf]
  simp only [counted, hresult, resultLists, Fin.sum_univ_def, List.map_flatten, List.sum_flatten,
    List.map_map, Function.comp_def]

/-- A sum of naturals is the number of its positive terms exactly when no term
exceeds one. -/
theorem sum_eq_countP_iff (l : List Nat) : l.sum = l.countP (0 < ·) ↔ ∀ x ∈ l, x ≤ 1 := by
  have hle : ∀ l : List Nat, l.countP (0 < ·) ≤ l.sum := by
    intro l
    induction l with
    | nil => simp
    | cons x l ih =>
        by_cases hx : 0 < x
        · simp only [List.countP_cons, hx, decide_true, if_true, List.sum_cons]
          omega
        · simp only [List.countP_cons, hx, decide_false, List.sum_cons]
          simp
          omega
  induction l with
  | nil => simp
  | cons x l ih =>
      have hl := hle l
      by_cases hx : 0 < x
      · simp only [List.countP_cons, hx, decide_true, if_true, List.sum_cons, List.mem_cons,
          forall_eq_or_imp, ← ih]
        omega
      · have hzero : x = 0 := by omega
        subst hzero
        simpa using ih

/-- The total of one kind is exact when no fault of that kind meets two open
windows. -/
theorem kind_exact_iff (mode : Mode) {s₀ s : RoundState P W}
    {ts : List (Transition (RoundState P W) (FaultAct P W))}
    (hinit : (faultSystem P W).init s₀) (hruns : (faultSystem P W).RunsTo s₀ ts s)
    {rs : Fin P → Fin W → WorkerResult}
    (hdone : ∀ p w, ((s p).worker w).result = some (rs p w)) (kind : FaultKind) :
    (summaryOf mode (resultLists rs)).faults kind = faultsInWindows kind ts ↔
      ∀ t ∈ ts, ∀ p, t.action = .fault p kind → openWorkers t.before p ≤ 1 := by
  have hsum : (summaryOf mode (resultLists rs)).faults kind = faultsInWindows kind ts ↔
      ∀ x ∈ Lts.observed (openAt kind) ts, x ≤ 1 := by
    rw [summary_eq_counted mode hdone kind, counted_run hinit hruns kind, faultsInWindows,
      ← sum_eq_countP_iff]
    norm_cast
  rw [hsum]
  simp only [Lts.observed, List.mem_filterMap]
  constructor
  · intro h t ht p hact
    exact h _ ⟨t, ht, by simp [openAt, hact]⟩
  · rintro h x ⟨t, ht, hx⟩
    cases hact : t.action with
    | fault p k =>
        by_cases hk : k = kind
        · subst hk
          simp only [openAt, hact, if_true, Option.some.injEq] at hx
          rw [← hx]
          exact h t ht p hact
        · simp [openAt, hact, hk] at hx
    | enter p w => simp [openAt, hact] at hx
    | leave p w checksum => simp [openAt, hact] at hx

/-- With one worker in each process, as in the single and processes modes, the
totals are exact. -/
theorem exact_of_one_worker {P : Nat} (mode : Mode) {s₀ s : RoundState P 1}
    {ts : List (Transition (RoundState P 1) (FaultAct P 1))}
    (hinit : (faultSystem P 1).init s₀) (hruns : (faultSystem P 1).RunsTo s₀ ts s)
    {rs : Fin P → Fin 1 → WorkerResult}
    (hdone : ∀ p w, ((s p).worker w).result = some (rs p w)) (kind : FaultKind) :
    (summaryOf mode (resultLists rs)).faults kind = faultsInWindows kind ts :=
  (kind_exact_iff mode hinit hruns hdone kind).mpr fun t _ p _ => openWorkers_le t.before p

end Model

/-- The summary totals of a round are the faults taken inside a window of their
process, each once, exactly when no fault is taken while two windows of its
process are open. -/
theorem summary_faults_exact_iff (cfg : Config) {s₀ s : RoundState cfg.procs cfg.workers}
    {ts : List (Transition (RoundState cfg.procs cfg.workers) (FaultAct cfg.procs cfg.workers))}
    (hinit : (faultSystem cfg.procs cfg.workers).init s₀)
    (hruns : (faultSystem cfg.procs cfg.workers).RunsTo s₀ ts s)
    (rs : Fin cfg.procs → Fin cfg.workers → WorkerResult)
    (hdone : ∀ p w, ((s p).worker w).result = some (rs p w)) :
    (∀ kind, (summaryOf cfg.mode (resultLists rs)).faults kind = faultsInWindows kind ts) ↔
      ∀ t ∈ ts, ∀ p kind, t.action = .fault p kind → openWorkers t.before p ≤ 1 := by
  constructor
  · intro h t ht p kind hact
    exact (kind_exact_iff cfg.mode hinit hruns hdone kind).mp (h kind) t ht p hact
  · intro h kind
    exact (kind_exact_iff cfg.mode hinit hruns hdone kind).mpr fun t ht p hact =>
      h t ht p kind hact

def overlapConfig : Config := ⟨.threads, 1, 2, one_count_ok, two_count_ok⟩

/-- Two threads inside their windows take one minor fault. -/
def overlapRun : List (FaultAct overlapConfig.procs overlapConfig.workers) :=
  [.enter ⟨0, by decide⟩ ⟨0, by decide⟩, .enter ⟨0, by decide⟩ ⟨1, by decide⟩,
    .fault ⟨0, by decide⟩ .minor, .leave ⟨0, by decide⟩ ⟨0, by decide⟩ 0,
    .leave ⟨0, by decide⟩ ⟨1, by decide⟩ 0]

def idleRound : RoundState overlapConfig.procs overlapConfig.workers :=
  fun _ => ⟨fun _ => 0, fun _ => .before⟩

/-- Both workers count it. -/
def overlapResults : Fin overlapConfig.procs → Fin overlapConfig.workers → WorkerResult :=
  fun _ _ => ⟨1, 0, 0⟩

theorem summary_faults_exact_iff_overlap :
    ∃ ts s, (faultSystem overlapConfig.procs overlapConfig.workers).RunsTo idleRound ts s ∧
      ts.map (·.action) = overlapRun ∧
      ((∀ kind, (summaryOf overlapConfig.mode (resultLists overlapResults)).faults kind =
          faultsInWindows kind ts) ↔
        ∀ t ∈ ts, ∀ (p : Fin overlapConfig.procs) (kind : FaultKind),
          t.action = .fault p kind → openWorkers t.before p ≤ 1) := by
  have htrace : (faultSystem overlapConfig.procs overlapConfig.workers).trace idleRound
      overlapRun = some (_, _) := rfl
  exact ⟨_, _, Lts.RunsTo.of_trace htrace, rfl, summary_faults_exact_iff overlapConfig
    (fun _ _ => rfl) (Lts.RunsTo.of_trace htrace) overlapResults (by decide)⟩

theorem overlap_counts_fault_twice :
    ¬ ∀ (cfg : Config) (s₀ s : RoundState cfg.procs cfg.workers)
      (ts : List (Transition (RoundState cfg.procs cfg.workers)
        (FaultAct cfg.procs cfg.workers)))
      (rs : Fin cfg.procs → Fin cfg.workers → WorkerResult),
      (faultSystem cfg.procs cfg.workers).init s₀ →
      (faultSystem cfg.procs cfg.workers).RunsTo s₀ ts s →
      (∀ p w, ((s p).worker w).result = some (rs p w)) →
      ∀ kind, (summaryOf cfg.mode (resultLists rs)).faults kind = faultsInWindows kind ts := by
  intro h
  have htrace : (faultSystem overlapConfig.procs overlapConfig.workers).trace idleRound
      overlapRun = some (_, _) := rfl
  have htwice := h overlapConfig idleRound _ _ overlapResults (fun _ _ => rfl)
    (Lts.RunsTo.of_trace htrace) (by decide) .minor
  revert htwice
  decide

end OsLabs.PageCacheModels
