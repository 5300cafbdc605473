import OsLabs.PageCache.Collection
import OsLabs.PageCache.TeamRuns

/-! # One round

On the single and threads path a round is the threads of `main`. On the
processes and hybrid path every child runs its own threads, and the parent
collects what the children come to: processes share nothing but the pipes.
-/

namespace OsLabs.PageCacheModels

inductive RoundEnd where
  | summary (t : WorkerResult)
  | stopped (status : Nat)

def RoundEnd.ofTeam : TeamEnd → RoundEnd
  | .totals t => .summary t
  | .status code => .stopped code

def TeamEnd.childOutcome : TeamEnd → Option WorkerResult
  | .totals t => some t
  | .status _ => none

/-- `PIPE_BUF`, which every pipe holds. -/
def pipeBuf : Nat := 4096

def ChildOutcomes (cfg : Config) (calls : Nat → TeamCalls) (outcome : Nat → Option WorkerResult) :
    Prop :=
  ∀ p, p < cfg.procs → ∃ s e, (teamSystem cfg.workers (calls p)).Reachable s ∧
    s.ended = some e ∧ outcome p = e.childOutcome

/-- `calls p` are the calls of process `p`; on the first path that is `main`. -/
def RoundEnds (cfg : Config) (calls : Nat → TeamCalls) (e : RoundEnd) : Prop :=
  match cfg.mode with
  | .single | .threads =>
      ∃ s te, (teamSystem cfg.workers (calls 0)).Reachable s ∧ s.ended = some te ∧
        e = .ofTeam te
  | .processes | .hybrid =>
      ∃ outcome, ChildOutcomes cfg calls outcome ∧
        ∃ s, (collectSystem cfg.procs pipeBuf outcome).Reachable s ∧ s.parent = .finished ∧
          e = .summary s.totals

def RoundInevitable (cfg : Config) (calls : Nat → TeamCalls) : Prop :=
  match cfg.mode with
  | .single | .threads =>
      (teamSystem cfg.workers (calls 0)).Inevitable (fun s => s.ended.isSome) teamInit
  | .processes | .hybrid =>
      (∀ p, p < cfg.procs →
        (teamSystem cfg.workers (calls p)).Inevitable (fun s => s.ended.isSome) teamInit) ∧
      ∀ outcome, ChildOutcomes cfg calls outcome →
        (collectSystem cfg.procs pipeBuf outcome).Inevitable (fun s => s.parent = .finished)
          collectInit

def roundResults (cfg : Config) (calls : Nat → TeamCalls) : List (List WorkerResult) :=
  (List.range cfg.procs).map fun p => (calls p).results cfg.workers

/-- A summary stands for every worker of the round; without one the status is
not zero. -/
def Complete (cfg : Config) (calls : Nat → TeamCalls) : RoundEnd → Prop
  | .summary t =>
      (∀ p, p < cfg.procs → (calls p).Succeed cfg.workers) ∧
        t = (summaryOf cfg.mode (roundResults cfg calls)).toLong
  | .stopped status => status ≠ 0

section Model

variable {cfg : Config} {calls : Nat → TeamCalls} {outcome : Nat → Option WorkerResult}

/-! ## The children of a round -/

theorem ChildOutcomes.cases (h : ChildOutcomes cfg calls outcome) {p : Nat} (hp : p < cfg.procs) :
    ((calls p).Succeed cfg.workers ∧
        outcome p = some (joinTotals ((calls p).results cfg.workers)).toLong) ∨
      (¬ (calls p).Succeed cfg.workers ∧ outcome p = none) := by
  rcases h p hp with ⟨s, e, hreach, hend, hout⟩
  rcases team_end hreach hend with ⟨hok, rfl⟩ | ⟨hfail, rfl⟩
  · exact .inl ⟨hok, hout⟩
  · exact .inr ⟨hfail, hout⟩

theorem ChildOutcomes.collectable (h : ChildOutcomes cfg calls outcome) :
    Collectable cfg.procs pipeBuf outcome := by
  have hinRange : ∀ c r, c < cfg.procs → outcome c = some r → r.InRange := by
    intro c r hc hr
    rcases h.cases hc with ⟨_, hout⟩ | ⟨_, hout⟩
    · rw [hout] at hr
      exact Option.some.inj hr ▸ WorkerResult.toLong_inRange _
    · rw [hout] at hr
      cases hr
  constructor
  · exact cfg.procs_bounds.2
  · exact hinRange
  · intro c r hc hr
    have hle := cfg.procs_bounds.2
    have hidx : CInt.Fits 32 (c : Int) := CInt.fits_32_iff.mpr (by omega)
    have hline : (childLine c r).InRange :=
      ⟨hidx, (hinRange c r hc hr).minflt, (hinRange c r hc hr).majflt⟩
    exact Nat.le_trans (PipeLine.format_length_le hline) (by decide)

theorem exists_childOutcomes (cfg : Config) (calls : Nat → TeamCalls) :
    ∃ outcome, ChildOutcomes cfg calls outcome := by
  have hends : ∀ p, ∃ s e, (teamSystem cfg.workers (calls p)).Reachable s ∧ s.ended = some e := by
    intro p
    rcases (team_inevitable (@TeamInv.init cfg.workers (calls p))).exists_run
      with ⟨ts, s, hruns, hend⟩
    rcases Option.isSome_iff_exists.mp hend with ⟨e, he⟩
    exact ⟨s, e, ⟨teamInit, ts, rfl, hruns⟩, he⟩
  choose s e hreach hend using hends
  exact ⟨fun p => (e p).childOutcome, fun p _ => ⟨s p, e p, hreach p, hend p, rfl⟩⟩

theorem exists_collected (h : ChildOutcomes cfg calls outcome) :
    ∃ s, (collectSystem cfg.procs pipeBuf outcome).Reachable s ∧ s.parent = .finished := by
  rcases (collect_inevitable h.collectable CollectInv.init).exists_run with ⟨ts, s, hruns, hend⟩
  exact ⟨s, ⟨collectInit, ts, rfl, hruns⟩, hend⟩

theorem childTotals_of_succeed (h : ChildOutcomes cfg calls outcome)
    (hok : ∀ p, p < cfg.procs → (calls p).Succeed cfg.workers) :
    (childTotals cfg.procs outcome).toLong =
      (joinTotals ((roundResults cfg calls).map joinTotals)).toLong := by
  have hout : (List.range cfg.procs).filterMap outcome =
      ((roundResults cfg calls).map joinTotals).map WorkerResult.toLong := by
    rw [roundResults, List.map_map, List.map_map, ← List.filterMap_eq_map]
    apply List.filterMap_congr
    intro p hp
    rcases h.cases (List.mem_range.mp hp) with ⟨_, hsome⟩ | ⟨hfail, _⟩
    · exact hsome
    · exact absurd (hok p (List.mem_range.mp hp)) hfail
  rw [childTotals, hout, WorkerResult.toLong_joinTotals_map]

/-! ## The two paths -/

/-- The processes path prints a summary whatever its children come to. -/
theorem roundEnds_of_processes (hmode : cfg.mode = .processes ∨ cfg.mode = .hybrid) {e : RoundEnd}
    (h : RoundEnds cfg calls e) : ∃ outcome, ChildOutcomes cfg calls outcome ∧
      e = .summary (childTotals cfg.procs outcome).toLong := by
  have hcollect : ∃ outcome, ChildOutcomes cfg calls outcome ∧
      ∃ s, (collectSystem cfg.procs pipeBuf outcome).Reachable s ∧ s.parent = .finished ∧
        e = .summary s.totals := by
    rcases hmode with hmode | hmode <;> simpa only [RoundEnds, hmode] using h
  rcases hcollect with ⟨outcome, hout, s, hreach, hend, rfl⟩
  refine ⟨outcome, hout, ?_⟩
  rw [(CollectInv.of_reachable hout.collectable hreach).totals hend]

theorem exists_summary_of_processes (hmode : cfg.mode = .processes ∨ cfg.mode = .hybrid) :
    ∃ t, RoundEnds cfg calls (.summary t) := by
  rcases exists_childOutcomes cfg calls with ⟨outcome, hout⟩
  rcases exists_collected hout with ⟨s, hreach, hend⟩
  refine ⟨s.totals, ?_⟩
  rcases hmode with hmode | hmode <;>
    · simp only [RoundEnds, hmode]
      exact ⟨outcome, hout, s, hreach, hend, rfl⟩

/-- The threads path stops when a worker has no result. -/
theorem complete_of_threads (hmode : cfg.mode = .single ∨ cfg.mode = .threads) {e : RoundEnd}
    (h : RoundEnds cfg calls e) : Complete cfg calls e := by
  have hteam : ∃ s te, (teamSystem cfg.workers (calls 0)).Reachable s ∧ s.ended = some te ∧
      e = .ofTeam te := by
    rcases hmode with hmode | hmode <;> simpa only [RoundEnds, hmode] using h
  have hprocs : cfg.procs = 1 := by
    rcases hmode with hmode | hmode <;> simp [Config.procs, hmode]
  have hresults : summaryOf cfg.mode (roundResults cfg calls) =
      joinTotals ((calls 0).results cfg.workers) := by
    rcases hmode with hmode | hmode <;> simp [summaryOf, hmode, roundResults, hprocs]
  rcases hteam with ⟨s, te, hreach, hend, rfl⟩
  rcases team_end hreach hend with ⟨hok, rfl⟩ | ⟨_, rfl⟩
  · constructor
    · intro p hp
      have hzero : p = 0 := by omega
      exact hzero ▸ hok
    · rw [hresults]
  · exact Nat.one_ne_zero

theorem complete_of_succeed (hmode : cfg.mode = .processes ∨ cfg.mode = .hybrid)
    (hok : ∀ p, p < cfg.procs → (calls p).Succeed cfg.workers) {e : RoundEnd}
    (h : RoundEnds cfg calls e) : Complete cfg calls e := by
  rcases roundEnds_of_processes hmode h with ⟨outcome, hout, rfl⟩
  constructor
  · exact hok
  · rw [childTotals_of_succeed hout hok]
    rcases hmode with hmode | hmode <;> simp only [summaryOf, hmode]

theorem roundInevitable (cfg : Config) (calls : Nat → TeamCalls) : RoundInevitable cfg calls := by
  unfold RoundInevitable
  split
  · exact team_inevitable TeamInv.init
  · exact team_inevitable TeamInv.init
  all_goals
    constructor
    · exact fun p _ => team_inevitable TeamInv.init
    · exact fun outcome hout => collect_inevitable hout.collectable CollectInv.init

end Model

/-- The round ends, with a summary that stands for every worker or with a
status that is not zero, exactly when it runs on the threads path or no worker
fails. -/
theorem summary_complete_iff (cfg : Config) (calls : Nat → TeamCalls) :
    (RoundInevitable cfg calls ∧ ∀ e, RoundEnds cfg calls e → Complete cfg calls e) ↔
      cfg.mode = .single ∨ cfg.mode = .threads ∨
        ∀ p, p < cfg.procs → (calls p).Succeed cfg.workers := by
  constructor
  · intro h
    by_cases hmode : cfg.mode = .processes ∨ cfg.mode = .hybrid
    · rcases exists_summary_of_processes hmode with ⟨t, ht⟩
      exact .inr (.inr (h.2 _ ht).1)
    · cases hm : cfg.mode with
      | single => exact .inl rfl
      | threads => exact .inr (.inl rfl)
      | processes => exact absurd (.inl hm) hmode
      | hybrid => exact absurd (.inr hm) hmode
  · intro h
    constructor
    · exact roundInevitable cfg calls
    · intro e he
      rcases h with hsingle | hthreads | hok
      · exact complete_of_threads (.inl hsingle) he
      · exact complete_of_threads (.inr hthreads) he
      · cases hm : cfg.mode with
        | single => exact complete_of_threads (.inl hm) he
        | threads => exact complete_of_threads (.inr hm) he
        | processes => exact complete_of_succeed (.inl hm) hok he
        | hybrid => exact complete_of_succeed (.inr hm) hok he

def twoProcesses : Config := ⟨.processes, 2, 1, two_count_ok, one_count_ok⟩

/-- The worker of child 1 cannot open the file. -/
def secondFails (p : Nat) : TeamCalls where
  callocOk := true
  createOk _ := true
  thread _ := if p = 1 then threadWorker true .exit1 else threadWorker true (.ok ⟨5, 0, 9⟩ [])

/-- The parent prints a summary without the second child and goes on. -/
theorem summary_without_failed_child :
    ¬ ∀ (cfg : Config) (calls : Nat → TeamCalls),
      RoundInevitable cfg calls ∧ ∀ e, RoundEnds cfg calls e → Complete cfg calls e := by
  intro h
  rcases @exists_summary_of_processes twoProcesses secondFails (.inl rfl)
    with ⟨t, ht⟩
  have hok := ((h twoProcesses secondFails).2 _ ht).1 1 (by decide)
  exact absurd (hok.thread 0 (by decide)) (by decide)

end OsLabs.PageCacheModels
