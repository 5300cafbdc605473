import OsLabs.Monitor.ExitRaces

/-! # The rows add up

Each row shows the counters as they are when `get_page_faults` reads them, and the faults
since the row before; the first row has none before it.
-/

namespace OsLabs.Monitor

open CInt

def Line.row? : Line → Option Row
  | .row r => some r
  | .hasExited => none

def State.rows (s : State) : List Row := s.output.filterMap Line.row?

/-- `MinFlt(tot)` and `MajFlt(tot)` -/
def Row.totals (r : Row) : Int × Int := (r.curMinflt, r.curMajflt)

/-- The counters of a process, which count as 0 once it is gone. -/
def counters : Option Stat → Int × Int
  | some f => (f.fields.minflt, f.fields.majflt)
  | none => (0, 0)

/-- What `get_page_faults` finds. -/
def readStat (t : Transition State Act) : Option (Option Stat) :=
  match t.action, t.before.pc with
  | .script, .faults => some t.before.process.stat
  | _, _ => none

/-- The rows count the seconds from 0, and up to any of them `MinFlt/s` adds up to its
`MinFlt(tot)`. -/
def AddUp (rs : List Row) : Prop :=
  ∀ i r, rs[i]? = some r → r.elapsed = i ∧ ((rs.take (i + 1)).map Row.deltaMin).sum = r.curMinflt

theorem AddUp.nil : AddUp [] := by
  intro i r h
  cases h

theorem AddUp.snoc {rs : List Row} (h : AddUp rs) {r : Row} (helapsed : r.elapsed = rs.length)
    (hsum : (rs.map Row.deltaMin).sum + r.deltaMin = r.curMinflt) : AddUp (rs ++ [r]) := by
  intro i r' hget
  rcases Nat.lt_or_ge i rs.length with hlt | hge
  · rw [List.getElem?_append_left hlt] at hget
    rw [List.take_append_of_le_length hlt]
    exact h i r' hget
  · rw [List.getElem?_append_right hge, List.getElem?_singleton] at hget
    split at hget
    next hzero =>
      cases hget
      have hi : i = rs.length := by omega
      subst hi
      rw [List.take_of_length_le (by simp), List.map_append, List.sum_append]
      exact ⟨helapsed, by simpa using hsum⟩
    next => cases hget

variable {s s' : State}

/-! ## Steps -/

/-- The rows printed that the seconds do not count yet. -/
def Pc.printed : Pc → Nat
  | .sleep => 1
  | _ => 0

/-- The script is past its last read. -/
def Over (s : State) : Prop :=
  s.process = .gone ∧ s.pc ≠ .vmSize ∧ s.pc ≠ .vmRss ∧ s.pc ≠ .faults

theorem Over.of_test (hgone : s.process = .gone) (hpc : s.pc = .test) : Over s := by
  simp [Over, hgone, hpc]

theorem Over.of_sleep (hgone : s.process = .gone) (hpc : s.pc = .sleep) : Over s := by
  simp [Over, hgone, hpc]

theorem Over.of_ended {status : Nat} (hgone : s.process = .gone) (hpc : s.pc = .ended status) :
    Over s := by
  simp [Over, hgone, hpc]

/-- A step that prints no row. -/
structure Quiet (s s' : State) : Prop where
  rows : s'.rows = s.rows
  prevMinflt : s'.prevMinflt = s.prevMinflt
  elapsed : s'.elapsed + s'.pc.printed = s.elapsed + s.pc.printed
  ended : Over s → Over s'

/-- Only the step that reads the counters prints a row. -/
theorem step_cases {a : Act} (h : next s a = some s') :
    (readStat ⟨s, a, s'⟩ = none ∧ Quiet s s') ∨
      (readStat ⟨s, a, s'⟩ = some s.process.stat ∧ s.pc = .faults ∧
        s' = { s.printRow with pc := .sleep }) := by
  cases a with
  | process p =>
      obtain ⟨hbecomes, rfl⟩ := process_cases h
      refine .inl ⟨rfl, rfl, rfl, rfl, ?_⟩
      intro hover
      rw [hover.1] at hbecomes
      cases hbecomes
  | script =>
      cases hpc : s.pc with
      | faults =>
          simp only [next, scriptNext, hpc, Option.some.injEq] at h
          exact .inr ⟨by simp [readStat, hpc], rfl, h.symm⟩
      | test =>
          refine .inl ⟨by simp [readStat, hpc], ?_⟩
          simp only [next, scriptNext, hpc] at h
          split at h
          next hreadable =>
            cases h
            refine ⟨rfl, rfl, by simp [hpc, Pc.printed], ?_⟩
            intro hover
            simp [hover.1, Process.status] at hreadable
          next =>
            cases h
            refine ⟨?_, rfl, by simp [hpc, State.print, Pc.printed], ?_⟩
            · simp [State.rows, State.print, Line.row?]
            · intro hover
              exact .of_ended hover.1 rfl
      | vmSize =>
          refine .inl ⟨by simp [readStat, hpc], ?_⟩
          simp only [next, scriptNext, hpc] at h
          split at h <;> cases h <;>
            exact ⟨rfl, rfl, by simp [hpc, Pc.printed], fun hover => absurd hpc hover.2.1⟩
      | vmRss =>
          refine .inl ⟨by simp [readStat, hpc], ?_⟩
          simp only [next, scriptNext, hpc] at h
          split at h <;> cases h <;>
            exact ⟨rfl, rfl, by simp [hpc, Pc.printed], fun hover => absurd hpc hover.2.2.1⟩
      | sleep =>
          refine .inl ⟨by simp [readStat, hpc], ?_⟩
          simp only [next, scriptNext, hpc, Option.some.injEq] at h
          subst h
          exact ⟨rfl, rfl, by simp [hpc, Pc.printed], fun hover => .of_test hover.1 rfl⟩
      | ended status => simp [next, scriptNext, hpc] at h

/-! ## Rows -/

/-- The row shows the counters of the moment. -/
theorem totals_nextRow (hreadable : s.process.Readable) : s.nextRow.totals = counters s.process.stat := by
  cases hstat : s.process.stat with
  | none =>
      have hread : shellInt (readTwo (faultsText none)).1 = 0 := shellInt_nil
      have hread' : shellInt (readTwo (faultsText none)).2 = 0 := shellInt_nil
      rw [Row.totals, State.nextRow, hstat, hread, hread', counters]
  | some f =>
      have hf := hreadable f hstat
      rw [Row.totals, State.nextRow, hstat, readTwo_faultsText hf, counters,
        shellInt_printInt hf.minflt.1 hf.minflt.2, shellInt_printInt hf.majflt.1 hf.majflt.2]

theorem counters_fit (hreadable : s.process.Readable) :
    0 ≤ (counters s.process.stat).1 ∧ (counters s.process.stat).1 < 2 ^ 63 := by
  cases hstat : s.process.stat with
  | none => exact ⟨Int.le_refl 0, by decide⟩
  | some f => exact (hreadable f hstat).minflt

theorem curMinflt_nextRow (hreadable : s.process.Readable) :
    s.nextRow.curMinflt = (counters s.process.stat).1 := by
  rw [← totals_nextRow hreadable, Row.totals]

/-- The difference does not wrap. -/
theorem PrevOk.deltaMin_eq (h : PrevOk s) (hreadable : s.process.Readable) :
    s.nextRow.deltaMin = s.nextRow.curMinflt - shellInt s.prevMinflt := by
  have hcur := curMinflt_nextRow hreadable
  have hnonneg := h.nonneg
  have hfits := h.fits
  have hbounds := counters_fit hreadable
  have hwrap : s.nextRow.deltaMin = wrap 64 (s.nextRow.curMinflt - shellInt s.prevMinflt) := by
    simp only [State.nextRow]
  rw [hwrap]
  apply wrap_of_fits (by decide)
  rw [fits_64_iff]
  omega

theorem rows_printRow (s : State) : s.printRow.rows = s.rows ++ [s.nextRow] := by
  simp [State.rows, State.printRow, State.print, Line.row?]

/-! ## Runs -/

/-- `drop` says that a negative rate is the last thing a run prints rows about. -/
structure RatesOk (ts : List (Transition State Act)) (s : State) : Prop where
  prev : PrevOk s
  totals : s.rows.map Row.totals = (Lts.observed readStat ts).map counters
  addUp : AddUp s.rows
  sum : (s.rows.map Row.deltaMin).sum = shellInt s.prevMinflt
  length : s.rows.length = s.elapsed + s.pc.printed
  drop : ∀ r ∈ s.rows, r.deltaMin < 0 → Over s ∧ s.rows.getLast? = some r ∧ r.curMinflt = 0

theorem RatesOk.init (p : Process) : RatesOk [] (initState p) := by
  refine ⟨.init p, rfl, .nil, ?_, rfl, ?_⟩
  · have hzero : shellInt ['0'] = 0 := by decide
    exact hzero.symm
  · intro r hr
    cases hr

theorem RatesOk.quiet {ts : List (Transition State Act)} (h : RatesOk ts s)
    (hreadable : s.process.Readable) {a : Act} (hnext : next s a = some s') (hread : readStat ⟨s, a, s'⟩ = none) (hquiet : Quiet s s') :
    RatesOk (ts ++ [⟨s, a, s'⟩]) s' := by
  refine ⟨h.prev.step hreadable hnext, ?_, ?_, ?_, ?_, ?_⟩
  · rw [hquiet.rows, Lts.observed_snoc_none readStat hread]
    exact h.totals
  · rw [hquiet.rows]
    exact h.addUp
  · rw [hquiet.rows, hquiet.prevMinflt]
    exact h.sum
  · rw [hquiet.rows, hquiet.elapsed]
    exact h.length
  · rw [hquiet.rows]
    intro r hr hneg
    obtain ⟨hover, hlast⟩ := h.drop r hr hneg
    exact ⟨hquiet.ended hover, hlast⟩

theorem RatesOk.print {ts : List (Transition State Act)} (h : RatesOk ts s)
    (hreadable : s.process.Readable) {a : Act}
    (hread : readStat ⟨s, a, { s.printRow with pc := .sleep }⟩ = some s.process.stat)
    (hpc : s.pc = .faults) :
    RatesOk (ts ++ [⟨s, a, { s.printRow with pc := .sleep }⟩]) { s.printRow with pc := .sleep } := by
  have hrows : State.rows { s.printRow with pc := .sleep } = s.rows ++ [s.nextRow] := rows_printRow s
  have hprev : shellInt s.printRow.prevMinflt = s.nextRow.curMinflt := by
    simp only [State.printRow, State.nextRow]
  have hlength : s.rows.length = s.elapsed := by simpa [hpc, Pc.printed] using h.length
  -- the last rate makes up for what `prev_minflt` holds
  have hsum : (s.rows.map Row.deltaMin).sum + s.nextRow.deltaMin = s.nextRow.curMinflt := by
    rw [h.sum, h.prev.deltaMin_eq hreadable]
    omega
  refine ⟨(PrevOk.printRow hreadable).frame rfl rfl, ?_, ?_, ?_, ?_, ?_⟩
  · rw [hrows, Lts.observed_snoc_some readStat hread, List.map_append, List.map_append, h.totals,
      List.map_singleton, List.map_singleton, totals_nextRow hreadable]
  · rw [hrows]
    exact h.addUp.snoc hlength.symm hsum
  · rw [hrows, List.map_append, List.sum_append, List.map_singleton, List.sum_singleton, hsum]
    exact hprev.symm
  · rw [hrows, List.length_append, hlength]
    rfl
  · rw [hrows]
    intro r hr hneg
    rcases List.mem_append.mp hr with hold | hnew
    · exact absurd hpc (h.drop r hold hneg).1.2.2.2
    · obtain rfl := List.mem_singleton.mp hnew
      -- only a process that is gone has fewer faults than before
      have hgone : s.process = .gone := by
        by_contra hnot
        exact absurd ((h.prev.deltaMin_nonneg_iff hreadable).mpr fun hgone => absurd hgone hnot) (by omega)
      have hcur : s.nextRow.curMinflt = 0 := by
        rw [curMinflt_nextRow hreadable, hgone]
        rfl
      exact ⟨.of_sleep hgone rfl, List.getLast?_concat, hcur⟩

theorem RatesOk.run {p : Process} {ts : List (Transition State Act)}
    (hruns : system.RunsTo (initState p) ts s) (hreadable : ∀ t ∈ ts, t.before.process.Readable) :
    RatesOk ts s := by
  refine Lts.RunsTo.history_of (I := RatesOk) (.init p) ?_ hruns hreadable
  intro ts s₁ a s₂ h hnext hbefore
  rcases step_cases hnext with ⟨hread, hquiet⟩ | ⟨hread, hpc, rfl⟩
  · exact h.quiet hbefore hnext hread hquiet
  · exact h.print hbefore hread hpc

/-- In every run next to a readable process the rows show, one for one, the counters that were read, count the
seconds from 0, and their rates add up to the totals: the first `MinFlt/s` is all the
process has faulted before. A rate is negative in the last row only, where the process is
gone. -/
theorem rates_add_up {s₀ : State} {ts : List (Transition State Act)} (hinit : system.init s₀)
    (hruns : system.RunsTo s₀ ts s) (hreadable : ∀ t ∈ ts, t.before.process.Readable) :
    s.rows.map Row.totals = (Lts.observed readStat ts).map counters ∧ AddUp s.rows ∧
      ∀ r ∈ s.rows, r.deltaMin < 0 →
        s.process = .gone ∧ s.rows.getLast? = some r ∧ r.curMinflt = 0 := by
  obtain ⟨p, rfl⟩ := hinit
  have h := RatesOk.run hruns hreadable
  refine ⟨h.totals, h.addUp, ?_⟩
  intro r hr hneg
  obtain ⟨hover, hlast⟩ := h.drop r hr hneg
  exact ⟨hover.1, hlast⟩

/-- Two rows, 7 and -7. -/
theorem rates_add_up_exitBeforeRead :
    ∃ ts s, system.RunsTo (initState running) ts s ∧ s.rows.map Row.deltaMin = [7, -7] ∧
      AddUp s.rows := by
  have htrace : system.trace (initState running) exitBeforeRead = some (_, _) := rfl
  have hruns := Lts.RunsTo.of_trace htrace
  have hreadable := readable_of_actions exitBeforeRead hruns rfl
    (readable_of_demandPaging (.inl rfl)) (by
      intro p hp
      apply readable_of_demandPaging
      simp only [exitBeforeRead, List.mem_cons, List.not_mem_nil, reduceCtorEq, Act.process.injEq,
        false_or, or_false] at hp
      exact .inr (congrArg Process.stat hp))
  exact ⟨_, _, hruns, by decide, (rates_add_up ⟨_, rfl⟩ hruns hreadable).2.1⟩

end OsLabs.Monitor
