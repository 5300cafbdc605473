import OsLabs.Monitor.Script

/-! # Exits between the reads

The test at the top of the loop is no promise about the reads behind it. The two `grep`s
need the process alive; `get_page_faults` needs its `stat` file, or a `prev_minflt` that
is still 0.
-/

namespace OsLabs.Monitor

open CInt

variable {s s' : State}

/-- If the script has ended then by the message, and no row shows a negative rate. -/
structure Clean (s : State) : Prop where
  ended : ∀ status, s.pc = .ended status → status = 0 ∧ .hasExited ∈ s.output
  rows : ∀ r, .row r ∈ s.output → 0 ≤ r.deltaMin

/-- What the next command finds as it expects it. -/
def Expected (s : State) : Prop :=
  match s.pc with
  | .vmSize | .vmRss => ∃ status stat, s.process = .alive status stat
  | .faults => s.process = .gone → shellInt s.prevMinflt = 0
  | _ => True

/-- `prev_minflt` is a counter the process has had, or nothing. -/
structure PrevOk (s : State) : Prop where
  nonneg : 0 ≤ shellInt s.prevMinflt
  fits : shellInt s.prevMinflt < 2 ^ 63
  le : ∀ f, s.process.stat = some f → f.Readable → shellInt s.prevMinflt ≤ f.fields.minflt

/-! ## Reads -/

theorem grepField_iff {key : String} (hkey : key = "VmSize:" ∨ key = "VmRSS:") (p : Process) :
    (∃ v, grepField key p.status = .ok v) ↔ ∃ status stat, p = .alive status stat := by
  cases p with
  | alive status stat =>
      have hshown : (grepLine key status.1).isSome := by
        rcases hkey with rfl | rfl
        · exact status.2.1
        · exact status.2.2
      obtain ⟨l, hl⟩ := Option.isSome_iff_exists.mp hshown
      have hfield : grepField key (Process.alive status stat).status = .ok (field l 2) := by
        simp [Process.status, grepField, hl]
      exact ⟨fun _ => ⟨status, stat, rfl⟩, fun _ => ⟨_, hfield⟩⟩
  | zombie status stat =>
      have hhidden : grepLine key status.1 = none := by
        rcases hkey with rfl | rfl
        · exact status.2.1
        · exact status.2.2
      simp [Process.status, grepField, hhidden]
  | gone => simp [Process.status, grepField]

theorem grepField_error {key : String} {status : Option (List Char)} {e : Nat}
    (h : grepField key status = .error e) : e ≠ 0 := by
  cases status with
  | none =>
      cases h
      decide
  | some text =>
      simp only [grepField] at h
      split at h
      · cases h
        decide
      · cases h

theorem stat_eq_none_iff (p : Process) : p.stat = none ↔ p = .gone := by
  cases p <;> simp [Process.stat]

/-! ## Steps -/

theorem becomes_stat {p q : Process} (h : p.becomes q = true) {g : Stat} (hg : q.stat = some g) :
    ∃ f, p.stat = some f ∧ f.fields.minflt ≤ g.fields.minflt := by
  cases p with
  | alive status f =>
      cases q with
      | gone => cases hg
      | alive status' g' =>
          cases hg
          exact ⟨f, rfl, by simpa [Process.becomes] using h⟩
      | zombie status' g' =>
          cases hg
          exact ⟨f, rfl, by simpa [Process.becomes] using h⟩
  | zombie status f =>
      cases q with
      | gone => cases hg
      | alive status' g' => cases h
      | zombie status' g' => cases h
  | gone => cases h

theorem process_cases {p : Process} (h : next s (.process p) = some s') :
    s.process.becomes p = true ∧ s' = { s with process := p } := by
  simp only [next] at h
  split at h
  · next hp =>
      cases h
      exact ⟨hp, rfl⟩
  · cases h

theorem PrevOk.of_value {n : Int} (hvalue : shellInt s.prevMinflt = n) (hnonneg : 0 ≤ n)
    (hfits : n < 2 ^ 63)
    (hle : ∀ f, s.process.stat = some f → f.Readable → n ≤ f.fields.minflt) : PrevOk s := by
  subst hvalue
  exact ⟨hnonneg, hfits, hle⟩

theorem PrevOk.init (p : Process) : PrevOk (initState p) := by
  have hzero : shellInt ['0'] = 0 := by decide
  exact .of_value (s := initState p) hzero (Int.le_refl 0) (by decide) fun f _ h => h.minflt.1

/-- The steps that leave `prev_minflt` alone. -/
theorem PrevOk.frame (h : PrevOk s) (hprocess : s'.process = s.process)
    (hprev : s'.prevMinflt = s.prevMinflt) : PrevOk s' := by
  apply PrevOk.of_value (congrArg shellInt hprev) h.nonneg h.fits
  rw [hprocess]
  exact h.le

/-- The counter read becomes `prev_minflt`. -/
theorem PrevOk.printRow (hreadable : s.process.Readable) : PrevOk s.printRow := by
  cases hstat : s.process.stat with
  | none =>
      have hprev : s.printRow.prevMinflt = [] := by simp [State.printRow, hstat, faultsText, readTwo]
      have hvalue : shellInt s.printRow.prevMinflt = 0 := by rw [hprev, shellInt_nil]
      exact .of_value hvalue (Int.le_refl 0) (by decide) fun f _ h => h.minflt.1
  | some f =>
      have hf := hreadable f hstat
      have hprev : s.printRow.prevMinflt = printInt f.fields.minflt := by
        simp only [State.printRow, hstat, readTwo_faultsText hf]
      have hvalue : shellInt s.printRow.prevMinflt = f.fields.minflt := by
        rw [hprev, shellInt_printInt hf.minflt.1 hf.minflt.2]
      apply PrevOk.of_value hvalue hf.minflt.1 hf.minflt.2
      intro g hg _
      have hsame : s.process.stat = some g := hg
      rw [hstat] at hsame
      cases hsame
      exact Int.le_refl _

theorem PrevOk.step (h : PrevOk s) (hreadable : s.process.Readable) {a : Act}
    (hnext : next s a = some s') : PrevOk s' := by
  cases a with
  | process p =>
      obtain ⟨hbecomes, rfl⟩ := process_cases hnext
      refine ⟨h.nonneg, h.fits, ?_⟩
      intro g hg _
      obtain ⟨f, hf, hle⟩ := becomes_stat hbecomes hg
      exact (h.le f hf (hreadable f hf)).trans hle
  | script =>
      simp only [next, scriptNext] at hnext
      split at hnext
      · split at hnext <;> cases hnext <;> exact h.frame rfl rfl
      · split at hnext <;> cases hnext <;> exact h.frame rfl rfl
      · split at hnext <;> cases hnext <;> exact h.frame rfl rfl
      · cases hnext
        exact (PrevOk.printRow hreadable).frame rfl rfl
      · cases hnext
        exact h.frame rfl rfl
      · cases hnext

/-- A row shows a negative rate when the process is gone by then, unless no fault has
been counted so far. -/
theorem PrevOk.deltaMin_nonneg_iff (h : PrevOk s) (hreadable : s.process.Readable) :
    0 ≤ s.nextRow.deltaMin ↔ (s.process = .gone → shellInt s.prevMinflt = 0) := by
  have hnonneg := h.nonneg
  have hfits := h.fits
  simp only [State.nextRow]
  cases hstat : s.process.stat with
  | none =>
      have hgone := (stat_eq_none_iff _).mp hstat
      have hread : shellInt (readTwo (faultsText none)).1 = 0 := shellInt_nil
      have hwrap : wrap 64 (0 - shellInt s.prevMinflt) = 0 - shellInt s.prevMinflt := by
        apply wrap_of_fits (by decide)
        rw [fits_64_iff]
        omega
      rw [hread, hwrap]
      constructor
      · intro hle _
        omega
      · intro hzero
        rw [hzero hgone]
        decide
  | some f =>
      have hf := hreadable f hstat
      have hle := h.le f hstat hf
      have hcounter := hf.minflt
      have hwrap : wrap 64 (f.fields.minflt - shellInt s.prevMinflt)
          = f.fields.minflt - shellInt s.prevMinflt := by
        apply wrap_of_fits (by decide)
        rw [fits_64_iff]
        omega
      rw [readTwo_faultsText hf, shellInt_printInt hf.minflt.1 hf.minflt.2, hwrap]
      constructor
      · intro _ hgone
        rw [hgone] at hstat
        cases hstat
      · intro _
        omega

/-! ## Clean states -/

def RowsOk (s : State) : Prop := ∀ r, .row r ∈ s.output → 0 ≤ r.deltaMin

theorem clean_iff_rows (h : ∀ status, s.pc ≠ .ended status) : Clean s ↔ RowsOk s := by
  constructor
  · intro hclean
    exact hclean.rows
  · intro hrows
    exact ⟨fun status hended => absurd hended (h status), hrows⟩

theorem not_clean_of_ended {status : Nat} (hpc : s.pc = .ended status) (hne : status ≠ 0) :
    ¬ Clean s := by
  intro hclean
  exact hne (hclean.ended status hpc).1

theorem rowsOk_printRow : RowsOk s.printRow ↔ RowsOk s ∧ 0 ≤ s.nextRow.deltaMin := by
  constructor
  · intro h
    refine ⟨?_, ?_⟩
    · intro r hr
      exact h r (List.mem_append_left _ hr)
    · exact h s.nextRow (List.mem_append_right _ List.mem_cons_self)
  · rintro ⟨hrows, hnext⟩ r hr
    rcases List.mem_append.mp hr with hold | hnew
    · exact hrows r hold
    · rw [Line.row.inj (List.mem_singleton.mp hnew)]
      exact hnext

theorem clean_iff_of_output (hpc : ∀ status, s.pc ≠ .ended status)
    (hpc' : ∀ status, s'.pc ≠ .ended status) (houtput : s'.output = s.output) :
    Clean s' ↔ Clean s := by
  rw [clean_iff_rows hpc, clean_iff_rows hpc', RowsOk, RowsOk, houtput]

/-- A `grep` step stays clean exactly when it finds its line. -/
theorem clean_grep {key : String} (hkey : key = "VmSize:" ∨ key = "VmRSS:")
    (hpc : ∀ status, s.pc ≠ .ended status)
    (hok : ∀ v, grepField key s.process.status = .ok v →
      (∀ status, s'.pc ≠ .ended status) ∧ s'.output = s.output)
    (herror : ∀ status, grepField key s.process.status = .error status → s'.pc = .ended status) :
    Clean s' ↔ Clean s ∧ ∃ status stat, s.process = .alive status stat := by
  rw [← grepField_iff hkey]
  cases hgrep : grepField key s.process.status with
  | ok v =>
      obtain ⟨hpc', houtput⟩ := hok v hgrep
      rw [clean_iff_of_output hpc hpc' houtput]
      exact ⟨fun h => ⟨h, v, rfl⟩, And.left⟩
  | error status =>
      have hbad : ¬ Clean s' := not_clean_of_ended (herror status hgrep) (grepField_error hgrep)
      constructor
      · intro h
        exact absurd h hbad
      · rintro ⟨-, v, hv⟩
        cases hv

/-- A step of the script keeps it clean exactly when it finds what it expects. -/
theorem PrevOk.clean_script (h : PrevOk s) (hreadable : s.process.Readable)
    (hnext : scriptNext s = some s') : Clean s' ↔ Clean s ∧ Expected s := by
  cases hpc : s.pc with
  | test =>
      have hrunning : ∀ status, s.pc ≠ .ended status := by simp [hpc]
      have hexpected : Expected s := by simp [Expected, hpc]
      have hclean : Clean s' ↔ Clean s := by
        simp only [scriptNext, hpc] at hnext
        split at hnext
        · cases hnext
          exact clean_iff_of_output hrunning (by simp) rfl
        · cases hnext
          rw [clean_iff_rows hrunning]
          constructor
          · intro hclean r hr
            exact hclean.rows r (List.mem_append_left _ hr)
          · intro hrows
            refine ⟨?_, ?_⟩
            · intro status hended
              cases hended
              exact ⟨rfl, List.mem_append_right _ List.mem_cons_self⟩
            · intro r hr
              rcases List.mem_append.mp hr with hold | hnew
              · exact hrows r hold
              · cases List.mem_singleton.mp hnew
      rw [hclean]
      exact ⟨fun hc => ⟨hc, hexpected⟩, And.left⟩
  | vmSize =>
      have hexpected : Expected s ↔ ∃ status stat, s.process = .alive status stat := by
        simp [Expected, hpc]
      simp only [scriptNext, hpc] at hnext
      rw [hexpected]
      apply clean_grep (.inl rfl) (by simp [hpc])
      · intro v hv
        rw [hv] at hnext
        cases hnext
        exact ⟨by simp, rfl⟩
      · intro status hstatus
        rw [hstatus] at hnext
        cases hnext
        rfl
  | vmRss =>
      have hexpected : Expected s ↔ ∃ status stat, s.process = .alive status stat := by
        simp [Expected, hpc]
      simp only [scriptNext, hpc] at hnext
      rw [hexpected]
      apply clean_grep (.inr rfl) (by simp [hpc])
      · intro v hv
        rw [hv] at hnext
        cases hnext
        exact ⟨by simp, rfl⟩
      · intro status hstatus
        rw [hstatus] at hnext
        cases hnext
        rfl
  | faults =>
      have hexpected : Expected s ↔ (s.process = .gone → shellInt s.prevMinflt = 0) := by
        simp [Expected, hpc]
      simp only [scriptNext, hpc, Option.some.injEq] at hnext
      subst hnext
      have hclean : Clean s ↔ RowsOk s := clean_iff_rows (by simp [hpc])
      have hclean' : Clean { s.printRow with pc := .sleep } ↔ RowsOk s.printRow :=
        clean_iff_rows nofun
      rw [hexpected, ← h.deltaMin_nonneg_iff hreadable, hclean, hclean']
      exact rowsOk_printRow
  | sleep =>
      have hexpected : Expected s := by simp [Expected, hpc]
      simp only [scriptNext, hpc, Option.some.injEq] at hnext
      subst hnext
      have hclean : Clean { s with elapsed := s.elapsed + 1, pc := .test } ↔ Clean s :=
        clean_iff_of_output (by simp [hpc]) nofun rfl
      rw [hclean]
      exact ⟨fun hc => ⟨hc, hexpected⟩, And.left⟩
  | ended status => simp [scriptNext, hpc] at hnext

theorem PrevOk.clean_step (h : PrevOk s) (hreadable : s.process.Readable) {a : Act}
    (hnext : next s a = some s') : Clean s' ↔ Clean s ∧ (a = .script → Expected s) := by
  cases a with
  | process p =>
      obtain ⟨-, rfl⟩ := process_cases hnext
      have hclean : Clean { s with process := p } ↔ Clean s :=
        ⟨fun hc => ⟨hc.ended, hc.rows⟩, fun hc => ⟨hc.ended, hc.rows⟩⟩
      rw [hclean]
      exact ⟨fun hc => ⟨hc, nofun⟩, And.left⟩
  | script =>
      rw [h.clean_script hreadable hnext]
      exact and_congr_right fun _ => ⟨fun he _ => he, fun he => he rfl⟩

theorem clean_init (p : Process) : Clean (initState p) := ⟨nofun, nofun⟩

/-! ## Runs -/

/-- How many steps the script still makes once the process is gone. -/
def Pc.stepsLeft : Pc → Nat
  | .faults => 3
  | .sleep => 2
  | .test => 1
  | .vmSize | .vmRss | .ended _ => 0

theorem script_enabled (h : ∀ status, s.pc ≠ .ended status) : (scriptNext s).isSome := by
  cases hpc : s.pc with
  | ended status => exact absurd hpc (h status)
  | _ =>
      simp only [scriptNext, hpc]
      repeat (first | rfl | split)

/-- A process that is gone stays gone, and the script reads nothing more of it. -/
theorem gone_step (hgone : s.process = .gone) (hexpected : Expected s) {a : Act}
    (hnext : next s a = some s') :
    s'.process = .gone ∧ Expected s' ∧ s'.pc.stepsLeft < s.pc.stepsLeft := by
  cases a with
  | process p =>
      obtain ⟨hbecomes, -⟩ := process_cases hnext
      rw [hgone] at hbecomes
      cases hbecomes
  | script =>
      unfold Expected at hexpected
      cases hpc : s.pc with
      | test =>
          simp only [next, scriptNext, hpc, hgone] at hnext
          cases hnext
          exact ⟨hgone, trivial, Nat.lt_succ_self _⟩
      | vmSize =>
          rw [hpc, hgone] at hexpected
          obtain ⟨status, stat, halive⟩ := hexpected
          cases halive
      | vmRss =>
          rw [hpc, hgone] at hexpected
          obtain ⟨status, stat, halive⟩ := hexpected
          cases halive
      | faults =>
          simp only [next, scriptNext, hpc] at hnext
          cases hnext
          exact ⟨hgone, trivial, Nat.lt_succ_self _⟩
      | sleep =>
          simp only [next, scriptNext, hpc] at hnext
          cases hnext
          exact ⟨hgone, trivial, Nat.lt_succ_self _⟩
      | ended status => simp [next, scriptNext, hpc] at hnext

theorem readable_of_gone (hgone : s.process = .gone) : s.process.Readable := by
  intro f hf
  rw [hgone] at hf
  cases hf

theorem end_inevitable (hprev : PrevOk s) (hclean : Clean s) (hgone : s.process = .gone)
    (hexpected : Expected s) :
    system.Inevitable (fun s' => s'.pc = .ended 0 ∧ Clean s') s := by
  refine Lts.Inevitable.of_measure (fun s' => s'.pc.stepsLeft)
    (I := fun s' => PrevOk s' ∧ Clean s' ∧ s'.process = .gone ∧ Expected s') ?_ ?_
    ⟨hprev, hclean, hgone, hexpected⟩
  · rintro s' ⟨-, hclean, -, -⟩
    by_cases hended : ∃ status, s'.pc = .ended status
    · obtain ⟨status, hpc⟩ := hended
      obtain ⟨rfl, -⟩ := hclean.ended status hpc
      exact .inl ⟨hpc, hclean⟩
    · exact .inr (Lts.enabled_of_isSome .script (script_enabled fun status hpc => hended ⟨status, hpc⟩))
  · rintro s₁ a s₂ ⟨hprev, hclean, hgone, hexpected⟩ hnext
    obtain ⟨hgone', hexpected', hlt⟩ := gone_step hgone hexpected hnext
    have hreadable := readable_of_gone hgone
    have hclean' : Clean s₂ := (hprev.clean_step hreadable hnext).mpr ⟨hclean, fun _ => hexpected⟩
    exact ⟨⟨hprev.step hreadable hnext, hclean', hgone', hexpected'⟩, hlt⟩

theorem scriptNext_process (h : scriptNext s = some s') : s'.process = s.process := by
  simp only [scriptNext] at h
  repeat' split at h
  all_goals cases h
  all_goals rfl

theorem readable_of_moves {s₀ : State} {ts : List (Transition State Act)}
    (hruns : system.RunsTo s₀ ts s) (hstart : s₀.process.Readable)
    (hmoves : ∀ t ∈ ts, ∀ p, t.action = .process p → p.Readable) :
    (∀ t ∈ ts, t.before.process.Readable) ∧ s.process.Readable := by
  induction hruns with
  | refl =>
      constructor
      · intro t ht
        cases ht
      · exact hstart
  | @snoc s₁ s₂ ts a hruns hnext ih =>
      rw [List.forall_mem_append, List.forall_mem_singleton] at hmoves
      have h := ih hmoves.1
      constructor
      · rw [List.forall_mem_append, List.forall_mem_singleton]
        exact h
      · cases a with
        | process p =>
            obtain ⟨-, rfl⟩ := process_cases hnext
            exact hmoves.2 p rfl
        | script =>
            rw [scriptNext_process hnext]
            exact h.2

/-- A process is readable all along when it starts so and moves to such states only. -/
theorem readable_of_actions (acts : List Act) {s₀ : State} {ts : List (Transition State Act)}
    (hruns : system.RunsTo s₀ ts s) (hacts : ts.map (·.action) = acts)
    (hstart : s₀.process.Readable) (hmoves : ∀ p, .process p ∈ acts → p.Readable) :
    ∀ t ∈ ts, t.before.process.Readable := by
  apply (readable_of_moves hruns hstart _).1
  intro t ht p hp
  apply hmoves p
  rw [← hacts, ← hp]
  exact List.mem_map_of_mem ht

/-- The monitor of a readable process is clean as long as each step of the script finds
what it expects, and then it ends cleanly after the process is gone. -/
theorem ends_cleanly_iff {s₀ : State} {ts : List (Transition State Act)} (hinit : system.init s₀)
    (hruns : system.RunsTo s₀ ts s) (hreadable : ∀ t ∈ ts, t.before.process.Readable) :
    (Clean s ↔ ∀ t ∈ ts, t.action = .script → Expected t.before) ∧
      (Clean s → s.process = .gone → Expected s →
        system.Inevitable (fun s' => s'.pc = .ended 0 ∧ Clean s') s) := by
  obtain ⟨p, rfl⟩ := hinit
  have hrun : PrevOk s ∧ (Clean s ↔ ∀ t ∈ ts, t.action = .script → Expected t.before) := by
    refine Lts.RunsTo.history_of (I := fun ts s => PrevOk s ∧
      (Clean s ↔ ∀ t ∈ ts, t.action = .script → Expected t.before)) ?_ ?_ hruns hreadable
    · exact ⟨.init p, by simp [clean_init]⟩
    · rintro ts s₁ a s₂ ⟨hprev, hclean⟩ hnext hbefore
      refine ⟨hprev.step hbefore hnext, ?_⟩
      rw [hprev.clean_step hbefore hnext, hclean, List.forall_mem_append, List.forall_mem_singleton]
  refine ⟨hrun.2, ?_⟩
  intro hclean hgone hexpected
  exact end_inevitable hrun.1 hclean hgone hexpected

/-! ## Three moments to exit -/

def demandPaging : Stat where
  comm := ⟨"demand_paging".toList, by decide⟩
  fields := ⟨1, ⟨'S', rfl⟩, 0, 0, 0, 0, 0, 0, 7, 0, 0, []⟩

theorem demandPaging_readable : demandPaging.Readable := ⟨by decide, by decide, by decide⟩

theorem readable_of_demandPaging {p : Process} (h : p.stat = some demandPaging ∨ p.stat = none) :
    p.Readable := by
  intro f hf
  rcases h with hsome | hnone
  · rw [hsome] at hf
    cases hf
    exact demandPaging_readable
  · rw [hnone] at hf
    cases hf

def running : Process := .alive ⟨"VmSize:\t8 kB\nVmRSS:\t4 kB\n".toList, by decide⟩ demandPaging

def exited : Process := .zombie ⟨"State:\tZ\n".toList, by decide⟩ demandPaging

/-- The process exits while the script sleeps. -/
def exitInSleep : List Act := [.script, .script, .script, .script, .process exited, .process .gone]

theorem ends_cleanly_exitInSleep :
    ∃ ts s, system.RunsTo (initState running) ts s ∧ ts.map (·.action) = exitInSleep ∧
      system.Inevitable (fun s' => s'.pc = .ended 0 ∧ Clean s') s := by
  have htrace : system.trace (initState running) exitInSleep = some (_, _) := rfl
  have hruns := Lts.RunsTo.of_trace htrace
  have hreadable := readable_of_actions exitInSleep hruns rfl
    (readable_of_demandPaging (.inl rfl)) (by
      intro p hp
      apply readable_of_demandPaging
      simp only [exitInSleep, List.mem_cons, List.not_mem_nil, reduceCtorEq, Act.process.injEq,
        false_or, or_false] at hp
      rcases hp with rfl | rfl
      · exact .inl rfl
      · exact .inr rfl)
  refine ⟨_, _, hruns, rfl, (ends_cleanly_iff ⟨_, rfl⟩ hruns hreadable).2 ⟨nofun, ?_⟩ rfl trivial⟩
  intro r hr
  cases List.mem_singleton.mp hr
  decide

/-- The file is readable, and gone when `grep` opens it. -/
def exitBeforeGrep : List Act := [.script, .process .gone, .script]

/-- Nobody has waited for the process yet. -/
def zombieBeforeGrep : List Act := [.script, .process exited, .script]

/-- The second row is complete but for the counters. -/
def exitBeforeRead : List Act :=
  [.script, .script, .script, .script, .script, .script, .script, .script, .process .gone, .script]

/-- The script ends with the status of `grep` and no message, or it prints the rate -7. -/
theorem not_clean_exits :
    (∃ ts s, system.RunsTo (initState running) ts s ∧ ts.map (·.action) = exitBeforeGrep ∧
      s.pc = .ended 2 ∧ s.output = [] ∧ ¬ Clean s) ∧
    (∃ ts s, system.RunsTo (initState running) ts s ∧ ts.map (·.action) = zombieBeforeGrep ∧
      s.pc = .ended 1 ∧ s.output = [] ∧ ¬ Clean s) ∧
    ∃ ts s, system.RunsTo (initState running) ts s ∧ ts.map (·.action) = exitBeforeRead ∧
      (∃ r, s.output.getLast? = some (.row r) ∧ r.deltaMin = -7) ∧ ¬ Clean s := by
  have hgone : system.trace (initState running) exitBeforeGrep = some (_, _) := rfl
  have hzombie : system.trace (initState running) zombieBeforeGrep = some (_, _) := rfl
  have hread : system.trace (initState running) exitBeforeRead = some (_, _) := rfl
  refine ⟨⟨_, _, .of_trace hgone, rfl, rfl, rfl, not_clean_of_ended rfl (by decide)⟩,
    ⟨_, _, .of_trace hzombie, rfl, rfl, rfl, not_clean_of_ended rfl (by decide)⟩,
    _, _, .of_trace hread, rfl, ⟨_, rfl, by decide⟩, ?_⟩
  intro hclean
  exact absurd (hclean.rows _ (List.mem_of_getLast? rfl)) (by decide)

end OsLabs.Monitor
