import OsLabs.CrashRecovery.AtomicUpdate

/-! # Crashes during the update

Until the rename a crash shows the old file, since no effect touches it. From
the sync of the temporary file on its data is durable, so whichever entries
reach the disk, the final path leads to the old file or to the complete new one.
-/

namespace OsLabs.CrashRecovery

variable {prev : Path → Option (List UInt8)} {temp final : Path} {ino : Ino}
  {bytes content : List UInt8} {s : State} {fs : Files Path Ino UInt8}

/-- A path whose entry and old file are as they were. -/
theorem contents_of_old (hdir : fs.dir final = (files prev).dir final)
    (hdata : fs.data (.old final) = (files prev).data (.old final)) :
    fs.contents final = prev final := by
  unfold Files.contents
  rw [hdir]
  cases hprev : prev final with
  | none => simp [files, hprev]
  | some old => simp [files, hprev, hdata]

/-! ## Writing the temporary file -/

/-- The temporary file is open and holds `data`; the rest is as it was. -/
structure Writing (prev : Path → Option (List UInt8)) (temp : Path) (ino : Ino)
    (data : List UInt8) (s : State) : Prop where
  fd : s.fd = some ino
  durable : s.disk.durable = files prev
  pending : ∀ e ∈ s.disk.pending, e.target = .data ino ∨ e = .entry temp (some ino)
  entry : s.disk.current.dir temp = some ino
  data : s.disk.current.data ino = data

theorem Writing.openTrunc (prev : Path → Option (List UInt8)) (hne : temp ≠ final) :
    ∃ ino, ino ≠ .old final ∧ Writing prev temp ino [] ((init prev).exec (.openTrunc temp true)) := by
  cases hprev : prev temp with
  | none =>
      have hdir : (init prev).disk.current.dir temp = none := by
        show (files prev).dir temp = none
        simp [files, hprev]
      refine ⟨.new, nofun, ?_⟩
      simp only [State.exec, hdir]
      refine ⟨rfl, rfl, fun e he => ?_, ?_, rfl⟩
      · exact .inr (List.mem_singleton.mp he)
      · simp [State.add, init, Disk.add, Disk.current, Files.apply]
  | some old =>
      have hdir : (init prev).disk.current.dir temp = some (.old temp) := by
        show (files prev).dir temp = some (.old temp)
        simp [files, hprev]
      refine ⟨.old temp, fun heq => hne (Ino.old.inj heq), ?_⟩
      simp only [State.exec, hdir]
      refine ⟨rfl, rfl, fun e he => ?_, hdir, ?_⟩
      · exact .inl (by rw [List.mem_singleton.mp he]; rfl)
      · simp [State.add, init, Disk.add, Disk.current, Files.apply]

theorem Writing.mkstemp (prev : Path → Option (List UInt8)) (temp : Path) :
    Writing prev temp .new [] ((init prev).exec (.mkstemp temp true)) := by
  refine ⟨rfl, rfl, fun e he => ?_, ?_, rfl⟩
  · exact .inr (List.mem_singleton.mp he)
  · simp [State.exec, State.add, init, Disk.add, Disk.current, Files.apply]

theorem Writing.write (h : Writing prev temp ino [] s) (bytes : List UInt8) (n : Nat) :
    Writing prev temp ino (bytes.take n) (s.exec (.write bytes (some n))) := by
  have hexec : s.exec (.write bytes (some n)) = s.add (writeEffects ino (bytes.take n)) := by
    simp [State.exec, h.fd]
  have htargets : ∀ e ∈ writeEffects ino (bytes.take n), e.target = .data ino := by
    intro e he
    obtain ⟨b, _, rfl⟩ := List.mem_map.mp he
    rfl
  rw [hexec]
  refine ⟨h.fd, h.durable, ?_, ?_, ?_⟩
  · intro e he
    rcases List.mem_append.mp he with hold | hnew
    · exact h.pending e hold
    · exact .inl (htargets e hnew)
  · show (s.disk.add _).current.dir temp = some ino
    rw [Disk.current_add, Files.applyAll_dir]
    · exact h.entry
    · intro o ho
      cases htargets _ ho
  · show (s.disk.add _).current.data ino = bytes.take n
    have hbytes := s.disk.current.applyAll_bytes ino (bytes.take n)
    rw [h.data, List.nil_append] at hbytes
    rw [Disk.current_add]
    exact hbytes

theorem Writing.quiet (h : Writing prev temp ino bytes s) (hne : temp ≠ final) (o : Option Ino) :
    Effect.entry final o ∉ s.disk.pending := by
  intro ho
  rcases h.pending _ ho with htarget | hentry
  · cases htarget
  · cases hentry
    exact hne rfl

theorem Writing.untouched (h : Writing prev temp ino bytes s) (hino : ino ≠ .old final)
    {e : Effect Path Ino UInt8} (he : e ∈ s.disk.pending) : e.target ≠ .data (.old final) := by
  rcases h.pending e he with htarget | hentry
  · rw [htarget]
    intro heq
    exact hino (Target.data.inj heq)
  · rw [hentry]
    nofun

theorem Writing.crash (h : Writing prev temp ino bytes s) (hne : temp ≠ final)
    (hino : ino ≠ .old final) (hcrash : s.disk.Crash fs) : fs.contents final = prev final := by
  obtain ⟨es, hsub, rfl⟩ := hcrash
  apply contents_of_old
  · rw [Files.applyAll_dir fun o ho => h.quiet hne o (hsub.subset ho), h.durable]
  · rw [Files.applyAll_data fun e he => h.untouched hino (hsub.subset he), h.durable]

/-! ## Renaming the synced file -/

/-- The temporary file is durable with its content; only entries are pending. -/
structure Synced (prev : Path → Option (List UInt8)) (temp final : Path) (ino : Ino)
    (content : List UInt8) (d : Disk Path Ino UInt8) : Prop where
  dir : d.durable.dir final = (files prev).dir final
  old : d.durable.data (.old final) = (files prev).data (.old final)
  new : d.durable.data ino = content
  pending : ∀ e ∈ d.pending, (∃ o, e = .entry temp o) ∨ e = .entry final (some ino)

theorem Synced.target {d : Disk Path Ino UInt8} (h : Synced prev temp final ino content d)
    {e : Effect Path Ino UInt8} (he : e ∈ d.pending) : e.target = .dir := by
  rcases h.pending e he with ⟨o, rfl⟩ | rfl <;> rfl

theorem Synced.data_current {d : Disk Path Ino UInt8} (h : Synced prev temp final ino content d)
    (ino' : Ino) : d.current.data ino' = d.durable.data ino' := by
  apply Files.applyAll_data
  intro e he
  rw [h.target he]
  nofun

/-- The old file or the new one, complete. -/
theorem Synced.crash {d : Disk Path Ino UInt8} (h : Synced prev temp final ino content d)
    (hne : temp ≠ final) (hcrash : d.Crash fs) :
    fs.contents final = prev final ∨ fs.contents final = some content := by
  have hquiet : ∀ ino', d.durable.dir final = some ino' ∨ Effect.entry final (some ino') ∈ d.pending →
      ∀ e ∈ d.pending, e.target ≠ .data ino' := by
    intro ino' _ e he
    rw [h.target he]
    nofun
  rcases hcrash.contents hquiet with hdurable | ⟨o, ho, hnew⟩
  · rw [hdurable]
    exact .inl (contents_of_old h.dir h.old)
  · rcases h.pending _ ho with ⟨o', hentry⟩ | hentry
    · cases hentry
      exact (hne rfl).elim
    · cases hentry
      rw [hnew, Option.map_some, h.new]
      exact .inr rfl

theorem Synced.of_writing (h : Writing prev temp ino content s) (hino : ino ≠ .old final) :
    Synced prev temp final ino content (s.disk.sync (.data ino)) := by
  refine ⟨?_, ?_, ?_, ?_⟩
  · rw [Disk.sync_data_dir, h.durable]
  · rw [Disk.sync_data_of_ne fun heq => hino (Target.data.inj heq), h.durable]
  · rw [Disk.sync_data_self, h.data]
  · intro e he
    obtain ⟨hmem, htarget⟩ := Disk.mem_sync_pending.mp he
    rcases h.pending e hmem with hdata | hentry
    · exact (htarget hdata).elim
    · exact .inl ⟨_, hentry⟩

theorem Synced.rename {d : Disk Path Ino UInt8} (h : Synced prev temp final ino content d) :
    Synced prev temp final ino content (d.add [.entry final (some ino), .entry temp none]) := by
  refine ⟨h.dir, h.old, h.new, ?_⟩
  intro e he
  rcases List.mem_append.mp he with hold | hnew
  · exact h.pending e hold
  · rcases List.mem_pair.mp hnew with rfl | rfl
    · exact .inr rfl
    · exact .inl ⟨none, rfl⟩

theorem contents_rename (d : Disk Path Ino UInt8) (hne : temp ≠ final) (ino : Ino) :
    (d.add [.entry final (some ino), .entry temp none]).current.contents final =
      some (d.current.data ino) := by
  rw [Disk.current_add]
  simp [Files.contents, Files.apply, Function.update_of_ne hne.symm]

/-- Once the directory is synced too nothing is pending. -/
theorem Synced.crash_sync_dir {d : Disk Path Ino UInt8} (h : Synced prev temp final ino content d)
    (hcrash : (d.sync .dir).Crash fs) : fs.contents final = d.current.contents final := by
  have hnone : (d.sync .dir).pending = [] :=
    List.eq_nil_iff_forall_not_mem.mpr fun e he =>
      (Disk.mem_sync_pending.mp he).2 (h.target (Disk.mem_sync_pending.mp he).1)
  obtain ⟨es, hsub, rfl⟩ := hcrash
  rw [hnone, List.sublist_nil] at hsub
  have hdata : (d.sync .dir).durable.data = d.current.data := by
    funext ino'
    rw [Disk.sync_data_of_ne (show Target.dir ≠ .data ino' from nofun), h.data_current]
  rw [hsub, Files.applyAll_nil, Files.contents, Disk.sync_dir_self, hdata]
  rfl

/-! ## The whole update -/

section Replace

variable {r : Results} {pre : List Call}

/-- All calls succeed, and the write is not short. -/
structure Results.Succeed (r : Results) (content : List UInt8) : Prop where
  opened : r.opened = true
  written : r.written = some content.length
  synced : r.synced = true
  renamed : r.renamed = true
  dirOpened : r.dirOpened = true
  dirSynced : r.dirSynced = true

/-- What the final path may show after a crash behind the calls `pre`. A crash
within a call is one before it or one with the effects of the call pending. -/
def ShowsOldOrNew (prev : Path → Option (List UInt8)) (final : Path) (content : List UInt8)
    (pre : List Call) (fs : Files Path Ino UInt8) : Prop :=
  (fs.contents final = prev final ∨ fs.contents final = some content) ∧
    (.fsyncDir true ∈ pre → fs.contents final = some content)

/-- At every point before the unlink a crash shows the old file or the new one. -/
def CrashAtomic (prev : Path → Option (List UInt8)) (final : Path) (content : List UInt8)
    (calls : List Call) : Prop :=
  ∀ pre, pre <+: calls → (∀ ok, .unlink final ok ∉ pre) →
    ∀ fs, (runCalls (init prev) pre).disk.Crash fs → ShowsOldOrNew prev final content pre fs

theorem exec_fsync (h : s.fd = some ino) :
    s.exec (.fsync true) = { s with disk := s.disk.sync (.data ino), fd := none } := by
  simp [State.exec, h]

theorem exec_rename (h : s.disk.current.dir temp = some ino) :
    s.exec (.rename temp final true) = s.add [.entry final (some ino), .entry temp none] := by
  simp [State.exec, h]

theorem ShowsOldOrNew.cons {c : Call} (hc : c ≠ .fsyncDir true)
    (h : ShowsOldOrNew prev final content pre fs) :
    ShowsOldOrNew prev final content (c :: pre) fs := by
  refine ⟨h.1, fun hmem => ?_⟩
  rcases List.mem_cons.mp hmem with heq | hmem
  · exact (hc heq.symm).elim
  · exact h.2 hmem

/-- From the sync of the temporary file on. -/
theorem crash_synced (hne : temp ≠ final) {ok : Bool} (h : Synced prev temp final ino content s.disk)
    (hentry : s.disk.current.dir temp = some ino)
    (hpre : pre <+: [.rename temp final true, .openDir true, .fsyncDir true, .unlink final ok])
    (hunlink : ∀ ok, .unlink final ok ∉ pre) (hcrash : (runCalls s pre).disk.Crash fs) :
    ShowsOldOrNew prev final content pre fs := by
  rcases List.prefix_cons_iff.mp hpre with rfl | ⟨pre₁, rfl, hpre₁⟩
  · exact ⟨h.crash hne hcrash, nofun⟩
  have hrenamed := h.rename
  have hfinal := contents_rename s.disk hne ino
  rw [h.data_current, h.new] at hfinal
  rw [runCalls, List.foldl_cons, exec_rename hentry] at hcrash
  rcases List.prefix_cons_iff.mp hpre₁ with rfl | ⟨pre₂, rfl, hpre₂⟩
  · exact ⟨hrenamed.crash hne hcrash, by simp⟩
  rcases List.prefix_cons_iff.mp hpre₂ with rfl | ⟨pre₃, rfl, hpre₃⟩
  · exact ⟨hrenamed.crash hne hcrash, by simp⟩
  rcases List.prefix_cons_iff.mp hpre₃ with rfl | ⟨pre₄, rfl, _⟩
  · have hnew := hrenamed.crash_sync_dir hcrash
    rw [hfinal] at hnew
    exact ⟨.inr hnew, fun _ => hnew⟩
  · exact (hunlink ok (by simp)).elim

theorem crash_replace (hne : temp ≠ final) (hino : ino ≠ .old final)
    (hr : r.Succeed content) (h : Writing prev temp ino [] s)
    (hpre : pre <+: replaceCalls temp final content r) (hunlink : ∀ ok, .unlink final ok ∉ pre)
    (hcrash : (runCalls s pre).disk.Crash fs) : ShowsOldOrNew prev final content pre fs := by
  rw [replaceCalls, hr.written, hr.synced, hr.renamed, hr.dirOpened, hr.dirSynced] at hpre
  rcases List.prefix_cons_iff.mp hpre with rfl | ⟨pre₁, rfl, hpre₁⟩
  · exact ⟨.inl (h.crash hne hino hcrash), nofun⟩
  have hwritten := h.write content content.length
  rw [List.take_length] at hwritten
  rcases List.prefix_cons_iff.mp hpre₁ with rfl | ⟨pre₂, rfl, hpre₂⟩
  · exact ⟨.inl (hwritten.crash hne hino hcrash), by simp⟩
  have hsynced := Synced.of_writing hwritten hino
  have hentry := hwritten.entry
  rw [← Disk.current_sync _ (.data ino)] at hentry
  rw [runCalls, List.foldl_cons, List.foldl_cons, exec_fsync hwritten.fd] at hcrash
  have hrest := crash_synced hne hsynced hentry hpre₂ (fun ok hmem => hunlink ok (by simp [hmem])) hcrash
  have hfsync := hrest.cons (c := .fsync true) nofun
  exact hfsync.cons nofun

/-- A crash before the temporary file is open. -/
theorem crash_init (hcrash : (runCalls (init prev) []).disk.Crash fs) : fs = files prev := by
  obtain ⟨es, hsub, rfl⟩ := hcrash
  rw [List.sublist_nil.mp hsub]
  rfl

theorem contents_files (prev : Path → Option (List UInt8)) (path : Path) :
    (files prev).contents path = prev path := contents_of_old rfl rfl

theorem crashAtomic_of_opened {c : Call} (hne : temp ≠ final) (hino : ino ≠ .old final)
    (hr : r.Succeed content) (hc : c ≠ .fsyncDir true)
    (h : Writing prev temp ino [] ((init prev).exec c)) :
    CrashAtomic prev final content (c :: replaceCalls temp final content r) := by
  intro pre hpre hunlink fs hcrash
  rcases List.prefix_cons_iff.mp hpre with rfl | ⟨pre₁, rfl, hpre₁⟩
  · rw [crash_init hcrash]
    exact ⟨.inl (contents_files prev final), nofun⟩
  · have hrest := crash_replace hne hino hr h hpre₁ (fun ok hmem => hunlink ok (by simp [hmem])) hcrash
    exact hrest.cons hc

theorem fsyncDir_mem_replaceCalls (hr : r.Succeed content) :
    .fsyncDir true ∈ replaceCalls temp final content r := by
  simp [replaceCalls, hr.dirOpened, hr.dirSynced]

end Replace

/-- If every call succeeds and writes its full length, a crash at any point before
the unlink, with any of the effects not yet synced, leaves the final path with its
previous state or the complete new content; behind the sync of the directory, which is
among the calls, it is the new content. -/
theorem update_crash_atomic (prev : Path → Option (List UInt8)) (content : List UInt8)
    (r : Results) (hr : r.Succeed content) :
    (CrashAtomic prev phase2Final content (phase2 content r) ∧
        .fsyncDir true ∈ phase2 content r) ∧
      CrashAtomic prev phase4Final content (phase4 content r) ∧
        .fsyncDir true ∈ phase4 content r := by
  have hsyncs : ∀ temp final, .fsyncDir true ∈ replaceCalls temp final content r :=
    fun temp final => fsyncDir_mem_replaceCalls hr
  constructor
  · obtain ⟨ino, hino, hwriting⟩ := Writing.openTrunc prev phase2Temp_ne
    rw [phase2, hr.opened]
    exact ⟨crashAtomic_of_opened phase2Temp_ne hino hr nofun hwriting, .tail _ (hsyncs _ _)⟩
  · have hwriting := Writing.mkstemp prev (phase4Temp r)
    rw [phase4, hr.opened, if_pos rfl]
    have hne : Ino.new ≠ .old phase4Final := nofun
    exact ⟨crashAtomic_of_opened (phase4Temp_ne r) hne hr nofun hwriting, .tail _ (hsyncs _ _)⟩

theorem update_crash_atomic_lab :
    let r : Results := ⟨true, "AAAAAA", some 2, true, true, true, true, true⟩
    CrashAtomic (fun path => if path = phase2Final then some [1, 2, 3] else none) phase2Final [4, 5]
        (phase2 [4, 5] r) ∧ .fsyncDir true ∈ phase2 [4, 5] r :=
  (update_crash_atomic _ _ _ ⟨rfl, rfl, rfl, rfl, rfl, rfl⟩).1

end OsLabs.CrashRecovery
