import OsLabs.CrashRecovery.Crashes

/-! # Failed calls

The lab ignores what `write` and `fsync` return and renames whatever it has got.
Without a crash the final path then shows the bytes that were written, so it is
as documented only where nothing is renamed, or nothing went wrong, or what is
renamed happens to be what was there.
-/

namespace OsLabs.CrashRecovery

variable {prev : Path → Option (List UInt8)} {temp final : Path} {ino : Ino}
  {content data : List UInt8} {s : State} {r : Results}

def Results.bytes (r : Results) (content : List UInt8) : List UInt8 := content.take (r.written.getD 0)

def Results.Complete (r : Results) (content : List UInt8) : Prop :=
  r.opened = true ∧ r.written = some content.length ∧ r.synced = true

def throughRename (calls : List Call) : List Call := calls.take 4

/-- The final path shows its previous state, or the new content and nothing failed. -/
def OldOrComplete (prev : Path → Option (List UInt8)) (final : Path) (content : List UInt8)
    (r : Results) (calls : List Call) : Prop :=
  let shown := (runCalls (init prev) (throughRename calls)).disk.current.contents final
  shown = prev final ∨ (shown = some content ∧ r.Complete content)

/-! ## What the rename shows -/

theorem Writing.write_result (h : Writing prev temp ino [] s) (r : Results) (content : List UInt8) :
    Writing prev temp ino (r.bytes content) (s.exec (.write content r.written)) := by
  unfold Results.bytes
  cases hwritten : r.written with
  | none =>
      have hexec : s.exec (.write content none) = s := by simp [State.exec, h.fd]
      rw [hexec]
      exact h
  | some n => exact h.write content n

theorem current_fsync (s : State) (ok : Bool) : (s.exec (.fsync ok)).disk.current = s.disk.current := by
  cases hfd : s.fd with
  | none => simp [State.exec, hfd]
  | some ino =>
      cases ok with
      | false => simp [State.exec, hfd]
      | true => simp [State.exec, hfd, Disk.current_sync]

/-- With the temporary file open the final path shows its bytes, unless the
rename fails. -/
theorem shown_of_writing (hne : temp ≠ final) (hino : ino ≠ .old final)
    (h : Writing prev temp ino [] s) (content : List UInt8) (r : Results) :
    (runCalls s ((replaceCalls temp final content r).take 3)).disk.current.contents final =
      if r.renamed then some (r.bytes content) else prev final := by
  show ((((s.exec (.write content r.written)).exec (.fsync r.synced)).exec
    (.rename temp final r.renamed)).disk.current.contents final) = _
  have hwriting := h.write_result r content
  have hcurrent := current_fsync (s.exec (.write content r.written)) r.synced
  generalize s.exec (.write content r.written) = written at hwriting hcurrent ⊢
  cases r.renamed with
  | true =>
      have hentry : (written.exec (.fsync r.synced)).disk.current.dir temp = some ino := by
        rw [hcurrent, hwriting.entry]
      rw [exec_rename hentry, if_pos rfl, ← hwriting.data, ← hcurrent]
      exact contents_rename _ hne ino
  | false =>
      show (written.exec (.fsync r.synced)).disk.current.contents final = prev final
      rw [hcurrent]
      exact hwriting.crash hne hino written.disk.crash_current

/-- Without a descriptor nothing is written, and a file that was under the
temporary name is renamed. -/
theorem shown_of_closed (hne : temp ≠ final) (prev : Path → Option (List UInt8))
    (content : List UInt8) (r : Results) :
    (runCalls (init prev) ((replaceCalls temp final content r).take 3)).disk.current.contents final =
      if r.renamed then (prev temp).or (prev final) else prev final := by
  show (((init prev).exec (.rename temp final r.renamed)).disk.current.contents final) = _
  cases r.renamed with
  | true =>
      cases hprev : prev temp with
      | none =>
          have hdir : (init prev).disk.current.dir temp = none := by
            show (files prev).dir temp = none
            simp [files, hprev]
          simp only [State.exec, hdir]
          exact contents_files prev final
      | some old =>
          have hentry : (init prev).disk.current.dir temp = some (.old temp) := by
            show (files prev).dir temp = some (.old temp)
            simp [files, hprev]
          rw [exec_rename hentry, if_pos rfl, Option.some_or]
          have hdata : (init prev).disk.current.data (.old temp) = old := by
            show (prev temp).getD [] = old
            rw [hprev, Option.getD_some]
          rw [← hdata]
          exact contents_rename _ hne _
  | false => exact contents_files prev final

/-! ## When the update is as documented -/

/-- What phase 2 renames: the bytes written, or what was under the temporary name. -/
def phase2Moved (prev : Path → Option (List UInt8)) (content : List UInt8) (r : Results) :
    Option (List UInt8) :=
  if r.opened then some (r.bytes content) else prev phase2Temp

/-- What phase 4 renames: the bytes written, if it has a file at all. -/
def phase4Moved (content : List UInt8) (r : Results) : Option (List UInt8) :=
  if r.opened then some (r.bytes content) else none

theorem phase2_shows (prev : Path → Option (List UInt8)) (content : List UInt8) (r : Results) :
    (runCalls (init prev) (throughRename (phase2 content r))).disk.current.contents phase2Final =
      if r.renamed then (phase2Moved prev content r).or (prev phase2Final) else prev phase2Final := by
  unfold phase2 phase2Moved
  cases hopened : r.opened with
  | true =>
      obtain ⟨ino, hino, hwriting⟩ := Writing.openTrunc prev phase2Temp_ne
      exact shown_of_writing phase2Temp_ne hino hwriting content r
  | false => exact shown_of_closed phase2Temp_ne prev content r

theorem phase4_shows (prev : Path → Option (List UInt8)) (content : List UInt8) (r : Results) :
    (runCalls (init prev) (throughRename (phase4 content r))).disk.current.contents phase4Final =
      if r.renamed then (phase4Moved content r).or (prev phase4Final) else prev phase4Final := by
  unfold phase4 phase4Moved
  cases hopened : r.opened with
  | true =>
      have hne : Ino.new ≠ .old phase4Final := nofun
      exact shown_of_writing (phase4Temp_ne r) hne (Writing.mkstemp prev (phase4Temp r)) content r
  | false =>
      have hshown : (if r.renamed then (none : Option (List UInt8)).or (prev phase4Final)
          else prev phase4Final) = prev phase4Final := by simp
      exact (contents_files prev phase4Final).trans hshown.symm

theorem Results.Complete.bytes (h : r.Complete content) : r.bytes content = content := by
  simp [Results.bytes, h.2.1]

theorem oldOrComplete_iff {calls : List Call} {moved : Option (List UInt8)}
    (hshown : (runCalls (init prev) (throughRename calls)).disk.current.contents final =
      if r.renamed then moved.or (prev final) else prev final)
    (hmoved : r.Complete content → moved = some content) :
    OldOrComplete prev final content r calls ↔
      r.renamed = false ∨ moved = none ∨ moved = prev final ∨ r.Complete content := by
  unfold OldOrComplete
  simp only [hshown]
  cases r.renamed with
  | false => simp
  | true =>
      cases hm : moved with
      | none => simp
      | some bytes =>
          have hnew : bytes = content ∨ ¬ r.Complete content := by
            by_cases hcomplete : r.Complete content
            · exact .inl (Option.some.inj (hm.symm.trans (hmoved hcomplete)))
            · exact .inr hcomplete
          simp only [if_true, Option.some_or, Option.some.injEq, Bool.true_eq_false, false_or,
            reduceCtorEq]
          tauto

theorem phase2Moved_of_complete (h : r.Complete content) :
    phase2Moved prev content r = some content := by
  rw [phase2Moved, if_pos h.1, h.bytes]

theorem phase4Moved_of_complete (h : r.Complete content) : phase4Moved content r = some content := by
  rw [phase4Moved, if_pos h.1, h.bytes]

/-- Behind the rename the final path shows its previous state, or the new content
with nothing failed, exactly when nothing was renamed, what was renamed equals the
previous state, or nothing failed. -/
theorem update_complete_iff (prev : Path → Option (List UInt8)) (content : List UInt8)
    (r : Results) :
    (OldOrComplete prev phase2Final content r (phase2 content r) ↔
      r.renamed = false ∨ phase2Moved prev content r = none ∨
        phase2Moved prev content r = prev phase2Final ∨ r.Complete content) ∧
    (OldOrComplete prev phase4Final content r (phase4 content r) ↔
      r.renamed = false ∨ phase4Moved content r = none ∨
        phase4Moved content r = prev phase4Final ∨ r.Complete content) :=
  ⟨oldOrComplete_iff (phase2_shows prev content r) phase2Moved_of_complete,
    oldOrComplete_iff (phase4_shows prev content r) phase4Moved_of_complete⟩

/-- A short write: the first byte alone replaces the file. -/
def shortWrite : Results := ⟨true, "AAAAAA", some 1, true, true, true, true, true⟩

theorem short_write_replaces :
    ¬ ∀ (prev : Path → Option (List UInt8)) (content : List UInt8) (r : Results),
      OldOrComplete prev phase2Final content r (phase2 content r) ∧
        OldOrComplete prev phase4Final content r (phase4 content r) := by
  intro h
  have hphase2 := (h (fun _ => none) [1, 2] shortWrite).1
  rw [oldOrComplete_iff (phase2_shows _ _ _) phase2Moved_of_complete] at hphase2
  simp [shortWrite, phase2Moved, Results.bytes, Results.Complete] at hphase2

end OsLabs.CrashRecovery
