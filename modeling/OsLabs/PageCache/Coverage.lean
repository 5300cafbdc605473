import OsLabs.PageCache.ReadRange

/-! # Exactly-once coverage

A worker whose reads succeed delivers its range byte by byte; the ranges of a
round tile the file. Termination is part of the loop rule.
-/

namespace OsLabs.PageCacheModels

open CInt Intervals

/-! ## The schedule covers the range -/

theorem splitReads_bytes {read : Nat → Nat → Int} (hshort : ShortReads read) {stop : Nat}
    (fuel k pos : Nat) (hpos : pos ≤ stop) (hfuel : stop - pos ≤ fuel) :
    bytesRead (splitReads read stop fuel k pos) = interval pos stop := by
  induction fuel generalizing k pos with
  | zero =>
      obtain rfl : pos = stop := by omega
      simp [splitReads]
  | succ fuel ih =>
      by_cases hlt : pos < stop
      · have hlen : 0 < (min bufSize (stop - pos : Nat)).toNat := by
          unfold bufSize
          omega
        obtain ⟨hlow, hhigh⟩ := hshort k _ hlen
        have hn : (read k (min bufSize (stop - pos : Nat)).toNat).toNat ≤ stop - pos := by omega
        simp only [splitReads, if_pos hlt, bytesRead_cons]
        rw [ih (k + 1) _ (by omega) (by omega)]
        exact interval_append (by omega) (by omega)
      · obtain rfl : pos = stop := by omega
        simp [splitReads]

theorem rangeReads_bytes {read : Nat → Nat → Int} (hshort : ShortReads read) {start stop : Nat}
    (h : start ≤ stop) : bytesRead (rangeReads read start stop) = interval start stop :=
  splitReads_bytes hshort _ _ _ h (Nat.le_refl _)

/-! ## The read loop -/

/-- What holds before each evaluation of the loop condition. -/
structure ReadInv (file : File) (read : Nat → Nat → Int) (start stop : Nat) (s : ReadState) :
    Prop where
  upper : s.pos ≤ stop
  remaining : s.remaining = (stop - s.pos : Nat)
  split : ∃ fuel, stop - s.pos ≤ fuel ∧
    s.reads ++ splitReads read stop fuel s.reads.length s.pos = rangeReads read start stop
  checksum : s.checksum = sampleSum file (sampled s.reads)

section Loop

variable {file : File} {read : Nat → Nat → Int} {start stop : Nat}

theorem ReadInv.initial (h : start ≤ stop) :
    ReadInv file read start stop ⟨start, (stop - start : Nat), 0, []⟩ :=
  ⟨h, rfl, ⟨stop - start, Nat.le_refl _, rfl⟩, rfl⟩

/-- The call made on a range that is not exhausted, and the state after it. -/
theorem readStep_of_lt (hshort : ShortReads read) (hstop : stop < 2 ^ 63) {s : ReadState}
    (h : ReadInv file read start stop s) (hlt : s.pos < stop) :
    ∃ n, 1 ≤ n ∧ s.pos + n ≤ stop ∧
      n = (read s.reads.length (min bufSize (stop - s.pos : Nat)).toNat).toNat ∧
      readStep file read s = .inl ⟨s.pos + n, (stop - (s.pos + n) : Nat),
        s.checksum + sampleSum file ((sampleIndices n).map (s.pos + ·)),
        s.reads ++ [(s.pos, n)]⟩ := by
  have hlen : 0 < (min bufSize (stop - s.pos : Nat)).toNat := by
    unfold bufSize
    omega
  obtain ⟨hlow, hhigh⟩ := hshort s.reads.length _ hlen
  obtain ⟨n, hn⟩ : ∃ n : Nat,
      read s.reads.length (min bufSize (stop - s.pos : Nat)).toNat = n :=
    ⟨_, (Int.toNat_of_nonneg (by omega)).symm⟩
  exact ⟨n, by omega, by omega, by simp [hn],
    readStep_of_read hstop h.remaining hn (by omega) (by omega)⟩

theorem ReadInv.step (hshort : ShortReads read) (hstop : stop < 2 ^ 63) {s s' : ReadState}
    (h : ReadInv file read start stop s) (hbody : readStep file read s = .inl s') :
    ReadInv file read start stop s' ∧ stop - s'.pos < stop - s.pos := by
  by_cases hlt : s.pos < stop
  · obtain ⟨n, hpos, hle, hn, hstep⟩ := readStep_of_lt hshort hstop h hlt
    obtain rfl := Sum.inl.inj (hstep.symm.trans hbody)
    obtain ⟨fuel, hfuel, hsplit⟩ := h.split
    refine ⟨⟨hle, rfl, ?_, ?_⟩, by simp only; omega⟩
    · cases fuel with
      | zero => omega
      | succ fuel =>
          refine ⟨fuel, by simp only; omega, ?_⟩
          rw [← hsplit, splitReads, if_pos hlt]
          simp [← hn]
    · simp [h.checksum]
  · rw [readStep_of_stop h.remaining (Nat.not_lt.mp hlt)] at hbody
    cases hbody

theorem ReadInv.leave (hshort : ShortReads read) (hstop : stop < 2 ^ 63) {s : ReadState}
    {e : LoopEnd} (h : ReadInv file read start stop s) (hbody : readStep file read s = .inr e) :
    e = .left ⟨stop, 0, sampleSum file (sampled (rangeReads read start stop)),
      rangeReads read start stop⟩ := by
  by_cases hlt : s.pos < stop
  · obtain ⟨n, _, _, _, hstep⟩ := readStep_of_lt hshort hstop h hlt
    rw [hstep] at hbody
    cases hbody
  · rw [readStep_of_stop h.remaining (Nat.not_lt.mp hlt)] at hbody
    obtain rfl := Sum.inr.inj hbody
    obtain ⟨fuel, _, hsplit⟩ := h.split
    have hupper := h.upper
    have hnil : splitReads read stop fuel s.reads.length s.pos = [] := by
      cases fuel <;> simp [splitReads, hlt]
    have hreads : s.reads = rangeReads read start stop := by
      rw [← hsplit, hnil, List.append_nil]
    have hpos : s.pos = stop := by omega
    have hremaining : s.remaining = 0 := by
      rw [h.remaining]
      omega
    have hchecksum := h.checksum
    cases s
    simp_all

/-- The loop terminates having made exactly the calls of the schedule. -/
theorem readLoop_eq (hshort : ShortReads read) (hstop : stop < 2 ^ 63) (h : start ≤ stop)
    {fuel : Nat} (hfuel : stop - start < fuel) :
    Loop.run (readStep file read) fuel ⟨start, (stop - start : Nat), 0, []⟩ =
      some (.left ⟨stop, 0, sampleSum file (sampled (rangeReads read start stop)),
        rangeReads read start stop⟩) := by
  have hrun := Loop.run_of_measure (I := ReadInv file read start stop) (fun s => stop - s.pos)
    (fun _ _ hI hbody => hI.step hshort hstop hbody)
    (fun _ _ hI hbody => hI.leave hshort hstop hbody) (ReadInv.initial h) hfuel
  obtain ⟨e, hrun, rfl⟩ := hrun
  exact hrun

end Loop

/-- A worker none of whose calls fails returns, with the faults between its two
`getrusage` calls and the sum of the bytes its reads sample. -/
theorem readRange_eq (file : File) {calls : Calls} (hcalls : calls.Succeed) {start stop : Nat}
    (h : start ≤ stop) (hstop : stop < 2 ^ 63) :
    ∃ r, (∀ fuel, stop - start < fuel → readRange file calls start stop fuel =
        some (.ok r (rangeReads calls.read start stop))) ∧
      r.checksum = sampleSum file (sampled (rangeReads calls.read start stop)) := by
  obtain ⟨minflt, majflt, hreturn⟩ := readRange_of_left file hcalls.toReturns h hstop
  refine ⟨⟨minflt, majflt, sampleSum file _⟩, ?_, rfl⟩
  intro fuel hfuel
  exact hreturn fuel _ (readLoop_eq hcalls.short hstop h hfuel)

/-! ## The workers of a round -/

theorem Config.plan_flatten (cfg : Config) (size : Nat) :
    ((List.range cfg.procs).map fun p => (List.range cfg.workers).map fun t =>
      sliceOf size cfg.total (p * cfg.workers + t)).flatten =
        (List.range cfg.total).map (sliceOf size cfg.total) :=
  flatten_range_mul _ _ _

/-- Worker `k` of a round reads exactly its slice. -/
theorem slice_bytes (cfg : Config) (size : Nat) {calls : Nat → Calls}
    (hcalls : ∀ id, (calls id).Succeed) (k : Nat) :
    bytesRead (rangeReads (calls k).read (cut size cfg.total k) (cut size cfg.total (k + 1))) =
      interval (cut size cfg.total k) (cut size cfg.total (k + 1)) :=
  rangeReads_bytes (hcalls k).short (cut_monotone size cfg.total (Nat.le_succ k))

theorem runs_slice (cfg : Config) (file : File) (hsize : file.size < 2 ^ 63)
    {calls : Nat → Calls} (hcalls : ∀ id, (calls id).Succeed) (k : Nat) :
    ∃ r, (∀ fuel, file.size < fuel →
        readRange file (calls k) (cut file.size cfg.total k) (cut file.size cfg.total (k + 1))
          fuel = some (.ok r (rangeReads (calls k).read (cut file.size cfg.total k)
            (cut file.size cfg.total (k + 1))))) ∧
      r.checksum = sampleSum file (sampled (rangeReads (calls k).read (cut file.size cfg.total k)
        (cut file.size cfg.total (k + 1)))) := by
  have hle : cut file.size cfg.total k ≤ cut file.size cfg.total (k + 1) :=
    cut_monotone file.size cfg.total (Nat.le_succ k)
  have hstop := cut_le file.size cfg.total (k + 1)
  obtain ⟨r, hr, hchecksum⟩ := readRange_eq file (hcalls k) hle (by omega)
  exact ⟨r, fun fuel hfuel => hr fuel (by omega), hchecksum⟩

/-- The plan of the round exists, which is the absence of overflow in the
set-up; worker `k` of it has identifier `k`, terminates without overflow and has
read only bytes of its range, none twice; and each byte of the file is read by
exactly one of the workers, counted by their place in the plan. -/
def CoversOnce (cfg : Config) (file : File) (calls : Nat → Calls) : Prop :=
  ∃ plan, cfg.roundArgs file.size = some plan ∧ plan.flatten.length = cfg.total ∧
    ∃ reads : Nat → List (Nat × Nat),
      (∀ (k : Nat) (w : WorkerArg), plan.flatten[k]? = some w →
        w.id = k ∧
        (∃ r, ∀ fuel, file.size < fuel →
          readRange file (calls k) w.start w.stop fuel = some (.ok r (reads k))) ∧
        (∀ x ∈ bytesRead (reads k), w.start ≤ x ∧ x < w.stop) ∧ (bytesRead (reads k)).Nodup) ∧
      ∀ x < file.size, ∃! k, k < cfg.total ∧ x ∈ bytesRead (reads k)

end OsLabs.PageCacheModels
