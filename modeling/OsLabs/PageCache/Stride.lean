import Mathlib.Algebra.BigOperators.Intervals
import OsLabs.PageCache.ReadRange

/-! # One pass with the page stride

`read_range` reads in chunks of `BUF_SIZE`, gets what `read` returns and samples
each buffer from its first byte on. While all reads but the last one return
whole pages, the samples are those of a single pass over the range.
-/

namespace OsLabs.PageCacheModels

open CInt Intervals

/-! ## The results of the reads -/

/-- The length of the call of `read` at `pos`. -/
def requestAt (stop pos : Nat) : Nat := (min bufSize (stop - pos : Nat)).toNat

/-- Where the `k`-th call of `read` starts. -/
def posAt (read : Nat → Nat → Int) (start stop : Nat) : Nat → Nat
  | 0 => start
  | k + 1 => posAt read start stop k + (read k (requestAt stop (posAt read start stop k))).toNat

def resultAt (read : Nat → Nat → Int) (start stop k : Nat) : Int :=
  read k (requestAt stop (posAt read start stop k))

/-- Before the end of the file a read returns at least one byte, at most what it
asked for and nothing that is not in the file; the first one behind it returns 0.
All but the last non-empty one return whole pages. -/
structure PageReads (file : File) (read : Nat → Nat → Int) (start stop : Nat) : Prop where
  short : ∀ k, posAt read start stop k < min stop file.size →
    1 ≤ resultAt read start stop k ∧
      resultAt read start stop k ≤ requestAt stop (posAt read start stop k)
  inFile : ∀ k, posAt read start stop k < min stop file.size →
    posAt read start stop (k + 1) ≤ file.size
  eof : ∀ k, posAt read start stop k < stop → file.size ≤ posAt read start stop k →
    (∀ j < k, posAt read start stop j < file.size) → resultAt read start stop k = 0
  pages : ∀ k, posAt read start stop (k + 1) < min stop file.size →
    4096 ∣ resultAt read start stop k

/-! ## Stride sums -/

/-- The offsets `start + 4096 * k` below `stop`, in order. -/
def strideOffsets (start stop : Nat) : List Nat := (sampleIndices (stop - start)).map (start + ·)

/-- The bytes at these offsets. -/
def strideSum (file : File) (start stop : Nat) : Nat :=
  ∑ o ∈ (Finset.Ico start stop).filter fun o => 4096 ∣ o - start, (file.byte o).toNat

theorem sampleIndices_append {m n : Nat} (h : 4096 ∣ m) :
    sampleIndices (m + n) = sampleIndices m ++ (sampleIndices n).map (m + ·) := by
  obtain ⟨j, rfl⟩ := h
  have hj : (4096 * j + 4095) / 4096 = j := by omega
  have hn : (4096 * j + n + 4095) / 4096 = j + (n + 4095) / 4096 := by omega
  rw [sampleIndices, sampleIndices, sampleIndices, hj, hn, ← List.range'_append, List.map_add_range']
  simp

theorem strideOffsets_append {start pos n : Nat} (hpos : start ≤ pos) (h : 4096 ∣ pos - start) :
    strideOffsets start (pos + n) = strideOffsets start pos ++ (sampleIndices n).map (pos + ·) := by
  have hlength : pos + n - start = pos - start + n := by omega
  rw [strideOffsets, strideOffsets, hlength, sampleIndices_append h, List.map_append, List.map_map]
  congr 2
  funext i
  show start + (pos - start + i) = pos + i
  omega

theorem mem_strideOffsets {start stop o : Nat} :
    o ∈ strideOffsets start stop ↔ (start ≤ o ∧ o < stop) ∧ 4096 ∣ o - start := by
  simp only [strideOffsets, List.mem_map, mem_sampleIndices]
  constructor
  · rintro ⟨i, ⟨hi, hdvd⟩, rfl⟩
    exact ⟨by omega, by simpa using hdvd⟩
  · rintro ⟨ho, hdvd⟩
    exact ⟨o - start, ⟨by omega, hdvd⟩, by omega⟩

theorem strideOffsets_nodup (start stop : Nat) : (strideOffsets start stop).Nodup := by
  have hinj : Function.Injective (start + ·) := fun a b h => Nat.add_left_cancel h
  have hindices : (sampleIndices (stop - start)).Nodup := (List.pairwise_lt_range' 4096).nodup
  exact hindices.map hinj

theorem sampleSum_eq_ofNat (file : File) (os : List Nat) :
    sampleSum file os = BitVec.ofNat 64 (os.map fun o => (file.byte o).toNat).sum := by
  induction os with
  | nil => rfl
  | cons o os ih =>
      rw [List.map_cons, List.sum_cons, BitVec.ofNat_add, ← ih]
      rfl

theorem sampleSum_strideOffsets (file : File) (start stop : Nat) :
    sampleSum file (strideOffsets start stop) = BitVec.ofNat 64 (strideSum file start stop) := by
  have hset : (strideOffsets start stop).toFinset =
      (Finset.Ico start stop).filter fun o => 4096 ∣ o - start := by
    ext o
    simp [mem_strideOffsets]
  rw [sampleSum_eq_ofNat, strideSum, ← hset, List.sum_toFinset _ (strideOffsets_nodup start stop)]

/-! ## The loop -/

section Loop

variable {file : File} {read : Nat → Nat → Int} {start stop : Nat} {s s' : ReadState}

theorem start_le_posAt (read : Nat → Nat → Int) (start stop k : Nat) :
    start ≤ posAt read start stop k := by
  induction k with
  | zero => exact Nat.le_refl _
  | succ k ih => exact ih.trans (Nat.le_add_right _ _)

/-- What holds before each evaluation of the loop condition. The samples so far
are those of the single pass, and while there is more to read the next buffer
starts at one of its offsets. -/
structure StrideInv (file : File) (read : Nat → Nat → Int) (start stop : Nat) (s : ReadState) :
    Prop where
  pos : s.pos = posAt read start stop s.reads.length
  upper : s.pos ≤ stop
  inFile : s.pos ≤ max start file.size
  before : ∀ j < s.reads.length, posAt read start stop j < file.size
  remaining : s.remaining = (stop - s.pos : Nat)
  aligned : s.pos < min stop file.size → 4096 ∣ s.pos - start
  checksum : s.checksum = sampleSum file (strideOffsets start s.pos)

theorem StrideInv.initial (h : start ≤ stop) :
    StrideInv file read start stop ⟨start, (stop - start : Nat), 0, []⟩ := by
  refine ⟨rfl, h, Nat.le_max_left _ _, nofun, rfl, fun _ => by simp, ?_⟩
  simp [strideOffsets, sampleIndices]

theorem StrideInv.request (h : StrideInv file read start stop s) :
    read s.reads.length (min bufSize (stop - s.pos : Nat)).toNat =
      resultAt read start stop s.reads.length := by
  rw [resultAt, requestAt, ← h.pos]

/-- Behind the end of the file the loop is left. -/
theorem StrideInv.eof (hreads : PageReads file read start stop) (h : StrideInv file read start stop s)
    (hlt : s.pos < stop) (heof : file.size ≤ s.pos) : readStep file read s = .inr (.left s) := by
  have hzero : resultAt read start stop s.reads.length = 0 :=
    hreads.eof _ (by rwa [← h.pos]) (by rwa [← h.pos]) h.before
  rw [← h.request] at hzero
  rw [readStep, if_pos (by rw [h.remaining]; omega)]
  simp only [chunk_eq h.remaining, hzero]
  rw [if_neg (by omega), if_pos trivial]

theorem StrideInv.reads_some (hreads : PageReads file read start stop) (hstop : stop < 2 ^ 63)
    (h : StrideInv file read start stop s) (hlt : s.pos < min stop file.size) :
    ∃ n : Nat, resultAt read start stop s.reads.length = n ∧ 1 ≤ n ∧ s.pos + n ≤ stop ∧
      readStep file read s = .inl ⟨s.pos + n, (stop - (s.pos + n) : Nat),
        s.checksum + sampleSum file ((sampleIndices n).map (s.pos + ·)),
        s.reads ++ [(s.pos, n)]⟩ := by
  obtain ⟨hlow, hhigh⟩ := hreads.short s.reads.length (by rwa [← h.pos])
  obtain ⟨n, hn⟩ : ∃ n : Nat, resultAt read start stop s.reads.length = n :=
    ⟨_, (Int.toNat_of_nonneg (by omega)).symm⟩
  rw [hn] at hlow hhigh
  have hle : s.pos + n ≤ stop := by
    rw [← h.pos, requestAt] at hhigh
    omega
  exact ⟨n, hn, by omega, hle,
    readStep_of_read hstop h.remaining (h.request.trans hn) (by omega) hle⟩

theorem StrideInv.step (hreads : PageReads file read start stop) (hstop : stop < 2 ^ 63)
    (h : StrideInv file read start stop s) (hbody : readStep file read s = .inl s') :
    StrideInv file read start stop s' ∧ stop - s'.pos < stop - s.pos := by
  by_cases hlt : s.pos < min stop file.size
  · obtain ⟨n, hn, hpos, hle, hstep⟩ := h.reads_some hreads hstop hlt
    obtain rfl := Sum.inl.inj (hstep.symm.trans hbody)
    have hnext : posAt read start stop (s.reads.length + 1) = s.pos + n := by
      show posAt read start stop s.reads.length + (resultAt read start stop s.reads.length).toNat = _
      rw [hn, ← h.pos, Int.toNat_natCast]
    have hstart : start ≤ s.pos := h.pos ▸ start_le_posAt read start stop _
    have hinFile := hreads.inFile s.reads.length (by rwa [← h.pos])
    rw [hnext] at hinFile
    refine ⟨⟨?_, hle, by simp only; omega, ?_, rfl, ?_, ?_⟩, by simp only; omega⟩
    · simp only [List.length_append, List.length_singleton, hnext]
    · intro j hj
      rw [List.length_append, List.length_singleton] at hj
      by_cases hlast : j = s.reads.length
      · rw [hlast, ← h.pos]
        omega
      · exact h.before j (by omega)
    · intro hlt'
      have hpages := hreads.pages s.reads.length (by rw [hnext]; exact hlt')
      have haligned := h.aligned hlt
      rw [hn] at hpages
      simp only
      omega
    · rw [h.checksum, strideOffsets_append hstart (h.aligned hlt), sampleSum_append]
  · by_cases hstopped : stop ≤ s.pos
    · rw [readStep_of_stop h.remaining hstopped] at hbody
      cases hbody
    · rw [h.eof hreads (by omega) (by omega)] at hbody
      cases hbody

theorem StrideInv.leave (hreads : PageReads file read start stop) (hstop : stop < 2 ^ 63)
    {e : LoopEnd} (h : StrideInv file read start stop s)
    (hbody : readStep file read s = .inr e) :
    ∃ s', e = .left s' ∧ s'.checksum = sampleSum file (strideOffsets start (min stop file.size)) := by
  by_cases hlt : s.pos < min stop file.size
  · obtain ⟨n, _, _, _, hstep⟩ := h.reads_some hreads hstop hlt
    rw [hstep] at hbody
    cases hbody
  · have hleft : readStep file read s = .inr (.left s) := by
      by_cases hstopped : stop ≤ s.pos
      · exact readStep_of_stop h.remaining hstopped
      · exact h.eof hreads (by omega) (by omega)
    have hstart : start ≤ s.pos := h.pos ▸ start_le_posAt read start stop _
    have hsame : s.pos - start = min stop file.size - start := by
      have hupper := h.upper
      have hinFile := h.inFile
      omega
    refine ⟨s, Sum.inr.inj (hbody.symm.trans hleft), ?_⟩
    rw [h.checksum, strideOffsets, strideOffsets, hsame]

end Loop

/-- The chunked loops of `read_range` and one loop with stride 4096 over the part
of the range that is in the file compute the same checksum. -/
theorem readRange_eq_stride (file : File) (calls : Calls) {start stop : Nat} (h : start ≤ stop)
    (hstop : stop < 2 ^ 63) (hcalls : calls.Returns)
    (hreads : PageReads file calls.read start stop) :
    ∃ r, (∀ fuel, stop - start < fuel →
        ∃ reads, readRange file calls start stop fuel = some (.ok r reads)) ∧
      r.checksum = BitVec.ofNat 64 (strideSum file start (min stop file.size)) ∧
      r.checksum = sampleBuf (fun i => file.byte (start + i)) (min stop file.size - start) 0 := by
  obtain ⟨minflt, majflt, hreturn⟩ := readRange_of_left file hcalls h hstop
  refine ⟨⟨minflt, majflt, sampleSum file (strideOffsets start (min stop file.size))⟩,
    ?_, sampleSum_strideOffsets _ _ _, ?_⟩
  · intro fuel hfuel
    obtain ⟨_, hrun, s, rfl, hchecksum⟩ := Loop.run_of_measure
      (I := StrideInv file calls.read start stop) (fun s => stop - s.pos)
      (fun _ _ hI hbody => hI.step hreads hstop hbody)
      (fun _ _ hI hbody => hI.leave hreads hstop hbody) (StrideInv.initial h) hfuel
    rw [← hchecksum]
    exact ⟨s.reads, hreturn fuel s hrun⟩
  · rw [sampleBuf_eq, zero_add]
    rfl

/-- Two pages, the rest of the file and its end. -/
def partialReads : Nat → Nat → Int := fun k _ => [4096, 4096, 8].getD k 0

theorem posAt_partialReads (k : Nat) : posAt partialReads 100 9000 (k + 3) = 8300 := by
  induction k with
  | zero => rfl
  | succ k ih =>
      rw [posAt, ih]
      rfl

theorem pageReads_partialReads (byte : Nat → UInt8) :
    PageReads ⟨8300, byte⟩ partialReads 100 9000 := by
  have hfirst : posAt partialReads 100 9000 0 = 100 := rfl
  have hsecond : posAt partialReads 100 9000 1 = 4196 := rfl
  have hthird : posAt partialReads 100 9000 2 = 8292 := rfl
  refine ⟨?_, ?_, ?_, ?_⟩ <;> intro k <;> rcases k with _ | _ | _ | k <;>
    simp [hfirst, hsecond, hthird, posAt_partialReads, resultAt, partialReads, requestAt, bufSize]

theorem readRange_eq_stride_short_file :
    ∃ r, (∀ fuel, 8900 < fuel → ∃ reads, readRange ⟨8300, UInt8.ofNat⟩
        ⟨true, true, true, some (0, 0), some (0, 0), partialReads⟩ 100 9000 fuel =
          some (.ok r reads)) ∧ r.checksum = 300 := by
  obtain ⟨r, hrun, _, hpass⟩ := readRange_eq_stride ⟨8300, UInt8.ofNat⟩
    ⟨true, true, true, some (0, 0), some (0, 0), partialReads⟩ (show 100 ≤ 9000 by decide)
    (by decide) ⟨rfl, rfl, rfl, rfl, rfl⟩ (pageReads_partialReads UInt8.ofNat)
  have hindices : sampleIndices 8200 = [0, 4096, 8192] := by decide
  exact ⟨r, hrun, by simpa [sampleBuf, hindices] using hpass⟩

end OsLabs.PageCacheModels
