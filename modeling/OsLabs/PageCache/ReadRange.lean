import Mathlib.Data.BitVec
import OsLabs.Core.Loop
import OsLabs.PageCache.Setup

/-! # `read_range`

The worker's read loop, with every error path and with the results of its
system calls as a parameter. The wall-clock fields are left out. The state
carries one field the source does not have: the offset and length of each call
of `read` so far, which is what the coverage and checksum statements speak of.
-/

namespace OsLabs.PageCacheModels

open CInt Intervals

def bufSize : Int := 1024 * 1024

structure File where
  size : Nat
  byte : Nat → UInt8

/-- What the calls of one `read_range` return: `usage0` and `usage1` are the
two `getrusage` calls, `read k len` is the `k`-th call of `read` for `len` bytes. -/
structure Calls where
  openOk : Bool
  lseekOk : Bool
  mallocOk : Bool
  usage0 : Option (Int × Int)
  usage1 : Option (Int × Int)
  read : Nat → Nat → Int

/-- `worker_result_t` without the seconds. -/
structure WorkerResult where
  minflt : Int
  majflt : Int
  checksum : BitVec 64
  deriving DecidableEq

inductive ReadOutcome where
  | ok (r : WorkerResult) (reads : List (Nat × Nat))
  | exit1
  | overflow

structure ReadState where
  pos : Nat
  remaining : Int
  checksum : BitVec 64
  reads : List (Nat × Nat)

inductive LoopEnd where
  | left (s : ReadState)
  | failed
  | overflow

/-- The values of `i` in `for (i = 0; i < n; i += 4096)`. -/
def sampleIndices (n : Nat) : List Nat := List.range' 0 ((n + 4095) / 4096) 4096

def sampleBuf (buf : Nat → UInt8) (n : Nat) (checksum : BitVec 64) : BitVec 64 :=
  (sampleIndices n).foldl (fun acc i => acc + BitVec.ofNat 64 (buf i).toNat) checksum

/-- One evaluation of `while (remaining > 0)` and its body. -/
def readStep (file : File) (read : Nat → Nat → Int) (s : ReadState) : ReadState ⊕ LoopEnd :=
  if 0 < s.remaining then
    let chunk := if bufSize < s.remaining then bufSize else s.remaining
    let n := read s.reads.length chunk.toNat
    if n < 0 then .inr .failed
    else if n = 0 then .inr (.left s)
    else
      match offT (s.remaining - n) with
      | none => .inr .overflow
      | some remaining => .inl {
          pos := s.pos + n.toNat
          remaining := remaining
          checksum := sampleBuf (fun i => file.byte (s.pos + i)) n.toNat s.checksum
          reads := s.reads ++ [(s.pos, n.toNat)] }
  else .inr (.left s)

/-- No value means that the fuel did not suffice for the loop. -/
def readRange (file : File) (calls : Calls) (start stop : Int) (fuel : Nat) :
    Option ReadOutcome :=
  if !calls.openOk || !calls.lseekOk || !calls.mallocOk then some .exit1
  else
    match calls.usage0, offT (stop - start) with
    | none, _ => some .exit1
    | some _, none => some .overflow
    | some (min0, maj0), some remaining =>
        (Loop.run (readStep file calls.read) fuel ⟨start.toNat, remaining, 0, []⟩).map fun
          | .failed => .exit1
          | .overflow => .overflow
          | .left s =>
              match calls.usage1 with
              | none => .exit1
              | some (min1, maj1) => .ok ⟨min1 - min0, maj1 - maj0, s.checksum⟩ s.reads

/-! ## What a schedule of short reads does to a range -/

/-- Every call returns at least one byte and at most the bytes it asked for. -/
def ShortReads (read : Nat → Nat → Int) : Prop :=
  ∀ k len, 0 < len → 1 ≤ read k len ∧ read k len ≤ len

/-- No call but `read` fails. -/
structure Calls.Returns (calls : Calls) : Prop where
  openOk : calls.openOk = true
  lseekOk : calls.lseekOk = true
  mallocOk : calls.mallocOk = true
  usage0 : calls.usage0.isSome
  usage1 : calls.usage1.isSome

/-- No call of the worker fails, and the reads are short ones. -/
structure Calls.Succeed (calls : Calls) : Prop extends calls.Returns where
  short : ShortReads calls.read

/-- The calls of `read`, from call `k` at `pos`, that cover the range up to `stop`. -/
def splitReads (read : Nat → Nat → Int) (stop : Nat) : Nat → Nat → Nat → List (Nat × Nat)
  | 0, _, _ => []
  | fuel + 1, k, pos =>
      if pos < stop then
        let n := (read k (min bufSize (stop - pos : Nat)).toNat).toNat
        (pos, n) :: splitReads read stop fuel (k + 1) (pos + n)
      else []

def rangeReads (read : Nat → Nat → Int) (start stop : Nat) : List (Nat × Nat) :=
  splitReads read stop (stop - start) 0 start

/-- The offsets the calls deliver, in order. -/
def bytesRead (reads : List (Nat × Nat)) : List Nat :=
  reads.flatMap fun (pos, n) => interval pos (pos + n)

/-- The offsets whose bytes are added to the checksum, in order. -/
def sampled (reads : List (Nat × Nat)) : List Nat :=
  reads.flatMap fun (pos, n) => (sampleIndices n).map (pos + ·)

def sampleSum (file : File) (offsets : List Nat) : BitVec 64 :=
  (offsets.map fun o => BitVec.ofNat 64 (file.byte o).toNat).sum

@[simp] theorem bytesRead_nil : bytesRead [] = [] := rfl

@[simp] theorem bytesRead_cons (pos n : Nat) (reads : List (Nat × Nat)) :
    bytesRead ((pos, n) :: reads) = interval pos (pos + n) ++ bytesRead reads := rfl

@[simp] theorem sampled_nil : sampled [] = [] := rfl

@[simp] theorem sampled_append (reads reads' : List (Nat × Nat)) :
    sampled (reads ++ reads') = sampled reads ++ sampled reads' := by
  simp [sampled]

@[simp] theorem sampled_singleton (pos n : Nat) :
    sampled [(pos, n)] = (sampleIndices n).map (pos + ·) := by
  simp [sampled]

@[simp] theorem sampleSum_nil (file : File) : sampleSum file [] = 0 := rfl

@[simp] theorem sampleSum_append (file : File) (os os' : List Nat) :
    sampleSum file (os ++ os') = sampleSum file os + sampleSum file os' := by
  simp [sampleSum]

theorem mem_sampleIndices {n i : Nat} : i ∈ sampleIndices n ↔ i < n ∧ 4096 ∣ i := by
  simp only [sampleIndices, List.mem_range']
  constructor
  · rintro ⟨j, hj, rfl⟩
    exact ⟨by omega, by simp⟩
  · rintro ⟨hi, j, rfl⟩
    exact ⟨j, by omega, by simp⟩

theorem sampleBuf_eq (file : File) (pos n : Nat) (checksum : BitVec 64) :
    sampleBuf (fun i => file.byte (pos + i)) n checksum =
      checksum + sampleSum file ((sampleIndices n).map (pos + ·)) := by
  unfold sampleBuf sampleSum
  rw [List.map_map]
  generalize sampleIndices n = is
  induction is generalizing checksum with
  | nil => simp
  | cons i is ih => simp [ih, add_assoc]

/-! ## One evaluation of the loop, and the return -/

section Steps

variable {file : File} {read : Nat → Nat → Int} {stop : Nat} {s : ReadState}

theorem readStep_of_stop (hremaining : s.remaining = (stop - s.pos : Nat)) (hge : stop ≤ s.pos) :
    readStep file read s = .inr (.left s) := by
  have hzero : ¬ 0 < s.remaining := by
    rw [hremaining]
    omega
  rw [readStep, if_neg hzero]

theorem chunk_eq (hremaining : s.remaining = (stop - s.pos : Nat)) :
    (if bufSize < s.remaining then bufSize else s.remaining) = min bufSize (stop - s.pos : Nat) := by
  rw [hremaining]
  omega

/-- A call of `read` that returns `n` bytes of the range. -/
theorem readStep_of_read (hstop : stop < 2 ^ 63) (hremaining : s.remaining = (stop - s.pos : Nat))
    {n : Nat} (hn : read s.reads.length (min bufSize (stop - s.pos : Nat)).toNat = n) (hpos : 1 ≤ n)
    (hle : s.pos + n ≤ stop) :
    readStep file read s = .inl ⟨s.pos + n, (stop - (s.pos + n) : Nat),
      s.checksum + sampleSum file ((sampleIndices n).map (s.pos + ·)), s.reads ++ [(s.pos, n)]⟩ := by
  have hrest : offT (s.remaining - n) = some ((stop - (s.pos + n) : Nat) : Int) := by
    rw [hremaining, show ((stop - s.pos : Nat) : Int) - n = (stop - (s.pos + n) : Nat) by omega]
    exact offT_natCast (by omega)
  rw [readStep, if_pos (by rw [hremaining]; omega)]
  simp only [chunk_eq hremaining, hn]
  rw [if_neg (by omega), if_neg (by omega), hrest]
  simp [sampleBuf_eq]

theorem readRange_of_left (file : File) {calls : Calls} (hcalls : calls.Returns) {start : Nat}
    (h : start ≤ stop) (hstop : stop < 2 ^ 63) :
    ∃ minflt majflt, ∀ fuel s, Loop.run (readStep file calls.read) fuel
        ⟨start, (stop - start : Nat), 0, []⟩ = some (.left s) →
      readRange file calls start stop fuel = some (.ok ⟨minflt, majflt, s.checksum⟩ s.reads) := by
  obtain ⟨⟨min0, maj0⟩, h0⟩ := Option.isSome_iff_exists.mp hcalls.usage0
  obtain ⟨⟨min1, maj1⟩, h1⟩ := Option.isSome_iff_exists.mp hcalls.usage1
  have hremaining : offT ((stop : Int) - start) = some ((stop - start : Nat) : Int) := by
    rw [← Nat.cast_sub h]
    exact offT_natCast (by omega)
  refine ⟨min1 - min0, maj1 - maj0, fun fuel s hrun => ?_⟩
  simp only [readRange, hcalls.openOk, hcalls.lseekOk, hcalls.mallocOk, Bool.not_true,
    Bool.or_self, Bool.false_eq_true, if_false, h0, h1, hremaining, Int.toNat_natCast, hrun,
    Option.map_some]

end Steps

end OsLabs.PageCacheModels
