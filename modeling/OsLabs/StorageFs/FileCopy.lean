import OsLabs.Core.Loop

/-! # Copying a file

`main` reads the source in buffers of 64 KiB and writes each of them once, without a
look at what `write` returns. What the calls return is a parameter.
-/

namespace OsLabs.StorageFs

/-- For the calls of each round a number of bytes, or `none` for an error. -/
structure CopyResults where
  read : Nat → Option Nat
  write : Nat → Option Nat

/-- A `write` with the bytes asked for and what it returned. -/
structure WriteCall where
  request : Nat
  result : Int
  deriving DecidableEq

/-- `pos` is the offset of the source, `dst` what the destination holds. -/
structure CopyState where
  pos : Nat
  dst : List UInt8
  writes : List WriteCall
  nr : Int
  deriving DecidableEq

/-- A `read` fails, or returns at least one byte of those left and at most what the
buffer holds. At the end of the file it returns 0. -/
def readResult (bytes : Option Nat) (left : Nat) : Int :=
  match bytes with
  | none => -1
  | some n => (min (max 1 n) (min 65536 left) : Nat)

/-- A `write` fails, or writes some of the bytes. -/
def writeResult (bytes : Option Nat) (request : Nat) : Int :=
  match bytes with
  | none => -1
  | some n => (min n request : Nat)

/-- `while ((nr = read(sfd, fbuf, sizeof(fbuf))) > 0) write(dfd, fbuf, (size_t)nr);` -/
def copyBody (src : List UInt8) (io : CopyResults) (s : CopyState) : CopyState ⊕ CopyState :=
  let nr := readResult (io.read s.writes.length) (src.length - s.pos)
  if 0 < nr then
    let fbuf := (src.drop s.pos).take nr.toNat
    let n := writeResult (io.write s.writes.length) nr.toNat
    .inl ⟨s.pos + nr.toNat, s.dst ++ fbuf.take n.toNat, s.writes ++ [⟨nr.toNat, n⟩], nr⟩
  else .inr { s with nr }

def copyLoop (src : List UInt8) (io : CopyResults) : Option CopyState :=
  Loop.run (copyBody src io) (src.length + 1) ⟨0, [], [], 0⟩

/-! ## Full and short writes -/

def WriteCall.full (w : WriteCall) : Prop := w.result = w.request

instance (w : WriteCall) : Decidable w.full := inferInstanceAs (Decidable (w.result = w.request))

theorem readResult_le (bytes : Option Nat) (left : Nat) : readResult bytes left ≤ left := by
  cases bytes with
  | none => simp [readResult]
  | some n => simp only [readResult]; omega

theorem readResult_eq_zero {bytes : Option Nat} {left : Nat} (h : readResult bytes left = 0) :
    left = 0 := by
  cases bytes with
  | none => simp [readResult] at h
  | some n =>
      simp only [readResult] at h
      omega

theorem writeResult_le (bytes : Option Nat) (request : Nat) : writeResult bytes request ≤ request := by
  cases bytes with
  | none => simp [writeResult]
  | some n => simp only [writeResult]; omega

/-- What holds before each `read`: the destination is the part of the source read so
far, or shorter when a write was short. -/
structure CopyInv (src : List UInt8) (s : CopyState) : Prop where
  pos : s.pos ≤ src.length
  length : s.dst.length ≤ s.pos
  copied : (∀ w ∈ s.writes, w.full) → s.dst = src.take s.pos
  short : (∃ w ∈ s.writes, ¬w.full) → s.dst.length < s.pos

theorem CopyInv.init (src : List UInt8) : CopyInv src ⟨0, [], [], 0⟩ where
  pos := Nat.zero_le _
  length := Nat.le_refl _
  copied := fun _ => rfl
  short := by rintro ⟨w, hw, -⟩; cases hw

section Body

variable {src : List UInt8} {io : CopyResults} {s s' : CopyState}

/-- A round reads `n` bytes and writes the first of them. -/
theorem copyBody_continue (h : copyBody src io s = .inl s') :
    ∃ (n : Nat) (w : Int), 0 < n ∧ n ≤ src.length - s.pos ∧ w ≤ n ∧
      s' = ⟨s.pos + n, s.dst ++ ((src.drop s.pos).take n).take w.toNat, s.writes ++ [⟨n, w⟩], n⟩ := by
  have hle := readResult_le (io.read s.writes.length) (src.length - s.pos)
  unfold copyBody at h
  generalize readResult (io.read s.writes.length) (src.length - s.pos) = nr at h hle
  by_cases hpos : 0 < nr
  · obtain ⟨n, rfl⟩ := Int.eq_ofNat_of_zero_le (Int.le_of_lt hpos)
    rw [if_pos hpos, Sum.inl.injEq, Int.toNat_natCast] at h
    exact ⟨n, writeResult (io.write s.writes.length) n, by omega, by omega, writeResult_le _ n, h.symm⟩
  · rw [if_neg hpos] at h
    cases h

theorem copyBody_leave (h : copyBody src io s = .inr s') :
    s' = { s with nr := s'.nr } ∧ (s'.nr = 0 → src.length - s.pos = 0) := by
  unfold copyBody at h
  by_cases hpos : 0 < readResult (io.read s.writes.length) (src.length - s.pos)
  · rw [if_pos hpos] at h
    cases h
  · rw [if_neg hpos, Sum.inr.injEq] at h
    rw [← h]
    exact ⟨rfl, readResult_eq_zero⟩

theorem CopyInv.body (hinv : CopyInv src s) (h : copyBody src io s = .inl s') : CopyInv src s' := by
  obtain ⟨n, w, hn, hleft, hw, rfl⟩ := copyBody_continue h
  obtain ⟨hpos, hlength, hcopied, hshort⟩ := hinv
  have hwritten : (((src.drop s.pos).take n).take w.toNat).length = w.toNat := by
    simp only [List.length_take, List.length_drop]
    omega
  constructor
  · show s.pos + n ≤ src.length
    omega
  · show (s.dst ++ ((src.drop s.pos).take n).take w.toNat).length ≤ s.pos + n
    rw [List.length_append, hwritten]
    omega
  · -- a full write appends what was read
    intro hfull
    obtain ⟨hbefore, hlast⟩ := List.forall_mem_append.mp hfull
    have hall : w = n := hlast ⟨n, w⟩ (List.mem_singleton_self _)
    show s.dst ++ ((src.drop s.pos).take n).take w.toNat = src.take (s.pos + n)
    rw [hcopied hbefore, hall, Int.toNat_natCast, List.take_take, Nat.min_self, List.take_add]
  · -- once the destination has fallen behind, it stays behind
    rintro ⟨c, hc, hnotFull⟩
    show (s.dst ++ ((src.drop s.pos).take n).take w.toNat).length < s.pos + n
    rw [List.length_append, hwritten]
    rcases List.mem_append.mp hc with hearlier | hlast
    · have hbehind := hshort ⟨c, hearlier, hnotFull⟩
      omega
    · have hpart : ¬w = n := by
        rw [List.mem_singleton.mp hlast] at hnotFull
        exact hnotFull
      omega

end Body

/-- The loop ends, and when it ends at the end of the source the copy is the source
exactly when every `write` was full. -/
theorem copyLoop_spec (src : List UInt8) (io : CopyResults) :
    ∃ s, copyLoop src io = some s ∧ (s.nr = 0 → (s.dst = src ↔ ∀ w ∈ s.writes, w.full)) := by
  apply Loop.run_of_measure (I := CopyInv src) fun s => src.length - s.pos
  · intro s s' hinv h
    obtain ⟨n, w, hn, hleft, -, heq⟩ := copyBody_continue h
    have hpos : s'.pos = s.pos + n := by rw [heq]
    exact ⟨hinv.body h, by omega⟩
  · intro s s' hinv h hzero
    obtain ⟨heq, hend⟩ := copyBody_leave h
    have hpos : s.pos = src.length := by
      have hle := hinv.pos
      have hleft := hend hzero
      omega
    rw [heq]
    show s.dst = src ↔ ∀ w ∈ s.writes, w.full
    constructor
    · intro hcopy w hw
      by_contra hnotFull
      have hbehind := hinv.short ⟨w, hw, hnotFull⟩
      rw [hcopy, hpos] at hbehind
      omega
    · intro hfull
      rw [hinv.copied hfull, hpos, List.take_length]
  · exact CopyInv.init src
  · exact Nat.lt_succ_self _

/-- The first `write` stops before the last byte. -/
def shortWrite : CopyResults := ⟨fun _ => some 65536, fun _ => some 2⟩

theorem copyLoop_shortWrite :
    ∃ s, copyLoop [0xCC, 0xCC, 0xCC] shortWrite = some s ∧ s.nr = 0 ∧ s.dst ≠ [0xCC, 0xCC, 0xCC] :=
  ⟨_, rfl, by decide, by decide⟩

end OsLabs.StorageFs
