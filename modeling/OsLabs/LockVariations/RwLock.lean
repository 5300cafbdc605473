import OsLabs.Core.Counter

/-! # Readers and writers

`reader` and `writer` on `rwl`: each of `ITERS` iterations of a reader adds
`shared_data` to its sum, each of `ITERS/10` iterations of a writer increments it.
Readers share the lock, a writer has it alone. The writers make the counter of the
library, and no reader loads between the load and the store of an increment.
-/

namespace OsLabs.LockVariations.RwLock

open Threads

/-- Where a reader is; `s` is its sum, which is a `long`. -/
inductive ReaderPc where
  | loop (i : Nat) (s : Int)
  | load (i : Nat) (s : Int)
  | unlock (i : Nat) (s : Int)
  | returned (i : Nat) (s : Int)
  deriving DecidableEq

/-- Where a writer is; `loaded` is `shared_data` before the increment. -/
inductive WriterPc where
  | loop (i : Nat)
  | load (i : Nat)
  | store (i : Nat) (loaded : Int)
  | unlock (i : Nat)
  | returned (i : Nat)
  deriving DecidableEq

/-- `readLocks` and `writeOwner` are `rwl`. -/
structure State (R W : Type) where
  readLocks : Nat
  writeOwner : Option W
  sharedData : Int
  reader : R → ReaderPc
  writer : W → WriterPc

inductive Act (R W : Type) where
  | read (r : R)
  | write (w : W)
  deriving DecidableEq

section Model

variable {R W : Type}

/-- `pthread_rwlock_rdlock` -/
def State.rdlock (s : State R W) : Option (State R W) :=
  match s.writeOwner with
  | none => some { s with readLocks := s.readLocks + 1 }
  | some _ => none

/-- `pthread_rwlock_wrlock` -/
def State.wrlock (s : State R W) (w : W) : Option (State R W) :=
  match s.writeOwner with
  | none => if s.readLocks = 0 then some { s with writeOwner := some w } else none
  | some _ => none

/-- `pthread_rwlock_unlock`, the same call for readers and writers. -/
def State.unlock (s : State R W) : State R W :=
  match s.writeOwner with
  | some _ => { s with writeOwner := none }
  | none => { s with readLocks := s.readLocks - 1 }

variable [DecidableEq R] [DecidableEq W]

def State.setReader (s : State R W) (r : R) (pc : ReaderPc) : State R W :=
  { s with reader := Function.update s.reader r pc }

def State.setWriter (s : State R W) (w : W) (pc : WriterPc) : State R W :=
  { s with writer := Function.update s.writer w pc }

variable (iters : Nat)

def readerNext (s : State R W) (r : R) : Option (State R W) :=
  match s.reader r with
  | .loop i sum =>
      if i < iters then s.rdlock.map fun s' => s'.setReader r (.load i sum)
      else some (s.setReader r (.returned i sum))
  | .load i sum => some (s.setReader r (.unlock i (sum + s.sharedData)))
  | .unlock i sum => some (s.unlock.setReader r (.loop (i + 1) sum))
  | .returned _ _ => none

def writerNext (s : State R W) (w : W) : Option (State R W) :=
  match s.writer w with
  | .loop i =>
      if i < iters / 10 then (s.wrlock w).map fun s' => s'.setWriter w (.load i)
      else some (s.setWriter w (.returned i))
  | .load i => some (s.setWriter w (.store i s.sharedData))
  | .store i loaded => some ({ s with sharedData := loaded + 1 }.setWriter w (.unlock i))
  | .unlock i => some (s.unlock.setWriter w (.loop (i + 1)))
  | .returned _ => none

def next (s : State R W) : Act R W → Option (State R W)
  | .read r => readerNext iters s r
  | .write w => writerNext iters s w

def initState : State R W := ⟨0, none, 0, fun _ => .loop 0 0, fun _ => .loop 0⟩

def system : Lts (State R W) (Act R W) where
  init s := s = initState
  next := next iters

/-- All threads have been joined. -/
def Joined (s : State R W) : Prop :=
  (∀ r, ∃ i sum, s.reader r = .returned i sum) ∧ ∀ w, ∃ i, s.writer w = .returned i

/-! ## Steps -/

variable {iters} {s s' : State R W}

inductive ReaderStep (iters : Nat) (s : State R W) (r : R) : State R W → Prop
  | locks {i : Nat} {sum : Int} (hpc : s.reader r = .loop i sum) (hi : i < iters)
      (hfree : s.writeOwner = none) :
      ReaderStep iters s r ({ s with readLocks := s.readLocks + 1 }.setReader r (.load i sum))
  | returns {i : Nat} {sum : Int} (hpc : s.reader r = .loop i sum) (hi : iters ≤ i) :
      ReaderStep iters s r (s.setReader r (.returned i sum))
  | loads {i : Nat} {sum : Int} (hpc : s.reader r = .load i sum) :
      ReaderStep iters s r (s.setReader r (.unlock i (sum + s.sharedData)))
  | unlocks {i : Nat} {sum : Int} (hpc : s.reader r = .unlock i sum) :
      ReaderStep iters s r (s.unlock.setReader r (.loop (i + 1) sum))

inductive WriterStep (iters : Nat) (s : State R W) (w : W) : State R W → Prop
  | locks {i : Nat} (hpc : s.writer w = .loop i) (hi : i < iters / 10)
      (hfree : s.writeOwner = none) (hunread : s.readLocks = 0) :
      WriterStep iters s w ({ s with writeOwner := some w }.setWriter w (.load i))
  | returns {i : Nat} (hpc : s.writer w = .loop i) (hi : iters / 10 ≤ i) :
      WriterStep iters s w (s.setWriter w (.returned i))
  | loads {i : Nat} (hpc : s.writer w = .load i) :
      WriterStep iters s w (s.setWriter w (.store i s.sharedData))
  | stores {i : Nat} {loaded : Int} (hpc : s.writer w = .store i loaded) :
      WriterStep iters s w ({ s with sharedData := loaded + 1 }.setWriter w (.unlock i))
  | unlocks {i : Nat} (hpc : s.writer w = .unlock i) :
      WriterStep iters s w (s.unlock.setWriter w (.loop (i + 1)))

omit [DecidableEq R] [DecidableEq W] in
theorem rdlock_cases (h : s.rdlock = some s') :
    s.writeOwner = none ∧ s' = { s with readLocks := s.readLocks + 1 } := by
  unfold State.rdlock at h
  split at h
  next hfree => exact ⟨hfree, (Option.some.inj h).symm⟩
  next => cases h

omit [DecidableEq R] [DecidableEq W] in
theorem wrlock_cases {w : W} (h : s.wrlock w = some s') :
    s.writeOwner = none ∧ s.readLocks = 0 ∧ s' = { s with writeOwner := some w } := by
  unfold State.wrlock at h
  split at h
  next hfree =>
    split at h
    next hunread => exact ⟨hfree, hunread, (Option.some.inj h).symm⟩
    next => cases h
  next => cases h

omit [DecidableEq W] in
theorem readerNext_cases {r : R} (h : readerNext iters s r = some s') : ReaderStep iters s r s' := by
  unfold readerNext at h
  split at h
  next i sum hpc =>
    split at h
    next hi =>
      obtain ⟨s₁, hlock, rfl⟩ := Option.map_eq_some_iff.mp h
      obtain ⟨hfree, rfl⟩ := rdlock_cases hlock
      exact .locks hpc hi hfree
    next hi =>
      cases h
      exact .returns hpc (Nat.not_lt.mp hi)
  next i sum hpc =>
    cases h
    exact .loads hpc
  next i sum hpc =>
    cases h
    exact .unlocks hpc
  next => cases h

omit [DecidableEq R] in
theorem writerNext_cases {w : W} (h : writerNext iters s w = some s') : WriterStep iters s w s' := by
  unfold writerNext at h
  split at h
  next i hpc =>
    split at h
    next hi =>
      obtain ⟨s₁, hlock, rfl⟩ := Option.map_eq_some_iff.mp h
      obtain ⟨hfree, hunread, rfl⟩ := wrlock_cases hlock
      exact .locks hpc hi hfree hunread
    next hi =>
      cases h
      exact .returns hpc (Nat.not_lt.mp hi)
  next i hpc =>
    cases h
    exact .loads hpc
  next i loaded hpc =>
    cases h
    exact .stores hpc
  next i hpc =>
    cases h
    exact .unlocks hpc
  next => cases h

end Model

/-! ## Invariant -/

/-- The reader is between its lock and its unlock. -/
def ReaderPc.inside : ReaderPc → Bool
  | .load _ _ | .unlock _ _ => true
  | .loop _ _ | .returned _ _ => false

/-- A reader's sum is of as many loads as it has made, none above the present value. -/
def ReaderPc.Summed (iters : Nat) (sharedData : Int) : ReaderPc → Prop
  | .loop i s => i ≤ iters ∧ 0 ≤ s ∧ s ≤ i * sharedData
  | .load i s => i < iters ∧ 0 ≤ s ∧ s ≤ i * sharedData
  | .unlock i s => i < iters ∧ 0 ≤ s ∧ s ≤ (i + 1 : Nat) * sharedData
  | .returned i s => i = iters ∧ 0 ≤ s ∧ s ≤ i * sharedData

theorem ReaderPc.Summed.mono {iters : Nat} {x y : Int} {pc : ReaderPc} (h : pc.Summed iters x)
    (hle : x ≤ y) : pc.Summed iters y := by
  have hmul : ∀ i : Nat, (i : Int) * x ≤ i * y := fun i =>
    Int.mul_le_mul_of_nonneg_left hle (Int.natCast_nonneg i)
  cases pc with
  | loop i s | load i s | returned i s => exact ⟨h.1, h.2.1, h.2.2.trans (hmul i)⟩
  | unlock i s => exact ⟨h.1, h.2.1, h.2.2.trans (hmul (i + 1))⟩

/-- The writer is between its lock and its unlock. -/
def WriterPc.inside : WriterPc → Bool
  | .load _ | .store _ _ | .unlock _ => true
  | .loop _ | .returned _ => false

def WriterPc.stored : WriterPc → Nat
  | .loop i | .load i | .store i _ | .returned i => i
  | .unlock i => i + 1

def WriterPc.Counts (n : Nat) : WriterPc → Prop
  | .loop i => i ≤ n
  | .load i | .store i _ | .unlock i => i < n
  | .returned i => i = n

/-- A loaded value is still the present one. -/
def WriterPc.Fresh (sharedData : Int) : WriterPc → Prop
  | .store _ loaded => loaded = sharedData
  | _ => True

theorem WriterPc.fresh_of_outside {pc : WriterPc} (h : pc.inside = false) (x : Int) :
    pc.Fresh x := by
  cases pc with
  | store i loaded => cases h
  | _ => trivial

/-- Readers between their lock and their unlock. -/
def readersInside {R : Type} [Fintype R] (reader : R → ReaderPc) : Nat :=
  total (fun pc => pc.inside.toNat) reader

structure Rel {R W : Type} [Fintype R] (iters : Nat) (s : State R W) (c : Counter.State W) : Prop where
  value : c.value = s.sharedData
  made : c.made = fun w => (s.writer w).stored
  nonneg : 0 ≤ s.sharedData
  counts : ∀ w, (s.writer w).Counts (iters / 10)
  exclusive : Exclusive (fun w => (s.writer w).inside) s.writeOwner
  fresh : ∀ w, (s.writer w).Fresh s.sharedData
  readLocks : s.readLocks = readersInside s.reader
  unread : s.writeOwner.isSome → s.readLocks = 0
  summed : ∀ r, (s.reader r).Summed iters s.sharedData

section Invariant

variable {R W : Type} [Fintype R] {iters : Nat} {s s' : State R W} {c : Counter.State W}

theorem Rel.init : Rel iters (initState : State R W) (Counter.initState 0) := by
  refine ⟨rfl, rfl, Int.le_refl 0, fun _ => Nat.zero_le _, Exclusive.initial, fun _ => trivial, ?_,
    ?_, ?_⟩
  · simp [initState, readersInside, total, ReaderPc.inside]
  · intro hsome
    cases hsome
  · intro r
    exact ⟨Nat.zero_le _, Int.le_refl 0, by simp [initState]⟩

/-- While a reader is inside, no writer is. -/
theorem Rel.unwritten (h : Rel iters s c) {r : R} (hr : (s.reader r).inside = true) :
    s.writeOwner = none := by
  have hone := le_total (fun pc : ReaderPc => pc.inside.toNat) s.reader r
  rw [hr, Bool.toNat_true] at hone
  cases howner : s.writeOwner with
  | none => rfl
  | some w =>
      have hzero := h.unread (by rw [howner]; rfl)
      rw [h.readLocks, readersInside] at hzero
      omega

/-! ### Readers -/

section Readers

variable [DecidableEq R]

theorem readersInside_update (reader : R → ReaderPc) (r : R) (pc : ReaderPc) :
    readersInside (Function.update reader r pc) + (reader r).inside.toNat =
      readersInside reader + pc.inside.toNat :=
  total_update (fun pc => pc.inside.toNat) reader r pc

theorem Rel.setReader (h : Rel iters s c) {r : R} {p : ReaderPc} {readLocks : Nat}
    (hlocks : readLocks = readersInside (Function.update s.reader r p))
    (hunread : s.writeOwner.isSome → readLocks = 0) (hsummed : p.Summed iters s.sharedData) :
    Rel iters ({ s with readLocks := readLocks }.setReader r p) c :=
  ⟨h.value, h.made, h.nonneg, h.counts, h.exclusive, h.fresh, hlocks, hunread,
    (Function.forall_update_iff s.reader fun _ p => p.Summed iters s.sharedData).mpr
      ⟨hsummed, fun u _ => h.summed u⟩⟩

theorem Rel.readerStep (h : Rel iters s c) {r : R} (hstep : ReaderStep iters s r s') :
    Rel iters s' c := by
  have hsummed := h.summed r
  cases hstep with
  | @locks i sum hpc hi hfree =>
      rw [hpc] at hsummed
      have hinside := readersInside_update s.reader r (.load i sum)
      simp only [hpc, ReaderPc.inside, Bool.toNat_false, Bool.toNat_true] at hinside
      apply h.setReader (p := .load i sum)
      · rw [h.readLocks]
        omega
      · intro hsome
        rw [hfree] at hsome
        cases hsome
      · exact ⟨hi, hsummed.2⟩
  | @returns i sum hpc hi =>
      rw [hpc] at hsummed
      have hinside := readersInside_update s.reader r (.returned i sum)
      simp only [hpc, ReaderPc.inside, Bool.toNat_false] at hinside
      apply h.setReader (p := .returned i sum)
      · rw [h.readLocks]
        omega
      · exact h.unread
      · exact ⟨Nat.le_antisymm hsummed.1 hi, hsummed.2⟩
  | @loads i sum hpc =>
      rw [hpc] at hsummed
      have hinside := readersInside_update s.reader r (.unlock i (sum + s.sharedData))
      simp only [hpc, ReaderPc.inside, Bool.toNat_true] at hinside
      apply h.setReader (p := .unlock i (sum + s.sharedData))
      · rw [h.readLocks]
        omega
      · exact h.unread
      · refine ⟨hsummed.1, Int.add_nonneg hsummed.2.1 h.nonneg, ?_⟩
        have hle := hsummed.2.2
        rw [Nat.cast_succ, Int.add_mul, Int.one_mul]
        omega
  | @unlocks i sum hpc =>
      rw [hpc] at hsummed
      have hreader : (s.reader r).inside = true := by rw [hpc]; rfl
      have hinside := readersInside_update s.reader r (.loop (i + 1) sum)
      simp only [hpc, ReaderPc.inside, Bool.toNat_false, Bool.toNat_true] at hinside
      have hunlock : s.unlock = { s with readLocks := s.readLocks - 1 } := by
        simp [State.unlock, h.unwritten hreader]
      rw [hunlock]
      apply h.setReader (p := .loop (i + 1) sum)
      · rw [h.readLocks]
        omega
      · intro hsome
        rw [h.unread hsome]
      · exact ⟨hsummed.1, hsummed.2⟩

end Readers

/-! ### Writers -/

section Writers

variable [DecidableEq W]

omit [Fintype R] in
theorem stored_setWriter (s : State R W) (w : W) (pc : WriterPc) :
    (fun u => ((s.setWriter w pc).writer u).stored) =
      Function.update (fun u => (s.writer u).stored) w pc.stored :=
  Function.comp_update WriterPc.stored s.writer w pc

omit [Fintype R] in
theorem inside_other (s : State R W) (w : W) (pc : WriterPc) {u : W} (hu : u ≠ w) :
    ((s.setWriter w pc).writer u).inside = (s.writer u).inside := by
  simp [State.setWriter, hu]

omit [Fintype R] in
theorem exclusive_keep (h : Exclusive (fun u => (s.writer u).inside) s.writeOwner) {w : W}
    {p : WriterPc} (hinside : p.inside = (s.writer w).inside) :
    Exclusive (fun u => ((s.setWriter w p).writer u).inside) s.writeOwner := by
  apply h.keep
  intro u
  by_cases hu : u = w
  · simp [State.setWriter, hu, hinside]
  · exact inside_other s w p hu

/-- A step that leaves `shared_data` as it is. -/
theorem Rel.setWriter (h : Rel iters s c) {w : W} {p : WriterPc} {owner : Option W}
    (hcounts : p.Counts (iters / 10)) (hstored : p.stored = (s.writer w).stored)
    (hexclusive : Exclusive (fun u => ((s.setWriter w p).writer u).inside) owner)
    (hunread : owner.isSome → s.readLocks = 0) (hfresh : p.Fresh s.sharedData) :
    Rel iters ({ s with writeOwner := owner }.setWriter w p) c := by
  refine ⟨h.value, ?_, h.nonneg, ?_, hexclusive, ?_, h.readLocks, hunread, h.summed⟩
  · rw [h.made]
    refine Eq.symm ((stored_setWriter { s with writeOwner := owner } w p).trans ?_)
    rw [hstored, Function.update_eq_self]
  · exact (Function.forall_update_iff s.writer fun _ p => p.Counts (iters / 10)).mpr
      ⟨hcounts, fun u _ => h.counts u⟩
  · exact (Function.forall_update_iff s.writer fun _ p => p.Fresh s.sharedData).mpr
      ⟨hfresh, fun u _ => h.fresh u⟩

/-- A store adds one to `shared_data`: the writer is alone. -/
theorem Rel.stores (h : Rel iters s c) {w : W} {i : Nat} {loaded : Int}
    (hpc : s.writer w = .store i loaded) :
    c.made w < iters / 10 ∧
      Rel iters ({ s with sharedData := loaded + 1 }.setWriter w (.unlock i)) (c.add 1 w) := by
  have hcounts := h.counts w
  have hfresh := h.fresh w
  rw [hpc] at hcounts hfresh
  have hloaded : loaded = s.sharedData := hfresh
  subst hloaded
  have hmade : c.made w = i := by
    rw [h.made]
    simp [hpc, WriterPc.stored]
  have hinside : (s.writer w).inside = true := by rw [hpc]; rfl
  have hle : s.sharedData ≤ s.sharedData + 1 := by omega
  refine ⟨hmade ▸ hcounts, ?_, ?_, h.nonneg.trans hle, ?_, ?_, ?_, h.readLocks, h.unread, ?_⟩
  · exact congrArg (· + 1) h.value
  · show Function.update c.made w (c.made w + 1) = _
    rw [hmade, h.made]
    exact (stored_setWriter s w (.unlock i)).symm
  · exact (Function.forall_update_iff s.writer fun _ pc => pc.Counts (iters / 10)).mpr
      ⟨hcounts, fun u _ => h.counts u⟩
  · exact exclusive_keep h.exclusive (p := .unlock i) (by rw [hpc]; rfl)
  · exact (Function.forall_update_iff s.writer fun _ pc => pc.Fresh (s.sharedData + 1)).mpr
      ⟨trivial, fun u hu => WriterPc.fresh_of_outside (h.exclusive.other hinside hu) _⟩
  · intro r
    exact (h.summed r).mono hle

theorem Rel.writerStep (h : Rel iters s c) {w : W} (hstep : WriterStep iters s w s') :
    Rel iters s' c ∨ ∃ i loaded, s.writer w = .store i loaded ∧ c.made w < iters / 10 ∧
      Rel iters s' (c.add 1 w) := by
  have hcounts := h.counts w
  cases hstep with
  | @locks i hpc hi hfree hunread =>
      left
      apply h.setWriter (p := .load i) hi (by rw [hpc]; rfl) _ (fun _ => hunread) trivial
      have hnone := h.exclusive
      rw [hfree] at hnone
      exact hnone.acquire (by simp [State.setWriter, WriterPc.inside])
        fun u hu => inside_other s w _ hu
  | returns hpc hi =>
      left
      rw [hpc] at hcounts
      exact h.setWriter (Nat.le_antisymm hcounts hi) (by rw [hpc]; rfl)
        (exclusive_keep h.exclusive (by rw [hpc]; rfl)) h.unread trivial
  | loads hpc =>
      left
      rw [hpc] at hcounts
      exact h.setWriter hcounts (by rw [hpc]; rfl) (exclusive_keep h.exclusive (by rw [hpc]; rfl))
        h.unread rfl
  | @stores i loaded hpc =>
      right
      obtain ⟨hquota, hrel⟩ := h.stores hpc
      exact ⟨i, loaded, hpc, hquota, hrel⟩
  | @unlocks i hpc =>
      left
      rw [hpc] at hcounts
      have hinside : (s.writer w).inside = true := by rw [hpc]; rfl
      have hunlock : s.unlock = { s with writeOwner := none } := by
        simp [State.unlock, h.exclusive.owner_eq hinside]
      rw [hunlock]
      apply h.setWriter (p := .loop (i + 1)) hcounts (by rw [hpc]; rfl) _
        (fun hsome => by cases hsome) trivial
      exact h.exclusive.release (t := w) hinside (by simp [State.setWriter, WriterPc.inside])
        fun u hu => inside_other s w _ hu

end Writers

/-- The writer that stores in a step. -/
def storesOf (x : Transition (State R W) (Act R W)) : Option W :=
  match x.action with
  | .read _ => none
  | .write w =>
      match x.before.writer w with
      | .store _ _ => some w
      | _ => none

variable [DecidableEq R] [DecidableEq W]

theorem simulates (R W : Type) [Fintype R] [DecidableEq R] [DecidableEq W] (iters : Nat) :
    (system iters : Lts (State R W) (Act R W)).Simulates
      (Counter.system 0 1 fun _ => iters / 10) storesOf (Rel iters) where
  init s hs := by
    rw [show s = initState from hs]
    exact ⟨_, rfl, .init⟩
  stutter s c a s' h hnext hobs := by
    cases a with
    | read r => exact h.readerStep (readerNext_cases hnext)
    | write w =>
        rcases h.writerStep (writerNext_cases hnext) with hrel | ⟨i, loaded, hpc, _, _⟩
        · exact hrel
        · simp [storesOf, hpc] at hobs
  step s c a s' u h hnext hobs := by
    cases a with
    | read r => cases hobs
    | write w =>
        cases writerNext_cases hnext with
        | stores hpc =>
            obtain rfl : w = u := by simpa [storesOf, hpc] using hobs
            obtain ⟨hquota, hrel⟩ := h.stores hpc
            exact ⟨_, Counter.system_next hquota, hrel⟩
        | locks hpc _ _ _ | returns hpc _ | loads hpc | unlocks hpc =>
            simp [storesOf, hpc] at hobs

/-! ## Progress -/

/-- Steps a reader has still to make. -/
def ReaderPc.remaining (iters : Nat) : ReaderPc → Nat
  | .loop i _ => 3 * (iters - i) + 1
  | .load i _ => 3 * (iters - i)
  | .unlock i _ => 3 * (iters - i) - 1
  | .returned _ _ => 0

def WriterPc.remaining (n : Nat) : WriterPc → Nat
  | .loop i => 4 * (n - i) + 1
  | .load i => 4 * (n - i)
  | .store i _ => 4 * (n - i) - 1
  | .unlock i => 4 * (n - i) - 2
  | .returned _ => 0

def remaining [Fintype W] (iters : Nat) (s : State R W) : Nat :=
  total (ReaderPc.remaining iters) s.reader + total (WriterPc.remaining (iters / 10)) s.writer

omit [DecidableEq R] [Fintype R] [DecidableEq W] in
theorem unlock_reader (s : State R W) : s.unlock.reader = s.reader := by
  unfold State.unlock
  split <;> rfl

omit [DecidableEq R] [Fintype R] [DecidableEq W] in
theorem unlock_writer (s : State R W) : s.unlock.writer = s.writer := by
  unfold State.unlock
  split <;> rfl

omit [DecidableEq W] in
theorem ReaderStep.remaining_lt [Fintype W] (h : Rel iters s c) {r : R}
    (hstep : ReaderStep iters s r s') : remaining iters s' < remaining iters s := by
  have hsummed := h.summed r
  have hlt : ∀ pc : ReaderPc, pc.remaining iters < (s.reader r).remaining iters →
      total (ReaderPc.remaining iters) (Function.update s.reader r pc) <
        total (ReaderPc.remaining iters) s.reader := fun pc hpc => total_update_lt hpc
  cases hstep with
  | @locks i sum hpc hi hfree | @returns i sum hpc hi =>
      apply Nat.add_lt_add_right
      apply hlt
      rw [hpc]
      simp [ReaderPc.remaining]
  | @loads i sum hpc =>
      apply Nat.add_lt_add_right
      apply hlt
      rw [hpc] at hsummed ⊢
      have hi := hsummed.1
      simp only [ReaderPc.remaining]
      omega
  | @unlocks i sum hpc =>
      have hless := hlt (.loop (i + 1) sum) (by
        rw [hpc] at hsummed ⊢
        have hi := hsummed.1
        simp only [ReaderPc.remaining]
        omega)
      unfold remaining
      simp only [State.setReader, unlock_reader, unlock_writer]
      exact Nat.add_lt_add_right hless _

omit [DecidableEq R] in
theorem WriterStep.remaining_lt [Fintype W] (h : Rel iters s c) {w : W}
    (hstep : WriterStep iters s w s') : remaining iters s' < remaining iters s := by
  have hcounts := h.counts w
  have hlt : ∀ pc : WriterPc, pc.remaining (iters / 10) < (s.writer w).remaining (iters / 10) →
      total (WriterPc.remaining (iters / 10)) (Function.update s.writer w pc) <
        total (WriterPc.remaining (iters / 10)) s.writer := fun pc hpc => total_update_lt hpc
  cases hstep with
  | locks hpc hi hfree hunread | returns hpc hi =>
      apply Nat.add_lt_add_left
      apply hlt
      rw [hpc]
      simp [WriterPc.remaining]
  | loads hpc | stores hpc =>
      apply Nat.add_lt_add_left
      apply hlt
      rw [hpc] at hcounts ⊢
      simp only [WriterPc.Counts, WriterPc.remaining] at hcounts ⊢
      omega
  | @unlocks i hpc =>
      have hless := hlt (.loop (i + 1)) (by
        rw [hpc] at hcounts ⊢
        simp only [WriterPc.Counts, WriterPc.remaining] at hcounts ⊢
        omega)
      unfold remaining
      simp only [State.setWriter, unlock_reader, unlock_writer]
      exact Nat.add_lt_add_left hless _

omit [Fintype R] in
theorem enabled_of_reader {r : R} (h : (readerNext iters s r).isSome) : (system iters).Enabled s :=
  Lts.enabled_of_isSome (M := system iters) (.read r) h

omit [Fintype R] in
theorem enabled_of_writer {w : W} (h : (writerNext iters s w).isSome) : (system iters).Enabled s :=
  Lts.enabled_of_isSome (M := system iters) (.write w) h

/-- A taken lock has a thread inside, which moves; at a free one all threads do. -/
theorem Rel.joined_or_enabled (h : Rel iters s c) : Joined s ∨ (system iters).Enabled s := by
  by_cases hjoined : Joined s
  · exact .inl hjoined
  · right
    cases howner : s.writeOwner with
    | some w =>
        have hinside : (s.writer w).inside = true := (h.exclusive w).mpr howner
        apply enabled_of_writer (w := w)
        unfold writerNext
        cases hpc : s.writer w with
        | loop i | returned i =>
            rw [hpc] at hinside
            cases hinside
        | load i | store i _ | unlock i => rfl
    | none =>
        cases hlocks : s.readLocks with
        | succ k =>
            rw [h.readLocks] at hlocks
            obtain ⟨r, hr⟩ := exists_of_total_pos (show 0 < readersInside s.reader by omega)
            apply enabled_of_reader (r := r)
            unfold readerNext
            cases hpc : s.reader r with
            | loop i sum | returned i sum => simp [hpc, ReaderPc.inside] at hr
            | load i sum | unlock i sum => rfl
        | zero =>
            rcases not_and_or.mp hjoined with hreaders | hwriters
            · obtain ⟨r, hr⟩ := not_forall.mp hreaders
              apply enabled_of_reader (r := r)
              unfold readerNext
              cases hpc : s.reader r with
              | loop i sum => by_cases hi : i < iters <;> simp [hi, State.rdlock, howner]
              | returned i sum => exact (hr ⟨i, sum, hpc⟩).elim
              | load i sum | unlock i sum => rfl
            · obtain ⟨w, hw⟩ := not_forall.mp hwriters
              apply enabled_of_writer (w := w)
              unfold writerNext
              cases hpc : s.writer w with
              | loop i => by_cases hi : i < iters / 10 <;> simp [hi, State.wrlock, howner, hlocks]
              | returned i => exact (hw ⟨i, hpc⟩).elim
              | load i | store i _ | unlock i => rfl

theorem Rel.step (h : Rel iters s c) {a : Act R W} (hnext : next iters s a = some s') :
    ∃ c', Rel iters s' c' := by
  cases a with
  | read r => exact ⟨c, h.readerStep (readerNext_cases hnext)⟩
  | write w =>
      rcases h.writerStep (writerNext_cases hnext) with hrel | ⟨_, _, _, _, hrel⟩
      · exact ⟨_, hrel⟩
      · exact ⟨_, hrel⟩

theorem joins_inevitable [Fintype W] (h : Rel iters s c) : (system iters).Inevitable Joined s := by
  apply Lts.Inevitable.of_measure (I := fun s => ∃ c, Rel iters s c) (remaining iters)
  · rintro s ⟨c, hrel⟩
    exact hrel.joined_or_enabled
  · rintro s a s' ⟨c, hrel⟩ hnext
    refine ⟨hrel.step hnext, ?_⟩
    cases a with
    | read r => exact (readerNext_cases hnext).remaining_lt hrel
    | write w => exact (writerNext_cases hnext).remaining_lt hrel
  · exact ⟨c, h⟩

/-! ## Both kinds of thread -/

/-- A writer is alone between its lock and its unlock, and what the threads leave
behind is exact for the writers and bounded for the readers. -/
structure Guarded [Fintype W] (iters : Nat) (s : State R W) : Prop where
  readers : ∀ w r, (s.writer w).inside = true → (s.reader r).inside = false
  writers : ∀ w u, (s.writer w).inside = true → (s.writer u).inside = true → w = u
  sharedData : Joined s → s.sharedData = (Fintype.card W * (iters / 10) : Nat)
  sums : ∀ r i sum, s.reader r = .returned i sum →
    0 ≤ sum ∧ sum ≤ (iters * (Fintype.card W * (iters / 10)) : Nat)

omit [DecidableEq R] [DecidableEq W] in
theorem Rel.guarded [Fintype W] (h : Rel iters s c)
    (hinv : Counter.Inv 0 1 (fun _ => iters / 10) c) : Guarded iters s := by
  have hquota : ∑ _w : W, iters / 10 = Fintype.card W * (iters / 10) := by simp
  have hupper : s.sharedData ≤ (Fintype.card W * (iters / 10) : Nat) := by
    rw [← h.value, hinv.value, ← hquota, Int.zero_add, Int.one_mul]
    exact_mod_cast hinv.total_le
  refine ⟨?_, ?_, ?_, ?_⟩
  · intro w r hw
    rw [Bool.eq_false_iff]
    intro hr
    have howner := h.exclusive.owner_eq hw
    rw [h.unwritten hr] at howner
    cases howner
  · intro w u hw hu
    have howner := h.exclusive.owner_eq hw
    rw [h.exclusive.owner_eq hu] at howner
    exact (Option.some.inj howner).symm
  · intro hjoined
    have hdone : ∀ w, c.made w = iters / 10 := by
      intro w
      obtain ⟨i, hpc⟩ := hjoined.2 w
      have hcounts := h.counts w
      rw [hpc] at hcounts
      rw [h.made]
      simpa [hpc, WriterPc.stored, WriterPc.Counts] using hcounts
    rw [← h.value, hinv.value_of_done hdone, hquota]
    simp
  · intro r i sum hpc
    have hsummed := h.summed r
    rw [hpc] at hsummed
    obtain ⟨hi, hnonneg, hle⟩ := hsummed
    refine ⟨hnonneg, hle.trans ?_⟩
    rw [hi, Nat.cast_mul]
    exact Int.mul_le_mul_of_nonneg_left hupper (Int.natCast_nonneg iters)

end Invariant

end OsLabs.LockVariations.RwLock
