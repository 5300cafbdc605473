import Mathlib.Data.Nat.Count
import OsLabs.Core.Lts
import OsLabs.Core.Threads

/-! # Coarse and fine-grained locking

The workers on `global_table` and `fine_table`. They differ only in the lock an
item takes. Items of one bucket share a lock in both, so each increment of a
bucket, a load and a store, is undisturbed.
-/

namespace OsLabs.FineLock

open Threads

/-- Where a worker is with item `i`; `loaded` is the table entry to increment. -/
inductive Pc where
  | loop (i : Nat)
  | load (i : Nat)
  | store (i : Nat) (loaded : Int)
  | unlock (i : Nat)
  | returned (i : Nat)
  deriving DecidableEq

structure State (T L : Type) where
  locks : L → Option T
  table : Nat → Int
  pc : T → Pc

/-! ## Workers -/

section Model

variable {T L : Type} [DecidableEq T] [DecidableEq L]

def State.setPc (s : State T L) (t : T) (pc : Pc) : State T L :=
  { s with pc := Function.update s.pc t pc }

def State.setLock (s : State T L) (l : L) (owner : Option T) : State T L :=
  { s with locks := Function.update s.locks l owner }

def State.setEntry (s : State T L) (b : Nat) (x : Int) : State T L :=
  { s with table := Function.update s.table b x }

variable (lockOf : Nat → L) (nitems nbuckets : Nat)

/-- One step of worker `t`. There is none at a lock that is taken. -/
def next (s : State T L) (t : T) : Option (State T L) :=
  match s.pc t with
  | .loop i =>
      if i < nitems then
        if s.locks (lockOf i) = none then
          some ((s.setLock (lockOf i) (some t)).setPc t (.load i))
        else none
      else some (s.setPc t (.returned i))
  | .load i => some (s.setPc t (.store i (s.table (i % nbuckets))))
  | .store i loaded => some ((s.setEntry (i % nbuckets) (loaded + 1)).setPc t (.unlock i))
  | .unlock i => some ((s.setLock (lockOf i) none).setPc t (.loop (i + 1)))
  | .returned _ => none

def initState : State T L := ⟨fun _ => none, fun _ => 0, fun _ => .loop 0⟩

def system : Lts (State T L) T where
  init s := s = initState
  next := next lockOf nitems nbuckets

/-- All workers have been joined. -/
def Joined (s : State T L) : Prop := ∀ t, ∃ i, s.pc t = .returned i

end Model

/-- `coarse_worker`: every item takes `global_lock`. -/
def coarseWorker (T : Type) [DecidableEq T] (nitems nbuckets : Nat) : Lts (State T Unit) T :=
  system (fun _ => ()) nitems nbuckets

/-- `fine_worker`: an item takes `bucket_locks[i%NBUCKETS]`. -/
def fineWorker (T : Type) [DecidableEq T] (nitems nbuckets : Nat) : Lts (State T Nat) T :=
  system (fun i => i % nbuckets) nitems nbuckets

/-! ## Steps -/

section Steps

variable {T L : Type} [DecidableEq T] [DecidableEq L] {lockOf : Nat → L} {nitems nbuckets : Nat}
  {s s' : State T L} {t : T}

inductive Step (lockOf : Nat → L) (nitems nbuckets : Nat) (s : State T L) (t : T) :
    State T L → Prop
  | locks {i : Nat} (hpc : s.pc t = .loop i) (hi : i < nitems)
      (hfree : s.locks (lockOf i) = none) :
      Step lockOf nitems nbuckets s t ((s.setLock (lockOf i) (some t)).setPc t (.load i))
  | returns {i : Nat} (hpc : s.pc t = .loop i) (hi : nitems ≤ i) :
      Step lockOf nitems nbuckets s t (s.setPc t (.returned i))
  | loads {i : Nat} (hpc : s.pc t = .load i) :
      Step lockOf nitems nbuckets s t (s.setPc t (.store i (s.table (i % nbuckets))))
  | stores {i : Nat} {loaded : Int} (hpc : s.pc t = .store i loaded) :
      Step lockOf nitems nbuckets s t
        ((s.setEntry (i % nbuckets) (loaded + 1)).setPc t (.unlock i))
  | unlocks {i : Nat} (hpc : s.pc t = .unlock i) :
      Step lockOf nitems nbuckets s t ((s.setLock (lockOf i) none).setPc t (.loop (i + 1)))

theorem next_cases (h : next lockOf nitems nbuckets s t = some s') :
    Step lockOf nitems nbuckets s t s' := by
  unfold next at h
  split at h
  next i hpc =>
    split at h
    next hi =>
      split at h
      next hfree =>
        cases h
        exact .locks hpc hi hfree
      next => cases h
    next hi =>
      cases h
      exact .returns hpc (Nat.not_lt.mp hi)
  next i hpc =>
    cases h
    exact .loads hpc
  next i loaded hpc =>
    cases h
    exact .stores hpc
  next i hpc =>
    cases h
    exact .unlocks hpc
  next => cases h

end Steps

/-! ## Invariant -/

section Invariant

variable {T L : Type} {lockOf : Nat → L} {nitems nbuckets : Nat} {s s' : State T L} {t : T}

/-- The item in whose critical section a worker is. -/
def Pc.item : Pc → Option Nat
  | .load i | .store i _ | .unlock i => some i
  | .loop _ | .returned _ => none

def Pc.holds [DecidableEq L] (lockOf : Nat → L) (l : L) (pc : Pc) : Bool :=
  pc.item.any fun i => lockOf i = l

/-- Items a worker is done with, the unlock apart. -/
def Pc.stored : Pc → Nat
  | .loop i | .load i | .store i _ | .returned i => i
  | .unlock i => i + 1

def Pc.Counts (nitems : Nat) : Pc → Prop
  | .loop i => i ≤ nitems
  | .load i | .store i _ | .unlock i => i < nitems
  | .returned i => i = nitems

/-- What a worker has added to bucket `b`. -/
def Pc.added (nbuckets b : Nat) (pc : Pc) : Nat := Nat.count (· % nbuckets = b) pc.stored

/-- A loaded entry is still the one in the table. -/
def Pc.Fresh (nbuckets : Nat) (table : Nat → Int) : Pc → Prop
  | .store i loaded => loaded = table (i % nbuckets)
  | _ => True

structure TableInv [Fintype T] [DecidableEq L] (lockOf : Nat → L) (nitems nbuckets : Nat)
    (s : State T L) : Prop where
  counts : ∀ t, (s.pc t).Counts nitems
  exclusive : ∀ l, Exclusive (fun t => (s.pc t).holds lockOf l) (s.locks l)
  entries : ∀ b, s.table b = total (Pc.added nbuckets b) s.pc
  fresh : ∀ t, (s.pc t).Fresh nbuckets s.table

/-- Between its lock and its unlock a worker owns the lock of its item. -/
theorem TableInv.owner [Fintype T] [DecidableEq L] (h : TableInv lockOf nitems nbuckets s) {i : Nat}
    (hitem : (s.pc t).item = some i) : s.locks (lockOf i) = some t :=
  (h.exclusive (lockOf i)).owner_eq (t := t) (by simp [Pc.holds, hitem])

variable [DecidableEq T] [DecidableEq L]

/-- The locks after a step that takes or leaves none. -/
theorem exclusive_keep {pc : Pc} (h : ∀ l, Exclusive (fun u => (s.pc u).holds lockOf l) (s.locks l))
    (hitem : pc.item = (s.pc t).item) (l : L) :
    Exclusive (fun u => (Function.update s.pc t pc u).holds lockOf l) (s.locks l) := by
  apply (h l).keep
  intro u
  by_cases hu : u = t
  · simp [hu, Pc.holds, hitem]
  · simp [hu]

theorem exclusive_locks {i : Nat}
    (h : ∀ l, Exclusive (fun u => (s.pc u).holds lockOf l) (s.locks l))
    (hitem : (s.pc t).item = none) (hfree : s.locks (lockOf i) = none) (l : L) :
    Exclusive (fun u => (Function.update s.pc t (.load i) u).holds lockOf l)
      (Function.update s.locks (lockOf i) (some t) l) := by
  by_cases hl : l = lockOf i
  · have hnone : Exclusive (fun u => (s.pc u).holds lockOf l) none := by
      have hlock := h l
      rwa [hl, hfree, ← hl] at hlock
    rw [hl, Function.update_self, ← hl]
    apply hnone.acquire
    · simp [Pc.holds, Pc.item, hl]
    · intro u hu
      simp [hu]
  · rw [Function.update_of_ne hl]
    apply (h l).keep
    intro u
    by_cases hu : u = t
    · have hload : (Pc.load i).item = some i := rfl
      simp [hu, Pc.holds, hitem, hload, Ne.symm hl]
    · simp [hu]

theorem exclusive_unlocks {i : Nat}
    (h : ∀ l, Exclusive (fun u => (s.pc u).holds lockOf l) (s.locks l))
    (hitem : (s.pc t).item = some i) {pc : Pc} (hpc : pc.item = none) (l : L) :
    Exclusive (fun u => (Function.update s.pc t pc u).holds lockOf l)
      (Function.update s.locks (lockOf i) none l) := by
  by_cases hl : l = lockOf i
  · rw [hl, Function.update_self, ← hl]
    apply (h l).release (t := t)
    · simp [Pc.holds, hitem, hl]
    · simp [Pc.holds, hpc]
    · intro u hu
      simp [hu]
  · rw [Function.update_of_ne hl]
    apply (h l).keep
    intro u
    by_cases hu : u = t
    · simp [hu, Pc.holds, hitem, hpc, Ne.symm hl]
    · simp [hu]

variable [Fintype T]

omit [DecidableEq T] in
theorem TableInv.init : TableInv lockOf nitems nbuckets (initState : State T L) :=
  ⟨fun _ => Nat.zero_le _, fun _ => Exclusive.initial, fun _ => by
    simp [initState, total, Pc.added, Pc.stored], fun _ => trivial⟩

/-- A step that leaves the table as it is. -/
theorem TableInv.setPc (h : TableInv lockOf nitems nbuckets s) {locks : L → Option T} {pc : Pc}
    (hcounts : pc.Counts nitems)
    (hexclusive : ∀ l, Exclusive (fun u => (Function.update s.pc t pc u).holds lockOf l) (locks l))
    (hstored : pc.stored = (s.pc t).stored) (hfresh : pc.Fresh nbuckets s.table) :
    TableInv lockOf nitems nbuckets { s with locks := locks, pc := Function.update s.pc t pc } := by
  refine ⟨?_, hexclusive, ?_, ?_⟩
  · exact (Function.forall_update_iff s.pc fun _ pc => pc.Counts nitems).mpr
      ⟨hcounts, fun u _ => h.counts u⟩
  · intro b
    show s.table b = total (Pc.added nbuckets b) (Function.update s.pc t pc)
    rw [total_keep (by rw [Pc.added, Pc.added, hstored])]
    exact h.entries b
  · exact (Function.forall_update_iff s.pc fun _ pc => pc.Fresh nbuckets s.table).mpr
      ⟨hfresh, fun u _ => h.fresh u⟩

/-- A store: no other worker is between its load and its store in that bucket. -/
theorem TableInv.setEntry (h : TableInv lockOf nitems nbuckets s)
    (hlock : ∀ i j, i % nbuckets = j % nbuckets → lockOf i = lockOf j) {i : Nat} {loaded : Int}
    (hpc : s.pc t = .store i loaded) :
    TableInv lockOf nitems nbuckets ((s.setEntry (i % nbuckets) (loaded + 1)).setPc t (.unlock i)) := by
  have hcounts := h.counts t
  have hfresh := h.fresh t
  rw [hpc] at hcounts hfresh
  refine ⟨?_, ?_, ?_, ?_⟩
  · exact (Function.forall_update_iff s.pc fun _ pc => pc.Counts nitems).mpr
      ⟨hcounts, fun u _ => h.counts u⟩
  · exact exclusive_keep (s := s) h.exclusive (by rw [hpc]; rfl)
  · intro b
    show Function.update s.table (i % nbuckets) (loaded + 1) b =
      total (Pc.added nbuckets b) (Function.update s.pc t (.unlock i))
    by_cases hb : b = i % nbuckets
    · rw [hb, Function.update_self, total_succ (by simp [hpc, Pc.added, Pc.stored, Nat.count_succ]),
        hfresh, h.entries]
      rfl
    · rw [Function.update_of_ne hb, total_keep (by
        simp [hpc, Pc.added, Pc.stored, Nat.count_succ, Ne.symm hb])]
      exact h.entries b
  · refine (Function.forall_update_iff s.pc fun _ pc =>
      pc.Fresh nbuckets (Function.update s.table (i % nbuckets) (loaded + 1))).mpr
        ⟨trivial, fun u hu => ?_⟩
    cases hpcu : s.pc u with
    | store j loaded' =>
        have hfreshu := h.fresh u
        rw [hpcu] at hfreshu
        by_cases hj : j % nbuckets = i % nbuckets
        · have ht := h.owner (t := t) (i := i) (by rw [hpc]; rfl)
          have hu' := h.owner (t := u) (i := j) (by rw [hpcu]; rfl)
          rw [hlock j i hj, ht] at hu'
          exact (hu (Option.some.inj hu').symm).elim
        · show loaded' = Function.update s.table (i % nbuckets) (loaded + 1) (j % nbuckets)
          rw [Function.update_of_ne hj]
          exact hfreshu
    | _ => trivial

theorem TableInv.step (h : TableInv lockOf nitems nbuckets s)
    (hlock : ∀ i j, i % nbuckets = j % nbuckets → lockOf i = lockOf j)
    (hstep : Step lockOf nitems nbuckets s t s') : TableInv lockOf nitems nbuckets s' := by
  have hcounts := h.counts t
  cases hstep with
  | locks hpc hi hfree =>
      exact h.setPc hi (exclusive_locks h.exclusive (by rw [hpc]; rfl) hfree) (by rw [hpc]; rfl) trivial
  | returns hpc hi =>
      rw [hpc] at hcounts
      exact h.setPc (Nat.le_antisymm hcounts hi) (exclusive_keep h.exclusive (by rw [hpc]; rfl))
        (by rw [hpc]; rfl) trivial
  | loads hpc =>
      rw [hpc] at hcounts
      exact h.setPc hcounts (exclusive_keep h.exclusive (by rw [hpc]; rfl)) (by rw [hpc]; rfl) rfl
  | stores hpc => exact h.setEntry hlock hpc
  | unlocks hpc =>
      rw [hpc] at hcounts
      exact h.setPc hcounts (exclusive_unlocks h.exclusive (by rw [hpc]; rfl) rfl)
        (by rw [hpc]; rfl) trivial

theorem TableInv.of_reachable (hlock : ∀ i j, i % nbuckets = j % nbuckets → lockOf i = lockOf j)
    (h : (system lockOf nitems nbuckets).Reachable s) : TableInv lockOf nitems nbuckets s := by
  apply h.invariant
  · intro s₀ hinit
    rw [hinit]
    exact TableInv.init
  · intro s₁ t s₂ hinv hnext
    exact hinv.step hlock (next_cases hnext)

omit [DecidableEq T] in
theorem TableInv.joined (h : TableInv lockOf nitems nbuckets s) (hjoined : Joined s) (b : Nat) :
    s.table b = (Fintype.card T * Nat.count (· % nbuckets = b) nitems : Nat) := by
  have hadded : ∀ t, (s.pc t).added nbuckets b = Nat.count (· % nbuckets = b) nitems := by
    intro t
    obtain ⟨i, hpc⟩ := hjoined t
    have hcounts := h.counts t
    rw [hpc] at hcounts
    rw [hpc, Pc.added, Pc.stored, hcounts]
  rw [h.entries, total_const hadded]

/-! ## Termination -/

/-- Steps a worker has still to make. -/
def Pc.remaining (nitems : Nat) : Pc → Nat
  | .loop i => 4 * (nitems - i) + 1
  | .load i => 4 * (nitems - i)
  | .store i _ => 4 * (nitems - i) - 1
  | .unlock i => 4 * (nitems - i) - 2
  | .returned _ => 0

theorem Step.remaining_lt (h : TableInv lockOf nitems nbuckets s)
    (hstep : Step lockOf nitems nbuckets s t s') :
    total (Pc.remaining nitems) s'.pc < total (Pc.remaining nitems) s.pc := by
  have hcounts := h.counts t
  cases hstep with
  | locks hpc hi hfree =>
      apply total_update_lt
      show _ < (s.pc t).remaining nitems
      rw [hpc]
      exact Nat.lt_succ_self _
  | returns hpc hi =>
      apply total_update_lt
      show _ < (s.pc t).remaining nitems
      rw [hpc]
      exact Nat.succ_pos _
  | loads hpc | stores hpc | unlocks hpc =>
      apply total_update_lt
      show _ < (s.pc t).remaining nitems
      rw [hpc] at hcounts ⊢
      simp only [Pc.Counts, Pc.remaining] at hcounts ⊢
      omega

omit [Fintype T] in
/-- A worker in its critical section never waits. -/
theorem enabled_of_item {i : Nat} (hitem : (s.pc t).item = some i) :
    (system lockOf nitems nbuckets).Enabled s := by
  apply Lts.enabled_of_isSome t
  show (next lockOf nitems nbuckets s t).isSome
  unfold next
  cases hpc : s.pc t with
  | loop j | returned j =>
      rw [hpc] at hitem
      cases hitem
  | _ => rfl

/-- A taken lock has an owner that moves, so the workers never deadlock. -/
theorem TableInv.joined_or_enabled (h : TableInv lockOf nitems nbuckets s) :
    Joined s ∨ (system lockOf nitems nbuckets).Enabled s := by
  by_cases hjoined : Joined s
  · exact .inl hjoined
  · obtain ⟨t, ht⟩ := not_forall.mp hjoined
    right
    cases hpc : s.pc t with
    | loop i =>
        cases howner : s.locks (lockOf i) with
        | none =>
            apply Lts.enabled_of_isSome t
            show (next lockOf nitems nbuckets s t).isSome
            by_cases hi : i < nitems <;> simp [next, hpc, hi, howner]
        | some u =>
            have hholds := (h.exclusive (lockOf i) u).mpr howner
            cases hitem : (s.pc u).item with
            | none => simp [Pc.holds, hitem] at hholds
            | some j => exact enabled_of_item hitem
    | returned i => exact (ht ⟨i, hpc⟩).elim
    | load i | store i _ | unlock i => exact enabled_of_item (by rw [hpc]; rfl)

theorem joins_inevitable (hlock : ∀ i j, i % nbuckets = j % nbuckets → lockOf i = lockOf j) :
    (system lockOf nitems nbuckets).Inevitable Joined (initState : State T L) := by
  apply Lts.Inevitable.of_measure (I := TableInv lockOf nitems nbuckets)
    fun s => total (Pc.remaining nitems) s.pc
  · intro s hinv
    exact hinv.joined_or_enabled
  · intro s t s' hinv hnext
    have hstep := next_cases hnext
    exact ⟨hinv.step hlock hstep, hstep.remaining_lt hinv⟩
  · exact TableInv.init

end Invariant

/-! ## Both tables -/

/-- Joined workers leave the same table, whichever locks they took and however
they interleaved. -/
theorem tables_agree {T : Type} [Fintype T] [DecidableEq T] {nitems nbuckets : Nat}
    {coarse : State T Unit} {fine : State T Nat}
    (hcoarse : (coarseWorker T nitems nbuckets).Reachable coarse) (hcoarseJoined : Joined coarse)
    (hfine : (fineWorker T nitems nbuckets).Reachable fine) (hfineJoined : Joined fine) :
    coarse.table = fine.table ∧
      ∀ b < nbuckets, fine.table b =
        (Fintype.card T * ((Finset.range nitems).filter (· % nbuckets = b)).card : Nat) := by
  have hcoarseInv := TableInv.of_reachable (fun _ _ _ => rfl) hcoarse
  have hfineInv := TableInv.of_reachable (fun _ _ h => h) hfine
  constructor
  · funext b
    rw [hcoarseInv.joined hcoarseJoined, hfineInv.joined hfineJoined]
  · intro b _
    rw [hfineInv.joined hfineJoined, Nat.count_eq_card_filter_range]

theorem tables_agree_four_threads :
    ∃ (coarse : State (Fin 4) Unit) (fine : State (Fin 4) Nat),
      (coarseWorker (Fin 4) 1000000 64).Reachable coarse ∧ Joined coarse ∧
      (fineWorker (Fin 4) 1000000 64).Reachable fine ∧ Joined fine ∧ coarse.table = fine.table := by
  have hcoarseEnds : (coarseWorker (Fin 4) 1000000 64).Inevitable Joined initState :=
    joins_inevitable fun _ _ _ => rfl
  have hfineEnds : (fineWorker (Fin 4) 1000000 64).Inevitable Joined initState :=
    joins_inevitable fun _ _ h => h
  obtain ⟨_, coarse, hcoarseRuns, hcoarse⟩ := hcoarseEnds.exists_run
  obtain ⟨_, fine, hfineRuns, hfine⟩ := hfineEnds.exists_run
  have hcoarseReach : (coarseWorker (Fin 4) 1000000 64).Reachable coarse := ⟨_, _, rfl, hcoarseRuns⟩
  have hfineReach : (fineWorker (Fin 4) 1000000 64).Reachable fine := ⟨_, _, rfl, hfineRuns⟩
  exact ⟨coarse, fine, hcoarseReach, hcoarse, hfineReach, hfine,
    (tables_agree hcoarseReach hcoarse hfineReach hfine).1⟩

end OsLabs.FineLock
