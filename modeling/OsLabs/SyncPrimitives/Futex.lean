import Mathlib.Data.Finset.Card
import OsLabs.Core.Lts
import OsLabs.Core.Threads

/-! # Sleep and wakeup on a futex

Sleepers that wait for `futex_val` to become 1, and the waker. `FUTEX_WAIT`
compares the word and queues the caller in one step, and `FUTEX_WAKE` takes
callers from the queue in one. A wait may also return by itself at any time.
-/

namespace OsLabs.SyncPrimitives

open Threads

/-- What `FUTEX_WAIT` returns: 0, or -1 with an errno. No caller reads it. -/
inductive WaitResult where
  | woken
  | eagain
  | eintr
  deriving DecidableEq

/-- Where a thread is in `sleeper`; `returned` keeps the value it printed. -/
inductive SleeperPc where
  | test
  | wait
  | queued
  | waited (r : WaitResult)
  | print
  | returned (printed : Int)
  deriving DecidableEq

/-- Where the waker is; `woken` keeps the result of `futex_wake`. -/
inductive WakerPc where
  | store
  | wake
  | woken (n : Nat)
  deriving DecidableEq

structure State (T : Type) where
  futexVal : Int
  sleeper : T → SleeperPc
  waker : WakerPc

/-- Steps of the threads, and a wait that ends without a wake. -/
inductive Action (T : Type) where
  | sleeper (t : T)
  | returns (t : T) (r : WaitResult)
  | store
  | wake (woken : Finset T)

section Model

variable {T : Type} [DecidableEq T]

def State.setPc (s : State T) (t : T) (pc : SleeperPc) : State T :=
  { s with sleeper := Function.update s.sleeper t pc }

/-- The kernel's side of `futex_wait(&futex_val, expected)`. -/
def futexWait (s : State T) (t : T) (expected : Int) : State T :=
  if s.futexVal = expected then s.setPc t .queued else s.setPc t (.waited .eagain)

def sleeper (s : State T) (t : T) : Option (State T) :=
  match s.sleeper t with
  | .test => some (s.setPc t (if s.futexVal = 0 then .wait else .print))
  | .wait => some (futexWait s t 0)
  | .queued => none
  | .waited _ => some (s.setPc t .test)
  | .print => some (s.setPc t (.returned s.futexVal))
  | .returned _ => none

variable [Fintype T]

def State.queue (s : State T) : Finset T := Finset.univ.filter fun t => s.sleeper t = .queued

/-- `futex_wake(&futex_val, count)` wakes `count` of the queue, or all of it. -/
def futexWake (s : State T) (count : Nat) (woken : Finset T) : Option (State T) :=
  if woken ⊆ s.queue ∧ woken.card = min count s.queue.card then
    some { s with
      sleeper := fun t => if t ∈ woken then .waited .woken else s.sleeper t
      waker := .woken woken.card }
  else none

variable (count : Nat)

def next (s : State T) : Action T → Option (State T)
  | .sleeper t => sleeper s t
  | .returns t r =>
      if s.sleeper t = .wait ∨ s.sleeper t = .queued then some (s.setPc t (.waited r)) else none
  | .store => if s.waker = .store then some { s with futexVal := 1, waker := .wake } else none
  | .wake woken => if s.waker = .wake then futexWake s count woken else none

def initState : State T := ⟨0, fun _ => .test, .store⟩

def system : Lts (State T) (Action T) where
  init s := s = initState
  next := next count

/-! ## Steps -/

variable {count} {s s' : State T} {a : Action T}

inductive Step (count : Nat) (s : State T) : Action T → State T → Prop
  | sleeps {t : T} (hpc : s.sleeper t = .test) (hval : s.futexVal = 0) :
      Step count s (.sleeper t) (s.setPc t .wait)
  | leaves {t : T} (hpc : s.sleeper t = .test) (hval : s.futexVal ≠ 0) :
      Step count s (.sleeper t) (s.setPc t .print)
  | queues {t : T} (hpc : s.sleeper t = .wait) (hval : s.futexVal = 0) :
      Step count s (.sleeper t) (s.setPc t .queued)
  | refused {t : T} (hpc : s.sleeper t = .wait) (hval : s.futexVal ≠ 0) :
      Step count s (.sleeper t) (s.setPc t (.waited .eagain))
  | again {t : T} {r : WaitResult} (hpc : s.sleeper t = .waited r) :
      Step count s (.sleeper t) (s.setPc t .test)
  | prints {t : T} (hpc : s.sleeper t = .print) :
      Step count s (.sleeper t) (s.setPc t (.returned s.futexVal))
  | returns {t : T} {r : WaitResult} (hpc : s.sleeper t = .wait ∨ s.sleeper t = .queued) :
      Step count s (.returns t r) (s.setPc t (.waited r))
  | stores (hpc : s.waker = .store) : Step count s .store { s with futexVal := 1, waker := .wake }
  | wakes {woken : Finset T} (hpc : s.waker = .wake) (hqueued : woken ⊆ s.queue)
      (hcard : woken.card = min count s.queue.card) :
      Step count s (.wake woken)
        { s with
          sleeper := fun t => if t ∈ woken then .waited .woken else s.sleeper t
          waker := .woken woken.card }

theorem sleeper_cases {t : T} (h : sleeper s t = some s') :
    Step count s (.sleeper t) s' := by
  unfold sleeper at h
  split at h
  next hpc =>
    cases h
    by_cases hval : s.futexVal = 0
    · rw [if_pos hval]
      exact .sleeps hpc hval
    · rw [if_neg hval]
      exact .leaves hpc hval
  next hpc =>
    cases h
    unfold futexWait
    by_cases hval : s.futexVal = 0
    · rw [if_pos hval]
      exact .queues hpc hval
    · rw [if_neg hval]
      exact .refused hpc hval
  next => cases h
  next r hpc =>
    cases h
    exact .again hpc
  next hpc =>
    cases h
    exact .prints hpc
  next => cases h

theorem next_cases (h : next count s a = some s') : Step count s a s' := by
  cases a with
  | sleeper t => exact sleeper_cases h
  | returns t r =>
      obtain ⟨hpc, heq⟩ := Option.ite_none_right_eq_some.mp h
      cases heq
      exact .returns hpc
  | store =>
      obtain ⟨hpc, heq⟩ := Option.ite_none_right_eq_some.mp h
      cases heq
      exact .stores hpc
  | wake woken =>
      obtain ⟨hpc, hwake⟩ := Option.ite_none_right_eq_some.mp h
      obtain ⟨⟨hqueued, hcard⟩, heq⟩ := Option.ite_none_right_eq_some.mp hwake
      cases heq
      exact .wakes hpc hqueued hcard

/-! ## Invariant -/

/-- The sleeper has not left its loop. -/
def SleeperPc.InLoop : SleeperPc → Prop
  | .test | .wait | .queued | .waited _ => True
  | .print | .returned _ => False

/-- What a sleeper that has left its loop prints. -/
def SleeperPc.Printed : SleeperPc → Prop
  | .returned printed => printed = 1
  | _ => True

/-- `futex_wake` has returned. -/
def Awake (s : State T) : Prop := ∃ n, s.waker = .woken n

structure FutexInv (s : State T) : Prop where
  before : s.waker = .store → s.futexVal = 0 ∧ ∀ t, (s.sleeper t).InLoop
  after : s.waker ≠ .store → s.futexVal = 1
  drained : Awake s → ∀ t, s.sleeper t ≠ .queued
  printed : ∀ t, (s.sleeper t).Printed

omit [DecidableEq T] [Fintype T] in
theorem FutexInv.init : FutexInv (initState : State T) := by
  refine ⟨fun _ => ⟨rfl, fun _ => trivial⟩, fun h => (h rfl).elim, ?_, fun _ => trivial⟩
  rintro ⟨n, hwoken⟩
  cases hwoken

omit [DecidableEq T] [Fintype T] in
theorem FutexInv.stored (h : FutexInv s) (hval : s.futexVal ≠ 0) : s.waker ≠ .store :=
  fun hpc => hval (h.before hpc).1

omit [Fintype T] in
/-- A step of one sleeper: it leaves its loop and is queued only as the word allows. -/
theorem FutexInv.setPc (h : FutexInv s) {t : T} {pc : SleeperPc}
    (hleft : s.waker = .store → pc.InLoop) (hqueued : Awake s → pc ≠ .queued) (hprinted : pc.Printed) :
    FutexInv (s.setPc t pc) := by
  refine ⟨fun hpc => ⟨(h.before hpc).1, ?_⟩, h.after, fun hawake => ?_, ?_⟩
  · exact (Function.forall_update_iff s.sleeper fun _ pc => pc.InLoop).mpr
      ⟨hleft hpc, fun u _ => (h.before hpc).2 u⟩
  · exact (Function.forall_update_iff s.sleeper fun _ pc => pc ≠ .queued).mpr
      ⟨hqueued hawake, fun u _ => h.drained hawake u⟩
  · exact (Function.forall_update_iff s.sleeper fun _ pc => pc.Printed).mpr
      ⟨hprinted, fun u _ => h.printed u⟩

omit [DecidableEq T] in
/-- With a count of at least the number of sleepers the whole queue is woken. -/
theorem wakes_all (hcount : Fintype.card T ≤ count) {woken : Finset T} (hqueued : woken ⊆ s.queue)
    (hcard : woken.card = min count s.queue.card) : woken = s.queue := by
  have hle : s.queue.card ≤ count := (Finset.card_le_univ s.queue).trans hcount
  rw [Nat.min_eq_right hle] at hcard
  exact Finset.eq_of_subset_of_card_le hqueued hcard.ge

theorem FutexInv.wakes (h : FutexInv s) (hcount : Fintype.card T ≤ count) {woken : Finset T}
    (hpc : s.waker = .wake) (hqueued : woken ⊆ s.queue)
    (hcard : woken.card = min count s.queue.card) :
    FutexInv { s with
      sleeper := fun t => if t ∈ woken then .waited .woken else s.sleeper t
      waker := .woken woken.card } := by
  refine ⟨fun hstore => (by cases hstore), fun _ => h.after (by rw [hpc]; decide), ?_, ?_⟩
  · intro _ t
    by_cases ht : t ∈ woken
    · simp [ht]
    · have hnot : s.sleeper t ≠ .queued := by
        rw [wakes_all hcount hqueued hcard] at ht
        simpa [State.queue] using ht
      simpa [ht] using hnot
  · intro t
    by_cases ht : t ∈ woken
    · simp [ht, SleeperPc.Printed]
    · simpa [ht] using h.printed t

theorem FutexInv.step (h : FutexInv s) (hcount : Fintype.card T ≤ count)
    (hstep : Step count s a s') : FutexInv s' := by
  have hnotStore : Awake s → s.waker ≠ .store := by
    rintro ⟨n, hwoken⟩
    simp [hwoken]
  cases hstep with
  | sleeps hpc hval => exact h.setPc (fun _ => trivial) (fun _ => by simp) trivial
  | leaves hpc hval => exact h.setPc (fun hstore => (h.stored hval hstore).elim) (fun _ => by simp) trivial
  | queues hpc hval =>
      refine h.setPc (fun _ => trivial) (fun hawake => ?_) trivial
      rw [h.after (hnotStore hawake)] at hval
      cases hval
  | refused hpc hval => exact h.setPc (fun _ => trivial) (fun _ => by simp) trivial
  | again hpc => exact h.setPc (fun _ => trivial) (fun _ => by simp) trivial
  | @prints t hpc =>
      have hstored : s.waker ≠ .store := by
        intro hstore
        have hin := (h.before hstore).2 t
        rw [hpc] at hin
        exact hin
      exact h.setPc (fun hstore => (hstored hstore).elim) (fun _ => by simp) (h.after hstored)
  | returns hpc => exact h.setPc (fun _ => trivial) (fun _ => by simp) trivial
  | stores hpc =>
      refine ⟨fun hstore => (by cases hstore), fun _ => rfl, ?_, h.printed⟩
      rintro ⟨n, hwoken⟩
      cases hwoken
  | wakes hpc hqueued hcard => exact h.wakes hcount hpc hqueued hcard

theorem FutexInv.of_reachable (hcount : Fintype.card T ≤ count) (h : (system count).Reachable s) :
    FutexInv s := by
  apply h.invariant
  · intro s₀ hinit
    rw [hinit]
    exact FutexInv.init
  · intro s₁ a s₂ hinv hnext
    exact hinv.step hcount (next_cases hnext)

theorem Awake.step (h : Awake s) (hstep : Step count s a s') : Awake s' := by
  obtain ⟨n, hwoken⟩ := h
  cases hstep with
  | stores hpc | wakes hpc =>
      rw [hwoken] at hpc
      cases hpc
  | _ => exact ⟨n, hwoken⟩

/-! ## After the wake -/

def SleeperPc.Returned (pc : SleeperPc) : Prop := ∃ v, pc = .returned v

/-- A sleeper that has not returned and is not queued moves by itself. -/
theorem sleeper_moves (count : Nat) {t : T} (hqueued : s.sleeper t ≠ .queued) (ht : ¬ (s.sleeper t).Returned) :
    (next count s (.sleeper t)).isSome := by
  show (sleeper s t).isSome
  unfold sleeper
  cases hpc : s.sleeper t with
  | queued => exact (hqueued hpc).elim
  | returned v => exact (ht ⟨v, hpc⟩).elim
  | _ => rfl

/-- No sleeper leaves its loop before the store; once `futex_wake` has returned
none is queued, then or later, and each that has not returned can move. -/
theorem no_wakeup_lost (hcount : Fintype.card T ≤ count) (h : (system count).Reachable s) :
    (s.waker = .store → ∀ t, (s.sleeper t).InLoop) ∧
      (Awake s →
        (∀ s', (system count).Leads s s' → Awake s' ∧ ∀ t, s'.sleeper t ≠ .queued) ∧
        ∀ t, ¬ (s.sleeper t).Returned → ((system count).next s (.sleeper t)).isSome) := by
  have hinv := FutexInv.of_reachable hcount h
  refine ⟨fun hstore => (hinv.before hstore).2, fun hawake => ⟨?_, ?_⟩⟩
  · rintro s' ⟨ts, hruns⟩
    have hboth : FutexInv s' ∧ Awake s' := by
      apply hruns.invariant (I := fun s => FutexInv s ∧ Awake s)
      · rintro s₁ a s₂ ⟨hinv₁, hawake₁⟩ hnext
        have hstep := next_cases hnext
        exact ⟨hinv₁.step hcount hstep, hawake₁.step hstep⟩
      · exact ⟨hinv, hawake⟩
    exact ⟨hboth.2, hboth.1.drained hboth.2⟩
  · intro t ht
    exact sleeper_moves count (hinv.drained hawake t) ht

theorem no_wakeup_lost_one_sleeper :
    ∃ s : State (Fin 1), (system 1).Reachable s ∧ Awake s ∧ (∀ t, s.sleeper t ≠ .queued) ∧
      ((system 1).next s (.sleeper 0)).isSome := by
  have htrace : (system 1).trace (initState : State (Fin 1))
      [.sleeper 0, .sleeper 0, .store, .wake {0}] = some (_, _) := rfl
  have hreach : (system 1).Reachable _ := ⟨_, _, rfl, .of_trace htrace⟩
  obtain ⟨hnever, hmoves⟩ := (no_wakeup_lost (by decide) hreach).2 ⟨1, rfl⟩
  refine ⟨_, hreach, ⟨1, rfl⟩, (hnever _ (.refl _)).2, hmoves 0 ?_⟩
  rintro ⟨v, hreturned⟩
  cases hreturned

/-- How many steps a sleeper is away from its return once the word is 1. -/
def SleeperPc.remaining : SleeperPc → Nat
  | .queued => 5
  | .wait => 4
  | .waited _ => 3
  | .test => 2
  | .print => 1
  | .returned _ => 0

theorem Step.remaining_lt (h : FutexInv s) (hawake : Awake s) (hstep : Step count s a s') :
    total SleeperPc.remaining s'.sleeper < total SleeperPc.remaining s.sleeper := by
  obtain ⟨n, hwoken⟩ := hawake
  have hone : s.futexVal = 1 := h.after (by simp [hwoken])
  cases hstep with
  | sleeps hpc hval | queues hpc hval =>
      rw [hone] at hval
      cases hval
  | leaves hpc hval | refused hpc hval =>
      apply total_update_lt
      rw [hpc]
      decide
  | again hpc | prints hpc =>
      apply total_update_lt
      rw [hpc]
      exact Nat.lt_succ_self _
  | returns hpc =>
      apply total_update_lt
      rcases hpc with hpc | hpc <;> rw [hpc] <;> simp [SleeperPc.remaining]
  | stores hpc | wakes hpc =>
      rw [hwoken] at hpc
      cases hpc

/-- After the wake every sleeper returns at last, whatever its waits return. -/
theorem sleepers_return (hcount : Fintype.card T ≤ count) (h : (system count).Reachable s)
    (hawake : Awake s) : (system count).Inevitable (fun s => ∀ t, (s.sleeper t).Returned) s := by
  apply Lts.Inevitable.of_measure (I := fun s => FutexInv s ∧ Awake s)
    fun s => total SleeperPc.remaining s.sleeper
  · rintro s₁ ⟨hinv, hawake₁⟩
    by_cases hall : ∀ t, (s₁.sleeper t).Returned
    · exact .inl hall
    · obtain ⟨t, ht⟩ := not_forall.mp hall
      exact .inr (Lts.enabled_of_isSome (.sleeper t)
        (sleeper_moves count (hinv.drained hawake₁ t) ht))
  · rintro s₁ a s₂ ⟨hinv, hawake₁⟩ hnext
    have hstep := next_cases hnext
    exact ⟨⟨hinv.step hcount hstep, hawake₁.step hstep⟩, hstep.remaining_lt hinv hawake₁⟩
  · exact ⟨FutexInv.of_reachable hcount h, hawake⟩

/-! ## Fewer wakes than sleepers -/

/-- Everybody can be in the queue before the store. -/
theorem leads_queued (count : Nat) (ts : Finset T) :
    (system count).Leads initState
      ⟨0, fun t => if t ∈ ts then .queued else .test, .store⟩ := by
  induction ts using Finset.induction_on with
  | empty => exact .refl _
  | insert t ts ht ih =>
      apply ih.trans
      apply Lts.Leads.trans (Lts.Leads.single (a := .sleeper t) (by simp [system, next, sleeper, ht]; rfl))
      apply Lts.Leads.single (a := .sleeper t)
      simp [system, next, sleeper, futexWait, State.setPc]
      funext t'
      by_cases heq : t' = t <;> simp [heq]

/-- After the wake a sleeper in the queue stays there until its wait returns by itself. -/
theorem Step.queued {t : T} (hstep : Step count s a s') (hawake : Awake s)
    (ht : s.sleeper t = .queued) (hreturns : ∀ r, a ≠ .returns t r) : s'.sleeper t = .queued := by
  obtain ⟨n, hwoken⟩ := hawake
  cases hstep with
  | stores hpc | wakes hpc =>
      rw [hwoken] at hpc
      cases hpc
  | @returns t' r hpc =>
      have hne : t ≠ t' := fun heq => hreturns r (heq ▸ rfl)
      rw [← ht]
      exact Function.update_of_ne hne _ _
  | @sleeps t' hpc | @leaves t' hpc | @queues t' hpc | @refused t' hpc | @again t' r hpc
  | @prints t' hpc =>
      have hne : t ≠ t' := by
        rintro rfl
        rw [ht] at hpc
        cases hpc
      rw [← ht]
      exact Function.update_of_ne hne _ _

theorem stays_queued {t : T} {ts : List (Transition (State T) (Action T))}
    (hruns : (system count).RunsTo s ts s') (hawake : Awake s) (ht : s.sleeper t = .queued)
    (hreturns : ∀ x ∈ ts, ∀ r, x.action ≠ .returns t r) : s'.sleeper t = .queued := by
  have hboth : Awake s' ∧ s'.sleeper t = .queued := by
    apply hruns.history_of (P := fun x => ∀ r, x.action ≠ .returns t r)
      (I := fun _ s => Awake s ∧ s.sleeper t = .queued) ⟨hawake, ht⟩ _ hreturns
    intro ts₁ s₁ a s₂ ⟨hawake₁, ht₁⟩ hnext hne
    have hstep := next_cases hnext
    exact ⟨hawake₁.step hstep, hstep.queued hawake₁ ht₁ hne⟩
  exact hboth.2

end Model

end OsLabs.SyncPrimitives
