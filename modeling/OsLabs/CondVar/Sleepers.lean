import OsLabs.Core.Threads
import OsLabs.CondVar.Progress

/-! # Sleepers of any program

The two condition variables under any number of threads that call `produce`,
`consume` and the end of `producer` as they like. While a thread sleeps on one of
them, what it waits for is no more than the threads that are awake or about to be
woken will use. So the threads get stuck only where there is nothing to wait for:
all sleepers wait for room in a full buffer, or all for an item of an empty one.
-/

namespace OsLabs.CondVar

open Threads

inductive Cond where
  | notFull
  | notEmpty
  deriving DecidableEq

namespace Cond

/-- The threads `pthread_cond_wait` has put to sleep. -/
def waits : Cond → Pc → Bool
  | .notFull => Pc.waitsNotFull
  | .notEmpty => Pc.waitsNotEmpty

/-- What there is to be used: room, or items. -/
def level (bufSize : Nat) : Cond → Ring → Int
  | .notFull, r => bufSize - r.count
  | .notEmpty, r => r.count

/-- The thread is awake and will use a piece of it, or will signal one more. -/
def duty : Cond → Pc → Nat
  | .notFull, .prodLock _ | .notFull, .prodTest _ | .notFull, .prodStore _ => 1
  | .notFull, .consSignal _ => 1
  | .notEmpty, .consLock | .notEmpty, .consTest | .notEmpty, .consCheck => 1
  | .notEmpty, .consTake | .notEmpty, .prodSignal => 1
  | _, _ => 0

end Cond

/-! ## What covers the sleepers -/

section Covered

variable {T : Type} [Fintype T] {cond : Cond} {level level' : Int} {pc : T → Pc}

/-- If a thread sleeps, the others see to all there is. -/
def Covered (cond : Cond) (level : Int) (pc : T → Pc) : Prop :=
  (∃ t, cond.waits (pc t) = true) → level ≤ total cond.duty pc

theorem Covered.of_nonpos (h : level ≤ 0) : Covered cond level pc :=
  fun _ => h.trans (Int.natCast_nonneg _)

theorem Covered.of_awake (h : ∀ t, cond.waits (pc t) = false) : Covered cond level pc := by
  rintro ⟨t, ht⟩
  rw [h t] at ht
  cases ht

variable [DecidableEq T]

theorem Covered.update (h : Covered cond level pc) {t : T} {p : Pc} (hp : cond.waits p = false)
    (hle : level' + cond.duty (pc t) ≤ level + cond.duty p) :
    Covered cond level' (Function.update pc t p) := by
  rintro ⟨u, hu⟩
  have hut : u ≠ t := by
    rintro rfl
    rw [Function.update_self, hp] at hu
    cases hu
  rw [Function.update_of_ne hut] at hu
  have hcovers := h ⟨u, hu⟩
  have htotal := total_update cond.duty pc t p
  omega

end Covered

theorem Pc.wake_awake (cond : Cond) (p : Pc) : cond.waits p.wake = false := by
  cases cond <;> cases p <;> rfl

theorem Pc.duty_wake (cond : Cond) (p : Pc) : cond.duty p ≤ cond.duty p.wake := by
  cases cond <;> cases p <;> simp [Cond.duty, Pc.wake]

theorem Pc.duty_wake_of_waits {cond : Cond} {p : Pc} (h : cond.waits p = true) :
    cond.duty p = 0 ∧ cond.duty p.wake = 1 := by
  cases cond <;> cases p <;> first | exact ⟨rfl, rfl⟩ | cases h

/-! ## Steps -/

section Model

variable {T L : Type} [Fintype T] {client : Client L} {bufSize : Nat} {s s' : State T L}

structure SleepInv (bufSize : Nat) (s : State T L) : Prop where
  covered : ∀ cond : Cond, Covered cond (cond.level bufSize s.ring) s.pc
  closed : s.done = true → (∃ t, s.pc t = .finBroadcast) ∨ ∀ t, (s.pc t).waitsNotEmpty = false

omit [Fintype T] in
theorem SleepInv.awake_init (loc : T → L) (cond : Cond) (t : T) :
    cond.waits ((initState loc).pc t) = false := by
  cases cond <;> rfl

theorem SleepInv.init (loc : T → L) : SleepInv bufSize (initState loc) where
  covered cond := Covered.of_awake (SleepInv.awake_init loc cond)
  closed h := by cases h

variable [DecidableEq T]

/-- A step of a thread that does not broadcast. It leaves no more to the others than
it found, or falls asleep with nothing left. -/
theorem SleepInv.move (h : SleepInv bufSize s) {t : T} {p : Pc}
    (hpc : s'.pc = Function.update s.pc t p) (hdone : s'.done = s.done)
    (ht : s.pc t ≠ .finBroadcast) (hclosed : s.done = true → p.waitsNotEmpty = false)
    (hcovers : ∀ cond : Cond, cond.level bufSize s'.ring ≤ 0 ∨ cond.waits p = false ∧
      cond.level bufSize s'.ring + cond.duty (s.pc t) ≤
        cond.level bufSize s.ring + cond.duty p) : SleepInv bufSize s' := by
  constructor
  · intro cond
    rw [hpc]
    rcases hcovers cond with hnothing | ⟨hawake, hle⟩
    · exact Covered.of_nonpos hnothing
    · exact (h.covered cond).update hawake hle
  · intro hd
    rw [hdone] at hd
    rw [hpc]
    rcases h.closed hd with ⟨u, hu⟩ | hawake
    · left
      have hut : u ≠ t := by
        rintro rfl
        exact ht hu
      exact ⟨u, by rw [Function.update_of_ne hut, hu]⟩
    · right
      exact (Function.forall_update_iff s.pc fun _ p => p.waitsNotEmpty = false).mpr
        ⟨hclosed hd, fun u _ => hawake u⟩

/-- The same for a step that leaves the ring as it is. -/
theorem SleepInv.frame (h : SleepInv bufSize s) {t : T} {p : Pc}
    (hpc : s'.pc = Function.update s.pc t p) (hring : s'.ring = s.ring) (hdone : s'.done = s.done)
    (ht : s.pc t ≠ .finBroadcast) (hp : ∀ cond : Cond, cond.waits p = false)
    (hduty : ∀ cond : Cond, cond.duty (s.pc t) ≤ cond.duty p) : SleepInv bufSize s' := by
  apply h.move hpc hdone ht (fun _ => hp .notEmpty)
  intro cond
  have hle := hduty cond
  refine .inr ⟨hp cond, ?_⟩
  rw [hring]
  omega

/-- A signal on `cond` leaves one more to be covered: the woken thread covers it, or
nobody sleeps. -/
theorem Covered.signals {cond cond' : Cond} {level : Int} (h : Covered cond level s.pc)
    (hsignals : Signals s cond'.waits s') :
    Covered cond (level + if cond = cond' then 1 else 0) s'.pc := by
  cases hsignals with
  | @woken w hw =>
      apply h.update (Pc.wake_awake cond _)
      by_cases hcond : cond = cond'
      · subst hcond
        obtain ⟨hzero, hone⟩ := Pc.duty_wake_of_waits hw
        simp [hzero, hone]
      · have hle := Pc.duty_wake cond (s.pc w)
        simp only [hcond, if_false]
        omega
  | nobody hnobody =>
      by_cases hcond : cond = cond'
      · subst hcond
        exact Covered.of_awake hnobody
      · simpa [hcond] using h

theorem SleepInv.signals (h : SleepInv bufSize s) (cond' : Cond) {t : T} {p : Pc}
    {s₁ : State T L} (hsignals : Signals s cond'.waits s₁) (ht : ∀ c : Cond, c.waits (s.pc t) = false)
    (hduty : ∀ cond : Cond, cond.duty (s.pc t) = if cond = cond' then 1 else 0)
    (hfin : s.pc t ≠ .finBroadcast) (hp : ∀ cond : Cond, cond.waits p = false) :
    SleepInv bufSize (s₁.setPc t p) := by
  have hself := hsignals.pc_self (ht cond')
  constructor
  · intro cond
    show Covered cond (cond.level bufSize s₁.ring) (Function.update s₁.pc t p)
    rw [hsignals.ring_eq]
    apply ((h.covered cond).signals hsignals).update (hp cond)
    have hone := hduty cond
    rw [hself]
    split at hone <;> simp [*]
  · intro hdone
    have hd : s.done = true := hsignals.done_eq ▸ hdone
    rcases h.closed hd with ⟨u, hu⟩ | hawake
    · left
      have hut : u ≠ t := by
        rintro rfl
        exact hfin hu
      have hwaits : cond'.waits (s.pc u) = false := by
        rw [hu]
        cases cond' <;> rfl
      exact ⟨u, by simp [State.setPc, hut, hsignals.pc_self hwaits, hu]⟩
    · right
      have hawake₁ : ∀ u, (s₁.pc u).waitsNotEmpty = false := by
        cases hsignals with
        | woken hw =>
            exact (Function.forall_update_iff s.pc fun _ p => p.waitsNotEmpty = false).mpr
              ⟨Pc.wake_awake .notEmpty _, fun u _ => hawake u⟩
        | nobody _ => exact hawake
      exact (Function.forall_update_iff s₁.pc fun _ p => p.waitsNotEmpty = false).mpr
        ⟨hp .notEmpty, fun u _ => hawake₁ u⟩

/-- `pthread_cond_broadcast(&not_empty)` leaves nobody asleep there. -/
theorem SleepInv.broadcasts (h : SleepInv bufSize s) {t : T} (hpc : s.pc t = .finBroadcast) :
    SleepInv bufSize (s.broadcast.setPc t .finUnlock) := by
  have hawake : ∀ u, ((s.broadcast.setPc t .finUnlock).pc u).waitsNotEmpty = false := by
    apply (Function.forall_update_iff s.broadcast.pc fun _ p => p.waitsNotEmpty = false).mpr
    refine ⟨rfl, fun u _ => ?_⟩
    by_cases hu : (s.pc u).waitsNotEmpty = true
    · simp only [State.broadcast, hu, if_true]
      exact Pc.wake_awake .notEmpty _
    · simp only [State.broadcast, if_neg hu]
      simpa using hu
  constructor
  · intro cond
    cases cond with
    | notEmpty => exact Covered.of_awake hawake
    | notFull =>
        have hbroadcast :
            Covered .notFull (Cond.notFull.level bufSize s.ring) s.broadcast.pc := by
          rintro ⟨u, hu⟩
          have hsame : ∀ v, Cond.notFull.duty (s.broadcast.pc v) = Cond.notFull.duty (s.pc v) := by
            intro v
            unfold State.broadcast
            cases hv : s.pc v <;> simp [hv, Pc.waitsNotEmpty, Pc.wake, Cond.duty]
          have htotal : total Cond.notFull.duty s.broadcast.pc = total Cond.notFull.duty s.pc :=
            Finset.sum_congr rfl fun v _ => hsame v
          rw [htotal]
          apply h.covered .notFull
          refine ⟨u, ?_⟩
          unfold State.broadcast at hu
          cases hv : s.pc u <;>
            simp_all [Pc.waitsNotEmpty, Pc.wake, Cond.waits, Pc.waitsNotFull]
        apply hbroadcast.update
        · rfl
        · simp [State.broadcast, hpc, Pc.waitsNotEmpty, Cond.duty, State.setPc]
  · intro _
    exact .inr hawake

theorem SleepInv.step (h : SleepInv bufSize s) (hstep : Step client bufSize s s') :
    SleepInv bufSize s' := by
  cases hstep with
  | @call t op l hpc _ =>
      refine h.frame rfl rfl rfl (by rw [hpc]; simp) (fun c => ?_) fun c => ?_
      · cases c <;> cases op <;> rfl
      · rw [hpc]
        cases c <;> exact Nat.zero_le _
  | @lock t p hlocks _ =>
      generalize hq : s.pc t = q at hlocks
      refine h.frame rfl rfl rfl ?_ (fun c => ?_) fun c => ?_
      · rw [hq]
        cases hlocks <;> simp
      · cases c <;> cases hlocks <;> rfl
      · rw [hq]
        cases c <;> cases hlocks <;> exact Nat.le_refl _
  | @prodSleeps t val hpc hfull =>
      refine h.move rfl rfl (by rw [hpc]; simp) (fun _ => rfl) fun c => ?_
      cases c with
      | notFull => exact .inl (by simp [Cond.level, State.unlock, State.setPc, hfull])
      | notEmpty => exact .inr ⟨rfl, by rw [hpc]; exact Int.le_refl _⟩
  | @consSleeps t hpc hcount hdone =>
      refine h.move rfl rfl (by rw [hpc]; simp) (fun hd => by rw [hdone] at hd; cases hd) fun c => ?_
      cases c with
      | notFull => exact .inr ⟨rfl, by rw [hpc]; exact Int.le_refl _⟩
      | notEmpty => exact .inl (by simp [Cond.level, State.unlock, State.setPc, hcount])
  | @stores t val hpc =>
      refine h.move rfl rfl (by rw [hpc]; simp) (fun _ => rfl) fun c => .inr ⟨?_, ?_⟩
      · cases c <;> rfl
      · rw [hpc]
        cases c <;> simp only [Cond.level, Cond.duty, State.setPc, Ring.store] <;> omega
  | @takes t hpc =>
      refine h.move rfl rfl (by rw [hpc]; simp) (fun _ => rfl) fun c => .inr ⟨?_, ?_⟩
      · cases c <;> rfl
      · rw [hpc]
        cases c <;> simp only [Cond.level, Cond.duty, State.setPc, Ring.take] <;> omega
  | @consNone t hpc hcount hdone =>
      refine h.move rfl rfl (by rw [hpc]; simp) (fun _ => rfl) fun c => ?_
      cases c with
      | notFull => exact .inr ⟨rfl, by rw [hpc]; exact Int.le_refl _⟩
      | notEmpty => exact .inl (by simp [Cond.level, State.setPc, hcount])
  | prodSignals hpc hsignals =>
      refine h.signals .notEmpty hsignals (fun c => ?_) (fun c => ?_) ?_ fun c => ?_
      · rw [hpc]
        cases c <;> rfl
      · rw [hpc]
        cases c <;> rfl
      · rw [hpc]
        simp
      · cases c <;> rfl
  | consSignals hpc hsignals =>
      refine h.signals .notFull hsignals (fun c => ?_) (fun c => ?_) ?_ fun c => ?_
      · rw [hpc]
        cases c <;> rfl
      · rw [hpc]
        cases c <;> rfl
      · rw [hpc]
        simp
      · cases c <;> rfl
  | @finSets t hpc =>
      refine ⟨fun c => ?_, fun _ => .inl ⟨t, by simp [State.setPc]⟩⟩
      apply (h.covered c).update
      · cases c <;> rfl
      · simp only [hpc, State.setPc]
        cases c <;> exact Int.le_refl _
  | finBroadcasts hpc => exact h.broadcasts hpc
  | @spurious t _ =>
      refine h.frame rfl rfl rfl ?_ (fun c => Pc.wake_awake c _) fun c => Pc.duty_wake c _
      intro hfin
      simp_all [Pc.waitsNotFull, Pc.waitsNotEmpty]
  | prodGoes hpc _ | prodUnlocks hpc | consGoes hpc _ | consSome hpc _ | consReturns hpc
  | consFails hpc | finUnlocks hpc =>
      refine h.frame rfl rfl rfl (by rw [hpc]; simp) (fun c => ?_) fun c => ?_
      · cases c <;> rfl
      · rw [hpc]
        cases c <;> exact Nat.le_refl _

/-! ## Threads that are stuck -/

/-- What a thread is doing where no thread can move. -/
def Settled (client : Client L) (bufSize : Nat) (s : State T L) (t : T) : Prop :=
  (s.pc t = .idle ∧ ∀ op, client.call (s.loc t) op = none) ∨
  ((s.pc t).waitsNotFull = true ∧ s.ring.count = bufSize) ∨
  ((s.pc t).waitsNotEmpty = true ∧ s.ring.count = 0 ∧ s.done = false)

theorem SleepInv.settled (hbuf : BufferInv bufSize s) (h : SleepInv bufSize s)
    (hstuck : ¬ Moves client bufSize s) (t : T) : Settled client bufSize s t := by
  have hfree := hbuf.exclusive.owner_eq_none hstuck
  have hthread := hbuf.exclusive.stuck_thread hstuck
  have hnone : ∀ cond : Cond, total cond.duty s.pc = 0 := by
    intro cond
    rw [total_const (n := 0), Nat.mul_zero]
    intro u
    rcases hthread u with ⟨hidle, _⟩ | hasleep
    · rw [hidle]
      cases cond <;> rfl
    · cases hpc : s.pc u <;> rw [hpc] at hasleep <;> cases hasleep <;> cases cond <;> rfl
  have hlevel : ∀ cond : Cond, cond.waits (s.pc t) = true → cond.level bufSize s.ring ≤ 0 := by
    intro cond hwaits
    have hle := h.covered cond ⟨t, hwaits⟩
    rw [hnone cond] at hle
    exact hle
  have hring := hbuf.ring
  rcases hthread t with hidle | hasleep
  · exact .inl hidle
  · rcases Bool.or_eq_true_iff.mp hasleep with hfull | hempty
    · have hle : (bufSize : Int) - s.ring.count ≤ 0 := hlevel .notFull hfull
      have hmost := hring.count_le
      exact .inr (.inl ⟨hfull, by omega⟩)
    · have hle : s.ring.count ≤ 0 := hlevel .notEmpty hempty
      have hleast := hring.count_nonneg
      refine .inr (.inr ⟨hempty, by omega, ?_⟩)
      rw [Bool.eq_false_iff]
      intro hdone
      rcases h.closed hdone with ⟨u, hu⟩ | hawake
      · have hholds : (s.pc u).holds = true := by rw [hu]; rfl
        rw [hbuf.exclusive, hfree] at hholds
        cases hholds
      · rw [hawake t] at hempty
        cases hempty

end Model

/-- For every program of every number of threads: while a thread sleeps for an item
(or for room), there are no more of them than threads that are awake to use one or
about to signal one; so in a state where nothing can move but by a spurious wakeup, a
thread that has not finished its program sleeps for room in a full buffer, or for an
item of an empty one that no `finish` has closed. -/
theorem sleepers_have_cause {T L : Type} [Fintype T] [DecidableEq T] {client : Client L}
    {bufSize : Nat} (hpos : 0 < bufSize) {loc : T → L} {s : State T L}
    (h : (system client bufSize loc).Reachable s) :
    (∀ cond : Cond, Covered cond (cond.level bufSize s.ring) s.pc) ∧
      (Moves client bufSize s ∨ ∀ t, Settled client bufSize s t) := by
  have hinv : BufferInv bufSize s ∧ SleepInv bufSize s := by
    apply h.invariant (I := fun s => BufferInv bufSize s ∧ SleepInv bufSize s)
    · intro s₀ hinit
      rw [show s₀ = initState loc from hinit]
      exact ⟨.init hpos loc, .init loc⟩
    · intro s₁ a s₂ hinv hnext
      exact ⟨hinv.1.step (next_cases hnext), hinv.2.step (next_cases hnext)⟩
  refine ⟨hinv.2.covered, ?_⟩
  by_cases hmoves : Moves client bufSize s
  · exact .inl hmoves
  · exact .inr fun t => hinv.2.settled hinv.1 hmoves t

/-- An item is stored while a thread sleeps. -/
def storesForSleeper : List (Act Bool) :=
  [.call true .consume, .run true, .run true, .call false (.produce 5), .run false, .run false,
    .run false]

theorem sleepers_have_cause_one_item :
    ∃ s : State Bool Unit, (system anyCalls 1 fun _ => ()).Reachable s ∧ s.pc true = .consWait ∧
      s.ring.count = 1 ∧ ∀ cond : Cond, Covered cond (cond.level 1 s.ring) s.pc := by
  have htrace : (system anyCalls 1 fun _ => ()).trace (initState fun _ : Bool => ())
      storesForSleeper = some (_, _) := rfl
  have hreach : (system anyCalls 1 fun _ => ()).Reachable _ :=
    ⟨_, _, rfl, Lts.RunsTo.of_trace htrace⟩
  exact ⟨_, hreach, rfl, rfl, (sleepers_have_cause (by decide) hreach).1⟩

end OsLabs.CondVar
