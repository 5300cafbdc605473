import OsLabs.CondVar.Model

/-! # Steps of the bounded buffer, mutual exclusion, and threads that are stuck -/

namespace OsLabs.CondVar

/-- The thread is between a lock and the next unlock or wait. -/
def Pc.holds : Pc → Bool
  | .prodTest _ | .prodStore _ | .prodSignal | .prodUnlock => true
  | .consTest | .consCheck | .consFail | .consTake | .consSignal _ | .consUnlock _ => true
  | .finSet | .finBroadcast | .finUnlock => true
  | .idle | .prodLock _ | .prodWait _ | .consLock | .consWait | .finLock => false

def Pc.asleep (p : Pc) : Bool := p.waitsNotFull || p.waitsNotEmpty

section Model

variable {T L : Type} [DecidableEq T] {client : Client L} {bufSize : Nat}
  {s s' : State T L}

/-- Taking the mutex, at the start of a call or after a wait. -/
inductive Locks : Pc → Pc → Prop
  | produce (val : Int) : Locks (.prodLock val) (.prodTest val)
  | consume : Locks .consLock .consTest
  | finish : Locks .finLock .finSet

/-- The effect of a signal: one waiter is woken, or there is none. -/
inductive Signals (s : State T L) (waits : Pc → Bool) : State T L → Prop
  | woken {w : T} (hw : waits (s.pc w) = true) : Signals s waits (s.setPc w (s.pc w).wake)
  | nobody (h : ∀ w, waits (s.pc w) = false) : Signals s waits s

inductive Step (client : Client L) (bufSize : Nat) (s : State T L) : State T L → Prop
  | call {t : T} {op : Op} {l : L} (hpc : s.pc t = .idle) (h : client.call (s.loc t) op = some l) :
      Step client bufSize s
        { s.setPc t (Pc.entry op) with loc := Function.update s.loc t l }
  | lock {t : T} {p : Pc} (h : Locks (s.pc t) p) (howner : s.owner = none) :
      Step client bufSize s { s.setPc t p with owner := some t }
  | prodSleeps {t : T} {val : Int} (hpc : s.pc t = .prodTest val) (h : s.ring.count = bufSize) :
      Step client bufSize s (s.unlock t (.prodWait val))
  | prodGoes {t : T} {val : Int} (hpc : s.pc t = .prodTest val) (h : s.ring.count ≠ bufSize) :
      Step client bufSize s (s.setPc t (.prodStore val))
  | stores {t : T} {val : Int} (hpc : s.pc t = .prodStore val) :
      Step client bufSize s ({ s with ring := s.ring.store bufSize val }.setPc t .prodSignal)
  | prodSignals {t : T} {s₁ : State T L} (hpc : s.pc t = .prodSignal)
      (h : Signals s Pc.waitsNotEmpty s₁) : Step client bufSize s (s₁.setPc t .prodUnlock)
  | prodUnlocks {t : T} (hpc : s.pc t = .prodUnlock) : Step client bufSize s (s.unlock t .idle)
  | consSleeps {t : T} (hpc : s.pc t = .consTest) (hcount : s.ring.count = 0) (hdone : s.done = false) :
      Step client bufSize s (s.unlock t .consWait)
  | consGoes {t : T} (hpc : s.pc t = .consTest) (h : s.ring.count ≠ 0 ∨ s.done = true) :
      Step client bufSize s (s.setPc t .consCheck)
  | consNone {t : T} (hpc : s.pc t = .consCheck) (hcount : s.ring.count = 0) (hdone : s.done = true) :
      Step client bufSize s (s.setPc t .consFail)
  | consSome {t : T} (hpc : s.pc t = .consCheck) (h : s.ring.count ≠ 0 ∨ s.done = false) :
      Step client bufSize s (s.setPc t .consTake)
  | takes {t : T} (hpc : s.pc t = .consTake) :
      Step client bufSize s
        ({ s with ring := s.ring.take bufSize }.setPc t (.consSignal s.ring.front))
  | consSignals {t : T} {val : Int} {s₁ : State T L} (hpc : s.pc t = .consSignal val)
      (h : Signals s Pc.waitsNotFull s₁) : Step client bufSize s (s₁.setPc t (.consUnlock val))
  | consReturns {t : T} {val : Int} (hpc : s.pc t = .consUnlock val) :
      Step client bufSize s ((s.returns client t val).unlock t .idle)
  | consFails {t : T} (hpc : s.pc t = .consFail) :
      Step client bufSize s ((s.returns client t (-1)).unlock t .idle)
  | finSets {t : T} (hpc : s.pc t = .finSet) :
      Step client bufSize s ({ s with done := true }.setPc t .finBroadcast)
  | finBroadcasts {t : T} (hpc : s.pc t = .finBroadcast) :
      Step client bufSize s (s.broadcast.setPc t .finUnlock)
  | finUnlocks {t : T} (hpc : s.pc t = .finUnlock) : Step client bufSize s (s.unlock t .idle)
  | spurious {t : T} (h : (s.pc t).waitsNotFull = true ∨ (s.pc t).waitsNotEmpty = true) :
      Step client bufSize s (s.setPc t (s.pc t).wake)

theorem Locks.holds {p q : Pc} (h : Locks p q) : q.holds = true := by
  cases h <;> rfl

theorem lock_cases {t : T} {p : Pc} (hlocks : Locks (s.pc t) p) (h : s.lock t p = some s') :
    Step client bufSize s s' := by
  unfold State.lock at h
  split at h
  next howner =>
    cases h
    exact .lock hlocks howner
  next => cases h

theorem runNext_cases {t : T} (h : runNext client bufSize s t = some s') :
    Step client bufSize s s' := by
  unfold runNext at h
  split at h
  next val hpc => exact lock_cases (hpc ▸ .produce val) h
  next val hpc =>
    split at h
    next hfull =>
      cases h
      exact .prodSleeps hpc hfull
    next hroom =>
      cases h
      exact .prodGoes hpc hroom
  next val hpc =>
    cases h
    exact .stores hpc
  next hpc =>
    cases h
    exact .prodUnlocks hpc
  next hpc => exact lock_cases (hpc ▸ .consume) h
  next hpc =>
    split at h
    next hempty =>
      cases h
      exact .consSleeps hpc hempty.1 hempty.2
    next hgo =>
      cases h
      apply Step.consGoes hpc
      rwa [not_and_or, Bool.not_eq_false] at hgo
  next hpc =>
    split at h
    next hempty =>
      cases h
      exact .consNone hpc hempty.1 hempty.2
    next hgo =>
      cases h
      apply Step.consSome hpc
      rwa [not_and_or, Bool.not_eq_true] at hgo
  next hpc =>
    cases h
    exact .consFails hpc
  next hpc =>
    cases h
    exact .takes hpc
  next val hpc =>
    cases h
    exact .consReturns hpc
  next hpc => exact lock_cases (hpc ▸ .finish) h
  next hpc =>
    cases h
    exact .finSets hpc
  next hpc =>
    cases h
    exact .finBroadcasts hpc
  next hpc =>
    cases h
    exact .finUnlocks hpc
  all_goals cases h

theorem signal_cases [Fintype T] {waits : Pc → Bool} {woken : Option T} (h : s.signal waits woken = some s') :
    Signals s waits s' := by
  cases woken with
  | some w =>
      simp only [State.signal] at h
      split at h
      next hw =>
        cases h
        exact .woken hw
      next => cases h
  | none =>
      simp only [State.signal] at h
      split at h
      next hnobody =>
        cases h
        exact .nobody hnobody
      next => cases h

/-- Every step of the system is one of `Step`. -/
theorem next_cases [Fintype T] {a : Act T} (h : next client bufSize s a = some s') :
    Step client bufSize s s' := by
  cases a with
  | call t op =>
      simp only [next, callNext] at h
      split at h
      next hpc =>
        rcases Option.map_eq_some_iff.mp h with ⟨l, hcall, rfl⟩
        exact .call hpc hcall
      next => cases h
  | run t => exact runNext_cases h
  | signal t woken =>
      simp only [next, signalNext] at h
      split at h
      next hpc =>
        rcases Option.map_eq_some_iff.mp h with ⟨s₁, hsignal, rfl⟩
        exact .prodSignals hpc (signal_cases hsignal)
      next val hpc =>
        rcases Option.map_eq_some_iff.mp h with ⟨s₁, hsignal, rfl⟩
        exact .consSignals hpc (signal_cases hsignal)
      next => cases h
  | spurious t =>
      simp only [next] at h
      split at h
      next hwaits =>
        cases h
        exact .spurious (by simpa using hwaits)
      next => cases h

/-! ## Mutual exclusion -/

def Exclusive (s : State T L) : Prop := ∀ t, (s.pc t).holds = true ↔ s.owner = some t

omit [DecidableEq T] in
theorem Exclusive.unique (h : Exclusive s) {t u : T} (ht : (s.pc t).holds = true)
    (hu : (s.pc u).holds = true) : u = t := by
  rw [h] at ht hu
  exact Option.some.inj (hu.symm.trans ht)

omit [DecidableEq T] in
/-- While one thread holds the mutex the others do not. -/
theorem Exclusive.other (h : Exclusive s) {t : T} (ht : (s.pc t).holds = true) {u : T}
    (hu : u ≠ t) : (s.pc u).holds = false := by
  rw [Bool.eq_false_iff]
  exact fun hheld => hu (h.unique ht hheld)

/-- A step in which a thread keeps the mutex, or stays without it. -/
theorem Exclusive.setPc (h : Exclusive s) {t : T} {p : Pc} (hp : p.holds = (s.pc t).holds) :
    Exclusive (s.setPc t p) := by
  intro u
  have hu := h u
  by_cases hut : u = t
  · subst hut
    simpa [State.setPc, hp] using hu
  · simpa [State.setPc, hut] using hu

theorem Exclusive.unlock (h : Exclusive s) {t : T} {p : Pc} (ht : (s.pc t).holds = true)
    (hp : p.holds = false) : Exclusive (s.unlock t p) := by
  intro u
  by_cases hut : u = t
  · simp [State.unlock, State.setPc, hut, hp]
  · simp [State.unlock, State.setPc, hut, h.other ht hut]

theorem Exclusive.lock (h : Exclusive s) {t : T} {p : Pc} (howner : s.owner = none)
    (hp : p.holds = true) : Exclusive { s.setPc t p with owner := some t } := by
  intro u
  by_cases hut : u = t
  · simp [State.setPc, hut, hp]
  · have hu := h u
    rw [howner] at hu
    simp [State.setPc, hut, Ne.symm hut, hu]

theorem holds_wake (p : Pc) : p.wake.holds = p.holds := by
  cases p <;> rfl

theorem Exclusive.signals (h : Exclusive s) {waits : Pc → Bool} (hsignals : Signals s waits s') :
    Exclusive s' := by
  cases hsignals with
  | woken _ => exact h.setPc (holds_wake _)
  | nobody _ => exact h

/-- The signalling thread is not woken. -/
theorem Signals.pc_self {waits : Pc → Bool} (hsignals : Signals s waits s') {t : T}
    (ht : waits (s.pc t) = false) : s'.pc t = s.pc t := by
  cases hsignals with
  | @woken w hw =>
      have htw : t ≠ w := by
        intro heq
        rw [heq, hw] at ht
        cases ht
      simp [State.setPc, htw]
  | nobody _ => rfl

theorem Exclusive.step (h : Exclusive s) (hstep : Step client bufSize s s') : Exclusive s' := by
  cases hstep with
  | @call t op l hpc _ =>
      have hidle : Exclusive (s.setPc t (Pc.entry op)) := h.setPc (by cases op <;> rw [hpc] <;> rfl)
      exact hidle
  | lock hlocks howner => exact h.lock howner hlocks.holds
  | prodSleeps hpc _ => exact h.unlock (by rw [hpc]; rfl) rfl
  | prodGoes hpc _ => exact h.setPc (by rw [hpc]; rfl)
  | @stores t val hpc =>
      have hstore : Exclusive { s with ring := s.ring.store bufSize val } := h
      exact hstore.setPc (by rw [hpc]; rfl)
  | @prodSignals t s₁ hpc hsignals =>
      have hself := hsignals.pc_self (t := t) (by rw [hpc]; rfl)
      exact (h.signals hsignals).setPc (by rw [hself, hpc]; rfl)
  | prodUnlocks hpc => exact h.unlock (by rw [hpc]; rfl) rfl
  | consSleeps hpc _ _ => exact h.unlock (by rw [hpc]; rfl) rfl
  | consGoes hpc _ => exact h.setPc (by rw [hpc]; rfl)
  | consNone hpc _ _ => exact h.setPc (by rw [hpc]; rfl)
  | consSome hpc _ => exact h.setPc (by rw [hpc]; rfl)
  | @takes t hpc =>
      have htake : Exclusive { s with ring := s.ring.take bufSize } := h
      exact htake.setPc (by rw [hpc]; rfl)
  | @consSignals t val s₁ hpc hsignals =>
      have hself := hsignals.pc_self (t := t) (by rw [hpc]; rfl)
      exact (h.signals hsignals).setPc (by rw [hself, hpc]; rfl)
  | @consReturns t val hpc =>
      have hreturns : Exclusive (s.returns client t val) := h
      exact hreturns.unlock (by rw [State.returns, hpc]; rfl) rfl
  | @consFails t hpc =>
      have hreturns : Exclusive (s.returns client t (-1)) := h
      exact hreturns.unlock (by rw [State.returns, hpc]; rfl) rfl
  | @finSets t hpc =>
      have hset : Exclusive { s with done := true } := h
      exact hset.setPc (by rw [hpc]; rfl)
  | @finBroadcasts t hpc =>
      have hbroadcast : Exclusive s.broadcast := by
        intro u
        have hu := h u
        by_cases hw : (s.pc u).waitsNotEmpty = true
        · simpa [State.broadcast, hw, holds_wake] using hu
        · simpa [State.broadcast, hw] using hu
      exact hbroadcast.setPc (by simp [State.broadcast, hpc, Pc.waitsNotEmpty, Pc.holds])
  | finUnlocks hpc => exact h.unlock (by rw [hpc]; rfl) rfl
  | spurious _ => exact h.setPc (holds_wake _)

omit [DecidableEq T] in
theorem Exclusive.init (loc : T → L) : Exclusive (initState loc) := by
  intro t
  simp [initState, Pc.holds]

/-! ## Threads that are stuck -/

def Act.isSpurious {T : Type} : Act T → Bool
  | .spurious _ => true
  | _ => false

variable [Fintype T]

variable (client bufSize) in
/-- Some step other than a spurious wakeup is possible. -/
def Moves (s : State T L) : Prop :=
  ∃ a s', a.isSpurious = false ∧ next client bufSize s a = some s'

theorem moves_of_isSome {a : Act T} (ha : a.isSpurious = false)
    (h : (next client bufSize s a).isSome) : Moves client bufSize s :=
  ⟨a, _, ha, (Option.some_get h).symm⟩

/-- A signal can always be sent. -/
theorem moves_of_signals {t : T} (waits : Pc → Bool) {p : Pc}
    (h : ∀ woken, signalNext s t woken = (s.signal waits woken).map fun s' => s'.setPc t p) :
    Moves client bufSize s := by
  by_cases hwaiter : ∃ w, waits (s.pc w) = true
  · obtain ⟨w, hw⟩ := hwaiter
    apply moves_of_isSome (a := .signal t (some w)) rfl
    simp [next, h, State.signal, hw]
  · have hnobody : ∀ w, waits (s.pc w) = false := by simpa using hwaiter
    apply moves_of_isSome (a := .signal t none) rfl
    simp [next, h, State.signal, hnobody]

theorem moves_of_holds {t : T} (ht : (s.pc t).holds = true) : Moves client bufSize s := by
  have hrun : (runNext client bufSize s t).isSome → Moves client bufSize s :=
    fun hsome => moves_of_isSome (a := .run t) rfl hsome
  cases hpc : s.pc t with
  | prodSignal =>
      exact moves_of_signals Pc.waitsNotEmpty (t := t) (p := .prodUnlock) fun woken => by
        simp [signalNext, hpc]
  | consSignal val =>
      exact moves_of_signals Pc.waitsNotFull (t := t) (p := .consUnlock val)
        fun woken => by simp [signalNext, hpc]
  | prodTest _ | consTest | consCheck =>
      apply hrun
      simp only [runNext, hpc]
      split <;> rfl
  | prodStore _ | prodUnlock | consFail | consTake | consUnlock _ | finSet | finBroadcast | finUnlock =>
      apply hrun
      simp [runNext, hpc]
  | idle | prodLock _ | prodWait _ | consLock | consWait | finLock =>
      rw [hpc] at ht
      cases ht

theorem Exclusive.owner_eq_none (h : Exclusive s) (hstuck : ¬ Moves client bufSize s) :
    s.owner = none := by
  cases howner : s.owner with
  | none => rfl
  | some t => exact (hstuck (moves_of_holds ((h t).mpr howner))).elim

/-- Where no thread can move, each sleeps or has nothing to call. -/
theorem Exclusive.stuck_thread (h : Exclusive s) (hstuck : ¬ Moves client bufSize s) (t : T) :
    (s.pc t = .idle ∧ ∀ op, client.call (s.loc t) op = none) ∨ (s.pc t).asleep = true := by
  have hfree := h.owner_eq_none hstuck
  have ht : (s.pc t).holds = false := by
    rw [Bool.eq_false_iff]
    intro hholds
    rw [h, hfree] at hholds
    cases hholds
  have hlock : ∀ p q, s.pc t = p → Locks p q → False := by
    intro p q hpc hlocks
    apply hstuck
    apply moves_of_isSome (a := .run t) rfl
    cases hlocks <;> simp [next, runNext, hpc, State.lock, hfree]
  cases hpc : s.pc t with
  | idle =>
      left
      refine ⟨rfl, fun op => ?_⟩
      cases hcall : client.call (s.loc t) op with
      | none => rfl
      | some l =>
          exact (hstuck (moves_of_isSome (a := .call t op) rfl (by
            simp [next, callNext, hpc, hcall]))).elim
  | prodWait _ | consWait => exact .inr rfl
  | prodLock val => exact (hlock _ _ hpc (.produce val)).elim
  | consLock => exact (hlock _ _ hpc .consume).elim
  | finLock => exact (hlock _ _ hpc .finish).elim
  | _ =>
      rw [hpc] at ht
      cases ht

end Model

end OsLabs.CondVar
