import OsLabs.CondVar.Steps
import OsLabs.Core.Fifo

/-! # The bounded buffer is a FIFO queue

Stores and takes happen under the mutex, on a ring with room and on a ring with
an item. The ring then represents a queue, and every run of the threads shows
an execution of that queue.
-/

namespace OsLabs.CondVar

/-! ## The ring -/

namespace Ring

variable {bufSize : Nat} {r : Ring}

structure Ok (bufSize : Nat) (r : Ring) : Prop where
  count_nonneg : 0 ≤ r.count
  count_le : r.count ≤ bufSize
  outIdx_lt : r.outIdx < bufSize
  inIdx_eq : r.inIdx = (r.outIdx + r.count.toNat) % bufSize

/-- What the ring holds from `out_idx` on. -/
def contents (bufSize : Nat) (r : Ring) : List Int :=
  Fifo.ring bufSize r.buffer r.outIdx r.count.toNat

theorem Ok.contents_length (h : r.Ok bufSize) : ((r.contents bufSize).length : Int) = r.count := by
  rw [contents, Fifo.ring_length, Int.toNat_of_nonneg h.count_nonneg]

theorem Ok.store (h : r.Ok bufSize) (hroom : r.count < bufSize) (val : Int) :
    (r.store bufSize val).Ok bufSize ∧
      (r.store bufSize val).contents bufSize = r.contents bufSize ++ [val] := by
  have hnonneg := h.count_nonneg
  have hsucc : (r.count + 1).toNat = r.count.toNat + 1 := by omega
  constructor
  · constructor
    · simp only [Ring.store]
      omega
    · simp only [Ring.store]
      omega
    · exact h.outIdx_lt
    · simp only [Ring.store]
      rw [hsucc, h.inIdx_eq, Nat.mod_add_mod, Nat.add_assoc]
  · simp only [contents, Ring.store]
    rw [hsucc, h.inIdx_eq, Fifo.ring_store _ _ (by omega)]

theorem Ok.take (h : r.Ok bufSize) (hitem : 0 < r.count) :
    (r.take bufSize).Ok bufSize ∧
      r.contents bufSize = r.front :: (r.take bufSize).contents bufSize := by
  have hle := h.count_le
  have hpred : r.count.toNat = (r.count - 1).toNat + 1 := by omega
  have hlt := h.outIdx_lt
  constructor
  · constructor
    · simp only [Ring.take]
      omega
    · simp only [Ring.take]
      omega
    · exact Nat.mod_lt _ (by omega)
    · simp only [Ring.take]
      rw [h.inIdx_eq, hpred, Nat.mod_add_mod, Nat.add_assoc, Nat.add_comm 1]
  · simp only [contents, Ring.take, front]
    rw [hpred, Fifo.ring_take, Nat.mod_eq_of_lt hlt]

end Ring

/-! ## What a thread in the critical section knows -/

def Pc.Guarded (bufSize : Nat) (r : Ring) (done : Bool) : Pc → Prop
  | .prodStore _ => r.count < bufSize
  | .consCheck => r.count ≠ 0 ∨ done = true
  | .consFail => r.count = 0 ∧ done = true
  | .consTake => 0 < r.count
  | _ => True

theorem Pc.guarded_of_not_holds {bufSize : Nat} {r : Ring} {done : Bool} {p : Pc}
    (h : p.holds = false) : p.Guarded bufSize r done := by
  cases p <;> trivial

theorem Pc.guarded_wake {bufSize : Nat} {r : Ring} {done : Bool} {p : Pc}
    (h : p.Guarded bufSize r done) : p.wake.Guarded bufSize r done := by
  cases p <;> trivial

section Model

variable {T L : Type} {client : Client L} {bufSize : Nat} {s s' : State T L}

def Guards (bufSize : Nat) (s : State T L) : Prop :=
  ∀ t, (s.pc t).Guarded bufSize s.ring s.done

theorem Guards.init (loc : T → L) : Guards bufSize (initState loc) := fun _ => trivial

structure BufferInv (bufSize : Nat) (s : State T L) : Prop where
  exclusive : Exclusive s
  guards : Guards bufSize s
  ring : s.ring.Ok bufSize

theorem BufferInv.init (hpos : 0 < bufSize) (loc : T → L) : BufferInv bufSize (initState loc) where
  exclusive := Exclusive.init loc
  guards := Guards.init loc
  ring := by
    constructor
    · exact Int.le_refl 0
    · simp [initState]
    · exact hpos
    · simp [initState]

variable [DecidableEq T]

theorem Guards.setPc (h : Guards bufSize s) {t : T} {p : Pc}
    (hp : p.Guarded bufSize s.ring s.done) : Guards bufSize (s.setPc t p) := by
  intro u
  by_cases hut : u = t
  · simpa [State.setPc, hut] using hp
  · simpa [State.setPc, hut] using h u

/-- Only the holder of the mutex changes the ring and the flag. -/
theorem Guards.setHolder (hex : Exclusive s) {t : T} (ht : (s.pc t).holds = true) {r : Ring}
    {done : Bool} {p : Pc} (hp : p.Guarded bufSize r done) :
    Guards bufSize ({ s with ring := r, done := done }.setPc t p) := by
  intro u
  by_cases hut : u = t
  · simpa [State.setPc, hut] using hp
  · simpa [State.setPc, hut] using Pc.guarded_of_not_holds (hex.other ht hut)

theorem Guards.signals (h : Guards bufSize s) {waits : Pc → Bool}
    (hsignals : Signals s waits s') : Guards bufSize s' := by
  cases hsignals with
  | woken _ => exact h.setPc (Pc.guarded_wake (h _))
  | nobody _ => exact h

theorem Signals.ring_eq {waits : Pc → Bool} (h : Signals s waits s') : s'.ring = s.ring := by
  cases h <;> rfl

theorem Signals.done_eq {waits : Pc → Bool} (h : Signals s waits s') : s'.done = s.done := by
  cases h <;> rfl

theorem Guards.step (hex : Exclusive s) (hring : s.ring.Ok bufSize) (h : Guards bufSize s)
    (hstep : Step client bufSize s s') : Guards bufSize s' := by
  cases hstep with
  | @call t op l _ _ =>
      have hcall : Guards bufSize (s.setPc t (Pc.entry op)) := h.setPc (by cases op <;> trivial)
      exact hcall
  | @lock t p hlocks _ =>
      have hlock : Guards bufSize (s.setPc t p) := by
        apply h.setPc
        generalize s.pc t = q at hlocks
        cases hlocks <;> trivial
      exact hlock
  | @prodSleeps t val _ _ =>
      have hsleep : Guards bufSize (s.setPc t (.prodWait val)) := h.setPc trivial
      exact hsleep
  | prodGoes _ hroom =>
      have hle := hring.count_le
      exact h.setPc (show s.ring.count < bufSize by omega)
  | stores hpc => exact Guards.setHolder hex (by rw [hpc]; rfl) trivial
  | prodSignals _ hsignals => exact (h.signals hsignals).setPc trivial
  | @prodUnlocks t _ =>
      have hunlock : Guards bufSize (s.setPc t .idle) := h.setPc trivial
      exact hunlock
  | @consSleeps t _ _ _ =>
      have hsleep : Guards bufSize (s.setPc t .consWait) := h.setPc trivial
      exact hsleep
  | consGoes _ hgo => exact h.setPc hgo
  | consNone _ hcount hdone => exact h.setPc ⟨hcount, hdone⟩
  | @consSome t hpc hgo =>
      have hcheck := h t
      rw [hpc] at hcheck
      have hnonneg := hring.count_nonneg
      have hne : s.ring.count ≠ 0 := by
        rcases hgo with hne | hdone
        · exact hne
        · rcases hcheck with hne | hdone'
          · exact hne
          · rw [hdone] at hdone'
            cases hdone'
      exact h.setPc (show 0 < s.ring.count by omega)
  | takes hpc => exact Guards.setHolder hex (by rw [hpc]; rfl) trivial
  | consSignals _ hsignals => exact (h.signals hsignals).setPc trivial
  | @consReturns t val _ =>
      have hunlock : Guards bufSize (s.setPc t .idle) := h.setPc trivial
      exact hunlock
  | @consFails t _ =>
      have hunlock : Guards bufSize (s.setPc t .idle) := h.setPc trivial
      exact hunlock
  | finSets hpc => exact Guards.setHolder hex (by rw [hpc]; rfl) trivial
  | finBroadcasts hpc =>
      have hbroadcast : Guards bufSize s.broadcast := by
        intro u
        by_cases hw : (s.pc u).waitsNotEmpty = true
        · simpa [State.broadcast, hw] using Pc.guarded_wake (h u)
        · simpa [State.broadcast, hw] using h u
      exact hbroadcast.setPc trivial
  | @finUnlocks t _ =>
      have hunlock : Guards bufSize (s.setPc t .idle) := h.setPc trivial
      exact hunlock
  | spurious _ => exact h.setPc (Pc.guarded_wake (h _))

/-- A step leaves the ring alone, or stores into a ring with room, or takes
from a ring with an item. -/
theorem ring_step (h : Guards bufSize s) (hstep : Step client bufSize s s') :
    s'.ring = s.ring ∨
      (∃ val, s.ring.count < bufSize ∧ s'.ring = s.ring.store bufSize val) ∨
      (0 < s.ring.count ∧ s'.ring = s.ring.take bufSize) := by
  cases hstep with
  | @stores t val hpc =>
      have hroom := h t
      rw [hpc] at hroom
      exact .inr (.inl ⟨val, hroom, rfl⟩)
  | @takes t hpc =>
      have hitem := h t
      rw [hpc] at hitem
      exact .inr (.inr ⟨hitem, rfl⟩)
  | prodSignals _ hsignals => exact .inl hsignals.ring_eq
  | consSignals _ hsignals => exact .inl hsignals.ring_eq
  | _ => exact .inl rfl

theorem BufferInv.step (h : BufferInv bufSize s) (hstep : Step client bufSize s s') :
    BufferInv bufSize s' where
  exclusive := h.exclusive.step hstep
  guards := h.guards.step h.exclusive h.ring hstep
  ring := by
    rcases ring_step h.guards hstep with heq | ⟨val, hroom, heq⟩ | ⟨hitem, heq⟩
    · rw [heq]
      exact h.ring
    · rw [heq]
      exact (h.ring.store hroom val).1
    · rw [heq]
      exact (h.ring.take hitem).1

/-! ## The queue the threads operate on -/

/-- The queue operation a step performs: a store or a take. -/
def queueOp (t : Transition (State T L) (Act T)) : Option (QueueOp Int) :=
  match t.action with
  | .run u =>
      match t.before.pc u with
      | .prodStore val => some (.put val)
      | .consTake => some (.get t.before.ring.front)
      | _ => none
  | _ => none

/-- The values stored, in the order of the critical sections. -/
def stored (ts : List (Transition (State T L) (Act T))) : List Int :=
  Fifo.puts (Lts.observed queueOp ts)

/-- The values taken, in the order of the critical sections. -/
def taken (ts : List (Transition (State T L) (Act T))) : List Int :=
  Fifo.gets (Lts.observed queueOp ts)

/-- Thread `u` takes a value for the `consume` it is in. -/
def takenBy (u : T) (t : Transition (State T L) (Act T)) : Option Int :=
  match t.action with
  | .run v => if v = u ∧ t.before.pc u = .consTake then some t.before.ring.front else none
  | _ => none

/-- A `consume` of thread `u` returns a value it has taken. -/
def returnedBy (u : T) (t : Transition (State T L) (Act T)) : Option Int :=
  match t.action with
  | .run v =>
      match t.before.pc u with
      | .consUnlock val => if v = u then some val else none
      | _ => none
  | _ => none

/-- The value a thread is about to return. -/
def Pc.pending : Pc → List Int
  | .consSignal val | .consUnlock val => [val]
  | _ => []

theorem signal_ring [Fintype T] {t : T} {woken : Option T} (h : signalNext s t woken = some s') :
    s'.ring = s.ring := by
  unfold signalNext at h
  split at h
  next =>
    rcases Option.map_eq_some_iff.mp h with ⟨s₁, hsignal, rfl⟩
    exact (signal_cases hsignal).ring_eq
  next =>
    rcases Option.map_eq_some_iff.mp h with ⟨s₁, hsignal, rfl⟩
    exact (signal_cases hsignal).ring_eq
  next => cases h

/-- What a step does to the ring is the operation it shows. -/
theorem ring_of_queueOp [Fintype T] {a : Act T} (h : next client bufSize s a = some s') :
    (queueOp ⟨s, a, s'⟩ = none ∧ s'.ring = s.ring) ∨
      (∃ t val, s.pc t = .prodStore val ∧ queueOp ⟨s, a, s'⟩ = some (.put val) ∧
        s'.ring = s.ring.store bufSize val) ∨
      (∃ t, s.pc t = .consTake ∧ queueOp ⟨s, a, s'⟩ = some (.get s.ring.front) ∧
        s'.ring = s.ring.take bufSize) := by
  cases a with
  | call t op =>
      left
      simp only [next, callNext] at h
      split at h
      next =>
        rcases Option.map_eq_some_iff.mp h with ⟨l, _, rfl⟩
        exact ⟨rfl, rfl⟩
      next => cases h
  | signal t woken => exact .inl ⟨rfl, signal_ring h⟩
  | spurious t =>
      left
      simp only [next] at h
      split at h
      next =>
        cases h
        exact ⟨rfl, rfl⟩
      next => cases h
  | run t =>
      simp only [next] at h
      cases hpc : s.pc t with
      | prodStore val =>
          simp only [runNext, hpc, Option.some.injEq] at h
          subst h
          exact .inr (.inl ⟨t, val, hpc, by simp [queueOp, hpc], rfl⟩)
      | consTake =>
          simp only [runNext, hpc, Option.some.injEq] at h
          subst h
          exact .inr (.inr ⟨t, hpc, by simp [queueOp, hpc], rfl⟩)
      | _ =>
          left
          constructor
          · simp [queueOp, hpc]
          · simp only [runNext, hpc, State.lock] at h
            repeat' split at h
            all_goals cases h
            all_goals rfl

/-- The ring and its invariants, against the abstract queue. -/
def Represents (bufSize : Nat) (s : State T L) (q : List Int) : Prop :=
  BufferInv bufSize s ∧ s.ring.contents bufSize = q

theorem buffer_simulates [Fintype T] (client : Client L) (hpos : 0 < bufSize) (loc : T → L) :
    (system client bufSize loc).Simulates (Fifo.queue bufSize) queueOp (Represents bufSize) where
  init s hinit := by
    refine ⟨[], rfl, ?_⟩
    rw [show s = initState loc from hinit]
    exact ⟨BufferInv.init hpos loc, rfl⟩
  stutter s q a s' hR hnext hobs := by
    constructor
    · exact hR.1.step (next_cases hnext)
    · rcases ring_of_queueOp hnext with ⟨_, hring⟩ | ⟨_, _, _, hop, _⟩ | ⟨_, _, hop, _⟩
      · rw [hring, hR.2]
      · rw [hobs] at hop
        cases hop
      · rw [hobs] at hop
        cases hop
  step s q a s' op hR hnext hobs := by
    have hinv := hR.1
    refine ⟨s'.ring.contents bufSize, ?_, hinv.step (next_cases hnext), rfl⟩
    rcases ring_of_queueOp hnext with ⟨hop, _⟩ | ⟨t, val, hpc, hop, hring⟩ | ⟨t, hpc, hop, hring⟩
    · rw [hobs] at hop
      cases hop
    · have hroom : s.ring.count < bufSize := by
        have hguard := hinv.guards t
        rwa [hpc] at hguard
      have hlength := hinv.ring.contents_length
      rw [hR.2] at hlength
      rw [hobs] at hop
      cases hop
      rw [hring, (hinv.ring.store hroom val).2, hR.2]
      simp only [Fifo.queue, Fifo.queueNext]
      rw [if_pos (by omega)]
    · have hitem : 0 < s.ring.count := by
        have hguard := hinv.guards t
        rwa [hpc] at hguard
      have hfront := (hinv.ring.take hitem).2
      rw [hR.2] at hfront
      rw [hobs] at hop
      cases hop
      rw [hring, hfront]
      simp [Fifo.queue, Fifo.queueNext]

/-! ## What the calls return -/

theorem Pc.pending_wake (p : Pc) : p.wake.pending = p.pending := by
  cases p <;> rfl

theorem Signals.pending_eq {waits : Pc → Bool} (h : Signals s waits s') (u : T) :
    (s'.pc u).pending = (s.pc u).pending := by
  cases h with
  | @woken w _ =>
      by_cases huw : u = w
      · simp [State.setPc, huw, Pc.pending_wake]
      · simp [State.setPc, huw]
  | nobody _ => rfl

/-- A step of another thread leaves what a thread is about to return. -/
theorem pending_other {t u : T} (hut : u ≠ t) (h : runNext client bufSize s t = some s') :
    (s'.pc u).pending = (s.pc u).pending := by
  cases hpc : s.pc t with
  | finBroadcast =>
      simp only [runNext, hpc, Option.some.injEq] at h
      subst h
      by_cases hw : (s.pc u).waitsNotEmpty = true
      · simp [State.setPc, State.broadcast, hut, hw, Pc.pending_wake]
      · simp [State.setPc, State.broadcast, hut, hw]
  | _ =>
      simp only [runNext, hpc, State.lock] at h
      repeat' split at h
      all_goals cases h
      all_goals simp [State.setPc, State.unlock, State.returns, hut]

/-- A call returns the value it has taken. -/
theorem pending_step [Fintype T] {a : Act T} (h : next client bufSize s a = some s') (u : T) :
    (s.pc u).pending ++ (takenBy u ⟨s, a, s'⟩).toList =
      (returnedBy u ⟨s, a, s'⟩).toList ++ (s'.pc u).pending := by
  cases a with
  | call t op =>
      simp only [next, callNext] at h
      split at h
      next hpc =>
        rcases Option.map_eq_some_iff.mp h with ⟨l, _, rfl⟩
        by_cases hut : u = t
        · subst hut
          cases op <;> simp [takenBy, returnedBy, hpc, State.setPc, Pc.entry, Pc.pending]
        · simp [takenBy, returnedBy, State.setPc, hut]
      next => cases h
  | spurious t =>
      simp only [next] at h
      split at h
      next =>
        cases h
        by_cases hut : u = t
        · simp [takenBy, returnedBy, State.setPc, hut, Pc.pending_wake]
        · simp [takenBy, returnedBy, State.setPc, hut]
      next => cases h
  | signal t woken =>
      simp only [next, signalNext] at h
      split at h
      next hpc =>
        rcases Option.map_eq_some_iff.mp h with ⟨s₁, hsignal, rfl⟩
        have hpending := (signal_cases hsignal).pending_eq u
        by_cases hut : u = t
        · simp [takenBy, returnedBy, State.setPc, hut, hpc, Pc.pending]
        · simp [takenBy, returnedBy, State.setPc, hut, hpending]
      next val hpc =>
        rcases Option.map_eq_some_iff.mp h with ⟨s₁, hsignal, rfl⟩
        have hpending := (signal_cases hsignal).pending_eq u
        by_cases hut : u = t
        · simp [takenBy, returnedBy, State.setPc, hut, hpc, Pc.pending]
        · simp [takenBy, returnedBy, State.setPc, hut, hpending]
      next => cases h
  | run t =>
      simp only [next] at h
      by_cases hut : u = t
      · subst hut
        cases hpc : s.pc u with
        | _ =>
            simp only [runNext, hpc, State.lock] at h
            repeat' split at h
            all_goals cases h
            all_goals simp [takenBy, returnedBy, hpc, State.setPc, State.unlock, Pc.pending]
      · have hnone : takenBy u ⟨s, .run t, s'⟩ = none := by simp [takenBy, Ne.symm hut]
        have hnone' : returnedBy u ⟨s, .run t, s'⟩ = none := by
          simp only [returnedBy]
          split <;> simp [Ne.symm hut]
        rw [hnone, hnone', pending_other hut h]
        simp

theorem taken_eq_returned [Fintype T] {loc : T → L} {ts : List (Transition (State T L) (Act T))}
    (hruns : (system client bufSize loc).RunsTo (initState loc) ts s) (u : T) :
    Lts.observed (takenBy u) ts = Lts.observed (returnedBy u) ts ++ (s.pc u).pending := by
  refine hruns.history (I := fun ts s => Lts.observed (takenBy u) ts =
    Lts.observed (returnedBy u) ts ++ (s.pc u).pending) rfl fun ts s₁ a s₂ _ ih hnext => ?_
  have hstep : (s₁.pc u).pending ++ (takenBy u ⟨s₁, a, s₂⟩).toList =
      (returnedBy u ⟨s₁, a, s₂⟩).toList ++ (s₂.pc u).pending := pending_step hnext u
  rw [Lts.observed_snoc, Lts.observed_snoc, ih, List.append_assoc, hstep, List.append_assoc]

end Model

/-- Every run of any threads with any programs: the counters stay in range and
agree, the stores and takes are an execution of a FIFO queue that holds what
the ring holds, so the values stored are those taken followed by the contents
of the ring, and every `consume` returns the values its thread took. -/
theorem buffer_refines_fifo {T L : Type} [DecidableEq T] [Fintype T] (client : Client L)
    {bufSize : Nat} (hpos : 0 < bufSize) (loc : T → L) {s : State T L}
    {ts : List (Transition (State T L) (Act T))}
    (hruns : (system client bufSize loc).RunsTo (initState loc) ts s) :
    (0 ≤ s.ring.count ∧ s.ring.count ≤ bufSize ∧
        (s.ring.inIdx : Int) = (s.ring.outIdx + s.ring.count) % bufSize) ∧
      (Fifo.queue bufSize).exec [] (Lts.observed queueOp ts) = some (s.ring.contents bufSize) ∧
      stored ts = taken ts ++ s.ring.contents bufSize ∧
      ∀ u, Lts.observed (takenBy u) ts = Lts.observed (returnedBy u) ts ++ (s.pc u).pending := by
  have hinit : Represents bufSize (initState loc) [] := ⟨BufferInv.init hpos loc, rfl⟩
  rcases (buffer_simulates client hpos loc).run hruns hinit with ⟨q, hexec, hinv, rfl⟩
  have hring := hinv.ring
  refine ⟨⟨hring.count_nonneg, hring.count_le, ?_⟩, hexec, ?_, taken_eq_returned hruns⟩
  · rw [hring.inIdx_eq]
    push_cast
    rw [Int.toNat_of_nonneg hring.count_nonneg]
  · have horder := Fifo.exec_order hexec
    simpa [stored, taken] using horder

/-- Threads that call what they like. -/
def anyCalls : Client Unit := ⟨fun _ _ => some (), fun _ _ => ()⟩

/-- A buffer of one cell: `true` sleeps for an item, `false` for room, and each is woken by
the other. -/
def handOver : List (Act Bool) :=
  [.call true .consume, .run true, .run true,
    .call false (.produce 5), .run false, .run false, .run false, .signal false (some true),
    .run false, .call false (.produce 6), .run false, .run false,
    .run true, .run true, .run true, .run true, .signal true (some false), .run true,
    .run false, .run false, .run false, .signal false none, .run false,
    .call true .consume, .run true, .run true, .run true, .run true]

theorem buffer_refines_fifo_hand_over :
    ∃ ts s, (system anyCalls 1 fun _ => ()).RunsTo (initState fun _ : Bool => ()) ts s ∧
      ts.map (·.action) = handOver ∧ stored ts = [5, 6] ∧
      stored ts = taken ts ++ s.ring.contents 1 ∧
      Lts.observed (takenBy true) ts = Lts.observed (returnedBy true) ts ++ [6] := by
  have hends : ((system anyCalls 1 fun _ => ()).trace (initState fun _ : Bool => ()) handOver).any
      (fun r => stored r.1 = [5, 6] ∧ (r.2.pc true).pending = [6]) = true := by decide +kernel
  obtain ⟨ts, s, hruns, hactions, hend⟩ := Lts.RunsTo.of_trace_any hends
  obtain ⟨hstored, hpending⟩ := of_decide_eq_true hend
  obtain ⟨-, -, horder, hreturned⟩ := buffer_refines_fifo anyCalls (by decide) _ hruns
  exact ⟨ts, s, hruns, hactions, hstored, horder, hpending ▸ hreturned true⟩

end OsLabs.CondVar
