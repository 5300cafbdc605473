import Mathlib.Algebra.BigOperators.Fin
import Mathlib.Data.Fintype.BigOperators
import OsLabs.CondVar.Wakeups

/-! # The shutdown

As long as some thread has not returned some thread can move, without the help
of a spurious wakeup. When all have returned, the values of the producer have
been taken in order, each by one call of `consume`.
-/

namespace OsLabs.CondVar

structure LabInv {C : Nat} (bufSize : Nat) (s : LabState C) : Prop where
  buffer : BufferInv bufSize s
  role : RoleInv s
  value : ValueInv bufSize s
  ending : EndInv s
  wake : WakeInv bufSize s

section Model

variable {C bufSize : Nat} {s s' : LabState C} {vals : List Int}

theorem LabInv.init (hpos : 0 < bufSize) (hvals : ∀ v ∈ vals, 0 ≤ v) :
    LabInv bufSize (initState (labLoc C vals)) where
  buffer := BufferInv.init hpos _
  role := RoleInv.init vals
  value := ValueInv.init hvals
  ending := EndInv.init vals
  wake := WakeInv.init vals

theorem LabInv.step (hC : 0 < C) (h : LabInv bufSize s) (hstep : Step labClient bufSize s s') :
    LabInv bufSize s' where
  buffer := h.buffer.step hstep
  role := h.role.step hstep
  value := h.value.step h.buffer hstep
  ending := h.ending.step h.buffer h.role h.value hstep
  wake := h.wake.step hC h.buffer h.role h.value h.ending hstep

theorem LabInv.of_runsTo (hC : 0 < C) (hpos : 0 < bufSize) (hvals : ∀ v ∈ vals, 0 ≤ v)
    {ts : List (Transition (LabState C) (Act (Option (Fin C))))}
    (hruns : (labSystem C bufSize vals).RunsTo (initState (labLoc C vals)) ts s) :
    LabInv bufSize s :=
  hruns.invariant (fun _ _ _ hinv hnext => hinv.step hC (next_cases hnext))
    (LabInv.init hpos hvals)

/-! ## Progress -/

/-- An idle thread with no call left has returned. -/
theorem returned_of_no_call {t : Option (Fin C)} (hpc : s.pc t = .idle)
    (hcall : ∀ op, labClient.call (s.loc t) op = none) : Returned s t := by
  refine ⟨hpc, ?_⟩
  cases hloc : s.loc t with
  | producing rest =>
      cases rest with
      | nil =>
          have hfinish := hcall .finish
          rw [hloc] at hfinish
          cases hfinish
      | cons v rest =>
          have hproduce := hcall (.produce v)
          rw [hloc] at hproduce
          simp [labClient] at hproduce
  | consuming =>
      have hconsume := hcall .consume
      rw [hloc] at hconsume
      cases hconsume
  | finished => exact .inl rfl
  | returned => exact .inr rfl

/-- When every thread sleeps or has returned, every thread has returned. -/
theorem LabInv.returned_of_stuck (hpos : 0 < bufSize) (h : LabInv bufSize s)
    (hstuck : ∀ t, (s.pc t).asleep = true ∨ Returned s t) (t : Option (Fin C)) : Returned s t := by
  have hnotSignal : ∀ t p, s.pc t = p → p.asleep = false → p = .idle := by
    intro t p hpc hp
    rcases hstuck t with hasleep | hret
    · rw [hpc, hp] at hasleep
      cases hasleep
    · rw [← hpc, hret.1]
  have hconsumer : ∀ c, (s.pc (some c)).asleep = true → s.pc (some c) = .consWait := by
    intro c hasleep
    cases hpc : s.pc (some c) with
    | consWait => rfl
    | prodWait val =>
        have hrole := (h.role.produces (t := some c) (by rw [hpc]; rfl)).1
        cases hrole
    | _ =>
        rw [hpc] at hasleep
        cases hasleep
  have hproducer : Returned s none := by
    rcases hstuck none with hasleep | hret
    · have hfull : (s.pc none).waitsNotFull = true := by
        cases hpc : s.pc none with
        | prodWait val => rfl
        | consWait =>
            rcases (h.role.consumes (t := none) (by rw [hpc]; rfl)).1 with ⟨c, hc⟩
            cases hc
        | _ =>
            rw [hpc] at hasleep
            cases hasleep
      have hcount : s.ring.count = bufSize := by
        rcases h.wake.full hfull with hcount | ⟨c, v, hc⟩
        · exact hcount
        · cases hnotSignal (some c) _ hc rfl
      rcases h.wake.items (by omega) with hsignal | ⟨c, hactive⟩
      · cases hnotSignal none _ hsignal rfl
      · rcases hstuck (some c) with hasleep' | hret
        · exact absurd (hconsumer c hasleep') hactive.1
        · rcases hret.2 with hloc | hloc
          · rw [hactive.2] at hloc
            cases hloc
          · rw [hactive.2] at hloc
            cases hloc
    · exact hret
  have hrole := h.role.role none
  have hfinished : s.loc none = .finished := by
    rcases hproducer.2 with hloc | hloc
    · exact hloc
    · rw [hloc] at hrole
      cases hrole
  have hdone : s.done = true := h.ending.finished.mpr ⟨hfinished, by rw [hproducer.1]; rfl⟩
  cases t with
  | none => exact hproducer
  | some c =>
      rcases hstuck (some c) with hasleep | hret
      · rcases h.wake.closed hdone with hbroadcast | hawake
        · cases hnotSignal none _ hbroadcast rfl
        · exact absurd (hconsumer c hasleep) (hawake c)
      · exact hret

theorem LabInv.progress (hpos : 0 < bufSize) (h : LabInv bufSize s)
    (hleft : ∃ t, ¬ Returned s t) : Moves labClient bufSize s := by
  by_contra hstuck
  rcases hleft with ⟨t, ht⟩
  refine ht (h.returned_of_stuck hpos (fun u => ?_) t)
  rcases h.buffer.exclusive.stuck_thread hstuck u with ⟨hidle, hcall⟩ | hasleep
  · exact .inr (returned_of_no_call hidle hcall)
  · exact .inl hasleep

/-! ## The values -/

/-- The value the producer is about to store. -/
def Pc.inFlight : Pc → List Int
  | .prodLock v | .prodTest v | .prodWait v | .prodStore v => [v]
  | _ => []

def Loc.left : Loc → List Int
  | .producing rest => rest
  | _ => []

/-- What the producer has not stored yet. -/
def toStore (s : LabState C) : List Int := (s.pc none).inFlight ++ (s.loc none).left

theorem inFlight_wake (p : Pc) : p.wake.inFlight = p.inFlight := by
  cases p <;> rfl

theorem Signals.toStore_eq {waits : Pc → Bool} (h : Signals s waits s') :
    toStore s' = toStore s := by
  cases h with
  | @woken w _ =>
      by_cases hw : none = w
      · subst hw
        simp [toStore, State.setPc, inFlight_wake]
      · simp [toStore, State.setPc, hw]
  | nobody _ => rfl

/-- A consumer's `run` leaves the producer where it is, up to a wakeup. -/
theorem toStore_consumer {c : Fin C} (h : runNext labClient bufSize s (some c) = some s') :
    toStore s' = toStore s := by
  cases hpc : s.pc (some c) with
  | finBroadcast =>
      simp only [runNext, hpc, Option.some.injEq] at h
      subst h
      by_cases hw : (s.pc none).waitsNotEmpty = true
      · simp [toStore, State.setPc, State.broadcast, hw, inFlight_wake]
      · simp [toStore, State.setPc, State.broadcast, hw]
  | _ =>
      simp only [runNext, hpc, State.lock] at h
      repeat' split at h
      all_goals cases h
      all_goals simp [toStore, State.setPc, State.unlock, State.returns]

/-- The producer stores its values in order. -/
theorem toStore_step (hrole : RoleInv s) {a : Act (Option (Fin C))}
    (h : next labClient bufSize s a = some s') :
    Fifo.puts (queueOp ⟨s, a, s'⟩).toList ++ toStore s' = toStore s := by
  cases a with
  | call t op =>
      have hop : queueOp ⟨s, .call t op, s'⟩ = none := rfl
      rw [hop]
      simp only [next, callNext] at h
      split at h
      next hpc =>
        rcases Option.map_eq_some_iff.mp h with ⟨l, hcall, rfl⟩
        cases t with
        | some c => simp [Fifo.puts, toStore, State.setPc]
        | none =>
            rcases labClient_call hcall with ⟨v, rest, hl, rfl, rfl⟩ | ⟨hl, rfl, rfl⟩ | ⟨hl, rfl, rfl⟩
            · simp [Fifo.puts, toStore, State.setPc, hpc, hl, Pc.entry, Pc.inFlight, Loc.left]
            · simp [Fifo.puts, toStore, State.setPc, hpc, hl, Pc.entry, Pc.inFlight, Loc.left]
            · simp [Fifo.puts, toStore, State.setPc, hpc, hl, Pc.entry, Pc.inFlight, Loc.left]
      next => cases h
  | spurious t =>
      have hop : queueOp ⟨s, .spurious t, s'⟩ = none := rfl
      rw [hop]
      simp only [next] at h
      split at h
      next =>
        cases h
        by_cases ht : none = t
        · subst ht
          simp [Fifo.puts, toStore, State.setPc, inFlight_wake]
        · simp [Fifo.puts, toStore, State.setPc, ht]
      next => cases h
  | signal t woken =>
      have hop : queueOp ⟨s, .signal t woken, s'⟩ = none := rfl
      rw [hop]
      simp only [next, signalNext] at h
      split at h
      next hpc =>
        rcases Option.map_eq_some_iff.mp h with ⟨s₁, hsignal, rfl⟩
        have hsignals := signal_cases hsignal
        rw [← hsignals.toStore_eq]
        obtain rfl : t = none := (hrole.produces (by rw [hpc]; rfl)).1
        have hself : s₁.pc none = .prodSignal := by
          rw [hsignals.pc_self (by rw [hpc]; rfl), hpc]
        simp [Fifo.puts, toStore, State.setPc, hself, Pc.inFlight]
      next val hpc =>
        rcases Option.map_eq_some_iff.mp h with ⟨s₁, hsignal, rfl⟩
        have hsignals := signal_cases hsignal
        rw [← hsignals.toStore_eq]
        rcases (hrole.consumes (t := t) (by rw [hpc]; rfl)).1 with ⟨c, rfl⟩
        simp [Fifo.puts, toStore, State.setPc]
      next => cases h
  | run t =>
      simp only [next] at h
      cases t with
      | some c =>
          have hop : Fifo.puts (queueOp ⟨s, .run (some c), s'⟩).toList = [] := by
            cases hpc : s.pc (some c) with
            | prodStore val =>
                have hnone := (hrole.produces (t := some c) (by rw [hpc]; rfl)).1
                cases hnone
            | _ => simp [queueOp, hpc, Fifo.puts]
          rw [hop, toStore_consumer h]
          rfl
      | none =>
          cases hpc : s.pc none with
          | consFail =>
              rcases (hrole.consumes (t := none) (by rw [hpc]; rfl)).1 with ⟨c, hc⟩
              cases hc
          | consUnlock val =>
              rcases (hrole.consumes (t := none) (by rw [hpc]; rfl)).1 with ⟨c, hc⟩
              cases hc
          | _ =>
              simp only [runNext, hpc, State.lock] at h
              repeat' split at h
              all_goals cases h
              all_goals simp [queueOp, hpc, Fifo.puts, toStore, State.setPc, State.unlock,
                State.broadcast, Pc.inFlight]

theorem stored_eq (hC : 0 < C) (hpos : 0 < bufSize) (hvals : ∀ v ∈ vals, 0 ≤ v)
    {ts : List (Transition (LabState C) (Act (Option (Fin C))))}
    (hruns : (labSystem C bufSize vals).RunsTo (initState (labLoc C vals)) ts s) :
    stored ts ++ toStore s = vals := by
  refine hruns.history (I := fun ts s => stored ts ++ toStore s = vals) ?_ ?_
  · simp [stored, Fifo.puts, toStore, initState, Pc.inFlight, labLoc, Loc.left]
  · intro ts₁ s₁ a s₂ hruns₁ ih hnext
    have hrole := (LabInv.of_runsTo hC hpos hvals hruns₁).role
    have hstep := toStore_step hrole hnext
    rw [stored, Lts.observed_snoc, Fifo.puts, List.filterMap_append, List.append_assoc]
    rw [← Fifo.puts, ← Fifo.puts, hstep]
    exact ih

/-- Every take is the take of one thread. -/
theorem sum_takenBy_count (ts : List (Transition (LabState C) (Act (Option (Fin C))))) (v : Int) :
    ∑ u, (Lts.observed (takenBy u) ts).count v = (taken ts).count v := by
  induction ts using List.reverseRecOn with
  | nil => simp [taken, Fifo.gets]
  | append_singleton ts t ih =>
      have hone : ∑ u, (takenBy u t).toList.count v =
          (Fifo.gets (queueOp t).toList).count v := by
        cases hact : t.action with
        | run w =>
            by_cases hpc : t.before.pc w = .consTake
            · have hself : ∀ u, (takenBy u t).toList.count v =
                  if w = u then [t.before.ring.front].count v else 0 := by
                intro u
                by_cases hwu : w = u
                · subst hwu
                  simp [takenBy, hact, hpc]
                · simp [takenBy, hact, hwu]
              simp only [hself, Finset.sum_ite_eq, Finset.mem_univ, if_true]
              simp [queueOp, hact, hpc, Fifo.gets]
            · have hnobody : ∀ u, takenBy u t = none := by
                intro u
                by_cases hwu : w = u
                · subst hwu
                  simp [takenBy, hact, hpc]
                · simp [takenBy, hact, hwu]
              have hgets : Fifo.gets (queueOp t).toList = [] := by
                simp only [queueOp, hact]
                split <;> simp_all [Fifo.gets]
              simp [hnobody, hgets]
        | call w op => simp [takenBy, queueOp, hact, Fifo.gets]
        | signal w woken => simp [takenBy, queueOp, hact, Fifo.gets]
        | spurious w => simp [takenBy, queueOp, hact, Fifo.gets]
      have hsplit : taken (ts ++ [t]) = taken ts ++ Fifo.gets (queueOp t).toList := by
        rw [taken, Lts.observed_snoc, Fifo.gets, List.filterMap_append]
        rfl
      rw [hsplit, List.count_append, ← ih, ← hone, ← Finset.sum_add_distrib]
      apply Finset.sum_congr rfl
      intro u _
      rw [Lts.observed_snoc, List.count_append]

end Model

/-- In every state a run of one producer and `C` consumers can reach: a thread
that has not returned means a step other than a spurious wakeup; and when all
have returned the buffer is empty, the values were taken in the order of the
producer, and each value was returned by as many calls of `consume` as there
were of `produce` for it. -/
theorem shutdown_complete {C bufSize : Nat} (hC : 0 < C) (hpos : 0 < bufSize) {vals : List Int}
    (hvals : ∀ v ∈ vals, 0 ≤ v) {s : LabState C}
    {ts : List (Transition (LabState C) (Act (Option (Fin C))))}
    (hruns : (labSystem C bufSize vals).RunsTo (initState (labLoc C vals)) ts s) :
    ((∃ t, ¬ Returned s t) → Moves labClient bufSize s) ∧
      ((∀ t, Returned s t) → s.ring.count = 0 ∧ s.ring.contents bufSize = [] ∧ taken ts = vals ∧
        ∀ v, ∑ u, (Lts.observed (returnedBy u) ts).count v = vals.count v) := by
  have hinv := LabInv.of_runsTo hC hpos hvals hruns
  refine ⟨hinv.progress hpos, fun hall => ?_⟩
  have hcount : s.ring.count = 0 := by
    have hrole := hinv.role.role (some ⟨0, hC⟩)
    rcases (hall (some ⟨0, hC⟩)).2 with hloc | hloc
    · rw [hloc] at hrole
      cases hrole
    · exact (hinv.ending.returned _ hloc).1
  have hempty : s.ring.contents bufSize = [] := by
    simp [Ring.contents, Fifo.ring, hcount]
  have hstored : stored ts = vals := by
    have hvalues := stored_eq hC hpos hvals hruns
    have hnone : toStore s = [] := by
      rcases hall none with ⟨hpc, hloc | hloc⟩ <;>
        simp [toStore, hpc, hloc, Pc.inFlight, Loc.left]
    rwa [hnone, List.append_nil] at hvalues
  have htaken : taken ts = vals := by
    have hinit : Represents bufSize (initState (labLoc C vals)) [] :=
      ⟨BufferInv.init hpos _, rfl⟩
    rcases (buffer_simulates labClient hpos (labLoc C vals)).run hruns hinit
      with ⟨q, hexec, _, rfl⟩
    have horder := Fifo.exec_order hexec
    rw [hempty, List.append_nil, List.nil_append] at horder
    rw [← hstored]
    exact horder.symm
  refine ⟨hcount, hempty, htaken, fun v => ?_⟩
  rw [← htaken, ← sum_takenBy_count]
  apply Finset.sum_congr rfl
  intro u _
  rw [taken_eq_returned hruns u, (hall u).1]
  simp [Pc.pending]

def consumer0 : Option (Fin 2) := some ⟨0, by decide⟩

def consumer1 : Option (Fin 2) := some ⟨1, by decide⟩

/-- Both consumers fall asleep, then the producer does before a full cell; each signal and
the broadcast wake one of them. -/
def shortShutdown : List (Act (Option (Fin 2))) :=
  [.call consumer0 .consume, .run consumer0, .run consumer0, .call consumer1 .consume,
    .run consumer1, .run consumer1,
    .call none (.produce 5), .run none, .run none, .run none, .signal none (some consumer0),
    .run none, .call none (.produce 6), .run none, .run none,
    .run consumer0, .run consumer0, .run consumer0, .run consumer0, .signal consumer0 (some none),
    .run consumer0, .run none, .run none, .run none, .signal none (some consumer1), .run none,
    .call consumer0 .consume, .run consumer0, .run consumer0, .run consumer0, .run consumer0,
    .signal consumer0 none, .run consumer0, .run consumer1, .run consumer1,
    .call none .finish, .run none, .run none, .run none, .run none,
    .run consumer1, .run consumer1, .run consumer1, .run consumer1, .call consumer0 .consume,
    .run consumer0, .run consumer0, .run consumer0, .run consumer0]

theorem shutdown_complete_short :
    ∃ ts s, (labSystem 2 1 [5, 6]).RunsTo (initState (labLoc 2 [5, 6])) ts s ∧
      ts.map (·.action) = shortShutdown ∧ s.ring.count = 0 ∧ taken ts = [5, 6] ∧
      ∀ v, ∑ u, (Lts.observed (returnedBy u) ts).count v = [5, 6].count v := by
  have hends : ((labSystem 2 1 [5, 6]).trace (initState (labLoc 2 [5, 6])) shortShutdown).any
      (fun r => ∀ t, Returned r.2 t) = true := by decide +kernel
  obtain ⟨ts, s, hruns, hactions, hend⟩ := Lts.RunsTo.of_trace_any hends
  have hresult := (shutdown_complete (by decide) (by decide) (by decide) hruns).2
    (of_decide_eq_true hend)
  exact ⟨ts, s, hruns, hactions, hresult.1, hresult.2.2⟩

end OsLabs.CondVar
