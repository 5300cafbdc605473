import OsLabs.CondVar.Shutdown

/-! # No wakeup is lost

The invariants that tie the sleeping threads to the counter and the flag. A
sleeping producer means a full buffer, or a consumer about to signal. An item
means a consumer that is awake, or a producer about to signal. The flag means
no sleeping consumer, or a producer about to broadcast.
-/

namespace OsLabs.CondVar

section Model

variable {C bufSize : Nat} {s s' : LabState C}

/-! ## Non-negative values -/

def Pc.NonNeg : Pc → Prop
  | .prodLock v | .prodTest v | .prodWait v | .prodStore v | .consSignal v | .consUnlock v => 0 ≤ v
  | _ => True

structure ValueInv (bufSize : Nat) (s : LabState C) : Prop where
  loc : ∀ t rest, s.loc t = .producing rest → ∀ v ∈ rest, 0 ≤ v
  pc : ∀ t, (s.pc t).NonNeg
  ring : ∀ v ∈ s.ring.contents bufSize, 0 ≤ v

theorem Pc.nonNeg_wake {p : Pc} (h : p.NonNeg) : p.wake.NonNeg := by
  cases p <;> exact h

theorem ValueInv.init {vals : List Int} (hvals : ∀ v ∈ vals, 0 ≤ v) :
    ValueInv bufSize (initState (labLoc C vals)) where
  loc t rest h := by
    cases t with
    | none =>
        cases h
        exact hvals
    | some c => cases h
  pc _ := trivial
  ring v h := by simp [initState, Ring.contents, Fifo.ring] at h

theorem ValueInv.setPc (h : ValueInv bufSize s) {t : Option (Fin C)} {p : Pc} (hp : p.NonNeg) :
    ValueInv bufSize (s.setPc t p) where
  loc := h.loc
  pc u := by
    by_cases hut : u = t
    · simpa [State.setPc, hut] using hp
    · simpa [State.setPc, hut] using h.pc u
  ring := h.ring

theorem ValueInv.signals (h : ValueInv bufSize s) {waits : Pc → Bool}
    (hsignals : Signals s waits s') : ValueInv bufSize s' := by
  cases hsignals with
  | woken _ => exact h.setPc (Pc.nonNeg_wake (h.pc _))
  | nobody _ => exact h

theorem ValueInv.setLoc (h : ValueInv bufSize s) {t : Option (Fin C)} {l : Loc}
    (hl : ∀ rest, l = .producing rest → ∀ v ∈ rest, 0 ≤ v) :
    ValueInv bufSize { s with loc := Function.update s.loc t l } where
  loc u rest hu := by
    by_cases hut : u = t
    · exact hl rest (by simpa [hut] using hu)
    · exact h.loc u rest (by simpa [hut] using hu)
  pc := h.pc
  ring := h.ring

theorem ValueInv.returns (h : ValueInv bufSize s) (t : Option (Fin C)) (val : Int) :
    ValueInv bufSize ((s.returns labClient t val).unlock t .idle) := by
  have hloc : ValueInv bufSize (s.returns labClient t val) := by
    apply h.setLoc
    intro rest hrest
    have hsame : s.loc t = .producing rest := by
      cases hl : s.loc t with
      | consuming =>
          simp only [labClient, hl] at hrest
          split at hrest <;> cases hrest
      | producing rest' => simpa [labClient, hl] using hrest
      | finished => simp [labClient, hl] at hrest
      | returned => simp [labClient, hl] at hrest
    exact h.loc t rest hsame
  have hidle : ValueInv bufSize ((s.returns labClient t val).setPc t .idle) := hloc.setPc trivial
  exact ⟨hidle.loc, hidle.pc, hidle.ring⟩

theorem ValueInv.step (hbuf : BufferInv bufSize s) (h : ValueInv bufSize s)
    (hstep : Step labClient bufSize s s') : ValueInv bufSize s' := by
  have hkeep : ∀ (t : Option (Fin C)) {p : Pc}, p.NonNeg → ValueInv bufSize (s.setPc t p) :=
    fun t p hp => h.setPc hp
  have hunlock : ∀ (t : Option (Fin C)) {p : Pc}, p.NonNeg → ValueInv bufSize (s.unlock t p) :=
    fun t p hp => ⟨(hkeep t hp).loc, (hkeep t hp).pc, h.ring⟩
  cases hstep with
  | @call t op l hpc hcall =>
      rcases labClient_call hcall with ⟨v, rest, hl, rfl, rfl⟩ | ⟨hl, rfl, rfl⟩ | ⟨hl, rfl, rfl⟩
      · have hvals := h.loc t (v :: rest) hl
        have hloc := h.setLoc (t := t) (l := .producing rest) fun rest' heq w hw => by
          cases heq
          exact hvals w (List.mem_cons_of_mem v hw)
        have hv : 0 ≤ v := hvals v List.mem_cons_self
        exact hloc.setPc hv
      · exact (h.setLoc (t := t) (l := .finished) (by simp)).setPc trivial
      · exact (h.setLoc (t := t) (l := .consuming) (by simp)).setPc trivial
  | @lock t p hlocks _ =>
      have hp : p.NonNeg := by
        have hold := h.pc t
        generalize s.pc t = q at hlocks hold
        cases hlocks <;> exact hold
      exact ⟨(hkeep t hp).loc, (hkeep t hp).pc, h.ring⟩
  | @prodSleeps t val hpc _ =>
      have hold := h.pc t
      rw [hpc] at hold
      exact hunlock t hold
  | @prodGoes t val hpc _ =>
      have hold := h.pc t
      rw [hpc] at hold
      exact hkeep t hold
  | @stores t val hpc =>
      have hold := h.pc t
      have hroom := hbuf.guards t
      rw [hpc] at hold hroom
      have hcontents := (hbuf.ring.store hroom val).2
      have hset := @hkeep t .prodSignal trivial
      constructor
      · exact h.loc
      · exact hset.pc
      · intro v hv
        have hmem : v ∈ s.ring.contents bufSize ++ [val] := hcontents ▸ hv
        rcases List.mem_append.mp hmem with hin | hlast
        · exact h.ring v hin
        · rw [List.mem_singleton.mp hlast]
          exact hold
  | prodSignals _ hsignals => exact (h.signals hsignals).setPc trivial
  | prodUnlocks _ => exact hunlock _ trivial
  | consSleeps _ _ _ => exact hunlock _ trivial
  | consGoes _ _ => exact hkeep _ trivial
  | consNone _ _ _ => exact hkeep _ trivial
  | consSome _ _ => exact hkeep _ trivial
  | @takes t hpc =>
      have hitem := hbuf.guards t
      rw [hpc] at hitem
      have hcontents := (hbuf.ring.take hitem).2
      have hfront : 0 ≤ s.ring.front := h.ring _ (hcontents ▸ List.mem_cons_self)
      have hset := @hkeep t (.consSignal s.ring.front) hfront
      constructor
      · exact h.loc
      · exact hset.pc
      · intro v hv
        exact h.ring v (hcontents ▸ List.mem_cons_of_mem _ hv)
  | @consSignals t val s₁ hpc hsignals =>
      have hold := h.pc t
      rw [hpc] at hold
      exact (h.signals hsignals).setPc hold
  | @consReturns t val _ => exact h.returns t val
  | @consFails t _ => exact h.returns t (-1)
  | @finSets t _ =>
      have hset := @hkeep t .finBroadcast trivial
      exact ⟨h.loc, hset.pc, h.ring⟩
  | finBroadcasts _ =>
      have hbroadcast : ValueInv bufSize s.broadcast := by
        constructor
        · exact h.loc
        · intro u
          by_cases hw : (s.pc u).waitsNotEmpty = true
          · simpa [State.broadcast, hw] using Pc.nonNeg_wake (h.pc u)
          · simpa [State.broadcast, hw] using h.pc u
        · exact h.ring
      exact hbroadcast.setPc trivial
  | finUnlocks _ => exact hunlock _ trivial
  | spurious _ => exact hkeep _ (Pc.nonNeg_wake (h.pc _))

/-! ## The end of the producer and of the consumers -/

/-- The producer has not set the flag yet. -/
def Pc.closing : Pc → Bool
  | .finLock | .finSet => true
  | _ => false

structure EndInv (s : LabState C) : Prop where
  finished : s.done = true ↔ s.loc none = .finished ∧ (s.pc none).closing = false
  returned : ∀ c, s.loc (some c) = .returned → s.ring.count = 0 ∧ s.done = true

theorem EndInv.init (vals : List Int) : EndInv (initState (labLoc C vals)) where
  finished := by simp [initState, labLoc]
  returned c h := by cases h

theorem EndInv.setPc (h : EndInv s) {t : Option (Fin C)} {p : Pc}
    (hp : p.closing = (s.pc t).closing) : EndInv (s.setPc t p) where
  finished := by
    have hsame : ((s.setPc t p).pc none).closing = (s.pc none).closing := by
      by_cases ht : none = t
      · subst ht
        simpa [State.setPc] using hp
      · simp [State.setPc, ht]
    rw [hsame]
    exact h.finished
  returned := h.returned

theorem EndInv.setOwner (h : EndInv s) {owner : Option (Option (Fin C))} :
    EndInv { s with owner := owner } := ⟨h.finished, h.returned⟩

theorem closing_wake (p : Pc) : p.wake.closing = p.closing := by
  cases p <;> rfl

theorem EndInv.signals (h : EndInv s) {waits : Pc → Bool} (hsignals : Signals s waits s') :
    EndInv s' := by
  cases hsignals with
  | woken _ => exact h.setPc (closing_wake _)
  | nobody _ => exact h

/-- While the producer stores, no consumer has returned. -/
theorem EndInv.not_returned (hrole : RoleInv s) (h : EndInv s) {t : Option (Fin C)}
    (ht : (s.pc t).kind = some .produces) (c : Fin C) : s.loc (some c) ≠ .returned := by
  intro hret
  have hfinished := (h.finished.mp (h.returned c hret).2).1
  rcases hrole.produces ht with ⟨rfl, rest, hloc⟩
  rw [hloc] at hfinished
  cases hfinished

theorem EndInv.call (h : EndInv s) {t : Option (Fin C)} {op : Op} {l : Loc}
    (hrole : RoleInv s) (hpc : s.pc t = .idle) (hcall : labClient.call (s.loc t) op = some l) :
    EndInv { s.setPc t (Pc.entry op) with loc := Function.update s.loc t l } := by
  have hrolet := hrole.role t
  rcases labClient_call hcall with ⟨v, rest, hl, rfl, rfl⟩ | ⟨hl, rfl, rfl⟩ | ⟨hl, rfl, rfl⟩
  · rw [hl] at hrolet
    obtain rfl : t = none := Option.isNone_iff_eq_none.mp hrolet.symm
    have hnot : s.done ≠ true := by simp [h.finished, hl]
    exact ⟨by simp [State.setPc, hnot], h.returned⟩
  · rw [hl] at hrolet
    obtain rfl : t = none := Option.isNone_iff_eq_none.mp hrolet.symm
    have hnot : s.done ≠ true := by simp [h.finished, hl]
    exact ⟨by simp [State.setPc, hnot, Pc.entry, Pc.closing], h.returned⟩
  · rw [hl] at hrolet
    cases t with
    | none => cases hrolet
    | some d =>
        constructor
        · simpa [State.setPc] using h.finished
        · intro c hc
          by_cases hcd : c = d
          · simp [hcd] at hc
          · exact h.returned c (by simpa [hcd] using hc)

theorem EndInv.consReturns (hrole : RoleInv s) (h : EndInv s) {t : Option (Fin C)} {val : Int}
    (ht : (s.pc t).kind = some .consumes)
    (hval : 0 ≤ val ∨ (s.ring.count = 0 ∧ s.done = true)) :
    EndInv ((s.returns labClient t val).unlock t .idle) := by
  rcases hrole.consumes ht with ⟨⟨d, rfl⟩, hloc⟩
  constructor
  · simpa [State.unlock, State.setPc, State.returns] using h.finished
  · intro c hc
    by_cases hcd : c = d
    · rcases hval with hnonneg | hend
      · simp [State.unlock, State.setPc, State.returns, hcd, hloc, labClient, hnonneg] at hc
      · exact hend
    · exact h.returned c (by simpa [State.unlock, State.setPc, State.returns, hcd] using hc)

theorem EndInv.step (hbuf : BufferInv bufSize s) (hrole : RoleInv s) (hval : ValueInv bufSize s)
    (h : EndInv s) (hstep : Step labClient bufSize s s') : EndInv s' := by
  cases hstep with
  | call hpc hcall => exact h.call hrole hpc hcall
  | @lock t p hlocks _ =>
      have hlock : EndInv (s.setPc t p) := by
        apply h.setPc
        generalize s.pc t = q at hlocks
        cases hlocks <;> rfl
      exact hlock.setOwner
  | prodSleeps hpc _ => exact (h.setPc (by rw [hpc]; rfl)).setOwner
  | prodGoes hpc _ => exact h.setPc (by rw [hpc]; rfl)
  | @stores t val hpc =>
      have hnone := h.not_returned hrole (t := t) (by rw [hpc]; rfl)
      have hset : EndInv (s.setPc t .prodSignal) := h.setPc (by rw [hpc]; rfl)
      exact ⟨hset.finished, fun c hc => absurd hc (hnone c)⟩
  | @prodSignals t s₁ hpc hsignals =>
      have hself := hsignals.pc_self (t := t) (by rw [hpc]; rfl)
      exact (h.signals hsignals).setPc (by rw [hself, hpc]; rfl)
  | prodUnlocks hpc => exact (h.setPc (by rw [hpc]; rfl)).setOwner
  | consSleeps hpc _ _ => exact (h.setPc (by rw [hpc]; rfl)).setOwner
  | consGoes hpc _ => exact h.setPc (by rw [hpc]; rfl)
  | consNone hpc _ _ => exact h.setPc (by rw [hpc]; rfl)
  | consSome hpc _ => exact h.setPc (by rw [hpc]; rfl)
  | @takes t hpc =>
      have hitem := hbuf.guards t
      rw [hpc] at hitem
      have hpos : 0 < s.ring.count := hitem
      have hset : EndInv (s.setPc t (.consSignal s.ring.front)) := h.setPc (by rw [hpc]; rfl)
      constructor
      · exact hset.finished
      · intro c hc
        have hzero := (h.returned c hc).1
        omega
  | @consSignals t val s₁ hpc hsignals =>
      have hself := hsignals.pc_self (t := t) (by rw [hpc]; rfl)
      exact (h.signals hsignals).setPc (by rw [hself, hpc]; rfl)
  | @consReturns t val hpc =>
      have hnonneg := hval.pc t
      rw [hpc] at hnonneg
      exact h.consReturns hrole (by rw [hpc]; rfl) (.inl hnonneg)
  | @consFails t hpc =>
      have hend := hbuf.guards t
      rw [hpc] at hend
      exact h.consReturns hrole (by rw [hpc]; rfl) (.inr hend)
  | @finSets t hpc =>
      rcases hrole.finishes (t := t) (by rw [hpc]; rfl) with ⟨rfl, hloc⟩
      exact ⟨by simp [State.setPc, hloc, Pc.closing], fun c hc => ⟨(h.returned c hc).1, rfl⟩⟩
  | @finBroadcasts t hpc =>
      have hbroadcast : EndInv s.broadcast := by
        constructor
        · by_cases hw : (s.pc none).waitsNotEmpty = true
          · simpa [State.broadcast, hw, closing_wake] using h.finished
          · simpa [State.broadcast, hw] using h.finished
        · exact h.returned
      apply hbroadcast.setPc
      simp [State.broadcast, hpc, Pc.waitsNotEmpty, Pc.closing]
  | finUnlocks hpc => exact (h.setPc (by rw [hpc]; rfl)).setOwner
  | spurious _ => exact h.setPc (closing_wake _)

/-! ## Sleepers and signals -/

/-- A consumer that is awake and goes on. -/
def Active (s : LabState C) (c : Fin C) : Prop :=
  s.pc (some c) ≠ .consWait ∧ s.loc (some c) = .consuming

/-- The next step of the thread wakes others. -/
def Pc.signalling : Pc → Bool
  | .prodSignal | .consSignal _ | .finBroadcast => true
  | _ => false

structure WakeInv (bufSize : Nat) (s : LabState C) : Prop where
  full : (s.pc none).waitsNotFull = true →
    s.ring.count = bufSize ∨ ∃ c v, s.pc (some c) = .consSignal v
  items : 0 < s.ring.count → s.pc none = .prodSignal ∨ ∃ c, Active s c
  closed : s.done = true → s.pc none = .finBroadcast ∨ ∀ c, s.pc (some c) ≠ .consWait

theorem WakeInv.init (vals : List Int) : WakeInv bufSize (initState (labLoc C vals)) where
  full h := by cases h
  items h := absurd h (Int.lt_irrefl 0)
  closed h := by cases h

/-- A step of a thread that was not about to signal and does not fall asleep. -/
theorem WakeInv.frame (h : WakeInv bufSize s) {t : Option (Fin C)} {p : Pc}
    (hpc : s'.pc = Function.update s.pc t p) (hring : s'.ring = s.ring) (hdone : s'.done = s.done)
    (hloc : ∀ c, s.loc (some c) = .consuming → s'.loc (some c) = .consuming)
    (hp : p.asleep = false) (ht : (s.pc t).signalling = false) : WakeInv bufSize s' where
  full hfull := by
    rw [hring]
    rw [hpc] at hfull ⊢
    by_cases hnone : none = t
    · rw [← hnone, Function.update_self] at hfull
      simp [Pc.asleep, hfull] at hp
    · rw [Function.update_of_ne hnone] at hfull
      rcases h.full hfull with hcount | ⟨c, v, hc⟩
      · exact .inl hcount
      · have hct : some c ≠ t := by
          intro heq
          rw [← heq, hc] at ht
          cases ht
        exact .inr ⟨c, v, by rw [Function.update_of_ne hct, hc]⟩
  items hitems := by
    rw [hring] at hitems
    rcases h.items hitems with hsignal | ⟨c, hactive⟩
    · have hnone : none ≠ t := by
        intro heq
        rw [← heq, hsignal] at ht
        cases ht
      left
      rw [hpc, Function.update_of_ne hnone, hsignal]
    · right
      refine ⟨c, ?_, hloc c hactive.2⟩
      by_cases hct : some c = t
      · rw [hpc, hct, Function.update_self]
        intro heq
        rw [heq] at hp
        cases hp
      · rw [hpc, Function.update_of_ne hct]
        exact hactive.1
  closed hclosed := by
    rw [hdone] at hclosed
    rcases h.closed hclosed with hbroadcast | hawake
    · have hnone : none ≠ t := by
        intro heq
        rw [← heq, hbroadcast] at ht
        cases ht
      left
      rw [hpc, Function.update_of_ne hnone, hbroadcast]
    · right
      intro c
      by_cases hct : some c = t
      · rw [hpc, hct, Function.update_self]
        intro heq
        rw [heq] at hp
        cases hp
      · rw [hpc, Function.update_of_ne hct]
        exact hawake c

theorem WakeInv.prodSleeps (h : WakeInv bufSize s) (hrole : RoleInv s) {t : Option (Fin C)}
    {val : Int} (hpc : s.pc t = .prodTest val) (hcount : s.ring.count = bufSize) :
    WakeInv bufSize (s.unlock t (.prodWait val)) := by
  obtain rfl : t = none := (hrole.produces (by rw [hpc]; rfl)).1
  constructor
  · exact fun _ => .inl hcount
  · intro hitems
    rcases h.items hitems with hsignal | ⟨c, hactive⟩
    · rw [hpc] at hsignal
      cases hsignal
    · exact .inr ⟨c, hactive⟩
  · intro hclosed
    rcases h.closed hclosed with hbroadcast | hawake
    · rw [hpc] at hbroadcast
      cases hbroadcast
    · exact .inr hawake

theorem WakeInv.stores (h : WakeInv bufSize s) (hrole : RoleInv s) {t : Option (Fin C)}
    {val : Int} (hpc : s.pc t = .prodStore val) :
    WakeInv bufSize ({ s with ring := s.ring.store bufSize val }.setPc t .prodSignal) := by
  obtain rfl : t = none := (hrole.produces (by rw [hpc]; rfl)).1
  constructor
  · intro hfull
    simp [State.setPc, Pc.waitsNotFull] at hfull
  · exact fun _ => .inl (by simp [State.setPc])
  · intro hclosed
    rcases h.closed hclosed with hbroadcast | hawake
    · rw [hpc] at hbroadcast
      cases hbroadcast
    · exact .inr hawake

/-- The signal of `produce` wakes a consumer, or every consumer is awake. -/
theorem WakeInv.of_prodSignals (hrole : RoleInv s) (hend : EndInv s)
    (hC : 0 < C) {t : Option (Fin C)} {s₁ : LabState C} (hpc : s.pc t = .prodSignal)
    (hsignals : Signals s Pc.waitsNotEmpty s₁) : WakeInv bufSize (s₁.setPc t .prodUnlock) := by
  have hkind : (s.pc t).kind = some .produces := by rw [hpc]; rfl
  obtain rfl : t = none := (hrole.produces hkind).1
  have hnotDone : s.done ≠ true := by
    intro hdone
    rcases (hrole.produces hkind).2 with ⟨rest, hloc⟩
    have hfinished := (hend.finished.mp hdone).1
    rw [hloc] at hfinished
    cases hfinished
  constructor
  · intro hfull
    simp [State.setPc, Pc.waitsNotFull] at hfull
  · intro _
    right
    cases hsignals with
    | @woken w hw =>
        have hwait : s.pc w = .consWait := by
          cases hp : s.pc w <;> rw [hp] at hw <;> cases hw
        rcases hrole.consumes (t := w) (by rw [hwait]; rfl) with ⟨⟨c, rfl⟩, hloc⟩
        exact ⟨c, by simp [State.setPc, hwait, Pc.wake], hloc⟩
    | nobody hnobody =>
        refine ⟨⟨0, hC⟩, ?_, ?_⟩
        · have hawake := hnobody (some ⟨0, hC⟩)
          intro hwait
          have hwait' : s.pc (some ⟨0, hC⟩) = .consWait := by simpa [State.setPc] using hwait
          rw [hwait'] at hawake
          cases hawake
        · have hnot := hend.not_returned hrole hkind ⟨0, hC⟩
          have hrolec := hrole.role (some ⟨0, hC⟩)
          cases hloc : s.loc (some ⟨0, hC⟩) with
          | consuming => exact hloc
          | returned => exact absurd hloc hnot
          | producing rest =>
              rw [hloc] at hrolec
              cases hrolec
          | finished =>
              rw [hloc] at hrolec
              cases hrolec
  · intro hclosed
    have hdone : s.done = true := hsignals.done_eq ▸ hclosed
    exact absurd hdone hnotDone

theorem WakeInv.consSleeps (h : WakeInv bufSize s) (hrole : RoleInv s) {t : Option (Fin C)}
    (hpc : s.pc t = .consTest) (hcount : s.ring.count = 0) (hdone : s.done = false) :
    WakeInv bufSize (s.unlock t .consWait) := by
  rcases (hrole.consumes (t := t) (by rw [hpc]; rfl)).1 with ⟨d, rfl⟩
  constructor
  · intro hfull
    rcases h.full (by simpa [State.unlock, State.setPc] using hfull) with hfull' | ⟨c, v, hc⟩
    · exact .inl hfull'
    · have hcd : c ≠ d := by
        intro heq
        rw [heq, hpc] at hc
        cases hc
      exact .inr ⟨c, v, by simp [State.unlock, State.setPc, hcd, hc]⟩
  · intro hitems
    have hpos : 0 < s.ring.count := hitems
    omega
  · intro hclosed
    have hclosed' : s.done = true := hclosed
    rw [hdone] at hclosed'
    cases hclosed'

theorem WakeInv.takes (h : WakeInv bufSize s) (hrole : RoleInv s) {t : Option (Fin C)}
    (hpc : s.pc t = .consTake) :
    WakeInv bufSize
      ({ s with ring := s.ring.take bufSize }.setPc t (.consSignal s.ring.front)) := by
  rcases hrole.consumes (t := t) (by rw [hpc]; rfl) with ⟨⟨d, rfl⟩, hloc⟩
  refine ⟨fun _ => .inr ⟨d, s.ring.front, by simp [State.setPc]⟩, fun _ => .inr ⟨d, ?_, hloc⟩,
    fun hclosed => ?_⟩
  · simp [State.setPc]
  · rcases h.closed hclosed with hbroadcast | hawake
    · exact .inl (by simpa [State.setPc] using hbroadcast)
    · right
      intro c
      by_cases hcd : c = d
      · simp [State.setPc, hcd]
      · simpa [State.setPc, hcd] using hawake c

/-- The signal of `consume` wakes the producer, if it sleeps. -/
theorem WakeInv.consSignals (h : WakeInv bufSize s) (hrole : RoleInv s) {t : Option (Fin C)}
    {val : Int} {s₁ : LabState C} (hpc : s.pc t = .consSignal val)
    (hsignals : Signals s Pc.waitsNotFull s₁) :
    WakeInv bufSize (s₁.setPc t (.consUnlock val)) := by
  rcases hrole.consumes (t := t) (by rw [hpc]; rfl) with ⟨⟨d, rfl⟩, hloc⟩
  have hawake : (s₁.pc none).waitsNotFull = false := by
    cases hsignals with
    | @woken w hw =>
        have hkind : (s.pc w).kind = some .produces := by
          cases hp : s.pc w <;> rw [hp] at hw <;> cases hw
          rfl
        obtain rfl : w = none := (hrole.produces hkind).1
        cases hp : s.pc none <;> rw [hp] at hw <;> cases hw
        simp [State.setPc, Pc.wake, Pc.waitsNotFull]
    | nobody hnobody => exact hnobody none
  have hother : ∀ c, s₁.pc (some c) = s.pc (some c) := by
    intro c
    apply hsignals.pc_self
    cases hp : s.pc (some c) with
    | prodWait v => exact absurd (hrole.produces (t := some c) (by rw [hp]; rfl)).1 (by simp)
    | _ => rfl
  have hsignalling : s.pc none = .prodSignal ∨ s.pc none = .finBroadcast →
      s₁.pc none = s.pc none := by
    intro hnone
    apply hsignals.pc_self
    rcases hnone with hp | hp <;> rw [hp] <;> rfl
  constructor
  · intro hfull
    rw [show (s₁.setPc (some d) (.consUnlock val)).pc none = s₁.pc none by simp [State.setPc],
      hawake] at hfull
    cases hfull
  · intro hitems
    right
    exact ⟨d, by simp [State.setPc], by rw [← hloc, ← hsignals.loc_eq]; rfl⟩
  · intro hclosed
    rcases h.closed (hsignals.done_eq ▸ hclosed) with hbroadcast | hawake'
    · left
      simp [State.setPc, hsignalling (.inr hbroadcast), hbroadcast]
    · right
      intro c
      by_cases hcd : c = d
      · simp [State.setPc, hcd]
      · simpa [State.setPc, hcd, hother c] using hawake' c

theorem WakeInv.finSets (h : WakeInv bufSize s) (hrole : RoleInv s) {t : Option (Fin C)}
    (hpc : s.pc t = .finSet) :
    WakeInv bufSize ({ s with done := true }.setPc t .finBroadcast) := by
  obtain rfl : t = none := (hrole.finishes (by rw [hpc]; rfl)).1
  constructor
  · intro hfull
    simp [State.setPc, Pc.waitsNotFull] at hfull
  · intro hitems
    rcases h.items hitems with hsignal | ⟨c, hactive⟩
    · rw [hpc] at hsignal
      cases hsignal
    · exact .inr ⟨c, hactive⟩
  · exact fun _ => .inl (by simp [State.setPc])

theorem WakeInv.finBroadcasts (h : WakeInv bufSize s) (hrole : RoleInv s) {t : Option (Fin C)}
    (hpc : s.pc t = .finBroadcast) : WakeInv bufSize (s.broadcast.setPc t .finUnlock) := by
  obtain rfl : t = none := (hrole.finishes (by rw [hpc]; rfl)).1
  have hawake : ∀ c, (s.broadcast.setPc none .finUnlock).pc (some c) ≠ .consWait := by
    intro c
    by_cases hw : (s.pc (some c)).waitsNotEmpty = true
    · cases hp : s.pc (some c) <;> rw [hp] at hw <;> cases hw
      simp [State.setPc, State.broadcast, hp, Pc.waitsNotEmpty, Pc.wake]
    · intro hwait
      have hsame : s.pc (some c) = .consWait := by
        simpa [State.setPc, State.broadcast, hw] using hwait
      rw [hsame] at hw
      exact hw rfl
  constructor
  · intro hfull
    simp [State.setPc, Pc.waitsNotFull] at hfull
  · intro hitems
    rcases h.items hitems with hsignal | ⟨c, hactive⟩
    · rw [hpc] at hsignal
      cases hsignal
    · exact .inr ⟨c, hawake c, hactive.2⟩
  · exact fun _ => .inr hawake

theorem WakeInv.step (hC : 0 < C) (hbuf : BufferInv bufSize s) (hrole : RoleInv s)
    (hval : ValueInv bufSize s) (hend : EndInv s) (h : WakeInv bufSize s)
    (hstep : Step labClient bufSize s s') : WakeInv bufSize s' := by
  cases hstep with
  | @call t op l hpc hcall =>
      refine h.frame (t := t) (p := Pc.entry op) rfl rfl rfl (fun c hc => ?_) ?_ (by rw [hpc]; rfl)
      · by_cases hct : some c = t
        · rcases labClient_call hcall with ⟨v, rest, hl, _, _⟩ | ⟨hl, _, _⟩ | ⟨_, _, hl'⟩
          · rw [← hct, hc] at hl
            cases hl
          · rw [← hct, hc] at hl
            cases hl
          · simp [hct, hl']
        · simpa [hct] using hc
      · cases op <;> rfl
  | @lock t p hlocks _ =>
      have hpcs : p.asleep = false ∧ (s.pc t).signalling = false := by
        generalize s.pc t = q at hlocks
        cases hlocks <;> exact ⟨rfl, rfl⟩
      exact h.frame (t := t) (p := p) rfl rfl rfl (fun c hc => hc) hpcs.1 hpcs.2
  | prodSleeps hpc hcount => exact h.prodSleeps hrole hpc hcount
  | prodGoes hpc _ => exact h.frame rfl rfl rfl (fun c hc => hc) rfl (by rw [hpc]; rfl)
  | stores hpc => exact h.stores hrole hpc
  | prodSignals hpc hsignals => exact WakeInv.of_prodSignals hrole hend hC hpc hsignals
  | prodUnlocks hpc => exact h.frame rfl rfl rfl (fun c hc => hc) rfl (by rw [hpc]; rfl)
  | consSleeps hpc hcount hdone => exact h.consSleeps hrole hpc hcount hdone
  | consGoes hpc _ => exact h.frame rfl rfl rfl (fun c hc => hc) rfl (by rw [hpc]; rfl)
  | consNone hpc _ _ => exact h.frame rfl rfl rfl (fun c hc => hc) rfl (by rw [hpc]; rfl)
  | consSome hpc _ => exact h.frame rfl rfl rfl (fun c hc => hc) rfl (by rw [hpc]; rfl)
  | takes hpc => exact h.takes hrole hpc
  | consSignals hpc hsignals => exact h.consSignals hrole hpc hsignals
  | @consReturns t val hpc =>
      have hnonneg := hval.pc t
      rw [hpc] at hnonneg
      have hval' : 0 ≤ val := hnonneg
      refine h.frame (t := t) (p := .idle) rfl rfl rfl (fun c hc => ?_) rfl (by rw [hpc]; rfl)
      by_cases hct : some c = t
      · subst hct
        simp [State.unlock, State.setPc, State.returns, hc, labClient, hval']
      · simpa [State.unlock, State.setPc, State.returns, hct] using hc
  | @consFails t hpc =>
      have hguard := hbuf.guards t
      rw [hpc] at hguard
      have hidle : WakeInv bufSize (s.setPc t .idle) :=
        h.frame rfl rfl rfl (fun c hc => hc) rfl (by rw [hpc]; rfl)
      constructor
      · exact hidle.full
      · intro hitems
        have hpos : 0 < s.ring.count := hitems
        exact absurd hguard.1 (by omega)
      · exact hidle.closed
  | finSets hpc => exact h.finSets hrole hpc
  | finBroadcasts hpc => exact h.finBroadcasts hrole hpc
  | finUnlocks hpc => exact h.frame rfl rfl rfl (fun c hc => hc) rfl (by rw [hpc]; rfl)
  | @spurious t hwaits =>
      have hpcs : (s.pc t).wake.asleep = false ∧ (s.pc t).signalling = false := by
        cases hp : s.pc t <;> simp [hp, Pc.waitsNotFull, Pc.waitsNotEmpty] at hwaits <;>
          exact ⟨rfl, rfl⟩
      exact h.frame (t := t) (p := (s.pc t).wake) rfl rfl rfl (fun c hc => hc) hpcs.1 hpcs.2

end Model

end OsLabs.CondVar
