import Mathlib.Data.Fintype.Option
import OsLabs.CondVar.Queue

/-! # One producer, many consumers

The threads of the lab: `producer` stores its values one after the other, sets
`done` and broadcasts; each `consumer` calls `consume` until it returns a
negative value. Thread `none` is the producer, `some c` a consumer.
-/

namespace OsLabs.CondVar

/-- Where a thread is in its own loop. -/
inductive Loc where
  | producing (rest : List Int)
  | finished
  | consuming
  | returned
  deriving DecidableEq

/-- `for(..) produce(i); .. done=1; ..` and `while(consume()>=0);` -/
def labClient : Client Loc where
  call
    | .producing (v :: rest), .produce w => if v = w then some (.producing rest) else none
    | .producing [], .finish => some .finished
    | .consuming, .consume => some .consuming
    | _, _ => none
  ret
    | .consuming, v => if 0 ≤ v then .consuming else .returned
    | l, _ => l

abbrev LabState (C : Nat) := State (Option (Fin C)) Loc

def labLoc (C : Nat) (vals : List Int) : Option (Fin C) → Loc
  | none => .producing vals
  | some _ => .consuming

def labSystem (C bufSize : Nat) (vals : List Int) : Lts (LabState C) (Act (Option (Fin C))) :=
  system labClient bufSize (labLoc C vals)

/-- The thread's function has returned. -/
def Returned {C : Nat} (s : LabState C) (t : Option (Fin C)) : Prop :=
  s.pc t = .idle ∧ (s.loc t = .finished ∨ s.loc t = .returned)

instance {C : Nat} (s : LabState C) (t : Option (Fin C)) : Decidable (Returned s t) :=
  inferInstanceAs (Decidable (_ ∧ _))

/-! ## Roles -/

inductive Kind where
  | produces
  | consumes
  | finishes
  deriving DecidableEq

/-- The call a thread is in. -/
def Pc.kind : Pc → Option Kind
  | .idle => none
  | .prodLock _ | .prodTest _ | .prodWait _ | .prodStore _ | .prodSignal | .prodUnlock =>
      some .produces
  | .consLock | .consTest | .consWait | .consCheck | .consFail | .consTake => some .consumes
  | .consSignal _ | .consUnlock _ => some .consumes
  | .finLock | .finSet | .finBroadcast | .finUnlock => some .finishes

def Loc.kind : Loc → Option Kind
  | .producing _ => some .produces
  | .finished => some .finishes
  | .consuming => some .consumes
  | .returned => none

def Loc.isProducer : Loc → Bool
  | .producing _ | .finished => true
  | .consuming | .returned => false

section Model

variable {C bufSize : Nat} {s s' : LabState C}

structure RoleInv (s : LabState C) : Prop where
  kind : ∀ t, s.pc t = .idle ∨ (s.pc t).kind = (s.loc t).kind
  role : ∀ t, (s.loc t).isProducer = t.isNone

theorem kind_wake (p : Pc) : p.wake.kind = p.kind := by
  cases p <;> rfl

theorem RoleInv.loc_kind (h : RoleInv s) {t : Option (Fin C)} {k : Kind}
    (ht : (s.pc t).kind = some k) : (s.loc t).kind = some k := by
  rcases h.kind t with hidle | hkind
  · rw [hidle] at ht
    cases ht
  · rw [← hkind, ht]

/-- A thread inside `produce` is the producer, on its way through its values. -/
theorem RoleInv.produces (h : RoleInv s) {t : Option (Fin C)}
    (ht : (s.pc t).kind = some .produces) : t = none ∧ ∃ rest, s.loc t = .producing rest := by
  have hkind := h.loc_kind ht
  have hrole := h.role t
  cases hloc : s.loc t <;> rw [hloc] at hkind hrole <;> cases hkind
  exact ⟨Option.isNone_iff_eq_none.mp hrole.symm, _, rfl⟩

/-- A thread inside `consume` is a consumer that goes on. -/
theorem RoleInv.consumes (h : RoleInv s) {t : Option (Fin C)}
    (ht : (s.pc t).kind = some .consumes) : (∃ c, t = some c) ∧ s.loc t = .consuming := by
  have hkind := h.loc_kind ht
  have hrole := h.role t
  cases hloc : s.loc t <;> rw [hloc] at hkind hrole <;> cases hkind
  cases t with
  | none => cases hrole
  | some c => exact ⟨⟨c, rfl⟩, rfl⟩

/-- A thread at the end of `producer` is the producer. -/
theorem RoleInv.finishes (h : RoleInv s) {t : Option (Fin C)}
    (ht : (s.pc t).kind = some .finishes) : t = none ∧ s.loc t = .finished := by
  have hkind := h.loc_kind ht
  have hrole := h.role t
  cases hloc : s.loc t <;> rw [hloc] at hkind hrole <;> cases hkind
  exact ⟨Option.isNone_iff_eq_none.mp hrole.symm, rfl⟩

theorem RoleInv.init (vals : List Int) : RoleInv (initState (labLoc C vals)) where
  kind _ := .inl rfl
  role t := by cases t <;> rfl

theorem RoleInv.setPc (h : RoleInv s) {t : Option (Fin C)} {p : Pc}
    (hp : p = .idle ∨ p.kind = (s.loc t).kind) : RoleInv (s.setPc t p) where
  kind u := by
    by_cases hut : u = t
    · subst hut
      simpa [State.setPc] using hp
    · simpa [State.setPc, hut] using h.kind u
  role := h.role

theorem RoleInv.setLoc (h : RoleInv s) {t : Option (Fin C)} {l : Loc}
    (hl : s.pc t = .idle ∨ (s.pc t).kind = l.kind) (hrole : l.isProducer = (s.loc t).isProducer) :
    RoleInv { s with loc := Function.update s.loc t l } where
  kind u := by
    by_cases hut : u = t
    · subst hut
      simpa using hl
    · simpa [hut] using h.kind u
  role u := by
    by_cases hut : u = t
    · subst hut
      simpa [hrole] using h.role u
    · simpa [hut] using h.role u

/-- A returning call: the thread is idle, and its loop looks at the value. -/
theorem RoleInv.returns (h : RoleInv s) {t : Option (Fin C)} (ht : s.pc t = .idle) {val : Int} :
    RoleInv { s.returns labClient t val with owner := none } := by
  have hrole : (labClient.ret (s.loc t) val).isProducer = (s.loc t).isProducer := by
    cases s.loc t with
    | consuming =>
        simp only [labClient]
        split <;> rfl
    | _ => rfl
  have hloc := h.setLoc (.inl ht) hrole
  exact ⟨hloc.kind, hloc.role⟩

/-- What the threads may call next. -/
theorem labClient_call {l l' : Loc} {op : Op} (h : labClient.call l op = some l') :
    (∃ v rest, l = .producing (v :: rest) ∧ op = .produce v ∧ l' = .producing rest) ∨
      (l = .producing [] ∧ op = .finish ∧ l' = .finished) ∨
      (l = .consuming ∧ op = .consume ∧ l' = .consuming) := by
  unfold labClient at h
  simp only at h
  split at h
  next v rest w =>
    split at h
    next hvw =>
      cases h
      exact .inl ⟨v, rest, rfl, by rw [hvw], rfl⟩
    next => cases h
  next =>
    cases h
    exact .inr (.inl ⟨rfl, rfl, rfl⟩)
  next =>
    cases h
    exact .inr (.inr ⟨rfl, rfl, rfl⟩)
  next => cases h

theorem RoleInv.signals (h : RoleInv s) {waits : Pc → Bool} (hsignals : Signals s waits s') :
    RoleInv s' := by
  cases hsignals with
  | @woken w hw =>
      apply h.setPc
      rcases h.kind w with hidle | hkind
      · rw [hidle]
        exact .inl rfl
      · rw [kind_wake]
        exact .inr hkind
  | nobody _ => exact h

theorem Signals.loc_eq {waits : Pc → Bool} (h : Signals s waits s') : s'.loc = s.loc := by
  cases h <;> rfl

theorem RoleInv.step (h : RoleInv s) (hstep : Step labClient bufSize s s') : RoleInv s' := by
  have hkeep : ∀ {t p k}, (s.pc t).kind = some k → p.kind = some k → RoleInv (s.setPc t p) :=
    fun ht hp => h.setPc (.inr (by rw [hp, h.loc_kind ht]))
  have hidle : ∀ t, RoleInv (s.setPc t .idle) := fun t => h.setPc (.inl rfl)
  cases hstep with
  | @call t op l hpc hcall =>
      rcases labClient_call hcall with ⟨v, rest, hl, rfl, rfl⟩ | ⟨hl, rfl, rfl⟩ | ⟨hl, rfl, rfl⟩
      · have hloc := h.setLoc (l := .producing rest) (.inl hpc) (by rw [hl]; rfl)
        exact hloc.setPc (.inr (by simp [Pc.entry, Pc.kind, Loc.kind]))
      · have hloc := h.setLoc (l := .finished) (.inl hpc) (by rw [hl]; rfl)
        exact hloc.setPc (.inr (by simp [Pc.entry, Pc.kind, Loc.kind]))
      · have hloc := h.setLoc (l := .consuming) (.inl hpc) (by rw [hl])
        exact hloc.setPc (.inr (by simp [Pc.entry, Pc.kind, Loc.kind]))
  | @lock t p hlocks _ =>
      have hlock : RoleInv (s.setPc t p) := by
        have hkind : p.kind = (s.pc t).kind := by
          generalize s.pc t = q at hlocks
          cases hlocks <;> rfl
        rcases h.kind t with hno | hloc
        · rw [hno] at hlocks
          cases hlocks
        · exact h.setPc (.inr (hkind.trans hloc))
      exact ⟨hlock.kind, hlock.role⟩
  | prodSleeps hpc _ => exact ⟨(hkeep (by rw [hpc]; rfl) rfl).kind, h.role⟩
  | prodGoes hpc _ => exact hkeep (by rw [hpc]; rfl) rfl
  | stores hpc => exact ⟨(hkeep (by rw [hpc]; rfl) rfl).kind, h.role⟩
  | @prodSignals t s₁ hpc hsignals =>
      refine (h.signals hsignals).setPc (.inr ?_)
      rw [hsignals.loc_eq, h.loc_kind (k := .produces) (by rw [hpc]; rfl)]
      rfl
  | prodUnlocks _ => exact ⟨(hidle _).kind, h.role⟩
  | consSleeps hpc _ _ => exact ⟨(hkeep (by rw [hpc]; rfl) rfl).kind, h.role⟩
  | consGoes hpc _ => exact hkeep (by rw [hpc]; rfl) rfl
  | consNone hpc _ _ => exact hkeep (by rw [hpc]; rfl) rfl
  | consSome hpc _ => exact hkeep (by rw [hpc]; rfl) rfl
  | takes hpc => exact ⟨(hkeep (by rw [hpc]; rfl) rfl).kind, h.role⟩
  | @consSignals t val s₁ hpc hsignals =>
      refine (h.signals hsignals).setPc (.inr ?_)
      rw [hsignals.loc_eq, h.loc_kind (k := .consumes) (by rw [hpc]; rfl)]
      rfl
  | @consReturns t val hpc => exact (hidle t).returns (by simp [State.setPc])
  | @consFails t hpc => exact (hidle t).returns (by simp [State.setPc])
  | finSets hpc => exact ⟨(hkeep (by rw [hpc]; rfl) rfl).kind, h.role⟩
  | @finBroadcasts t hpc =>
      have hbroadcast : RoleInv s.broadcast := by
        constructor
        · intro u
          by_cases hw : (s.pc u).waitsNotEmpty = true
          · rcases h.kind u with hno | hkind
            · simp [hno, Pc.waitsNotEmpty] at hw
            · simp [State.broadcast, hw, kind_wake, hkind]
          · simpa [State.broadcast, hw] using h.kind u
        · exact h.role
      refine hbroadcast.setPc (.inr ?_)
      rw [show s.broadcast.loc = s.loc from rfl, h.loc_kind (k := .finishes) (by rw [hpc]; rfl)]
      rfl
  | finUnlocks _ => exact ⟨(hidle _).kind, h.role⟩
  | @spurious t hwaits =>
      apply h.setPc
      rcases h.kind t with hno | hkind
      · rw [hno]
        exact .inl rfl
      · rw [kind_wake]
        exact .inr hkind

end Model

end OsLabs.CondVar
