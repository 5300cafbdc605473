import OsLabs.LockFree.Invariant
import OsLabs.LockFree.Steps

/-! # Steps of the compare-and-swap stack

A step that frees no held node keeps the invariant and is either silent or a
step of the atomic stack that holds the values of the chain.
-/

namespace OsLabs.LockFree

section Model

variable {T Addr : Type} [DecidableEq T] [DecidableEq Addr] {s s' : State T Addr}
  {l : List (Addr × Int)} {phase : T → Phase}

def abstraction (l : List (Addr × Int)) (phase : T → Phase) :
    Atomic.State T (List Int) (StackOp Int) (StackRes Int) :=
  ⟨l.map Prod.snd, phase⟩

/-- The step keeps the invariant and shows a step of the atomic stack. -/
def Simulated (l : List (Addr × Int)) (phase : T → Phase)
    (x : Transition (State T Addr) (Act T Addr)) : Prop :=
  ∃ phase', Inv x.after (relink l x) phase' ∧
    match event x with
    | none => abstraction (relink l x) phase' = abstraction l phase
    | some e =>
        Atomic.next Lifo.stack (abstraction l phase) e = some (abstraction (relink l x) phase')

theorem Simulated.silent (t : T) {x : Transition (State T Addr) (Act T Addr)} {ph : Phase}
    (hinv : Inv x.after l (Function.update phase t ph)) (hph : phase t = ph)
    (hevent : event x = none) (hrelink : relink l x = l) : Simulated l phase x := by
  subst hph
  rw [Function.update_eq_self] at hinv
  refine ⟨phase, ?_, ?_⟩
  · rwa [hrelink]
  · rw [hevent, hrelink]

theorem Simulated.shown (t : T) (ph : Phase) (e : Event T) (l' : List (Addr × Int))
    {x : Transition (State T Addr) (Act T Addr)}
    (hinv : Inv x.after l' (Function.update phase t ph)) (hevent : event x = some e)
    (hrelink : relink l x = l')
    (hnext : Atomic.next Lifo.stack (abstraction l phase) e =
      some (abstraction l' (Function.update phase t ph))) : Simulated l phase x := by
  refine ⟨Function.update phase t ph, ?_, ?_⟩
  · rwa [hrelink]
  · rw [hevent, hrelink]
    exact hnext

/-! ## Steps -/

omit [DecidableEq Addr] in
theorem load_of_allocated {heap : Heap Addr Int} {a : Addr} {c : Node Addr}
    (hcell : heap a = some c) (junk : Node Addr) : load heap a junk = c := by
  simp [load, hcell]

theorem store_of_allocated {heap : Heap Addr Int} {n : Addr} {c : Node Addr}
    (hcell : heap n = some c) (f : Node Addr → Node Addr) :
    store heap n f = Function.update heap n (some (f c)) := by
  simp [store, hcell]

omit [DecidableEq T] in
theorem stackTop_of_casSucceeds {old : Option Addr} {spurious : Bool}
    (h : s.casSucceeds old spurious = true) : s.stackTop = old := by
  simp only [State.casSucceeds, Bool.and_eq_true, decide_eq_true_eq] at h
  exact h.1

theorem Inv.step (h : Inv s l phase) {a : Act T Addr} (hstep : Step s a s')
    (hfree : FreesUnheld ⟨s, a, s'⟩) : Simulated l phase ⟨s, a, s'⟩ := by
  cases hstep with
  | @call t op hpc =>
      have hph : phase t = .idle := h.fits_of_pc hpc
      refine Simulated.shown t (.pending op) (.call t op) l ?_ rfl rfl ?_
      · cases op with
        | push val => exact h.move hpc rfl rfl rfl (.inl rfl)
        | pop => exact h.move hpc rfl rfl rfl (.inl rfl)
      · simp [Atomic.next, abstraction, hph, Atomic.State.setPhase]
  | @malloc t val n junk hpc hnone =>
      have hph : phase t = .pending (.push val) := h.fits_of_pc hpc
      refine Simulated.silent t ?_ hph rfl rfl
      apply h.malloc hnone rfl
      simp [Fits]
  | @storesVal t val n junk hpc =>
      rcases h.fits_of_pc hpc with ⟨hsome, hph⟩
      rcases Option.isSome_iff_exists.mp hsome with ⟨c, hcell⟩
      refine Simulated.silent t ?_ hph (by simp [event, hpc]) rfl
      rw [store_of_allocated hcell]
      apply h.write (by rw [hpc]; rfl) rfl
      simp [Fits]
  | @pushLoads t val n junk hpc =>
      rcases h.fits_of_pc hpc with ⟨hcell, hph⟩
      refine Simulated.silent t ?_ hph (by simp [event, hpc]) rfl
      exact h.move hpc ⟨hcell, rfl⟩ rfl rfl (.inl rfl)
  | @storesNext t val n old junk hpc =>
      rcases h.fits_of_pc hpc with ⟨⟨q, hcell⟩, hph⟩
      refine Simulated.silent t ?_ hph (by simp [event, hpc]) rfl
      rw [store_of_allocated hcell]
      apply h.write (by rw [hpc]; rfl) rfl
      simp [Fits]
  | @pushReturns t junk hpc =>
      have hph : phase t = .done .pushed := h.fits_of_pc hpc
      refine Simulated.shown t .idle (.ret t .pushed) l ?_ (by simp [event, hpc]) rfl ?_
      · exact h.move hpc rfl rfl rfl (.inl rfl)
      · simp [Atomic.next, abstraction, hph, Atomic.State.setPhase]
  | @popLoadsNull t junk hpc htop =>
      have hph : phase t = .pending .pop := h.fits_of_pc hpc
      have hchain := h.chain
      rw [htop] at hchain
      have hempty := hchain.nil_of_none
      subst hempty
      refine Simulated.shown t (.done (.popped none)) (.effect t .pop (.popped none)) [] ?_
        (by simp [event, hpc, htop]) rfl ?_
      · exact h.move hpc rfl rfl rfl (.inl rfl)
      · simp [Atomic.next, abstraction, hph, Atomic.State.setPhase, Lifo.stack]
  | @popLoads t old junk hpc htop =>
      have hph : phase t = .pending .pop := h.fits_of_pc hpc
      exact Simulated.silent t (h.hold htop) hph (by simp [event, hpc, htop]) rfl
  | @readsNext t old junk hpc =>
      rcases h.fits_of_pc hpc with ⟨hsome, hph⟩
      rcases Option.isSome_iff_exists.mp hsome with ⟨c, hcell⟩
      refine Simulated.silent t ?_ hph (by simp [event, hpc]) rfl
      rw [load_of_allocated hcell]
      exact h.move hpc ⟨⟨c.val, hcell⟩, rfl⟩ rfl rfl (.inr rfl)
  | @readsVal t old junk hpc =>
      rcases h.fits_of_pc hpc with ⟨v, q, hcell, hph⟩
      refine Simulated.silent t ?_ hph (by simp [event, hpc]) rfl
      rw [load_of_allocated hcell]
      exact h.move hpc ⟨by rw [hcell]; rfl, rfl⟩ rfl rfl (.inl rfl)
  | @frees t old out junk hpc =>
      rcases h.fits_of_pc hpc with ⟨_, hph⟩
      refine Simulated.silent t ?_ hph (by simp [event, hpc]) rfl
      exact h.free (by rw [hpc]; rfl) (hfree old (by simp [touched, hpc, Pc.frees]))
  | @popReturns t out junk hpc =>
      have hph : phase t = .done (.popped out) := h.fits_of_pc hpc
      refine Simulated.shown t .idle (.ret t (.popped out)) l ?_ (by simp [event, hpc]) rfl ?_
      · exact h.move hpc rfl rfl rfl (.inl rfl)
      · simp [Atomic.next, abstraction, hph, Atomic.State.setPhase]
  | @links t val n old spurious hpc hcas =>
      rcases h.fits_of_pc hpc with ⟨hcell, hph⟩
      refine Simulated.shown t (.done .pushed) (.effect t (.push val) .pushed) ((n, val) :: l) ?_
        (by simp [event, hpc, hcas]) (by simp [relink, hpc, hcas]) ?_
      · apply h.link
        · rw [hpc]
          rfl
        · rw [hcell, stackTop_of_casSucceeds hcas]
      · simp [Atomic.next, abstraction, hph, Atomic.State.setPhase, Lifo.stack]
  | @pushRetries t val n old spurious hpc hcas =>
      rcases h.fits_of_pc hpc with ⟨hcell, hph⟩
      refine Simulated.silent t ?_ hph (by simp [event, hpc, hcas]) (by simp [relink, hpc, hcas])
      exact h.move hpc ⟨⟨old, hcell⟩, rfl⟩ rfl rfl (.inl rfl)
  | @unlinks t old next spurious hpc hcas =>
      rcases h.fits_of_pc hpc with ⟨⟨v, hcell⟩, hph⟩
      rcases h.unlink (t := t) (stackTop_of_casSucceeds hcas) hcell with ⟨l', rfl, hinv⟩
      refine Simulated.shown t (.done (.popped (some v))) (.effect t .pop (.popped (some v))) l' hinv
        (by simp [event, hpc, hcas, hcell]) (by simp [relink, hpc, hcas]) ?_
      simp [Atomic.next, abstraction, hph, Atomic.State.setPhase, Lifo.stack]
  | @popRetries t old next spurious hpc hcas =>
      rcases h.fits_of_pc hpc with ⟨_, hph⟩
      refine Simulated.silent t ?_ hph (by simp [event, hpc, hcas]) (by simp [relink, hpc, hcas])
      exact h.move hpc rfl rfl rfl (.inl rfl)

omit [DecidableEq T] [DecidableEq Addr] in
theorem Inv.accesses (h : Inv s l phase) {a : Act T Addr} :
    AccessesAllocated Pc.derefs ⟨s, a, s'⟩ := by
  intro n hn
  cases a with
  | run t junk =>
      apply (h.fits t).allocated
      cases hpc : s.pc t <;> simp_all [touched, Pc.derefs, Pc.owns, Pc.holds]
  | _ => cases hn

end Model

end OsLabs.LockFree
