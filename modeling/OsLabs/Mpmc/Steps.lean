import OsLabs.Core.Threads
import OsLabs.Mpmc.Model

/-! # Steps of producers and consumers, and mutual exclusion -/

namespace OsLabs.Mpmc

open Threads

/-- The thread is between the lock and the unlock of `buf_mtx`. -/
def ProdPc.holds : ProdPc → Bool
  | .fetchAdd _ | .store _ _ | .advance _ _ | .print _ _ | .unlock _ => true
  | .loop _ | .semWait _ | .lock _ | .semPost _ | .returned _ => false

def ConsPc.holds : ConsPc → Bool
  | .load _ | .advance _ _ | .fetchAdd _ _ | .print _ _ | .unlock _ => true
  | .loop _ | .semWait _ | .lock _ | .semPost _ | .returned _ => false

section Model

variable {P C : Type}

def State.holds (s : State P C) : P ⊕ C → Bool :=
  Sum.elim (fun p => (s.prod p).holds) fun c => (s.cons c).holds

variable {iters : P ⊕ C → Nat} {bufSize : Nat} {s s' : State P C}

def MutexOk (s : State P C) : Prop := Exclusive s.holds s.owner

theorem MutexOk.init : MutexOk (initState bufSize : State P C) := by
  intro t
  cases t <;> simp [State.holds, initState, ProdPc.holds, ConsPc.holds]

/-! ## Producers -/

section Producers

variable [DecidableEq P]

/-- The steps of producer `p`, each with its guard and its effect. -/
inductive ProdStep (iters : P ⊕ C → Nat) (bufSize : Nat) (s : State P C) (p : P) : State P C → Prop
  | goes {i : Nat} (hpc : s.prod p = .loop i) (hi : i < iters (.inl p)) (hstop : s.stop = false) :
      ProdStep iters bufSize s p (s.setProd p (.semWait i))
  | returns {i : Nat} (hpc : s.prod p = .loop i) (hi : i < iters (.inl p) → s.stop = true) :
      ProdStep iters bufSize s p (s.setProd p (.returned i))
  | waits {i : Nat} (hpc : s.prod p = .semWait i) (h : 0 < s.emptySlots) :
      ProdStep iters bufSize s p ({ s with emptySlots := s.emptySlots - 1 }.setProd p (.lock i))
  | locks {i : Nat} (hpc : s.prod p = .lock i) (howner : s.owner = none) :
      ProdStep iters bufSize s p ({ s with owner := some (.inl p) }.setProd p (.fetchAdd i))
  | adds {i : Nat} (hpc : s.prod p = .fetchAdd i) :
      ProdStep iters bufSize s p
        ({ s with totalProduced := fetchAndAdd s.totalProduced }.setProd p
          (.store i s.totalProduced))
  | stores {i : Nat} {val : Int} (hpc : s.prod p = .store i val) :
      ProdStep iters bufSize s p
        ({ s with buffer := Function.update s.buffer s.inI val }.setProd p (.advance i val))
  | advances {i : Nat} {val : Int} (hpc : s.prod p = .advance i val) :
      ProdStep iters bufSize s p ({ s with inI := (s.inI + 1) % bufSize }.setProd p (.print i val))
  | prints {i : Nat} {val : Int} (hpc : s.prod p = .print i val) :
      ProdStep iters bufSize s p (s.setProd p (.unlock i))
  | unlocks {i : Nat} (hpc : s.prod p = .unlock i) :
      ProdStep iters bufSize s p ({ s with owner := none }.setProd p (.semPost i))
  | posts {i : Nat} (hpc : s.prod p = .semPost i) :
      ProdStep iters bufSize s p ({ s with fullSlots := s.fullSlots + 1 }.setProd p (.loop (i + 1)))

theorem prodNext_cases {p : P} (h : prodNext iters bufSize s p = some s') :
    ProdStep iters bufSize s p s' := by
  unfold prodNext at h
  split at h
  next i hpc =>
    split at h
    next hgo =>
      cases h
      exact .goes hpc hgo.1 hgo.2
    next hstay =>
      cases h
      exact .returns hpc fun hi => by simpa [hi] using hstay
  next i hpc =>
    split at h
    next hfree =>
      cases h
      exact .waits hpc hfree
    next => cases h
  next i hpc =>
    split at h
    next howner =>
      cases h
      exact .locks hpc howner
    next => cases h
  next i hpc =>
    cases h
    exact .adds hpc
  next i val hpc =>
    cases h
    exact .stores hpc
  next i val hpc =>
    cases h
    exact .advances hpc
  next i val hpc =>
    cases h
    exact .prints hpc
  next i hpc =>
    cases h
    exact .unlocks hpc
  next i hpc =>
    cases h
    exact .posts hpc
  next => cases h

/-- The other threads hold the mutex as before. -/
theorem holds_setProd_of_ne (s : State P C) {p : P} (pc : ProdPc) {t : P ⊕ C} (h : t ≠ .inl p) :
    (s.setProd p pc).holds t = s.holds t := by
  cases t with
  | inl q =>
      have hqp : q ≠ p := fun heq => h (congrArg Sum.inl heq)
      simp [State.holds, State.setProd, hqp]
  | inr c => rfl

@[simp] theorem holds_setProd_self (s : State P C) (p : P) (pc : ProdPc) :
    (s.setProd p pc).holds (.inl p) = pc.holds := by
  simp [State.holds, State.setProd]

/-- A step in which a producer keeps the mutex, or stays without it. -/
theorem MutexOk.setProd (h : MutexOk s) {p : P} {pc : ProdPc} (hpc : pc.holds = (s.prod p).holds) :
    MutexOk (s.setProd p pc) := by
  apply Exclusive.keep h
  intro t
  by_cases ht : t = .inl p
  · subst ht
    rw [holds_setProd_self, hpc]
    rfl
  · exact holds_setProd_of_ne s pc ht

theorem MutexOk.prodStep (h : MutexOk s) {p : P} (hstep : ProdStep iters bufSize s p s') :
    MutexOk s' := by
  cases hstep with
  | goes hpc _ _ => exact h.setProd (by rw [hpc]; rfl)
  | returns hpc _ => exact h.setProd (by rw [hpc]; rfl)
  | waits hpc _ => exact MutexOk.setProd (s := { s with emptySlots := _ }) h (by rw [hpc]; rfl)
  | @locks i hpc howner =>
      unfold MutexOk at h
      rw [howner] at h
      exact h.acquire (holds_setProd_self _ p (.fetchAdd i)) fun t ht => holds_setProd_of_ne _ _ ht
  | adds hpc => exact MutexOk.setProd (s := { s with totalProduced := _ }) h (by rw [hpc]; rfl)
  | stores hpc => exact MutexOk.setProd (s := { s with buffer := _ }) h (by rw [hpc]; rfl)
  | advances hpc => exact MutexOk.setProd (s := { s with inI := _ }) h (by rw [hpc]; rfl)
  | prints hpc => exact h.setProd (by rw [hpc]; rfl)
  | @unlocks i hpc =>
      have hheld : s.holds (.inl p) = true := by
        show (s.prod p).holds = true
        rw [hpc]
        rfl
      exact Exclusive.release h hheld (holds_setProd_self _ p (.semPost i)) fun t ht =>
        holds_setProd_of_ne _ _ ht
  | posts hpc => exact MutexOk.setProd (s := { s with fullSlots := _ }) h (by rw [hpc]; rfl)

end Producers

/-! ## Consumers -/

section Consumers

variable [DecidableEq C]

inductive ConsStep (iters : P ⊕ C → Nat) (bufSize : Nat) (s : State P C) (c : C) : State P C → Prop
  | goes {i : Nat} (hpc : s.cons c = .loop i) (hi : i < iters (.inr c)) (hstop : s.stop = false) :
      ConsStep iters bufSize s c (s.setCons c (.semWait i))
  | returns {i : Nat} (hpc : s.cons c = .loop i) (hi : i < iters (.inr c) → s.stop = true) :
      ConsStep iters bufSize s c (s.setCons c (.returned i))
  | waits {i : Nat} (hpc : s.cons c = .semWait i) (h : 0 < s.fullSlots) :
      ConsStep iters bufSize s c ({ s with fullSlots := s.fullSlots - 1 }.setCons c (.lock i))
  | locks {i : Nat} (hpc : s.cons c = .lock i) (howner : s.owner = none) :
      ConsStep iters bufSize s c ({ s with owner := some (.inr c) }.setCons c (.load i))
  | loads {i : Nat} (hpc : s.cons c = .load i) :
      ConsStep iters bufSize s c (s.setCons c (.advance i s.front))
  | advances {i : Nat} {val : Int} (hpc : s.cons c = .advance i val) :
      ConsStep iters bufSize s c
        ({ s with outI := (s.outI + 1) % bufSize }.setCons c (.fetchAdd i val))
  | adds {i : Nat} {val : Int} (hpc : s.cons c = .fetchAdd i val) :
      ConsStep iters bufSize s c
        ({ s with totalConsumed := fetchAndAdd s.totalConsumed }.setCons c (.print i val))
  | prints {i : Nat} {val : Int} (hpc : s.cons c = .print i val) :
      ConsStep iters bufSize s c (s.setCons c (.unlock i))
  | unlocks {i : Nat} (hpc : s.cons c = .unlock i) :
      ConsStep iters bufSize s c ({ s with owner := none }.setCons c (.semPost i))
  | posts {i : Nat} (hpc : s.cons c = .semPost i) :
      ConsStep iters bufSize s c
        ({ s with emptySlots := s.emptySlots + 1 }.setCons c (.loop (i + 1)))

theorem consNext_cases {c : C} (h : consNext iters bufSize s c = some s') :
    ConsStep iters bufSize s c s' := by
  unfold consNext at h
  split at h
  next i hpc =>
    split at h
    next hgo =>
      cases h
      exact .goes hpc hgo.1 hgo.2
    next hstay =>
      cases h
      exact .returns hpc fun hi => by simpa [hi] using hstay
  next i hpc =>
    split at h
    next hfull =>
      cases h
      exact .waits hpc hfull
    next => cases h
  next i hpc =>
    split at h
    next howner =>
      cases h
      exact .locks hpc howner
    next => cases h
  next i hpc =>
    cases h
    exact .loads hpc
  next i val hpc =>
    cases h
    exact .advances hpc
  next i val hpc =>
    cases h
    exact .adds hpc
  next i val hpc =>
    cases h
    exact .prints hpc
  next i hpc =>
    cases h
    exact .unlocks hpc
  next i hpc =>
    cases h
    exact .posts hpc
  next => cases h

theorem holds_setCons_of_ne (s : State P C) {c : C} (pc : ConsPc) {t : P ⊕ C} (h : t ≠ .inr c) :
    (s.setCons c pc).holds t = s.holds t := by
  cases t with
  | inl p => rfl
  | inr d =>
      have hdc : d ≠ c := fun heq => h (congrArg Sum.inr heq)
      simp [State.holds, State.setCons, hdc]

@[simp] theorem holds_setCons_self (s : State P C) (c : C) (pc : ConsPc) :
    (s.setCons c pc).holds (.inr c) = pc.holds := by
  simp [State.holds, State.setCons]

theorem MutexOk.setCons (h : MutexOk s) {c : C} {pc : ConsPc} (hpc : pc.holds = (s.cons c).holds) :
    MutexOk (s.setCons c pc) := by
  apply Exclusive.keep h
  intro t
  by_cases ht : t = .inr c
  · subst ht
    rw [holds_setCons_self, hpc]
    rfl
  · exact holds_setCons_of_ne s pc ht

theorem MutexOk.consStep (h : MutexOk s) {c : C} (hstep : ConsStep iters bufSize s c s') :
    MutexOk s' := by
  cases hstep with
  | goes hpc _ _ => exact h.setCons (by rw [hpc]; rfl)
  | returns hpc _ => exact h.setCons (by rw [hpc]; rfl)
  | waits hpc _ => exact MutexOk.setCons (s := { s with fullSlots := _ }) h (by rw [hpc]; rfl)
  | @locks i hpc howner =>
      unfold MutexOk at h
      rw [howner] at h
      exact h.acquire (holds_setCons_self _ c (.load i)) fun t ht => holds_setCons_of_ne _ _ ht
  | loads hpc => exact h.setCons (by rw [hpc]; rfl)
  | advances hpc => exact MutexOk.setCons (s := { s with outI := _ }) h (by rw [hpc]; rfl)
  | adds hpc => exact MutexOk.setCons (s := { s with totalConsumed := _ }) h (by rw [hpc]; rfl)
  | prints hpc => exact h.setCons (by rw [hpc]; rfl)
  | @unlocks i hpc =>
      have hheld : s.holds (.inr c) = true := by
        show (s.cons c).holds = true
        rw [hpc]
        rfl
      exact Exclusive.release h hheld (holds_setCons_self _ c (.semPost i)) fun t ht =>
        holds_setCons_of_ne _ _ ht
  | posts hpc => exact MutexOk.setCons (s := { s with emptySlots := _ }) h (by rw [hpc]; rfl)

end Consumers

end Model

end OsLabs.Mpmc
