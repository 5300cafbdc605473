import OsLabs.Core.Counter

/-! # The counters behind a mutex and behind a spinlock

`mutex_worker` and `spin_worker`: `counter_mtx++` and `counter_spin++` are a load and
a store between a lock and its unlock. The workers differ in what they do at a lock
that is taken. One sleeps there, so it makes no step; the other tries again.
-/

namespace OsLabs.Locking

open Threads

inductive LockKind where
  | mutex
  | spin
  deriving DecidableEq

/-- Where a worker is; `loaded` is the counter to increment. -/
inductive Pc where
  | loop (i : Nat)
  | load (i : Nat)
  | store (i : Nat) (loaded : Int)
  | unlock (i : Nat)
  | returned (i : Nat)
  deriving DecidableEq

structure State (T : Type) where
  owner : Option T
  counter : Int  -- a `long`: the product of two `int`s bounds it
  pc : T → Pc

/-! ## Workers -/

section Model

variable {T : Type} [DecidableEq T]

def State.setPc (s : State T) (t : T) (pc : Pc) : State T :=
  { s with pc := Function.update s.pc t pc }

variable (kind : LockKind) (iters : Nat)

/-- `pthread_mutex_lock` or `pthread_spin_lock` -/
def lockNext (s : State T) (t : T) (i : Nat) : Option (State T) :=
  match s.owner with
  | none => some ({ s with owner := some t }.setPc t (.load i))
  | some _ =>
      match kind with
      | .mutex => none
      | .spin => some s

/-- One step of worker `t`. -/
def next (s : State T) (t : T) : Option (State T) :=
  match s.pc t with
  | .loop i => if i < iters then lockNext kind s t i else some (s.setPc t (.returned i))
  | .load i => some (s.setPc t (.store i s.counter))
  | .store i loaded => some ({ s with counter := loaded + 1 }.setPc t (.unlock i))
  | .unlock i => some ({ s with owner := none }.setPc t (.loop (i + 1)))
  | .returned _ => none

def initState : State T := ⟨none, 0, fun _ => .loop 0⟩

def system : Lts (State T) T where
  init s := s = initState
  next := next kind iters

/-- All workers have been joined. -/
def Joined (s : State T) : Prop := ∀ t, ∃ i, s.pc t = .returned i

end Model

/-- `mutex_worker` -/
def mutexWorker (T : Type) [DecidableEq T] (iters : Nat) : Lts (State T) T := system .mutex iters

/-- `spin_worker` -/
def spinWorker (T : Type) [DecidableEq T] (iters : Nat) : Lts (State T) T := system .spin iters

/-! ## Steps -/

section Steps

variable {T : Type} [DecidableEq T] {kind : LockKind} {iters : Nat} {s s' : State T} {t : T}

inductive Step (kind : LockKind) (iters : Nat) (s : State T) (t : T) : State T → Prop
  | locks {i : Nat} (hpc : s.pc t = .loop i) (hi : i < iters) (hfree : s.owner = none) :
      Step kind iters s t ({ s with owner := some t }.setPc t (.load i))
  | retries {i : Nat} {u : T} (hkind : kind = .spin) (hpc : s.pc t = .loop i) (hi : i < iters)
      (hheld : s.owner = some u) : Step kind iters s t s
  | returns {i : Nat} (hpc : s.pc t = .loop i) (hi : iters ≤ i) :
      Step kind iters s t (s.setPc t (.returned i))
  | loads {i : Nat} (hpc : s.pc t = .load i) :
      Step kind iters s t (s.setPc t (.store i s.counter))
  | stores {i : Nat} {loaded : Int} (hpc : s.pc t = .store i loaded) :
      Step kind iters s t ({ s with counter := loaded + 1 }.setPc t (.unlock i))
  | unlocks {i : Nat} (hpc : s.pc t = .unlock i) :
      Step kind iters s t ({ s with owner := none }.setPc t (.loop (i + 1)))

theorem lockNext_cases {i : Nat} (hpc : s.pc t = .loop i) (hi : i < iters)
    (h : lockNext kind s t i = some s') : Step kind iters s t s' := by
  unfold lockNext at h
  split at h
  next hfree =>
    cases h
    exact .locks hpc hi hfree
  next u hheld =>
    cases kind with
    | mutex => cases h
    | spin =>
        cases h
        exact .retries rfl hpc hi hheld

theorem next_cases (h : next kind iters s t = some s') : Step kind iters s t s' := by
  unfold next at h
  split at h
  next i hpc =>
    split at h
    next hi => exact lockNext_cases hpc hi h
    next hi =>
      cases h
      exact .returns hpc (Nat.not_lt.mp hi)
  next i hpc =>
    cases h
    exact .loads hpc
  next i loaded hpc =>
    cases h
    exact .stores hpc
  next i hpc =>
    cases h
    exact .unlocks hpc
  next => cases h

end Steps

/-! ## The critical section -/

section Invariant

variable {T : Type} {kind : LockKind} {iters : Nat} {s s' : State T} {t : T}

/-- The worker is between its lock and its unlock. -/
def Pc.inside : Pc → Bool
  | .load _ | .store _ _ | .unlock _ => true
  | .loop _ | .returned _ => false

/-- Stores a worker has made. -/
def Pc.stored : Pc → Nat
  | .loop i | .load i | .store i _ | .returned i => i
  | .unlock i => i + 1

def Pc.Counts (iters : Nat) : Pc → Prop
  | .loop i => i ≤ iters
  | .load i | .store i _ | .unlock i => i < iters
  | .returned i => i = iters

/-- A loaded value is still the one in the counter. -/
def Pc.Fresh (counter : Int) : Pc → Prop
  | .store _ loaded => loaded = counter
  | _ => True

theorem Pc.fresh_of_outside {pc : Pc} (h : pc.inside = false) (counter : Int) : pc.Fresh counter := by
  cases pc with
  | store i loaded => cases h
  | _ => trivial

/-- What relates the workers to the counter of the library. -/
structure Rel (iters : Nat) (s : State T) (c : Counter.State T) : Prop where
  value : c.value = s.counter
  made : c.made = fun t => (s.pc t).stored
  counts : ∀ t, (s.pc t).Counts iters
  exclusive : Exclusive (fun t => (s.pc t).inside) s.owner
  fresh : ∀ t, (s.pc t).Fresh s.counter

variable [DecidableEq T]

theorem stored_setPc (s : State T) (t : T) (pc : Pc) :
    (fun u => ((s.setPc t pc).pc u).stored) =
      Function.update (fun u => (s.pc u).stored) t pc.stored :=
  Function.comp_update Pc.stored s.pc t pc

theorem inside_other (s : State T) (t : T) (pc : Pc) {u : T} (hu : u ≠ t) :
    ((s.setPc t pc).pc u).inside = (s.pc u).inside := by
  simp [State.setPc, hu]

theorem exclusive_keep (h : Exclusive (fun u => (s.pc u).inside) s.owner) {p : Pc}
    (hinside : p.inside = (s.pc t).inside) :
    Exclusive (fun u => ((s.setPc t p).pc u).inside) s.owner := by
  apply h.keep
  intro u
  by_cases hu : u = t
  · simp [State.setPc, hu, hinside]
  · exact inside_other s t p hu

/-- A step that leaves the counter as it is. -/
theorem Rel.setPc {c : Counter.State T} (h : Rel iters s c) {owner : Option T} {p : Pc}
    (hcounts : p.Counts iters) (hstored : p.stored = (s.pc t).stored)
    (hexclusive : Exclusive (fun u => ((s.setPc t p).pc u).inside) owner)
    (hfresh : p.Fresh s.counter) : Rel iters ({ s with owner := owner }.setPc t p) c := by
  refine ⟨h.value, ?_, ?_, hexclusive, ?_⟩
  · rw [h.made]
    refine Eq.symm ((stored_setPc { s with owner := owner } t p).trans ?_)
    rw [hstored, Function.update_eq_self]
  · exact (Function.forall_update_iff s.pc fun _ p => p.Counts iters).mpr
      ⟨hcounts, fun u _ => h.counts u⟩
  · exact (Function.forall_update_iff s.pc fun _ p => p.Fresh s.counter).mpr
      ⟨hfresh, fun u _ => h.fresh u⟩

/-- A store increments the counter by one: no other worker is in its critical section. -/
theorem Rel.stores {c : Counter.State T} (h : Rel iters s c) {i : Nat} {loaded : Int}
    (hpc : s.pc t = .store i loaded) :
    c.made t < iters ∧
      Rel iters ({ s with counter := loaded + 1 }.setPc t (.unlock i)) (c.add 1 t) := by
  have hcounts := h.counts t
  have hfresh := h.fresh t
  rw [hpc] at hcounts hfresh
  have hmade : c.made t = i := by
    rw [h.made]
    simp [hpc, Pc.stored]
  have hinside : (s.pc t).inside = true := by rw [hpc]; rfl
  refine ⟨hmade ▸ hcounts, ?_, ?_, ?_, ?_, ?_⟩
  · show c.value + 1 = loaded + 1
    rw [h.value, show loaded = s.counter from hfresh]
  · show Function.update c.made t (c.made t + 1) = _
    rw [hmade, h.made]
    exact (stored_setPc s t (.unlock i)).symm
  · exact (Function.forall_update_iff s.pc fun _ pc => pc.Counts iters).mpr
      ⟨hcounts, fun u _ => h.counts u⟩
  · exact exclusive_keep h.exclusive (p := .unlock i) (by rw [hpc]; rfl)
  · exact (Function.forall_update_iff s.pc fun _ pc => pc.Fresh (loaded + 1)).mpr
      ⟨trivial, fun u hu => Pc.fresh_of_outside (h.exclusive.other hinside hu) _⟩

/-- The worker that stores in a step. -/
def storesOf (x : Transition (State T) T) : Option T :=
  match x.before.pc x.action with
  | .store _ _ => some x.action
  | _ => none

omit [DecidableEq T] in
theorem Rel.init : Rel iters (initState : State T) (Counter.initState 0) :=
  ⟨rfl, rfl, fun _ => Nat.zero_le iters, Exclusive.initial, fun _ => trivial⟩

theorem Rel.stutter {c : Counter.State T} (h : Rel iters s c) (hstep : Step kind iters s t s')
    (hobs : storesOf ⟨s, t, s'⟩ = none) : Rel iters s' c := by
  have hcounts := h.counts t
  cases hstep with
  | @locks i hpc hi hfree =>
      apply h.setPc (p := .load i) hi (by rw [hpc]; rfl) _ trivial
      have hnone := h.exclusive
      rw [hfree] at hnone
      exact hnone.acquire (by simp [State.setPc, Pc.inside]) fun u hu => inside_other s t _ hu
  | retries hkind hpc hi hheld => exact h
  | returns hpc hi =>
      rw [hpc] at hcounts
      exact h.setPc (Nat.le_antisymm hcounts hi) (by rw [hpc]; rfl)
        (exclusive_keep h.exclusive (by rw [hpc]; rfl)) trivial
  | loads hpc =>
      rw [hpc] at hcounts
      exact h.setPc hcounts (by rw [hpc]; rfl) (exclusive_keep h.exclusive (by rw [hpc]; rfl)) rfl
  | stores hpc => simp [storesOf, hpc] at hobs
  | @unlocks i hpc =>
      rw [hpc] at hcounts
      apply h.setPc (p := .loop (i + 1)) hcounts (by rw [hpc]; rfl) _ trivial
      exact h.exclusive.release (t := t) (by rw [hpc]; rfl) (by simp [State.setPc, Pc.inside])
        fun u hu => inside_other s t _ hu

/-- Both workers make the counter of the library: each store is one addition. -/
theorem simulates (T : Type) [DecidableEq T] (kind : LockKind) (iters : Nat) :
    (system kind iters : Lts (State T) T).Simulates (Counter.system 0 1 fun _ => iters) storesOf
      (Rel iters) where
  init s hs := by
    rw [show s = initState from hs]
    exact ⟨_, rfl, .init⟩
  stutter s c t s' h hnext hobs := h.stutter (next_cases hnext) hobs
  step s c t s' u h hnext hobs := by
    cases next_cases hnext with
    | stores hpc =>
        obtain rfl : t = u := by simpa [storesOf, hpc] using hobs
        obtain ⟨hquota, hrel⟩ := h.stores hpc
        exact ⟨_, Counter.system_next hquota, hrel⟩
    | locks hpc _ _ | retries _ hpc _ _ | returns hpc _ | loads hpc | unlocks hpc =>
        simp [storesOf, hpc] at hobs

/-! ## Progress -/

/-- Steps a worker has still to make, the failed attempts at the lock apart. -/
def Pc.remaining (iters : Nat) : Pc → Nat
  | .loop i => 4 * (iters - i) + 1
  | .load i => 4 * (iters - i)
  | .store i _ => 4 * (iters - i) - 1
  | .unlock i => 4 * (iters - i) - 2
  | .returned _ => 0

/-- The step is a failed attempt at the spinlock. -/
def failedAttempt (iters : Nat) (x : Transition (State T) T) : Bool :=
  match x.before.pc x.action with
  | .loop i => decide (i < iters) && x.before.owner.isSome
  | _ => false

theorem Step.of_failedAttempt (hstep : Step kind iters s t s') (h : failedAttempt iters ⟨s, t, s'⟩ = true) :
    kind = .spin ∧ s' = s := by
  cases hstep with
  | locks hpc hi hfree => simp [failedAttempt, hpc, hfree] at h
  | retries hkind hpc hi hheld => exact ⟨hkind, rfl⟩
  | returns hpc hi => simp [failedAttempt, hpc, Nat.not_lt.mpr hi] at h
  | loads hpc | stores hpc | unlocks hpc => simp [failedAttempt, hpc] at h

variable [Fintype T]

theorem Step.remaining_lt {c : Counter.State T} (h : Rel iters s c) (hstep : Step kind iters s t s')
    (hmoves : failedAttempt iters ⟨s, t, s'⟩ = false) :
    total (Pc.remaining iters) s'.pc < total (Pc.remaining iters) s.pc := by
  have hcounts := h.counts t
  cases hstep with
  | retries hkind hpc hi hheld => simp [failedAttempt, hpc, hi, hheld] at hmoves
  | locks hpc hi hfree | returns hpc hi =>
      apply total_update_lt
      show _ < (s.pc t).remaining iters
      rw [hpc]
      simp [Pc.remaining]
  | loads hpc | stores hpc | unlocks hpc =>
      apply total_update_lt
      show _ < (s.pc t).remaining iters
      rw [hpc] at hcounts ⊢
      simp only [Pc.Counts, Pc.remaining] at hcounts ⊢
      omega

omit [Fintype T] in
/-- Some worker makes a step that is no failed attempt. -/
theorem Rel.moves (kind : LockKind) {c : Counter.State T} (h : Rel iters s c)
    (hjoined : ¬ Joined s) :
    ∃ t s', next kind iters s t = some s' ∧ failedAttempt iters ⟨s, t, s'⟩ = false := by
  cases howner : s.owner with
  | some u =>
      have hinside : (s.pc u).inside = true := (h.exclusive u).mpr howner
      refine ⟨u, ?_⟩
      cases hpc : s.pc u with
      | loop i | returned i =>
          rw [hpc] at hinside
          cases hinside
      | load i | store i _ | unlock i => simp [next, failedAttempt, hpc]
  | none =>
      obtain ⟨t, ht⟩ := not_forall.mp hjoined
      refine ⟨t, ?_⟩
      cases hpc : s.pc t with
      | loop i => by_cases hi : i < iters <;> simp [next, lockNext, failedAttempt, hpc, hi, howner]
      | returned i => exact (ht ⟨i, hpc⟩).elim
      | load i | store i _ | unlock i => simp [next, failedAttempt, hpc]

omit [Fintype T] in
theorem Rel.step {c : Counter.State T} (h : Rel iters s c) (hnext : next kind iters s t = some s') :
    ∃ c', Rel iters s' c' := by
  cases hobs : storesOf ⟨s, t, s'⟩ with
  | none => exact ⟨c, h.stutter (next_cases hnext) hobs⟩
  | some u =>
      obtain ⟨c', _, hrel⟩ := (simulates T kind iters).step s c t s' u h hnext hobs
      exact ⟨c', hrel⟩

omit [Fintype T] in
theorem Rel.of_runs {ts : List (Transition (State T) T)}
    (hruns : (system kind iters).RunsTo initState ts s) :
    ∃ c, (Counter.system 0 1 fun _ => iters).exec (Counter.initState 0)
      (Lts.observed storesOf ts) = some c ∧ Rel iters s c :=
  Counter.exec_of_simulates (simulates T kind iters) hruns .init

/-- Steps made and steps left are never more than at the start. -/
theorem moves_le {ts : List (Transition (State T) T)}
    (hruns : (system kind iters).RunsTo initState ts s) :
    (ts.filter fun x => !failedAttempt iters x).length + total (Pc.remaining iters) s.pc ≤
      Fintype.card T * (4 * iters + 1) := by
  apply hruns.history (I := fun ts s =>
    (ts.filter fun x => !failedAttempt iters x).length + total (Pc.remaining iters) s.pc ≤
      Fintype.card T * (4 * iters + 1))
  · have hstart : total (Pc.remaining iters) (initState : State T).pc =
        Fintype.card T * (4 * iters + 1) := total_const fun _ => rfl
    simp [hstart]
  · intro ts s₁ t s₂ hruns₁ hle hnext
    rw [List.filter_append, List.length_append]
    cases hfailed : failedAttempt iters ⟨s₁, t, s₂⟩ with
    | true =>
        obtain ⟨_, rfl⟩ := (next_cases hnext).of_failedAttempt hfailed
        simpa [hfailed] using hle
    | false =>
        obtain ⟨c, _, hrel⟩ := Rel.of_runs hruns₁
        have hlt := (next_cases hnext).remaining_lt hrel hfailed
        simp only [hfailed, List.filter_singleton, Bool.not_false, cond_true, List.length_singleton]
        omega

/-- Workers that are scheduled in turn get to their end. -/
theorem Rel.leads_joined {c : Counter.State T} (h : Rel iters s c) :
    ∃ s', (system kind iters).Leads s s' ∧ Joined s' := by
  induction hn : total (Pc.remaining iters) s.pc using Nat.strongRecOn generalizing s c with
  | ind n ih =>
      by_cases hjoined : Joined s
      · exact ⟨s, .refl s, hjoined⟩
      · obtain ⟨t, s₁, hnext, hmoves⟩ := h.moves kind hjoined
        obtain ⟨c₁, hrel⟩ := h.step hnext
        have hlt := (next_cases hnext).remaining_lt h hmoves
        obtain ⟨s', hleads, hend⟩ := ih _ (hn ▸ hlt) hrel rfl
        exact ⟨s', (Lts.Leads.single hnext).trans hleads, hend⟩

theorem mutex_joins_inevitable {c : Counter.State T} (h : Rel iters s c) :
    (mutexWorker T iters).Inevitable Joined s := by
  apply Lts.Inevitable.of_measure (I := fun s => ∃ c, Rel iters s c)
    fun s => total (Pc.remaining iters) s.pc
  · rintro s ⟨c, hrel⟩
    by_cases hjoined : Joined s
    · exact .inl hjoined
    · obtain ⟨t, s', hnext, _⟩ := hrel.moves .mutex hjoined
      exact .inr ⟨t, s', hnext⟩
  · rintro s t s' ⟨c, hrel⟩ hnext
    refine ⟨hrel.step hnext, (next_cases hnext).remaining_lt hrel ?_⟩
    cases hfailed : failedAttempt iters ⟨s, t, s'⟩ with
    | false => rfl
    | true => cases ((next_cases hnext).of_failedAttempt hfailed).1
  · exact ⟨c, h⟩

/-! ## Both counters -/

/-- One worker at a time between its lock and its unlock, whose loaded value stays the
counter's, and a counter that has all stores made so far, and all increments in the end. -/
structure Protected (iters : Nat) (s : State T) : Prop where
  exclusive : ∀ t u, (s.pc t).inside = true → (s.pc u).inside = true → t = u
  current : ∀ t i loaded, s.pc t = .store i loaded → loaded = s.counter
  counter : s.counter = (∑ t, (s.pc t).stored : Nat)
  upper : s.counter ≤ (Fintype.card T * iters : Nat)
  joined : Joined s → s.counter = (Fintype.card T * iters : Nat)

omit [DecidableEq T] in
theorem Rel.protects {c : Counter.State T} (h : Rel iters s c)
    (hinv : Counter.Inv 0 1 (fun _ => iters) c) : Protected iters s := by
  have hquota : ∑ _t : T, iters = Fintype.card T * iters := by simp
  have hvalue : s.counter = (total id c.made : Nat) := by
    rw [← h.value, hinv.value]
    simp
  refine ⟨?_, ?_, ?_, ?_, ?_⟩
  · intro t u ht hu
    have howner := h.exclusive.owner_eq ht
    rw [h.exclusive.owner_eq hu] at howner
    exact (Option.some.inj howner).symm
  · intro t i loaded hpc
    have hfresh := h.fresh t
    rw [hpc] at hfresh
    exact hfresh
  · rw [hvalue, h.made]
    rfl
  · rw [hvalue, ← hquota]
    exact_mod_cast hinv.total_le
  · intro hjoined
    have hdone : ∀ t, c.made t = iters := by
      intro t
      obtain ⟨i, hpc⟩ := hjoined t
      have hcounts := h.counts t
      rw [hpc] at hcounts
      rw [h.made]
      simpa [hpc, Pc.stored, Pc.Counts] using hcounts
    rw [← h.value, hinv.value_of_done hdone, hquota]
    simp

end Invariant

/-- The stores of any run of `mutex_worker`, in their order, are a run of the
counter of the library, and all workers are joined in every run. -/
theorem mutex_counter_exact {T : Type} [Fintype T] [DecidableEq T] {iters : Nat} {s : State T}
    {ts : List (Transition (State T) T)} (hruns : (mutexWorker T iters).RunsTo initState ts s) :
    (Counter.system 0 1 fun _ => iters).exec (Counter.initState 0) (Lts.observed storesOf ts) =
        some ⟨s.counter, fun t => (s.pc t).stored⟩ ∧
      Protected iters s ∧ (mutexWorker T iters).Inevitable Joined s := by
  obtain ⟨c, hexec, hrel⟩ := Rel.of_runs hruns
  have hc : c = ⟨s.counter, fun t => (s.pc t).stored⟩ := by
    rw [← hrel.value, ← hrel.made]
  exact ⟨hc ▸ hexec, hrel.protects (Counter.Inv.init.of_exec hexec), mutex_joins_inevitable hrel⟩

theorem mutex_counter_exact_four_threads :
    ∃ (s : State (Fin 4)) (ts : List (Transition (State (Fin 4)) (Fin 4))),
      (mutexWorker (Fin 4) 2000000).RunsTo initState ts s ∧ Joined s ∧ s.counter = 8000000 := by
  have hends : (mutexWorker (Fin 4) 2000000).Inevitable Joined initState :=
    mutex_joins_inevitable .init
  obtain ⟨ts, s, hruns, hjoined⟩ := hends.exists_run
  exact ⟨s, ts, hruns, hjoined, (mutex_counter_exact hruns).2.1.joined hjoined⟩

/-- The same for `spin_worker`, where a run can go on for ever: but all its steps
are failed attempts then, except for at most four for an increment and one for a
return, and the workers still to be joined can always be. -/
theorem spin_counter_exact {T : Type} [Fintype T] [DecidableEq T] {iters : Nat} {s : State T}
    {ts : List (Transition (State T) T)} (hruns : (spinWorker T iters).RunsTo initState ts s) :
    (Counter.system 0 1 fun _ => iters).exec (Counter.initState 0) (Lts.observed storesOf ts) =
        some ⟨s.counter, fun t => (s.pc t).stored⟩ ∧
      Protected iters s ∧
      (ts.filter fun x => !failedAttempt iters x).length ≤ Fintype.card T * (4 * iters + 1) ∧
      ∃ s', (spinWorker T iters).Leads s s' ∧ Joined s' := by
  obtain ⟨c, hexec, hrel⟩ := Rel.of_runs hruns
  have hc : c = ⟨s.counter, fun t => (s.pc t).stored⟩ := by
    rw [← hrel.value, ← hrel.made]
  have hmoves := moves_le hruns
  exact ⟨hc ▸ hexec, hrel.protects (Counter.Inv.init.of_exec hexec), by omega, hrel.leads_joined⟩

/-- Two workers, one of which finds the lock taken twice. -/
def spinSchedule : List Bool :=
  [false, true, false, true, false, false, true, true, true, true, false, true]

theorem spin_counter_exact_contended :
    ∃ (s : State Bool) (ts : List (Transition (State Bool) Bool)),
      (spinWorker Bool 1).RunsTo initState ts s ∧ Joined s ∧ s.counter = 2 ∧
      (ts.filter (failedAttempt 1)).length = 2 ∧
      (ts.filter fun x => !failedAttempt 1 x).length ≤ 10 := by
  have htrace : (spinWorker Bool 1).trace initState spinSchedule = some (_, _) := rfl
  have hruns := Lts.RunsTo.of_trace htrace
  have hexact := spin_counter_exact hruns
  refine ⟨_, _, hruns, ?_, ?_, rfl, hexact.2.2.1⟩
  · intro t
    exact ⟨1, by cases t <;> rfl⟩
  · refine hexact.2.1.joined ?_
    intro t
    exact ⟨1, by cases t <;> rfl⟩

end OsLabs.Locking
