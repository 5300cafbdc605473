import OsLabs.Core.Lts

/-! # Children and zombies

`main` of the lab on processes: a loop forks children, the next loop waits as many
times, and then one more child is forked and waited for. Any `fork` may fail and the
children end in any order. A child that has ended is a zombie until `wait` returns it.
-/

namespace OsLabs.Processes

/-- What `wait` stores into `status`. -/
inductive Status where
  | exited (code : Nat)
  | signaled (sig : Nat)
  deriving DecidableEq

/-- A child that was not waited for. `i` is the variable of the loop, or `none` for the
child behind it; `status` is `none` while the child runs. -/
structure Child (Pid : Type) where
  pid : Pid
  i : Option Nat
  status : Option Status
  deriving DecidableEq

/-- The call `main` makes next. -/
inductive MainPc where
  | fork (i : Nat)
  | wait (i : Nat)
  | forkZombie
  | waitZombie
  | returned
  deriving DecidableEq

structure State (Pid : Type) where
  children : List (Child Pid)
  main : MainPc

inductive Act (Pid : Type) where
  | fork (pid : Option Pid)  -- `none` is a `fork` that fails
  | exit (pid : Pid) (status : Status)
  | wait (pid : Pid)
  | waitFails
  deriving DecidableEq

/-- How a child may end: `_exit(i)`, and `ls` as it likes. -/
def exits : Option Nat → Status → Bool
  | none, status => status = .exited 0
  | some i, status => i = 2 || status = .exited (i % 256)

def MainPc.waits (n i : Nat) : MainPc := if i < n then .wait i else .forkZombie

def MainPc.forks (n i : Nat) : MainPc := if i < n then .fork i else .waits n 0

/-- Behind a `fork`. -/
def MainPc.afterFork (n : Nat) : MainPc → Option MainPc
  | .fork i => some (.forks n (i + 1))
  | .forkZombie => some .waitZombie
  | _ => none

/-- Behind a `wait`. -/
def MainPc.afterWait (n : Nat) : MainPc → Option MainPc
  | .wait i => some (.waits n (i + 1))
  | .waitZombie => some .returned
  | _ => none

/-- The variable of the loop, in its child. -/
def MainPc.index : MainPc → Option Nat
  | .fork i => some i
  | _ => none

section Model

variable {Pid : Type} [DecidableEq Pid]

def State.find (s : State Pid) (pid : Pid) : Option (Child Pid) :=
  s.children.find? fun c => c.pid = pid

def forkNext (n : Nat) (s : State Pid) (pid : Option Pid) : Option (State Pid) :=
  match s.main.afterFork n with
  | none => none
  | some main =>
      match pid with
      | none => some { s with main }
      | some p =>
          if p ∈ s.children.map Child.pid then none
          else some ⟨⟨p, s.main.index, none⟩ :: s.children, main⟩

def exitNext (s : State Pid) (pid : Pid) (status : Status) : Option (State Pid) :=
  match s.find pid with
  | none => none
  | some c =>
      if c.status = none ∧ exits c.i status = true then
        some { s with children := { c with status } :: s.children.erase c }
      else none

def waitNext (n : Nat) (s : State Pid) (pid : Pid) : Option (State Pid) :=
  match s.main.afterWait n with
  | none => none
  | some main =>
      match s.find pid with
      | none => none
      | some c => if c.status.isSome then some ⟨s.children.erase c, main⟩ else none

/-- `wait` returns -1 where there is no child, and blocks where none has ended. -/
def waitFailsNext (n : Nat) (s : State Pid) : Option (State Pid) :=
  match s.main.afterWait n with
  | none => none
  | some main => if s.children = [] then some { s with main } else none

def next (n : Nat) (s : State Pid) : Act Pid → Option (State Pid)
  | .fork pid => forkNext n s pid
  | .exit pid status => exitNext s pid status
  | .wait pid => waitNext n s pid
  | .waitFails => waitFailsNext n s

def initState (n : Nat) : State Pid := ⟨[], .forks n 0⟩

/-- `n` is 3 in the lab. -/
def system (n : Nat) : Lts (State Pid) (Act Pid) where
  init s := s = initState n
  next := next n

/-! ## What a run shows -/

def forkedOf (x : Transition (State Pid) (Act Pid)) : Option (Pid × Option Nat) :=
  match x.action with
  | .fork pid => pid.map fun p => (p, x.before.main.index)
  | _ => none

/-- The children forked. -/
def forked (ts : List (Transition (State Pid) (Act Pid))) : List (Pid × Option Nat) :=
  Lts.observed forkedOf ts

def reapedOf (x : Transition (State Pid) (Act Pid)) : Option (Child Pid) :=
  match x.action with
  | .wait pid => x.before.find pid
  | _ => none

/-- The children that `wait` returned, as it returned them. -/
def reaped (ts : List (Transition (State Pid) (Act Pid))) : List (Child Pid) :=
  Lts.observed reapedOf ts

def forkFailed (x : Transition (State Pid) (Act Pid)) : Bool := x.action = .fork none

def waitFailed (x : Transition (State Pid) (Act Pid)) : Bool := x.action = .waitFails

/-! ## Steps -/

variable {n : Nat} {s s' : State Pid}

inductive Step (n : Nat) (s : State Pid) : Act Pid → State Pid → Prop
  | forks {p : Pid} {main : MainPc} (hmain : s.main.afterFork n = some main)
      (hfresh : p ∉ s.children.map Child.pid) :
      Step n s (.fork (some p)) ⟨⟨p, s.main.index, none⟩ :: s.children, main⟩
  | forkFails {main : MainPc} (hmain : s.main.afterFork n = some main) :
      Step n s (.fork none) { s with main }
  | exits {c : Child Pid} {status : Status} (hc : s.find c.pid = some c) (hrunning : c.status = none)
      (hexits : exits c.i status = true) :
      Step n s (.exit c.pid status) { s with children := { c with status } :: s.children.erase c }
  | waits {c : Child Pid} {main : MainPc} (hmain : s.main.afterWait n = some main)
      (hc : s.find c.pid = some c) (hzombie : c.status.isSome) :
      Step n s (.wait c.pid) ⟨s.children.erase c, main⟩
  | waitFails {main : MainPc} (hmain : s.main.afterWait n = some main) (hnone : s.children = []) :
      Step n s .waitFails { s with main }

theorem pid_of_find {pid : Pid} {c : Child Pid} (h : s.find pid = some c) : c.pid = pid := by
  simpa using List.find?_some h

theorem mem_of_find {pid : Pid} {c : Child Pid} (h : s.find pid = some c) : c ∈ s.children :=
  List.mem_of_find?_eq_some h

theorem next_cases {a : Act Pid} (h : next n s a = some s') : Step n s a s' := by
  cases a with
  | fork pid =>
      simp only [next, forkNext] at h
      split at h
      next => cases h
      next main hmain =>
        cases pid with
        | none =>
            cases h
            exact .forkFails hmain
        | some p =>
            simp only at h
            split at h
            next => cases h
            next hfresh =>
              cases h
              exact .forks hmain hfresh
  | exit pid status =>
      simp only [next, exitNext] at h
      split at h
      next => cases h
      next c hc =>
        split at h
        next hcond =>
          cases h
          obtain rfl := pid_of_find hc
          exact .exits hc hcond.1 hcond.2
        next => cases h
  | wait pid =>
      simp only [next, waitNext] at h
      split at h
      next => cases h
      next main hmain =>
        split at h
        next => cases h
        next c hc =>
          split at h
          next hzombie =>
            cases h
            obtain rfl := pid_of_find hc
            exact .waits hmain hc hzombie
          next => cases h
  | waitFails =>
      simp only [next, waitFailsNext] at h
      split at h
      next => cases h
      next main hmain =>
        split at h
        next hnone =>
          cases h
          exact .waitFails hmain hnone
        next => cases h

/-! ## The invariant -/

def Child.key (c : Child Pid) : Pid × Option Nat := (c.pid, c.i)

/-- The calls of `fork` made so far. -/
def MainPc.forksMade (n : Nat) : MainPc → Nat
  | .fork i => i
  | .wait _ => n
  | .forkZombie => n
  | .waitZombie => n + 1
  | .returned => n + 1

/-- The calls of `wait` made so far. -/
def MainPc.waitsMade (n : Nat) : MainPc → Nat
  | .fork _ => 0
  | .wait i => i
  | .forkZombie => n
  | .waitZombie => n
  | .returned => n + 1

/-- The loops are within their bounds, and a fork was made before with the given `i`. -/
def MainPc.Behind (n : Nat) : MainPc → Option Nat → Prop
  | .fork i, k => ∃ j, k = some j ∧ j < i
  | .wait _, k => ∃ j, k = some j ∧ j < n
  | .forkZombie, k => ∃ j, k = some j ∧ j < n
  | _, _ => True

def MainPc.InBounds (n : Nat) : MainPc → Prop
  | .fork i => i < n
  | .wait i => i < n
  | _ => True

structure Inv (n : Nat) (ts : List (Transition (State Pid) (Act Pid))) (s : State Pid) : Prop where
  accounted : (forked ts).Perm ((reaped ts).map Child.key ++ s.children.map Child.key)
  distinct : (s.children.map Child.pid).Nodup
  running : ∀ c ∈ s.children, ∀ status, c.status = some status → exits c.i status = true
  ended : ∀ c ∈ reaped ts, ∃ status, c.status = some status ∧ exits c.i status = true
  inBounds : s.main.InBounds n
  once : ((forked ts).map Prod.snd).Nodup
  behind : ∀ k ∈ (forked ts).map Prod.snd, s.main.Behind n k
  forks : (forked ts).length + ts.countP forkFailed = s.main.forksMade n
  waits : (reaped ts).length + ts.countP waitFailed = s.main.waitsMade n
  left : s.children.length + s.main.waitsMade n ≤ s.main.forksMade n

theorem MainPc.afterFork_spec {m m' : MainPc} (h : m.afterFork n = some m') (hm : m.InBounds n) :
    m'.InBounds n ∧ m'.forksMade n = m.forksMade n + 1 ∧ m'.waitsMade n = m.waitsMade n ∧
      ¬ m.Behind n m.index ∧ m'.Behind n m.index ∧ ∀ k, m.Behind n k → m'.Behind n k := by
  cases m with
  | fork i =>
      cases h
      simp only [MainPc.InBounds] at hm
      by_cases hi : i + 1 < n
      · simp only [MainPc.forks, if_pos hi, MainPc.index]
        refine ⟨hi, rfl, rfl, ?_, ⟨i, rfl, by omega⟩, ?_⟩
        · rintro ⟨j, hj, hlt⟩
          cases hj
          omega
        · rintro k ⟨j, rfl, hlt⟩
          exact ⟨j, rfl, by omega⟩
      · have hn : i + 1 = n := by omega
        have hpos : 0 < n := by omega
        simp only [MainPc.forks, if_neg hi, MainPc.waits, if_pos hpos, MainPc.index]
        refine ⟨hpos, hn.symm, rfl, ?_, ⟨i, rfl, hm⟩, ?_⟩
        · rintro ⟨j, hj, hlt⟩
          cases hj
          omega
        · rintro k ⟨j, rfl, hlt⟩
          exact ⟨j, rfl, by omega⟩
  | forkZombie =>
      cases h
      refine ⟨trivial, rfl, rfl, ?_, trivial, fun _ _ => trivial⟩
      rintro ⟨j, hj, _⟩
      cases hj
  | _ => cases h

theorem MainPc.afterWait_spec {m m' : MainPc} (h : m.afterWait n = some m') (hm : m.InBounds n) :
    m'.InBounds n ∧ m'.forksMade n = m.forksMade n ∧ m'.waitsMade n = m.waitsMade n + 1 ∧
      m.waitsMade n < m.forksMade n ∧ ∀ k, m.Behind n k → m'.Behind n k := by
  cases m with
  | wait i =>
      cases h
      simp only [MainPc.InBounds] at hm
      by_cases hi : i + 1 < n
      · simp only [MainPc.waits, if_pos hi]
        exact ⟨hi, rfl, rfl, hm, fun _ hk => hk⟩
      · have hn : i + 1 = n := by omega
        simp only [MainPc.waits, if_neg hi]
        exact ⟨trivial, rfl, hn.symm, hm, fun _ hk => hk⟩
  | waitZombie =>
      cases h
      exact ⟨trivial, rfl, rfl, Nat.lt_succ_self n, fun _ _ => trivial⟩
  | _ => cases h

variable {ts : List (Transition (State Pid) (Act Pid))}

theorem Inv.init (n : Nat) : Inv n [] (initState n : State Pid) := by
  have hmain : (initState n : State Pid).main.InBounds n ∧
      (initState n : State Pid).main.forksMade n = 0 ∧
      (initState n : State Pid).main.waitsMade n = 0 := by
    unfold initState MainPc.forks
    by_cases hn : 0 < n
    · rw [if_pos hn]
      exact ⟨hn, rfl, rfl⟩
    · have hzero : n = 0 := by omega
      subst hzero
      exact ⟨trivial, rfl, rfl⟩
  obtain ⟨hbounds, hforks, hwaits⟩ := hmain
  constructor
  · simp [forked, reaped, initState]
  · simp [initState]
  · simp [initState]
  · simp [reaped]
  · exact hbounds
  · simp [forked]
  · simp [forked]
  · simp [forked, hforks]
  · simp [reaped, hwaits]
  · rw [hwaits, hforks]
    exact Nat.le_refl 0

omit [DecidableEq Pid] in
theorem forked_snoc (ts : List (Transition (State Pid) (Act Pid)))
    (x : Transition (State Pid) (Act Pid)) : forked (ts ++ [x]) = forked ts ++ (forkedOf x).toList :=
  Lts.observed_snoc forkedOf ts x

theorem reaped_snoc (ts : List (Transition (State Pid) (Act Pid)))
    (x : Transition (State Pid) (Act Pid)) : reaped (ts ++ [x]) = reaped ts ++ (reapedOf x).toList :=
  Lts.observed_snoc reapedOf ts x

/-- A step that neither forks nor reaps a child. -/
theorem Inv.quiet (h : Inv n ts s) {x : Transition (State Pid) (Act Pid)}
    (hforked : forkedOf x = none) (hreaped : reapedOf x = none)
    (hkeys : (s.children.map Child.key).Perm (s'.children.map Child.key))
    (hpids : (s'.children.map Child.pid).Nodup)
    (hrunning : ∀ c ∈ s'.children, ∀ status, c.status = some status → exits c.i status = true)
    (hbounds : s'.main.InBounds n) (hbehind : ∀ k, s.main.Behind n k → s'.main.Behind n k)
    (hforks : s'.main.forksMade n = s.main.forksMade n + (forkFailed x).toNat)
    (hwaits : s'.main.waitsMade n = s.main.waitsMade n + (waitFailed x).toNat)
    (hleft : s'.children.length + s'.main.waitsMade n ≤ s'.main.forksMade n) :
    Inv n (ts ++ [x]) s' := by
  have hforked' : forked (ts ++ [x]) = forked ts := by simp [forked_snoc, hforked]
  have hreaped' : reaped (ts ++ [x]) = reaped ts := by simp [reaped_snoc, hreaped]
  have hcountP : ∀ q : Transition (State Pid) (Act Pid) → Bool,
      (ts ++ [x]).countP q = ts.countP q + (q x).toNat := by
    intro q
    cases hq : q x <;> simp [hq]
  constructor
  · rw [hforked', hreaped']
    exact h.accounted.trans (hkeys.append_left _)
  · exact hpids
  · exact hrunning
  · rw [hreaped']
    exact h.ended
  · exact hbounds
  · rw [hforked']
    exact h.once
  · rw [hforked']
    exact fun k hk => hbehind k (h.behind k hk)
  · rw [hforked', hcountP, hforks, ← h.forks]
    omega
  · rw [hreaped', hcountP, hwaits, ← h.waits]
    omega
  · exact hleft

theorem Inv.step (h : Inv n ts s) {a : Act Pid} (hstep : Step n s a s') :
    Inv n (ts ++ [⟨s, a, s'⟩]) s' := by
  cases hstep with
  | @forks p main hmain hfresh =>
      obtain ⟨hbounds, hforks, hwaits, hnew, hself, hbehind⟩ := MainPc.afterFork_spec hmain h.inBounds
      have hleft := h.left
      constructor
      · simp only [forked_snoc, reaped_snoc, forkedOf, reapedOf, Option.map_some,
          Option.toList_some, Option.toList_none, List.append_nil, List.map_cons]
        exact (List.perm_append_singleton _ _).trans
          ((h.accounted.cons _).trans List.perm_middle.symm)
      · rw [List.map_cons, List.nodup_cons]
        exact ⟨hfresh, h.distinct⟩
      · intro c hc status hstatus
        rcases List.mem_cons.mp hc with rfl | hmem
        · cases hstatus
        · exact h.running c hmem status hstatus
      · simpa [reaped_snoc, reapedOf] using h.ended
      · exact hbounds
      · simp only [forked_snoc, forkedOf, Option.map_some, Option.toList_some, List.map_append,
          List.map_singleton]
        rw [List.nodup_append]
        refine ⟨h.once, by simp, ?_⟩
        rintro k hk j hj rfl
        rw [List.mem_singleton.mp hj] at hk
        exact hnew (h.behind _ hk)
      · simp only [forked_snoc, forkedOf, Option.map_some, Option.toList_some, List.map_append,
          List.map_singleton, List.forall_mem_append, List.forall_mem_singleton]
        exact ⟨fun k hk => hbehind k (h.behind k hk), hself⟩
      · have hmade := h.forks
        simp [forked_snoc, forkedOf, forkFailed]
        omega
      · have hmade := h.waits
        simp [reaped_snoc, reapedOf, waitFailed]
        omega
      · rw [List.length_cons, hwaits, hforks]
        omega
  | @forkFails main hmain =>
      obtain ⟨hbounds, hforks, hwaits, _, _, hbehind⟩ := MainPc.afterFork_spec hmain h.inBounds
      have hleft := h.left
      refine h.quiet rfl rfl (.refl _) h.distinct h.running hbounds hbehind hforks hwaits ?_
      rw [hforks, hwaits]
      exact Nat.le_succ_of_le hleft
  | @exits c status hc hrunning hexits =>
      have hperm : s.children.Perm (c :: s.children.erase c) :=
        List.perm_cons_erase (mem_of_find hc)
      have hpids := hperm.map Child.pid
      have hlength := hperm.length_eq
      refine h.quiet rfl rfl (hperm.map Child.key) (hpids.nodup_iff.mp h.distinct) ?_ h.inBounds
        (fun _ hk => hk) rfl rfl ?_
      · intro d hd status' hstatus
        rcases List.mem_cons.mp hd with rfl | hmem
        · cases hstatus
          exact hexits
        · exact h.running d (List.mem_of_mem_erase hmem) status' hstatus
      · have hleft := h.left
        rw [hlength] at hleft
        exact hleft
  | @waits c main hmain hc hzombie =>
      obtain ⟨hbounds, hforks, hwaits, hless, hbehind⟩ := MainPc.afterWait_spec hmain h.inBounds
      have hperm : s.children.Perm (c :: s.children.erase c) :=
        List.perm_cons_erase (mem_of_find hc)
      obtain ⟨status, hstatus⟩ := Option.isSome_iff_exists.mp hzombie
      have hexits := h.running c (mem_of_find hc) status hstatus
      constructor
      · simp only [forked_snoc, reaped_snoc, forkedOf, reapedOf, hc, Option.toList_some,
          Option.toList_none, List.append_nil, List.map_append, List.map_singleton]
        rw [List.append_assoc]
        exact h.accounted.trans ((hperm.map Child.key).append_left _)
      · exact h.distinct.sublist (List.erase_sublist.map _)
      · exact fun d hd => h.running d (List.mem_of_mem_erase hd)
      · simp only [reaped_snoc, reapedOf, hc, Option.toList_some, List.forall_mem_append,
          List.forall_mem_singleton]
        exact ⟨h.ended, status, hstatus, hexits⟩
      · exact hbounds
      · simpa [forked_snoc, forkedOf] using h.once
      · simp only [forked_snoc, forkedOf, Option.toList_none, List.append_nil]
        exact fun k hk => hbehind k (h.behind k hk)
      · have hmade := h.forks
        simp [forked_snoc, forkedOf, forkFailed]
        omega
      · have hmade := h.waits
        simp [reaped_snoc, reapedOf, hc, waitFailed]
        omega
      · have hleft := h.left
        rw [hperm.length_eq, List.length_cons] at hleft
        rw [hforks, hwaits]
        show (s.children.erase c).length + _ ≤ _
        omega
  | @waitFails main hmain hnone =>
      obtain ⟨hbounds, hforks, hwaits, hless, hbehind⟩ := MainPc.afterWait_spec hmain h.inBounds
      refine h.quiet rfl rfl (.refl _) h.distinct h.running hbounds hbehind hforks hwaits ?_
      rw [hforks, hwaits, hnone, List.length_nil, Nat.zero_add]
      exact hless

theorem Inv.of_runs (hruns : (system n).RunsTo (initState n : State Pid) ts s) : Inv n ts s := by
  apply hruns.history (I := Inv n) (.init n)
  intro ts₁ s₁ a s₂ _ h hnext
  exact h.step (next_cases hnext)

/-! ## The end -/

def State.running (s : State Pid) : Nat := s.children.countP fun c => c.status = none

omit [DecidableEq Pid] in
theorem MainPc.made_le {m : MainPc} (h : m.InBounds n) : m.forksMade n ≤ n + 1 ∧ m.waitsMade n ≤ n + 1 := by
  cases m <;> simp only [MainPc.InBounds, MainPc.forksMade, MainPc.waitsMade] at h ⊢ <;> omega

/-- Two for each call `main` still makes, and one for each child that runs. -/
def State.remaining (n : Nat) (s : State Pid) : Nat :=
  2 * (2 * (n + 1) - (s.main.forksMade n + s.main.waitsMade n)) + s.running

theorem Step.remaining_lt {a : Act Pid} (hstep : Step n s a s') (hbounds : s.main.InBounds n) :
    s'.remaining n < s.remaining n := by
  unfold State.remaining
  cases hstep with
  | @forks p main hmain hfresh =>
      obtain ⟨hbounds', hforks, hwaits, _⟩ := MainPc.afterFork_spec hmain hbounds
      have hle := MainPc.made_le hbounds'
      have hrunning : (⟨⟨p, s.main.index, none⟩ :: s.children, main⟩ : State Pid).running =
          s.running + 1 := by
        simp [State.running]
      rw [hrunning, hforks, hwaits]
      omega
  | @forkFails main hmain =>
      obtain ⟨hbounds', hforks, hwaits, _⟩ := MainPc.afterFork_spec hmain hbounds
      have hle := MainPc.made_le hbounds'
      have hrunning : ({ s with main := main } : State Pid).running = s.running := rfl
      rw [hrunning, hforks, hwaits]
      omega
  | @exits c status hc hrunning hexits =>
      have hperm := List.perm_cons_erase (mem_of_find hc)
      have hcount := hperm.countP_eq fun c => decide (c.status = none)
      rw [List.countP_cons_of_pos (by simp [hrunning])] at hcount
      apply Nat.add_lt_add_left
      rw [State.running, State.running, hcount, List.countP_cons_of_neg (by simp)]
      exact Nat.lt_succ_self _
  | @waits c main hmain hc hzombie =>
      obtain ⟨hbounds', hforks, hwaits, _⟩ := MainPc.afterWait_spec hmain hbounds
      have hle := MainPc.made_le hbounds'
      have hperm := List.perm_cons_erase (mem_of_find hc)
      have hcount := hperm.countP_eq fun c => decide (c.status = none)
      rw [List.countP_cons_of_neg (by simpa [Option.isSome_iff_ne_none] using hzombie)] at hcount
      have hrunning : (⟨s.children.erase c, main⟩ : State Pid).running = s.running := hcount.symm
      rw [hrunning, hforks, hwaits]
      omega
  | @waitFails main hmain hnone =>
      obtain ⟨hbounds', hforks, hwaits, _⟩ := MainPc.afterWait_spec hmain hbounds
      have hle := MainPc.made_le hbounds'
      have hrunning : ({ s with main := main } : State Pid).running = s.running := rfl
      rw [hrunning, hforks, hwaits]
      omega

theorem exists_exits (i : Option Nat) : ∃ status, exits i status = true := by
  cases i with
  | none => exact ⟨.exited 0, rfl⟩
  | some i => exact ⟨.exited (i % 256), by simp [exits]⟩

theorem enabled_of_not_returned (hreturned : s.main ≠ .returned) : (system n).Enabled s := by
  have hcalls : (∃ main, s.main.afterFork n = some main) ∨ ∃ main, s.main.afterWait n = some main := by
    cases hmain : s.main with
    | fork i => exact .inl ⟨_, rfl⟩
    | forkZombie => exact .inl ⟨_, rfl⟩
    | wait i => exact .inr ⟨_, rfl⟩
    | waitZombie => exact .inr ⟨_, rfl⟩
    | returned => exact (hreturned hmain).elim
  rcases hcalls with ⟨main, hfork⟩ | ⟨main, hwait⟩
  · apply Lts.enabled_of_isSome (.fork none)
    simp [system, next, forkNext, hfork]
  · cases hchildren : s.children with
    | nil =>
        apply Lts.enabled_of_isSome .waitFails
        simp [system, next, waitFailsNext, hwait, hchildren]
    | cons c cs =>
        have hfind : s.find c.pid = some c := by simp [State.find, hchildren]
        cases hstatus : c.status with
        | some status =>
            apply Lts.enabled_of_isSome (.wait c.pid)
            simp [system, next, waitNext, hwait, hfind, hstatus]
        | none =>
            obtain ⟨status, hexits⟩ := exists_exits c.i
            apply Lts.enabled_of_isSome (.exit c.pid status)
            simp [system, next, exitNext, hfind, hstatus, hexits]

theorem Inv.returns (h : Inv n ts s) : (system n).Inevitable (fun s => s.main = .returned) s := by
  apply Lts.Inevitable.of_measure (I := fun s => ∃ ts, Inv n ts s) (State.remaining n)
  · intro s₁ _
    by_cases hreturned : s₁.main = .returned
    · exact .inl hreturned
    · exact .inr (enabled_of_not_returned hreturned)
  · rintro s₁ a s₂ ⟨ts₁, hinv⟩ hnext
    have hstep := next_cases hnext
    exact ⟨⟨_, hinv.step hstep⟩, hstep.remaining_lt hinv.inBounds⟩
  · exact ⟨ts, h⟩

end Model

/-- Whatever forks fail and in whatever order the children end: a child forked is
waited for once, with the status it ended with, or is still there; none is left where
the last child is forked, and where `main` returns, which it does in every run. Each
`fork` that failed makes one `wait` fail. -/
theorem children_reaped {Pid : Type} [DecidableEq Pid] {n : Nat} {s : State Pid}
    {ts : List (Transition (State Pid) (Act Pid))}
    (hruns : (system n).RunsTo (initState n) ts s) :
    (forked ts).Perm ((reaped ts).map Child.key ++ s.children.map Child.key) ∧
      ((reaped ts).map Child.i).Nodup ∧ (s.children.map Child.pid).Nodup ∧
      (∀ c ∈ reaped ts, ∃ status, c.status = some status ∧ exits c.i status = true) ∧
      (s.main = .forkZombie ∨ s.main = .returned →
        s.children = [] ∧ ts.countP waitFailed = ts.countP forkFailed) ∧
      (system n).Inevitable (fun s => s.main = .returned) s := by
  have hinv := Inv.of_runs hruns
  refine ⟨hinv.accounted, ?_, hinv.distinct, hinv.ended, ?_, hinv.returns⟩
  · have hnodup := (hinv.accounted.map Prod.snd).nodup_iff.mp hinv.once
    rw [List.map_append, List.map_map] at hnodup
    exact (List.nodup_append.mp hnodup).1
  · intro hmain
    have hleft := hinv.left
    have hforks := hinv.forks
    have hwaits := hinv.waits
    have hsame : s.main.waitsMade n = s.main.forksMade n := by
      rcases hmain with hmain | hmain <;> rw [hmain] <;> rfl
    have hnone : s.children = [] := List.length_eq_zero_iff.mp (by omega)
    have hlength := hinv.accounted.length_eq
    rw [hnone] at hlength
    simp only [List.map_nil, List.append_nil, List.length_map] at hlength
    exact ⟨hnone, by omega⟩

/-- Three children, the second of which could not be forked; the last one ends first. -/
def threeForks : List (Act Nat) :=
  [.fork (some 101), .fork none, .fork (some 102), .exit 102 (.signaled 9), .wait 102,
    .exit 101 (.exited 0), .wait 101, .waitFails, .fork (some 101), .exit 101 (.exited 0), .wait 101]

theorem children_reaped_three_forks :
    ∃ (ts : List (Transition (State Nat) (Act Nat))) (s : State Nat),
      (system 3).RunsTo (initState 3) ts s ∧ ts.map (·.action) = threeForks ∧
      s.main = .returned ∧ s.children = [] ∧ ts.countP waitFailed = ts.countP forkFailed := by
  have htrace : (system 3).trace (initState 3) threeForks = some (_, _) := rfl
  have hruns := Lts.RunsTo.of_trace htrace
  exact ⟨_, _, hruns, rfl, rfl, (children_reaped hruns).2.2.2.2.1 (.inr rfl)⟩

end OsLabs.Processes
