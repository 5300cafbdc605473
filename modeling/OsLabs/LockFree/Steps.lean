import OsLabs.LockFree.Stack

/-! # Steps of the compare-and-swap stack, and the discipline of one popper -/

namespace OsLabs.LockFree

section Model

variable {T Addr : Type} [DecidableEq T] [DecidableEq Addr] {s s' : State T Addr}

inductive Step (s : State T Addr) : Act T Addr → State T Addr → Prop
  | call {t : T} {op : StackOp Int} (hpc : s.pc t = .idle) :
      Step s (.call t op) (s.setPc t (.entry op))
  | malloc {t : T} {val : Int} {n : Addr} {junk : Node Addr} (hpc : s.pc t = .pushMalloc val)
      (hfree : s.heap n = none) :
      Step s (.malloc t n junk)
        ({ s with heap := Function.update s.heap n (some junk) }.setPc t (.pushVal val n))
  | storesVal {t : T} {val : Int} {n : Addr} {junk : Node Addr} (hpc : s.pc t = .pushVal val n) :
      Step s (.run t junk)
        ({ s with heap := store s.heap n fun c => { c with val := val } }.setPc t
          (.pushLoad val n))
  | pushLoads {t : T} {val : Int} {n : Addr} {junk : Node Addr} (hpc : s.pc t = .pushLoad val n) :
      Step s (.run t junk) (s.setPc t (.pushNext val n s.stackTop))
  | storesNext {t : T} {val : Int} {n : Addr} {old : Option Addr} {junk : Node Addr}
      (hpc : s.pc t = .pushNext val n old) :
      Step s (.run t junk)
        ({ s with heap := store s.heap n fun c => { c with next := old } }.setPc t
          (.pushCas val n old))
  | pushReturns {t : T} {junk : Node Addr} (hpc : s.pc t = .pushRet) :
      Step s (.run t junk) (s.setPc t .idle)
  | popLoadsNull {t : T} {junk : Node Addr} (hpc : s.pc t = .popLoad) (htop : s.stackTop = none) :
      Step s (.run t junk) (s.setPc t (.popRet none))
  | popLoads {t : T} {old : Addr} {junk : Node Addr} (hpc : s.pc t = .popLoad)
      (htop : s.stackTop = some old) : Step s (.run t junk) (s.setPc t (.popNext old))
  | readsNext {t : T} {old : Addr} {junk : Node Addr} (hpc : s.pc t = .popNext old) :
      Step s (.run t junk) (s.setPc t (.popCas old (load s.heap old junk).next))
  | readsVal {t : T} {old : Addr} {junk : Node Addr} (hpc : s.pc t = .popVal old) :
      Step s (.run t junk) (s.setPc t (.popFree old (load s.heap old junk).val))
  | frees {t : T} {old : Addr} {out : Int} {junk : Node Addr} (hpc : s.pc t = .popFree old out) :
      Step s (.run t junk)
        ({ s with heap := Function.update s.heap old none }.setPc t (.popRet (some out)))
  | popReturns {t : T} {out : Option Int} {junk : Node Addr} (hpc : s.pc t = .popRet out) :
      Step s (.run t junk) (s.setPc t .idle)
  | links {t : T} {val : Int} {n : Addr} {old : Option Addr} {spurious : Bool}
      (hpc : s.pc t = .pushCas val n old) (hcas : s.casSucceeds old spurious = true) :
      Step s (.cas t spurious) ({ s with stackTop := some n }.setPc t .pushRet)
  | pushRetries {t : T} {val : Int} {n : Addr} {old : Option Addr} {spurious : Bool}
      (hpc : s.pc t = .pushCas val n old) (hcas : s.casSucceeds old spurious = false) :
      Step s (.cas t spurious) (s.setPc t (.pushLoad val n))
  | unlinks {t : T} {old : Addr} {next : Option Addr} {spurious : Bool}
      (hpc : s.pc t = .popCas old next) (hcas : s.casSucceeds (some old) spurious = true) :
      Step s (.cas t spurious) ({ s with stackTop := next }.setPc t (.popVal old))
  | popRetries {t : T} {old : Addr} {next : Option Addr} {spurious : Bool}
      (hpc : s.pc t = .popCas old next) (hcas : s.casSucceeds (some old) spurious = false) :
      Step s (.cas t spurious) (s.setPc t .popLoad)

theorem runNext_cases {t : T} {junk : Node Addr} (h : runNext s t junk = some s') :
    Step s (.run t junk) s' := by
  unfold runNext at h
  split at h
  next val n hpc =>
    cases h
    exact .storesVal hpc
  next val n hpc =>
    cases h
    exact .pushLoads hpc
  next val n old hpc =>
    cases h
    exact .storesNext hpc
  next hpc =>
    cases h
    exact .pushReturns hpc
  next hpc =>
    split at h
    next htop =>
      cases h
      exact .popLoadsNull hpc htop
    next old htop =>
      cases h
      exact .popLoads hpc htop
  next old hpc =>
    cases h
    exact .readsNext hpc
  next old hpc =>
    cases h
    exact .readsVal hpc
  next old out hpc =>
    cases h
    exact .frees hpc
  next out hpc =>
    cases h
    exact .popReturns hpc
  all_goals cases h

theorem casNext_cases {t : T} {spurious : Bool} (h : casNext s t spurious = some s') :
    Step s (.cas t spurious) s' := by
  unfold casNext at h
  split at h
  next val n old hpc =>
    split at h
    next hcas =>
      cases h
      exact .links hpc hcas
    next hcas =>
      cases h
      exact .pushRetries hpc (Bool.eq_false_iff.mpr hcas)
  next old next hpc =>
    split at h
    next hcas =>
      cases h
      exact .unlinks hpc hcas
    next hcas =>
      cases h
      exact .popRetries hpc (Bool.eq_false_iff.mpr hcas)
  next => cases h

/-- Every step of the system is one of `Step`. -/
theorem next_cases {a : Act T Addr} (h : next s a = some s') : Step s a s' := by
  cases a with
  | call t op =>
      simp only [next, callNext] at h
      split at h
      next hpc =>
        cases h
        exact .call hpc
      next => cases h
  | malloc t n junk =>
      simp only [next, mallocNext] at h
      split at h
      next val hpc =>
        split at h
        next hfree =>
          cases h
          exact .malloc hpc hfree
        next => cases h
      next => cases h
  | run t junk => exact runNext_cases h
  | cas t spurious => exact casNext_cases h

/-! ## One thread in `pop` -/

def Act.thread : Act T Addr → T
  | .call t _ | .malloc t _ _ | .run t _ | .cas t _ => t

/-- A step moves one thread, and brings it into `pop` only by a call. -/
theorem Step.pc {a : Act T Addr} (h : Step s a s') :
    ∃ p, s'.pc = Function.update s.pc a.thread p ∧
      (p.popping = true → (s.pc a.thread).popping = true ∨ a = .call a.thread .pop) := by
  cases h with
  | @call t op _ =>
      refine ⟨_, rfl, fun hpopping => ?_⟩
      cases op with
      | push val => cases hpopping
      | pop => exact .inr rfl
  | malloc _ _ => exact ⟨_, rfl, fun hpopping => by cases hpopping⟩
  | storesVal _ => exact ⟨_, rfl, fun hpopping => by cases hpopping⟩
  | pushLoads _ => exact ⟨_, rfl, fun hpopping => by cases hpopping⟩
  | storesNext _ => exact ⟨_, rfl, fun hpopping => by cases hpopping⟩
  | pushReturns _ => exact ⟨_, rfl, fun hpopping => by cases hpopping⟩
  | popLoadsNull hpc _ => exact ⟨_, rfl, fun _ => .inl (by rw [Act.thread, hpc]; rfl)⟩
  | popLoads hpc _ => exact ⟨_, rfl, fun _ => .inl (by rw [Act.thread, hpc]; rfl)⟩
  | readsNext hpc => exact ⟨_, rfl, fun _ => .inl (by rw [Act.thread, hpc]; rfl)⟩
  | readsVal hpc => exact ⟨_, rfl, fun _ => .inl (by rw [Act.thread, hpc]; rfl)⟩
  | frees hpc => exact ⟨_, rfl, fun _ => .inl (by rw [Act.thread, hpc]; rfl)⟩
  | popReturns _ => exact ⟨_, rfl, fun hpopping => by cases hpopping⟩
  | links _ _ => exact ⟨_, rfl, fun hpopping => by cases hpopping⟩
  | pushRetries _ _ => exact ⟨_, rfl, fun hpopping => by cases hpopping⟩
  | unlinks hpc _ => exact ⟨_, rfl, fun _ => .inl (by rw [Act.thread, hpc]; rfl)⟩
  | popRetries hpc _ => exact ⟨_, rfl, fun _ => .inl (by rw [Act.thread, hpc]; rfl)⟩

def OnePopper (s : State T Addr) : Prop :=
  ∀ t u, (s.pc t).popping = true → (s.pc u).popping = true → t = u

theorem OnePopper.step (h : OnePopper s) {a : Act T Addr} (hstep : Step s a s')
    (halone : PopsAlone ⟨s, a, s'⟩) : OnePopper s' := by
  rcases hstep.pc with ⟨p, hpc, hpopping⟩
  have hothers : p.popping = true → ∀ u, u ≠ a.thread → (s.pc u).popping = false := by
    intro hp u hu
    rcases hpopping hp with hself | hcall
    · rw [Bool.eq_false_iff]
      exact fun hpop => hu (h u a.thread hpop hself)
    · exact halone a.thread hcall u
  intro t u ht hu
  rw [hpc] at ht hu
  by_cases htself : t = a.thread
  · by_cases huself : u = a.thread
    · rw [htself, huself]
    · rw [htself, Function.update_self] at ht
      rw [Function.update_of_ne huself, hothers ht u huself] at hu
      cases hu
  · rw [Function.update_of_ne htself] at ht
    by_cases huself : u = a.thread
    · rw [huself, Function.update_self] at hu
      rw [hothers hu t htself] at ht
      cases ht
    · rw [Function.update_of_ne huself] at hu
      exact h t u ht hu

omit [DecidableEq Addr] in
theorem Pc.popping_of_holds {p : Pc Addr} {a : Addr} (h : p.holds = some a) : p.popping = true := by
  cases p <;> first | rfl | cases h

omit [DecidableEq Addr] in
theorem Pc.popping_of_frees {p : Pc Addr} {a : Addr} (h : p.frees = some a) : p.popping = true := by
  cases p <;> first | rfl | cases h

omit [DecidableEq Addr] in
theorem Pc.holds_of_frees {p : Pc Addr} {a : Addr} (h : p.frees = some a) : p.holds = none := by
  cases p <;> first | rfl | cases h

omit [DecidableEq T] [DecidableEq Addr] in
/-- The only thread in `pop` frees no node that another one holds. -/
theorem OnePopper.freesUnheld (h : OnePopper s) (a : Act T Addr) (s' : State T Addr) :
    FreesUnheld ⟨s, a, s'⟩ := by
  intro old hold u hu
  cases a with
  | run t junk =>
      have ht : (s.pc t).frees = some old := hold
      have hself : u = t := h u t (Pc.popping_of_holds hu) (Pc.popping_of_frees ht)
      rw [hself, Pc.holds_of_frees ht] at hu
      cases hu
  | _ => cases hold

end Model

end OsLabs.LockFree
