import Mathlib.Logic.Function.Basic
import OsLabs.Core.Lts

/-! # Atomic objects

The concurrent meaning of a sequential object: a call takes effect at one point
between its start and its return, and returns the result it had there. A system
whose runs show such histories is linearizable. The stack is such an object.
-/

namespace OsLabs

/-- What an operation makes of a value, and its result. -/
abbrev SeqObject (σ Op Res : Type) : Type := σ → Op → σ × Res

namespace Atomic

inductive Phase (Op Res : Type) where
  | idle
  | pending (op : Op)
  | done (r : Res)

inductive Event (T Op Res : Type) where
  | call (t : T) (op : Op)
  | effect (t : T) (op : Op) (r : Res)
  | ret (t : T) (r : Res)

structure State (T σ Op Res : Type) where
  val : σ
  phase : T → Phase Op Res

section Object

variable {T σ Op Res : Type} [DecidableEq T] [DecidableEq Op] [DecidableEq Res]

def State.setPhase (s : State T σ Op Res) (t : T) (ph : Phase Op Res) : State T σ Op Res :=
  { s with phase := Function.update s.phase t ph }

def next (obj : SeqObject σ Op Res) (s : State T σ Op Res) : Event T Op Res → Option (State T σ Op Res)
  | .call t op =>
      match s.phase t with
      | .idle => some (s.setPhase t (.pending op))
      | _ => none
  | .effect t op r =>
      match s.phase t with
      | .pending op' =>
          if op = op' ∧ r = (obj s.val op).2 then
            some ({ s with val := (obj s.val op).1 }.setPhase t (.done r))
          else none
      | _ => none
  | .ret t r =>
      match s.phase t with
      | .done r' => if r = r' then some (s.setPhase t .idle) else none
      | _ => none

def initState (v : σ) : State T σ Op Res := ⟨v, fun _ => .idle⟩

def system (obj : SeqObject σ Op Res) (v : σ) : Lts (State T σ Op Res) (Event T Op Res) where
  init s := s = initState v
  next := next obj

inductive Step (obj : SeqObject σ Op Res) (s : State T σ Op Res) :
    Event T Op Res → State T σ Op Res → Prop
  | call {t : T} {op : Op} (hphase : s.phase t = .idle) :
      Step obj s (.call t op) (s.setPhase t (.pending op))
  | effect {t : T} {op : Op} (hphase : s.phase t = .pending op) :
      Step obj s (.effect t op (obj s.val op).2)
        ({ s with val := (obj s.val op).1 }.setPhase t (.done (obj s.val op).2))
  | ret {t : T} {r : Res} (hphase : s.phase t = .done r) :
      Step obj s (.ret t r) (s.setPhase t .idle)

theorem next_cases {obj : SeqObject σ Op Res} {s s' : State T σ Op Res} {e : Event T Op Res}
    (h : next obj s e = some s') : Step obj s e s' := by
  cases e with
  | call t op =>
      simp only [next] at h
      split at h
      next hphase =>
        cases h
        exact .call hphase
      next => cases h
  | effect t op r =>
      simp only [next] at h
      split at h
      next op' hphase =>
        split at h
        next heq =>
          rcases heq with ⟨rfl, rfl⟩
          cases h
          exact .effect hphase
        next => cases h
      next => cases h
  | ret t r =>
      simp only [next] at h
      split at h
      next r' hphase =>
        split at h
        next heq =>
          subst heq
          cases h
          exact .ret hphase
        next => cases h
      next => cases h

/-! ## Returns -/

/-- The results of the effects of `t`. -/
def resultsOf (t : T) (es : List (Event T Op Res)) : List Res :=
  es.filterMap fun
    | .effect u _ r => if u = t then some r else none
    | _ => none

/-- What the calls of `t` return. -/
def returnsOf (t : T) (es : List (Event T Op Res)) : List Res :=
  es.filterMap fun
    | .ret u r => if u = t then some r else none
    | _ => none

def Phase.result : Phase Op Res → List Res
  | .done r => [r]
  | _ => []

/-- Every call returns the result of its effect. -/
theorem exec_returns {obj : SeqObject σ Op Res} {v : σ} {es : List (Event T Op Res)}
    {s s' : State T σ Op Res} (h : (system obj v).exec s es = some s') (t : T) :
    (s.phase t).result ++ resultsOf t es = returnsOf t es ++ (s'.phase t).result := by
  induction es generalizing s with
  | nil =>
      cases h
      simp [resultsOf, returnsOf]
  | cons e es ih =>
      rcases Option.bind_eq_some_iff.mp h with ⟨s₁, hstep, hrest⟩
      have htail := ih hrest
      cases next_cases hstep with
      | @call u op hphase =>
          by_cases htu : t = u
          · subst htu
            simpa [resultsOf, returnsOf, State.setPhase, hphase, Phase.result] using htail
          · simpa [resultsOf, returnsOf, State.setPhase, htu] using htail
      | @effect u op hphase =>
          by_cases htu : t = u
          · subst htu
            simpa [resultsOf, returnsOf, State.setPhase, hphase, Phase.result] using htail
          · simpa [resultsOf, returnsOf, State.setPhase, htu, Ne.symm htu] using htail
      | @ret u r hphase =>
          by_cases htu : t = u
          · subst htu
            simpa [resultsOf, returnsOf, State.setPhase, hphase, Phase.result] using htail
          · simpa [resultsOf, returnsOf, State.setPhase, htu, Ne.symm htu] using htail

end Object

end Atomic

/-! ## Stacks -/

inductive StackOp (α : Type) where
  | push (a : α)
  | pop
  deriving DecidableEq, Repr

inductive StackRes (α : Type) where
  | pushed
  | popped (a : Option α)
  deriving DecidableEq, Repr

namespace Lifo

variable {T α : Type}

/-- `pop` takes the last value pushed that is still there. -/
def stack : SeqObject (List α) (StackOp α) (StackRes α)
  | l, .push a => (a :: l, .pushed)
  | [], .pop => ([], .popped none)
  | a :: l, .pop => (l, .popped (some a))

def pushes (es : List (Atomic.Event T (StackOp α) (StackRes α))) : List α :=
  es.filterMap fun
    | .effect _ (.push a) _ => some a
    | _ => none

def pops (es : List (Atomic.Event T (StackOp α) (StackRes α))) : List α :=
  es.filterMap fun
    | .effect _ _ (.popped r) => r
    | _ => none

/-- Every value pushed was popped once or is still there. -/
theorem exec_perm [DecidableEq T] [DecidableEq α] {v : List α}
    {es : List (Atomic.Event T (StackOp α) (StackRes α))}
    {s s' : Atomic.State T (List α) (StackOp α) (StackRes α)}
    (h : (Atomic.system stack v).exec s es = some s') :
    (s.val ++ pushes es).Perm (pops es ++ s'.val) := by
  induction es generalizing s with
  | nil =>
      cases h
      simp [pushes, pops]
  | cons e es ih =>
      rcases Option.bind_eq_some_iff.mp h with ⟨s₁, hstep, hrest⟩
      have htail := ih hrest
      cases Atomic.next_cases hstep with
      | call _ => simpa [pushes, pops, Atomic.State.setPhase] using htail
      | ret _ => simpa [pushes, pops, Atomic.State.setPhase] using htail
      | @effect t op hphase =>
          cases op with
          | push a =>
              have hmoved : (s.val ++ a :: pushes es).Perm (a :: (s.val ++ pushes es)) :=
                List.perm_middle
              simpa [pushes, pops, Atomic.State.setPhase, stack] using hmoved.trans htail
          | pop =>
              cases hval : s.val with
              | nil => simpa [pushes, pops, Atomic.State.setPhase, stack, hval] using htail
              | cons a l =>
                  have hmoved := htail.cons a
                  simpa [pushes, pops, Atomic.State.setPhase, stack, hval] using hmoved

end Lifo

end OsLabs
