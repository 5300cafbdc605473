import Mathlib.Data.Fintype.Basic
import OsLabs.Core.Atomic
import OsLabs.Core.LinkedHeap

/-! # The compare-and-swap stack

`push` and `pop`, called by any number of threads and interleaved access by
access. `malloc` returns any address that is not allocated, with any contents.
A read of an address that is not allocated yields any node. The weak
compare-exchange may fail without cause; after a failure the loop loads `old`
again.
-/

namespace OsLabs.LockFree

abbrev Node (Addr : Type) : Type := Cell Addr Int

abbrev Event (T : Type) : Type := Atomic.Event T (StackOp Int) (StackRes Int)

abbrev Phase : Type := Atomic.Phase (StackOp Int) (StackRes Int)

/-- The next access of a thread with its locals. `popRet none` is `return 0`. -/
inductive Pc (Addr : Type) where
  | idle
  | pushMalloc (val : Int)
  | pushVal (val : Int) (n : Addr)
  | pushLoad (val : Int) (n : Addr)
  | pushNext (val : Int) (n : Addr) (old : Option Addr)
  | pushCas (val : Int) (n : Addr) (old : Option Addr)
  | pushRet
  | popLoad
  | popNext (old : Addr)
  | popCas (old : Addr) (next : Option Addr)
  | popVal (old : Addr)
  | popFree (old : Addr) (out : Int)
  | popRet (out : Option Int)
  deriving DecidableEq, Repr

structure State (T Addr : Type) where
  stackTop : Option Addr
  heap : Heap Addr Int
  pc : T → Pc Addr

inductive Act (T Addr : Type) where
  | call (t : T) (op : StackOp Int)
  | malloc (t : T) (n : Addr) (junk : Node Addr)
  | run (t : T) (junk : Node Addr)
  | cas (t : T) (spurious : Bool)
  deriving DecidableEq

def Pc.entry {Addr : Type} : StackOp Int → Pc Addr
  | .push val => .pushMalloc val
  | .pop => .popLoad

section Model

variable {T Addr : Type} [DecidableEq T] [DecidableEq Addr]

def load (heap : Heap Addr Int) (a : Addr) (junk : Node Addr) : Node Addr := (heap a).getD junk

/-- A store to an address that is not allocated allocates nothing. -/
def store (heap : Heap Addr Int) (a : Addr) (f : Node Addr → Node Addr) : Heap Addr Int :=
  Function.update heap a ((heap a).map f)

namespace State

def setPc (s : State T Addr) (t : T) (p : Pc Addr) : State T Addr :=
  { s with pc := Function.update s.pc t p }

/-- `atomic_compare_exchange_weak` succeeds. -/
def casSucceeds (s : State T Addr) (old : Option Addr) (spurious : Bool) : Bool :=
  s.stackTop = old && !spurious

end State

def callNext (s : State T Addr) (t : T) (op : StackOp Int) : Option (State T Addr) :=
  match s.pc t with
  | .idle => some (s.setPc t (.entry op))
  | _ => none

def mallocNext (s : State T Addr) (t : T) (n : Addr) (junk : Node Addr) : Option (State T Addr) :=
  match s.pc t with
  | .pushMalloc val =>
      if s.heap n = none then
        some ({ s with heap := Function.update s.heap n (some junk) }.setPc t (.pushVal val n))
      else none
  | _ => none

def runNext (s : State T Addr) (t : T) (junk : Node Addr) : Option (State T Addr) :=
  match s.pc t with
  | .pushVal val n =>
      some ({ s with heap := store s.heap n fun c => { c with val := val } }.setPc t
        (.pushLoad val n))
  | .pushLoad val n => some (s.setPc t (.pushNext val n s.stackTop))
  | .pushNext val n old =>
      some ({ s with heap := store s.heap n fun c => { c with next := old } }.setPc t
        (.pushCas val n old))
  | .pushRet => some (s.setPc t .idle)
  | .popLoad =>
      match s.stackTop with
      | none => some (s.setPc t (.popRet none))
      | some old => some (s.setPc t (.popNext old))
  | .popNext old => some (s.setPc t (.popCas old (load s.heap old junk).next))
  | .popVal old => some (s.setPc t (.popFree old (load s.heap old junk).val))
  | .popFree old out =>
      some ({ s with heap := Function.update s.heap old none }.setPc t (.popRet (some out)))
  | .popRet _ => some (s.setPc t .idle)
  | .idle | .pushMalloc _ | .pushCas _ _ _ | .popCas _ _ => none

def casNext (s : State T Addr) (t : T) (spurious : Bool) : Option (State T Addr) :=
  match s.pc t with
  | .pushCas val n old =>
      if s.casSucceeds old spurious then some ({ s with stackTop := some n }.setPc t .pushRet)
      else some (s.setPc t (.pushLoad val n))
  | .popCas old next =>
      if s.casSucceeds (some old) spurious then
        some ({ s with stackTop := next }.setPc t (.popVal old))
      else some (s.setPc t .popLoad)
  | _ => none

def next (s : State T Addr) : Act T Addr → Option (State T Addr)
  | .call t op => callNext s t op
  | .malloc t n junk => mallocNext s t n junk
  | .run t junk => runNext s t junk
  | .cas t spurious => casNext s t spurious

def initState : State T Addr := ⟨none, fun _ => none, fun _ => .idle⟩

def system : Lts (State T Addr) (Act T Addr) where
  init s := s = initState
  next := next

/-! ## What a step shows -/

/-- A `push` takes effect at its successful exchange, a `pop` at its successful
exchange or where it loads the null pointer. -/
def event (x : Transition (State T Addr) (Act T Addr)) : Option (Event T) :=
  match x.action with
  | .call t op => some (.call t op)
  | .malloc _ _ _ => none
  | .run t _ =>
      match x.before.pc t with
      | .popLoad => if x.before.stackTop = none then some (.effect t .pop (.popped none)) else none
      | .pushRet => some (.ret t .pushed)
      | .popRet out => some (.ret t (.popped out))
      | _ => none
  | .cas t spurious =>
      match x.before.pc t with
      | .pushCas val _ old =>
          if x.before.casSucceeds old spurious then some (.effect t (.push val) .pushed) else none
      | .popCas old _ =>
          if x.before.casSucceeds (some old) spurious then
            some (.effect t .pop (.popped ((x.before.heap old).map Cell.val)))
          else none
      | _ => none

/-- The pushed nodes that were not popped, after one more step. -/
def relink (l : List (Addr × Int)) (x : Transition (State T Addr) (Act T Addr)) :
    List (Addr × Int) :=
  match x.action with
  | .cas t spurious =>
      match x.before.pc t with
      | .pushCas val n old => if x.before.casSucceeds old spurious then (n, val) :: l else l
      | .popCas old _ =>
          if x.before.casSucceeds (some old) spurious then l.eraseP fun y => y.1 = old else l
      | _ => l
  | _ => l

/-- The nodes a run has pushed and not popped, the last first. -/
def unpopped (ts : List (Transition (State T Addr) (Act T Addr))) : List (Addr × Int) :=
  ts.foldl relink []

/-- The node the next access of the thread dereferences. -/
def Pc.derefs : Pc Addr → Option Addr
  | .pushVal _ n | .pushNext _ n _ => some n
  | .popNext old | .popVal old => some old
  | _ => none

/-- The same for the reads of `old->next` and `old->val` alone. -/
def Pc.popReads : Pc Addr → Option Addr
  | .popNext old | .popVal old => some old
  | _ => none

/-- What `node` says of the thread that makes the step. -/
def touched (node : Pc Addr → Option Addr) (x : Transition (State T Addr) (Act T Addr)) :
    Option Addr :=
  match x.action with
  | .run t _ => node (x.before.pc t)
  | _ => none

/-- The step accesses no node that is not allocated. -/
def AccessesAllocated (accesses : Pc Addr → Option Addr)
    (x : Transition (State T Addr) (Act T Addr)) : Prop :=
  ∀ a ∈ touched accesses x, (x.before.heap a).isSome

/-! ## Who uses a node -/

/-- The node a `push` has not linked yet. -/
def Pc.builds : Pc Addr → Option Addr
  | .pushVal _ n | .pushLoad _ n | .pushNext _ n _ | .pushCas _ n _ => some n
  | _ => none

/-- The node only this thread will change: not linked yet, or unlinked and not freed. -/
def Pc.owns : Pc Addr → Option Addr
  | .pushVal _ n | .pushLoad _ n | .pushNext _ n _ | .pushCas _ n _ => some n
  | .popVal old | .popFree old _ => some old
  | _ => none

/-- `old` of a `pop` between the load of `stack_top` and the exchange. -/
def Pc.holds : Pc Addr → Option Addr
  | .popNext old | .popCas old _ => some old
  | _ => none

def Pc.frees : Pc Addr → Option Addr
  | .popFree old _ => some old
  | _ => none

def Pc.popping : Pc Addr → Bool
  | .popLoad | .popNext _ | .popCas _ _ | .popVal _ | .popFree _ _ | .popRet _ => true
  | _ => false

/-- If the step frees a node, no `pop` holds it. -/
def FreesUnheld (x : Transition (State T Addr) (Act T Addr)) : Prop :=
  ∀ a ∈ touched Pc.frees x, ∀ u, (x.before.pc u).holds ≠ some a

/-- `pop` is called only while no thread is in `pop`. -/
def PopsAlone (x : Transition (State T Addr) (Act T Addr)) : Prop :=
  ∀ t, x.action = .call t .pop → ∀ u, (x.before.pc u).popping = false

instance [Fintype T] (x : Transition (State T Addr) (Act T Addr)) : Decidable (FreesUnheld x) :=
  inferInstanceAs (Decidable (∀ a ∈ touched Pc.frees x, ∀ u, (x.before.pc u).holds ≠ some a))

instance [Fintype T] (x : Transition (State T Addr) (Act T Addr)) : Decidable (PopsAlone x) :=
  inferInstanceAs (Decidable (∀ t, x.action = .call t .pop → ∀ u, (x.before.pc u).popping = false))

end Model

end OsLabs.LockFree
