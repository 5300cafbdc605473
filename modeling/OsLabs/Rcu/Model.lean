import Mathlib.Data.Fintype.Basic
import OsLabs.Core.CInt
import OsLabs.Core.Lts
import OsLabs.Core.Memory

/-! # Readers and one writer of a shared pointer

`rcu_read` by any number of threads and `rcu_update` by one, access by access.
`malloc` returns any address that is not allocated. The two arguments of the
reader's `printf` are evaluated in either order. `old->version+1` has no value
where it overflows.
-/

namespace OsLabs.Rcu

/-- `data_t` -/
structure Data where
  version : Int
  value : Int
  deriving DecidableEq, Repr

/-- Where a reader is; `args` holds the arguments evaluated so far. -/
inductive ReaderPc (Addr : Type) where
  | idle
  | load
  | args (p : Addr) (version value : Option Int)
  deriving DecidableEq

/-- The next access of `rcu_update(val)` with its locals. -/
inductive WriterPc (Addr : Type) where
  | idle
  | load (val : Int)
  | malloc (val : Int) (old : Addr)
  | readOld (val : Int) (old new : Addr)
  | storeVersion (val : Int) (old new : Addr) (version : Int)
  | storeValue (val : Int) (old new : Addr)
  | publish (val : Int) (old new : Addr)
  | free (val : Int) (old new : Addr)
  | print (val : Int) (new : Addr)
  deriving DecidableEq

/-- `todo` are the values of the updates to come. -/
structure State (T Addr : Type) where
  globalData : Addr
  heap : Memory Addr Data
  todo : List Int
  writer : WriterPc Addr
  reader : T → ReaderPc Addr

inductive Act (T Addr : Type) where
  | read (t : T)
  | load (t : T)
  | argVersion (t : T) (junk : Data)
  | argValue (t : T) (junk : Data)
  | print (t : T)
  | update
  | malloc (new : Addr) (junk : Data)
  | writer (junk : Data)
  deriving DecidableEq

section Model

variable {T Addr : Type} [DecidableEq T] [DecidableEq Addr]

def State.setReader (s : State T Addr) (t : T) (pc : ReaderPc Addr) : State T Addr :=
  { s with reader := Function.update s.reader t pc }

def readNext (s : State T Addr) (t : T) : Option (State T Addr) :=
  match s.reader t with
  | .idle => some (s.setReader t .load)
  | _ => none

def loadNext (s : State T Addr) (t : T) : Option (State T Addr) :=
  match s.reader t with
  | .load => some (s.setReader t (.args s.globalData none none))
  | _ => none

def argVersionNext (s : State T Addr) (t : T) (junk : Data) : Option (State T Addr) :=
  match s.reader t with
  | .args p none value => some (s.setReader t (.args p (some (s.heap.load p junk).version) value))
  | _ => none

def argValueNext (s : State T Addr) (t : T) (junk : Data) : Option (State T Addr) :=
  match s.reader t with
  | .args p version none => some (s.setReader t (.args p version (some (s.heap.load p junk).value)))
  | _ => none

def printNext (s : State T Addr) (t : T) : Option (State T Addr) :=
  match s.reader t with
  | .args _ (some _) (some _) => some (s.setReader t .idle)
  | _ => none

def updateNext (s : State T Addr) : Option (State T Addr) :=
  match s.writer, s.todo with
  | .idle, val :: todo => some { s with todo := todo, writer := .load val }
  | _, _ => none

def mallocNext (s : State T Addr) (new : Addr) (junk : Data) : Option (State T Addr) :=
  match s.writer with
  | .malloc val old =>
      if s.heap new = none then
        some { s with heap := s.heap.alloc new junk, writer := .readOld val old new }
      else none
  | _ => none

def writerNext (s : State T Addr) (junk : Data) : Option (State T Addr) :=
  match s.writer with
  | .load val => some { s with writer := .malloc val s.globalData }
  | .readOld val old new => do
      let version ← CInt.checked 32 ((s.heap.load old junk).version + 1)
      some { s with writer := .storeVersion val old new version }
  | .storeVersion val old new version =>
      some { s with
        heap := s.heap.store new fun d => { d with version := version }
        writer := .storeValue val old new }
  | .storeValue val old new =>
      some { s with
        heap := s.heap.store new fun d => { d with value := val }
        writer := .publish val old new }
  | .publish val old new => some { s with globalData := new, writer := .free val old new }
  | .free val old new => some { s with heap := s.heap.free old, writer := .print val new }
  | .print _ _ => some { s with writer := .idle }
  | .idle | .malloc _ _ => none

def next (s : State T Addr) : Act T Addr → Option (State T Addr)
  | .read t => readNext s t
  | .load t => loadNext s t
  | .argVersion t junk => argVersionNext s t junk
  | .argValue t junk => argValueNext s t junk
  | .print t => printNext s t
  | .update => updateNext s
  | .malloc new junk => mallocNext s new junk
  | .writer junk => writerNext s junk

/-- `main` has stored the initial node, and `vals` are the updates to make. -/
def initState (node : Addr) (vals : List Int) : State T Addr where
  globalData := node
  heap := fun a => if a = node then some ⟨0, 0⟩ else none
  todo := vals
  writer := .idle
  reader := fun _ => .idle

def system (node : Addr) (vals : List Int) : Lts (State T Addr) (Act T Addr) where
  init s := s = initState node vals
  next := next

/-! ## What a run shows -/

/-- The node with version `k`, if there is one. -/
def nodeOf (vals : List Int) (k : Nat) : Option Data := (0 :: vals)[k]?.map fun v => ⟨k, v⟩

/-- A line a reader prints, with the number of stores to `global_data` before its
call began. -/
structure Printed where
  before : Nat
  version : Int
  value : Int
  deriving DecidableEq

structure Log (T : Type) where
  stores : Nat
  before : T → Nat
  prints : T → List Printed

def record (log : Log T) (x : Transition (State T Addr) (Act T Addr)) : Log T :=
  match x.action with
  | .read t => { log with before := Function.update log.before t log.stores }
  | .print t =>
      match x.before.reader t with
      | .args _ (some version) (some value) =>
          { log with
            prints := Function.update log.prints t
              (log.prints t ++ [⟨log.before t, version, value⟩]) }
      | _ => log
  | .writer _ =>
      match x.before.writer with
      | .publish _ _ _ => { log with stores := log.stores + 1 }
      | _ => log
  | _ => log

def logOf (ts : List (Transition (State T Addr) (Act T Addr))) : Log T :=
  ts.foldl record ⟨0, fun _ => 0, fun _ => []⟩

/-- The address the step frees. -/
def frees (x : Transition (State T Addr) (Act T Addr)) : Option Addr :=
  match x.action with
  | .writer _ =>
      match x.before.writer with
      | .free _ old _ => some old
      | _ => none
  | _ => none

/-- The contents of the addresses freed, in order. -/
def freed (ts : List (Transition (State T Addr) (Act T Addr))) : List (Option Data) :=
  Lts.observed (fun x => (frees x).map x.before.heap) ts

/-- The node a reader has loaded and not left. -/
def ReaderPc.holds : ReaderPc Addr → Option Addr
  | .args p _ _ => some p
  | _ => none

/-- The node the writer's next access is to. -/
def WriterPc.accesses : WriterPc Addr → Option Addr
  | .readOld _ old _ | .free _ old _ => some old
  | .storeVersion _ _ new _ | .storeValue _ _ new | .print _ new => some new
  | _ => none

def accessed (x : Transition (State T Addr) (Act T Addr)) : Option Addr :=
  match x.action with
  | .argVersion t _ | .argValue t _ => (x.before.reader t).holds
  | .writer _ => x.before.writer.accesses
  | _ => none

/-- The step accesses, or frees, no node but an allocated one. -/
def AccessesAllocated (x : Transition (State T Addr) (Act T Addr)) : Prop :=
  ∀ a ∈ accessed x, (x.before.heap a).isSome

/-- `usleep` is a grace period: no node is freed that a reader holds. -/
def GracePeriod (x : Transition (State T Addr) (Act T Addr)) : Prop :=
  ∀ a ∈ frees x, ∀ t, (x.before.reader t).holds ≠ some a

instance [Fintype T] (x : Transition (State T Addr) (Act T Addr)) : Decidable (GracePeriod x) :=
  inferInstanceAs (Decidable (∀ a ∈ frees x, ∀ t, (x.before.reader t).holds ≠ some a))

end Model

end OsLabs.Rcu
