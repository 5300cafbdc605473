import Mathlib.Data.Fintype.Card
import OsLabs.Core.Lts

/-! # The bounded buffer with two condition variables

`produce`, `consume` and the end of `producer`, run by any number of threads
under one mutex. `pthread_cond_wait` releases the mutex and falls asleep in one
step; a woken thread takes the mutex again before it looks at the condition.
The threads' own programs are a parameter: what they may call next, and what
they make of the value `consume` returns. `BUFSIZE` is a parameter too.
-/

namespace OsLabs.CondVar

inductive Op where
  | produce (val : Int)
  | consume
  | finish
  deriving DecidableEq, Repr

/-- Where a thread is. `lock` is also the re-locking in `pthread_cond_wait`. -/
inductive Pc where
  | idle
  | prodLock (val : Int)
  | prodTest (val : Int)
  | prodWait (val : Int)
  | prodStore (val : Int)
  | prodSignal
  | prodUnlock
  | consLock
  | consTest
  | consWait
  | consCheck
  | consFail
  | consTake
  | consSignal (val : Int)
  | consUnlock (val : Int)
  | finLock
  | finSet
  | finBroadcast
  | finUnlock
  deriving DecidableEq, Repr

/-- The program of the threads: the calls it allows, and its state once
`consume` has returned. -/
structure Client (L : Type) where
  call : L → Op → Option L
  ret : L → Int → L

/-- The array with its counter and its two indices. -/
structure Ring where
  buffer : Nat → Int
  count : Int
  inIdx : Nat
  outIdx : Nat

structure State (T L : Type) where
  owner : Option T
  pc : T → Pc
  loc : T → L
  ring : Ring
  done : Bool

/-- `signal t w` is the signal of thread `t` that wakes `w`, or nobody. -/
inductive Act (T : Type) where
  | call (t : T) (op : Op)
  | run (t : T)
  | signal (t : T) (woken : Option T)
  | spurious (t : T)

namespace Pc

def entry : Op → Pc
  | .produce val => .prodLock val
  | .consume => .consLock
  | .finish => .finLock

def waitsNotFull : Pc → Bool
  | .prodWait _ => true
  | _ => false

def waitsNotEmpty : Pc → Bool
  | .consWait => true
  | _ => false

def wake : Pc → Pc
  | .prodWait val => .prodLock val
  | .consWait => .consLock
  | p => p

end Pc

namespace Ring

/-- `buffer[in_idx]=val;in_idx=(in_idx+1)%BUFSIZE;count++;` -/
def store (bufSize : Nat) (r : Ring) (val : Int) : Ring :=
  { r with
    buffer := Function.update r.buffer r.inIdx val
    inIdx := (r.inIdx + 1) % bufSize
    count := r.count + 1 }

/-- `out_idx=(out_idx+1)%BUFSIZE;count--;` -/
def take (bufSize : Nat) (r : Ring) : Ring :=
  { r with
    outIdx := (r.outIdx + 1) % bufSize
    count := r.count - 1 }

/-- `buffer[out_idx]` -/
def front (r : Ring) : Int := r.buffer r.outIdx

end Ring

section Model

variable {T L : Type} [DecidableEq T] (client : Client L) (bufSize : Nat)

namespace State

def setPc (s : State T L) (t : T) (p : Pc) : State T L := { s with pc := Function.update s.pc t p }

def lock (s : State T L) (t : T) (p : Pc) : Option (State T L) :=
  if s.owner = none then some { s.setPc t p with owner := some t } else none

def unlock (s : State T L) (t : T) (p : Pc) : State T L := { s.setPc t p with owner := none }

def returns (s : State T L) (t : T) (val : Int) : State T L :=
  { s with loc := Function.update s.loc t (client.ret (s.loc t) val) }

/-- `pthread_cond_signal`: one waiter is woken if there is any. -/
def signal [Fintype T] (s : State T L) (waits : Pc → Bool) (woken : Option T) : Option (State T L) :=
  match woken with
  | some w => if waits (s.pc w) then some (s.setPc w (s.pc w).wake) else none
  | none => if ∀ w, waits (s.pc w) = false then some s else none

/-- `pthread_cond_broadcast(&not_empty)` -/
def broadcast (s : State T L) : State T L :=
  { s with pc := fun w => if (s.pc w).waitsNotEmpty then (s.pc w).wake else s.pc w }

end State

def runNext (s : State T L) (t : T) : Option (State T L) :=
  match s.pc t with
  | .prodLock val => s.lock t (.prodTest val)
  | .prodTest val =>
      if s.ring.count = bufSize then some (s.unlock t (.prodWait val))
      else some (s.setPc t (.prodStore val))
  | .prodStore val => some ({ s with ring := s.ring.store bufSize val }.setPc t .prodSignal)
  | .prodUnlock => some (s.unlock t .idle)
  | .consLock => s.lock t .consTest
  | .consTest =>
      if s.ring.count = 0 ∧ s.done = false then some (s.unlock t .consWait)
      else some (s.setPc t .consCheck)
  | .consCheck =>
      if s.ring.count = 0 ∧ s.done = true then some (s.setPc t .consFail)
      else some (s.setPc t .consTake)
  | .consFail => some ((s.returns client t (-1)).unlock t .idle)
  | .consTake => some ({ s with ring := s.ring.take bufSize }.setPc t (.consSignal s.ring.front))
  | .consUnlock val => some ((s.returns client t val).unlock t .idle)
  | .finLock => s.lock t .finSet
  | .finSet => some ({ s with done := true }.setPc t .finBroadcast)
  | .finBroadcast => some (s.broadcast.setPc t .finUnlock)
  | .finUnlock => some (s.unlock t .idle)
  | .idle | .prodWait _ | .prodSignal | .consWait | .consSignal _ => none

def signalNext [Fintype T] (s : State T L) (t : T) (woken : Option T) : Option (State T L) :=
  match s.pc t with
  | .prodSignal => (s.signal Pc.waitsNotEmpty woken).map fun s' => s'.setPc t .prodUnlock
  | .consSignal val => (s.signal Pc.waitsNotFull woken).map fun s' => s'.setPc t (.consUnlock val)
  | _ => none

def callNext (s : State T L) (t : T) (op : Op) : Option (State T L) :=
  if s.pc t = .idle then
    (client.call (s.loc t) op).map fun l =>
      { s.setPc t (Pc.entry op) with loc := Function.update s.loc t l }
  else none

def next [Fintype T] (s : State T L) : Act T → Option (State T L)
  | .call t op => callNext client s t op
  | .run t => runNext client bufSize s t
  | .signal t woken => signalNext s t woken
  | .spurious t =>
      if (s.pc t).waitsNotFull || (s.pc t).waitsNotEmpty then some (s.setPc t (s.pc t).wake)
      else none

def initState (loc : T → L) : State T L where
  owner := none
  pc := fun _ => .idle
  loc := loc
  ring := ⟨fun _ => 0, 0, 0, 0⟩
  done := false

def system [Fintype T] (loc : T → L) : Lts (State T L) (Act T) where
  init s := s = initState loc
  next := next client bufSize

end Model

end OsLabs.CondVar
