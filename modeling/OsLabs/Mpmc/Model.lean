import OsLabs.Core.CInt
import OsLabs.Core.Lts

/-! # The ring between producers and consumers

`producer` and `consumer` over two counting semaphores and a mutex, one step
for each semaphore, mutex or memory operation. The threads, their loop bounds
(10 in the source) and `BUFSIZE` are parameters. `usleep` is no step of its own.
-/

namespace OsLabs.Mpmc

/-- The next step of a `producer` with its locals; `returned` keeps the last `i`. -/
inductive ProdPc where
  | loop (i : Nat)
  | semWait (i : Nat)
  | lock (i : Nat)
  | fetchAdd (i : Nat)
  | store (i : Nat) (val : Int)
  | advance (i : Nat) (val : Int)
  | print (i : Nat) (val : Int)
  | unlock (i : Nat)
  | semPost (i : Nat)
  | returned (i : Nat)
  deriving DecidableEq

inductive ConsPc where
  | loop (i : Nat)
  | semWait (i : Nat)
  | lock (i : Nat)
  | load (i : Nat)
  | advance (i : Nat) (val : Int)
  | fetchAdd (i : Nat) (val : Int)
  | print (i : Nat) (val : Int)
  | unlock (i : Nat)
  | semPost (i : Nat)
  | returned (i : Nat)
  deriving DecidableEq

/-- No code of the lab writes `stop`. -/
structure State (P C : Type) where
  emptySlots : Nat
  fullSlots : Nat
  owner : Option (P ⊕ C)
  buffer : Nat → Int
  inI : Nat
  outI : Nat
  totalProduced : Int
  totalConsumed : Int
  stop : Bool
  prod : P → ProdPc
  cons : C → ConsPc

inductive Act (P C : Type) where
  | prod (p : P)
  | cons (c : C)
  deriving DecidableEq

section Model

variable {P C : Type} [DecidableEq P] [DecidableEq C] (iters : P ⊕ C → Nat) (bufSize : Nat)

namespace State

def setProd (s : State P C) (p : P) (pc : ProdPc) : State P C :=
  { s with prod := Function.update s.prod p pc }

def setCons (s : State P C) (c : C) (pc : ConsPc) : State P C :=
  { s with cons := Function.update s.cons c pc }

/-- `buffer[in_i]=val;` -/
def storeBuffer (s : State P C) (val : Int) : State P C :=
  { s with buffer := Function.update s.buffer s.inI val }

/-- `buffer[out_i]` -/
def front (s : State P C) : Int := s.buffer s.outI

end State

/-- `__sync_fetch_and_add(&x,1)` on an `int` wraps around. -/
def fetchAndAdd (x : Int) : Int := CInt.wrap 32 (x + 1)

def prodNext (s : State P C) (p : P) : Option (State P C) :=
  match s.prod p with
  | .loop i =>
      if i < iters (.inl p) ∧ s.stop = false then some (s.setProd p (.semWait i))
      else some (s.setProd p (.returned i))
  | .semWait i =>
      if 0 < s.emptySlots then
        some ({ s with emptySlots := s.emptySlots - 1 }.setProd p (.lock i))
      else none
  | .lock i =>
      if s.owner = none then some ({ s with owner := some (.inl p) }.setProd p (.fetchAdd i))
      else none
  | .fetchAdd i =>
      some ({ s with totalProduced := fetchAndAdd s.totalProduced }.setProd p
        (.store i s.totalProduced))
  | .store i val => some ((s.storeBuffer val).setProd p (.advance i val))
  | .advance i val => some ({ s with inI := (s.inI + 1) % bufSize }.setProd p (.print i val))
  | .print i _ => some (s.setProd p (.unlock i))
  | .unlock i => some ({ s with owner := none }.setProd p (.semPost i))
  | .semPost i => some ({ s with fullSlots := s.fullSlots + 1 }.setProd p (.loop (i + 1)))
  | .returned _ => none

def consNext (s : State P C) (c : C) : Option (State P C) :=
  match s.cons c with
  | .loop i =>
      if i < iters (.inr c) ∧ s.stop = false then some (s.setCons c (.semWait i))
      else some (s.setCons c (.returned i))
  | .semWait i =>
      if 0 < s.fullSlots then
        some ({ s with fullSlots := s.fullSlots - 1 }.setCons c (.lock i))
      else none
  | .lock i =>
      if s.owner = none then some ({ s with owner := some (.inr c) }.setCons c (.load i))
      else none
  | .load i => some (s.setCons c (.advance i s.front))
  | .advance i val => some ({ s with outI := (s.outI + 1) % bufSize }.setCons c (.fetchAdd i val))
  | .fetchAdd i val =>
      some ({ s with totalConsumed := fetchAndAdd s.totalConsumed }.setCons c (.print i val))
  | .print i _ => some (s.setCons c (.unlock i))
  | .unlock i => some ({ s with owner := none }.setCons c (.semPost i))
  | .semPost i => some ({ s with emptySlots := s.emptySlots + 1 }.setCons c (.loop (i + 1)))
  | .returned _ => none

def next (s : State P C) : Act P C → Option (State P C)
  | .prod p => prodNext iters bufSize s p
  | .cons c => consNext iters bufSize s c

def initState : State P C where
  emptySlots := bufSize
  fullSlots := 0
  owner := none
  buffer := fun _ => 0
  inI := 0
  outI := 0
  totalProduced := 0
  totalConsumed := 0
  stop := false
  prod := fun _ => .loop 0
  cons := fun _ => .loop 0

def system : Lts (State P C) (Act P C) where
  init s := s = initState bufSize
  next := next iters bufSize

/-! ## What a step shows -/

/-- The slot a step stores to. -/
def storesSlot (x : Transition (State P C) (Act P C)) : Option Nat :=
  match x.action with
  | .prod p =>
      match x.before.prod p with
      | .store _ _ => some x.before.inI
      | _ => none
  | .cons _ => none

/-- The slot a step loads from. -/
def loadsSlot (x : Transition (State P C) (Act P C)) : Option Nat :=
  match x.action with
  | .prod _ => none
  | .cons c =>
      match x.before.cons c with
      | .load _ => some x.before.outI
      | _ => none

/-- The values of the consumers' critical sections, in their order. -/
def consumed (ts : List (Transition (State P C) (Act P C))) : List Int :=
  Lts.observed (fun x => (loadsSlot x).map x.before.buffer) ts

def markSlot (unread : Nat → Bool) (x : Transition (State P C) (Act P C)) : Nat → Bool :=
  match storesSlot x, loadsSlot x with
  | some k, _ => Function.update unread k true
  | none, some k => Function.update unread k false
  | none, none => unread

/-- The slots written and not read since. -/
def unread (ts : List (Transition (State P C) (Act P C))) : Nat → Bool :=
  ts.foldl markSlot fun _ => false

/-- A store goes to a slot whose value has been read, a load to one written
since its last load. -/
def RespectsSlots (ts : List (Transition (State P C) (Act P C)))
    (x : Transition (State P C) (Act P C)) : Prop :=
  (∀ k, storesSlot x = some k → unread ts k = false) ∧
  (∀ k, loadsSlot x = some k → unread ts k = true)

end Model

/-- Between `sem_wait(&empty_slots)` and `sem_post(&full_slots)`. -/
def ProdPc.inside : ProdPc → Bool
  | .lock _ | .fetchAdd _ | .store _ _ | .advance _ _ | .print _ _ | .unlock _ | .semPost _ => true
  | .loop _ | .semWait _ | .returned _ => false

/-- Between `sem_wait(&full_slots)` and `sem_post(&empty_slots)`. -/
def ConsPc.inside : ConsPc → Bool
  | .lock _ | .load _ | .advance _ _ | .fetchAdd _ _ | .print _ _ | .unlock _ | .semPost _ => true
  | .loop _ | .semWait _ | .returned _ => false

end OsLabs.Mpmc
