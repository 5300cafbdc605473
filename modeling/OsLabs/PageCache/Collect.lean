import OsLabs.Core.Lts
import OsLabs.PageCache.Line
import OsLabs.PageCache.Totals

/-! # Children, pipes and the collecting parent

The processes and hybrid path of `main`: the parent opens a pipe and forks for
each child, then reads the pipes in the order of their index and waits once for
each child. Every process has its own table of pipe ends, copied by `fork`; a
pipe is at its end when no process holds its write end. A child is what it does
to the pipes: it writes its totals and exits, or exits before. `pipe`, `fork`
and `fdopen` of the parent succeed.
-/

namespace OsLabs.PageCacheModels

inductive ParentPc where
  | pipe (p : Nat)
  | fork (p : Nat)
  | closeWrite (p : Nat)
  | scan (p : Nat) (buf : List Char)
  | fclose (p : Nat)
  | wait (k : Nat)
  | finished
  deriving DecidableEq

inductive ChildPhase where
  | unborn
  | forked
  | working
  | wrote
  | closed
  | zombie
  | reaped
  deriving DecidableEq

/-- The ends of pipe `q` a process holds open. -/
structure Fds where
  rd : Nat → Bool
  wr : Nat → Bool

def Fds.none : Fds := ⟨fun _ => false, fun _ => false⟩

structure Child where
  phase : ChildPhase
  fds : Fds

/-- `lines` are the lines matched so far, `totals` the three sums of `main`. -/
structure CollectState where
  parent : ParentPc
  fds : Fds
  child : Nat → Child
  data : Nat → List Char
  lines : List PipeLine
  totals : WorkerResult

/-- `reaped` tells `wait` which zombie it returns, `read` how much a read delivers. -/
inductive CollectAct where
  | parent
  | read (n : Nat)
  | reaped (c : Nat)
  | child (c : Nat)
  deriving DecidableEq

/-- The line child `p` writes for its totals. -/
def childLine (p : Nat) (r : WorkerResult) : PipeLine := ⟨p, r.minflt, r.majflt, r.checksum⟩

namespace CollectState

def setChild (s : CollectState) (c : Nat) (phase : ChildPhase) (fds : Fds) : CollectState :=
  { s with child := Function.update s.child c ⟨phase, fds⟩ }

def setData (s : CollectState) (p : Nat) (d : List Char) : CollectState :=
  { s with data := Function.update s.data p d }

/-- `fscanf` returned 4. -/
def matched (s : CollectState) (p : Nat) (l : PipeLine) : CollectState :=
  { s with
    parent := .fclose p
    lines := s.lines ++ [l]
    totals := s.totals.addLong ⟨l.minf, l.majf, l.partSum⟩ }

end CollectState

section Model

variable (procs cap : Nat) (outcome : Nat → Option WorkerResult)

def readOpen (s : CollectState) (q : Nat) : Bool :=
  s.fds.rd q || (List.range procs).any fun c => (s.child c).fds.rd q

def writeOpen (s : CollectState) (q : Nat) : Bool :=
  s.fds.wr q || (List.range procs).any fun c => (s.child c).fds.wr q

/-- `fscanf` where it needs no further input, or finds the pipe at its end. -/
def scanNext (s : CollectState) (p : Nat) (buf : List Char) : Option CollectState :=
  match scanLine false buf with
  | .done l _ => some (s.matched p l)
  | .fail => some { s with parent := .fclose p }
  | .more =>
      if s.data p = [] ∧ writeOpen procs s p = false then
        match scanLine true buf with
        | .done l _ => some (s.matched p l)
        | _ => some { s with parent := .fclose p }
      else none

/-- The read of `fscanf` where it needs input and the pipe has some. -/
def readNext (s : CollectState) (p : Nat) (buf : List Char) (n : Nat) : Option CollectState :=
  match scanLine false buf with
  | .more =>
      if 0 < n ∧ n ≤ (s.data p).length then
        some { s.setData p ((s.data p).drop n) with
          parent := .scan p (buf ++ (s.data p).take n) }
      else none
  | _ => none

/-- `wait(NULL)` returns -1 at once when no child is left. -/
def noChildren (s : CollectState) : Bool :=
  (List.range procs).all fun c => (s.child c).phase = .unborn ∨ (s.child c).phase = .reaped

def parentNext (s : CollectState) : Option CollectState :=
  match s.parent with
  | .pipe p =>
      if p < procs then
        some { s.setData p [] with
          parent := .fork p
          fds := ⟨Function.update s.fds.rd p true, Function.update s.fds.wr p true⟩ }
      else some { s with parent := .scan 0 [] }
  | .fork p => some { s.setChild p .forked s.fds with parent := .closeWrite p }
  | .closeWrite p =>
      some { s with
        parent := .pipe (p + 1)
        fds := { s.fds with wr := Function.update s.fds.wr p false } }
  | .scan p buf =>
      if p < procs then scanNext procs s p buf else some { s with parent := .wait 0 }
  | .fclose p =>
      some { s with
        parent := .scan (p + 1) []
        fds := { s.fds with rd := Function.update s.fds.rd p false } }
  | .wait k =>
      if k < procs then
        if noChildren procs s then some { s with parent := .wait (k + 1) } else none
      else some { s with parent := .finished }
  | .finished => none

/-- `dprintf` is one `write`. It blocks while the pipe has no room, and kills
the child when no process can read the pipe. -/
def writeNext (s : CollectState) (c : Nat) (r : WorkerResult) : Option CollectState :=
  if readOpen procs s c = false then some (s.setChild c .zombie .none)
  else if (s.data c).length + (childLine c r).format.length ≤ cap then
    some ((s.setData c (s.data c ++ (childLine c r).format)).setChild c .wrote (s.child c).fds)
  else none

def childNext (s : CollectState) (c : Nat) : Option CollectState :=
  let fds := (s.child c).fds
  match (s.child c).phase with
  | .forked => some (s.setChild c .working { fds with rd := Function.update fds.rd c false })
  | .working =>
      match outcome c with
      | some r => writeNext procs cap s c r
      | none => some (s.setChild c .zombie .none)
  | .wrote => some (s.setChild c .closed { fds with wr := Function.update fds.wr c false })
  | .closed => some (s.setChild c .zombie .none)
  | .unborn | .zombie | .reaped => none

def collectNext (s : CollectState) : CollectAct → Option CollectState
  | .parent => parentNext procs s
  | .read n =>
      match s.parent with
      | .scan p buf => if p < procs then readNext s p buf n else none
      | _ => none
  | .reaped c =>
      match s.parent with
      | .wait k =>
          if k < procs ∧ c < procs ∧ (s.child c).phase = .zombie then
            some { s.setChild c .reaped (s.child c).fds with parent := .wait (k + 1) }
          else none
      | _ => none
  | .child c => if c < procs then childNext procs cap outcome s c else none

def collectInit : CollectState where
  parent := .pipe 0
  fds := .none
  child := fun _ => ⟨.unborn, .none⟩
  data := fun _ => []
  lines := []
  totals := .zero

def collectSystem : Lts CollectState CollectAct where
  init s := s = collectInit
  next := collectNext procs cap outcome

end Model

end OsLabs.PageCacheModels
