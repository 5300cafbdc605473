import OsLabs.Core.FileSystem

/-! # The atomic file update

The calls by which the lab replaces a file: it writes a temporary file, syncs it,
renames it and syncs the directory. It does so twice, with `open` and with
`mkstemp`. What the calls return is a parameter.
-/

namespace OsLabs.CrashRecovery

abbrev Path : Type := String

/-- The file a path led to at first, and the one an `open` creates. -/
inductive Ino where
  | old (path : Path)
  | new
  deriving DecidableEq

/-- Every path is absent or leads to a file of its own. -/
def files (prev : Path → Option (List UInt8)) : Files Path Ino UInt8 where
  dir path := (prev path).map fun _ => .old path
  data
    | .old path => (prev path).getD []
    | .new => []

/-! ## Calls -/

/-- The results of the calls: a success or not, the bytes written, and the six
characters `mkstemp` puts in. -/
structure Results where
  opened : Bool
  suffix : String
  written : Option Nat
  synced : Bool
  renamed : Bool
  dirOpened : Bool
  dirSynced : Bool
  unlinked : Bool

inductive Call where
  | openTrunc (path : Path) (ok : Bool)
  | mkstemp (path : Path) (ok : Bool)
  | write (bytes : List UInt8) (n : Option Nat)
  | fsync (ok : Bool)
  | rename (old new : Path) (ok : Bool)
  | openDir (ok : Bool)
  | fsyncDir (ok : Bool)
  | unlink (path : Path) (ok : Bool)
  deriving DecidableEq

/-- `fd` is -1 or refers to a file; `dirFd` tells whether the directory is open. -/
structure State where
  disk : Disk Path Ino UInt8
  fd : Option Ino
  dirFd : Bool

def init (prev : Path → Option (List UInt8)) : State := ⟨⟨files prev, []⟩, none, false⟩

def State.add (s : State) (es : List (Effect Path Ino UInt8)) : State :=
  { s with disk := s.disk.add es }

def writeEffects (ino : Ino) (bytes : List UInt8) : List (Effect Path Ino UInt8) :=
  bytes.zipIdx.map fun b => .byte ino b.2 b.1

/-- The effect of a call. On a descriptor that is -1 a call only fails, and so does
a `rename` of a name that does not exist. Descriptors are closed when synced. -/
def State.exec (s : State) : Call → State
  | .openTrunc path true =>
      match s.disk.current.dir path with
      | some ino => { s.add [.truncate ino] with fd := some ino }
      | none => { s.add [.entry path (some .new)] with fd := some .new }
  | .mkstemp path true => { s.add [.entry path (some .new)] with fd := some .new }
  | .openTrunc _ false | .mkstemp _ false => { s with fd := none }
  | .write bytes n =>
      match s.fd, n with
      | some ino, some n => s.add (writeEffects ino (bytes.take n))
      | _, _ => s
  | .fsync ok =>
      match s.fd with
      | some ino => { s with disk := if ok then s.disk.sync (.data ino) else s.disk, fd := none }
      | none => s
  | .rename old new true =>
      match s.disk.current.dir old with
      | some ino => s.add [.entry new (some ino), .entry old none]
      | none => s
  | .openDir ok => { s with dirFd := ok }
  | .fsyncDir ok => { s with disk := if s.dirFd && ok then s.disk.sync .dir else s.disk, dirFd := false }
  | .unlink path true => s.add [.entry path none]
  | .rename _ _ false | .unlink _ false => s

def runCalls (s : State) (calls : List Call) : State := calls.foldl State.exec s

/-- The calls once the temporary file is open. -/
def replaceCalls (temp final : Path) (content : List UInt8) (r : Results) : List Call :=
  [.write content r.written, .fsync r.synced, .rename temp final r.renamed, .openDir r.dirOpened,
    .fsyncDir r.dirSynced, .unlink final r.unlinked]

def phase2Temp : Path := "/tmp/lab32_new.dat"
def phase2Final : Path := "/tmp/lab32_final.dat"

/-- Phase 2: the descriptor is not checked. -/
def phase2 (content : List UInt8) (r : Results) : List Call :=
  .openTrunc phase2Temp r.opened :: replaceCalls phase2Temp phase2Final content r

def phase4Temp (r : Results) : Path := "/tmp/lab32_new_" ++ r.suffix
def phase4Final : Path := "/tmp/lab32_final_v2.dat"

/-- Phase 4: `if (fd >= 0)` -/
def phase4 (content : List UInt8) (r : Results) : List Call :=
  .mkstemp (phase4Temp r) r.opened ::
    if r.opened then replaceCalls (phase4Temp r) phase4Final content r else []

theorem phase2Temp_ne : phase2Temp ≠ phase2Final := by decide

/-- The names differ in their twelfth character. -/
theorem phase4Temp_ne (r : Results) : phase4Temp r ≠ phase4Final := by
  intro h
  have htemp : (phase4Temp r).toList = "/tmp/lab32_new_".toList ++ r.suffix.toList :=
    String.toList_append
  have hchar := congrArg (·[11]?) htemp
  rw [h, List.getElem?_append_left (by decide)] at hchar
  exact absurd hchar (by decide)

end OsLabs.CrashRecovery
