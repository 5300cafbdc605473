import Mathlib.Data.List.DropRight
import OsLabs.Core.CInt
import OsLabs.Core.Lts
import OsLabs.Monitor.StatFields

/-! # The monitoring loop

The loop of `monitor.sh` next to the process it watches. Each of its reads of `/proc`
is a step of its own, the process may move on between any two of them. A failed `grep`
ends the script, by `set -euo pipefail`; the status of `get_page_faults` is lost in the
here-string.
-/

namespace OsLabs.Monitor

open CInt Text Scanner

/-! ## The process -/

/-- `grep -m1 "^key"` -/
def grepLine (key : String) (text : List Char) : Option (List Char) :=
  (lines text).find? fun l => key.toList.isPrefixOf l

/-- What `/proc/<pid>/stat` shows. -/
structure Stat where
  comm : Record
  fields : StatFields

/-- `get_page_faults` reads the right fields, and they fit the arithmetic of the shell. -/
structure Stat.Readable (f : Stat) : Prop where
  named : blankOutside true f.comm.1 = false
  minflt : 0 ≤ f.fields.minflt ∧ f.fields.minflt < 2 ^ 63
  majflt : 0 ≤ f.fields.majflt ∧ f.fields.majflt < 2 ^ 63

def ShowsVm (status : List Char) : Prop :=
  (grepLine "VmSize:" status).isSome ∧ (grepLine "VmRSS:" status).isSome

def HidesVm (status : List Char) : Prop :=
  grepLine "VmSize:" status = none ∧ grepLine "VmRSS:" status = none

instance (status : List Char) : Decidable (ShowsVm status) :=
  inferInstanceAs (Decidable (_ ∧ _))

instance (status : List Char) : Decidable (HidesVm status) :=
  inferInstanceAs (Decidable (_ ∧ _))

/-- The process with its files under `/proc`. A zombie has given up its memory. -/
inductive Process where
  | alive (status : {text // ShowsVm text}) (stat : Stat)
  | zombie (status : {text // HidesVm text}) (stat : Stat)
  | gone

def Process.status : Process → Option (List Char)
  | alive status _ => some status.1
  | zombie status _ => some status.1
  | gone => none

def Process.stat : Process → Option Stat
  | alive _ stat => some stat
  | zombie _ stat => some stat
  | gone => none

def Process.Readable (p : Process) : Prop := ∀ f, p.stat = some f → f.Readable

/-- Faults are only added to the counter, and a process does not come back. -/
def Process.becomes : Process → Process → Bool
  | alive _ f, alive _ g => f.fields.minflt ≤ g.fields.minflt
  | alive _ f, zombie _ g => f.fields.minflt ≤ g.fields.minflt
  | alive _ _, gone => true
  | zombie _ _, gone => true
  | _, _ => false

/-! ## Commands of the script -/

/-- `$(grep -m1 "^key" "$STATUS" | awk ..)`: the second field of the line, or the status
of the pipeline. -/
def grepField (key : String) : Option (List Char) → Except Nat (List Char)
  | none => .error 2
  | some text =>
      match grepLine key text with
      | none => .error 1
      | some l => .ok (field l 2)

/-- The output of `get_page_faults`, empty where `awk` cannot open the file. -/
def faultsText (stat : Option Stat) : List Char :=
  match stat with
  | none => []
  | some f => getPageFaults (statText f.comm f.fields)

/-- `read -r a b` -/
def readTwo (text : List Char) : List Char × List Char :=
  let line := (text.takeWhile (· ≠ '\n')).dropWhile isBlank
  let rest := (line.dropWhile fun c => !isBlank c).dropWhile isBlank
  (line.takeWhile fun c => !isBlank c, rest.rdropWhile isBlank)

/-- The value of a variable in `$(( ))` and for `%d`. It holds a decimal number or
nothing, which counts as 0. -/
def shellInt (v : List Char) : Int := wrap 64 (Nat.ofDigitChars 10 v 0)

/-! ## The loop -/

/-- `printf "%-6d  %12s  %12s  %10d  %12d  %12d\n"`; the sizes are in kB. -/
structure Row where
  elapsed : Nat
  vmSize : List Char
  vmRss : List Char
  deltaMin : Int
  curMinflt : Int
  curMajflt : Int

inductive Line where
  | row (r : Row)
  | hasExited

/-- The next command of the script, or the status it has ended with. -/
inductive Pc where
  | test
  | vmSize
  | vmRss
  | faults
  | sleep
  | ended (status : Nat)

structure State where
  process : Process
  pc : Pc
  elapsed : Nat
  vmSize : List Char
  vmRss : List Char
  prevMinflt : List Char
  output : List Line

inductive Act where
  | process (p : Process)
  | script

def State.print (s : State) (l : Line) : State := { s with output := s.output ++ [l] }

/-- `read -r cur_minflt cur_majflt <<< "$(get_page_faults)"` and the row from it. -/
def State.nextRow (s : State) : Row :=
  let cur := readTwo (faultsText s.process.stat)
  ⟨s.elapsed, s.vmSize, s.vmRss, wrap 64 (shellInt cur.1 - shellInt s.prevMinflt), shellInt cur.1,
    shellInt cur.2⟩

def State.printRow (s : State) : State :=
  { s.print (.row s.nextRow) with prevMinflt := (readTwo (faultsText s.process.stat)).1 }

def scriptNext (s : State) : Option State :=
  match s.pc with
  | .test =>
      if s.process.status.isSome then some { s with pc := .vmSize }
      else some { s.print .hasExited with pc := .ended 0 }
  | .vmSize =>
      match grepField "VmSize:" s.process.status with
      | .ok v => some { s with vmSize := v, pc := .vmRss }
      | .error status => some { s with pc := .ended status }
  | .vmRss =>
      match grepField "VmRSS:" s.process.status with
      | .ok v => some { s with vmRss := v, pc := .faults }
      | .error status => some { s with pc := .ended status }
  | .faults => some { s.printRow with pc := .sleep }
  | .sleep => some { s with elapsed := s.elapsed + 1, pc := .test }
  | .ended _ => none

def next (s : State) : Act → Option State
  | .process p => if s.process.becomes p then some { s with process := p } else none
  | .script => scriptNext s

/-- `elapsed=0`, `prev_minflt=0` and a process that may have exited by now. -/
def initState (p : Process) : State := ⟨p, .test, 0, [], [], ['0'], []⟩

def system : Lts State Act where
  init s := ∃ p, s = initState p
  next := next

/-! ## Values read -/

theorem shellInt_nil : shellInt [] = 0 := by
  decide

theorem shellInt_printInt {n : Int} (hnonneg : 0 ≤ n) (hfits : n < 2 ^ 63) :
    shellInt (printInt n) = n := by
  have hprint : printInt n = Nat.toDigits 10 n.natAbs := by
    rw [printInt, if_neg (by omega)]
    rfl
  have hdigits : Nat.ofDigitChars 10 (Nat.toDigits 10 n.natAbs) 0 = n.natAbs := by
    simp
  rw [shellInt, hprint, hdigits, Int.natAbs_of_nonneg hnonneg]
  apply wrap_of_fits (by decide)
  rw [fits_64_iff]
  omega

theorem readTwo_words {v w : List Char} (hv : ∀ c ∈ v, isBlank c = false)
    (hw : ∀ c ∈ w, isBlank c = false) (hne : v ≠ []) :
    readTwo (v ++ ' ' :: (w ++ ['\n'])) = (v, w) := by
  have hline : (v ++ ' ' :: (w ++ ['\n'])).takeWhile (· ≠ '\n') = v ++ ' ' :: w := by
    have hnewline : '\n' ∉ v ++ ' ' :: w := by
      intro h
      rcases List.mem_append.mp h with hmem | hmem
      · exact absurd (hv _ hmem) (by decide)
      · rcases List.mem_cons.mp hmem with heq | hmem
        · exact absurd heq (by decide)
        · exact absurd (hw _ hmem) (by decide)
    have hsplit : v ++ ' ' :: (w ++ ['\n']) = (v ++ ' ' :: w) ++ ['\n'] := by simp
    rw [hsplit, takeWhile_ne_append hnewline]
  have hnoblank : ∀ c ∈ v, (!isBlank c) = true := by
    intro c hc
    rw [hv c hc]
    rfl
  have hleft : (v ++ ' ' :: w).dropWhile isBlank = v ++ ' ' :: w := by
    cases v with
    | nil => exact absurd rfl hne
    | cons c cs => rw [List.cons_append, List.dropWhile_cons_of_neg (by simp [hv c])]
  have hfirst : (v ++ ' ' :: w).takeWhile (fun c => !isBlank c) = v := by
    rw [List.takeWhile_append_of_pos hnoblank]
    simp [isBlank]
  have hrest : (v ++ ' ' :: w).dropWhile (fun c => !isBlank c) = ' ' :: w := by
    rw [List.dropWhile_append_of_pos hnoblank]
    simp [isBlank]
  have htrim : (' ' :: w).dropWhile isBlank = w := by
    rw [List.dropWhile_cons_of_pos (by decide)]
    cases w with
    | nil => rfl
    | cons c cs => rw [List.dropWhile_cons_of_neg (by simp [hw c])]
  have hlast : w.rdropWhile isBlank = w := by
    rw [List.rdropWhile_eq_self_iff]
    intro hw'
    simp [hw _ (List.getLast_mem hw')]
  simp only [readTwo, hline, hleft, hfirst, hrest, htrim, hlast]

theorem readTwo_faultsText {f : Stat} (h : f.Readable) :
    readTwo (faultsText (some f)) = (printInt f.fields.minflt, printInt f.fields.majflt) := by
  have hprints : PrintsFaults f.comm f.fields := printsFaults_of_not_blankOutside h.named f.fields
  rw [PrintsFaults] at hprints
  rw [faultsText, hprints]
  exact readTwo_words (isBlank_printInt _) (isBlank_printInt _) (printInt_ne_nil _)

end OsLabs.Monitor
