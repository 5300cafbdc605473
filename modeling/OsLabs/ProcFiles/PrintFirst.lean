import OsLabs.Core.Fgets
import OsLabs.Core.Scan

/-! # Printing the first lines of a file

Three loops print the lines of a file up to a limit and say when there are more.
Each reads one line ahead of the limit. `print_proc_file` then asks `feof`, the
two labs compare the count with the limit.
-/

namespace OsLabs.ProcFiles

open Text

/-- `printf("  %s", line)` -/
def printLine (line : List Char) : List Char := "  ".toList ++ cString line

/-- What has been printed, one entry for a call of `printf`, and the lines counted. -/
structure PrintState where
  out : List (List Char)
  count : Int

/-- `while (fgets(..) && n < max_lines) { printf("  %s", line); n++; }` -/
def printStep (maxLines : Int) (s : PrintState) (line : List Char) : PrintState ⊕ PrintState :=
  if s.count < maxLines then .inl ⟨s.out ++ [printLine line], s.count + 1⟩ else .inr s

def printLoop (size : Nat) (maxLines : Int) (text : List Char) : Option (Stream × PrintState) :=
  whileFgets size (printStep maxLines) (fopen text) ⟨[], 0⟩

def truncatedAt (maxLines : Int) : List Char :=
  "  ... (truncated at ".toList ++ printInt maxLines ++ " lines)\n".toList

/-- A file that cannot be opened is given by the text of its error. -/
def printProcFile (path : String) (file : Except String (List Char)) (maxLines : Int) :
    Option (List (List Char)) :=
  match file with
  | .error err => some [("  [cannot open " ++ path ++ ": " ++ err ++ "]\n").toList]
  | .ok text =>
      (printLoop 512 maxLines text).map fun r =>
        if r.1.eof then r.2.out else r.2.out ++ [truncatedAt maxLines]

def truncatedMaps (pid : Int) : List Char :=
  "  ... (truncated, see /proc/".toList ++ printInt pid ++ "/maps for full listing)\n".toList

/-- What the loop and the test behind it print. -/
def demoAddressSpaceMap (pid : Int) (maps : Option (List Char)) : Option (List (List Char)) :=
  match maps with
  | none => some []
  | some text =>
      (printLoop 512 20 text).map fun r =>
        if 20 ≤ r.2.count then r.2.out ++ [truncatedMaps pid] else r.2.out

def truncatedIomem : List Char := "  ... (truncated; see /proc/iomem for full listing)\n".toList

def demoIomem (iomem : Option (List Char)) : Option (List (List Char)) :=
  match iomem with
  | none => some []
  | some text =>
      (printLoop 256 30 text).map fun r =>
        if 30 ≤ r.2.count then r.2.out ++ [truncatedIomem] else r.2.out

/-! ## The loop -/

/-- Where a loop over pieces stops that has read all but the given ones. -/
def stopAt : List (List Char) → Option (List Char × List (List Char))
  | [] => none
  | p :: ps => some (p, ps)

/-- The loop prints up to the limit and stops at the piece behind it. -/
theorem scan_printStep (n k : Nat) (out ps : List (List Char)) :
    scan (printStep ((n + k : Nat) : Int)) ⟨out, n⟩ ps =
      (⟨out ++ (ps.take k).map printLine, (n + min k ps.length : Nat)⟩, stopAt (ps.drop k)) := by
  induction ps generalizing n k out with
  | nil => simp [scan, stopAt]
  | cons p ps ih =>
      cases k with
      | zero =>
          have hstep : printStep ((n + 0 : Nat) : Int) ⟨out, n⟩ p = .inr ⟨out, n⟩ := by
            simp [printStep]
          rw [scan, hstep]
          simp [stopAt]
      | succ k =>
          have hstep : printStep ((n + (k + 1) : Nat) : Int) ⟨out, n⟩ p =
              .inl ⟨out ++ [printLine p], (n + 1 : Nat)⟩ := by
            rw [printStep, if_pos (by dsimp; omega)]
            rfl
          have hlimit : n + (k + 1) = n + 1 + k := by omega
          have hcount : n + 1 + min k ps.length = n + min (k + 1) (p :: ps).length := by
            rw [List.length_cons]
            omega
          rw [scan, hstep]
          dsimp only
          rw [hlimit, ih, hcount]
          simp

theorem printLoop_eq {size : Nat} (hsize : 2 ≤ size) {text : List Char}
    (hfit : ∀ l ∈ lines text, l.length ≤ size - 1) (N : Nat) :
    printLoop size N text =
      some (streamAfter (size - 1) (stopAt ((lines text).drop N)),
        ⟨((lines text).take N).map printLine, (min N (lines text).length : Nat)⟩) := by
  have hscan := scan_printStep 0 N [] (lines text)
  simp only [Nat.zero_add, List.nil_append] at hscan
  rw [printLoop, whileFgets_eq hsize, pieces_eq_lines hfit]
  exact congrArg (fun r => some (streamAfter (size - 1) r.2, r.1)) hscan

/-! ## What is printed -/

/-- The first `N` lines, and the notice when there are more. -/
def firstLines (N : Nat) (notice : List Char) (text : List Char) : List (List Char) :=
  ((lines text).take N).map ("  ".toList ++ ·) ++ if N < (lines text).length then [notice] else []

theorem printLine_eq_iff (l : List Char) : printLine l = "  ".toList ++ l ↔ '\x00' ∉ l := by
  rw [printLine, List.append_cancel_left_eq, cString_eq_self_iff]

theorem printed_eq_iff (notified : Prop) [Decidable notified] (N : Nat) (notice text : List Char) :
    (((lines text).take N).map printLine ++ if notified then [notice] else []) =
        firstLines N notice text ↔
      (∀ l ∈ (lines text).take N, '\x00' ∉ l) ∧ (notified ↔ N < (lines text).length) := by
  have hlines : ((lines text).take N).map printLine = ((lines text).take N).map ("  ".toList ++ ·) ↔
      ∀ l ∈ (lines text).take N, '\x00' ∉ l := by
    rw [List.map_inj_left]
    exact forall₂_congr fun l _ => printLine_eq_iff l
  have hnotice : (if notified then [notice] else []) =
      (if N < (lines text).length then [notice] else []) ↔ (notified ↔ N < (lines text).length) := by
    by_cases hn : notified <;> by_cases hlt : N < (lines text).length <;> simp [hn, hlt]
  have hlength : (((lines text).take N).map printLine).length =
      (((lines text).take N).map ("  ".toList ++ ·)).length := by
    rw [List.length_map, List.length_map]
  rw [← hlines, ← hnotice, firstLines]
  constructor
  · intro h
    exact List.append_inj h hlength
  · rintro ⟨hl, hn⟩
    rw [hl, hn]

/-- The last read met the end of the file: there was no further line, or it was the
last one, without a newline and shorter than the buffer. -/
theorem not_eof_iff (n N : Nat) (text : List Char) :
    (((streamAfter n (stopAt ((lines text).drop N))).eof = false) ↔ N < (lines text).length) ↔
      ∀ l, (lines text)[N]? = some l → l.getLast? = some '\n' ∨ n ≤ l.length := by
  rw [← List.head?_drop]
  cases hdrop : (lines text).drop N with
  | nil =>
      have hle := List.drop_eq_nil_iff.mp hdrop
      simp [stopAt, streamAfter, hle]
  | cons p ps =>
      have hlt : N < (lines text).length := by
        by_contra hge
        rw [List.drop_eq_nil_of_le (by omega)] at hdrop
        cases hdrop
      simp only [stopAt, streamAfter, hitEnd, hlt, iff_true, List.head?_cons, Option.some.injEq,
        forall_eq', decide_eq_false_iff_not, not_and_or, not_not, Nat.not_lt]
      exact or_comm

theorem min_eq_limit_iff (N L : Nat) : ((N : Int) ≤ (min N L : Nat) ↔ N < L) ↔ L ≠ N := by
  omega

theorem printProcFile_eq_iff (path : String) {text : List Char}
    (hfit : ∀ l ∈ lines text, l.length ≤ 511) (N : Nat) :
    printProcFile path (.ok text) N = some (firstLines N (truncatedAt N) text) ↔
      (∀ l ∈ (lines text).take N, '\x00' ∉ l) ∧
        ∀ l, (lines text)[N]? = some l → l.getLast? = some '\n' ∨ 511 ≤ l.length := by
  have hprinted := printed_eq_iff ((streamAfter 511 (stopAt ((lines text).drop N))).eof = false) N
    (truncatedAt N) text
  rw [not_eof_iff] at hprinted
  rw [← hprinted, printProcFile, printLoop_eq (by decide) hfit, Option.map_some, Option.some.injEq]
  cases (streamAfter 511 (stopAt ((lines text).drop N))).eof <;> simp

/-- The test of the count takes a file of exactly `N` lines for a longer one. -/
theorem counted_eq_iff (N : Nat) (notice text : List Char) :
    (if (N : Int) ≤ (min N (lines text).length : Nat) then
        ((lines text).take N).map printLine ++ [notice]
      else ((lines text).take N).map printLine) = firstLines N notice text ↔
      (∀ l ∈ (lines text).take N, '\x00' ∉ l) ∧ (lines text).length ≠ N := by
  have hprinted := printed_eq_iff ((N : Int) ≤ (min N (lines text).length : Nat)) N notice text
  rw [min_eq_limit_iff] at hprinted
  rw [← hprinted]
  split_ifs <;> simp

theorem demoAddressSpaceMap_eq_iff (pid : Int) {text : List Char}
    (hfit : ∀ l ∈ lines text, l.length ≤ 511) :
    demoAddressSpaceMap pid (some text) = some (firstLines 20 (truncatedMaps pid) text) ↔
      (∀ l ∈ (lines text).take 20, '\x00' ∉ l) ∧ (lines text).length ≠ 20 := by
  have hloop := printLoop_eq (show 2 ≤ 512 by decide) hfit 20
  rw [← counted_eq_iff 20 (truncatedMaps pid) text]
  simp only [demoAddressSpaceMap]
  rw [show (20 : Int) = (20 : Nat) from rfl, hloop, Option.map_some, Option.some.injEq]

theorem demoIomem_eq_iff {text : List Char} (hfit : ∀ l ∈ lines text, l.length ≤ 255) :
    demoIomem (some text) = some (firstLines 30 truncatedIomem text) ↔
      (∀ l ∈ (lines text).take 30, '\x00' ∉ l) ∧ (lines text).length ≠ 30 := by
  have hloop := printLoop_eq (show 2 ≤ 256 by decide) hfit 30
  rw [← counted_eq_iff 30 truncatedIomem text]
  simp only [demoIomem]
  rw [show (30 : Int) = (30 : Nat) from rfl, hloop, Option.map_some, Option.some.injEq]

/-- When each of the three prints the first lines of its file and the notice. -/
theorem firstLines_iff (path : String) (N : Nat) (pid : Int) {file maps iomem : List Char}
    (hfile : ∀ l ∈ lines file, l.length ≤ 511) (hmaps : ∀ l ∈ lines maps, l.length ≤ 511)
    (hiomem : ∀ l ∈ lines iomem, l.length ≤ 255) :
    (printProcFile path (.ok file) N = some (firstLines N (truncatedAt N) file) ↔
      (∀ l ∈ (lines file).take N, '\x00' ∉ l) ∧
        ∀ l, (lines file)[N]? = some l → l.getLast? = some '\n' ∨ 511 ≤ l.length) ∧
    (demoAddressSpaceMap pid (some maps) = some (firstLines 20 (truncatedMaps pid) maps) ↔
      (∀ l ∈ (lines maps).take 20, '\x00' ∉ l) ∧ (lines maps).length ≠ 20) ∧
    (demoIomem (some iomem) = some (firstLines 30 truncatedIomem iomem) ↔
      (∀ l ∈ (lines iomem).take 30, '\x00' ∉ l) ∧ (lines iomem).length ≠ 30) :=
  ⟨printProcFile_eq_iff path hfile N, demoAddressSpaceMap_eq_iff pid hmaps, demoIomem_eq_iff hiomem⟩

def twoLines : List Char := "VmPeak\nVmSize\n".toList

theorem firstLines_twoLines :
    (printProcFile "/proc/self/status" (.ok twoLines) (1 : Nat) =
        some (firstLines 1 (truncatedAt (1 : Nat)) twoLines) ↔
      (∀ l ∈ (lines twoLines).take 1, '\x00' ∉ l) ∧
        ∀ l, (lines twoLines)[1]? = some l → l.getLast? = some '\n' ∨ 511 ≤ l.length) ∧
    (demoAddressSpaceMap 7 (some twoLines) = some (firstLines 20 (truncatedMaps 7) twoLines) ↔
      (∀ l ∈ (lines twoLines).take 20, '\x00' ∉ l) ∧ (lines twoLines).length ≠ 20) ∧
    (demoIomem (some twoLines) = some (firstLines 30 truncatedIomem twoLines) ↔
      (∀ l ∈ (lines twoLines).take 30, '\x00' ∉ l) ∧ (lines twoLines).length ≠ 30) :=
  firstLines_iff "/proc/self/status" 1 7 (by decide) (by decide) (by decide)

/-- A map of 20 areas. -/
def twentyAreas : List Char :=
  records (List.replicate 20 ⟨"00400000-00401000 r-xp 00000000 08:01 42 /bin/true".toList, by decide⟩)

/-- The notice follows the last of 20 areas, and it is missing when the one line
left out ends the file without a newline. -/
theorem truncated_twentyAreas :
    demoAddressSpaceMap 7 (some twentyAreas) ≠ some (firstLines 20 (truncatedMaps 7) twentyAreas) ∧
      printProcFile "/proc/self/status" (.ok "VmPeak\nVmSize".toList) (1 : Nat) ≠
        some (firstLines 1 (truncatedAt (1 : Nat)) "VmPeak\nVmSize".toList) := by
  have hlines : (lines twentyAreas).length = 20 := by
    rw [twentyAreas, lines_records, List.length_map, List.length_replicate]
  have hfit : ∀ l ∈ lines twentyAreas, l.length ≤ 511 := by
    rw [twentyAreas, lines_records]
    intro l hl
    obtain ⟨r, hr, rfl⟩ := List.mem_map.mp hl
    rw [List.eq_of_mem_replicate hr]
    decide
  have hstatus : ∀ l ∈ lines "VmPeak\nVmSize".toList, l.length ≤ 511 := by decide
  constructor
  · intro h
    exact ((demoAddressSpaceMap_eq_iff 7 hfit).mp h).2 hlines
  · intro h
    have hnext := ((printProcFile_eq_iff "/proc/self/status" hstatus 1).mp h).2
    exact absurd (hnext "VmSize".toList (by decide)) (by decide)

end OsLabs.ProcFiles
