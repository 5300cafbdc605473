import OsLabs.Core.Fgets
import OsLabs.Core.Hex
import OsLabs.ProcFiles.PrintFirst

/-! # Searching a memory area by its address

Three labs look for the area at an address in `/proc/self/maps` or `smaps`: they
take the first line that contains the hexadecimal digits of the address.
-/

namespace OsLabs.ProcFiles

open Text

/-! ## The files -/

/-- An area: `fields` is what follows the addresses in its header line (permissions,
offset, device, inode and path), `details` are the lines of `smaps` below it. -/
structure Vma where
  start : Nat
  stop : Nat
  fields : Record
  details : List Record
  nonempty : start < stop
  bounded : stop < 2 ^ 64
  keys : ∀ d ∈ details, ∃ c, d.1.head? = some c ∧ c.isUpper

/-- `%08lx-%08lx` -/
def Vma.range (v : Vma) : List Char := printHexPadded 8 v.start ++ '-' :: printHexPadded 8 v.stop

theorem not_mem_printHexPadded {c : Char} (h : c ∉ hexDigits) (width n : Nat) :
    c ∉ printHexPadded width n :=
  fun hc => h (mem_printHexPadded hc)

theorem Vma.not_mem_range {c : Char} (h : c ∉ hexDigits) (hdash : c ≠ '-') (v : Vma) :
    c ∉ v.range := by
  rw [Vma.range, List.mem_append, List.mem_cons, not_or, not_or]
  exact ⟨not_mem_printHexPadded h 8 _, hdash, not_mem_printHexPadded h 8 _⟩

/-- `start-end perms offset dev inode path` -/
def Vma.header (v : Vma) : Record where
  val := v.range ++ ' ' :: v.fields.1
  property := by
    rw [List.mem_append, List.mem_cons, not_or, not_or]
    exact ⟨v.not_mem_range (by decide) (by decide), by decide, v.fields.2⟩

def mapsRecords (vs : List Vma) : List Record := vs.map Vma.header

def smapsRecords (vs : List Vma) : List Record := vs.flatMap fun v => v.header :: v.details

/-- Ascending and without overlaps. -/
def Ascending (vs : List Vma) : Prop := vs.Pairwise fun u v => u.stop ≤ v.start

instance (vs : List Vma) : Decidable (Ascending vs) :=
  inferInstanceAs (Decidable (vs.Pairwise fun u v => u.stop ≤ v.start))

/-! ## The searches -/

structure SmapsState where
  found : Bool
  out : List (List Char)

/-- The body of the loop of `demo_smaps`. -/
def smapsStep (target : List Char) (s : SmapsState) (line : List Char) : SmapsState ⊕ SmapsState :=
  let found := s.found || decide (strstr line target)
  if found then
    let s' : SmapsState := ⟨found, s.out ++ [printLine line]⟩
    if hasPrefix line "VmFlags" then .inr s' else .inl s'
  else .inl ⟨found, s.out⟩

/-- The lines `demo_smaps` prints for an area at `p`. -/
def demoSmaps (p : Nat) (smaps : Option (List Char)) : Option (List (List Char)) :=
  match smaps with
  | none => some []
  | some text => (whileFgets 512 (smapsStep (printHex p)) (fopen text) ⟨false, []⟩).map (·.2.out)

structure MmStructState where
  found : Bool
  printed : Int
  out : List (List Char)

/-- The body of the loop of `ex_mm_struct`, with the rest of its condition. -/
def mmStructStep (target : List Char) (s : MmStructState) (line : List Char) :
    MmStructState ⊕ MmStructState :=
  if s.printed < 18 then
    let found := s.found || decide (strstr line target)
    let s' : MmStructState :=
      if found then ⟨found, s.printed + 1, s.out ++ [printLine line]⟩ else ⟨found, s.printed, s.out⟩
    if found ∧ hasPrefix line "VmFlags" then .inr s' else .inl s'
  else .inr s

def exMmStruct (anon : Nat) (smaps : Option (List Char)) : Option (List (List Char)) :=
  match smaps with
  | none => some []
  | some text =>
      (whileFgets 256 (mmStructStep (printHex anon)) (fopen text) ⟨false, 0, []⟩).map (·.2.out)

/-- `printf("  New VMA: %s", line)` -/
def printNewVma (line : List Char) : List Char := "  New VMA: ".toList ++ cString line

def mapsStep (target : List Char) (out : List (List Char)) (line : List Char) :
    List (List Char) ⊕ List (List Char) :=
  if strstr line target then .inr (out ++ [printNewVma line]) else .inl out

def demoMapsBeforeAfterMmap (p : Nat) (maps : Option (List Char)) : Option (List (List Char)) :=
  match maps with
  | none => some []
  | some text => (whileFgets 512 (mapsStep (printHex p)) (fopen text) []).map (·.2)

/-- The three searches. -/
inductive Search where
  | demoSmaps
  | exMmStruct
  | demoMapsBeforeAfterMmap
  deriving DecidableEq

namespace Search

/-- `sizeof(line)` -/
def size : Search → Nat
  | .demoSmaps => 512
  | .exMmStruct => 256
  | .demoMapsBeforeAfterMmap => 512

def fileRecords : Search → List Vma → List Record
  | .demoSmaps | .exMmStruct => smapsRecords
  | .demoMapsBeforeAfterMmap => mapsRecords

def run : Search → Nat → Option (List Char) → Option (List (List Char))
  | .demoSmaps => ProcFiles.demoSmaps
  | .exMmStruct => ProcFiles.exMmStruct
  | .demoMapsBeforeAfterMmap => ProcFiles.demoMapsBeforeAfterMmap

/-- How a line is printed. -/
def print : Search → List Char → List Char
  | .demoSmaps | .exMmStruct => printLine
  | .demoMapsBeforeAfterMmap => printNewVma

end Search

/-! ## The first line printed -/

theorem scan_selects {σ : Type} {body : σ → List Char → σ ⊕ σ} (out : σ → List (List Char))
    {print : List Char → List Char} {target : List Char} (I : List Char → σ → Prop) {s : σ}
    (hnone : out s = []) (hskip : ∀ p, ¬strstr p target → body s p = .inl s)
    (hselect : ∀ p s', strstr p target → body s p = .inl s' ∨ body s p = .inr s' → I p s')
    (hkeep : ∀ p q s₁ s₂, I p s₁ → body s₁ q = .inl s₂ ∨ body s₁ q = .inr s₂ → I p s₂)
    (hhead : ∀ p s', I p s' → (out s').head? = some (print p)) (ps : List (List Char)) :
    (out (scan body s ps).1).head? = (ps.find? (strstr · target)).map print := by
  induction ps with
  | nil => simp [scan, hnone]
  | cons p ps ih =>
      by_cases hp : strstr p target
      · have hfind : (p :: ps).find? (strstr · target) = some p :=
          List.find?_cons_of_pos (by simpa using hp)
        rw [hfind, Option.map_some]
        apply hhead p
        cases hbody : body s p with
        | inl s' =>
            simp only [scan, hbody]
            exact scan_invariant (fun s₁ q s₂ h heq => hkeep p q s₁ s₂ h (.inl heq))
              (fun s₁ q s₂ h heq => hkeep p q s₁ s₂ h (.inr heq)) (hselect p s' hp (.inl hbody)) ps
        | inr s' =>
            simp only [scan, hbody]
            exact hselect p s' hp (.inr hbody)
      · rw [List.find?_cons_of_neg (by simpa using hp), ← ih, scan, hskip p hp]

/-- Once an area is found, lines are only added. -/
theorem smapsStep_of_found {target line : List Char} {s s' : SmapsState} (h : s.found = true)
    (hstep : smapsStep target s line = .inl s' ∨ smapsStep target s line = .inr s') :
    s' = ⟨true, s.out ++ [printLine line]⟩ := by
  by_cases hkey : hasPrefix line "VmFlags"
  · simpa [smapsStep, h, hkey, eq_comm] using hstep
  · simpa [smapsStep, h, hkey, eq_comm] using hstep

theorem head_demoSmaps (p : Nat) (text : List Char) :
    (demoSmaps p (some text)).bind List.head? =
      ((pieces 511 text).find? (strstr · (printHex p))).map printLine := by
  simp only [demoSmaps, whileFgets_eq (show 2 ≤ 512 by decide), Option.map_some, Option.bind_some]
  apply scan_selects _ fun line s => s.found = true ∧ s.out.head? = some (printLine line)
  · rfl
  · intro line hline
    simp [smapsStep, hline]
  · intro line s' hline hstep
    have heq : s' = ⟨true, [printLine line]⟩ := by
      by_cases hkey : hasPrefix line "VmFlags"
      · simpa [smapsStep, hline, hkey, eq_comm] using hstep
      · simpa [smapsStep, hline, hkey, eq_comm] using hstep
    simp [heq]
  · intro line next s₁ s₂ h hstep
    rw [smapsStep_of_found h.1 hstep]
    exact ⟨rfl, by simp [List.head?_append, h.2]⟩
  · intro line s' h
    exact h.2

theorem mmStructStep_of_found {target line : List Char} {s s' : MmStructState} (h : s.found = true)
    (hstep : mmStructStep target s line = .inl s' ∨ mmStructStep target s line = .inr s') :
    s'.found = true ∧ (s'.out = s.out ∨ s'.out = s.out ++ [printLine line]) := by
  by_cases hlimit : s.printed < 18
  · have heq : s' = ⟨true, s.printed + 1, s.out ++ [printLine line]⟩ := by
      by_cases hkey : hasPrefix line "VmFlags"
      · simpa [mmStructStep, h, hlimit, hkey, eq_comm] using hstep
      · simpa [mmStructStep, h, hlimit, hkey, eq_comm] using hstep
    simp [heq]
  · have heq : s' = s := by simpa [mmStructStep, hlimit, eq_comm] using hstep
    simp [heq, h]

theorem head_exMmStruct (anon : Nat) (text : List Char) :
    (exMmStruct anon (some text)).bind List.head? =
      ((pieces 255 text).find? (strstr · (printHex anon))).map printLine := by
  simp only [exMmStruct, whileFgets_eq (show 2 ≤ 256 by decide), Option.map_some, Option.bind_some]
  apply scan_selects _ fun line s => s.found = true ∧ s.out.head? = some (printLine line)
  · rfl
  · intro line hline
    simp [mmStructStep, hline]
  · intro line s' hline hstep
    have heq : s' = ⟨true, 1, [printLine line]⟩ := by
      by_cases hkey : hasPrefix line "VmFlags"
      · simpa [mmStructStep, hline, hkey, eq_comm] using hstep
      · simpa [mmStructStep, hline, hkey, eq_comm] using hstep
    simp [heq]
  · intro line next s₁ s₂ h hstep
    obtain ⟨hfound, hsame | hnext⟩ := mmStructStep_of_found h.1 hstep
    · exact ⟨hfound, hsame ▸ h.2⟩
    · exact ⟨hfound, by simp [hnext, List.head?_append, h.2]⟩
  · intro line s' h
    exact h.2

theorem head_demoMapsBeforeAfterMmap (p : Nat) (text : List Char) :
    (demoMapsBeforeAfterMmap p (some text)).bind List.head? =
      ((pieces 511 text).find? (strstr · (printHex p))).map printNewVma := by
  simp only [demoMapsBeforeAfterMmap, whileFgets_eq (show 2 ≤ 512 by decide), Option.map_some,
    Option.bind_some]
  apply scan_selects id fun line out => out.head? = some (printNewVma line)
  · rfl
  · intro line hline
    simp [mapsStep, hline]
  · intro line out' hline hstep
    have heq : out' = [printNewVma line] := by simpa [mapsStep, hline, eq_comm] using hstep
    simp [heq]
  · intro line next out₁ out₂ h hstep
    by_cases hline : strstr next (printHex p)
    · have heq : out₂ = out₁ ++ [printNewVma next] := by simpa [mapsStep, hline, eq_comm] using hstep
      simp [heq, List.head?_append, h]
    · have heq : out₂ = out₁ := by simpa [mapsStep, hline, eq_comm] using hstep
      rw [heq, h]
  · intro line out' h
    exact h

/-- The first line a search prints is the first one with the digits of the address. -/
theorem Search.head_run (s : Search) (p : Nat) (text : List Char) :
    (s.run p (some text)).bind List.head? =
      ((pieces (s.size - 1) text).find? (strstr · (printHex p))).map s.print := by
  cases s with
  | demoSmaps => exact head_demoSmaps p text
  | exMmStruct => exact head_exMmStruct p text
  | demoMapsBeforeAfterMmap => exact head_demoMapsBeforeAfterMmap p text

/-! ## Headers -/

theorem cString_header (v : Vma) (rest : List Char) :
    cString (v.header.1 ++ rest) = v.range ++ cString (' ' :: v.fields.1 ++ rest) := by
  rw [Vma.header, List.append_assoc, cString_append (v.not_mem_range (by decide) (by decide))]

/-- The header of an area contains its address. -/
theorem strstr_header (v : Vma) (rest : List Char) :
    strstr (v.header.1 ++ rest) (printHex v.start) := by
  have hrange : printHex v.start <:+: v.range :=
    (printHex_suffix 8 v.start).isInfix.trans (List.prefix_append _ _).isInfix
  rw [strstr, cString_header]
  exact hrange.trans (List.prefix_append _ _).isInfix

/-- So does the header of the area that ends where it begins. -/
theorem strstr_header_stop (v : Vma) (rest : List Char) :
    strstr (v.header.1 ++ rest) (printHex v.stop) := by
  have hrange : printHex v.stop <:+: v.range :=
    ((printHex_suffix 8 v.stop).trans ((List.suffix_cons '-' _).trans (List.suffix_append _ _))).isInfix
  rw [strstr, cString_header]
  exact hrange.trans (List.prefix_append _ _).isInfix

/-- The digits before the first dash tell the headers apart. -/
theorem cString_header_ne {u v : Vma} (h : u.start ≠ v.start) (rest rest' : List Char) :
    cString (u.header.1 ++ rest) ≠ cString (v.header.1 ++ rest') := by
  intro heq
  have hdash : ∀ n, '-' ∉ printHexPadded 8 n := not_mem_printHexPadded (by decide) 8
  rw [cString_header, cString_header, Vma.range, Vma.range, List.append_assoc, List.append_assoc] at heq
  exact h (printHexPadded_injective 8 (eq_of_append_cons (hdash _) (hdash _) heq).1)

theorem head?_range (v : Vma) : ∃ c ∈ hexDigits, v.range.head? = some c := by
  have hne : printHexPadded 8 v.start ≠ [] := by
    intro hnil
    have hsuffix := printHex_suffix 8 v.start
    rw [hnil, List.suffix_nil] at hsuffix
    exact Nat.toDigits_ne_nil hsuffix
  obtain ⟨c, cs, hcons⟩ := List.exists_cons_of_ne_nil hne
  have hc : c ∈ hexDigits := mem_printHexPadded (hcons ▸ List.mem_cons_self)
  exact ⟨c, hc, by rw [Vma.range, hcons]; rfl⟩

/-- A line of details begins with a capital letter and is no header. -/
theorem cString_details_ne {u v : Vma} {d : Record} (hd : d ∈ u.details) (rest rest' : List Char) :
    cString (d.1 ++ rest) ≠ cString (v.header.1 ++ rest') := by
  intro heq
  obtain ⟨c, hc, hupper⟩ := u.keys d hd
  obtain ⟨e, he, hhead⟩ := head?_range v
  obtain ⟨cs, hcons⟩ := List.head?_eq_some_iff.mp hc
  have hnul : c ≠ '\x00' := by
    rintro rfl
    exact absurd hupper (by decide)
  have hfirst := congrArg List.head? heq
  rw [cString_header, List.head?_append, hhead, hcons, List.cons_append, cString,
    List.takeWhile_cons_of_pos (by simpa using hnul)] at hfirst
  have hce : c = e := by simpa using hfirst
  have hdigits : hexDigits.all (fun x => !x.isUpper) = true := rfl
  have hlower : e.isUpper = false := by simpa using List.all_eq_true.mp hdigits e he
  rw [hce, hlower] at hupper
  cases hupper

/-- No line before the header of an area prints as the header. -/
theorem Search.print_ne (s : Search) {before : List Vma} {v : Vma}
    (h : ∀ u ∈ before, u.stop ≤ v.start) {r : Record} (hr : r ∈ s.fileRecords before)
    (rest : List Char) : s.print (r.1 ++ rest) ≠ s.print (v.header.1 ++ rest) := by
  have hheader : ∀ u ∈ before, cString (u.header.1 ++ rest) ≠ cString (v.header.1 ++ rest) := by
    intro u hu
    have hstart : u.start ≠ v.start := by
      have hstop := h u hu
      have hlt := u.nonempty
      omega
    exact cString_header_ne hstart rest rest
  have hsmaps : r ∈ smapsRecords before → cString (r.1 ++ rest) ≠ cString (v.header.1 ++ rest) := by
    intro hmem
    obtain ⟨u, hu, hline⟩ := List.mem_flatMap.mp hmem
    rcases List.mem_cons.mp hline with rfl | hd
    · exact hheader u hu
    · exact cString_details_ne hd rest rest
  cases s with
  | demoSmaps | exMmStruct => exact fun heq => hsmaps hr (List.append_cancel_left heq)
  | demoMapsBeforeAfterMmap =>
      obtain ⟨u, hu, rfl⟩ := List.mem_map.mp hr
      exact fun heq => hheader u hu (List.append_cancel_left heq)

/-! ## When the area is found -/

theorem Search.fileRecords_append (s : Search) (before after : List Vma) (v : Vma) :
    ∃ rest, s.fileRecords (before ++ v :: after) = s.fileRecords before ++ v.header :: rest := by
  cases s with
  | demoSmaps | exMmStruct =>
      exact ⟨v.details ++ smapsRecords after, by simp [fileRecords, smapsRecords]⟩
  | demoMapsBeforeAfterMmap => exact ⟨mapsRecords after, by simp [fileRecords, mapsRecords]⟩

/-- The first line printed is the header of `v`. -/
def Search.Selects (s : Search) (vs : List Vma) (v : Vma) : Prop :=
  (s.run v.start (some (records (s.fileRecords vs)))).bind List.head? =
    some (s.print (v.header.1 ++ ['\n']))

section Selection

variable {s : Search} {before after : List Vma} {v : Vma}

/-- The lines before the header of `v` are looked at first. -/
theorem Search.selects_iff_find (hfit : ∀ r ∈ s.fileRecords (before ++ v :: after),
    r.1.length + 1 ≤ s.size - 1) :
    s.Selects (before ++ v :: after) v ↔
      ((((s.fileRecords before).map (·.1 ++ ['\n'])).find? (strstr · (printHex v.start))).or
        (some (v.header.1 ++ ['\n']))).map s.print = some (s.print (v.header.1 ++ ['\n'])) := by
  obtain ⟨rest, hrecords⟩ := s.fileRecords_append before after v
  have hpieces : pieces (s.size - 1) (records (s.fileRecords (before ++ v :: after))) =
      (s.fileRecords before ++ v.header :: rest).map (·.1 ++ ['\n']) := by
    rw [pieces_eq_lines, lines_records, hrecords]
    rw [lines_records]
    intro l hl
    obtain ⟨r, hr, rfl⟩ := List.mem_map.mp hl
    simpa using hfit r hr
  rw [Search.Selects, s.head_run, hpieces, List.map_append, List.map_cons, List.find?_append,
    List.find?_cons_of_pos (by simpa using strstr_header v ['\n'])]

theorem Search.selects_of_forall_not (hfit : ∀ r ∈ s.fileRecords (before ++ v :: after),
    r.1.length + 1 ≤ s.size - 1)
    (h : ∀ r ∈ s.fileRecords before, ¬strstr (r.1 ++ ['\n']) (printHex v.start)) :
    s.Selects (before ++ v :: after) v := by
  have hnone : ((s.fileRecords before).map (·.1 ++ ['\n'])).find?
      (fun l => decide (strstr l (printHex v.start))) = none := by
    apply List.find?_eq_none.mpr
    intro l hl
    obtain ⟨r, hr, rfl⟩ := List.mem_map.mp hl
    simpa using h r hr
  rw [Search.selects_iff_find hfit, hnone]
  rfl

theorem Search.not_selects_of_strstr (hasc : Ascending (before ++ v :: after))
    (hfit : ∀ r ∈ s.fileRecords (before ++ v :: after), r.1.length + 1 ≤ s.size - 1)
    {r : Record} (hr : r ∈ s.fileRecords before)
    (h : strstr (r.1 ++ ['\n']) (printHex v.start)) : ¬s.Selects (before ++ v :: after) v := by
  have hbefore : ∀ u ∈ before, u.stop ≤ v.start := by
    intro u hu
    exact (List.pairwise_append.mp hasc).2.2 u hu v List.mem_cons_self
  have hsome : (((s.fileRecords before).map (·.1 ++ ['\n'])).find?
      (fun l => decide (strstr l (printHex v.start)))).isSome := by
    rw [List.find?_isSome]
    exact ⟨r.1 ++ ['\n'], List.mem_map_of_mem hr, by simpa using h⟩
  obtain ⟨l, hfind⟩ := Option.isSome_iff_exists.mp hsome
  obtain ⟨r', hr', rfl⟩ := List.mem_map.mp (List.mem_of_find?_eq_some hfind)
  rw [Search.selects_iff_find hfit, hfind]
  intro heq
  exact s.print_ne hbefore hr' ['\n'] (Option.some.inj heq)

/-- The area at an address is found exactly when its digits stand in no line before
its header. -/
theorem Search.selects_iff_earlier (hasc : Ascending (before ++ v :: after))
    (hfit : ∀ r ∈ s.fileRecords (before ++ v :: after), r.1.length + 1 ≤ s.size - 1) :
    s.Selects (before ++ v :: after) v ↔
      ∀ r ∈ s.fileRecords before, ¬strstr (r.1 ++ ['\n']) (printHex v.start) := by
  constructor
  · intro h r hr hdigits
    exact Search.not_selects_of_strstr hasc hfit hr hdigits h
  · exact Search.selects_of_forall_not hfit

theorem Search.header_mem (s : Search) {u : Vma} (hu : u ∈ before) :
    u.header ∈ s.fileRecords before := by
  cases s with
  | demoSmaps | exMmStruct => exact List.mem_flatMap.mpr ⟨u, hu, List.mem_cons_self⟩
  | demoMapsBeforeAfterMmap => exact List.mem_map_of_mem hu

/-- An area is not found behind one that ends at its address. -/
theorem Search.not_selects_of_adjacent (hasc : Ascending (before ++ v :: after))
    (hfit : ∀ r ∈ s.fileRecords (before ++ v :: after), r.1.length + 1 ≤ s.size - 1)
    {u : Vma} (hu : u ∈ before) (h : u.stop = v.start) : ¬s.Selects (before ++ v :: after) v :=
  Search.not_selects_of_strstr hasc hfit (s.header_mem hu) (h ▸ strstr_header_stop u ['\n'])

end Selection

/-! A program, and away from it a library with the anonymous area behind it. -/

def programArea : Vma where
  start := 0x55e0c0a00000
  stop := 0x55e0c0a02000
  fields := ⟨"r-xp 00001000 08:01 7654321                    /home/labs/bin/lab_07".toList, by decide⟩
  details := [⟨"Size:                  8 kB".toList, by decide⟩, ⟨"VmFlags: rd ex mr mw me".toList, by decide⟩]
  nonempty := by decide
  bounded := by decide
  keys := List.forall_mem_cons.mpr ⟨⟨'S', rfl, rfl⟩, List.forall_mem_singleton.mpr ⟨'V', rfl, rfl⟩⟩

def libraryArea : Vma where
  start := 0x7f5a1c000000
  stop := 0x7f5a1c001000
  fields := ⟨"r--p 00000000 08:01 1234567                    /usr/lib/libc.so.6".toList, by decide⟩
  details := [⟨"Size:                  4 kB".toList, by decide⟩, ⟨"VmFlags: rd mr mw me".toList, by decide⟩]
  nonempty := by decide
  bounded := by decide
  keys := List.forall_mem_cons.mpr ⟨⟨'S', rfl, rfl⟩, List.forall_mem_singleton.mpr ⟨'V', rfl, rfl⟩⟩

def anonymousArea : Vma where
  start := 0x7f5a1c001000
  stop := 0x7f5a1c401000
  fields := ⟨"rw-p 00000000 00:00 0 ".toList, by decide⟩
  details := [⟨"Size:               4096 kB".toList, by decide⟩, ⟨"VmFlags: rd wr mr mw me ac".toList, by decide⟩]
  nonempty := by decide
  bounded := by decide
  keys := List.forall_mem_cons.mpr ⟨⟨'S', rfl, rfl⟩, List.forall_mem_singleton.mpr ⟨'V', rfl, rfl⟩⟩

theorem fits_areas (s : Search) :
    ∀ r ∈ s.fileRecords [programArea, libraryArea, anonymousArea], r.1.length + 1 ≤ s.size - 1 := by
  cases s <;> decide +kernel

/-- No line of the program holds the digits of the library's address. -/
theorem selects_libraryArea :
    Search.demoSmaps.Selects ([programArea] ++ libraryArea :: [anonymousArea]) libraryArea ∧
      Search.exMmStruct.Selects ([programArea] ++ libraryArea :: [anonymousArea]) libraryArea ∧
      Search.demoMapsBeforeAfterMmap.Selects ([programArea] ++ libraryArea :: [anonymousArea])
        libraryArea := by
  have hasc : Ascending ([programArea] ++ libraryArea :: [anonymousArea]) := by decide
  have hdigit : 'f' ∈ printHex libraryArea.start := by decide
  have hno : ∀ s : Search, ∀ r ∈ s.fileRecords [programArea], 'f' ∉ r.1 ++ ['\n'] := by
    intro s
    cases s <;> decide
  have hyes : ∀ s : Search, s.Selects ([programArea] ++ libraryArea :: [anonymousArea]) libraryArea := by
    intro s
    apply (Search.selects_iff_earlier hasc (fits_areas s)).mpr
    intro r hr hdigits
    exact hno s r hr ((cString_isPrefix _).subset (hdigits.subset hdigit))
  exact ⟨hyes _, hyes _, hyes _⟩

/-- Every search takes the library for the area behind it. -/
theorem not_selects_anonymousArea :
    ¬Search.demoSmaps.Selects ([programArea, libraryArea] ++ anonymousArea :: []) anonymousArea ∧
      ¬Search.exMmStruct.Selects ([programArea, libraryArea] ++ anonymousArea :: []) anonymousArea ∧
      ¬Search.demoMapsBeforeAfterMmap.Selects ([programArea, libraryArea] ++ anonymousArea :: [])
        anonymousArea := by
  have hadjacent : libraryArea.stop = anonymousArea.start := rfl
  have hmem : libraryArea ∈ [programArea, libraryArea] := .tail _ (List.mem_singleton_self _)
  have hno : ∀ s : Search,
      ¬s.Selects ([programArea, libraryArea] ++ anonymousArea :: []) anonymousArea := fun s =>
    Search.not_selects_of_adjacent (by decide) (fits_areas s) hmem hadjacent
  exact ⟨hno _, hno _, hno _⟩

end OsLabs.ProcFiles
