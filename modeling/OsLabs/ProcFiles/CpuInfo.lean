import OsLabs.Core.Fgets
import OsLabs.Core.Scan
import OsLabs.Core.Words

/-! # Looking for a processor flag

`demo_page_alignment` reads `/proc/cpuinfo` with a buffer of 512 characters and
looks for `la57` in each piece that begins with `flags`.
-/

namespace OsLabs.ProcFiles

open Text Scanner

/-- `strncmp(line, "flags", 5) == 0 && strstr(line, "la57")` -/
def showsLa57 (line : List Char) : Prop := hasPrefix line "flags" ∧ strstr line "la57".toList

instance (line : List Char) : Decidable (showsLa57 line) :=
  inferInstanceAs (Decidable (hasPrefix line "flags" ∧ strstr line "la57".toList))

def la57Yes : List Char := "  CPU supports LA57 (5-level paging): YES\n".toList

def la57No : List Char := "  LA57 (5-level paging): not in /proc/cpuinfo flags\n".toList

structure La57State where
  out : List (List Char)
  found : Int

def la57Step (s : La57State) (line : List Char) : La57State ⊕ La57State :=
  if showsLa57 line then .inr ⟨s.out ++ [la57Yes], 1⟩ else .inl s

/-- What the check prints, one entry for a call of `printf`. -/
def demoPageAlignment (cpuinfo : Option (List Char)) : Option (List (List Char)) :=
  match cpuinfo with
  | none => some []
  | some text =>
      (whileFgets 512 la57Step (fopen text) ⟨[], 0⟩).map fun r =>
        if r.2.found = 0 then r.2.out ++ [la57No] else r.2.out

def ReportsLa57 (text : List Char) : Prop :=
  ∃ out, demoPageAlignment (some text) = some out ∧ la57Yes ∈ out

theorem scan_la57Step (s : La57State) (ps : List (List Char)) :
    (scan la57Step s ps).1 = if ∃ p ∈ ps, showsLa57 p then ⟨s.out ++ [la57Yes], 1⟩ else s := by
  induction ps with
  | nil => simp [scan]
  | cons p ps ih =>
      by_cases hp : showsLa57 p
      · simp [scan, la57Step, hp]
      · simp [scan, la57Step, hp, ih]

theorem reportsLa57_iff_pieces (text : List Char) :
    ReportsLa57 text ↔ ∃ p ∈ pieces 511 text, showsLa57 p := by
  have hresult : demoPageAlignment (some text) =
      some (if ∃ p ∈ pieces 511 text, showsLa57 p then [la57Yes] else [la57No]) := by
    simp only [demoPageAlignment, whileFgets_eq (show 2 ≤ 512 by decide), Option.map_some]
    rw [scan_la57Step]
    by_cases hshown : ∃ p ∈ pieces 511 text, showsLa57 p
    · simp [hshown]
    · simp [hshown]
  have hne : la57Yes ≠ la57No := by decide
  rw [ReportsLa57, hresult]
  split_ifs with h
  · exact iff_of_true ⟨_, rfl, List.mem_singleton_self _⟩ h
  · refine iff_of_false ?_ h
    rintro ⟨out, hout, hmem⟩
    cases hout
    exact hne (List.mem_singleton.mp hmem)

/-- The pieces are the blocks of 511 characters of the lines. -/
theorem reportsLa57_iff (text : List Char) :
    ReportsLa57 text ↔ ∃ l ∈ lines text, ∃ k, showsLa57 (piece 511 k l) := by
  rw [reportsLa57_iff_pieces]
  simp only [pieces, List.mem_flatMap]
  constructor
  · rintro ⟨p, ⟨l, hl, hp⟩, hshows⟩
    obtain ⟨k, -, rfl⟩ := (mem_chunks (by decide)).mp hp
    exact ⟨l, hl, k, hshows⟩
  · rintro ⟨l, hl, k, hshows⟩
    have hk : 511 * k < l.length := by
      by_contra hge
      rw [piece_eq_nil (by omega)] at hshows
      exact absurd hshows (by decide)
    exact ⟨piece 511 k l, ⟨l, hl, (mem_chunks (by decide)).mpr ⟨k, hk, rfl⟩⟩, hshows⟩

/-! ## The flag -/

/-- A line that begins with `flags` and has the flag as one of its words. -/
def HasLa57 (line : List Char) : Prop :=
  "flags".toList <+: line ∧ "la57".toList ∈ words isSpace line

/-- `flags` stands at `b`, and `la57` at distance `i` from there: so near that it
lies in the 511 characters from `b` on, and with no NUL byte before it. -/
def ShownAt (line : List Char) (b i : Nat) : Prop :=
  "flags".toList <+: line.drop b ∧ "la57".toList <+: line.drop (b + i) ∧ i + 4 ≤ 511 ∧
    '\x00' ∉ (line.drop b).take i

/-- `la57` at `i` is a part of a longer word. -/
def InWord (line : List Char) (i : Nat) : Prop :=
  (∃ c, (line.take i).getLast? = some c ∧ isSpace c = false) ∨
    ∃ c, (line.drop (i + 4)).head? = some c ∧ isSpace c = false

/-- The flag is there; but wherever `la57` stands in a flags line it ends behind
the 511th character or follows a NUL byte, and nothing is shown at a later
multiple of 511. -/
def MissedFlag (text : List Char) : Prop :=
  (∃ l ∈ lines text, HasLa57 l) ∧
    (∀ l ∈ lines text, "flags".toList <+: l → ∀ i, "la57".toList <+: l.drop i →
      511 < i + 4 ∨ '\x00' ∈ l.take i) ∧
    ∀ l ∈ lines text, ∀ k i, ¬ShownAt l (511 * (k + 1)) i

/-- The flag is not there; but `la57` is a part of a longer word that a flags line
has in front, or something is shown at a later multiple of 511. -/
def StrayFlag (text : List Char) : Prop :=
  (∀ l ∈ lines text, ¬HasLa57 l) ∧
    ((∃ l ∈ lines text, ∃ i, ShownAt l 0 i ∧ InWord l i) ∨
      ∃ l ∈ lines text, ∃ k i, ShownAt l (511 * (k + 1)) i)

theorem showsLa57_piece_iff {l : List Char} {k : Nat} :
    showsLa57 (piece 511 k l) ↔ ∃ i, ShownAt l (511 * k) i := by
  have hflags : hasPrefix (piece 511 k l) "flags" ↔ "flags".toList <+: l.drop (511 * k) := by
    rw [hasPrefix, prefix_cString_iff (by decide), piece, List.prefix_take_iff]
    exact and_iff_left (by decide)
  have hla57 : ∀ i, "la57".toList <+: (piece 511 k l).drop i ↔
      "la57".toList <+: l.drop (511 * k + i) ∧ i + 4 ≤ 511 := by
    intro i
    rw [piece, List.drop_take, List.drop_drop, List.prefix_take_iff]
    have hlength : "la57".toList.length = 4 := rfl
    rw [hlength]
    exact and_congr_right fun _ => by omega
  rw [showsLa57, hflags, strstr, infix_cString_iff (by decide), ← exists_and_left]
  apply exists_congr
  intro i
  rw [hla57, ShownAt, and_assoc]
  refine and_congr_right fun _ => and_congr_right fun _ => and_congr_right fun hi => ?_
  rw [piece, List.take_take, Nat.min_eq_left (by omega)]

/-- Where `la57` stands in a flags line, it is the flag or a part of a longer word. -/
theorem hasLa57_or_inWord {l : List Char} (hflags : "flags".toList <+: l) {i : Nat}
    (hla57 : "la57".toList <+: l.drop i) : HasLa57 l ∨ InWord l i := by
  by_cases hword : InWord l i
  · exact .inr hword
  · left
    obtain ⟨rest, hrest⟩ := hla57
    have hbehind : l.drop (i + 4) = rest := by
      rw [← List.drop_drop, ← hrest]
      rfl
    have hline : l = l.take i ++ "la57".toList ++ rest := by
      rw [List.append_assoc, hrest, List.take_append_drop]
    rw [InWord, not_or, hbehind] at hword
    have hmem : "la57".toList ∈ words isSpace (l.take i ++ "la57".toList ++ rest) := by
      apply mem_words_of_touches
      · decide
      · simp [isSpace]
      · intro c hc
        by_contra hspace
        exact hword.1 ⟨c, hc, by simpa using hspace⟩
      · intro c hc
        by_contra hspace
        exact hword.2 ⟨c, hc, by simpa using hspace⟩
    exact ⟨hflags, hline ▸ hmem⟩

/-- The first multiple of 511 and the later ones. -/
theorem reportsLa57_iff_shownAt (text : List Char) :
    ReportsLa57 text ↔ (∃ l ∈ lines text, ∃ i, ShownAt l 0 i) ∨
      ∃ l ∈ lines text, ∃ k i, ShownAt l (511 * (k + 1)) i := by
  rw [reportsLa57_iff]
  simp only [showsLa57_piece_iff]
  constructor
  · rintro ⟨l, hl, k, hshown⟩
    cases k with
    | zero => exact .inl ⟨l, hl, hshown⟩
    | succ k => exact .inr ⟨l, hl, k, hshown⟩
  · rintro (⟨l, hl, hshown⟩ | ⟨l, hl, k, hshown⟩)
    · exact ⟨l, hl, 0, hshown⟩
    · exact ⟨l, hl, k + 1, hshown⟩

theorem missedFlag_iff {text : List Char} :
    MissedFlag text ↔ (∃ l ∈ lines text, HasLa57 l) ∧ ¬ReportsLa57 text := by
  rw [MissedFlag, reportsLa57_iff_shownAt, not_or]
  refine and_congr_right fun _ => and_congr ?_ ?_
  · constructor
    · rintro hfar ⟨l, hl, i, hflags, hla57, hi, hnul⟩
      rw [Nat.zero_add] at hla57
      rcases hfar l hl hflags i hla57 with hbehind | hmem
      · omega
      · exact hnul hmem
    · intro hnone l hl hflags i hla57
      by_contra hnear
      rw [not_or, Nat.not_lt] at hnear
      exact hnone ⟨l, hl, i, hflags, by rwa [Nat.zero_add], hnear.1, hnear.2⟩
  · simp only [not_exists, not_and]

theorem strayFlag_iff {text : List Char} :
    StrayFlag text ↔ (∀ l ∈ lines text, ¬HasLa57 l) ∧ ReportsLa57 text := by
  rw [StrayFlag, reportsLa57_iff_shownAt]
  refine and_congr_right fun hnone => or_congr_left ?_
  constructor
  · rintro ⟨l, hl, i, hshown, _⟩
    exact ⟨l, hl, i, hshown⟩
  · rintro ⟨l, hl, i, hshown⟩
    have hla57 : "la57".toList <+: l.drop i := by
      have hstands := hshown.2.1
      rwa [Nat.zero_add] at hstands
    rcases hasLa57_or_inWord hshown.1 hla57 with hflag | hword
    · exact absurd hflag (hnone l hl)
    · exact ⟨l, hl, i, hshown, hword⟩

/-- The report is right exactly when the flag is neither missed nor stray. -/
theorem reportsLa57_iff_hasLa57 (text : List Char) :
    (ReportsLa57 text ↔ ∃ l ∈ lines text, HasLa57 l) ↔ ¬MissedFlag text ∧ ¬StrayFlag text := by
  have hflags : (∀ l ∈ lines text, ¬HasLa57 l) ↔ ¬∃ l ∈ lines text, HasLa57 l := by
    simp only [not_exists, not_and]
  have hlogic : ∀ P Q : Prop, (P ↔ Q) ↔ ¬(Q ∧ ¬P) ∧ ¬(¬Q ∧ P) := by tauto
  rw [missedFlag_iff, strayFlag_iff, hflags]
  exact hlogic _ _

/-- A flag is not missed in a line that fits the buffer. -/
theorem not_missedFlag_of_fits {text l : List Char} (hl : l ∈ lines text) (h : HasLa57 l)
    (hfit : l.length ≤ 511) (hnul : '\x00' ∉ l) : ¬MissedFlag text := by
  rintro ⟨-, hfar, -⟩
  obtain ⟨xs, ys, hsplit⟩ := infix_of_mem_words h.2
  have hstands : "la57".toList <+: l.drop xs.length := by
    rw [← hsplit, List.append_assoc, List.drop_left]
    exact List.prefix_append _ _
  have hlength : xs.length + 4 + ys.length = l.length := by
    rw [← hsplit, List.length_append, List.length_append]
    rfl
  rcases hfar l hl h.1 _ hstands with hbehind | hmem
  · omega
  · exact hnul (List.mem_of_mem_take hmem)

/-! The kernel writes the flags in one line, `la57` behind most others. -/

def flagsKey : List Char := "flags\t\t:".toList

def lastFlag : List Char := "la57\n".toList

def flagsLine (names : List Char) : List Char := flagsKey ++ (names ++ ' ' :: lastFlag)

section FlagsLine

variable {names : List Char}

theorem lines_flagsLine (h : '\n' ∉ names) : lines (flagsLine names) = [flagsLine names] := by
  have hlast : ' ' :: lastFlag = (' ' :: "la57".toList) ++ ['\n'] := by decide
  have hline : flagsLine names = (flagsKey ++ (names ++ ' ' :: "la57".toList)) ++ ['\n'] := by
    rw [flagsLine, hlast, List.append_assoc flagsKey, List.append_assoc names]
  have hnewline : '\n' ∉ flagsKey ++ (names ++ ' ' :: "la57".toList) := by
    rw [List.mem_append, List.mem_append, not_or, not_or]
    exact ⟨by decide, h, by decide⟩
  rw [hline, lines_append_newline hnewline]
  rfl

theorem hasLa57_flagsLine (names : List Char) : HasLa57 (flagsLine names) := by
  constructor
  · have hkey : "flags".toList <+: flagsKey := by decide
    exact hkey.trans (List.prefix_append _ _)
  · rw [flagsLine, ← List.append_assoc, words_append_sep (by decide)]
    exact List.mem_append_right _ (by decide)

/-- A block behind the first one has no `g` in it, and the first one no `5`. -/
theorem not_showsLa57_flagsLine (hlength : 503 ≤ names.length) (hg : 'g' ∉ names)
    (hfive : '5' ∉ names) (k : Nat) : ¬showsLa57 (piece 511 k (flagsLine names)) := by
  rintro ⟨hflags, hla57⟩
  have hstring := cString_isPrefix (piece 511 k (flagsLine names))
  cases k with
  | zero =>
      have hfirst : piece 511 0 (flagsLine names) <+: flagsKey ++ names := by
        rw [piece_zero, flagsLine, ← List.append_assoc]
        rw [List.take_append_of_le_length (by rw [List.length_append]; exact Nat.add_le_add_left hlength 8)]
        exact List.take_prefix _ _
      have hmem : '5' ∈ flagsKey ++ names :=
        hfirst.subset (hstring.subset (hla57.subset (by decide)))
      rw [List.mem_append] at hmem
      exact hmem.elim (by decide) hfive
  | succ k =>
      have hlater : piece 511 (k + 1) (flagsLine names) ⊆ names ++ ' ' :: lastFlag := by
        have hskip : 511 * (k + 1) = flagsKey.length + (511 * k + 503) := by
          show 511 * (k + 1) = 8 + (511 * k + 503)
          omega
        rw [piece, flagsLine, hskip, List.drop_append]
        exact List.Subset.trans (List.take_subset _ _) (List.drop_subset _ _)
      have hmem : 'g' ∈ names ++ ' ' :: lastFlag :=
        hlater (hstring.subset (hflags.subset (by decide)))
      rw [List.mem_append] at hmem
      exact hmem.elim hg (by decide)

end FlagsLine

/-- The names of 128 other flags. -/
def otherFlags : List Char := (List.replicate 128 " fpu".toList).flatten

theorem mem_otherFlags {c : Char} (h : c ∈ otherFlags) : c ∈ " fpu".toList := by
  obtain ⟨w, hw, hc⟩ := List.mem_flatten.mp h
  rwa [List.eq_of_mem_replicate hw] at hc

theorem reportsLa57_otherFlags :
    ¬(ReportsLa57 (flagsLine otherFlags) ↔ ∃ l ∈ lines (flagsLine otherFlags), HasLa57 l) := by
  have hlength : otherFlags.length = 512 := by
    rw [otherFlags, List.length_flatten, List.map_replicate, List.sum_replicate_nat]
    rfl
  have hlines : lines (flagsLine otherFlags) = [flagsLine otherFlags] :=
    lines_flagsLine fun h => absurd (mem_otherFlags h) (by decide)
  have hshows := not_showsLa57_flagsLine (by omega : 503 ≤ otherFlags.length)
    (fun h => absurd (mem_otherFlags h) (by decide)) (fun h => absurd (mem_otherFlags h) (by decide))
  rw [reportsLa57_iff, hlines]
  simp [hasLa57_flagsLine, hshows]

end OsLabs.ProcFiles
