import Mathlib.Data.List.DropRight
import OsLabs.Core.Parts
import OsLabs.ProcFiles.PrintFirst

/-! # Printing the first processor block

`demo_cpuinfo_iomem` prints the lines of `/proc/cpuinfo` that begin with certain keys.
It counts the pieces that begin with a newline and stops at the second one, so it reads
on behind the blank line that ends the first block.
-/

namespace OsLabs.ProcFiles

open Text Scanner

/-! ## The loop -/

/-- The keys of the `strncmp` chain; each call compares the whole key. -/
def selectedKeys : List String :=
  ["processor", "model name", "cpu MHz", "cache size", "physical id", "flags", "bugs"]

def IsSelected (line : List Char) : Prop := ∃ key ∈ selectedKeys, hasPrefix line key

instance (line : List Char) : Decidable (IsSelected line) :=
  inferInstanceAs (Decidable (∃ key ∈ selectedKeys, hasPrefix line key))

/-- `line[0] == '\n'` -/
def isNewline (line : List Char) : Bool := line.head? == some '\n'

def cpuinfoStep (s : PrintState) (line : List Char) : PrintState ⊕ PrintState :=
  let count := if isNewline line then s.count + 1 else s.count
  if isNewline line ∧ 2 ≤ count then .inr ⟨s.out, count⟩
  else if IsSelected line then .inl ⟨s.out ++ [printLine line], count⟩
  else .inl ⟨s.out, count⟩

/-- What the loop prints, one entry for a call of `printf`. -/
def demoCpuinfoIomem (cpuinfo : Option (List Char)) : Option (List (List Char)) :=
  match cpuinfo with
  | none => some []
  | some text => (whileFgets 512 cpuinfoStep (fopen text) ⟨[], 0⟩).map (·.2.out)

theorem selectedKeys_text : ∀ key ∈ selectedKeys,
    key.toList ≠ [] ∧ '\n' ∉ key.toList ∧ '\x00' ∉ key.toList ∧ key.toList.length ≤ 511 := by
  decide

theorem not_isSelected_of_isNewline {line : List Char} (h : isNewline line = true) :
    ¬IsSelected line := by
  rintro ⟨key, hkey, hbegins⟩
  obtain ⟨hne, hnewline, -, -⟩ := selectedKeys_text key hkey
  obtain ⟨cs, rfl⟩ := List.head?_eq_some_iff.mp (by simpa [isNewline] using h)
  have hstring : cString ('\n' :: cs) = '\n' :: cString cs := by simp [cString]
  rw [hasPrefix, hstring] at hbegins
  cases hk : key.toList with
  | nil => exact hne hk
  | cons c ds =>
      rw [hk] at hbegins hnewline
      rw [(List.cons_prefix_cons.mp hbegins).1] at hnewline
      exact hnewline List.mem_cons_self

theorem scan_cpuinfoStep (n : Nat) (out ps : List (List Char)) :
    (scan cpuinfoStep ⟨out, 1 - (n : Int)⟩ ps).1.out =
      out ++ ((through isNewline (n + 1) ps).filter IsSelected).map printLine := by
  induction ps generalizing n out with
  | nil => simp [scan]
  | cons p ps ih =>
      cases hp : isNewline p with
      | true =>
          have hnot := not_isSelected_of_isNewline hp
          rw [through, if_pos hp, List.filter_cons_of_neg (by simpa using hnot)]
          cases n with
          | zero =>
              have hstep : cpuinfoStep ⟨out, 1 - ((0 : Nat) : Int)⟩ p = .inr ⟨out, 2⟩ := by
                simp [cpuinfoStep, hp]
              rw [scan, hstep]
              simp
          | succ n =>
              have hstep : cpuinfoStep ⟨out, 1 - ((n + 1 : Nat) : Int)⟩ p = .inl ⟨out, 1 - (n : Int)⟩ := by
                have hcount : 1 - ((n + 1 : Nat) : Int) + 1 = 1 - (n : Int) := by omega
                have hlt : ¬(2 : Int) ≤ 1 - (n : Int) := by omega
                simp only [cpuinfoStep, hp, if_true, hcount, hlt, and_false, if_false, hnot]
              rw [scan, hstep]
              exact ih n out
      | false =>
          have hstep : cpuinfoStep ⟨out, 1 - (n : Int)⟩ p =
              .inl ⟨if IsSelected p then out ++ [printLine p] else out, 1 - (n : Int)⟩ := by
            by_cases hsel : IsSelected p <;> simp [cpuinfoStep, hp, hsel]
          rw [through, hp, if_neg Bool.false_ne_true, scan, hstep]
          dsimp only
          rw [ih]
          by_cases hsel : IsSelected p <;> simp [hsel]

/-! ## Lines -/

/-- The last piece of the line is its newline: the line is blank, or what is before the
newline fills a number of buffers. -/
def wraps (line : List Char) : Bool := line.getLast? == some '\n' && line.length % 511 == 1

/-- What is printed of a line, without the indentation. -/
def shown (line : List Char) : List (List Char) :=
  ((chunks 511 line).filter IsSelected).map cString

section Wraps

variable {text l : List Char}

theorem isNewline_piece_iff (h : l ∈ lines text) (k : Nat) :
    isNewline (piece 511 k l) = true ↔ l.getLast? = some '\n' ∧ 511 * k + 1 = l.length := by
  have hhead : (piece 511 k l).head? = l[511 * k]? := by
    rw [piece, List.head?_take, if_neg (by decide), List.head?_drop]
  rw [isNewline, hhead, beq_iff_eq, List.getLast?_eq_getElem?]
  constructor
  · intro hk
    have hlast := succ_eq_length_of_newline h hk
    have hindex : l.length - 1 = 511 * k := by omega
    exact ⟨by rw [hindex, hk], hlast⟩
  · rintro ⟨hnewline, hlast⟩
    have hindex : 511 * k = l.length - 1 := by omega
    rw [hindex, hnewline]

theorem chunks_of_wraps (h : l ∈ lines text) (hwraps : wraps l = true) :
    ∃ ys z, chunks 511 l = ys ++ [z] ∧ ys.countP isNewline = 0 ∧ isNewline z = true := by
  obtain ⟨hnewline, hlength⟩ : l.getLast? = some '\n' ∧ l.length % 511 = 1 := by
    simpa [wraps] using hwraps
  have hcount : (l.length + 511 - 1) / 511 = l.length / 511 + 1 := by omega
  refine ⟨(List.range (l.length / 511)).map fun k => piece 511 k l, piece 511 (l.length / 511) l, ?_, ?_, ?_⟩
  · rw [chunks, hcount, List.range_succ, List.map_append]
    rfl
  · rw [List.countP_eq_zero]
    intro p hp hfirst
    obtain ⟨k, hk, rfl⟩ := List.mem_map.mp hp
    have hlast := ((isNewline_piece_iff h k).mp hfirst).2
    have hlt := List.mem_range.mp hk
    omega
  · rw [isNewline_piece_iff h]
    exact ⟨hnewline, by omega⟩

theorem chunks_of_not_wraps (h : l ∈ lines text) (hwraps : wraps l = false) :
    (chunks 511 l).countP isNewline = 0 := by
  rw [List.countP_eq_zero]
  intro p hp hfirst
  obtain ⟨k, -, rfl⟩ := (mem_chunks (by decide)).mp hp
  obtain ⟨hnewline, hlast⟩ := (isNewline_piece_iff h k).mp hfirst
  have hlength : l.length % 511 = 1 := by omega
  simp [wraps, hnewline, hlength] at hwraps

end Wraps

/-- The lines up to the second one that wraps are read, and what is shown of them is
printed. -/
theorem demoCpuinfoIomem_eq (text : List Char) :
    demoCpuinfoIomem (some text) =
      some (((through wraps 2 (lines text)).flatMap shown).map ("  ".toList ++ ·)) := by
  have hscan := scan_cpuinfoStep 1 [] (pieces 511 text)
  have hlines : through isNewline 2 (pieces 511 text) =
      (through wraps 2 (lines text)).flatMap (chunks 511) :=
    through_flatMap (fun l hl => chunks_of_wraps hl) (fun l hl => chunks_of_not_wraps hl) 2
  have hprinted : ∀ ps : List (List Char), ps.map printLine = (ps.map cString).map ("  ".toList ++ ·) := by
    intro ps
    rw [List.map_map]
    rfl
  simp only [demoCpuinfoIomem, whileFgets_eq (show 2 ≤ 512 by decide), Option.map_some]
  have hstart : (1 : Int) - ((1 : Nat) : Int) = 0 := rfl
  rw [hstart] at hscan
  rw [show 512 - 1 = 511 from rfl, hscan, hlines, List.nil_append, hprinted, List.filter_flatMap,
    List.map_flatMap]
  rfl

/-! ## The first block -/

/-- The lines up to the first blank line. -/
def firstBlock (text : List Char) : List (List Char) := (lines text).takeWhile (· ≠ ['\n'])

/-- A line that begins with one of the keys. -/
def BeginsSelected (line : List Char) : Prop := ∃ key ∈ selectedKeys, key.toList <+: line

/-- What stands before the colon, without the white space in between. -/
def lineKey (line : List Char) : List Char := (line.takeWhile (· ≠ ':')).rdropWhile isSpace

/-- A line whose key is one of the keys, and not only begins with it. -/
def KeySelected (line : List Char) : Prop := ∃ key ∈ selectedKeys, lineKey line = key.toList

instance : DecidablePred BeginsSelected := fun line =>
  inferInstanceAs (Decidable (∃ key ∈ selectedKeys, key.toList <+: line))

instance : DecidablePred KeySelected := fun line =>
  inferInstanceAs (Decidable (∃ key ∈ selectedKeys, lineKey line = key.toList))

/-- The part of the first block the loop gets to. -/
def readBlock (text : List Char) : List (List Char) := through wraps 2 (firstBlock text)

def unreadBlock (text : List Char) : List (List Char) :=
  (firstBlock text).drop (readBlock text).length

/-- The lines read behind the first block, from the blank line on. -/
def readBehind (text : List Char) : List (List Char) :=
  through wraps (2 - (firstBlock text).countP wraps) ((lines text).dropWhile (· ≠ ['\n']))

/-- The pieces of the lines read that begin with a key, as the buffer holds them. -/
def selectedPieces (text : List Char) : List (List Char) :=
  (readBlock text).flatMap fun l => (chunks 511 l).filter IsSelected

section Selection

variable (K : List Char → Prop) [DecidablePred K] (text : List Char)

/-- The complete lines of the first block that meet `K` are printed and nothing else. -/
def PrintsFirstBlock : Prop :=
  demoCpuinfoIomem (some text) = some (((firstBlock text).filter K).map ("  ".toList ++ ·))

/-- Every line of the first block that meets `K` is read and fits the buffer, and no
other piece that is read begins with a key. -/
structure Undisturbed : Prop where
  whole : ∀ l ∈ firstBlock text, K l → l.length ≤ 511 ∧ '\x00' ∉ l
  alone : ∀ l ∈ readBlock text, ∀ k, IsSelected (piece 511 k l) → k = 0 ∧ K l
  behind : ∀ l ∈ readBehind text, ∀ k, ¬IsSelected (piece 511 k l)
  unread : ∀ l ∈ unreadBlock text, ¬K l

/-- Lines that meet `K` are not read. There are as many selected pieces before them as lines
that meet `K`, and each is, up to a NUL byte, the line in its place. -/
structure Compensated : Prop where
  unread : ∃ l ∈ unreadBlock text, K l
  pieces : List.Forall₂ (fun p l => cString p = l) (selectedPieces text) ((firstBlock text).filter K)

end Selection

section Lines

variable {K : List Char → Prop} [DecidablePred K] {text l : List Char}

theorem through_lines (text : List Char) :
    through wraps 2 (lines text) = readBlock text ++ readBehind text := by
  have hsplit : lines text = firstBlock text ++ (lines text).dropWhile (· ≠ ['\n']) :=
    List.takeWhile_append_dropWhile.symm
  rw [readBlock, readBehind, ← through_append, ← hsplit]

theorem firstBlock_eq (text : List Char) : firstBlock text = readBlock text ++ unreadBlock text :=
  List.prefix_iff_eq_append.mp (through_isPrefix wraps 2 (firstBlock text)) |>.symm

theorem printsFirstBlock_iff_shown :
    PrintsFirstBlock K text ↔
      (readBlock text).flatMap shown ++ (readBehind text).flatMap shown = (firstBlock text).filter K := by
  have hinj : Function.Injective (("  ".toList ++ ·) : List Char → List Char) :=
    fun _ _ h => List.append_cancel_left h
  rw [PrintsFirstBlock, demoCpuinfoIomem_eq, Option.some.injEq, (List.map_injective_iff.mpr hinj).eq_iff,
    through_lines, List.flatMap_append]

theorem two_le_countP_of_unread (h : unreadBlock text ≠ []) : 2 ≤ (firstBlock text).countP wraps := by
  by_contra hlt
  have hread : readBlock text = firstBlock text := through_eq_self (by omega)
  rw [unreadBlock, hread, List.drop_length] at h
  exact h rfl

/-- The loop ends within the first block or reads all of it. -/
theorem readBehind_eq_nil (h : unreadBlock text ≠ []) : readBehind text = [] := by
  rw [readBehind, Nat.sub_eq_zero_of_le (two_le_countP_of_unread h), through_zero]

/-- Two lines of the block then fill a number of buffers before their newline. -/
theorem Compensated.two_le_countP (h : Compensated K text) : 2 ≤ (firstBlock text).countP wraps := by
  obtain ⟨l, hl, -⟩ := h.unread
  exact two_le_countP_of_unread (List.ne_nil_of_mem hl)

theorem flatMap_shown_eq_iff {ls : List (List Char)} :
    (readBlock text).flatMap shown = ls ↔
      List.Forall₂ (fun p l => cString p = l) (selectedPieces text) ls := by
  have hshown : (readBlock text).flatMap shown = (selectedPieces text).map cString := by
    rw [selectedPieces, List.map_flatMap]
    rfl
  rw [hshown, ← List.forall₂_map_left_iff, List.forall₂_eq_eq_eq]

theorem mem_shown {p : List Char} : p ∈ shown l ↔
    ∃ k, 511 * k < l.length ∧ IsSelected (piece 511 k l) ∧ p = cString (piece 511 k l) := by
  simp only [shown, List.mem_map, List.mem_filter, mem_chunks (show 0 < 511 by decide), decide_eq_true_eq]
  constructor
  · rintro ⟨q, ⟨⟨k, hk, rfl⟩, hsel⟩, rfl⟩
    exact ⟨k, hk, hsel, rfl⟩
  · rintro ⟨k, hk, hsel, rfl⟩
    exact ⟨_, ⟨⟨k, hk, rfl⟩, hsel⟩, rfl⟩

theorem lt_length_of_isSelected {k : Nat} (h : IsSelected (piece 511 k l)) : 511 * k < l.length := by
  by_contra hge
  rw [piece_eq_nil (by omega)] at h
  exact absurd h (by decide)

theorem shown_eq_nil_iff : shown l = [] ↔ ∀ k, ¬IsSelected (piece 511 k l) := by
  rw [List.eq_nil_iff_forall_not_mem]
  constructor
  · intro h k hsel
    exact h _ (mem_shown.mpr ⟨k, lt_length_of_isSelected hsel, hsel, rfl⟩)
  · intro h p hp
    obtain ⟨k, -, hsel, -⟩ := mem_shown.mp hp
    exact h k hsel

theorem fits_of_mem_shown {p : List Char} (h : p ∈ shown l) : p.length ≤ 511 ∧ '\x00' ∉ p := by
  obtain ⟨k, -, -, rfl⟩ := mem_shown.mp h
  have hstring := cString_isPrefix (piece 511 k l)
  have hlength : (piece 511 k l).length ≤ 511 := List.length_take_le _ _
  refine ⟨hstring.length_le.trans hlength, ?_⟩
  intro hnul
  simpa using List.mem_takeWhile_imp hnul

theorem shown_of_whole (hbegins : BeginsSelected l) (hlength : l.length ≤ 511) (hnul : '\x00' ∉ l) :
    shown l = [l] := by
  obtain ⟨key, hkey, hprefix⟩ := hbegins
  have hne : l ≠ [] := by
    rintro rfl
    exact (selectedKeys_text key hkey).1 (List.prefix_nil.mp hprefix)
  have hstring : cString l = l := cString_eq_self_iff.mpr hnul
  have hsel : IsSelected l := by
    refine ⟨key, hkey, ?_⟩
    rw [hasPrefix, hstring]
    exact hprefix
  rw [shown, chunks_of_length_le hne hlength, List.filter_cons_of_pos (by simpa using hsel), List.filter_nil,
    List.map_singleton, hstring]

variable (hK : ∀ l, K l → BeginsSelected l)

include hK in
/-- Where every line that meets `K` is read, nothing makes up for a piece too much. -/
theorem printsFirstBlock_iff_undisturbed (hunread : ∀ l ∈ unreadBlock text, ¬K l) :
    PrintsFirstBlock K text ↔ Undisturbed K text := by
  have hnone : (unreadBlock text).filter K = [] := List.filter_eq_nil_iff.mpr (by simpa using hunread)
  have hfilter : (firstBlock text).filter K = (readBlock text).filter K := by
    rw [firstBlock_eq, List.filter_append, hnone, List.append_nil]
  rw [printsFirstBlock_iff_shown]
  constructor
  · intro h
    have hwhole : ∀ l ∈ firstBlock text, K l → l.length ≤ 511 ∧ '\x00' ∉ l := by
      intro l hl hKl
      have hmem : l ∈ (firstBlock text).filter K := List.mem_filter.mpr ⟨hl, by simpa using hKl⟩
      rw [← h, ← List.flatMap_append] at hmem
      obtain ⟨l', -, hshown⟩ := List.mem_flatMap.mp hmem
      exact fits_of_mem_shown hshown
    have hshown : ∀ l ∈ readBlock text, K l → shown l = [l] := by
      intro l hl hKl
      obtain ⟨hlength, hnul⟩ := hwhole l ((through_isPrefix _ _ _).subset hl) hKl
      exact shown_of_whole (hK l hKl) hlength hnul
    have hmin : ∀ l ∈ readBlock text, decide (K l) = true → shown l ≠ [] := by
      intro l hl hKl
      rw [hshown l hl (of_decide_eq_true hKl)]
      exact List.cons_ne_nil _ _
    have hlength := congrArg List.length h
    have hle := length_filter_le_flatMap hmin
    rw [hfilter, List.length_append] at hlength
    have hparts := (length_flatMap_eq_filter_iff hmin).mp (by omega)
    have hbehind : (readBehind text).flatMap shown = [] := List.eq_nil_of_length_eq_zero (by omega)
    refine ⟨hwhole, ?_, ?_, hunread⟩
    · intro l hl k hsel
      have hlt := lt_length_of_isSelected hsel
      by_cases hKl : K l
      · have hfits := (hwhole l ((through_isPrefix _ _ _).subset hl) hKl).1
        exact ⟨by omega, hKl⟩
      · have hnone : (shown l).length = 0 := by simpa [hKl] using hparts l hl
        exact absurd hsel (shown_eq_nil_iff.mp (List.eq_nil_of_length_eq_zero hnone) k)
    · intro l hl
      exact shown_eq_nil_iff.mp (List.flatMap_eq_nil_iff.mp hbehind l hl)
  · intro h
    have hbehind : (readBehind text).flatMap shown = [] :=
      List.flatMap_eq_nil_iff.mpr fun l hl => shown_eq_nil_iff.mpr (h.behind l hl)
    rw [hbehind, List.append_nil, hfilter]
    apply flatMap_eq_filter
    intro l hl
    by_cases hKl : K l
    · obtain ⟨hlength, hnul⟩ := h.whole l ((through_isPrefix _ _ _).subset hl) hKl
      simpa [hKl] using shown_of_whole (hK l hKl) hlength hnul
    · have hnone : shown l = [] := shown_eq_nil_iff.mpr fun k hsel => hKl (h.alone l hl k hsel).2
      simpa [hKl] using hnone

include hK in
theorem printsFirstBlock_iff_or :
    PrintsFirstBlock K text ↔ Undisturbed K text ∨ Compensated K text := by
  by_cases hunread : ∃ l ∈ unreadBlock text, K l
  · obtain ⟨l, hl, hKl⟩ := hunread
    have hbehind : readBehind text = [] := readBehind_eq_nil (List.ne_nil_of_mem hl)
    rw [printsFirstBlock_iff_shown, hbehind, List.flatMap_nil, List.append_nil]
    constructor
    · intro h
      exact .inr ⟨⟨l, hl, hKl⟩, flatMap_shown_eq_iff.mp h⟩
    · intro h
      rcases h with hundisturbed | hcompensated
      · exact absurd hKl (hundisturbed.unread l hl)
      · exact flatMap_shown_eq_iff.mpr hcompensated.pieces
  · have hnone : ∀ l ∈ unreadBlock text, ¬K l := fun l hl hKl => hunread ⟨l, hl, hKl⟩
    rw [printsFirstBlock_iff_undisturbed hK hnone]
    constructor
    · exact Or.inl
    · intro h
      rcases h with hundisturbed | hcompensated
      · exact hundisturbed
      · exact absurd hcompensated.unread hunread

end Lines

theorem beginsSelected_of_keySelected (l : List Char) (h : KeySelected l) : BeginsSelected l := by
  obtain ⟨key, hkey, heq⟩ := h
  have hprefix : lineKey l <+: l := (List.rdropWhile_prefix _ _).trans (List.takeWhile_prefix _)
  exact ⟨key, hkey, heq ▸ hprefix⟩

/-! ## Texts made of blocks -/

/-- The lines of a processor, none of them blank. -/
abbrev Block : Type := {rs : List Record // ∀ r ∈ rs, r.1 ≠ []}

def Block.lines (b : Block) : List (List Char) := b.1.map (·.1 ++ ['\n'])

/-- A blank line follows each block. -/
def blockText (bs : List Block) : List Char :=
  records (bs.flatMap fun b => b.1 ++ [⟨[], List.not_mem_nil⟩])

theorem lines_blockText (b : Block) (bs : List Block) :
    lines (blockText (b :: bs)) = b.lines ++ ['\n'] :: lines (blockText bs) := by
  rw [blockText, blockText, lines_records, lines_records, List.flatMap_cons, List.map_append,
    List.map_append]
  simp [Block.lines]

theorem Block.ne_blank {b : Block} {l : List Char} (h : l ∈ b.lines) : l ≠ ['\n'] := by
  obtain ⟨r, hr, rfl⟩ := List.mem_map.mp h
  intro heq
  exact b.2 r hr (List.append_cancel_right (heq.trans (List.nil_append _).symm))

section Blocks

variable {b b' : Block}

theorem takeWhile_blockText (b : Block) (bs : List Block) :
    (lines (blockText (b :: bs))).takeWhile (· ≠ ['\n']) = b.lines ∧
      (lines (blockText (b :: bs))).dropWhile (· ≠ ['\n']) = ['\n'] :: lines (blockText bs) := by
  have hall : ∀ l ∈ b.lines, decide (l ≠ ['\n']) = true := fun l hl => decide_eq_true (Block.ne_blank hl)
  rw [lines_blockText]
  constructor
  · rw [List.takeWhile_append_of_pos hall, List.takeWhile_cons_of_neg (by simp), List.append_nil]
  · rw [List.dropWhile_append_of_pos hall, List.dropWhile_cons_of_neg (by simp)]

theorem firstBlock_blockText (b : Block) (bs : List Block) : firstBlock (blockText (b :: bs)) = b.lines :=
  (takeWhile_blockText b bs).1

theorem read_blockText (hwraps : ∀ l ∈ b.lines, wraps l = false) (bs : List Block) :
    unreadBlock (blockText (b :: bs)) = [] ∧
      readBehind (blockText (b :: bs)) = ['\n'] :: through wraps 1 (lines (blockText bs)) := by
  have hcount : b.lines.countP wraps = 0 := List.countP_eq_zero.mpr fun l hl => by simp [hwraps l hl]
  have hread : readBlock (blockText (b :: bs)) = b.lines := by
    rw [readBlock, firstBlock_blockText]
    exact through_eq_self (by omega)
  constructor
  · rw [unreadBlock, hread, firstBlock_blockText, List.drop_length]
  · have hblank : wraps ['\n'] = true := rfl
    rw [readBehind, firstBlock_blockText, hcount, (takeWhile_blockText b bs).2, Nat.sub_zero, through, if_pos hblank]

theorem isSelected_of_beginsSelected {l : List Char} (h : BeginsSelected l) :
    IsSelected (piece 511 0 l) := by
  obtain ⟨key, hkey, hprefix⟩ := h
  obtain ⟨-, -, hnul, hlength⟩ := selectedKeys_text key hkey
  obtain ⟨rest, rfl⟩ := hprefix
  have hpiece : piece 511 0 (key.toList ++ rest) = key.toList ++ rest.take (511 - key.toList.length) := by
    rw [piece_zero, List.take_append, List.take_of_length_le hlength]
  refine ⟨key, hkey, ?_⟩
  rw [hasPrefix, hpiece, cString_append hnul]
  exact List.prefix_append _ _

variable {K : List Char → Prop} [DecidablePred K]

/-- The block behind the first one is read, so its first line is printed as well. -/
theorem not_printsFirstBlock_of_next (hK : ∀ l, K l → BeginsSelected l)
    (hwraps : ∀ l ∈ b.lines, wraps l = false) {l : List Char} (hl : b'.lines.head? = some l)
    (hbegins : BeginsSelected l) (bs : List Block) : ¬PrintsFirstBlock K (blockText (b :: b' :: bs)) := by
  obtain ⟨hunread, hbehind⟩ := read_blockText hwraps (b' :: bs)
  obtain ⟨ls, hls⟩ := List.head?_eq_some_iff.mp hl
  have hmem : l ∈ readBehind (blockText (b :: b' :: bs)) := by
    rw [hbehind, lines_blockText, hls, List.cons_append, through]
    exact List.mem_cons_of_mem _ List.mem_cons_self
  rw [printsFirstBlock_iff_undisturbed hK (by simp [hunread])]
  intro h
  exact h.behind l hmem 0 (isSelected_of_beginsSelected hbegins)

theorem wraps_of_length_le {l : List Char} (h : l ∈ b.lines) (hlength : l.length ≤ 511) :
    wraps l = false := by
  obtain ⟨r, hr, rfl⟩ := List.mem_map.mp h
  have hpos := List.length_pos_iff.mpr (b.2 r hr)
  rw [List.length_append, List.length_singleton] at hlength
  have hmod : (r.1 ++ ['\n']).length % 511 ≠ 1 := by
    rw [List.length_append, List.length_singleton]
    omega
  simp only [wraps, Bool.and_eq_false_iff]
  exact .inr (by simpa using hmod)

theorem printsFirstBlock_oneBlock (hfits : ∀ l ∈ b.lines, l.length ≤ 511 ∧ '\x00' ∉ l) :
    PrintsFirstBlock BeginsSelected (blockText [b]) := by
  have hwraps : ∀ l ∈ b.lines, wraps l = false := fun l hl => wraps_of_length_le hl (hfits l hl).1
  obtain ⟨hunread, hbehind⟩ := read_blockText hwraps []
  have hnil : lines (blockText []) = [] := rfl
  rw [printsFirstBlock_iff_undisturbed (fun _ h => h) (by simp [hunread])]
  refine ⟨?_, ?_, ?_, by simp [hunread]⟩
  · intro l hl _
    rw [firstBlock_blockText] at hl
    exact hfits l hl
  · intro l hl k hsel
    have hmem : l ∈ b.lines := by
      rw [← firstBlock_blockText b []]
      exact (through_isPrefix _ _ _).subset hl
    have hlt := lt_length_of_isSelected hsel
    have hlength := (hfits l hmem).1
    obtain ⟨key, hkey, hbegins⟩ := hsel
    have hprefix : cString (piece 511 k l) <+: l := by
      have hk : k = 0 := by omega
      rw [hk, piece_zero]
      exact (cString_isPrefix _).trans (List.take_prefix _ _)
    exact ⟨by omega, key, hkey, hbegins.trans hprefix⟩
  · intro l hl k hsel
    rw [hbehind, hnil, through_nil, List.mem_singleton] at hl
    have hlt := lt_length_of_isSelected hsel
    rw [hl, List.length_singleton] at hlt
    have hk : k = 0 := by omega
    rw [hl, hk] at hsel
    exact not_isSelected_of_isNewline rfl hsel

end Blocks

/-- With the key of a line taken for its beginning or for all that stands before the
colon. -/
theorem printsFirstBlock_iff (text : List Char) :
    (PrintsFirstBlock BeginsSelected text ↔
      Undisturbed BeginsSelected text ∨ Compensated BeginsSelected text) ∧
    (PrintsFirstBlock KeySelected text ↔
      Undisturbed KeySelected text ∨ Compensated KeySelected text) :=
  ⟨printsFirstBlock_iff_or fun _ h => h, printsFirstBlock_iff_or beginsSelected_of_keySelected⟩

def processor0 : Block := ⟨[⟨"processor\t: 0".toList, by decide⟩], by decide⟩

def processor1 : Block := ⟨[⟨"processor\t: 1".toList, by decide⟩], by decide⟩

/-- Both processors are printed. -/
theorem not_printsFirstBlock_twoProcessors :
    ¬PrintsFirstBlock BeginsSelected (blockText [processor0, processor1]) ∧
      ¬PrintsFirstBlock KeySelected (blockText [processor0, processor1]) := by
  have hwraps : ∀ l ∈ processor0.lines, wraps l = false := by decide
  have hbegins : BeginsSelected "processor\t: 1\n".toList := by decide
  constructor
  · exact not_printsFirstBlock_of_next (fun _ h => h) hwraps rfl hbegins []
  · exact not_printsFirstBlock_of_next beginsSelected_of_keySelected hwraps rfl hbegins []

end OsLabs.ProcFiles
