import Mathlib.Data.List.Infix
import OsLabs.Core.Loop
import OsLabs.Core.Parts

/-! # Texts read line by line

`fgets` reads a line up to the size of its buffer: a longer line comes in several
pieces. A loop over the calls of `fgets` is a scan of the pieces of all lines.
-/

namespace OsLabs.Text

/-! ## Up to a character -/

theorem takeWhile_ne_append {c : Char} {xs : List Char} (h : c ∉ xs) (ys : List Char) :
    (xs ++ c :: ys).takeWhile (· ≠ c) = xs := by
  have hall : ∀ d ∈ xs, decide (d ≠ c) = true := by
    intro d hd
    exact decide_eq_true (ne_of_mem_of_not_mem hd h)
  rw [List.takeWhile_append_of_pos hall, List.takeWhile_cons_of_neg (by simp), List.append_nil]

theorem eq_of_append_cons {c : Char} {xs ys us vs : List Char} (hx : c ∉ xs) (hy : c ∉ ys)
    (h : xs ++ c :: us = ys ++ c :: vs) : xs = ys ∧ us = vs := by
  have heq : xs = ys := by
    rw [← takeWhile_ne_append hx us, h, takeWhile_ne_append hy vs]
  rw [heq] at h
  exact ⟨heq, by simpa using h⟩

/-! ## Lines and pieces -/

/-- The characters up to the first newline and with it, and those behind it. -/
def firstLine : List Char → List Char × List Char
  | [] => ([], [])
  | c :: cs => if c = '\n' then ([c], cs) else (c :: (firstLine cs).1, (firstLine cs).2)

/-- Every line but the last one ends with a newline. -/
def lines : List Char → List (List Char)
  | [] => []
  | c :: cs =>
      if c = '\n' then [c] :: lines cs
      else
        match lines cs with
        | [] => [[c]]
        | l :: ls => (c :: l) :: ls

/-- The `k`-th piece of `n` characters. -/
def piece (n k : Nat) (l : List Char) : List Char := (l.drop (n * k)).take n

def chunks (n : Nat) (l : List Char) : List (List Char) :=
  (List.range ((l.length + n - 1) / n)).map fun k => piece n k l

def pieces (n : Nat) (text : List Char) : List (List Char) := (lines text).flatMap (chunks n)

@[simp] theorem lines_nil : lines [] = [] := rfl

theorem lines_cons {c : Char} (hc : c ≠ '\n') {cs l : List Char} {ls : List (List Char)}
    (h : lines cs = l :: ls) : lines (c :: cs) = (c :: l) :: ls := by
  simp [lines, hc, h]

theorem firstLine_cons {c : Char} (hc : c ≠ '\n') (cs : List Char) :
    firstLine (c :: cs) = (c :: (firstLine cs).1, (firstLine cs).2) := by
  simp [firstLine, hc]

theorem lines_of_ne_nil {text : List Char} (h : text ≠ []) :
    lines text = (firstLine text).1 :: lines (firstLine text).2 := by
  induction text with
  | nil => exact absurd rfl h
  | cons c cs ih =>
      by_cases hc : c = '\n'
      · simp [lines, firstLine, hc]
      · cases cs with
        | nil => simp [lines, firstLine, hc]
        | cons d ds =>
            rw [lines_cons hc (ih (List.cons_ne_nil d ds)), firstLine_cons hc]

theorem firstLine_append (text : List Char) : (firstLine text).1 ++ (firstLine text).2 = text := by
  induction text with
  | nil => rfl
  | cons c cs ih =>
      by_cases hc : c = '\n'
      · simp [firstLine, hc]
      · simp [firstLine, hc, ih]

theorem firstLine_ne_nil {text : List Char} (h : text ≠ []) : (firstLine text).1 ≠ [] := by
  cases text with
  | nil => exact absurd rfl h
  | cons c cs => by_cases hc : c = '\n' <;> simp [firstLine, hc]

/-- What is left of a line is a line. -/
theorem firstLine_drop {n : Nat} {text : List Char} (h : n < (firstLine text).1.length) :
    firstLine ((firstLine text).1.drop n ++ (firstLine text).2) =
      ((firstLine text).1.drop n, (firstLine text).2) := by
  induction text generalizing n with
  | nil => simp [firstLine] at h
  | cons c cs ih =>
      by_cases hc : c = '\n'
      · have hn : n = 0 := by simpa [firstLine, hc] using h
        simp [hn, firstLine, hc]
      · cases n with
        | zero => simp [firstLine_append]
        | succ n =>
            have hlt : n < (firstLine cs).1.length := by simpa [firstLine, hc] using h
            simpa [firstLine, hc] using ih hlt

theorem lines_append_newline {r : List Char} (h : '\n' ∉ r) (text : List Char) :
    lines (r ++ '\n' :: text) = (r ++ ['\n']) :: lines text := by
  induction r with
  | nil => simp [lines]
  | cons c cs ih =>
      obtain ⟨hc, hcs⟩ := List.ne_and_not_mem_of_not_mem_cons h
      simp [lines, Ne.symm hc, ih hcs]

theorem ne_nil_of_mem_lines {text l : List Char} (h : l ∈ lines text) : l ≠ [] := by
  induction text generalizing l with
  | nil => simp at h
  | cons c cs ih =>
      by_cases hc : c = '\n'
      · rcases List.mem_cons.mp (by simpa [lines, hc] using h) with rfl | hl
        · exact List.cons_ne_nil _ _
        · exact ih hl
      · cases hls : lines cs with
        | nil =>
            have hl : l = [c] := by simpa [lines, hc, hls] using h
            simp [hl]
        | cons l₁ ls =>
            rcases List.mem_cons.mp (by simpa [lines, hc, hls] using h) with rfl | hl
            · exact List.cons_ne_nil _ _
            · exact ih (hls ▸ List.mem_cons_of_mem l₁ hl)

/-- Only the last character of a line is a newline. -/
theorem succ_eq_length_of_newline {text l : List Char} (h : l ∈ lines text) {i : Nat}
    (hi : l[i]? = some '\n') : i + 1 = l.length := by
  induction text generalizing l i with
  | nil => simp at h
  | cons c cs ih =>
      by_cases hc : c = '\n'
      · rcases List.mem_cons.mp (by simpa [lines, hc] using h) with rfl | hl
        · cases i with
          | zero => rfl
          | succ i => simp at hi
        · exact ih hl hi
      · have hstart : ∀ l' : List Char, (∀ j, l'[j]? = some '\n' → j + 1 = l'.length) →
            (c :: l')[i]? = some '\n' → i + 1 = (c :: l').length := by
          intro l' hl' hi'
          cases i with
          | zero => exact absurd (Option.some.inj hi') hc
          | succ i => rw [List.length_cons, hl' i hi']
        cases hls : lines cs with
        | nil =>
            have hl : l = [c] := by simpa [lines, hc, hls] using h
            subst hl
            exact hstart [] (by simp) hi
        | cons l₁ ls =>
            rcases List.mem_cons.mp (by simpa [lines, hc, hls] using h) with rfl | hl
            · exact hstart l₁ (fun j hj => ih (hls ▸ List.mem_cons_self) hj) hi
            · exact ih (hls ▸ List.mem_cons_of_mem l₁ hl) hi

/-- A line without its newline. -/
abbrev Record : Type := {r : List Char // '\n' ∉ r}

def records (rs : List Record) : List Char := (rs.map (·.1 ++ ['\n'])).flatten

theorem lines_records (rs : List Record) : lines (records rs) = rs.map (·.1 ++ ['\n']) := by
  induction rs with
  | nil => rfl
  | cons r rs ih =>
      have htext : records (r :: rs) = r.1 ++ '\n' :: records rs := by simp [records]
      rw [htext, lines_append_newline r.2, ih, List.map_cons]

/-! ### Pieces -/

theorem piece_zero (n : Nat) (l : List Char) : piece n 0 l = l.take n := by
  rw [piece, Nat.mul_zero, List.drop_zero]

theorem piece_eq_nil {n k : Nat} {l : List Char} (h : l.length ≤ n * k) : piece n k l = [] := by
  rw [piece, List.drop_eq_nil_of_le h, List.take_nil]

@[simp] theorem chunks_nil (n : Nat) (hn : 0 < n) : chunks n [] = [] := by
  have hzero : (0 + n - 1) / n = 0 := Nat.div_eq_of_lt (by omega)
  rw [chunks, List.length_nil, hzero, List.range_zero, List.map_nil]

theorem chunks_cons {n : Nat} (hn : 0 < n) {l : List Char} (hl : l ≠ []) :
    chunks n l = l.take n :: chunks n (l.drop n) := by
  have hpos := List.length_pos_iff.mpr hl
  have hcount : (l.length + n - 1) / n = ((l.drop n).length + n - 1) / n + 1 := by
    rw [List.length_drop]
    by_cases hle : l.length ≤ n
    · have hone : (l.length + n - 1) / n = 1 := by
        have hsplit : l.length + n - 1 = (l.length - 1) + n := by omega
        rw [hsplit, Nat.add_div_right _ hn, Nat.div_eq_of_lt (by omega)]
      have hzero : (l.length - n + n - 1) / n = 0 := Nat.div_eq_of_lt (by omega)
      omega
    · have hsplit : l.length + n - 1 = (l.length - n + n - 1) + n := by omega
      rw [hsplit, Nat.add_div_right _ hn]
  have hpiece : ∀ k, piece n (k + 1) l = piece n k (l.drop n) := by
    intro k
    rw [piece, piece, List.drop_drop, Nat.mul_succ, Nat.add_comm]
  rw [chunks, hcount, List.range_succ_eq_map, List.map_cons, List.map_map]
  simp [chunks, piece, Function.comp_def, Nat.mul_succ, Nat.add_comm]

theorem chunks_of_length_le {n : Nat} {l : List Char} (hl : l ≠ []) (h : l.length ≤ n) :
    chunks n l = [l] := by
  have hpos := List.length_pos_iff.mpr hl
  have hn : 0 < n := by omega
  rw [chunks_cons hn hl, List.drop_eq_nil_of_le h, chunks_nil n hn, List.take_of_length_le h]

/-- One piece for a line that fits, and more for a longer one. -/
theorem length_chunks_eq_one_iff {n : Nat} (hn : 0 < n) {l : List Char} (hl : l ≠ []) :
    (chunks n l).length = 1 ↔ l.length ≤ n := by
  constructor
  · intro h
    by_contra hlong
    have hrest : l.drop n ≠ [] := by
      intro hnil
      exact hlong (List.drop_eq_nil_iff.mp hnil)
    rw [chunks_cons hn hl, chunks_cons hn hrest] at h
    simp at h
  · intro h
    rw [chunks_of_length_le hl h, List.length_singleton]

theorem mem_chunks {n : Nat} (hn : 0 < n) {l p : List Char} :
    p ∈ chunks n l ↔ ∃ k, n * k < l.length ∧ p = piece n k l := by
  have hcount : ∀ k, k < (l.length + n - 1) / n ↔ n * k < l.length := by
    intro k
    rw [Nat.lt_div_iff_mul_lt hn, Nat.mul_comm]
    omega
  simp only [chunks, List.mem_map, List.mem_range, hcount]
  constructor
  · rintro ⟨k, hk, rfl⟩
    exact ⟨k, hk, rfl⟩
  · rintro ⟨k, hk, rfl⟩
    exact ⟨k, hk, rfl⟩

theorem length_chunks_pos {n : Nat} (hn : 0 < n) {l : List Char} (hl : l ≠ []) :
    0 < (chunks n l).length := by
  simp [chunks_cons hn hl]

/-- There are as many pieces as lines when every line fits, and more otherwise. -/
theorem length_pieces_eq_iff {n : Nat} (hn : 0 < n) (text : List Char) :
    (pieces n text).length = (lines text).length ↔ ∀ l ∈ lines text, l.length ≤ n := by
  have hne : ∀ l ∈ lines text, true = true → chunks n l ≠ [] := by
    intro l hl _
    exact List.ne_nil_of_length_pos (length_chunks_pos hn (ne_nil_of_mem_lines hl))
  have hcount := length_flatMap_eq_filter_iff (p := fun _ => true) hne
  rw [List.filter_true] at hcount
  rw [pieces, hcount]
  apply forall₂_congr
  intro l hl
  exact length_chunks_eq_one_iff hn (ne_nil_of_mem_lines hl)

theorem pieces_eq_lines {n : Nat} {text : List Char} (h : ∀ l ∈ lines text, l.length ≤ n) :
    pieces n text = lines text := by
  have hmap : (lines text).flatMap (chunks n) = (lines text).flatMap fun l => [l] :=
    List.flatMap_congr fun l hl => chunks_of_length_le (ne_nil_of_mem_lines hl) (h l hl)
  rw [pieces, hmap]
  simp

end OsLabs.Text
