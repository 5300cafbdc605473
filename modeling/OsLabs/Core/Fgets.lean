import Mathlib.Data.List.TakeWhile
import OsLabs.Core.Lines

/-! # `fgets` and the loops over it

The loops are the `while (fgets(..))` loops of C: their body goes on with a new
state or breaks. Such a loop scans the pieces of the text, and the stream is
where the last call left it.
-/

namespace OsLabs.Text

/-- What is left to read, and the end-of-file indicator. -/
structure Stream where
  rest : List Char
  eof : Bool

def fopen (text : List Char) : Stream := ⟨text, false⟩

/-- At most `n` characters, up to a newline. The end of the file is only met when
another character is asked for. -/
def getline : Nat → List Char → List Char × Stream
  | 0, cs => ([], ⟨cs, false⟩)
  | _ + 1, [] => ([], ⟨[], true⟩)
  | n + 1, c :: cs =>
      if c = '\n' then ([c], ⟨cs, false⟩) else (c :: (getline n cs).1, (getline n cs).2)

/-- `fgets(line, size, fp)`; `none` is NULL. -/
def fgets (size : Nat) (fp : Stream) : Option (List Char) × Stream :=
  let (line, fp') := getline (size - 1) fp.rest
  (if line = [] then none else some line, fp')

/-- The read that gave `p` met the end of the file. -/
def hitEnd (n : Nat) (p : List Char) : Bool := decide (p.length < n ∧ p.getLast? ≠ some '\n')

theorem hitEnd_cons {c : Char} (hc : c ≠ '\n') (n : Nat) (p : List Char) :
    hitEnd (n + 1) (c :: p) = hitEnd n p := by
  cases p with
  | nil => simp [hitEnd, hc]
  | cons d ds => simp [hitEnd]

theorem getline_eq (n : Nat) (text : List Char) :
    getline n text = ((firstLine text).1.take n,
      ⟨(firstLine text).1.drop n ++ (firstLine text).2, hitEnd n ((firstLine text).1.take n)⟩) := by
  induction text generalizing n with
  | nil => cases n <;> simp [getline, firstLine, hitEnd]
  | cons c cs ih =>
      cases n with
      | zero => simp [getline, firstLine_append, hitEnd]
      | succ n =>
          by_cases hc : c = '\n'
          · simp [getline, firstLine, hc, hitEnd]
          · rw [firstLine_cons hc, List.take_succ_cons, List.drop_succ_cons, hitEnd_cons hc]
            simp [getline, hc, ih n]

/-- The next piece and the text behind it. -/
theorem pieces_of_ne_nil {n : Nat} (hn : 0 < n) {text : List Char} (h : text ≠ []) :
    pieces n text = (getline n text).1 :: pieces n (getline n text).2.rest := by
  have hl := firstLine_ne_nil h
  rw [pieces, lines_of_ne_nil h, List.flatMap_cons, chunks_cons hn hl, getline_eq]
  by_cases hlong : n < (firstLine text).1.length
  · have hrest : (firstLine text).1.drop n ≠ [] := by
      intro hnil
      have := List.drop_eq_nil_iff.mp hnil
      omega
    have hne : (firstLine text).1.drop n ++ (firstLine text).2 ≠ [] :=
      List.append_ne_nil_of_left_ne_nil hrest _
    simp [pieces, lines_of_ne_nil hne, firstLine_drop hlong]
  · have hnil : (firstLine text).1.drop n = [] := List.drop_eq_nil_of_le (by omega)
    simp [hnil, hn, pieces]

theorem length_rest_lt {n : Nat} (hn : 0 < n) {text : List Char} (h : text ≠ []) :
    (getline n text).2.rest.length < text.length := by
  have hpos := List.length_pos_iff.mpr (firstLine_ne_nil h)
  have htext := congrArg List.length (firstLine_append text)
  rw [List.length_append] at htext
  simp only [getline_eq, List.length_append, List.length_drop]
  omega

theorem flatten_pieces {n : Nat} (hn : 0 < n) (text : List Char) : (pieces n text).flatten = text := by
  induction h : text.length using Nat.strongRecOn generalizing text with
  | ind m ih =>
      by_cases hne : text = []
      · simp [hne, pieces]
      · have hlt := length_rest_lt hn hne
        rw [pieces_of_ne_nil hn hne, List.flatten_cons, ih _ (h ▸ hlt) _ rfl, getline_eq]
        rw [← List.append_assoc, List.take_append_drop, firstLine_append]

theorem fgets_nil {size : Nat} (hsize : 2 ≤ size) (eof : Bool) :
    fgets size ⟨[], eof⟩ = (none, ⟨[], true⟩) := by
  obtain ⟨n, rfl⟩ : ∃ n, size = n + 2 := ⟨size - 2, by omega⟩
  rfl

theorem fgets_of_ne_nil {size : Nat} (hsize : 2 ≤ size) {text : List Char} (h : text ≠ [])
    (eof : Bool) :
    fgets size ⟨text, eof⟩ = (some (getline (size - 1) text).1, (getline (size - 1) text).2) := by
  have hl := firstLine_ne_nil h
  have hpos := List.length_pos_iff.mpr hl
  have hne : (getline (size - 1) text).1 ≠ [] := by
    rw [getline_eq]
    apply List.ne_nil_of_length_pos
    rw [List.length_take]
    omega
  simp [fgets, hne]

/-! ## Loops -/

section Loops

variable {σ : Type}

/-- `while (fgets(line, size, fp)) body` -/
def readStep (size : Nat) (body : σ → List Char → σ ⊕ σ) (s : Stream × σ) :
    (Stream × σ) ⊕ (Stream × σ) :=
  match fgets size s.1 with
  | (none, fp) => .inr (fp, s.2)
  | (some line, fp) =>
      match body s.2 line with
      | .inl s' => .inl (fp, s')
      | .inr s' => .inr (fp, s')

/-- Every call of `fgets` but the last one reads a character. -/
def whileFgets (size : Nat) (body : σ → List Char → σ ⊕ σ) (fp : Stream) (s : σ) :
    Option (Stream × σ) :=
  Loop.run (readStep size body) (fp.rest.length + 1) (fp, s)

/-- The body on one piece after the other, up to the one at which it breaks. -/
def scan (body : σ → List Char → σ ⊕ σ) : σ → List (List Char) → σ × Option (List Char × List (List Char))
  | s, [] => (s, none)
  | s, p :: ps =>
      match body s p with
      | .inl s' => scan body s' ps
      | .inr s' => (s', some (p, ps))

theorem scan_continue (f : σ → List Char → σ) (s : σ) (ps : List (List Char)) :
    scan (fun s p => .inl (f s p)) s ps = (ps.foldl f s, none) := by
  induction ps generalizing s with
  | nil => rfl
  | cons p ps ih => exact ih (f s p)

/-- What the body keeps, the scan keeps. -/
theorem scan_invariant {body : σ → List Char → σ ⊕ σ} {I : σ → Prop}
    (hcontinue : ∀ s p s', I s → body s p = .inl s' → I s')
    (hbreak : ∀ s p s', I s → body s p = .inr s' → I s') {s : σ} (h : I s) (ps : List (List Char)) :
    I (scan body s ps).1 := by
  induction ps generalizing s with
  | nil => exact h
  | cons p ps ih =>
      cases hbody : body s p with
      | inl s' =>
          simp only [scan, hbody]
          exact ih (hcontinue s p s' h hbody)
      | inr s' =>
          simp only [scan, hbody]
          exact hbreak s p s' h hbody

/-- The stream after a loop that stopped at a piece, or at none. -/
def streamAfter (n : Nat) : Option (List Char × List (List Char)) → Stream
  | none => ⟨[], true⟩
  | some (p, ps) => ⟨ps.flatten, hitEnd n p⟩

theorem run_readStep {size : Nat} (hsize : 2 ≤ size) (body : σ → List Char → σ ⊕ σ) {fuel : Nat}
    {text : List Char} (hfuel : text.length < fuel) (eof : Bool) (s : σ) :
    Loop.run (readStep size body) fuel (⟨text, eof⟩, s) =
      some (streamAfter (size - 1) (scan body s (pieces (size - 1) text)).2,
        (scan body s (pieces (size - 1) text)).1) := by
  have hn : 0 < size - 1 := by omega
  induction fuel generalizing text eof s with
  | zero => omega
  | succ fuel ih =>
      by_cases hne : text = []
      · subst hne
        have hstep : readStep size body (⟨[], eof⟩, s) = .inr (⟨[], true⟩, s) := by
          simp [readStep, fgets_nil hsize]
        rw [Loop.run_succ_of_leave fuel hstep]
        rfl
      · have hget := fgets_of_ne_nil hsize hne eof
        have hlt := length_rest_lt hn hne
        rw [pieces_of_ne_nil hn hne]
        cases hbody : body s (getline (size - 1) text).1 with
        | inl s' =>
            have hstep : readStep size body (⟨text, eof⟩, s) =
                .inl ((getline (size - 1) text).2, s') := by
              simp [readStep, hget, hbody]
            have hrest : (getline (size - 1) text).2.rest.length < fuel := by omega
            rw [Loop.run_succ_of_continue fuel hstep, scan, hbody]
            exact ih hrest _ s'
        | inr s' =>
            have hstep : readStep size body (⟨text, eof⟩, s) =
                .inr ((getline (size - 1) text).2, s') := by
              simp [readStep, hget, hbody]
            rw [Loop.run_succ_of_leave fuel hstep, scan, hbody]
            simp [streamAfter, flatten_pieces hn, getline_eq]

/-- A loop over `fgets` ends and is a scan of the pieces. -/
theorem whileFgets_eq {size : Nat} (hsize : 2 ≤ size) (body : σ → List Char → σ ⊕ σ)
    (text : List Char) (s : σ) :
    whileFgets size body (fopen text) s =
      some (streamAfter (size - 1) (scan body s (pieces (size - 1) text)).2,
        (scan body s (pieces (size - 1) text)).1) :=
  run_readStep hsize body (Nat.lt_succ_self _) false s

end Loops

/-! ## C strings -/

/-- The string in a buffer. -/
def cString (buf : List Char) : List Char := buf.takeWhile (· ≠ '\x00')

theorem cString_isPrefix (buf : List Char) : cString buf <+: buf := List.takeWhile_prefix _

theorem cString_eq_self_iff {buf : List Char} : cString buf = buf ↔ '\x00' ∉ buf := by
  rw [cString, List.takeWhile_eq_self_iff]
  constructor
  · intro h hmem
    simpa using h _ hmem
  · intro h c hc
    have hne : c ≠ '\x00' := by
      rintro rfl
      exact h hc
    simpa using hne

theorem cString_append {buf : List Char} (h : '\x00' ∉ buf) (rest : List Char) :
    cString (buf ++ rest) = buf ++ cString rest := by
  have hall : ∀ c ∈ buf, decide (c ≠ '\x00') = true := by
    intro c hc
    have hne : c ≠ '\x00' := by
      rintro rfl
      exact h hc
    simpa using hne
  rw [cString, List.takeWhile_append_of_pos hall, cString]

theorem prefix_cString_iff {w buf : List Char} (h : '\x00' ∉ w) :
    w <+: cString buf ↔ w <+: buf := by
  constructor
  · intro hw
    exact hw.trans (cString_isPrefix buf)
  · rintro ⟨rest, rfl⟩
    rw [cString_append h]
    exact List.prefix_append _ _

/-- A text lies in the string of a buffer where it stands in the buffer, with no
NUL before it. -/
theorem infix_cString_iff {w buf : List Char} (h : '\x00' ∉ w) :
    w <:+: cString buf ↔ ∃ i, w <+: buf.drop i ∧ '\x00' ∉ buf.take i := by
  constructor
  · rintro ⟨xs, ys, hsplit⟩
    obtain ⟨rest, hrest⟩ := cString_isPrefix buf
    have hbuf : buf = xs ++ (w ++ (ys ++ rest)) := by
      rw [← hrest, ← hsplit]
      simp only [List.append_assoc]
    have hstring : '\x00' ∉ cString buf := by
      intro hmem
      simpa using List.mem_takeWhile_imp hmem
    refine ⟨xs.length, ?_, ?_⟩
    · rw [hbuf, List.drop_left]
      exact List.prefix_append _ _
    · rw [hbuf, List.take_left]
      intro hmem
      rw [← hsplit, List.append_assoc] at hstring
      exact hstring (List.mem_append_left _ hmem)
  · rintro ⟨i, hstands, hnul⟩
    obtain ⟨xs, hxs⟩ := (prefix_cString_iff h).mpr hstands
    refine ⟨buf.take i, xs, ?_⟩
    rw [List.append_assoc, hxs, ← cString_append hnul, List.take_append_drop]

/-- `strncmp(line, key, strlen(key)) == 0` -/
def hasPrefix (line : List Char) (key : String) : Prop := key.toList <+: cString line

/-- `strstr(line, target) != NULL` -/
def strstr (line target : List Char) : Prop := target <:+: cString line

instance (line : List Char) (key : String) : Decidable (hasPrefix line key) :=
  inferInstanceAs (Decidable (key.toList <+: cString line))

instance (line target : List Char) : Decidable (strstr line target) :=
  inferInstanceAs (Decidable (target <:+: cString line))

end OsLabs.Text
