import Mathlib.Tactic.Common

/-! # Incremental scanning

A scanner looks at the characters that have arrived so far. It has its value
and the characters after it, or it fails, or it cannot tell before more input
arrives; at the end of the input it can always tell. A stable scanner does not
change its verdict when more input arrives.
-/

namespace OsLabs

inductive Scan (α : Type) where
  | done (a : α) (rest : List Char)
  | fail
  | more

/-- The first argument says whether the input has ended. -/
abbrev Scanner (α : Type) := Bool → List Char → Scan α

namespace Scanner

variable {α β : Type}

def bind (p : Scanner α) (f : α → Scanner β) : Scanner β := fun eof cs =>
  match p eof cs with
  | .done a rest => f a eof rest
  | .fail => .fail
  | .more => .more

def map (f : α → β) (p : Scanner α) : Scanner β := fun eof cs =>
  match p eof cs with
  | .done a rest => .done (f a) rest
  | .fail => .fail
  | .more => .more

/-- A verdict before the end of the input is final, and a value is only found
when a character after it has arrived. -/
structure Stable (p : Scanner α) : Prop where
  done : ∀ {cs a rest}, p false cs = .done a rest →
    rest ≠ [] ∧ ∀ eof ds, p eof (cs ++ ds) = .done a (rest ++ ds)
  fail : ∀ {cs}, p false cs = .fail → ∀ eof ds, p eof (cs ++ ds) = .fail

theorem bind_of_done {p : Scanner α} (f : α → Scanner β) {eof : Bool} {cs rest : List Char} {a : α}
    (h : p eof cs = .done a rest) : bind p f eof cs = f a eof rest := by
  simp [bind, h]

theorem Stable.bind {p : Scanner α} {f : α → Scanner β} (hp : p.Stable)
    (hf : ∀ a, (f a).Stable) : (p.bind f).Stable where
  done := by
    intro cs b rest h
    cases hcs : p false cs with
    | done a rest₁ =>
        rw [bind_of_done f hcs] at h
        have hfirst := (hp.done hcs).2
        have hsecond := (hf a).done h
        constructor
        · exact hsecond.1
        · intro eof ds
          rw [bind_of_done f (hfirst eof ds)]
          exact hsecond.2 eof ds
    | fail => simp [Scanner.bind, hcs] at h
    | more => simp [Scanner.bind, hcs] at h
  fail := by
    intro cs h eof ds
    cases hcs : p false cs with
    | done a rest₁ =>
        rw [bind_of_done f hcs] at h
        rw [bind_of_done f ((hp.done hcs).2 eof ds)]
        exact (hf a).fail h eof ds
    | fail => simp [Scanner.bind, hp.fail hcs eof ds]
    | more => simp [Scanner.bind, hcs] at h

theorem Stable.map {p : Scanner α} (f : α → β) (hp : p.Stable) : (p.map f).Stable where
  done := by
    intro cs b rest h
    cases hcs : p false cs with
    | done a rest₁ =>
        have heq : f a = b ∧ rest₁ = rest := by simpa [Scanner.map, hcs] using h
        constructor
        · exact heq.2 ▸ (hp.done hcs).1
        · intro eof ds
          simp [Scanner.map, (hp.done hcs).2 eof ds, heq]
    | fail => simp [Scanner.map, hcs] at h
    | more => simp [Scanner.map, hcs] at h
  fail := by
    intro cs h eof ds
    cases hcs : p false cs with
    | done a rest₁ => simp [Scanner.map, hcs] at h
    | fail => simp [Scanner.map, hp.fail hcs eof ds]
    | more => simp [Scanner.map, hcs] at h

/-- Until all of an input has arrived that is scanned up to its last character,
a stable scanner waits. -/
theorem Stable.more_of_prefix {p : Scanner α} (hp : p.Stable) {pre suf : List Char} {a : α}
    {c : Char} (hwhole : p false (pre ++ suf) = .done a [c]) (hsuf : suf ≠ []) :
    p false pre = .more := by
  cases hpre : p false pre with
  | done b rest =>
      have hfirst := hp.done hpre
      rw [hfirst.2 false suf] at hwhole
      have hlen : (rest ++ suf).length = 1 := by
        rw [(Scan.done.inj hwhole).2]
        rfl
      have hrest := List.length_pos_iff.mpr hfirst.1
      have hsuf' := List.length_pos_iff.mpr hsuf
      rw [List.length_append] at hlen
      omega
  | fail =>
      rw [hp.fail hpre false suf] at hwhole
      cases hwhole
  | more => rfl

/-! ## Numbers -/

/-- `isspace` in the C locale. -/
def isSpace (c : Char) : Bool :=
  c == ' ' || c == '\t' || c == '\n' || c == '\x0b' || c == '\x0c' || c == '\r'

def takeSign : List Char → Bool × List Char
  | [] => (false, [])
  | c :: cs =>
      if c = '-' then (true, cs)
      else if c = '+' then (false, cs)
      else (false, c :: cs)

/-- Sign, digits and what follows, after white space. -/
def splitNumber (cs : List Char) : Bool × List Char × List Char :=
  let (neg, ds) := takeSign (cs.dropWhile isSpace)
  (neg, ds.takeWhile Char.isDigit, ds.dropWhile Char.isDigit)

/-- A decimal number; `conv` makes the value from its sign and magnitude. -/
def number (conv : Bool → Nat → Option α) : Scanner α := fun eof cs =>
  let (neg, digits, rest) := splitNumber cs
  if rest = [] ∧ eof = false then .more
  else if digits = [] then .fail
  else
    match conv neg (Nat.ofDigitChars 10 digits 0) with
    | some a => .done a rest
    | none => .fail

theorem takeSign_append {cs : List Char} (h : cs ≠ []) (ds : List Char) :
    takeSign (cs ++ ds) = ((takeSign cs).1, (takeSign cs).2 ++ ds) := by
  cases cs with
  | nil => exact absurd rfl h
  | cons c cs =>
      simp only [takeSign, List.cons_append]
      split
      · rfl
      · split <;> rfl

theorem dropWhile_append_of_ne_nil {p : Char → Bool} {cs : List Char} (h : cs.dropWhile p ≠ [])
    (ds : List Char) : (cs ++ ds).dropWhile p = cs.dropWhile p ++ ds := by
  rw [List.dropWhile_append, if_neg (by simpa using h)]

theorem takeWhile_append_of_ne_nil {p : Char → Bool} {cs : List Char} (h : cs.dropWhile p ≠ [])
    (ds : List Char) : (cs ++ ds).takeWhile p = cs.takeWhile p := by
  induction cs with
  | nil => simp at h
  | cons c cs ih =>
      by_cases hc : p c = true
      · simp only [List.dropWhile_cons_of_pos hc] at h
        simp [hc, ih h]
      · simp [hc]

theorem splitNumber_append {cs : List Char} (h : (splitNumber cs).2.2 ≠ []) (ds : List Char) :
    splitNumber (cs ++ ds) =
      ((splitNumber cs).1, (splitNumber cs).2.1, (splitNumber cs).2.2 ++ ds) := by
  have hbody : cs.dropWhile isSpace ≠ [] := by
    intro hnil
    simp [splitNumber, hnil, takeSign] at h
  simp only [splitNumber, dropWhile_append_of_ne_nil hbody, takeSign_append hbody] at h ⊢
  rw [takeWhile_append_of_ne_nil h, dropWhile_append_of_ne_nil h]

theorem number_stable (conv : Bool → Nat → Option α) : (number conv).Stable where
  done := by
    intro cs a rest h
    by_cases hrest : (splitNumber cs).2.2 = []
    · simp [number, hrest] at h
    · simp only [number, hrest, false_and, if_false] at h
      by_cases hdigits : (splitNumber cs).2.1 = []
      · simp [hdigits] at h
      · simp only [hdigits, if_false] at h
        cases hconv : conv (splitNumber cs).1 (Nat.ofDigitChars 10 (splitNumber cs).2.1 0) with
        | none => simp [hconv] at h
        | some b =>
            simp only [hconv, Scan.done.injEq] at h
            rw [← h.1, ← h.2]
            constructor
            · exact hrest
            · intro eof ds
              simp [number, splitNumber_append hrest, hrest, hdigits, hconv]
  fail := by
    intro cs h eof ds
    by_cases hrest : (splitNumber cs).2.2 = []
    · simp [number, hrest] at h
    · simp only [number, hrest, false_and, if_false] at h
      by_cases hdigits : (splitNumber cs).2.1 = []
      · simp [number, splitNumber_append hrest, hrest, hdigits]
      · simp only [hdigits, if_false] at h
        cases hconv : conv (splitNumber cs).1 (Nat.ofDigitChars 10 (splitNumber cs).2.1 0) with
        | none => simp [number, splitNumber_append hrest, hrest, hdigits, hconv]
        | some b => simp [hconv] at h

end Scanner

/-! ## Printing -/

/-- `%u`, `%lu`, `%llu` -/
def printNat (n : Nat) : List Char := Nat.toDigits 10 n

/-- `%d`, `%ld` -/
def printInt (x : Int) : List Char :=
  if x < 0 then '-' :: printNat x.natAbs else printNat x.natAbs

theorem printInt_natCast (n : Nat) : printInt n = printNat n := by
  rw [printInt, if_neg (by omega), Int.natAbs_natCast]

namespace Scanner

theorem isDigit_of_mem_printNat {n : Nat} {c : Char} (h : c ∈ printNat n) : c.isDigit :=
  Nat.isDigit_of_mem_toDigits (by decide) (by decide) h

theorem not_mem_printNat {c : Char} (h : c.isDigit = false) (n : Nat) : c ∉ printNat n := by
  intro hmem
  rw [isDigit_of_mem_printNat hmem] at h
  cases h

theorem mem_printInt {n : Int} {c : Char} (h : c ∈ printInt n) : c = '-' ∨ c.isDigit := by
  unfold printInt at h
  split at h
  · rcases List.mem_cons.mp h with rfl | hdigit
    · exact .inl rfl
    · exact .inr (isDigit_of_mem_printNat hdigit)
  · exact .inr (isDigit_of_mem_printNat h)

theorem not_mem_printInt {c : Char} (hdash : c ≠ '-') (hdigit : c.isDigit = false) (n : Int) :
    c ∉ printInt n := by
  intro h
  rcases mem_printInt h with heq | hd
  · exact hdash heq
  · rw [hdigit] at hd
    cases hd

theorem printInt_ne_nil (n : Int) : printInt n ≠ [] := by
  unfold printInt
  split
  · exact List.cons_ne_nil _ _
  · exact Nat.toDigits_ne_nil

theorem takeSign_of_isDigit {c : Char} (cs : List Char) (h : c.isDigit) :
    takeSign (c :: cs) = (false, c :: cs) := by
  have hminus : c ≠ '-' := by
    intro hc
    simp [hc] at h
  have hplus : c ≠ '+' := by
    intro hc
    simp [hc] at h
  simp [takeSign, hminus, hplus]

theorem isSpace_of_isDigit {c : Char} (h : c.isDigit) : isSpace c = false := by
  rw [Bool.eq_false_iff]
  intro hspace
  simp only [isSpace, Bool.or_eq_true, beq_iff_eq] at hspace
  rcases hspace with ((((rfl | rfl) | rfl) | rfl) | rfl) | rfl <;> simp at h

theorem takeSign_printInt (x : Int) (cs : List Char) :
    takeSign (printInt x ++ cs) = (decide (x < 0), printNat x.natAbs ++ cs) := by
  unfold printInt
  by_cases hx : x < 0
  · simp [hx, takeSign]
  · simp only [hx, if_false, decide_false]
    cases hn : printNat x.natAbs with
    | nil => exact absurd hn Nat.toDigits_ne_nil
    | cons c ds =>
        have hc : c.isDigit := isDigit_of_mem_printNat (hn ▸ List.mem_cons_self)
        exact takeSign_of_isDigit _ hc

theorem dropWhile_printInt (x : Int) (cs : List Char) :
    (printInt x ++ cs).dropWhile isSpace = printInt x ++ cs := by
  unfold printInt
  by_cases hx : x < 0
  · rw [if_pos hx, List.cons_append, List.dropWhile_cons_of_neg (by decide)]
  · rw [if_neg hx]
    cases hn : printNat x.natAbs with
    | nil => exact absurd hn Nat.toDigits_ne_nil
    | cons c ds =>
        have hc : c.isDigit := isDigit_of_mem_printNat (hn ▸ List.mem_cons_self)
        rw [List.cons_append, List.dropWhile_cons_of_neg (by simp [isSpace_of_isDigit hc])]

theorem splitNumber_printInt {ws : List Char} (hws : ∀ c ∈ ws, isSpace c) (x : Int) {d : Char}
    (hd : d.isDigit = false) (cs : List Char) :
    splitNumber (ws ++ (printInt x ++ d :: cs)) = (decide (x < 0), printNat x.natAbs, d :: cs) := by
  have hdigits : ∀ c ∈ printNat x.natAbs, c.isDigit := fun c hc => isDigit_of_mem_printNat hc
  rw [splitNumber, List.dropWhile_append_of_pos hws, dropWhile_printInt, takeSign_printInt]
  simp only [List.takeWhile_append_of_pos hdigits, List.dropWhile_append_of_pos hdigits]
  simp [hd]

/-- A printed number is scanned back, after white space and before any
character that is not a digit. -/
theorem number_printInt {conv : Bool → Nat → Option α} {ws : List Char}
    (hws : ∀ c ∈ ws, isSpace c) {x : Int} {a : α} (hconv : conv (decide (x < 0)) x.natAbs = some a)
    {d : Char} (hd : d.isDigit = false) (eof : Bool) (cs : List Char) :
    number conv eof (ws ++ (printInt x ++ d :: cs)) = .done a (d :: cs) := by
  have hvalue : Nat.ofDigitChars 10 (printNat x.natAbs) 0 = x.natAbs :=
    Nat.ofDigitChars_ten_toDigits
  have hne : printNat x.natAbs ≠ [] := Nat.toDigits_ne_nil
  simp [number, splitNumber_printInt hws x hd, hvalue, hne, hconv]

end Scanner

end OsLabs
