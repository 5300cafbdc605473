import OsLabs.Core.Lines
import OsLabs.Core.Scan
import OsLabs.Core.Words

/-! # The fault counters of a process

`get_page_faults` has `awk` replace the name of the process in `/proc/<pid>/stat` by
one token and print the tenth and the twelfth field. The name may have spaces and
parentheses of its own.
-/

namespace OsLabs.Monitor

open Text Scanner

/-! ## The awk program -/

/-- `gsub(/\([^)]*\)/, "X")`: an opening parenthesis and what follows up to the first
closing one. The first argument holds, in reverse, what has been read since an opening
parenthesis that is not closed yet. -/
def gsubParens : Option (List Char) → List Char → List Char
  | none, [] => []
  | none, c :: cs => if c = '(' then gsubParens (some []) cs else c :: gsubParens none cs
  | some buf, [] => '(' :: buf.reverse
  | some buf, c :: cs => if c = ')' then 'X' :: gsubParens none cs else gsubParens (some (c :: buf)) cs

/-- What separates fields by default. -/
def isBlank (c : Char) : Bool := c == ' ' || c == '\t' || c == '\n'

/-- `$n`, empty behind the last field. -/
def field (record : List Char) (n : Nat) : List Char := ((words isBlank record)[n - 1]?).getD []

/-- The program on one record. -/
def faultLine (record : List Char) : List Char :=
  let record := gsubParens none record
  field record 10 ++ ' ' :: (field record 12 ++ ['\n'])

/-- Records are lines without their newline. -/
def getPageFaults (stat : List Char) : List Char :=
  (lines stat).flatMap fun l => faultLine (l.takeWhile (· ≠ '\n'))

/-! ## Records -/

/-- The fields of a record around the name; `after` are those from `cmajflt` on. -/
structure StatFields where
  pid : Nat
  state : {c : Char // c.isAlpha}
  ppid : Int
  pgrp : Int
  session : Int
  ttyNr : Int
  tpgid : Int
  flags : Int
  minflt : Int
  cminflt : Int
  majflt : Int
  after : List Int

/-- The fields before the counters. -/
def StatFields.before (f : StatFields) : List Int :=
  [f.ppid, f.pgrp, f.session, f.ttyNr, f.tpgid, f.flags]

def StatFields.numbers (f : StatFields) : List Int :=
  f.before ++ f.minflt :: f.cminflt :: f.majflt :: f.after

def printNumbers (ns : List Int) : List Char := ns.flatMap fun n => ' ' :: printInt n

/-- `pid (comm) state ppid ..` -/
def statRecord (comm : Record) (f : StatFields) : List Char :=
  printNat f.pid ++ ' ' :: '(' :: (comm.1 ++ ')' :: ' ' :: f.state.1 :: printNumbers f.numbers)

def statText (comm : Record) (f : StatFields) : List Char := statRecord comm f ++ ['\n']

/-- The output is the record's `minflt` and `majflt`. -/
def PrintsFaults (comm : Record) (f : StatFields) : Prop :=
  getPageFaults (statText comm f) = printInt f.minflt ++ ' ' :: (printInt f.majflt ++ ['\n'])

instance (comm : Record) (f : StatFields) : Decidable (PrintsFaults comm f) :=
  inferInstanceAs (Decidable (_ = _))

/-- A blank stands outside of the parentheses of a name; the first argument says
whether the name is inside of them so far. -/
def blankOutside : Bool → List Char → Bool
  | _, [] => false
  | true, c :: cs => if c = ')' then blankOutside false cs else blankOutside true cs
  | false, c :: cs => if c = '(' then blankOutside true cs else isBlank c || blankOutside false cs

/-! ## Names -/

theorem gsubParens_append {cs : List Char} (h : '(' ∉ cs) (ds : List Char) :
    gsubParens none (cs ++ ds) = cs ++ gsubParens none ds := by
  induction cs with
  | nil => rfl
  | cons c cs ih =>
      obtain ⟨hc, hcs⟩ := List.ne_and_not_mem_of_not_mem_cons h
      rw [List.cons_append, gsubParens, if_neg (Ne.symm hc), ih hcs, List.cons_append]

/-- What replaces a name with its parentheses, from some place in it on. -/
def token (st : Option (List Char)) (comm : List Char) : List Char := gsubParens st (comm ++ [')'])

theorem gsubParens_name (st : Option (List Char)) (comm : List Char) {tail : List Char}
    (h : '(' ∉ tail) : gsubParens st (comm ++ ')' :: tail) = token st comm ++ tail := by
  have htail : gsubParens none tail = tail := by
    simpa [gsubParens] using gsubParens_append h []
  induction comm generalizing st with
  | nil => cases st <;> simp [token, gsubParens, htail]
  | cons c cs ih =>
      cases st with
      | none =>
          by_cases hopen : c = '('
          · simpa [token, gsubParens, hopen] using ih (some [])
          · simpa [token, gsubParens, hopen] using ih none
      | some buf =>
          by_cases hclose : c = ')'
          · simpa [token, gsubParens, hclose] using ih none
          · simpa [token, gsubParens, hclose] using ih (some (c :: buf))

theorem token_some (buf comm : List Char) : ∃ rest, token (some buf) comm = 'X' :: rest := by
  induction comm generalizing buf with
  | nil => exact ⟨[], rfl⟩
  | cons c cs ih =>
      by_cases hclose : c = ')'
      · exact ⟨token none cs, by simp [token, gsubParens, hclose]⟩
      · obtain ⟨rest, hrest⟩ := ih (c :: buf)
        exact ⟨rest, by simpa [token, gsubParens, hclose] using hrest⟩

/-- The last character is the closing parenthesis or has replaced it. -/
theorem getLast?_token (st : Option (List Char)) (comm : List Char) :
    ∃ c, (token st comm).getLast? = some c ∧ isBlank c = false := by
  induction comm generalizing st with
  | nil =>
      cases st with
      | none => exact ⟨')', rfl, rfl⟩
      | some buf => exact ⟨'X', rfl, rfl⟩
  | cons c cs ih =>
      cases st with
      | none =>
          by_cases hopen : c = '('
          · simpa [token, gsubParens, hopen] using ih (some [])
          · obtain ⟨d, hd, hblank⟩ := ih none
            rw [token] at hd
            exact ⟨d, by simp [token, gsubParens, hopen, List.getLast?_cons, hd], hblank⟩
      | some buf =>
          by_cases hclose : c = ')'
          · obtain ⟨d, hd, hblank⟩ := ih none
            rw [token] at hd
            exact ⟨d, by simp [token, gsubParens, hclose, List.getLast?_cons, hd], hblank⟩
          · simpa [token, gsubParens, hclose] using ih (some (c :: buf))

/-- The blanks of the token are those outside of the parentheses. -/
theorem blankOutside_iff (st : Option (List Char)) (comm : List Char) :
    blankOutside st.isSome comm = true ↔ ∃ c ∈ token st comm, isBlank c = true := by
  induction comm generalizing st with
  | nil => cases st <;> simp [token, gsubParens, blankOutside, isBlank]
  | cons c cs ih =>
      cases st with
      | none =>
          by_cases hopen : c = '('
          · simpa [token, gsubParens, blankOutside, hopen] using ih (some [])
          · simpa [token, gsubParens, blankOutside, hopen] using or_congr_right (ih none)
      | some buf =>
          by_cases hclose : c = ')'
          · have hx : isBlank 'X' = false := rfl
            simpa [token, gsubParens, blankOutside, hclose, hx] using ih none
          · simpa [token, gsubParens, blankOutside, hclose] using ih (some (c :: buf))

/-- A token is one word exactly when the name has no blank outside of parentheses. -/
theorem words_token (comm : List Char) :
    if blankOutside true comm then 2 ≤ (words isBlank (token (some []) comm)).length
    else words isBlank (token (some []) comm) = [token (some []) comm] := by
  have hblank := blankOutside_iff (some []) comm
  obtain ⟨rest, hrest⟩ := token_some [] comm
  by_cases hname : blankOutside true comm = true
  · -- the blank has the first character before it and the last one behind it
    rw [if_pos hname]
    obtain ⟨c, hc, hcblank⟩ := hblank.mp hname
    obtain ⟨d, hd, hdblank⟩ := getLast?_token (some []) comm
    have hx : isBlank 'X' = false := rfl
    rw [hrest] at hc hd ⊢
    have hmem : c ∈ rest := by
      rcases List.mem_cons.mp hc with rfl | hmem
      · rw [hx] at hcblank
        cases hcblank
      · exact hmem
    obtain ⟨xs, ys, rfl⟩ := List.append_of_mem hmem
    have hlast : d ∈ ys := by
      rw [← List.cons_append, List.getLast?_append_cons] at hd
      rcases List.mem_cons.mp (List.mem_of_getLast? hd) with rfl | hmem
      · rw [hdblank] at hcblank
        cases hcblank
      · exact hmem
    rw [← List.cons_append, words_append_sep hcblank, List.length_append]
    have hbefore := List.length_pos_iff.mpr (words_ne_nil (List.mem_cons_self (a := 'X') (l := xs)) hx)
    have hbehind := List.length_pos_iff.mpr (words_ne_nil hlast hdblank)
    omega
  · rw [if_neg hname]
    apply words_of_forall
    · rw [hrest]
      exact List.cons_ne_nil _ _
    · intro c hc
      rw [Bool.eq_false_iff]
      intro hcblank
      exact hname (hblank.mpr ⟨c, hc, hcblank⟩)

/-! ## Numbers -/

theorem isBlank_eq_false {c : Char} (hspace : c ≠ ' ') (htab : c ≠ '\t') (hnewline : c ≠ '\n') :
    isBlank c = false := by
  simp [isBlank, hspace, htab, hnewline]

theorem isBlank_printInt (n : Int) : ∀ c ∈ printInt n, isBlank c = false := by
  intro c hc
  have hne : ∀ d, d ≠ '-' → d.isDigit = false → c ≠ d := fun d hdash hdigit =>
    ne_of_mem_of_not_mem hc (not_mem_printInt hdash hdigit n)
  exact isBlank_eq_false (hne ' ' (by decide) rfl) (hne '\t' (by decide) rfl) (hne '\n' (by decide) rfl)

theorem words_printNumbers (cs : List Char) (ns : List Int) :
    words isBlank (cs ++ printNumbers ns) = words isBlank cs ++ ns.map printInt := by
  induction ns generalizing cs with
  | nil => simp [printNumbers]
  | cons n ns ih =>
      have hsplit : cs ++ printNumbers (n :: ns) = (cs ++ ' ' :: printInt n) ++ printNumbers ns := by
        simp [printNumbers]
      rw [hsplit, ih, words_append_word (by decide) cs (printInt_ne_nil n) (isBlank_printInt n)]
      simp

theorem not_mem_printNumbers {c : Char} (hspace : c ≠ ' ') (hdash : c ≠ '-')
    (hdigit : c.isDigit = false) (ns : List Int) : c ∉ printNumbers ns := by
  intro h
  obtain ⟨n, -, hn⟩ := List.mem_flatMap.mp h
  rcases List.mem_cons.mp hn with heq | hmem
  · exact hspace heq
  · exact not_mem_printInt hdash hdigit n hmem

/-! ## Fields of a record -/

theorem isBlank_printNat (n : Nat) : ∀ c ∈ printNat n, isBlank c = false := by
  rw [← printInt_natCast]
  exact isBlank_printInt n

theorem StatFields.state_ne (f : StatFields) {c : Char} (h : c.isAlpha = false) : f.state.1 ≠ c := by
  intro heq
  have halpha := f.state.2
  rw [heq, h] at halpha
  cases halpha

/-- What follows the name. -/
def StatFields.tail (f : StatFields) : List Char := ' ' :: f.state.1 :: printNumbers f.numbers

theorem StatFields.not_mem_tail (f : StatFields) {c : Char} (hspace : c ≠ ' ') (hdash : c ≠ '-')
    (hdigit : c.isDigit = false) (halpha : c.isAlpha = false) : c ∉ f.tail := by
  intro h
  rcases List.mem_cons.mp h with heq | hmem
  · exact hspace heq
  · rcases List.mem_cons.mp hmem with heq | hnumbers
    · exact f.state_ne halpha heq.symm
    · exact not_mem_printNumbers hspace hdash hdigit f.numbers hnumbers

theorem gsubParens_statRecord (comm : Record) (f : StatFields) :
    gsubParens none (statRecord comm f) = printNat f.pid ++ ' ' :: (token (some []) comm.1 ++ f.tail) := by
  have hopen : '(' ∉ printNat f.pid := not_mem_printNat (by decide) _
  have htail : '(' ∉ f.tail := f.not_mem_tail (by decide) (by decide) (by decide) (by decide)
  rw [statRecord, gsubParens_append hopen, ← gsubParens_name (some []) comm.1 htail]
  rfl

/-- The fields of the record before `minflt`, as the program counts them. -/
def fieldsBefore (comm : Record) (f : StatFields) : List (List Char) :=
  printNat f.pid :: (words isBlank (token (some []) comm.1) ++ [f.state.1] :: f.before.map printInt)

def countedFields (comm : Record) (f : StatFields) : List (List Char) :=
  fieldsBefore comm f
    ++ printInt f.minflt :: printInt f.cminflt :: printInt f.majflt :: f.after.map printInt

/-- The tenth and the twelfth of them have the values of the counters. -/
def Coincide (comm : Record) (f : StatFields) : Prop :=
  (countedFields comm f)[9]? = some (printInt f.minflt) ∧
    (countedFields comm f)[11]? = some (printInt f.majflt)

theorem words_gsubParens (comm : Record) (f : StatFields) :
    words isBlank (gsubParens none (statRecord comm f)) = countedFields comm f := by
  have hpid : words isBlank (printNat f.pid) = [printNat f.pid] :=
    words_of_forall Nat.toDigits_ne_nil (isBlank_printNat f.pid)
  have hstate : ∀ c ∈ [f.state.1], isBlank c = false := by
    intro c hc
    rw [List.mem_singleton.mp hc]
    exact isBlank_eq_false (f.state_ne (by decide)) (f.state_ne (by decide)) (f.state_ne (by decide))
  have hsplit : token (some []) comm.1 ++ f.tail
      = (token (some []) comm.1 ++ ' ' :: [f.state.1]) ++ printNumbers f.numbers := by
    simp [StatFields.tail]
  rw [gsubParens_statRecord, words_append_sep (by decide), hpid, hsplit, words_printNumbers,
    words_append_word (by decide) _ (List.cons_ne_nil _ _) hstate]
  simp [countedFields, fieldsBefore, StatFields.numbers]

theorem length_fieldsBefore (comm : Record) (f : StatFields) :
    (fieldsBefore comm f).length = (words isBlank (token (some []) comm.1)).length + 8 := by
  simp [fieldsBefore, StatFields.before]

theorem not_mem_statRecord (comm : Record) (f : StatFields) : '\n' ∉ statRecord comm f := by
  have hpid : '\n' ∉ printNat f.pid := not_mem_printNat (by decide) _
  have htail : '\n' ∉ f.tail := f.not_mem_tail (by decide) (by decide) (by decide) (by decide)
  have hrecord : statRecord comm f = printNat f.pid ++ ' ' :: '(' :: (comm.1 ++ ')' :: f.tail) := rfl
  rw [hrecord]
  simp [hpid, htail, comm.2]

theorem getPageFaults_statText (comm : Record) (f : StatFields) :
    getPageFaults (statText comm f) = faultLine (statRecord comm f) := by
  have hnewline := not_mem_statRecord comm f
  rw [getPageFaults, statText, lines_append_newline hnewline, lines_nil, List.flatMap_singleton,
    takeWhile_ne_append hnewline]

theorem space_not_mem_field (record : List Char) (n : Nat) : ' ' ∉ field record n := by
  intro h
  unfold field at h
  cases hword : (words isBlank record)[n - 1]? with
  | none => simp [hword] at h
  | some w =>
      rw [hword] at h
      have hsep := not_sep_of_mem_words (List.mem_of_getElem? hword) ' ' h
      cases hsep

theorem field_eq_iff {record v : List Char} (hv : v ≠ []) (n : Nat) :
    field record n = v ↔ (words isBlank record)[n - 1]? = some v := by
  unfold field
  cases (words isBlank record)[n - 1]? with
  | none => simp [Ne.symm hv]
  | some w => simp

/-- What is printed is right when the tenth and the twelfth field are the counters. -/
theorem printsFaults_iff_coincide (comm : Record) (f : StatFields) :
    PrintsFaults comm f ↔ Coincide comm f := by
  rw [PrintsFaults, getPageFaults_statText, faultLine, Coincide, ← words_gsubParens]
  rw [← field_eq_iff (printInt_ne_nil _) 10, ← field_eq_iff (printInt_ne_nil _) 12]
  constructor
  · intro h
    have hspace : ' ' ∉ printInt f.minflt := not_mem_printInt (by decide) (by decide) _
    obtain ⟨hminflt, hrest⟩ := eq_of_append_cons (space_not_mem_field _ _) hspace h
    exact ⟨hminflt, List.append_cancel_right hrest⟩
  · rintro ⟨hminflt, hmajflt⟩
    simp only [hminflt, hmajflt]

theorem printsFaults_of_not_blankOutside {comm : Record} (h : blankOutside true comm.1 = false)
    (f : StatFields) : PrintsFaults comm f := by
  have htoken : words isBlank (token (some []) comm.1) = [token (some []) comm.1] := by
    simpa [h] using words_token comm.1
  have hlength : (fieldsBefore comm f).length = 9 := by
    rw [length_fieldsBefore, htoken]
    rfl
  rw [printsFaults_iff_coincide, Coincide, countedFields]
  simp [List.getElem?_append_right, hlength]

/-- With one field more before it, the counter is not among the first ten. -/
theorem countedFields_of_blankOutside {comm : Record} (h : blankOutside true comm.1 = true)
    (f : StatFields) : (countedFields comm f)[9]? = (fieldsBefore comm f)[9]? := by
  have htoken : 2 ≤ (words isBlank (token (some []) comm.1)).length := by
    simpa [h] using words_token comm.1
  have hlength : 9 < (fieldsBefore comm f).length := by
    rw [length_fieldsBefore]
    omega
  exact List.getElem?_append_left hlength

/-- The counters of every record are printed when the name has no blank outside of
parentheses. With such a blank other fields are, and right only when they coincide. -/
theorem printsFaults_iff (comm : Record) :
    ((∀ f, PrintsFaults comm f) ↔ blankOutside true comm.1 = false) ∧
      ∀ f, PrintsFaults comm f ↔ blankOutside true comm.1 = false ∨ Coincide comm f := by
  constructor
  · constructor
    · intro h
      rw [Bool.eq_false_iff]
      intro hblank
      -- two records that differ in the counter have the same tenth field
      let f (n : Int) : StatFields :=
        ⟨1, ⟨'S', rfl⟩, 0, 0, 0, 0, 0, 0, n, 0, 0, []⟩
      have hfield : ∀ n, (fieldsBefore comm (f 0))[9]? = some (printInt n) := by
        intro n
        have hprints := ((printsFaults_iff_coincide comm (f n)).mp (h (f n))).1
        rw [countedFields_of_blankOutside hblank] at hprints
        exact hprints
      have hcontra : some (printInt 0) = some (printInt 1) := (hfield 0).symm.trans (hfield 1)
      exact absurd hcontra (by decide)
    · intro h f
      exact printsFaults_of_not_blankOutside h f
  · intro f
    constructor
    · intro h
      exact .inr ((printsFaults_iff_coincide comm f).mp h)
    · intro h
      rcases h with hname | hvalues
      · exact printsFaults_of_not_blankOutside hname f
      · exact (printsFaults_iff_coincide comm f).mpr hvalues

/-- A process named `a) b` with `minflt` 11 and `majflt` 33. -/
theorem not_printsFaults_closedName :
    ¬ PrintsFaults ⟨['a', ')', ' ', 'b'], by decide⟩
      ⟨1, ⟨'S', rfl⟩, 0, 0, 0, 0, 0, 0, 11, 22, 33, []⟩ := by
  decide

example : PrintsFaults ⟨['a', ' ', '(', 'b', ')'], by decide⟩
    ⟨1, ⟨'S', rfl⟩, 0, 0, 0, 0, 0, 0, 11, 22, 33, []⟩ := by
  decide

end OsLabs.Monitor
