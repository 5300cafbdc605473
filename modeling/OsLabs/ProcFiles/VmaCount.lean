import Mathlib.Tactic.Ring
import OsLabs.Core.CInt
import OsLabs.Core.Fgets

/-! # Counting the memory areas of a process

Each loop counts the calls of `fgets` on `/proc/self/maps` with a buffer of 512
characters. The counters are of type `int`: `none` is an overflow.
-/

namespace OsLabs.ProcFiles

open CInt Text

/-- `n++` -/
def increment (n : Int) : Option Int := checked 32 (n + 1)

def countStep (n : Option Int) (_line : List Char) : Option Int := n.bind increment

/-- `while (fgets(line, sizeof(line), fp)) n++;` -/
def countLoop (fp : Stream) (n : Int) : Option Int :=
  (whileFgets 512 (fun n line => .inl (countStep n line)) fp (some n)).bind (·.2)

/-- `maps` is `none` when the file cannot be opened. -/
def countVmas (maps : Option (List Char)) : Option Int :=
  match maps with
  | none => some (-1)
  | some text => countLoop (fopen text) 0

/-! ## The counts of parent and child -/

def parentVmas (maps : Option (List Char)) : Option Int :=
  match maps with
  | none => some 0
  | some text => countLoop (fopen text) 0

def childVmas (maps : Option (List Char)) : Option Int :=
  match maps with
  | none => some 0
  | some text => countLoop (fopen text) 0

/-! ## `demo_count_vma_regions` -/

structure Regions where
  total : Int
  anon : Int
  fileBacked : Int
  special : Int
  hasVdso : Int
  hasVvar : Int
  hasHeap : Int
  hasStack : Int

def Regions.zero : Regions := ⟨0, 0, 0, 0, 0, 0, 0, 0⟩

/-- The branch of the body that counts a line as special, file-backed or anonymous. -/
def Regions.classify (r : Regions) (line : List Char) : Option Regions :=
  if strstr line "[vdso]".toList then
    (increment r.special).map fun special => { r with hasVdso := 1, special }
  else if strstr line "[vvar]".toList then
    (increment r.special).map fun special => { r with hasVvar := 1, special }
  else if strstr line "[heap]".toList then
    (increment r.special).map fun special => { r with hasHeap := 1, special }
  else if strstr line "[stack]".toList then
    (increment r.special).map fun special => { r with hasStack := 1, special }
  else if strstr line "/".toList then
    (increment r.fileBacked).map fun fileBacked => { r with fileBacked }
  else
    (increment r.anon).map fun anon => { r with anon }

/-- The body of the loop. -/
def Regions.add (r : Regions) (line : List Char) : Option Regions :=
  (increment r.total).bind fun total => { r with total }.classify line

def regionStep (r : Option Regions) (line : List Char) : Option Regions := r.bind (·.add line)

/-- Only `perror` when the file cannot be opened. -/
def demoCountVmaRegions (maps : Option (List Char)) : Option (Option Regions) :=
  match maps with
  | none => some none
  | some text =>
      ((whileFgets 512 (fun r line => .inl (regionStep r line)) (fopen text)
        (some .zero)).bind (·.2)).map some

/-! ## What is counted -/

theorem increment_of_lt {n : Int} (h₀ : 0 ≤ n) (h : n < 2147483647) : increment n = some (n + 1) :=
  checked_of_fits (fits_32_iff.mpr (by omega))

theorem increment_of_le {n : Int} (h : 2147483647 ≤ n) : increment n = none := by
  have hfits : ¬Fits 32 (n + 1) := by
    rw [fits_32_iff]
    omega
  simp [increment, checked, hfits]

theorem foldl_bind_none {α β : Type} (f : β → α → Option β) (ps : List α) :
    ps.foldl (fun o p => o.bind fun b => f b p) none = none := by
  induction ps with
  | nil => rfl
  | cons p ps ih => exact ih

/-- A counter of which every step adds one, until it overflows. -/
theorem foldl_count {α β : Type} {f : β → α → Option β} (count : β → Int) (I : β → Prop)
    (hpos : ∀ b, I b → 0 ≤ count b)
    (hstep : ∀ b p, I b → count b < 2147483647 →
      ∃ b', f b p = some b' ∧ I b' ∧ count b' = count b + 1)
    (hover : ∀ b p, I b → 2147483647 ≤ count b → f b p = none) {b : β} (hb : I b)
    (hcount : count b ≤ 2147483647) (ps : List α) :
    (ps.foldl (fun o p => o.bind fun b => f b p) (some b)).map count =
      checked 32 (count b + ps.length) := by
  induction ps generalizing b with
  | nil =>
      have hzero := hpos b hb
      have hfits : Fits 32 (count b) := fits_32_iff.mpr (by omega)
      simp [checked_of_fits hfits]
  | cons p ps ih =>
      have hzero := hpos b hb
      rw [List.foldl_cons, Option.bind_some, List.length_cons]
      by_cases hlt : count b < 2147483647
      · obtain ⟨b', hf, hI, heq⟩ := hstep b p hb hlt
        rw [hf, ih hI (by omega), heq]
        congr 1
        push_cast
        ring
      · have hfits : ¬Fits 32 (count b + (ps.length + 1 : Nat)) := by
          rw [fits_32_iff]
          push_cast
          omega
        rw [hover b p hb (by omega), foldl_bind_none, Option.map_none, checked,
          if_neg hfits]

theorem countLoop_eq (text : List Char) :
    countLoop (fopen text) 0 = checked 32 (pieces 511 text).length := by
  have hstep : ∀ (n : Int) (_ : List Char), 0 ≤ n → n < 2147483647 →
      ∃ n', increment n = some n' ∧ 0 ≤ n' ∧ n' = n + 1 := by
    intro n _ hn hlt
    exact ⟨n + 1, increment_of_lt hn hlt, by omega, rfl⟩
  have hcount := foldl_count id (fun n => 0 ≤ n) (fun n hn => hn) hstep
    (fun n _ _ hle => increment_of_le hle) (Int.le_refl 0) (by decide) (pieces 511 text)
  simpa [countLoop, whileFgets_eq, scan_continue, countStep] using hcount

/-- Every area is counted in one of the three classes. -/
structure Regions.Counted (r : Regions) : Prop where
  anon : 0 ≤ r.anon
  fileBacked : 0 ≤ r.fileBacked
  special : 0 ≤ r.special
  total : r.anon + r.fileBacked + r.special = r.total

theorem Regions.Counted.total_nonneg {r : Regions} (h : r.Counted) : 0 ≤ r.total := by
  obtain ⟨hanon, hfile, hspecial, htotal⟩ := h
  omega

theorem Regions.add_of_lt {r : Regions} (h : r.Counted) (line : List Char)
    (hlt : r.total < 2147483647) :
    ∃ r', r.add line = some r' ∧ r'.Counted ∧ r'.total = r.total + 1 := by
  obtain ⟨hanon, hfile, hspecial, htotal⟩ := h
  have ht : increment r.total = some (r.total + 1) := increment_of_lt (by omega) hlt
  have ha : increment r.anon = some (r.anon + 1) := increment_of_lt hanon (by omega)
  have hf : increment r.fileBacked = some (r.fileBacked + 1) := increment_of_lt hfile (by omega)
  have hs : increment r.special = some (r.special + 1) := increment_of_lt hspecial (by omega)
  rw [Regions.add, ht, Option.bind_some, Regions.classify]
  dsimp only
  rw [ha, hf, hs]
  split_ifs <;> exact ⟨_, rfl, ⟨by dsimp; omega, by dsimp; omega, by dsimp; omega,
    by dsimp; omega⟩, rfl⟩

theorem Regions.add_of_le {r : Regions} (line : List Char) (h : 2147483647 ≤ r.total) :
    r.add line = none := by
  simp [Regions.add, increment_of_le h]

theorem total_demoCountVmaRegions (text : List Char) :
    (demoCountVmaRegions (some text)).map (Option.map (·.total)) =
      (checked 32 (pieces 511 text).length).map some := by
  have hzero : Regions.zero.Counted := ⟨by decide, by decide, by decide, by decide⟩
  have hcount := foldl_count Regions.total Regions.Counted (fun r hr => hr.total_nonneg)
    (fun r line hr hlt => Regions.add_of_lt hr line hlt)
    (fun r line _ hle => Regions.add_of_le line hle) hzero (by decide) (pieces 511 text)
  have htotal : Regions.zero.total = 0 := rfl
  rw [htotal, zero_add] at hcount
  rw [← hcount]
  simp [demoCountVmaRegions, whileFgets_eq, scan_continue, regionStep, Function.comp_def]

/-! ## Exact counts -/

/-- The counts are those of the pieces, and as many as records when each record
fits the buffer. -/
theorem checked_pieces_eq_iff (rs : List Record) :
    checked 32 (pieces 511 (records rs)).length = some (rs.length : Int) ↔
      (∀ r ∈ rs, r.1.length ≤ 510) ∧ rs.length < 2 ^ 31 := by
  have hlines := lines_records rs
  have hlength : (lines (records rs)).length = rs.length := by rw [hlines, List.length_map]
  have hexact := length_pieces_eq_iff (n := 511) (by decide) (records rs)
  rw [hlength, hlines] at hexact
  have hfit : (∀ l ∈ rs.map (·.1 ++ ['\n']), l.length ≤ 511) ↔ ∀ r ∈ rs, r.1.length ≤ 510 := by
    simp only [List.forall_mem_map, List.length_append, List.length_singleton]
    exact forall₂_congr fun r _ => by omega
  rw [hfit] at hexact
  rw [← hexact, checked]
  by_cases hfits : Fits 32 (pieces 511 (records rs)).length
  · rw [if_pos hfits, Option.some.injEq]
    rw [fits_32_iff] at hfits
    omega
  · rw [if_neg hfits]
    rw [fits_32_iff] at hfits
    simp only [reduceCtorEq, false_iff]
    omega

/-- What the three labs report as the number of areas. -/
structure CountsRecords (rs : List Record) : Prop where
  countVmas : countVmas (some (records rs)) = some (rs.length : Int)
  parent : parentVmas (some (records rs)) = some (rs.length : Int)
  child : childVmas (some (records rs)) = some (rs.length : Int)
  regions : (demoCountVmaRegions (some (records rs))).map (Option.map (·.total)) =
    some (some (rs.length : Int))

theorem CountsRecords.fit {rs : List Record} (h : CountsRecords rs) :
    (∀ r ∈ rs, r.1.length ≤ 510) ∧ rs.length < 2 ^ 31 := by
  have hcount : countLoop (fopen (records rs)) 0 = some (rs.length : Int) := h.countVmas
  rw [countLoop_eq] at hcount
  exact (checked_pieces_eq_iff rs).mp hcount

theorem CountsRecords.of_fit {rs : List Record} (h : (∀ r ∈ rs, r.1.length ≤ 510) ∧ rs.length < 2 ^ 31) :
    CountsRecords rs := by
  have hcount := (checked_pieces_eq_iff rs).mpr h
  have hloop := (countLoop_eq (records rs)).trans hcount
  exact ⟨hloop, hloop, hloop, by rw [total_demoCountVmaRegions, hcount]; rfl⟩

/-- The counts are exact when all records fit the buffer and their number an `int`. -/
theorem countsRecords_iff (rs : List Record) :
    CountsRecords rs ↔ (∀ r ∈ rs, r.1.length ≤ 510) ∧ rs.length < 2 ^ 31 :=
  ⟨CountsRecords.fit, CountsRecords.of_fit⟩

/-- A directory in the path of a mapped file. -/
def directory : List Char := '/' :: List.replicate 200 'a'

def areaFields : List Char :=
  "7f5a1c000000-7f5a1c001000 r--p 00000000 08:01 1234567                    ".toList

/-- One area, mapped from a file three directories deep. -/
def deepRecord : Record where
  val := areaFields ++ (directory ++ (directory ++ directory))
  property := by
    have hfields : '\n' ∉ areaFields := by decide
    have hdirectory : '\n' ∉ directory := by
      intro h
      rcases List.mem_cons.mp h with hslash | hname
      · exact absurd hslash (by decide)
      · exact absurd (List.eq_of_mem_replicate hname) (by decide)
    simp only [List.mem_append, hfields, hdirectory, or_self, not_false_eq_true]

theorem length_deepRecord : 510 < deepRecord.1.length := by
  have hdirectory : directory.length = 201 := by
    rw [directory, List.length_cons, List.length_replicate]
  simp only [deepRecord, List.length_append, hdirectory]
  omega

theorem not_countsRecords_deepRecord : ¬CountsRecords [deepRecord] := by
  intro h
  have hfit := h.fit.1 deepRecord List.mem_cons_self
  have hlong := length_deepRecord
  omega

end OsLabs.ProcFiles
