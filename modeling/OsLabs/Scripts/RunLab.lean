import OsLabs.Core.CInt
import OsLabs.Core.Scan

/-! # Running a lab by its number

`run_lab.sh` with `build_all.sh`, and `make lab`, which builds first. The tree is the
sources that are there and the binaries that can be executed; what `cc` does with each
source is an argument.
-/

namespace OsLabs.Scripts

open CInt Scanner

inductive Target where
  | demandPaging
  | pageCacheModels
  | lab (num : List Char)
  deriving DecidableEq

/-- A `cc` that fails may remove the binary of an earlier one. -/
inductive Cc where
  | ok
  | fails (keeps : Bool)
  deriving DecidableEq

structure Tree where
  /-- For a lab, that `labs/lab_${num}_*.c` has a first match. -/
  source : Target → Bool
  bin : Target → Bool

section Model

variable (cc : Target → Cc)

/-- `cc -o out src`, if there is a source. -/
def Tree.built (t : Tree) (x : Target) : Bool :=
  if t.source x then
    match cc x with
    | .ok => true
    | .fails keeps => t.bin x && keeps
  else t.bin x

def Tree.compile (t : Tree) (x : Target) : Tree :=
  { t with bin := Function.update t.bin x (t.built cc x) }

/-- `printf "%02d"` -/
def printTwo (x : Int) : List Char := if 0 ≤ x ∧ x < 10 then '0' :: printInt x else printInt x

/-- `seq -w 1 40` -/
def nums : List (List Char) := (List.range 40).map fun i => printTwo (i + 1 : Nat)

def numbered : List Target := (nums.filter fun num => num ≠ ['2', '7']).map .lab

/-- What `build_all.sh` compiles, in its order. -/
def targets : List Target := .demandPaging :: .pageCacheModels :: numbered

def buildAll (t : Tree) : Tree := targets.foldl (Tree.compile cc) t

/-- `$(printf "%02d" "$((10#$LAB_NUM))")`, in the 64 bits of the shell. -/
def labNum (arg : List Char) : List Char := printTwo (wrap 64 (Nat.ofDigitChars 10 arg 0))

/-- The script becomes the lab, or exits with status 1. -/
inductive End where
  | exec (x : Target)
  | notFound
  deriving DecidableEq

/-- `run_lab.sh` with a number, and the tree it leaves. -/
def runLab (t : Tree) (arg : List Char) : End × Tree :=
  let num := labNum arg
  if num = ['2', '7'] ∧ t.bin .demandPaging then (.exec .demandPaging, t)
  else
    let t' := if t.bin (.lab num) then t else buildAll cc t
    if t'.bin (.lab num) then (.exec (.lab num), t') else (.notFound, t')

/-- `make lab N=..` -/
def makeLab (t : Tree) (arg : List Char) : End × Tree := runLab cc (buildAll cc t) arg

end Model

/-- The program of lab `n`. -/
def program (n : Nat) : Target := if n = 27 then .demandPaging else .lab (printTwo n)

variable {cc : Target → Cc} {t : Tree}

/-! ## Builds -/

theorem built_compile (x y : Target) : (t.compile cc y).built cc x = t.built cc x := by
  by_cases hxy : x = y
  · subst hxy
    cases hsource : t.source x with
    | false => simp [Tree.built, Tree.compile, hsource]
    | true =>
        cases hcc : cc x with
        | ok => simp [Tree.built, Tree.compile, hsource, hcc]
        | fails keeps => simp [Tree.built, Tree.compile, hsource, hcc]
  · simp [Tree.built, Tree.compile, Function.update_of_ne hxy]

theorem built_foldl (xs : List Target) (x : Target) :
    (xs.foldl (Tree.compile cc) t).built cc x = t.built cc x := by
  induction xs generalizing t with
  | nil => rfl
  | cons y xs ih => rw [List.foldl_cons, ih, built_compile]

theorem bin_foldl (xs : List Target) (x : Target) :
    (xs.foldl (Tree.compile cc) t).bin x = if x ∈ xs then t.built cc x else t.bin x := by
  induction xs generalizing t with
  | nil => simp
  | cons y xs ih =>
      rw [List.foldl_cons, ih, built_compile]
      by_cases hxs : x ∈ xs
      · simp [hxs]
      · by_cases hxy : x = y
        · simp [hxy, Tree.compile]
        · simp [hxs, hxy, Tree.compile]

theorem bin_buildAll {x : Target} (hx : x ∈ targets) : (buildAll cc t).bin x = t.built cc x := by
  rw [buildAll, bin_foldl, if_pos hx]

/-- Nothing builds `bin/lab_27`. -/
theorem bin_buildAll_27 : (buildAll cc t).bin (.lab ['2', '7']) = t.bin (.lab ['2', '7']) := by
  rw [buildAll, bin_foldl, if_neg]
  simp [targets, numbered]

theorem built_buildAll (x : Target) : (buildAll cc t).built cc x = t.built cc x := built_foldl targets x

/-! ## Numbers -/

theorem ofDigitChars_zeros (z : Nat) (ds : List Char) :
    Nat.ofDigitChars 10 (List.replicate z '0' ++ ds) 0 = Nat.ofDigitChars 10 ds 0 := by
  induction z with
  | zero => rfl
  | succ z ih => exact ih

theorem labNum_eq {arg : List Char} {n : Nat} (harg : Nat.ofDigitChars 10 arg 0 = n) (hn : n ≤ 40) :
    labNum arg = printTwo n := by
  have hfits : Fits 64 (n : Int) := by
    rw [fits_64_iff]
    omega
  rw [labNum, harg, wrap_of_fits (by decide) hfits]

theorem printTwo_ne_27 : ∀ n ≤ 40, n ≠ 27 → printTwo (n : Nat) ≠ ['2', '7'] := by
  decide

theorem program_mem {n : Nat} (hpos : 0 < n) (hn : n ≤ 40) : program n ∈ targets := by
  unfold program
  split
  · exact List.mem_cons_self
  next hne =>
    apply List.mem_cons_of_mem
    apply List.mem_cons_of_mem
    apply List.mem_map_of_mem
    rw [List.mem_filter]
    refine ⟨?_, by simpa using printTwo_ne_27 n hn hne⟩
    rw [nums, List.mem_map]
    refine ⟨n - 1, List.mem_range.mpr (by omega), ?_⟩
    congr 1
    omega

/-! ## Runs -/

def Tree.CanRun (cc : Target → Cc) (t : Tree) (x : Target) : Prop :=
  t.bin x ∨ t.source x ∧ cc x = .ok

instance (x : Target) : Decidable (t.CanRun cc x) := inferInstanceAs (Decidable (_ ∨ _))

theorem built_iff {x : Target} (h : t.bin x = false) : t.built cc x = true ↔ t.CanRun cc x := by
  unfold Tree.built Tree.CanRun
  cases hsource : t.source x with
  | false => simp [h]
  | true => cases hcc : cc x <;> simp [h]

theorem runLab_numbered {arg num : List Char} (hnum : labNum arg = num) (hne : num ≠ ['2', '7'])
    (hmem : .lab num ∈ targets) :
    (runLab cc t arg).1 = (if t.CanRun cc (.lab num) then .exec (.lab num) else .notFound) ∧
      (t.bin (.lab num) = false → (runLab cc t arg).2 = buildAll cc t) ∧
      (t.bin (.lab num) = true → (runLab cc t arg).2 = t) := by
  simp only [runLab, hnum, hne, false_and, if_false]
  cases hbin : t.bin (.lab num) with
  | true => simp [hbin, Tree.CanRun]
  | false =>
      simp only [Bool.false_eq_true, if_false, bin_buildAll hmem, built_iff hbin]
      by_cases hrun : t.CanRun cc (.lab num)
      · simp [hrun]
      · simp [hrun]

/-- Lab 27 runs if `demand_paging` is there; a build does not help. -/
theorem runLab_27 {arg : List Char} (hnum : labNum arg = ['2', '7'])
    (h27 : t.bin (.lab ['2', '7']) = false) :
    (runLab cc t arg).1 = (if t.bin .demandPaging then .exec .demandPaging else .notFound) ∧
      (t.bin .demandPaging = false → (runLab cc t arg).2 = buildAll cc t) ∧
      (t.bin .demandPaging = true → (runLab cc t arg).2 = t) := by
  cases hbin : t.bin .demandPaging with
  | true => simp [runLab, hnum, hbin]
  | false => simp [runLab, hnum, hbin, h27, bin_buildAll_27]

/-- For a number from 1 to 40, whatever zeros it begins with: `run_lab.sh` runs the program
of the lab if it is there or can be built, except for lab 27, which has to be there;
`make lab` and a second `run_lab.sh` run it in this case too. -/
theorem run_lab_executes {n : Nat} (hpos : 0 < n) (hn : n ≤ 40) (z : Nat) {ds : List Char}
    (hds : Nat.ofDigitChars 10 ds 0 = n) (cc : Target → Cc) (h27 : t.bin (.lab ['2', '7']) = false) :
    let arg := List.replicate z '0' ++ ds
    let ends (able : Bool) : End := if able then .exec (program n) else .notFound
    (runLab cc t arg).1 = ends (if n = 27 then t.bin (program n) else t.CanRun cc (program n)) ∧
      (makeLab cc t arg).1 = ends (t.built cc (program n)) ∧
      (runLab cc (runLab cc t arg).2 arg).1 = ends (t.CanRun cc (program n)) := by
  intro arg ends
  have hmem := program_mem hpos hn
  have hnum : labNum arg = printTwo n := labNum_eq ((ofDigitChars_zeros z ds).trans hds) hn
  by_cases hn27 : n = 27
  · subst hn27
    have hprogram : program 27 = .demandPaging := rfl
    rw [hprogram] at hmem
    have hnum27 : labNum arg = ['2', '7'] := hnum
    simp only [hprogram, ends]
    obtain ⟨hfirst, hfalse, htrue⟩ := @runLab_27 cc t arg hnum27 h27
    have hbuilt := (@runLab_27 cc (buildAll cc t) arg hnum27 (bin_buildAll_27.trans h27)).1
    rw [bin_buildAll hmem] at hbuilt
    refine ⟨by simpa using hfirst, hbuilt, ?_⟩
    cases hbin : t.bin .demandPaging with
    | true =>
        rw [htrue hbin, hfirst, hbin]
        simp [Tree.CanRun, hbin]
    | false =>
        rw [hfalse hbin, hbuilt]
        simp [built_iff hbin]
  · have hprogram : program n = .lab (printTwo n) := if_neg hn27
    have hne := printTwo_ne_27 n hn hn27
    rw [hprogram] at hmem
    simp only [hprogram, ends, if_neg hn27]
    obtain ⟨hfirst, hfalse, htrue⟩ := @runLab_numbered cc t arg _ hnum hne hmem
    have hbuilt := (@runLab_numbered cc (buildAll cc t) arg _ hnum hne hmem).1
    -- what is not there after a build cannot be built
    have hable : (buildAll cc t).CanRun cc (.lab (printTwo n)) ↔ t.built cc (.lab (printTwo n)) = true := by
      rw [← bin_buildAll hmem]
      cases hbin : (buildAll cc t).bin (.lab (printTwo n)) with
      | true => simp [Tree.CanRun, hbin]
      | false =>
          rw [← built_iff hbin, built_buildAll, ← bin_buildAll hmem, hbin]
    simp only [hable] at hbuilt
    refine ⟨by simpa using hfirst, hbuilt, ?_⟩
    cases hbin : t.bin (.lab (printTwo n)) with
    | true =>
        rw [htrue hbin, hfirst]
        simp
    | false =>
        rw [hfalse hbin, hbuilt]
        simp [built_iff hbin]

/-- A fresh tree: `run_lab.sh 27` fails, and succeeds the second time. -/
theorem run_lab_executes_27 :
    let fresh : Tree := ⟨fun _ => true, fun _ => false⟩
    (runLab (fun _ => .ok) fresh ['0', '2', '7']).1 = .notFound ∧
      (runLab (fun _ => .ok) (runLab (fun _ => .ok) fresh ['0', '2', '7']).2 ['0', '2', '7']).1 =
        .exec .demandPaging := by
  intro fresh
  have h := @run_lab_executes fresh 27 (by decide) (by decide) 1 ['2', '7'] (by decide) (fun _ => .ok) rfl
  exact ⟨h.1, h.2.2⟩

end OsLabs.Scripts
