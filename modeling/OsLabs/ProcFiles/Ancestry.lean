import Mathlib.Data.List.Chain
import OsLabs.Core.CInt
import OsLabs.Core.Fgets
import OsLabs.Core.Scan

/-! # Walking the ancestors of a process

`demo_our_ancestors` follows the `PPid` fields of `/proc/<pid>/status` from the
process itself, at most 20 steps, and ends with a line for PID 1.
-/

namespace OsLabs.ProcFiles

open CInt Text Scanner

/-! ## Status files -/

/-- `sscanf(.., " %63s", name)` -/
def scanName (cs : List Char) : Option (List Char) :=
  let word := ((cs.dropWhile isSpace).takeWhile fun c => !isSpace c).take 63
  if word = [] then none else some word

/-- The value of `%d`, cut to an `int`. -/
def intOf (neg : Bool) (n : Nat) : Option Int := some (wrap 32 (if neg then -n else n))

/-- `sscanf(.., " %d", &ppid)` -/
def scanInt (cs : List Char) : Option Int :=
  match number intOf true cs with
  | .done x _ => some x
  | .fail | .more => none

structure StatusFields where
  name : List Char
  ppid : Int

/-- The body of the reading loop; both keys have five characters. -/
def statusStep (s : StatusFields) (line : List Char) : StatusFields :=
  let s₁ := if hasPrefix line "Name:" then
    { s with name := (scanName ((cString line).drop 5)).getD s.name } else s
  if hasPrefix line "PPid:" then
    { s₁ with ppid := (scanInt ((cString line).drop 5)).getD s₁.ppid } else s₁

def readStatus (text : List Char) : Option StatusFields :=
  (whileFgets 256 (fun s line => .inl (statusStep s line)) (fopen text) ⟨['?'], 0⟩).map (·.2)

/-! ## The walk -/

/-- `printf("  %*sPID %d (%s)\n", depth*2, "", pid, name)` -/
structure AncestorLine where
  indent : Nat
  pid : Int
  name : List Char

structure WalkState where
  pid : Int
  depth : Nat
  out : List AncestorLine

/-- `status` gives the file `/proc/<pid>/status` if it can be opened. -/
def walkBody (status : Int → Option (List Char)) (s : WalkState) : WalkState ⊕ WalkState :=
  if 1 < s.pid ∧ s.depth < 20 then
    match (status s.pid).bind readStatus with
    | none => .inr s
    | some f => .inl ⟨f.ppid, s.depth + 1, s.out ++ [⟨s.depth * 2, s.pid, f.name⟩]⟩
  else .inr s

/-- The lines printed; `closing` is the indentation of the line for PID 1 if it is
printed. -/
structure Ancestry where
  chain : List AncestorLine
  closing : Option Nat

/-- `if (pid <= 1) printf("  %*sPID 1 (init/systemd)\n", depth*2, "");` behind the loop -/
def ancestryOf (s : WalkState) : Ancestry :=
  ⟨s.out, if s.pid ≤ 1 then some (s.depth * 2) else none⟩

def demoOurAncestors (status : Int → Option (List Char)) (pid : Int) : Option Ancestry :=
  (Loop.run (walkBody status) 21 ⟨pid, 0, []⟩).map ancestryOf

/-! ## Process tables -/

/-- A status file around its `PPid` line. Other lines may be longer than the buffer,
but none of their pieces looks like this line. -/
structure StatusFile where
  before : List Record
  ppid : Option Nat
  after : List Record
  fits : ∀ n, ppid = some n → n < 2 ^ 31
  other : ∀ r ∈ before ++ after, ∀ k, ¬hasPrefix (piece 255 k (r.1 ++ ['\n'])) "PPid:"

theorem not_mem_ppidLine {c : Char} (hkey : c ∉ "PPid:".toList) (htab : c ≠ '\t')
    (hdigit : c.isDigit = false) (n : Nat) : c ∉ "PPid:".toList ++ '\t' :: printNat n := by
  intro h
  rcases List.mem_append.mp h with hmem | hmem
  · exact hkey hmem
  · rcases List.mem_cons.mp hmem with heq | hprinted
    · exact htab heq
    · exact not_mem_printNat hdigit n hprinted

def ppidRecord (n : Nat) : Record where
  val := "PPid:".toList ++ '\t' :: printNat n
  property := not_mem_ppidLine (by decide) (by decide) (by decide) n

def StatusFile.text (f : StatusFile) : List Char :=
  records (f.before ++ (f.ppid.map ppidRecord).toList ++ f.after)

/-- The files in `/proc`. -/
def statusOf (table : Int → Option StatusFile) (pid : Int) : Option (List Char) :=
  (table pid).map StatusFile.text

/-! ## What is read -/

theorem ppid_statusStep {line : List Char} (h : ¬hasPrefix line "PPid:") (s : StatusFields) :
    (statusStep s line).ppid = s.ppid := by
  by_cases hname : hasPrefix line "Name:"
  · simp [statusStep, h, hname]
  · simp [statusStep, h, hname]

theorem ppid_foldl {ps : List (List Char)} (h : ∀ p ∈ ps, ¬hasPrefix p "PPid:")
    (s : StatusFields) : (ps.foldl statusStep s).ppid = s.ppid := by
  induction ps generalizing s with
  | nil => rfl
  | cons p ps ih =>
      obtain ⟨hp, hps⟩ := List.forall_mem_cons.mp h
      rw [List.foldl_cons, ih hps, ppid_statusStep hp]

/-- The pieces of records one after the other. -/
theorem pieces_records (n : Nat) (rs : List Record) :
    pieces n (records rs) = rs.flatMap fun r => chunks n (r.1 ++ ['\n']) := by
  rw [pieces, lines_records, List.flatMap_map]

theorem not_hasPrefix_of_other {rs : List Record}
    (h : ∀ r ∈ rs, ∀ k, ¬hasPrefix (piece 255 k (r.1 ++ ['\n'])) "PPid:") :
    ∀ p ∈ rs.flatMap fun r => chunks 255 (r.1 ++ ['\n']), ¬hasPrefix p "PPid:" := by
  intro p hp
  obtain ⟨r, hr, hchunk⟩ := List.mem_flatMap.mp hp
  obtain ⟨k, -, rfl⟩ := (mem_chunks (by decide)).mp hchunk
  exact h r hr k

theorem scanInt_printNat {n : Nat} (h : n < 2 ^ 31) :
    scanInt ('\t' :: (printNat n ++ ['\n'])) = some (n : Int) := by
  have hfits : Fits 32 (n : Int) := fits_32_iff.mpr (by omega)
  have hvalue : intOf (decide ((n : Int) < 0)) (n : Int).natAbs = some (n : Int) := by
    have hsign : decide ((n : Int) < 0) = false := by simp
    rw [hsign, intOf, Int.natAbs_natCast]
    exact congrArg some (wrap_of_fits (by decide) hfits)
  have hnumber : number intOf true (['\t'] ++ (printInt n ++ ['\n'])) = .done (n : Int) ['\n'] :=
    number_printInt (List.forall_mem_singleton.mpr rfl) hvalue rfl true []
  rw [printInt_natCast] at hnumber
  rw [scanInt, ← List.singleton_append, hnumber]

/-- The `PPid` line fits the buffer and is read back. -/
theorem ppid_ppidRecord {n : Nat} (h : n < 2 ^ 31) (s : StatusFields) :
    ((chunks 255 ((ppidRecord n).1 ++ ['\n'])).foldl statusStep s).ppid = n := by
  have hline : (ppidRecord n).1 ++ ['\n'] = "PPid:".toList ++ '\t' :: (printNat n ++ ['\n']) := by
    exact List.append_assoc "PPid:".toList ('\t' :: printNat n) ['\n']
  have hdigits : (printNat n).length ≤ 10 :=
    (Nat.length_toDigits_le_iff (by decide) (by decide)).mpr (by omega)
  have hlength : ((ppidRecord n).1 ++ ['\n']).length ≤ 255 := by
    have hkey : "PPid:".toList.length = 5 := rfl
    rw [hline, List.length_append, List.length_cons, List.length_append, List.length_singleton, hkey]
    omega
  have hnul : '\x00' ∉ (ppidRecord n).1 ++ ['\n'] := by
    rw [List.mem_append, not_or]
    exact ⟨not_mem_ppidLine (by decide) (by decide) (by decide) n, by decide⟩
  have hstring := cString_eq_self_iff.mpr hnul
  have hkey : hasPrefix ((ppidRecord n).1 ++ ['\n']) "PPid:" := by
    rw [hasPrefix, hstring, hline]
    exact List.prefix_append _ _
  have hdrop : (cString ((ppidRecord n).1 ++ ['\n'])).drop 5 = '\t' :: (printNat n ++ ['\n']) := by
    rw [hstring, hline]
    rfl
  rw [chunks_of_length_le (by simp) hlength, List.foldl_cons, List.foldl_nil]
  simp only [statusStep, if_pos hkey, hdrop, scanInt_printNat h, Option.getD_some]

/-- The parent read from a status file, 0 when it has no `PPid` line. -/
theorem readStatus_text (f : StatusFile) :
    ∃ name, readStatus f.text = some ⟨name, (f.ppid.getD 0 : Nat)⟩ := by
  obtain ⟨hbefore, hafter⟩ := List.forall_mem_append.mp f.other
  have hread : readStatus f.text = some ((pieces 255 f.text).foldl statusStep ⟨['?'], 0⟩) := by
    simp [readStatus, whileFgets_eq, scan_continue]
  have hppid : ((pieces 255 f.text).foldl statusStep ⟨['?'], 0⟩).ppid = (f.ppid.getD 0 : Nat) := by
    rw [StatusFile.text, pieces_records, List.flatMap_append, List.flatMap_append, List.foldl_append,
      List.foldl_append, ppid_foldl (not_hasPrefix_of_other hafter)]
    cases hppid : f.ppid with
    | none =>
        exact ppid_foldl (not_hasPrefix_of_other hbefore) _
    | some n =>
        have hline : (Option.map ppidRecord (some n)).toList.flatMap
            (fun r => chunks 255 (r.1 ++ ['\n'])) = chunks 255 ((ppidRecord n).1 ++ ['\n']) := by
          simp
        rw [hline, ppid_ppidRecord (f.fits n hppid)]
        rfl
  exact ⟨_, by rw [hread, ← hppid]⟩

/-! ## Parents -/

/-- The parent in the table. A `ppid` of 0 stands for the kernel or a process outside
of the namespace. -/
def parent (table : Int → Option StatusFile) (pid : Int) : Option Int :=
  ((table pid).bind (·.ppid)).bind fun n => if n = 0 then none else some (n : Int)

def ancestor (table : Int → Option StatusFile) (start : Int) : Nat → Option Int
  | 0 => some start
  | k + 1 => (ancestor table start k).bind (parent table)

/-- A process behind PID 1 whose status file shows no parent. -/
def Orphan (table : Int → Option StatusFile) (pid : Int) : Prop :=
  1 < pid ∧ ∃ f, table pid = some f ∧ f.ppid.getD 0 = 0

/-- Such a process stands on the way to PID 1. -/
def Lost (table : Int → Option StatusFile) (start : Int) : Prop :=
  ∃ k < 20, (∀ j ≤ k, ancestor table start j ≠ some 1) ∧
    ∃ pid, ancestor table start k = some pid ∧ Orphan table pid

def Reached (table : Int → Option StatusFile) (start : Int) : Prop :=
  ∃ k ≤ 20, ancestor table start k = some 1

/-- The `k`-th ancestor stands behind PID 1 and has a status file. -/
def Listed (table : Int → Option StatusFile) (start : Int) (k : Nat) : Prop :=
  ∃ pid, ancestor table start k = some pid ∧ 1 < pid ∧ (table pid).isSome

section Walk

variable {table : Int → Option StatusFile} {start pid : Int}

theorem parent_of_ppid {f : StatusFile} (hf : table pid = some f) (h : f.ppid.getD 0 ≠ 0) :
    parent table pid = some ((f.ppid.getD 0 : Nat) : Int) := by
  cases hppid : f.ppid with
  | none => simp [hppid] at h
  | some n =>
      have hn : n ≠ 0 := by simpa [hppid] using h
      simp [parent, hf, hppid, hn]

theorem parent_of_orphan (h : Orphan table pid) : parent table pid = none := by
  obtain ⟨-, f, hf, hzero⟩ := h
  cases hppid : f.ppid with
  | none => simp [parent, hf, hppid]
  | some n =>
      have hn : n = 0 := by simpa [hppid] using hzero
      simp [parent, hf, hppid, hn]

theorem parent_of_none (h : table pid = none) : parent table pid = none := by
  simp [parent, h]

theorem ancestor_none {k j : Nat} (h : ancestor table start k = none) (hle : k ≤ j) :
    ancestor table start j = none := by
  induction hle with
  | refl => exact h
  | step _ ih => rw [ancestor, ih, Option.bind_none]

/-- The two ways a round goes. -/
theorem walkBody_cases (table : Int → Option StatusFile) (s : WalkState) :
    (∃ f name, 1 < s.pid ∧ s.depth < 20 ∧ table s.pid = some f ∧
      walkBody (statusOf table) s =
        .inl ⟨(f.ppid.getD 0 : Nat), s.depth + 1, s.out ++ [⟨s.depth * 2, s.pid, name⟩]⟩) ∨
    ((s.pid ≤ 1 ∨ 20 ≤ s.depth ∨ table s.pid = none) ∧ walkBody (statusOf table) s = .inr s) := by
  by_cases hcond : 1 < s.pid ∧ s.depth < 20
  · cases hf : table s.pid with
    | none => exact .inr ⟨.inr (.inr rfl), by simp [walkBody, hcond, statusOf, hf]⟩
    | some f =>
        obtain ⟨name, hread⟩ := readStatus_text f
        exact .inl ⟨f, name, hcond.1, hcond.2, rfl, by simp [walkBody, hcond, statusOf, hf, hread]⟩
  · refine .inr ⟨by omega, ?_⟩
    rw [walkBody, if_neg hcond]

/-- What holds before each round: the printed processes are the ancestors so far, and
the next one is their parent, or 0 behind an orphan. -/
structure WalkInv (table : Int → Option StatusFile) (start : Int) (s : WalkState) : Prop where
  depth : s.depth ≤ 20
  length : s.out.length = s.depth
  visited : ∀ j a, s.out[j]? = some a →
    ancestor table start j = some a.pid ∧ 1 < a.pid ∧ (table a.pid).isSome
  current : (ancestor table start s.depth = some s.pid ∧ 0 < s.pid) ∨
    (s.pid = 0 ∧ ∃ k q, s.depth = k + 1 ∧ ancestor table start k = some q ∧ Orphan table q)

theorem WalkInv.init (hstart : 0 < start) : WalkInv table start ⟨start, 0, []⟩ where
  depth := Nat.zero_le _
  length := rfl
  visited := by intro j a h; simp at h
  current := .inl ⟨rfl, hstart⟩

theorem WalkInv.body {s s' : WalkState} (hinv : WalkInv table start s)
    (h : walkBody (statusOf table) s = .inl s') : WalkInv table start s' ∧ s'.depth = s.depth + 1 := by
  rcases walkBody_cases table s with ⟨f, name, hpid, hdepth, hf, hbody⟩ | ⟨-, hbody⟩
  · rw [hbody, Sum.inl.injEq] at h
    have hcurrent : ancestor table start s.depth = some s.pid := by
      rcases hinv.current with hancestor | hzero
      · exact hancestor.1
      · omega
    subst h
    refine ⟨⟨hdepth, ?_, ?_, ?_⟩, rfl⟩
    · rw [List.length_append, hinv.length, List.length_singleton]
    · intro j a ha
      rw [List.getElem?_append] at ha
      split at ha
      · exact hinv.visited j a ha
      · rename_i hlast
        have hj : j = s.depth := by
          have hlt := (List.getElem?_eq_some_iff.mp ha).1
          rw [List.length_singleton] at hlt
          have hlength := hinv.length
          omega
        rw [hj, hinv.length, Nat.sub_self] at ha
        have heq : a = ⟨s.depth * 2, s.pid, name⟩ := by simpa using ha.symm
        rw [heq, hj]
        exact ⟨hcurrent, hpid, by rw [hf]; rfl⟩
    · by_cases hzero : f.ppid.getD 0 = 0
      · exact .inr ⟨by simp [hzero], s.depth, s.pid, rfl, hcurrent, hpid, f, hf, hzero⟩
      · refine .inl ⟨?_, by dsimp; omega⟩
        show (ancestor table start s.depth).bind (parent table) = _
        rw [hcurrent, Option.bind_some, parent_of_ppid hf hzero]
  · rw [hbody] at h
    cases h

/-- Where the walk ends. -/
structure WalkEnd (table : Int → Option StatusFile) (start : Int) (s : WalkState) : Prop where
  inv : WalkInv table start s
  stop : s.pid ≤ 1 ∨ 20 ≤ s.depth ∨ table s.pid = none

theorem walk_ends (table : Int → Option StatusFile) (hstart : 0 < start) :
    ∃ s, Loop.run (walkBody (statusOf table)) 21 ⟨start, 0, []⟩ = some s ∧ WalkEnd table start s := by
  apply Loop.run_of_measure (I := WalkInv table start) fun s => 20 - s.depth
  · intro s s' hinv h
    obtain ⟨hinv', hdepth⟩ := hinv.body h
    have hle := hinv'.depth
    exact ⟨hinv', by omega⟩
  · intro s s' hinv h
    rcases walkBody_cases table s with ⟨f, name, -, -, -, hbody⟩ | ⟨hstop, hbody⟩
    · rw [hbody] at h
      cases h
    · rw [hbody, Sum.inr.injEq] at h
      exact h ▸ ⟨hinv, hstop⟩
  · exact WalkInv.init hstart
  · exact (by decide : 20 - 0 < 21)

section End

variable {s : WalkState}

theorem WalkInv.ancestor_lt (hinv : WalkInv table start s) {j : Nat} (hj : j < s.depth) :
    ∃ p, ancestor table start j = some p ∧ 1 < p := by
  have hlt : j < s.out.length := by rw [hinv.length]; exact hj
  obtain ⟨hancestor, hbehind, -⟩ := hinv.visited j s.out[j] (List.getElem?_eq_getElem hlt)
  exact ⟨_, hancestor, hbehind⟩

theorem WalkInv.ne_one (hinv : WalkInv table start s) {j : Nat} (hj : j < s.depth) :
    ancestor table start j ≠ some 1 := by
  obtain ⟨p, hp, hlt⟩ := hinv.ancestor_lt hj
  rw [hp]
  intro heq
  cases heq
  omega

/-- Behind an orphan the walk stops at 0, without having met PID 1. -/
theorem WalkEnd.of_zero (h : WalkEnd table start s) (hzero : s.pid = 0) :
    ¬Reached table start ∧ Lost table start := by
  obtain ⟨k, q, hdepth, hq, horphan⟩ : ∃ k q, s.depth = k + 1 ∧ ancestor table start k = some q ∧
      Orphan table q := by
    rcases h.inv.current with hcurrent | hlost
    · omega
    · exact hlost.2
  have hnone : ancestor table start s.depth = none := by
    rw [hdepth, ancestor, hq, Option.bind_some, parent_of_orphan horphan]
  have hle := h.inv.depth
  constructor
  · rintro ⟨j, -, hj⟩
    by_cases hlt : j < s.depth
    · exact h.inv.ne_one hlt hj
    · rw [ancestor_none hnone (by omega)] at hj
      cases hj
  · exact ⟨k, by omega, fun j hj => h.inv.ne_one (by omega), q, hq, horphan⟩

/-- Otherwise it stops at PID 1 or has not met it, and there was no orphan. -/
theorem WalkEnd.of_pos (h : WalkEnd table start s) (hpos : 0 < s.pid) :
    (Reached table start ↔ s.pid ≤ 1) ∧ ¬Lost table start := by
  have hcurrent : ancestor table start s.depth = some s.pid := by
    rcases h.inv.current with hcurrent | hlost
    · exact hcurrent.1
    · omega
  have hle := h.inv.depth
  -- nothing is known of the ancestors behind a process without a file
  have hbeyond : 1 < s.pid → ∀ k ≤ 20, s.depth < k → ancestor table start k = none := by
    intro hpid k hk hlt
    have hfile : table s.pid = none := by
      rcases h.stop with hone | hlimit | hnone
      · omega
      · omega
      · exact hnone
    have hnext : ancestor table start (s.depth + 1) = none := by
      rw [ancestor, hcurrent, Option.bind_some, parent_of_none hfile]
    exact ancestor_none hnext hlt
  constructor
  · constructor
    · rintro ⟨k, hk, hone⟩
      by_contra hpid
      rcases Nat.lt_trichotomy k s.depth with hlt | heq | hgt
      · exact h.inv.ne_one hlt hone
      · rw [heq, hcurrent, Option.some.injEq] at hone
        omega
      · rw [hbeyond (by omega) k hk hgt] at hone
        cases hone
    · intro hpid
      have hone : s.pid = 1 := by omega
      exact ⟨s.depth, hle, by rw [hcurrent, hone]⟩
  · rintro ⟨k, hk, hbefore, q, hq, horphan⟩
    rcases Nat.lt_trichotomy k s.depth with hlt | heq | hgt
    · -- the parent of an ancestor before the last is one
      have hnone : ancestor table start (k + 1) = none := by
        rw [ancestor, hq, Option.bind_some, parent_of_orphan horphan]
      rw [ancestor_none hnone hlt] at hcurrent
      cases hcurrent
    · have hpid : s.pid ≠ 1 := by
        intro hone
        exact hbefore k (Nat.le_refl k) (by rw [heq, hcurrent, hone])
      rw [heq, hcurrent, Option.some.injEq] at hq
      obtain ⟨-, f, hf, -⟩ := horphan
      rcases h.stop with hone | hlimit | hnone
      · omega
      · omega
      · rw [hq, hf] at hnone
        cases hnone
    · by_cases hone : s.pid = 1
      · exact hbefore s.depth (by omega) (by rw [hcurrent, hone])
      · rw [hbeyond (by omega) k (by omega) hgt] at hq
        cases hq

end End

/-! ## What is printed -/

/-- Line `k` names the `k`-th ancestor, which is the parent of the process before it.
There are lines up to the first ancestor that is PID 1 or has no status file, 20 at
most. The closing line is there when PID 1 is among the first 20 ancestors, and
then the last process printed is a child of PID 1. -/
structure FollowsParents (table : Int → Option StatusFile) (start : Int) (a : Ancestry) : Prop where
  pids : ∀ k l, a.chain[k]? = some l → ancestor table start k = some l.pid
  parents : (a.chain.map (·.pid)).IsChain fun p q => parent table p = some q
  length : ∀ k, k < a.chain.length ↔ k < 20 ∧ ∀ j ≤ k, Listed table start j
  steps : a.chain.length ≤ 20
  closing : a.closing.isSome ↔ Reached table start
  last : a.closing.isSome → (a.chain = [] ∧ start = 1) ∨
    ∃ l, a.chain.getLast? = some l ∧ parent table l.pid = some 1

theorem WalkInv.parents {s : WalkState} (hinv : WalkInv table start s) :
    (s.out.map (·.pid)).IsChain fun p q => parent table p = some q := by
  rw [List.isChain_iff_getElem]
  intro i hi
  rw [List.length_map] at hi
  have hfirst := (hinv.visited i _ (List.getElem?_eq_getElem (Nat.lt_of_succ_lt hi))).1
  have hnext := (hinv.visited (i + 1) _ (List.getElem?_eq_getElem hi)).1
  rw [ancestor, hfirst, Option.bind_some] at hnext
  rw [List.getElem_map, List.getElem_map]
  exact hnext

/-- The walk stops at the first ancestor that gets no line. -/
theorem WalkEnd.not_listed {s : WalkState} (h : WalkEnd table start s) (hlimit : s.depth < 20) :
    ¬Listed table start s.depth := by
  rintro ⟨pid, hpid, hbehind, hfile⟩
  rcases h.inv.current with ⟨hcurrent, -⟩ | ⟨-, k, q, hdepth, hq, horphan⟩
  · obtain rfl : s.pid = pid := by rwa [hcurrent, Option.some.injEq] at hpid
    rcases h.stop with hone | hfar | hnone
    · omega
    · omega
    · rw [hnone] at hfile
      cases hfile
  · rw [hdepth, ancestor, hq, Option.bind_some, parent_of_orphan horphan] at hpid
    cases hpid

theorem WalkEnd.length {s : WalkState} (h : WalkEnd table start s) (k : Nat) :
    k < s.out.length ↔ k < 20 ∧ ∀ j ≤ k, Listed table start j := by
  have hdepth := h.inv.depth
  constructor
  · intro hk
    refine ⟨by rw [h.inv.length] at hk; omega, ?_⟩
    intro j hj
    have hlt : j < s.out.length := by omega
    exact ⟨_, h.inv.visited j _ (List.getElem?_eq_getElem hlt)⟩
  · rintro ⟨hk, hlisted⟩
    rw [h.inv.length]
    by_contra hle
    exact h.not_listed (by omega) (hlisted s.depth (by omega))

/-- A walk that has come to PID 1 printed its child last, or nothing. -/
theorem WalkInv.last {s : WalkState} (hinv : WalkInv table start s)
    (hone : ancestor table start s.depth = some 1) :
    (s.out = [] ∧ start = 1) ∨ ∃ l, s.out.getLast? = some l ∧ parent table l.pid = some 1 := by
  have hlength := hinv.length
  rcases List.eq_nil_or_concat s.out with hnil | ⟨front, l, hout⟩
  · rw [hnil, List.length_nil] at hlength
    rw [← hlength] at hone
    exact .inl ⟨hnil, Option.some.inj hone⟩
  · rw [List.concat_eq_append] at hout
    rw [hout, List.length_append, List.length_singleton] at hlength
    have hvisited := (hinv.visited front.length l (by rw [hout]; simp)).1
    rw [← hlength, ancestor, hvisited, Option.bind_some] at hone
    exact .inr ⟨l, by rw [hout]; simp, hone⟩

theorem closing_isSome (p : Int) (n : Nat) : (if p ≤ 1 then some n else none).isSome ↔ p ≤ 1 := by
  by_cases h : p ≤ 1 <;> simp [h]

theorem demoOurAncestors_ends (table : Int → Option StatusFile) (hstart : 0 < start) :
    ∃ s, demoOurAncestors (statusOf table) start = some (ancestryOf s) ∧ WalkEnd table start s := by
  obtain ⟨s, hrun, hend⟩ := walk_ends table hstart
  exact ⟨s, by rw [demoOurAncestors, hrun]; rfl, hend⟩

section Printed

variable {s : WalkState}

theorem WalkEnd.not_followsParents (h : WalkEnd table start s) (hlost : Lost table start) :
    ¬FollowsParents table start (ancestryOf s) := by
  intro hfollows
  have hclosing := hfollows.closing
  rw [ancestryOf, closing_isSome] at hclosing
  by_cases hpos : 0 < s.pid
  · exact (h.of_pos hpos).2 hlost
  · have hzero : s.pid = 0 := by
      rcases h.inv.current with hcurrent | hback
      · omega
      · exact hback.1
    exact (h.of_zero hzero).1 (hclosing.mp (by omega))

theorem WalkEnd.followsParents (h : WalkEnd table start s) (hlost : ¬Lost table start) :
    FollowsParents table start (ancestryOf s) := by
  have hpos : 0 < s.pid := by
    rcases h.inv.current with hcurrent | hback
    · exact hcurrent.2
    · exact absurd (h.of_zero hback.1).2 hlost
  constructor
  · intro k l hl
    exact (h.inv.visited k l hl).1
  · exact h.inv.parents
  · exact h.length
  · exact h.inv.length.trans_le h.inv.depth
  · rw [ancestryOf, closing_isSome, (h.of_pos hpos).1]
  · intro hclosing
    rw [ancestryOf, closing_isSome] at hclosing
    apply h.inv.last
    rcases h.inv.current with ⟨hcurrent, -⟩ | ⟨hzero, -⟩
    · have hone : s.pid = 1 := by omega
      rw [hcurrent, hone]
    · omega

end Printed

/-- The walk is right exactly when no orphan stands on the way to PID 1. -/
theorem demoOurAncestors_iff (table : Int → Option StatusFile) (hstart : 0 < start) :
    ∃ a, demoOurAncestors (statusOf table) start = some a ∧
      (FollowsParents table start a ↔ ¬Lost table start) := by
  obtain ⟨s, hrun, hend⟩ := demoOurAncestors_ends table hstart
  refine ⟨ancestryOf s, hrun, ?_⟩
  constructor
  · intro hfollows hlost
    exact hend.not_followsParents hlost hfollows
  · exact hend.followsParents

end Walk

theorem not_hasPrefix_piece {l : List Char} (hlength : l.length ≤ 255) (h : ¬hasPrefix l "PPid:")
    (k : Nat) : ¬hasPrefix (piece 255 k l) "PPid:" := by
  cases k with
  | zero =>
      rw [piece_zero, List.take_of_length_le hlength]
      exact h
  | succ k =>
      rw [piece_eq_nil (by rw [Nat.mul_succ]; omega)]
      decide

def shellStatus (ppid : Nat) (h : ppid < 2 ^ 31) : StatusFile where
  before := [⟨"Name:\tbash".toList, by decide⟩]
  ppid := some ppid
  after := [⟨"TracerPid:\t0".toList, by decide⟩]
  fits := by
    intro n hn
    cases hn
    exact h
  other := by
    intro r hr
    rcases List.mem_cons.mp hr with rfl | hr
    · exact not_hasPrefix_piece (by decide) (by decide)
    · rw [List.mem_singleton.mp hr]
      exact not_hasPrefix_piece (by decide) (by decide)

/-- A shell below another one that PID 1 has started. -/
def shellTable (pid : Int) : Option StatusFile :=
  if pid = 42 then some (shellStatus 7 (by decide))
  else if pid = 7 then some (shellStatus 1 (by decide))
  else none

theorem demoOurAncestors_shellTable :
    ∃ a, demoOurAncestors (statusOf shellTable) 42 = some a ∧ FollowsParents shellTable 42 a := by
  have hlost : ¬Lost shellTable 42 := by
    rintro ⟨k, -, hbefore, pid, hpid, -, f, hf, hzero⟩
    have hk : k < 2 := by
      by_contra hle
      exact hbefore 2 (by omega) (by decide)
    obtain rfl | rfl : k = 0 ∨ k = 1 := by omega
    · obtain rfl := Option.some.inj (hpid.symm.trans (rfl : ancestor shellTable 42 0 = some 42))
      obtain rfl := Option.some.inj (hf.symm.trans (rfl : shellTable 42 = some _))
      exact absurd hzero (by decide)
    · obtain rfl := Option.some.inj (hpid.symm.trans (by decide : ancestor shellTable 42 1 = some 7))
      obtain rfl := Option.some.inj (hf.symm.trans (rfl : shellTable 7 = some _))
      exact absurd hzero (by decide)
  obtain ⟨a, hrun, hiff⟩ := demoOurAncestors_iff shellTable (by decide : (0 : Int) < 42)
  exact ⟨a, hrun, hiff.mpr hlost⟩

/-- A shell started in a container from outside: its parent is outside of the
namespace. -/
def injectedTable (pid : Int) : Option StatusFile :=
  if pid = 42 then some (shellStatus 0 (by decide)) else none

theorem not_followsParents_injectedTable :
    ∃ a, demoOurAncestors (statusOf injectedTable) 42 = some a ∧
      ¬FollowsParents injectedTable 42 a := by
  have hlost : Lost injectedTable 42 := by
    refine ⟨0, by decide, ?_, 42, rfl, by decide, shellStatus 0 (by decide), rfl, rfl⟩
    intro j hj
    rw [Nat.le_zero.mp hj]
    decide
  obtain ⟨s, hrun, hend⟩ := demoOurAncestors_ends injectedTable (by decide : (0 : Int) < 42)
  exact ⟨_, hrun, hend.not_followsParents hlost⟩

end OsLabs.ProcFiles
