import OsLabs.Core.Areas
import OsLabs.ProcFiles.VmaCount
import OsLabs.ProcFiles.VmaSearch

/-! # Counts of a changing address space

The lab on address spaces prints the number of its memory areas around calls of `mmap`,
`mprotect` and `munmap`. Where the kernel maps a region is left open, and so is whether it
merges it with a neighbour of the same attributes: it does not where both have an `anon_vma`
of their own. A region whose attributes are restored is one piece again.
-/

namespace OsLabs.AddressSpace

open Areas CInt ProcFiles Text

section Model

variable {α : Type} [DecidableEq α]

/-- What `/proc/self/maps` shows: the areas of the first `bound` pages and `others` more. -/
structure Kernel (α : Type) where
  bound : Nat
  others : Nat
  maps : Space α → List Record

variable (k : Kernel α) (rw ro : α) (n : Nat)

/-- There is one line for each area. -/
def Kernel.ListsAreas : Prop := ∀ s, (k.maps s).length = count s (k.bound + 1) + k.others

/-- With its newline each line fits the buffer of `count_vmas`. -/
def Kernel.LinesFit : Prop := ∀ s, ∀ r ∈ k.maps s, r.1.length ≤ 510

/-- `count_vmas()` -/
def Kernel.vmas (s : Space α) : Option Int := countVmas (some (records (k.maps s)))

/-- Where the kernel maps a region, and whether it keeps it apart from the areas before and
behind it that have the same attributes. -/
structure Region where
  page : Nat
  apartBefore : Bool
  apartBehind : Bool
  deriving DecidableEq

/-- `none` is `MAP_FAILED`, with which the calls behind it fail too. -/
def place (v : Option α) (s : Space α) : Option Region → Space α
  | none => s
  | some r => set s r.page n v r.apartBefore r.apartBehind

def mmap (s : Space α) (region : Option Region) : Space α := place n (some rw) s region

/-- Nothing is kept apart from pages that are free. -/
def munmap (s : Space α) (region : Option Region) : Space α := place n none s region

/-- What `demo_vma_growth` prints: the base, the count behind each `mmap`, and the count at
the end. -/
def demoVmaGrowth (s : Space α) (pages : List (Option Region)) : List (Option Int) × Option Int :=
  let mapped := pages.foldl (mmap rw n) s
  ((List.range (pages.length + 1)).map fun i => k.vmas ((pages.take i).foldl (mmap rw n) s),
    k.vmas (pages.foldl (munmap n) mapped))

/-- `mprotect` inside a mapped region. -/
def mprotect (s : Space α) (p m : Nat) (v : α) : Space α := set s p m (some v) false false

/-- The counts before and after `mprotect` of the two pages in the middle. -/
def demoMprotectSplit (s : Space α) (region : Option Region) (succeeds : Bool) :
    Option Int × Option Int :=
  let mapped := mmap rw 4 s region
  let split :=
    match region with
    | none => mapped
    | some r => if succeeds then mprotect mapped (r.page + 1) 2 ro else mapped
  (k.vmas mapped, k.vmas split)

structure MapsCounts where
  before : Option Int
  afterAlloc : Option Int
  afterSplit : Option Int
  afterMerge : Option Int

/-- `demo_maps_before_after_mmap` where `mmap` succeeds. -/
def demoMapsBeforeAfterMmap (s : Space α) (r : Region) (splits restores : Bool) : MapsCounts :=
  let mapped := mmap rw n s (some r)
  let split := if splits then mprotect mapped (r.page + 1) 1 ro else mapped
  let merged := if restores then mprotect split (r.page + 1) 1 rw else split
  ⟨k.vmas s, k.vmas mapped, k.vmas split, k.vmas merged⟩

/-! ## Where the kernel may map -/

/-- The region is free and ends below the bound. -/
def Kernel.Places (s : Space α) (r : Region) : Prop :=
  (∀ p, r.page ≤ p → p < r.page + n → s.attr p = none) ∧ r.page + n ≤ k.bound

def Kernel.PlacesAll : Space α → List (Option Region) → Prop
  | _, [] => True
  | s, none :: pages => PlacesAll s pages
  | s, some r :: pages => k.Places n s r ∧ PlacesAll (mmap rw n s (some r)) pages

/-- What `count_vmas` returns if it does not overflow. -/
def Kernel.areas (s : Space α) : Int := (count s (k.bound + 1) + k.others : Nat)

/-- The neighbours a region becomes one with. -/
def Region.merged (s : Space α) (r : Region) : Nat :=
  joins s r.page n rw r.apartBefore r.apartBehind

def Covered (pages : List (Option Region)) (p : Nat) : Prop :=
  ∃ r, some r ∈ pages ∧ r.page ≤ p ∧ p < r.page + n

variable {k rw ro n} {s : Space α} {r : Region} {pages : List (Option Region)}

theorem Kernel.vmas_eq (hlists : k.ListsAreas) (hfit : k.LinesFit) (h : k.areas s ≤ 2147483647) :
    k.vmas s = some (k.areas s) := by
  have hexact := (checked_pieces_eq_iff (k.maps s)).mpr
  rw [hlists] at hexact
  rw [Kernel.vmas, countVmas, countLoop_eq, Kernel.areas]
  refine hexact ⟨hfit s, ?_⟩
  rw [Kernel.areas] at h
  omega

theorem Kernel.Places.areas_mmap (h : k.Places n s r) (hn : 0 < n) (rw : α) :
    k.areas (mmap rw n s (some r)) = k.areas s + 1 - r.merged rw n s := by
  have hlt : r.page + n < k.bound + 1 := Nat.lt_succ_of_le h.2
  have hcount := count_map h.1 hn hlt rw r.apartBefore r.apartBehind
  simp only [Kernel.areas, mmap, place, Region.merged]
  omega

theorem covered_cons_none {p : Nat} : Covered n (none :: pages) p ↔ Covered n pages p := by
  simp [Covered]

theorem covered_cons_some {p : Nat} :
    Covered n (some r :: pages) p ↔ (r.page ≤ p ∧ p < r.page + n) ∨ Covered n pages p := by
  simp [Covered, or_and_right, exists_or]

omit [DecidableEq α] in
theorem foldl_place {v : Option α} {p : Nat} :
    (Covered n pages p → (pages.foldl (place n v) s).attr p = v) ∧
      (¬ Covered n pages p → (pages.foldl (place n v) s).attr p = s.attr p) := by
  induction pages generalizing s with
  | nil => simp [Covered]
  | cons page pages ih =>
      cases page with
      | none =>
          rw [covered_cons_none]
          exact ih
      | some r =>
          rw [covered_cons_some, List.foldl_cons]
          by_cases hlater : Covered n pages p
          · exact ⟨fun _ => ih.1 hlater, fun hnot => absurd (.inr hlater) hnot⟩
          · rw [ih.2 hlater]
            constructor
            · intro hcovered
              have hinside := hcovered.resolve_right hlater
              exact attr_inside hinside.1 hinside.2
            · intro hnot
              exact if_neg fun hinside => hnot (.inl hinside)

omit [DecidableEq α] in
/-- Only in the regions and right behind them areas are kept apart anew. -/
theorem apart_foldl_place {v : Option α} {p : Nat} (hn : 0 < n) (hp : ¬ Covered n pages p)
    (hbefore : ¬ Covered n pages (p - 1) ∨ p = 0) :
    (pages.foldl (place n v) s).apart p = s.apart p := by
  induction pages generalizing s with
  | nil => rfl
  | cons page pages ih =>
      cases page with
      | none =>
          rw [covered_cons_none] at hp hbefore
          exact ih hp hbefore
      | some r =>
          rw [covered_cons_some, not_or] at hp hbefore
          have hrest : ¬ Covered n pages (p - 1) ∨ p = 0 := hbefore.imp_left And.right
          rw [List.foldl_cons, ih hp.2 hrest]
          apply apart_outside
          have hfirst := hp.1
          rcases hbefore with hlast | hzero
          · have houtside := hlast.1
            omega
          · omega

omit [DecidableEq α] in
theorem Kernel.PlacesAll.free (h : k.PlacesAll rw n s pages) {p : Nat} (hp : Covered n pages p) :
    s.attr p = none := by
  induction pages generalizing s with
  | nil => simp [Covered] at hp
  | cons page pages ih =>
      cases page with
      | none => exact ih h (covered_cons_none.mp hp)
      | some r =>
          rcases covered_cons_some.mp hp with hinside | hlater
          · exact h.1.1 p hinside.1 hinside.2
          · have hfree := ih h.2 hlater
            simp only [mmap, place, Areas.set] at hfree
            split at hfree
            · cases hfree
            · exact hfree

theorem Kernel.PlacesAll.munmap_mmap (h : k.PlacesAll rw n s pages) (hn : 0 < n) (m : Nat) :
    count (pages.foldl (munmap n) (pages.foldl (mmap rw n) s)) m = count s m := by
  have hattr : (pages.foldl (munmap n) (pages.foldl (mmap rw n) s)).attr = s.attr := by
    funext p
    by_cases hp : Covered n pages p
    · exact (foldl_place.1 hp).trans (h.free hp).symm
    · exact (foldl_place.2 hp).trans (foldl_place.2 hp)
  apply count_congr hattr
  intro p hmapped hsame
  rw [hattr] at hmapped hsame
  -- neither the page nor the one before it belongs to a region
  have hp : ¬ Covered n pages p := fun hcovered => hmapped (h.free hcovered)
  have hbefore : ¬ Covered n pages (p - 1) ∨ p = 0 := by
    cases p with
    | zero => exact .inr rfl
    | succ p => exact .inl fun hcovered => hmapped (hsame.trans (h.free hcovered))
  exact (apart_foldl_place hn hp hbefore).trans (apart_foldl_place hn hp hbefore)

omit [DecidableEq α] in
theorem Kernel.PlacesAll.at (h : k.PlacesAll rw n s pages) {i : Nat} (hi : pages[i]? = some (some r)) :
    k.Places n ((pages.take i).foldl (mmap rw n) s) r := by
  induction pages generalizing s i with
  | nil => cases hi
  | cons page pages ih =>
      cases i with
      | zero =>
          cases hi
          exact h.1
      | succ i =>
          cases page with
          | none => exact ih h hi
          | some b => exact ih h.2 hi

omit [DecidableEq α] in
theorem foldl_take_succ {page : Option Region} {i : Nat} (hi : pages[i]? = some page) :
    (pages.take (i + 1)).foldl (mmap rw n) s = mmap rw n ((pages.take i).foldl (mmap rw n) s) page := by
  rw [List.take_add_one, hi, Option.toList_some, List.foldl_append]
  rfl

theorem Kernel.PlacesAll.areas_le (h : k.PlacesAll rw n s pages) (hn : 0 < n) {i : Nat}
    (hi : i ≤ pages.length) : k.areas ((pages.take i).foldl (mmap rw n) s) ≤ k.areas s + i := by
  induction i with
  | zero => simp
  | succ i ih =>
      have hprev := ih (Nat.le_of_succ_le hi)
      have hget := List.getElem?_eq_getElem (Nat.lt_of_succ_le hi)
      rw [foldl_take_succ hget]
      cases hpage : pages[i] with
      | none =>
          simp only [mmap, place]
          omega
      | some r =>
          rw [hpage] at hget
          rw [(h.at hget).areas_mmap hn]
          omega

/-! ## The three phases -/

section Phases

variable (hlists : k.ListsAreas) (hfit : k.LinesFit)
include hlists hfit

theorem growth_counts (h : k.PlacesAll rw n s pages) (hn : 0 < n)
    (hroom : k.areas s + pages.length ≤ 2147483647) :
    (demoVmaGrowth k rw n s pages).2 = some (k.areas s) ∧
      (demoVmaGrowth k rw n s pages).1[0]? = some (some (k.areas s)) ∧
      ∀ i region, pages[i]? = some region → ∃ v : Int,
        (demoVmaGrowth k rw n s pages).1[i]? = some (some v) ∧
          (demoVmaGrowth k rw n s pages).1[i + 1]? = some (some (match region with
            | none => v
            | some r => v + 1 - r.merged rw n ((pages.take i).foldl (mmap rw n) s))) := by
  have hprinted (i : Nat) (hi : i ≤ pages.length) : (demoVmaGrowth k rw n s pages).1[i]? =
      some (some (k.areas ((pages.take i).foldl (mmap rw n) s))) := by
    have hle := h.areas_le hn hi
    simp only [demoVmaGrowth]
    rw [List.getElem?_map, List.getElem?_range (Nat.lt_succ_of_le hi), Option.map_some,
      Kernel.vmas_eq hlists hfit (by omega)]
  refine ⟨?_, hprinted 0 (Nat.zero_le _), ?_⟩
  · have hareas : k.areas (pages.foldl (munmap n) (pages.foldl (mmap rw n) s)) = k.areas s := by
      rw [Kernel.areas, Kernel.areas, h.munmap_mmap hn]
    simp only [demoVmaGrowth]
    rw [Kernel.vmas_eq hlists hfit (by omega), hareas]
  · intro i region hi
    have hlt := (List.getElem?_eq_some_iff.mp hi).1
    refine ⟨_, hprinted i (Nat.le_of_lt hlt), ?_⟩
    rw [hprinted (i + 1) hlt, foldl_take_succ hi]
    cases region with
    | none => rfl
    | some r => rw [(h.at hi).areas_mmap hn]

omit hlists hfit in
theorem areas_split (hne : ro ≠ rw) {b m : Nat} (hb : r.page < b) (hm : 0 < m) (hend : b + m < r.page + n)
    (hbound : r.page + n ≤ k.bound) :
    k.areas (mprotect (mmap rw n s (some r)) b m ro) = k.areas (mmap rw n s (some r)) + 2 := by
  have hinside (p : Nat) (hp : r.page ≤ p) (hp' : p < r.page + n) :
      (mmap rw n s (some r)).attr p = some rw := attr_inside hp hp'
  have hpiece (p : Nat) (hp : b ≤ p) (hp' : p ≤ b + m) : (mmap rw n s (some r)).apart p = false :=
    apart_inside (by omega) (by omega)
  have hleft : left (mmap rw n s (some r)).attr b = some rw := by
    obtain ⟨c, rfl⟩ := Nat.exists_eq_succ_of_ne_zero (Nat.ne_zero_of_lt hb)
    exact hinside c (by omega) (by omega)
  have hlt : b + m < k.bound + 1 := by omega
  have hcount := count_split hne (fun p hp hp' => hinside p (by omega) (by omega)) hpiece hleft
    (hinside (b + m) (by omega) hend) hm hlt
  rw [Kernel.areas, Kernel.areas, mprotect, hcount]
  omega

omit [DecidableEq α] hlists hfit in
theorem mprotect_restores {b m : Nat} (hb : r.page < b) (hend : b + m < r.page + n) :
    mprotect (mmap rw n s (some r)) b m rw = mmap rw n s (some r) :=
  set_const (fun p hp hp' => attr_inside (by omega) (by omega))
    fun p hp hp' => apart_inside (by omega) (by omega)

theorem split_counts (hne : ro ≠ rw) {region : Option Region}
    (hplaces : ∀ r, region = some r → k.Places 4 s r) (hroom : k.areas s + 3 ≤ 2147483647)
    (succeeds : Bool) : ∃ v : Int, demoMprotectSplit k rw ro s region succeeds =
      (some v, some (if region.isSome && succeeds then v + 2 else v)) := by
  cases region with
  | none =>
      have hvmas := Kernel.vmas_eq (s := s) hlists hfit (by omega)
      exact ⟨k.areas s, by simp [demoMprotectSplit, mmap, place, hvmas]⟩
  | some r =>
      have hplace := hplaces r rfl
      have hareas := hplace.areas_mmap (by decide) rw
      have hmapped := Kernel.vmas_eq (s := mmap rw 4 s (some r)) hlists hfit (by omega)
      have hsplit := areas_split (k := k) (s := s) hne (show r.page < r.page + 1 by omega)
        (show 0 < 2 by omega) (show r.page + 1 + 2 < r.page + 4 by omega) hplace.2
      have hafter := Kernel.vmas_eq (s := mprotect (mmap rw 4 s (some r)) (r.page + 1) 2 ro) hlists hfit
        (by omega)
      rw [hsplit] at hafter
      refine ⟨k.areas (mmap rw 4 s (some r)), ?_⟩
      cases succeeds <;> simp [demoMprotectSplit, hmapped, hafter]

theorem maps_counts (hne : ro ≠ rw) (hn : 3 ≤ n) (hplace : k.Places n s r)
    (hroom : k.areas s + 3 ≤ 2147483647) (splits restores : Bool) :
    ∃ v : Int, demoMapsBeforeAfterMmap k rw ro n s r splits restores =
      ⟨some v, some (v + 1 - r.merged rw n s),
        some (v + 1 - r.merged rw n s + if splits then 2 else 0),
        some (v + 1 - r.merged rw n s + if splits && !restores then 2 else 0)⟩ := by
  have hareas := hplace.areas_mmap (Nat.lt_of_lt_of_le (by decide) hn) rw
  have hsplit := areas_split (k := k) (s := s) hne (show r.page < r.page + 1 by omega)
    (show 0 < 1 by omega) (show r.page + 1 + 1 < r.page + n by omega) hplace.2
  have hbefore := Kernel.vmas_eq (s := s) hlists hfit (by omega)
  have hmapped := Kernel.vmas_eq (s := mmap rw n s (some r)) hlists hfit (by omega)
  have hafter := Kernel.vmas_eq (s := mprotect (mmap rw n s (some r)) (r.page + 1) 1 ro) hlists hfit
    (by omega)
  have hsame : mprotect (mmap rw n s (some r)) (r.page + 1) 1 rw = mmap rw n s (some r) :=
    mprotect_restores (by omega) (by omega)
  have hrestored : mprotect (mprotect (mmap rw n s (some r)) (r.page + 1) 1 ro) (r.page + 1) 1 rw =
      mmap rw n s (some r) := (set_set _ _ _).trans hsame
  rw [hsplit, hareas] at hafter
  rw [hareas] at hmapped
  refine ⟨k.areas s, ?_⟩
  cases splits <;> cases restores <;>
    simp [demoMapsBeforeAfterMmap, hbefore, hmapped, hafter, hrestored, hsame]

end Phases

end Model

/-! ## A small machine -/

/-- The first page behind the area that begins at `p`. -/
def areaEnd (s : Space Bool) (p : Nat) : Nat :=
  p + 1 + ((List.range' (p + 1) (8 - p)).takeWhile fun q => s.attr q ≠ none ∧ ¬ Begins s q).length

def perms (v : Option Bool) : List Char := if v = some true then "rw-p".toList else "r--p".toList

/-- The line of an anonymous area, in pages of 4096 bytes. -/
def mapsLine (s : Space Bool) (p : Nat) : Record where
  val := printHexPadded 8 (4096 * (0x7f5c8a400 + p)) ++ '-' ::
    (printHexPadded 8 (4096 * (0x7f5c8a400 + areaEnd s p)) ++ ' ' ::
      (perms (s.attr p) ++ " 00000000 00:00 0 ".toList))
  property := by
    have hperms : '\n' ∉ perms (s.attr p) := by
      unfold perms
      split <;> decide
    simp only [List.mem_append, List.mem_cons, not_or]
    exact ⟨not_mem_printHexPadded (by decide) _ _, by decide, not_mem_printHexPadded (by decide) _ _,
      by decide, hperms, by decide⟩

/-- Nine pages at 0x7f5c8a400000, readable or writable too. -/
def ninePages : Kernel Bool where
  bound := 8
  others := 0
  maps s := ((List.range 9).filter fun p => Begins s p).map (mapsLine s)

theorem ninePages_listsAreas : ninePages.ListsAreas := by
  intro s
  have hcount : ((List.range 9).filter fun p => Begins s p).length = count s 9 := by
    rw [count, Nat.count_eq_card_filter_range]
    rfl
  simp only [ninePages, List.length_map, hcount, Nat.add_zero]

theorem length_printHexPadded {n : Nat} (h : n < 2 ^ 64) : (printHexPadded 8 n).length ≤ 16 := by
  have hdigits : (printHex n).length ≤ 16 :=
    (Nat.length_toDigits_le_iff (by decide) (by decide)).mpr h
  rw [printHexPadded, List.length_leftpad]
  omega

theorem ninePages_linesFit : ninePages.LinesFit := by
  intro s r hr
  obtain ⟨p, hp, rfl⟩ := List.mem_map.mp hr
  have hlt : p < 9 := List.mem_range.mp (List.mem_of_mem_filter hp)
  have hend : areaEnd s p ≤ 9 := by
    have hle := List.Sublist.length_le (List.takeWhile_sublist
      (fun q => decide (s.attr q ≠ none ∧ ¬ Begins s q)) (l := List.range' (p + 1) (8 - p)))
    rw [List.length_range'] at hle
    rw [areaEnd]
    omega
  have hstart := length_printHexPadded (n := 4096 * (0x7f5c8a400 + p)) (by omega)
  have hstop := length_printHexPadded (n := 4096 * (0x7f5c8a400 + areaEnd s p)) (by omega)
  have hperms : (perms (s.attr p)).length = 4 := by
    unfold perms
    split <;> rfl
  have hrest : " 00000000 00:00 0 ".toList.length = 18 := rfl
  simp only [mapsLine, List.length_append, List.length_cons, hperms, hrest]
  omega

def onePage : Space Bool := ⟨fun p => if p = 1 then some true else none, fun _ => false⟩

example : (ninePages.maps (mmap true 3 onePage (some ⟨2, true, false⟩))).map (·.1) =
    ["7f5c8a401000-7f5c8a402000 rw-p 00000000 00:00 0 ".toList,
      "7f5c8a402000-7f5c8a405000 rw-p 00000000 00:00 0 ".toList] := by
  decide

theorem ninePages_places (apart : Bool) : ninePages.Places 3 onePage ⟨2, apart, false⟩ := by
  constructor
  · intro p hp _
    exact if_neg (Nat.ne_of_gt hp)
  · exact (by decide : 2 + 3 ≤ 8)

end OsLabs.AddressSpace
