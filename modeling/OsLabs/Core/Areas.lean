import Mathlib.Data.Nat.Count
import Mathlib.Tactic.NormNum

/-! # Areas

Pages that follow each other and have the same attributes are one area, unless two areas
were left apart. Giving a range of equal pages other attributes changes the number of areas
only by what begins at its two ends.
-/

namespace OsLabs.Areas

variable {α : Type}

/-- The attributes of each page that is mapped. `apart p` keeps page `p` apart from a page
before it with the same attributes. -/
@[ext]
structure Space (α : Type) where
  attr : Nat → Option α
  apart : Nat → Bool

/-- The page before this one. -/
def left (f : Nat → Option α) : Nat → Option α
  | 0 => none
  | p + 1 => f p

/-- An area begins at this page. -/
def Begins (s : Space α) (p : Nat) : Prop :=
  s.attr p ≠ none ∧ (s.attr p ≠ left s.attr p ∨ s.apart p = true)

/-- The range gets other attributes and is one piece; `l` and `r` keep its ends apart from
their neighbours. -/
def set (s : Space α) (a n : Nat) (v : Option α) (l r : Bool) : Space α where
  attr p := if a ≤ p ∧ p < a + n then v else s.attr p
  apart p :=
    if p = a then l
    else if p = a + n then r
    else if a < p ∧ p < a + n then false
    else s.apart p

section Set

variable {s : Space α} {a n p : Nat} {v : Option α} {l r : Bool}

theorem attr_inside (h : a ≤ p) (h' : p < a + n) : (set s a n v l r).attr p = v := if_pos ⟨h, h'⟩

theorem attr_before (h : p < a) : (set s a n v l r).attr p = s.attr p :=
  if_neg fun hp => Nat.not_le.mpr h hp.1

theorem attr_behind (h : a + n ≤ p) : (set s a n v l r).attr p = s.attr p :=
  if_neg fun hp => Nat.not_le.mpr hp.2 h

theorem attr_set (hconst : ∀ p, a ≤ p → p < a + n → s.attr p = v) :
    (set s a n v l r).attr = s.attr := by
  funext p
  by_cases hp : a ≤ p ∧ p < a + n
  · rw [attr_inside hp.1 hp.2, hconst p hp.1 hp.2]
  · exact if_neg hp

@[simp] theorem apart_first : (set s a n v l r).apart a = l := if_pos rfl

theorem apart_last (hn : 0 < n) : (set s a n v l r).apart (a + n) = r := by
  simp only [set, if_neg (show a + n ≠ a by omega), if_true]

theorem apart_inside (h : a < p) (h' : p < a + n) : (set s a n v l r).apart p = false := by
  simp only [set, if_neg (show p ≠ a by omega), if_neg (show p ≠ a + n by omega), if_pos (And.intro h h')]

theorem apart_outside (h : p < a ∨ a + n < p) : (set s a n v l r).apart p = s.apart p := by
  simp only [set, if_neg (show p ≠ a by omega), if_neg (show p ≠ a + n by omega),
    if_neg (show ¬ (a < p ∧ p < a + n) by omega)]

theorem left_first : left (set s a n v l r).attr a = left s.attr a := by
  cases a with
  | zero => rfl
  | succ a => exact attr_before (Nat.lt_succ_self a)

/-- The last change of a range counts. -/
theorem set_set (w : Option α) (l' r' : Bool) :
    set (set s a n v l r) a n w l' r' = set s a n w l' r' := by
  ext p
  · simp only [set]
    split <;> rfl
  · simp only [set]
    split_ifs <;> rfl

theorem set_const {c : Option α} (hconst : ∀ p, a ≤ p → p < a + n → s.attr p = c)
    (hpiece : ∀ p, a ≤ p → p ≤ a + n → s.apart p = false) : set s a n c false false = s := by
  have hapart : (set s a n c false false).apart = s.apart := by
    funext p
    by_cases hp : a ≤ p ∧ p ≤ a + n
    · rw [hpiece p hp.1 hp.2]
      simp only [set]
      split_ifs <;> first | rfl | omega
    · rw [apart_outside (by omega)]
  exact Space.ext (attr_set hconst) hapart

end Set

/-! ## How many areas there are -/

variable [DecidableEq α]

instance (s : Space α) : DecidablePred (Begins s) := fun p =>
  inferInstanceAs (Decidable (s.attr p ≠ none ∧ (s.attr p ≠ left s.attr p ∨ s.apart p = true)))

/-- The areas that begin in the first `n` pages. -/
def count (s : Space α) (n : Nat) : Nat := Nat.count (Begins s) n

/-- Whether an area begins between two pages. -/
def edge (l r : Option α) (apart : Bool) : Nat :=
  if r ≠ none ∧ (r ≠ l ∨ apart = true) then 1 else 0

variable {s : Space α} {a n m : Nat} {c v : Option α}

theorem count_succ (s : Space α) (n : Nat) :
    count s (n + 1) = count s n + edge (left s.attr n) (s.attr n) (s.apart n) := by
  unfold count edge
  rw [Nat.count_succ]
  rfl

/-- `apart` counts between two pages of the same attributes only. -/
theorem count_congr {s' : Space α} (hattr : s.attr = s'.attr)
    (hapart : ∀ p, s.attr p ≠ none → s.attr p = left s.attr p → s.apart p = s'.apart p) (m : Nat) :
    count s m = count s' m := by
  induction m with
  | zero => rfl
  | succ m ih =>
      have hedge : edge (left s.attr m) (s.attr m) (s.apart m) =
          edge (left s'.attr m) (s'.attr m) (s'.apart m) := by
        rw [← hattr]
        unfold edge
        by_cases hnone : s.attr m = none
        · simp [hnone]
        · by_cases hsame : s.attr m = left s.attr m
          · rw [hapart m hnone hsame]
          · simp [hsame]
      rw [count_succ, count_succ, ih, hedge]

theorem count_set_before (s : Space α) (n : Nat) (v : Option α) (l r : Bool) {j : Nat} (hj : j ≤ a) :
    count (set s a n v l r) j = count s j := by
  induction j with
  | zero => simp [count]
  | succ j ih =>
      have hleft : left (set s a n v l r).attr j = left s.attr j := by
        cases j with
        | zero => rfl
        | succ j => exact attr_before (by omega)
      rw [count_succ, count_succ, ih (by omega), hleft, attr_before (by omega), apart_outside (by omega)]

/-- Inside the range nothing begins but at its first page. -/
theorem count_set_inside (s : Space α) (v : Option α) (l r : Bool) {j : Nat} (hj : j < n) :
    count (set s a n v l r) (a + (j + 1)) = count s a + edge (left s.attr a) v l := by
  induction j with
  | zero =>
      rw [← Nat.add_assoc, Nat.add_zero, count_succ, count_set_before s n v l r (Nat.le_refl a), left_first,
        attr_inside (by omega) (by omega), apart_first]
  | succ j ih =>
      have hbefore : (set s a n v l r).attr (a + j) = v := attr_inside (by omega) (by omega)
      have hleft : left (set s a n v l r).attr (a + (j + 1)) = v := hbefore
      rw [← Nat.add_assoc, count_succ, hleft, attr_inside (by omega) (by omega),
        apart_inside (by omega) (by omega), ih (by omega)]
      simp [edge]

/-- The change does not depend on what lies behind the range. -/
theorem count_set_behind (s : Space α) (v w : Option α) (l r l' r' : Bool) (hn : 0 < n) {j : Nat} :
    count (set s a n v l r) (a + n + 1 + j) + edge w (s.attr (a + n)) r' + edge (left s.attr a) w l' =
      count (set s a n w l' r') (a + n + 1 + j) + edge v (s.attr (a + n)) r +
        edge (left s.attr a) v l := by
  induction j with
  | zero =>
      have hend (u : Option α) (l r : Bool) : count (set s a n u l r) (a + n + 1) =
          count s a + edge (left s.attr a) u l + edge u (s.attr (a + n)) r := by
        obtain ⟨k, rfl⟩ := Nat.exists_eq_succ_of_ne_zero (Nat.pos_iff_ne_zero.mp hn)
        have hinside := @count_set_inside α _ a (k + 1) s u l r k (Nat.lt_succ_self k)
        have hlast : (set s a (k + 1) u l r).attr (a + k) = u := attr_inside (by omega) (by omega)
        have hleft : left (set s a (k + 1) u l r).attr (a + (k + 1)) = u := hlast
        rw [Nat.succ_eq_add_one, count_succ, hinside, hleft, attr_behind (Nat.le_refl _), apart_last hn]
      rw [Nat.add_zero, hend, hend]
      omega
  | succ j ih =>
      have hedge (u : Option α) (l r : Bool) : edge (left (set s a n u l r).attr (a + n + 1 + j))
          ((set s a n u l r).attr (a + n + 1 + j)) ((set s a n u l r).apart (a + n + 1 + j)) =
            edge (s.attr (a + n + j)) (s.attr (a + n + 1 + j)) (s.apart (a + n + 1 + j)) := by
        have hleft : left (set s a n u l r).attr (a + n + 1 + j) = s.attr (a + n + j) := by
          rw [Nat.add_right_comm]
          exact attr_behind (by omega)
        rw [hleft, attr_behind (by omega), apart_outside (by omega)]
      rw [← Nat.add_assoc, count_succ, count_succ, hedge, hedge]
      omega

/-- The neighbours a new area becomes one with. -/
def joins (s : Space α) (a n : Nat) (x : α) (l r : Bool) : Nat :=
  (if left s.attr a = some x ∧ l = false then 1 else 0) +
    if s.attr (a + n) = some x ∧ r = false then 1 else 0

/-- A free range is one that was just given up. -/
theorem count_free (hfree : ∀ p, a ≤ p → p < a + n → s.attr p = none) (hn : 0 < n) :
    count (set s a n none false false) m = count s m := by
  have hattr := attr_set (l := false) (r := false) hfree
  apply count_congr hattr
  intro p hmapped hsame
  rw [hattr] at hmapped hsame
  apply apart_outside
  by_contra hrange
  rcases Nat.lt_or_ge p (a + n) with hlt | hge
  · exact hmapped (hfree p (by omega) hlt)
  · -- the page before the end of the range is free
    obtain rfl : p = a + n := by omega
    obtain ⟨k, rfl⟩ := Nat.exists_eq_succ_of_ne_zero (Nat.pos_iff_ne_zero.mp hn)
    exact hmapped (hsame.trans (hfree (a + k) (by omega) (by omega)))

theorem count_map (hfree : ∀ p, a ≤ p → p < a + n → s.attr p = none) (hn : 0 < n) (hlt : a + n < m) (x : α)
    (l r : Bool) : count (set s a n (some x) l r) m + joins s a n x l r = count s m + 1 := by
  obtain ⟨j, rfl⟩ := Nat.exists_eq_add_of_le (Nat.succ_le_of_lt hlt)
  have h := count_set_behind (a := a) s (some x) none l r false false hn (j := j)
  rw [count_free hfree hn] at h
  have hleft : edge (left s.attr a) (some x) l +
      (if left s.attr a = some x ∧ l = false then 1 else 0) = 1 := by
    by_cases hx : left s.attr a = some x
    · cases l <;> simp [edge, hx]
    · simp [edge, hx, Ne.symm hx]
  have hright : edge (some x) (s.attr (a + n)) r +
      (if s.attr (a + n) = some x ∧ r = false then 1 else 0) = edge none (s.attr (a + n)) false := by
    by_cases hx : s.attr (a + n) = some x
    · cases r <;> simp [edge, hx]
    · by_cases hnone : s.attr (a + n) = none
      · simp [edge, hnone]
      · simp [edge, hx, hnone]
  have hfirst : edge (left s.attr a) (none : Option α) false = 0 := by simp [edge]
  rw [Nat.succ_eq_add_one]
  unfold joins
  omega

/-- Inside an area of `x` other attributes make three areas of one. -/
theorem count_split {x y : α} (hne : y ≠ x) (hconst : ∀ p, a ≤ p → p < a + n → s.attr p = some x)
    (hpiece : ∀ p, a ≤ p → p ≤ a + n → s.apart p = false) (hleft : left s.attr a = some x)
    (hright : s.attr (a + n) = some x) (hn : 0 < n) (hlt : a + n < m) :
    count (set s a n (some y) false false) m = count s m + 2 := by
  obtain ⟨j, rfl⟩ := Nat.exists_eq_add_of_le (Nat.succ_le_of_lt hlt)
  have h := count_set_behind (a := a) s (some y) (some x) false false false false hn (j := j)
  rw [set_const hconst hpiece] at h
  simp only [hleft, hright, edge, ne_eq, reduceCtorEq, not_false_eq_true, Option.some.injEq, hne, hne.symm,
    not_true_eq_false, Bool.false_eq_true, or_self, or_false, and_false, and_true, if_true, if_false] at h
  omega

end OsLabs.Areas
