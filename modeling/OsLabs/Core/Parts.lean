import Mathlib.Data.List.Basic

/-! # Lists read in parts

A reader that stops at the `n`-th of certain elements, and lists whose elements
come as several parts each.
-/

namespace OsLabs

variable {α β : Type} {p : α → Bool}

/-! ## Up to a stop -/

/-- The elements up to the `n`-th one that meets `p`, and with it. -/
def through (p : α → Bool) : Nat → List α → List α
  | 0, _ => []
  | _ + 1, [] => []
  | n + 1, x :: xs => x :: through p (if p x then n else n + 1) xs

@[simp] theorem through_zero (p : α → Bool) (xs : List α) : through p 0 xs = [] := by
  cases xs <;> rfl

@[simp] theorem through_nil (p : α → Bool) (n : Nat) : through p n [] = [] := by
  cases n <;> rfl

theorem through_append (p : α → Bool) (n : Nat) (xs ys : List α) :
    through p n (xs ++ ys) = through p n xs ++ through p (n - xs.countP p) ys := by
  induction xs generalizing n with
  | nil => simp
  | cons x xs ih =>
      cases n with
      | zero => simp
      | succ n =>
          by_cases hx : p x = true
          · simp [through, hx, ih]
          · simp [through, hx, ih]

theorem through_isPrefix (p : α → Bool) (n : Nat) (xs : List α) : through p n xs <+: xs := by
  induction xs generalizing n with
  | nil => simp
  | cons x xs ih =>
      cases n with
      | zero => simp
      | succ n => exact (List.prefix_cons_inj x).mpr (ih _)

theorem through_eq_self {n : Nat} {xs : List α} (h : xs.countP p < n) : through p n xs = xs := by
  induction xs generalizing n with
  | nil => simp
  | cons x xs ih =>
      obtain ⟨n, rfl⟩ : ∃ m, n = m + 1 := ⟨n - 1, by omega⟩
      rw [through]
      by_cases hx : p x = true
      · rw [List.countP_cons_of_pos hx] at h
        rw [if_pos hx, ih (by omega)]
      · rw [List.countP_cons_of_neg hx] at h
        rw [if_neg hx, ih h]

/-- Where only the last part of an element can be a stop, the parts are read up to
the end of an element. -/
theorem through_flatMap {f : α → List β} {q : β → Bool} {xs : List α}
    (hstop : ∀ x ∈ xs, p x = true → ∃ ys z, f x = ys ++ [z] ∧ ys.countP q = 0 ∧ q z = true)
    (hgo : ∀ x ∈ xs, p x = false → (f x).countP q = 0) (n : Nat) :
    through q n (xs.flatMap f) = (through p n xs).flatMap f := by
  induction xs generalizing n with
  | nil => simp
  | cons x xs ih =>
      obtain ⟨hx, hxs⟩ := List.forall_mem_cons.mp hstop
      obtain ⟨hx', hxs'⟩ := List.forall_mem_cons.mp hgo
      cases n with
      | zero => simp
      | succ n =>
          rw [List.flatMap_cons, through_append, through, List.flatMap_cons, ih hxs hxs']
          cases hp : p x with
          | true =>
              obtain ⟨ys, z, hf, hys, hz⟩ := hx hp
              have hwhole : through q (n + 1) (f x) = f x := by
                rw [hf, through_append, hys, through_eq_self (by omega)]
                simp [through]
              have hcount : (f x).countP q = 1 := by simp [hf, hys, hz]
              rw [hwhole, hcount]
              simp
          | false =>
              rw [through_eq_self (by rw [hx' hp]; omega), hx' hp]
              simp

/-! ## As many parts as elements -/

section Counts

variable {f : α → List β}

theorem length_filter_le_flatMap {xs : List α} (h : ∀ x ∈ xs, p x = true → f x ≠ []) :
    (xs.filter p).length ≤ (xs.flatMap f).length := by
  induction xs with
  | nil => simp
  | cons x xs ih =>
      obtain ⟨hx, hxs⟩ := List.forall_mem_cons.mp h
      have hrest := ih hxs
      rw [List.flatMap_cons, List.length_append]
      cases hp : p x with
      | true =>
          have hpos := List.length_pos_iff.mpr (hx hp)
          rw [List.filter_cons_of_pos hp, List.length_cons]
          omega
      | false =>
          rw [List.filter_cons_of_neg (by simp [hp])]
          omega

/-- The elements that meet `p` are as many as all parts exactly when each of them is
one part and the others are none. -/
theorem length_flatMap_eq_filter_iff {xs : List α} (h : ∀ x ∈ xs, p x = true → f x ≠ []) :
    (xs.flatMap f).length = (xs.filter p).length ↔
      ∀ x ∈ xs, (f x).length = if p x then 1 else 0 := by
  induction xs with
  | nil => simp
  | cons x xs ih =>
      obtain ⟨hx, hxs⟩ := List.forall_mem_cons.mp h
      have hrest := length_filter_le_flatMap hxs
      rw [List.forall_mem_cons, ← ih hxs, List.flatMap_cons, List.length_append]
      cases hp : p x with
      | true =>
          have hpos := List.length_pos_iff.mpr (hx hp)
          rw [List.filter_cons_of_pos hp, List.length_cons, if_pos rfl]
          omega
      | false =>
          rw [List.filter_cons_of_neg (by simp [hp]), if_neg (by simp)]
          omega

theorem flatMap_eq_filter {f : α → List α} {xs : List α}
    (h : ∀ x ∈ xs, f x = if p x then [x] else []) : xs.flatMap f = xs.filter p := by
  induction xs with
  | nil => rfl
  | cons x xs ih =>
      obtain ⟨hx, hxs⟩ := List.forall_mem_cons.mp h
      rw [List.flatMap_cons, hx, ih hxs]
      cases hp : p x <;> simp [hp]

/-- The parts look like the elements that meet `p` exactly when each of these is one
part that looks like it and the others are none. -/
theorem map_flatMap_eq_map_filter_iff {γ : Type} {g : β → γ} {h : α → γ} {xs : List α}
    (hne : ∀ x ∈ xs, p x = true → f x ≠ []) :
    (xs.flatMap f).map g = (xs.filter p).map h ↔
      ∀ x ∈ xs, (f x).map g = if p x then [h x] else [] := by
  constructor
  · intro heq
    have hlength := congrArg List.length heq
    rw [List.length_map, List.length_map, length_flatMap_eq_filter_iff hne] at hlength
    induction xs with
    | nil => simp
    | cons x xs ih =>
        obtain ⟨_, hnes⟩ := List.forall_mem_cons.mp hne
        obtain ⟨hx, hxs⟩ := List.forall_mem_cons.mp hlength
        rw [List.forall_mem_cons]
        cases hp : p x with
        | true =>
            rw [hp, if_pos rfl, List.length_eq_one_iff] at hx
            obtain ⟨y, hy⟩ := hx
            rw [List.flatMap_cons, hy, List.filter_cons_of_pos hp, List.map_cons] at heq
            obtain ⟨hhead, htail⟩ := List.cons.inj heq
            rw [hy]
            exact ⟨congrArg (fun c => [c]) hhead, ih hnes htail hxs⟩
        | false =>
            rw [hp, if_neg (by simp), List.length_eq_zero_iff] at hx
            rw [List.flatMap_cons, hx, List.filter_cons_of_neg (by simp [hp])] at heq
            rw [hx]
            exact ⟨by simp, ih hnes heq hxs⟩
  · intro hparts
    clear hne
    induction xs with
    | nil => rfl
    | cons x xs ih =>
        obtain ⟨hx, hxs⟩ := List.forall_mem_cons.mp hparts
        rw [List.flatMap_cons, List.map_append, hx, ih hxs]
        cases hp : p x <;> simp [hp]

end Counts

end OsLabs
