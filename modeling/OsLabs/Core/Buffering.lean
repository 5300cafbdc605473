import Mathlib.Data.List.DropRight
import Mathlib.Tactic.Common

/-! # Buffered streams

A stream keeps the text that is printed into it and hands over what is due: whole lines to
a terminal, whole blocks to a pipe or a file. What is due does not depend on how the text
came in pieces. A full block stays until another character comes, as `printf` leaves it.
-/

namespace OsLabs

structure Buffering where
  due : List Char → List Char
  kept : List Char → List Char
  due_append_kept : ∀ text, due text ++ kept text = text
  kept_append : ∀ text more, kept (kept text ++ more) = kept (text ++ more)

namespace Buffering

variable (b : Buffering)

@[simp] theorem kept_kept (text : List Char) : b.kept (b.kept text) = b.kept text := by
  simpa using b.kept_append text []

@[simp] theorem due_kept (text : List Char) : b.due (b.kept text) = [] := by
  have h := b.due_append_kept (b.kept text)
  rw [b.kept_kept] at h
  simpa using h

@[simp] theorem kept_nil : b.kept [] = [] := by
  have h := b.due_append_kept []
  exact (List.append_eq_nil_iff.mp h).2

@[simp] theorem due_nil : b.due [] = [] := by
  have h := b.due_append_kept []
  exact (List.append_eq_nil_iff.mp h).1

/-- In two pieces as in one. -/
theorem due_append (text more : List Char) :
    b.due text ++ b.due (b.kept text ++ more) = b.due (text ++ more) := by
  apply (List.append_left_inj (b.kept (text ++ more))).mp
  have hmore := b.due_append_kept (b.kept text ++ more)
  rw [b.kept_append] at hmore
  rw [List.append_assoc, hmore, ← List.append_assoc, b.due_append_kept, b.due_append_kept]

/-! ## Terminals -/

/-- What stands behind the last newline is kept. -/
def lines : Buffering where
  due text := text.rdropWhile fun c => c != '\n'
  kept text := text.rtakeWhile fun c => c != '\n'
  due_append_kept text := List.rdropWhile_append_rtakeWhile
  kept_append text more := by
    induction more using List.reverseRecOn with
    | nil => rw [List.append_nil, List.append_nil, List.rtakeWhile_idempotent]
    | append_singleton more c ih =>
        rw [← List.append_assoc, ← List.append_assoc, List.rtakeWhile_concat,
          List.rtakeWhile_concat, ih]

/-- No line is left open. -/
def Whole (text : List Char) : Prop := lines.kept text = []

instance (text : List Char) : Decidable (Whole text) := by
  unfold Whole
  infer_instance

theorem Whole.due_eq {text : List Char} (h : Whole text) : lines.due text = text := by
  have hsplit := lines.due_append_kept text
  rwa [h, List.append_nil] at hsplit

theorem Whole.append {text more : List Char} (h : Whole text) (h' : Whole more) :
    Whole (text ++ more) := by
  unfold Whole at h h' ⊢
  rw [← lines.kept_append, h, List.nil_append, h']

theorem whole_due (text : List Char) : Whole (lines.due text) := by
  have hlast := List.rdropWhile_last_not (fun c : Char => c != '\n') text
  exact List.rtakeWhile_eq_nil_iff.mpr hlast

/-! ## Pipes and files -/

/-- A buffer of `size` characters is handed over when it is full and another character
comes. -/
def blocks (size : Nat) : Buffering where
  due text := text.take ((text.length - 1) / size * size)
  kept text := text.drop ((text.length - 1) / size * size)
  due_append_kept text := List.take_append_drop _ text
  kept_append text more := by
    rcases Nat.eq_zero_or_pos size with rfl | hpos
    · simp
    · have hle : (text.length - 1) / size * size ≤ text.length - 1 := Nat.div_mul_le_self _ _
      have hsum : ((text ++ more).length - 1) / size * size = (text.length - 1) / size * size +
          ((text.drop ((text.length - 1) / size * size) ++ more).length - 1) / size * size := by
        have hlength : (text ++ more).length - 1 =
            ((text.drop ((text.length - 1) / size * size) ++ more).length - 1) +
              (text.length - 1) / size * size := by
          simp only [List.length_append, List.length_drop]
          omega
        rw [hlength, Nat.add_mul_div_right _ _ hpos, Nat.add_mul]
        omega
      have hlast : (text.length - 1) / size * size ≤ text.length := by omega
      rw [hsum, ← List.drop_drop, List.drop_append_of_le_length hlast]

/-- How many of `n` characters a block keeps. -/
def inBlock (size n : Nat) : Nat := if n = 0 then 0 else (n - 1) % size + 1

theorem length_kept_blocks (size : Nat) (text : List Char) :
    ((blocks size).kept text).length = inBlock size text.length := by
  have hdiv := Nat.div_add_mod' (text.length - 1) size
  simp only [blocks, inBlock, List.length_drop]
  split
  · omega
  · omega

theorem due_blocks_eq_nil {size : Nat} (hpos : 0 < size) {text : List Char} :
    (blocks size).due text = [] ↔ text.length ≤ size := by
  have hle : (text.length - 1) / size * size ≤ text.length - 1 := Nat.div_mul_le_self _ _
  have hdue : ((blocks size).due text).length = (text.length - 1) / size * size :=
    List.length_take_of_le (by omega)
  rw [← List.length_eq_zero_iff, hdue, Nat.mul_eq_zero, Nat.div_eq_zero_iff]
  omega

/-- Whatever has been printed, the last of it is pending. -/
theorem kept_blocks_eq_nil {size : Nat} {text : List Char} :
    (blocks size).kept text = [] ↔ text = [] := by
  rw [← List.length_eq_zero_iff, ← List.length_eq_zero_iff, length_kept_blocks, inBlock]
  split
  · next hzero => exact iff_of_true rfl hzero
  · next hzero => exact iff_of_false (Nat.succ_ne_zero _) hzero

end Buffering

end OsLabs
