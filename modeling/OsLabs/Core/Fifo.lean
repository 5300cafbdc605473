import OsLabs.Core.Lts

/-! # Bounded queues and their ring representation

The queue is a list under two operations. A ring of `size` cells that holds `n`
elements from index `out` on represents one.
-/

namespace OsLabs

inductive QueueOp (α : Type) where
  | put (a : α)
  | get (a : α)

namespace Fifo

variable {α : Type}

/-- `get a` takes the front of the queue, which is `a`. -/
def queueNext [DecidableEq α] (cap : Nat) (q : List α) : QueueOp α → Option (List α)
  | .put a => if q.length < cap then some (q ++ [a]) else none
  | .get a =>
      match q with
      | [] => none
      | b :: q' => if a = b then some q' else none

def queue [DecidableEq α] (cap : Nat) : Lts (List α) (QueueOp α) where
  init q := q = []
  next := queueNext cap

def puts (ops : List (QueueOp α)) : List α :=
  ops.filterMap fun
    | .put a => some a
    | .get _ => none

def gets (ops : List (QueueOp α)) : List α :=
  ops.filterMap fun
    | .get a => some a
    | .put _ => none

/-- What was put in is what was taken out followed by what is still there. -/
theorem exec_order [DecidableEq α] {cap : Nat} {ops : List (QueueOp α)} {q q' : List α}
    (h : (queue cap).exec q ops = some q') : q ++ puts ops = gets ops ++ q' := by
  induction ops generalizing q with
  | nil =>
      cases h
      simp [puts, gets]
  | cons op ops ih =>
      rcases Option.bind_eq_some_iff.mp h with ⟨q₁, hstep, hrest⟩
      have htail := ih hrest
      cases op with
      | put a =>
          simp only [queue, queueNext] at hstep
          split at hstep
          · cases hstep
            simpa [puts, gets] using htail
          · cases hstep
      | get a =>
          cases q with
          | nil => cases hstep
          | cons b q₂ =>
              simp only [queue, queueNext] at hstep
              split at hstep
              next hab =>
                cases hstep
                subst hab
                simpa [puts, gets] using htail
              next => cases hstep

/-! ## Rings -/

/-- The elements of a ring, oldest first. -/
def ring (size : Nat) (cell : Nat → α) (out n : Nat) : List α :=
  (List.range n).map fun i => cell ((out + i) % size)

@[simp] theorem ring_length (size : Nat) (cell : Nat → α) (out n : Nat) :
    (ring size cell out n).length = n := by
  simp [ring]

/-- Two cells of a ring less than a turn apart are different. -/
theorem index_ne {size out i n : Nat} (hi : i < n) (hn : n < size) :
    (out + i) % size ≠ (out + n) % size := by
  intro heq
  have hzero : ((out + n) - (out + i)) % size = 0 := Nat.sub_mod_eq_zero_of_mod_eq heq.symm
  rw [Nat.mod_eq_of_lt (by omega)] at hzero
  omega

theorem ring_store {size out n : Nat} (cell : Nat → α) (a : α) (hn : n < size) :
    ring size (Function.update cell ((out + n) % size) a) out (n + 1) =
      ring size cell out n ++ [a] := by
  have hold : (List.range n).map (fun i =>
        Function.update cell ((out + n) % size) a ((out + i) % size)) =
      ring size cell out n := by
    apply List.map_congr_left
    intro i hi
    rw [Function.update_of_ne (index_ne (List.mem_range.mp hi) hn)]
  rw [ring, List.range_succ, List.map_append, hold]
  simp

theorem ring_take (size : Nat) (cell : Nat → α) (out n : Nat) :
    ring size cell out (n + 1) = cell (out % size) :: ring size cell ((out + 1) % size) n := by
  have hshift : ∀ i, (out + (i + 1)) % size = ((out + 1) % size + i) % size := by
    intro i
    rw [Nat.mod_add_mod, Nat.add_assoc, Nat.add_comm 1 i]
  rw [ring, ring, List.range_succ_eq_map, List.map_cons, List.map_map]
  congr 1
  exact List.map_congr_left fun i _ => congrArg cell (hshift i)

end Fifo

end OsLabs
