import Mathlib.Data.List.Nodup
import Mathlib.Logic.Function.Basic

/-! # Linked lists in a heap

A heap gives the contents of the allocated addresses. A chain is the list of
the cells met from a pointer on, up to the null pointer.
-/

namespace OsLabs

structure Cell (Addr α : Type) where
  val : α
  next : Option Addr
  deriving DecidableEq, Repr

abbrev Heap (Addr α : Type) : Type := Addr → Option (Cell Addr α)

/-- `l` holds the addresses and values of the cells, in order. -/
def Chain {Addr α : Type} (heap : Heap Addr α) : Option Addr → List (Addr × α) → Prop
  | p, [] => p = none
  | p, x :: l => p = some x.1 ∧ ∃ q, heap x.1 = some ⟨x.2, q⟩ ∧ Chain heap q l

namespace Chain

variable {Addr α : Type} {heap : Heap Addr α} {p : Option Addr} {a : Addr}
  {l l' : List (Addr × α)}

theorem nil_of_none (h : Chain heap none l) : l = [] := by
  cases l with
  | nil => rfl
  | cons x l => cases h.1

theorem cons_of_some (h : Chain heap (some a) l) :
    ∃ v q l', l = (a, v) :: l' ∧ heap a = some ⟨v, q⟩ ∧ Chain heap q l' := by
  cases l with
  | nil => cases h
  | cons x l' =>
      rcases h with ⟨hhead, q, hcell, htail⟩
      cases hhead
      exact ⟨x.2, q, l', rfl, hcell, htail⟩

theorem push {v : α} (h : Chain heap p l) (hcell : heap a = some ⟨v, p⟩) :
    Chain heap (some a) ((a, v) :: l) :=
  ⟨rfl, p, hcell, h⟩

/-- A pointer heads at most one chain. -/
theorem unique (h : Chain heap p l) (h' : Chain heap p l') : l = l' := by
  induction l generalizing p l' with
  | nil =>
      subst h
      exact h'.nil_of_none.symm
  | cons x l ih =>
      rcases h with ⟨rfl, q, hcell, htail⟩
      rcases h'.cons_of_some with ⟨v, q', l₁, rfl, hcell', htail'⟩
      rw [hcell] at hcell'
      cases hcell'
      rw [ih htail htail']

theorem allocated (h : Chain heap p l) (ha : a ∈ l.map Prod.fst) : (heap a).isSome := by
  induction l generalizing p with
  | nil => cases ha
  | cons x l ih =>
      rcases h with ⟨_, q, hcell, htail⟩
      rcases List.mem_cons.mp ha with rfl | hmem
      · rw [hcell]
        rfl
      · exact ih htail hmem

/-- A cell of a chain heads the rest of it. -/
theorem from_mem (h : Chain heap p l) (ha : a ∈ l.map Prod.fst) :
    ∃ l', Chain heap (some a) l' ∧ l'.length ≤ l.length := by
  induction l generalizing p with
  | nil => cases ha
  | cons x l ih =>
      rcases List.mem_cons.mp ha with rfl | hmem
      · rcases h with ⟨rfl, hrest⟩
        exact ⟨x :: l, ⟨rfl, hrest⟩, Nat.le_refl _⟩
      · rcases h with ⟨_, q, _, htail⟩
        rcases ih htail hmem with ⟨l', hchain, hle⟩
        exact ⟨l', hchain, Nat.le_succ_of_le hle⟩

/-- A chain that ends in null meets no cell twice. -/
theorem nodup (h : Chain heap p l) : (l.map Prod.fst).Nodup := by
  induction l generalizing p with
  | nil => exact List.nodup_nil
  | cons x l ih =>
      rcases h with ⟨rfl, q, hcell, htail⟩
      rw [List.map_cons, List.nodup_cons]
      constructor
      · intro hmem
        rcases htail.from_mem hmem with ⟨l', hchain, hle⟩
        have hwhole : Chain heap (some x.1) (x :: l) := ⟨rfl, q, hcell, htail⟩
        have hlength : l'.length = (x :: l).length := by rw [hchain.unique hwhole]
        rw [List.length_cons] at hlength
        omega
      · exact ih htail

theorem frame {heap' : Heap Addr α} (h : Chain heap p l)
    (heq : ∀ b ∈ l.map Prod.fst, heap' b = heap b) : Chain heap' p l := by
  induction l generalizing p with
  | nil => exact h
  | cons x l ih =>
      rcases h with ⟨hhead, q, hcell, htail⟩
      refine ⟨hhead, q, ?_, ih htail fun b hb => heq b (List.mem_cons_of_mem _ hb)⟩
      rw [heq x.1 List.mem_cons_self, hcell]

/-- What happens to a cell outside of it leaves a chain as it is. -/
theorem update [DecidableEq Addr] (h : Chain heap p l) (ha : a ∉ l.map Prod.fst)
    (c : Option (Cell Addr α)) : Chain (Function.update heap a c) p l := by
  apply h.frame
  intro b hb
  apply Function.update_of_ne
  intro heq
  exact ha (heq ▸ hb)

end Chain

end OsLabs
