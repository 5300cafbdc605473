import Mathlib.Logic.Function.Basic

/-! # Allocated memory

The contents of the allocated addresses. A load from any other address yields
any value, and a store to one has no effect.
-/

namespace OsLabs

abbrev Memory (Addr α : Type) : Type := Addr → Option α

namespace Memory

variable {Addr α : Type} [DecidableEq Addr] {m : Memory Addr α} {a b : Addr} {x : α}

def load (m : Memory Addr α) (a : Addr) (junk : α) : α := (m a).getD junk

def store (m : Memory Addr α) (a : Addr) (f : α → α) : Memory Addr α :=
  Function.update m a ((m a).map f)

def alloc (m : Memory Addr α) (a : Addr) (x : α) : Memory Addr α := Function.update m a (some x)

def free (m : Memory Addr α) (a : Addr) : Memory Addr α := Function.update m a none

omit [DecidableEq Addr] in
theorem load_of_some (h : m a = some x) (junk : α) : m.load a junk = x := by
  simp [load, h]

@[simp] theorem store_self (m : Memory Addr α) (a : Addr) (f : α → α) :
    m.store a f a = (m a).map f := by
  simp [store]

@[simp] theorem alloc_self (m : Memory Addr α) (a : Addr) (x : α) : m.alloc a x a = some x := by
  simp [alloc]

@[simp] theorem free_self (m : Memory Addr α) (a : Addr) : m.free a a = none := by
  simp [free]

theorem store_of_ne (h : b ≠ a) (f : α → α) : m.store a f b = m b := Function.update_of_ne h _ _

theorem alloc_of_ne (h : b ≠ a) (x : α) : m.alloc a x b = m b := Function.update_of_ne h _ _

theorem free_of_ne (h : b ≠ a) : m.free a b = m b := Function.update_of_ne h _ _

/-- What is allocated is not handed out again. -/
theorem alloc_of_some (hfree : m a = none) (hb : m b = some x) (y : α) : m.alloc a y b = some x := by
  have hne : b ≠ a := by
    intro heq
    rw [heq, hfree] at hb
    cases hb
  rw [alloc_of_ne hne, hb]

end Memory

end OsLabs
