import Mathlib.Data.Finset.Card
import Mathlib.Data.Finset.Lattice.Lemmas
import Mathlib.Order.Interval.Finset.Nat
import OsLabs.Core.Loop

/-! # Demand paging

A private anonymous mapping as the process that made it sees it: the bytes it holds and
the minor faults its accesses take. Whether an access faults depends on what was done to
its page before: a load faults on a page that is not mapped, a store on a page that is not
the process's own, be it unmapped, the shared zero page or shared with another process
since a fork.
-/

namespace OsLabs.Paging

inductive Event where
  | load (page : Nat)
  | store (page : Nat)
  | fork
  | release
  deriving DecidableEq, Repr

/-- The pages present after these events, the latest of which comes first. -/
def mapped : List Event → Finset Nat
  | [] => ∅
  | .load p :: es => insert p (mapped es)
  | .store p :: es => insert p (mapped es)
  | .fork :: es => mapped es
  | .release :: _ => ∅

/-- The pages the process has for itself. -/
def owned : List Event → Finset Nat
  | [] => ∅
  | .load _ :: es => owned es
  | .store p :: es => insert p (owned es)
  | .fork :: _ => ∅
  | .release :: _ => ∅

theorem owned_subset_mapped (es : List Event) : owned es ⊆ mapped es := by
  induction es with
  | nil => exact Finset.Subset.refl _
  | cons e es ih =>
      cases e with
      | load p => exact ih.trans (Finset.subset_insert p _)
      | store p => exact Finset.insert_subset_insert p ih
      | fork => exact Finset.empty_subset _
      | release => exact Finset.Subset.refl _

/-- The kernel, as far as the faults of one mapping go. It maps base pages: no transparent
huge page, and nothing mapped around a fault. -/
structure Kernel where
  faults : List Event → Event → Bool
  load_faults : ∀ es p, faults es (.load p) = true ↔ p ∉ mapped es
  store_faults : ∀ es p, faults es (.store p) = true ↔ p ∉ owned es

/-- A kernel that looks at the page tables. -/
def Kernel.tables : Kernel where
  faults es
    | .load p => decide (p ∉ mapped es)
    | .store p => decide (p ∉ owned es)
    | .fork => false
    | .release => false
  load_faults es p := by simp
  store_faults es p := by simp

structure Mapping where
  bytes : Nat → UInt8
  events : List Event
  minflt : Nat

/-- A fresh mapping; the process took `minflt` faults before. -/
def Mapping.mmap (minflt : Nat) : Mapping := ⟨fun _ => 0, [], minflt⟩

/-- `madvise` with `MADV_DONTNEED` on all of it. -/
def Mapping.dontneed (m : Mapping) : Mapping :=
  { m with bytes := fun _ => 0, events := .release :: m.events }

/-- The mapping in a forked child, whose own count starts from zero and has come to `minflt`. -/
def Mapping.child (m : Mapping) (minflt : Nat) : Mapping :=
  { m with events := .fork :: m.events, minflt := minflt }

section Accesses

variable (k : Kernel) (ps : Nat)

def Mapping.touch (m : Mapping) (e : Event) : Mapping :=
  { m with events := e :: m.events, minflt := m.minflt + (k.faults m.events e).toNat }

def Mapping.load (m : Mapping) (offset : Nat) : Mapping := m.touch k (.load (offset / ps))

def Mapping.store (m : Mapping) (b : UInt8) (offset : Nat) : Mapping :=
  { m.touch k (.store (offset / ps)) with bytes := Function.update m.bytes offset b }

def Mapping.loads (m : Mapping) (offsets : List Nat) : Mapping :=
  offsets.foldl (Mapping.load k ps) m

def Mapping.stores (m : Mapping) (b : UInt8) (offsets : List Nat) : Mapping :=
  offsets.foldl (fun m offset => m.store k ps b offset) m

/-- The pages of these offsets. -/
def pages (offsets : List Nat) : Finset Nat := (offsets.map (· / ps)).toFinset

end Accesses

variable {k : Kernel} {ps : Nat}

theorem toNat_load_faults (es : List Event) (p : Nat) :
    (k.faults es (.load p)).toNat = if p ∈ mapped es then 0 else 1 := by
  have hfaults := k.load_faults es p
  cases h : k.faults es (.load p) <;> simp_all

theorem toNat_store_faults (es : List Event) (p : Nat) :
    (k.faults es (.store p)).toNat = if p ∈ owned es then 0 else 1 := by
  have hfaults := k.store_faults es p
  cases h : k.faults es (.store p) <;> simp_all

@[simp] theorem pages_nil : pages ps [] = ∅ := rfl

@[simp] theorem pages_cons (o : Nat) (os : List Nat) :
    pages ps (o :: os) = insert (o / ps) (pages ps os) := by
  simp [pages]

theorem mem_pages {os : List Nat} {p : Nat} : p ∈ pages ps os ↔ ∃ o ∈ os, o / ps = p := by
  simp [pages]

/-- Elements of a set that has been extended by one are new when that one is and the others
are. -/
theorem card_insert_sdiff (p : Nat) (new old : Finset Nat) :
    (insert p new \ old).card = (if p ∈ old then 0 else 1) + (new \ insert p old).card := by
  by_cases h : p ∈ old
  · rw [Finset.insert_sdiff_of_mem _ h, Finset.insert_eq_of_mem h, if_pos h, Nat.zero_add]
  · rw [Finset.insert_sdiff_of_notMem _ h, if_neg h, Finset.sdiff_insert, Nat.add_comm,
      ← Finset.card_erase_add_one (Finset.mem_insert_self p (new \ old)), Finset.erase_insert_eq_erase]

section Loads

variable (m : Mapping) (os : List Nat)

@[simp] theorem Mapping.loads_nil : m.loads k ps [] = m := rfl

@[simp] theorem Mapping.loads_cons (o : Nat) :
    m.loads k ps (o :: os) = (m.load k ps o).loads k ps os := rfl

@[simp] theorem Mapping.bytes_loads : (m.loads k ps os).bytes = m.bytes := by
  induction os generalizing m with
  | nil => rfl
  | cons o os ih => exact ih (m.load k ps o)

@[simp] theorem Mapping.mapped_loads :
    mapped (m.loads k ps os).events = pages ps os ∪ mapped m.events := by
  induction os generalizing m with
  | nil => simp
  | cons o os ih =>
      rw [loads_cons, ih, pages_cons, load, touch, mapped, Finset.union_insert,
        Finset.insert_union]

@[simp] theorem Mapping.owned_loads : owned (m.loads k ps os).events = owned m.events := by
  induction os generalizing m with
  | nil => rfl
  | cons o os ih => exact ih (m.load k ps o)

/-- Loads fault once for each page they meet that was not there. -/
theorem Mapping.minflt_loads :
    (m.loads k ps os).minflt = m.minflt + (pages ps os \ mapped m.events).card := by
  induction os generalizing m with
  | nil => simp
  | cons o os ih =>
      rw [loads_cons, ih, pages_cons, card_insert_sdiff, load, touch, toNat_load_faults, mapped]
      exact Nat.add_assoc _ _ _

end Loads

section Stores

variable (m : Mapping) (b : UInt8) (os : List Nat)

@[simp] theorem Mapping.stores_nil : m.stores k ps b [] = m := rfl

@[simp] theorem Mapping.stores_cons (o : Nat) :
    m.stores k ps b (o :: os) = (m.store k ps b o).stores k ps b os := rfl

theorem Mapping.bytes_stores (x : Nat) :
    (m.stores k ps b os).bytes x = if x ∈ os then b else m.bytes x := by
  induction os generalizing m with
  | nil => simp
  | cons o os ih =>
      rw [stores_cons, ih, store]
      by_cases hx : x = o <;> simp [hx]

@[simp] theorem Mapping.owned_stores :
    owned (m.stores k ps b os).events = pages ps os ∪ owned m.events := by
  induction os generalizing m with
  | nil => simp
  | cons o os ih =>
      rw [stores_cons, ih, pages_cons, store, touch, owned, Finset.union_insert,
        Finset.insert_union]

@[simp] theorem Mapping.mapped_stores :
    mapped (m.stores k ps b os).events = pages ps os ∪ mapped m.events := by
  induction os generalizing m with
  | nil => simp
  | cons o os ih =>
      rw [stores_cons, ih, pages_cons, store, touch, mapped, Finset.union_insert,
        Finset.insert_union]

/-- Stores fault once for each page they meet that was not the process's own. -/
theorem Mapping.minflt_stores :
    (m.stores k ps b os).minflt = m.minflt + (pages ps os \ owned m.events).card := by
  induction os generalizing m with
  | nil => simp
  | cons o os ih =>
      rw [stores_cons, ih, pages_cons, card_insert_sdiff, store, touch, toNat_store_faults, owned]
      exact Nat.add_assoc _ _ _

end Stores

/-! ## The pages of a range -/

/-- How many pages hold the offsets below `n`. -/
def pageCount (ps n : Nat) : Nat := (n + ps - 1) / ps

theorem pageCount_of_dvd (hps : 0 < ps) {n : Nat} (h : ps ∣ n) : pageCount ps n = n / ps := by
  obtain ⟨c, rfl⟩ := h
  rw [pageCount, Nat.mul_div_cancel_left c hps, Nat.add_sub_assoc hps, Nat.mul_add_div hps,
    Nat.div_eq_of_lt (by omega), Nat.add_zero]

theorem lt_pageCount_iff (hps : 0 < ps) {n q : Nat} : q < pageCount ps n ↔ q * ps < n := by
  rw [pageCount, Nat.lt_iff_add_one_le, Nat.le_div_iff_mul_le hps, Nat.succ_mul]
  omega

theorem pageCount_eq_div_iff (hps : 0 < ps) {n : Nat} : pageCount ps n = n / ps ↔ ps ∣ n := by
  constructor
  · intro h
    by_contra hdvd
    have hmod : 0 < n % ps := Nat.pos_of_ne_zero (hdvd ∘ Nat.dvd_of_mod_eq_zero)
    have hlt : n / ps < pageCount ps n := by
      rw [lt_pageCount_iff hps]
      have hsplit := Nat.div_add_mod' n ps
      omega
    omega
  · exact pageCount_of_dvd hps

theorem pageCount_mono (hps : 0 < ps) {m n : Nat} (h : m ≤ n) : pageCount ps m ≤ pageCount ps n :=
  Nat.div_le_div_right (by omega)

/-- A non-empty range of bytes lies on consecutive pages. -/
theorem pages_range (hps : 0 < ps) {a b : Nat} (hab : a < b) {os : List Nat}
    (hos : ∀ x, x ∈ os ↔ a ≤ x ∧ x < b) : pages ps os = Finset.Ico (a / ps) (pageCount ps b) := by
  ext q
  rw [mem_pages, Finset.mem_Ico, lt_pageCount_iff hps]
  constructor
  · intro ⟨x, hx, hq⟩
    obtain ⟨hax, hxb⟩ := (hos x).mp hx
    subst hq
    exact ⟨Nat.div_le_div_right hax, Nat.lt_of_le_of_lt (Nat.div_mul_le_self x ps) hxb⟩
  · intro ⟨haq, hqb⟩
    -- The first byte of the range that the page may hold.
    refine ⟨max a (q * ps), (hos _).mpr ⟨Nat.le_max_left _ _, Nat.max_lt.mpr ⟨hab, hqb⟩⟩, ?_⟩
    have hlast : a < (q + 1) * ps := (Nat.div_lt_iff_lt_mul hps).mp (by omega)
    rw [Nat.div_eq_iff hps]
    rw [Nat.succ_mul] at hlast
    omega

/-! ## The pages of a loop -/

open Loop

/-- A stride of a page or more meets a new page each time. -/
theorem card_pages_strides (hps : 0 < ps) {stride : Nat} (h : ps ≤ stride) (stop : Nat) :
    (pages ps (strides stride stop)).card = pageCount stride stop := by
  have hnodup : ((strides stride stop).map (· / ps)).Nodup := by
    rw [strides, List.map_map]
    apply List.Nodup.map_on _ List.nodup_range
    have hlt {i j : Nat} (hij : i < j) : i * stride / ps < j * stride / ps := by
      have hnext : i * stride + ps ≤ j * stride := by
        have hmul := Nat.mul_le_mul_right stride hij
        rw [Nat.succ_mul] at hmul
        omega
      have hdiv := Nat.div_le_div_right (c := ps) hnext
      rw [Nat.add_div_right _ hps] at hdiv
      omega
    intro i _ j _ heq
    simp only [Function.comp_apply] at heq
    rcases Nat.lt_trichotomy i j with hij | hij | hij
    · exact absurd heq (Nat.ne_of_lt (hlt hij))
    · exact hij
    · exact absurd heq.symm (Nat.ne_of_lt (hlt hij))
  rw [pages, List.toFinset_card_of_nodup hnodup, List.length_map, strides_length, pageCount]

/-- A stride of at most a page leaves no page of a whole number of pages out. -/
theorem pages_strides (hps : 0 < ps) {stride stop : Nat} (hstride : 0 < stride) (h : stride ≤ ps)
    (hstop : ps ∣ stop) : pages ps (strides stride stop) = Finset.range (stop / ps) := by
  ext q
  obtain ⟨n, rfl⟩ := hstop
  rw [mem_pages, Finset.mem_range, Nat.mul_div_cancel_left n hps]
  constructor
  · intro ⟨x, hx, hq⟩
    rw [← hq, Nat.div_lt_iff_lt_mul hps, Nat.mul_comm]
    exact ((mem_strides hstride).mp hx).1
  · intro hq
    -- The first multiple of the stride on the page.
    have hlow := Nat.div_mul_le_self (q * ps + stride - 1) stride
    have hhigh := Nat.lt_div_mul_add hstride (a := q * ps + stride - 1)
    have hend := Nat.mul_le_mul_right ps hq
    rw [Nat.succ_mul] at hend
    rw [Nat.mul_comm ps n]
    refine ⟨(q * ps + stride - 1) / stride * stride,
      (mem_strides hstride).mpr ⟨by omega, Nat.dvd_mul_left _ _⟩, ?_⟩
    rw [Nat.div_eq_iff hps]
    omega

theorem pages_strides_self (hps : 0 < ps) (stop : Nat) :
    pages ps (strides ps stop) = Finset.range (pageCount ps stop) := by
  ext q
  rw [mem_pages, Finset.mem_range, lt_pageCount_iff hps]
  constructor
  · intro ⟨x, hx, hq⟩
    obtain ⟨hlt, hdvd⟩ := (mem_strides hps).mp hx
    rwa [← hq, Nat.div_mul_cancel hdvd]
  · intro hq
    exact ⟨q * ps, (mem_strides hps).mpr ⟨hq, Nat.dvd_mul_left ps q⟩, Nat.mul_div_cancel q hps⟩

/-! ## Memory that has been written -/

theorem Mapping.minflt_loads_owned (m : Mapping) {os : List Nat}
    (h : pages ps os ⊆ owned m.events) : (m.loads k ps os).minflt = m.minflt := by
  rw [minflt_loads, Finset.sdiff_eq_empty_iff_subset.mpr (h.trans (owned_subset_mapped _)),
    Finset.card_empty, Nat.add_zero]

theorem Mapping.minflt_stores_owned (m : Mapping) (b : UInt8) {os : List Nat}
    (h : pages ps os ⊆ owned m.events) : (m.stores k ps b os).minflt = m.minflt := by
  rw [minflt_stores, Finset.sdiff_eq_empty_iff_subset.mpr h, Finset.card_empty, Nat.add_zero]

end OsLabs.Paging
