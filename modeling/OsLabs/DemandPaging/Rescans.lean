import OsLabs.DemandPaging.Chunks

/-! # Memory touched again

The other labs count the faults of one mapping that is scanned, set twice, released with
`madvise` and set again, or set by a forked child. Sizes are arguments; `mmap` succeeds.
-/

namespace OsLabs.DemandPaging

open Paging Loop

section Programs

variable (k : Kernel) (ps : Nat)

/-- `sum += ((char *)mem)[i]` -/
def addChar (t : Int × Mapping) (offset : Nat) : Int × Mapping :=
  (t.1 + (t.2.bytes offset).toInt8.toInt, t.2.load k ps offset)

/-! `ex_page_fault_lifecycle` -/

structure Lifecycle where
  mmapFaults : Int
  readFaults : Int
  sum : Int
  writeFaults : Int
  expected : Int
  rescanFaults : Int
  released : Mapping

def exPageFaultLifecycle (sz : Nat) (first second : StoreOrder 0 sz) (fuel minflt : Nat) :
    Option Lifecycle := do
  let fresh := Mapping.mmap minflt
  let (sum, read) ← strideRun (addChar k ps) 4096 sz fuel (0, fresh)
  let written := read.stores k ps 0xBB first
  let rescanned := written.stores k ps 0xCC second
  return {
    mmapFaults := fresh.minflt - minflt
    readFaults := read.minflt - fresh.minflt
    sum
    writeFaults := written.minflt - read.minflt
    expected := (sz / 4096 : Nat)
    rescanFaults := rescanned.minflt - written.minflt
    released := rescanned.dontneed }

/-! `demo_fault_counting` and `demo_madvise_dontneed` -/

structure FaultCounting where
  mmapFaults : Int
  memsetFaults : Int
  pagesTouched : Int
  secondFaults : Int

def demoFaultCounting (sz : Nat) (first second : StoreOrder 0 sz) (minflt : Nat) : FaultCounting :=
  let fresh := Mapping.mmap minflt
  let written := fresh.stores k ps 0xAB first
  let rewritten := written.stores k ps 0xCD second
  { mmapFaults := fresh.minflt - minflt
    memsetFaults := written.minflt - fresh.minflt
    pagesTouched := (sz / ps : Nat)
    secondFaults := rewritten.minflt - written.minflt }

/-- The faults of `q[i] = 0` for each page, and the mapping then. -/
def demoMadviseDontneed (sz : Nat) (order : StoreOrder 0 sz) (fuel minflt : Nat) :
    Option (Int × Mapping) := do
  let released := ((Mapping.mmap minflt).stores k ps 0xAB order).dontneed
  let touched ← strideRun (fun m i => m.store k ps 0 i) ps sz fuel released
  return ((touched.minflt - released.minflt : Int), touched)

/-! The copy-on-write phase of `main` in the lab on user page tables -/

structure ForkFaults where
  /-- "Child: faults after fork (before write)" -/
  afterFork : Int
  /-- "Child: faults after writing" -/
  afterWrite : Int
  parent : Mapping
  child : Mapping

/-- `get_faults` counts the faults of the process it runs in. The child takes `other` faults
outside of the mapping before its first count. -/
def forkFaults (sz : Nat) (order childOrder : StoreOrder 0 sz) (minflt other : Nat) : ForkFaults :=
  let parent := (Mapping.mmap minflt).stores k ps 0xAA order
  let forked := parent.child other
  let child := forked.stores k ps 0xBB childOrder
  { afterFork := forked.minflt - parent.minflt
    afterWrite := child.minflt - forked.minflt
    parent, child }

end Programs

variable {k : Kernel} {ps sz : Nat}

theorem foldl_addChar_zero (os : List Nat) (c : Int) (m : Mapping) (hm : ∀ x, m.bytes x = 0) :
    os.foldl (addChar k ps) (c, m) = (c, m.loads k ps os) := by
  induction os generalizing m with
  | nil => rfl
  | cons o os ih =>
      have hzero : (0 : UInt8).toInt8.toInt = 0 := rfl
      rw [List.foldl_cons, addChar, hm, hzero, Int.add_zero]
      exact ih (m.load k ps o) hm

theorem pages_whole (hps : 0 < ps) (hsz : 0 < sz) (order : StoreOrder 0 sz) :
    pages ps order = Finset.range (pageCount ps sz) := by
  rw [pages_order hps hsz, Nat.zero_div, Nat.zero_add, Finset.range_eq_Ico]

theorem minflt_memset (hps : 0 < ps) (hsz : 0 < sz) (m : Mapping) (b : UInt8)
    (order : StoreOrder 0 sz) (hm : owned m.events = ∅) :
    (m.stores k ps b order).minflt = m.minflt + pageCount ps sz := by
  rw [Mapping.minflt_stores, pages_whole hps hsz, hm, Finset.sdiff_empty, Finset.card_range]

theorem minflt_memset_again (hps : 0 < ps) (hsz : 0 < sz) (m : Mapping) (b b' : UInt8)
    (first second : StoreOrder 0 sz) :
    ((m.stores k ps b first).stores k ps b' second).minflt = (m.stores k ps b first).minflt := by
  apply Mapping.minflt_stores_owned
  rw [Mapping.owned_stores, pages_whole hps hsz, pages_whole hps hsz]
  exact Finset.subset_union_left

structure Lifecycle.Observed (ps sz : Nat) (r : Lifecycle) : Prop where
  mmap : r.mmapFaults = 0
  read : r.readFaults = (pages ps (strides 4096 sz)).card
  sum : r.sum = 0
  write : r.writeFaults = pageCount ps sz
  rescan : r.rescanFaults = 0
  released : mapped r.released.events = ∅ ∧ ∀ x, r.released.bytes x = 0

theorem exPageFaultLifecycle_eq (hfit : sz + 4096 ≤ 2 ^ 64) (first second : StoreOrder 0 sz)
    {fuel : Nat} (hfuel : sz < fuel) (minflt : Nat) :
    let read := (Mapping.mmap minflt).loads k ps (strides 4096 sz)
    let written := read.stores k ps 0xBB first
    let rescanned := written.stores k ps 0xCC second
    exPageFaultLifecycle k ps sz first second fuel minflt = some
      { mmapFaults := (Mapping.mmap minflt).minflt - minflt
        readFaults := read.minflt - (Mapping.mmap minflt).minflt
        sum := 0
        writeFaults := written.minflt - read.minflt
        expected := (sz / 4096 : Nat)
        rescanFaults := rescanned.minflt - written.minflt
        released := rescanned.dontneed } := by
  intro read written rescanned
  rw [exPageFaultLifecycle, strideRun_eq _ (by decide) hfit hfuel,
    foldl_addChar_zero _ _ _ fun _ => rfl]
  rfl

theorem div_eq_div_iff_eq {a b n : Nat} (hn : 0 < n) (ha : a ∣ n) (hb : b ∣ n) :
    n / a = n / b ↔ a = b := by
  constructor
  · intro h
    have hpos : 0 < n / b := Nat.div_pos (Nat.le_of_dvd hn hb) (Nat.pos_of_dvd_of_pos hb hn)
    have hmul : a * (n / b) = b * (n / b) := by
      rw [Nat.mul_div_cancel' hb, ← h, Nat.mul_div_cancel' ha]
    exact Nat.eq_of_mul_eq_mul_right hpos hmul
  · intro h
    rw [h]

/-- In the lab on paging the second `memset` takes no fault, the first as many as the number
printed beside it where the pages divide the size. After `madvise` the bytes are gone, and
setting one byte of each page takes all the faults again. -/
theorem retouch_faults (k : Kernel) (hps : 0 < ps) (hsz : 0 < sz) (hfit : sz + ps ≤ 2 ^ 64)
    (first second : StoreOrder 0 sz) {fuel : Nat} (hfuel : sz < fuel) (minflt : Nat) :
    ((demoFaultCounting k ps sz first second minflt).memsetFaults = pageCount ps sz ∧
      ((demoFaultCounting k ps sz first second minflt).memsetFaults =
        (demoFaultCounting k ps sz first second minflt).pagesTouched ↔ ps ∣ sz) ∧
      (demoFaultCounting k ps sz first second minflt).secondFaults = 0) ∧
    ∃ m, demoMadviseDontneed k ps sz first fuel minflt = some ((pageCount ps sz : Int), m) ∧
      (∀ x, m.bytes x = 0) ∧ owned m.events = Finset.range (pageCount ps sz) := by
  have hmemset : ((Mapping.mmap minflt).stores k ps 0xAB first).minflt =
      minflt + pageCount ps sz :=
    minflt_memset hps hsz (.mmap minflt) 0xAB first rfl
  have hagain := @minflt_memset_again k ps sz hps hsz (.mmap minflt) 0xAB 0xCD first second
  have hcounted : (demoFaultCounting k ps sz first second minflt).memsetFaults =
      pageCount ps sz := by
    show ((Mapping.stores k ps (.mmap minflt) 0xAB first).minflt : Int) - minflt = _
    omega
  refine ⟨⟨hcounted, ?_, ?_⟩, ?_⟩
  · rw [hcounted, ← pageCount_eq_div_iff hps]
    exact Int.natCast_inj
  · exact Int.sub_eq_zero.mpr (congrArg Nat.cast hagain)
  · let released := ((Mapping.mmap minflt).stores k ps 0xAB first).dontneed
    let touched := released.stores k ps 0 (strides ps sz)
    have hfaults : touched.minflt = released.minflt + pageCount ps sz := by
      rw [Mapping.minflt_stores, pages_strides_self hps,
        show owned released.events = ∅ from rfl, Finset.sdiff_empty, Finset.card_range]
    refine ⟨touched, ?_, ?_, ?_⟩
    · rw [demoMadviseDontneed, Option.bind_eq_bind, strideRun_eq _ hps hfit hfuel, Option.bind_some]
      congr 2
      show (touched.minflt : Int) - released.minflt = _
      omega
    · intro x
      rw [Mapping.bytes_stores]
      exact ite_self _
    · rw [Mapping.owned_stores, pages_strides_self hps,
        show owned released.events = ∅ from rfl, Finset.union_empty]

theorem retouch_faults_8_mib :
    (demoFaultCounting .tables 4096 (8 * mib) (.upwards 0 _) (.upwards 0 _) 0).memsetFaults =
      pageCount 4096 (8 * mib) :=
  (retouch_faults .tables (by decide) (by decide) (by decide) (.upwards 0 _) (.upwards 0 _)
    (Nat.lt_succ_self _) 0).1.1

/-- The child takes a fault for each page it writes, and the parent's bytes stay. What it
prints before is its own count less that of the parent. -/
theorem fork_faults (k : Kernel) (hps : 0 < ps) (hsz : 0 < sz)
    (order childOrder : StoreOrder 0 sz) (minflt other : Nat) :
    (forkFaults k ps sz order childOrder minflt other).afterWrite = pageCount ps sz ∧
      (forkFaults k ps sz order childOrder minflt other).afterFork =
        other - (minflt + pageCount ps sz) ∧
      (0 ≤ (forkFaults k ps sz order childOrder minflt other).afterFork ↔
        minflt + pageCount ps sz ≤ other) ∧
      ∀ x < sz, (forkFaults k ps sz order childOrder minflt other).parent.bytes x = 0xAA ∧
        (forkFaults k ps sz order childOrder minflt other).child.bytes x = 0xBB := by
  have hparent : ((Mapping.mmap minflt).stores k ps 0xAA order).minflt =
      minflt + pageCount ps sz :=
    minflt_memset hps hsz (.mmap minflt) 0xAA order rfl
  have hafter : (forkFaults k ps sz order childOrder minflt other).afterFork =
      other - (minflt + pageCount ps sz) := by
    simp only [forkFaults, hparent, Mapping.child]
    omega
  refine ⟨?_, hafter, ?_, ?_⟩
  · simp only [forkFaults]
    rw [minflt_memset hps hsz (Mapping.child _ other) 0xBB childOrder rfl]
    omega
  · rw [hafter]
    omega
  · intro x hx
    simp only [forkFaults, Mapping.bytes_stores]
    rw [if_pos ((order.2 x).mpr ⟨Nat.zero_le x, by omega⟩),
      if_pos ((childOrder.2 x).mpr ⟨Nat.zero_le x, by omega⟩)]
    exact ⟨rfl, rfl⟩

/-- A parent that has just set 32 MiB: the child announces -8192 faults. -/
theorem fork_faults_32_mib :
    (forkFaults .tables 4096 (32 * mib) (.upwards 0 _) (.upwards 0 _) 0 0).afterFork = -8192 :=
  (fork_faults .tables (by decide) (by decide) (.upwards 0 _) (.upwards 0 _) 0 0).2.1.trans
    (by decide)

end OsLabs.DemandPaging
