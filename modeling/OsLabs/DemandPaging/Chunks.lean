import OsLabs.Core.Loop
import OsLabs.Core.Paging
import Mathlib.Algebra.BigOperators.Group.Finset.Basic
import Mathlib.Algebra.BigOperators.Intervals

/-! # The demand paging lab

`main` reserves 100 MiB, reads the first byte of each chunk of 10 MiB, writes the chunks
one after the other, reads one byte of each page and releases the memory. Only faults on
the mapping are counted. The order in which `memset` stores its bytes is left open.
-/

namespace OsLabs.DemandPaging

open Paging Loop

def mib : Nat := 1024 * 1024

def totalMib : Nat := 100

def chunkMib : Nat := 10

def totalBytes : Nat := totalMib * mib

def chunkBytes : Nat := chunkMib * mib

/-- The stores of a `memset` of `n` bytes from `offset` on, in some order. -/
abbrev StoreOrder (offset n : Nat) : Type :=
  { os : List Nat // ∀ x, x ∈ os ↔ offset ≤ x ∧ x < offset + n }

def StoreOrder.upwards (offset n : Nat) : StoreOrder offset n :=
  ⟨List.range' offset n, fun x => by simp [List.mem_range'_1]⟩

section Program

variable (k : Kernel) (ps : Nat)

/-- `checksum += mem[offset]` -/
def addByte (t : BitVec 64 × Mapping) (offset : Nat) : BitVec 64 × Mapping :=
  (t.1 + BitVec.ofNat 64 (t.2.bytes offset).toNat, t.2.load k ps offset)

/-- Phase 2. -/
def readPhase (fuel : Nat) (m : Mapping) : Option (BitVec 64 × Mapping) :=
  strideRun (addByte k ps) chunkBytes totalBytes fuel (0, m)

variable (orders : ∀ i, StoreOrder (i * chunkBytes) chunkBytes)

/-- Phase 3 up to chunk `i`: `memset(mem + offset, (uint8_t)(i + 1), CHUNK_BYTES)`. -/
def writePhase (m : Mapping) : Nat → Mapping
  | 0 => m
  | i + 1 => (writePhase m i).stores k ps (UInt8.ofNat (i + 1)) (orders i)

/-- Phase 4. -/
def warmScan (fuel : Nat) (m : Mapping) : Option (BitVec 64 × Mapping) :=
  strideRun (addByte k ps) ps totalBytes fuel (0, m)

structure Phases where
  pagesPerChunk : Nat
  totalPages : Nat
  readChecksum : BitVec 64
  afterRead : Mapping
  /-- After this many chunks. -/
  written : Nat → Mapping
  warmChecksum : BitVec 64
  afterScan : Mapping

def chunks : Nat := totalMib / chunkMib

/-- The `mmap` succeeds; without the mapping `main` prints an error and returns. -/
def main (fuel minflt : Nat) : Option Phases := do
  let (readChecksum, afterRead) ← readPhase k ps fuel (.mmap minflt)
  let written := writePhase k ps orders afterRead
  let (warmChecksum, afterScan) ← warmScan k ps fuel (written chunks)
  return {
    pagesPerChunk := chunkBytes / ps
    totalPages := totalBytes / ps
    readChecksum, afterRead, written, warmChecksum, afterScan }

def Phases.chunkFaults (r : Phases) (i : Nat) : Nat :=
  (r.written (i + 1)).minflt - (r.written i).minflt

end Program

variable {k : Kernel} {ps : Nat} {orders : ∀ i, StoreOrder (i * chunkBytes) chunkBytes}

theorem chunkBytes_pos : 0 < chunkBytes := by decide

theorem chunks_mul_chunkBytes : chunks * chunkBytes = totalBytes := by decide

theorem foldl_addByte (os : List Nat) (c : BitVec 64) (m : Mapping) :
    os.foldl (addByte k ps) (c, m) =
      (c + BitVec.ofNat 64 (os.map fun o => (m.bytes o).toNat).sum, m.loads k ps os) := by
  induction os generalizing c m with
  | nil => simp
  | cons o os ih =>
      have hbytes : (m.load k ps o).bytes = m.bytes := rfl
      rw [List.foldl_cons, addByte, ih, hbytes, Mapping.loads_cons, List.map_cons, List.sum_cons,
        BitVec.ofNat_add, BitVec.add_assoc]

/-! ## The write phase -/

theorem pages_order (hps : 0 < ps) {offset n : Nat} (hn : 0 < n) (order : StoreOrder offset n) :
    pages ps order = Finset.Ico (offset / ps) (pageCount ps (offset + n)) :=
  pages_range hps (by omega) order.2

theorem div_le_pageCount (hps : 0 < ps) (n : Nat) : n / ps ≤ pageCount ps n :=
  Nat.div_le_div_right (by omega)

theorem owned_writePhase (hps : 0 < ps) (m : Mapping) (hm : owned m.events = ∅) (i : Nat) :
    owned (writePhase k ps orders m i).events = Finset.range (pageCount ps (i * chunkBytes)) := by
  induction i with
  | zero => simp [writePhase, hm, pageCount, Nat.div_eq_of_lt (show ps - 1 < ps by omega)]
  | succ i ih =>
      rw [writePhase, Mapping.owned_stores, ih, pages_order hps chunkBytes_pos, Nat.succ_mul]
      ext q
      have hfirst := div_le_pageCount hps (i * chunkBytes)
      have hlast := pageCount_mono hps (Nat.le_add_right (i * chunkBytes) chunkBytes)
      simp only [Finset.mem_union, Finset.mem_Ico, Finset.mem_range]
      omega

theorem minflt_writePhase_succ (hps : 0 < ps) (m : Mapping) (hm : owned m.events = ∅) (i : Nat) :
    (writePhase k ps orders m (i + 1)).minflt = (writePhase k ps orders m i).minflt +
      (pageCount ps ((i + 1) * chunkBytes) - pageCount ps (i * chunkBytes)) := by
  rw [writePhase, Mapping.minflt_stores, owned_writePhase hps m hm, pages_order hps chunkBytes_pos,
    Nat.succ_mul]
  have hfirst := div_le_pageCount hps (i * chunkBytes)
  have hnew : Finset.Ico (i * chunkBytes / ps) (pageCount ps (i * chunkBytes + chunkBytes)) \
      Finset.range (pageCount ps (i * chunkBytes)) =
      Finset.Ico (pageCount ps (i * chunkBytes)) (pageCount ps (i * chunkBytes + chunkBytes)) := by
    ext q
    simp only [Finset.mem_sdiff, Finset.mem_Ico, Finset.mem_range]
    omega
  rw [hnew, Nat.card_Ico]

theorem bytes_writePhase (m : Mapping) (n : Nat) {x : Nat} (hx : x < n * chunkBytes) :
    (writePhase k ps orders m n).bytes x = UInt8.ofNat (x / chunkBytes + 1) := by
  induction n with
  | zero => simp at hx
  | succ n ih =>
      rw [writePhase, Mapping.bytes_stores]
      split
      next hmem =>
        obtain ⟨hlow, hhigh⟩ := ((orders n).2 x).mp hmem
        have hchunk : x / chunkBytes = n := by
          rw [Nat.div_eq_iff chunkBytes_pos]
          omega
        rw [hchunk]
      next hmem =>
        have hbelow : x < n * chunkBytes := by
          rw [Nat.succ_mul] at hx
          by_contra hge
          exact hmem (((orders n).2 x).mpr ⟨by omega, by omega⟩)
        exact ih hbelow

/-! ## The scans -/

theorem readPhase_eq {fuel : Nat} (hfuel : totalBytes < fuel) (minflt : Nat) :
    readPhase k ps fuel (.mmap minflt) =
      some (0, (Mapping.mmap minflt).loads k ps (strides chunkBytes totalBytes)) := by
  rw [readPhase, strideRun_eq _ chunkBytes_pos (by decide) hfuel, foldl_addByte]
  simp [Mapping.mmap]

theorem sum_div_add_one {m n : Nat} (hn : 0 < n) :
    ∑ p ∈ Finset.range (m * n), (p / n + 1) = n * ∑ i ∈ Finset.range m, (i + 1) := by
  induction m with
  | zero => simp
  | succ m ih =>
      have hchunk : ∀ t ∈ Finset.range n, (m * n + t) / n + 1 = m + 1 := by
        intro t ht
        rw [Nat.mul_comm, Nat.mul_add_div hn, Nat.div_eq_of_lt (Finset.mem_range.mp ht),
          Nat.add_zero]
      rw [Nat.succ_mul, Finset.sum_range_add, ih, Finset.sum_const_nat hchunk, Finset.card_range,
        Finset.sum_range_succ, ← Nat.mul_add]

theorem sum_warmScan (hps : 0 < ps) (m : Mapping) :
    ((strides ps totalBytes).map fun o =>
        ((writePhase k ps orders m chunks).bytes o).toNat).sum =
      ∑ p ∈ Finset.range (pageCount ps totalBytes), (p * ps / chunkBytes + 1) := by
  rw [strides, List.map_map]
  show _ = ((List.range (pageCount ps totalBytes)).map fun p => p * ps / chunkBytes + 1).sum
  congr 1
  apply List.map_congr_left
  intro p hp
  have hlt : p * ps < chunks * chunkBytes :=
    chunks_mul_chunkBytes ▸ (lt_pageCount_iff hps).mp (List.mem_range.mp hp)
  have hsmall : p * ps / chunkBytes < chunks := (Nat.div_lt_iff_lt_mul chunkBytes_pos).mpr hlt
  have hchunks : chunks = 10 := by decide
  rw [Function.comp_apply, bytes_writePhase m chunks hlt, UInt8.toNat_ofNat', Nat.mod_eq_of_lt (by omega)]

/-! ## The program -/

/-- What the remarks the program prints promise, and what its checksums are. -/
structure Phases.Observed (ps minflt : Nat) (r : Phases) : Prop where
  /-- The read phase takes a fault for each page that holds the first byte of a chunk, ten if a
  page is no larger than a chunk, and leaves the process without a page of its own. -/
  read : r.afterRead.minflt = minflt + (pages ps (strides chunkBytes totalBytes)).card
  readTen : ps ≤ chunkBytes → r.afterRead.minflt = minflt + chunks
  readOwned : owned r.afterRead.events = ∅
  readChecksum : r.readChecksum = 0
  /-- A chunk faults on the pages that no chunk before it reaches. -/
  chunk : ∀ i, r.chunkFaults i =
    pageCount ps ((i + 1) * chunkBytes) - pageCount ps (i * chunkBytes)
  /-- "Expect about %zu new minor faults for this chunk" -/
  expected : (∀ i < chunks, r.chunkFaults i = r.pagesPerChunk) ↔ ps ∣ chunkBytes
  owned : owned (r.written chunks).events = Finset.range (pageCount ps totalBytes)
  /-- "pages are already mapped" -/
  warm : r.afterScan.minflt = (r.written chunks).minflt
  warmChecksum : r.warmChecksum =
    BitVec.ofNat 64 (∑ p ∈ Finset.range (pageCount ps totalBytes), (p * ps / chunkBytes + 1))
  warmChecksumWhole : ps ∣ chunkBytes → r.warmChecksum = BitVec.ofNat 64 (55 * r.pagesPerChunk)

theorem sum_chunks (hps : 0 < ps) (h : ps ∣ chunkBytes) :
    ∑ p ∈ Finset.range (pageCount ps totalBytes), (p * ps / chunkBytes + 1) =
      55 * (chunkBytes / ps) := by
  obtain ⟨n, hn⟩ := h
  have hpos : 0 < n := by
    rcases Nat.eq_zero_or_pos n with rfl | hpos
    · exact absurd hn (Nat.ne_of_gt chunkBytes_pos)
    · exact hpos
  have htotal : pageCount ps totalBytes = chunks * n := by
    rw [← chunks_mul_chunkBytes, hn, Nat.mul_left_comm, pageCount_of_dvd hps (Nat.dvd_mul_right _ _),
      Nat.mul_div_cancel_left _ hps]
  have hdiv (p : Nat) : p * ps / chunkBytes = p / n := by
    rw [hn, Nat.mul_comm, Nat.mul_div_mul_left _ _ hps]
  simp only [hdiv, htotal, sum_div_add_one hpos]
  rw [hn, Nat.mul_div_cancel_left _ hps, Nat.mul_comm]
  rfl

theorem pageCount_zero (hps : 0 < ps) : pageCount ps 0 = 0 := Nat.div_eq_of_lt (by omega)

/-- The faults of every chunk are the printed pages per chunk only where no page is cut. -/
theorem chunks_even_iff (hps : 0 < ps) :
    (∀ i < chunks, pageCount ps ((i + 1) * chunkBytes) - pageCount ps (i * chunkBytes) =
        chunkBytes / ps) ↔ ps ∣ chunkBytes := by
  constructor
  · intro h
    have hfirst := h 0 (by decide)
    rw [Nat.zero_add, Nat.one_mul, Nat.zero_mul, pageCount_zero hps, Nat.sub_zero] at hfirst
    exact (pageCount_eq_div_iff hps).mp hfirst
  · intro h i _
    rw [pageCount_of_dvd hps (h.mul_left _), pageCount_of_dvd hps (h.mul_left _),
      Nat.mul_div_assoc _ h, Nat.mul_div_assoc _ h, Nat.succ_mul, Nat.add_sub_cancel_left]

theorem warmScan_eq (hps : 0 < ps) (hlong : ps < 2 ^ 63) {fuel : Nat} (hfuel : totalBytes < fuel)
    (m : Mapping) :
    warmScan k ps fuel (writePhase k ps orders m chunks) =
      some (BitVec.ofNat 64 (∑ p ∈ Finset.range (pageCount ps totalBytes), (p * ps / chunkBytes + 1)),
        (writePhase k ps orders m chunks).loads k ps (strides ps totalBytes)) := by
  have hfit : totalBytes + ps ≤ 2 ^ 64 := by
    have htotal : totalBytes ≤ 2 ^ 63 := by decide
    omega
  rw [warmScan, strideRun_eq _ hps hfit hfuel, foldl_addByte, sum_warmScan hps]
  congr 2
  exact BitVec.zero_add _

/-- For any page size and any order of the stores of `memset`, the program runs to its end
and takes the faults it announces; the announced number for a chunk is exact where a chunk
is a whole number of pages. -/
theorem demand_paging_faults (k : Kernel) (orders : ∀ i, StoreOrder (i * chunkBytes) chunkBytes)
    (hps : 0 < ps) (hlong : ps < 2 ^ 63) {fuel : Nat} (hfuel : totalBytes < fuel) (minflt : Nat) :
    ∃ r, main k ps orders fuel minflt = some r ∧ r.Observed ps minflt := by
  let m := (Mapping.mmap minflt).loads k ps (strides chunkBytes totalBytes)
  have hm : owned m.events = ∅ := Mapping.owned_loads _ _
  have howned := @owned_writePhase k ps orders hps m hm
  have hmain : main k ps orders fuel minflt = some
      { pagesPerChunk := chunkBytes / ps
        totalPages := totalBytes / ps
        readChecksum := 0
        afterRead := m
        written := writePhase k ps orders m
        warmChecksum := BitVec.ofNat 64
          (∑ p ∈ Finset.range (pageCount ps totalBytes), (p * ps / chunkBytes + 1))
        afterScan := (writePhase k ps orders m chunks).loads k ps (strides ps totalBytes) } := by
    simp only [main, readPhase_eq hfuel, warmScan_eq hps hlong hfuel, Option.bind_eq_bind,
      Option.bind_some]
    rfl
  have hchunk (i : Nat) : (writePhase k ps orders m (i + 1)).minflt -
      (writePhase k ps orders m i).minflt =
      pageCount ps ((i + 1) * chunkBytes) - pageCount ps (i * chunkBytes) := by
    rw [minflt_writePhase_succ hps m hm, Nat.add_sub_cancel_left]
  have hfirst : m.minflt = minflt + (pages ps (strides chunkBytes totalBytes)).card := by
    rw [Mapping.minflt_loads]
    simp [Mapping.mmap, mapped]
  refine ⟨_, hmain, ?_⟩
  constructor
  · exact hfirst
  · intro h
    rw [hfirst, card_pages_strides hps h]
    rfl
  · exact hm
  · rfl
  · exact hchunk
  · simp only [Phases.chunkFaults, hchunk]
    exact chunks_even_iff hps
  · rw [← chunks_mul_chunkBytes]
    exact howned chunks
  · apply Mapping.minflt_loads_owned
    rw [pages_strides_self hps, howned, chunks_mul_chunkBytes]
  · rfl
  · intro h
    rw [sum_chunks hps h]

theorem demand_paging_faults_4096 :
    ∃ r, main .tables 4096 (fun i => .upwards (i * chunkBytes) chunkBytes) (totalBytes + 1) 0 = some r ∧
      r.Observed 4096 0 :=
  demand_paging_faults .tables (fun i => .upwards (i * chunkBytes) chunkBytes) (by decide)
    (by decide) (Nat.lt_succ_self _) 0

end OsLabs.DemandPaging
