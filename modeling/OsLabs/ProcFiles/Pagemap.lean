import Mathlib.Tactic.Ring

/-! # Physical addresses from the page map

`virt_to_phys` reads the entry of a page in `/proc/self/pagemap` and puts the
frame number and the offset together. Its result 0 stands for an address that is
not known.
-/

namespace OsLabs.ProcFiles

/-- `pread` of 8 bytes at an offset; `none` when it does not return them. -/
abbrev Pread : Type := BitVec 64 → Option (BitVec 64)

/-- `pagemap` is `none` when the file cannot be opened. -/
def virtToPhys (pagemap : Option Pread) (pageSize addr : BitVec 64) : BitVec 64 :=
  match pagemap with
  | none => 0
  | some pread =>
      let vpn := addr / pageSize
      match pread (vpn * 8) with
      | none => 0
      | some entry =>
          if entry &&& (1#64 <<< 63) = 0 then 0
          else
            let pfn := entry &&& ((1#64 <<< 55) - 1)
            pfn * pageSize + addr % pageSize

structure RegionLine where
  name : String
  va : BitVec 64
  pa : BitVec 64
  note : String
  deriving DecidableEq

def regionLine (pagemap : Option Pread) (pageSize : BitVec 64) (name : String) (addr : BitVec 64) :
    RegionLine :=
  let pa := virtToPhys pagemap pageSize addr
  ⟨name, addr, pa, if pa ≠ 0 then "" else "(need sudo or CAP_SYS_ADMIN)"⟩

/-- The addresses are those of the two variables, the mapping and the function. -/
def demoPagemap (pagemap : Option Pread) (pageSize : BitVec 64) (stack heap mmap code : BitVec 64) :
    List RegionLine :=
  [regionLine pagemap pageSize "stack" stack, regionLine pagemap pageSize "heap" heap,
    regionLine pagemap pageSize "mmap" mmap, regionLine pagemap pageSize "code" code]

/-! ## Entries -/

def present (entry : BitVec 64) : Bool := entry.getLsbD 63

/-- Bits 0 to 54. -/
def frameNumber (entry : BitVec 64) : Nat := (entry.extractLsb' 0 55).toNat

/-- The entry tells the frame of the page. -/
def Discloses (entry : BitVec 64) : Prop := present entry = true ∧ frameNumber entry ≠ 0

instance (entry : BitVec 64) : Decidable (Discloses entry) :=
  inferInstanceAs (Decidable (present entry = true ∧ frameNumber entry ≠ 0))

theorem and_presentMask (entry : BitVec 64) :
    entry &&& (1#64 <<< 63) = 0 ↔ present entry = false := by
  have hmask : (1#64 <<< 63) = BitVec.twoPow 64 63 := by decide
  rw [hmask, BitVec.and_twoPow, present]
  cases entry.getLsbD 63 <;> decide

theorem and_frameMask (entry : BitVec 64) :
    (entry &&& ((1#64 <<< 55) - 1)).toNat = frameNumber entry := by
  have hmask : ((1#64 <<< 55) - 1).toNat = 2 ^ 55 - 1 := by decide
  rw [BitVec.toNat_and, hmask, Nat.and_two_pow_sub_one_eq_mod, frameNumber, BitVec.extractLsb'_toNat,
    Nat.shiftRight_zero]

/-! ## The address -/

section Address

variable {pread : Pread} {k : Nat} {addr entry : BitVec 64}

theorem toNat_pageSize (hk : k < 64) : (BitVec.twoPow 64 k).toNat = 2 ^ k := by
  rw [BitVec.toNat_twoPow, Nat.mod_eq_of_lt (Nat.pow_lt_pow_right (by decide) hk)]

/-- A frame below the end of the address space has room for any offset. -/
theorem frame_add_offset_lt (hk : k < 64) {pfn : Nat} (h : pfn * 2 ^ k < 2 ^ 64) (off : Nat) :
    pfn * 2 ^ k + off % 2 ^ k < 2 ^ 64 := by
  have hsplit : 2 ^ 64 = 2 ^ (64 - k) * 2 ^ k := by
    rw [← Nat.pow_add]
    congr 1
    omega
  have hoff : off % 2 ^ k < 2 ^ k := Nat.mod_lt _ (Nat.two_pow_pos k)
  have hframe : pfn < 2 ^ (64 - k) := by
    rw [hsplit] at h
    exact Nat.lt_of_mul_lt_mul_right h
  calc pfn * 2 ^ k + off % 2 ^ k < pfn * 2 ^ k + 2 ^ k := by omega
    _ = (pfn + 1) * 2 ^ k := by ring
    _ ≤ 2 ^ (64 - k) * 2 ^ k := Nat.mul_le_mul_right _ hframe
    _ = 2 ^ 64 := hsplit.symm

theorem toNat_virtToPhys (hk : k < 64) (hread : pread (addr / BitVec.twoPow 64 k * 8) = some entry)
    (hpfn : frameNumber entry * 2 ^ k < 2 ^ 64) :
    (virtToPhys (some pread) (BitVec.twoPow 64 k) addr).toNat =
      if present entry then frameNumber entry * 2 ^ k + addr.toNat % 2 ^ k else 0 := by
  have hsum := frame_add_offset_lt hk hpfn addr.toNat
  simp only [virtToPhys, hread, and_presentMask]
  cases present entry with
  | false => rfl
  | true =>
      simp only [Bool.true_eq_false, if_false, if_true, BitVec.toNat_add, BitVec.toNat_mul,
        BitVec.toNat_umod, and_frameMask, toNat_pageSize hk]
      rw [Nat.mod_eq_of_lt hpfn, Nat.mod_eq_of_lt hsum]

structure Decodes (pread : Pread) (pageSize addr entry : BitVec 64) : Prop where
  disclosed : virtToPhys (some pread) pageSize addr ≠ 0 → Discloses entry
  frame : virtToPhys (some pread) pageSize addr ≠ 0 →
    (virtToPhys (some pread) pageSize addr / pageSize).toNat = frameNumber entry
  offset : virtToPhys (some pread) pageSize addr ≠ 0 →
    virtToPhys (some pread) pageSize addr % pageSize = addr % pageSize
  note : ∀ name, (regionLine (some pread) pageSize name addr).note =
    if Discloses entry then "" else "(need sudo or CAP_SYS_ADMIN)"

/-- The result is 0 for a page that is not present and for offset 0 in frame 0. -/
theorem virtToPhys_ne_zero_iff (hk : k < 64)
    (hread : pread (addr / BitVec.twoPow 64 k * 8) = some entry)
    (hpfn : frameNumber entry * 2 ^ k < 2 ^ 64) :
    virtToPhys (some pread) (BitVec.twoPow 64 k) addr ≠ 0 ↔
      present entry = true ∧ (frameNumber entry ≠ 0 ∨ addr.toNat % 2 ^ k ≠ 0) := by
  have hpos := Nat.two_pow_pos k
  have hnone : (0 : BitVec 64).toNat = 0 := rfl
  rw [← BitVec.toNat_ne_iff_ne, toNat_virtToPhys hk hread hpfn, hnone]
  cases present entry with
  | false => simp
  | true =>
      have hzero : frameNumber entry * 2 ^ k = 0 ↔ frameNumber entry = 0 := by
        simp
      simp only [if_true, true_and]
      omega

theorem decodes_of_not (hk : k < 64) (hread : pread (addr / BitVec.twoPow 64 k * 8) = some entry)
    (hpfn : frameNumber entry * 2 ^ k < 2 ^ 64)
    (h : ¬(present entry = true ∧ frameNumber entry = 0 ∧ addr.toNat % 2 ^ k ≠ 0)) :
    Decodes pread (BitVec.twoPow 64 k) addr entry := by
  have hvalue := toNat_virtToPhys hk hread hpfn
  have hne : virtToPhys (some pread) (BitVec.twoPow 64 k) addr ≠ 0 ↔ Discloses entry := by
    rw [virtToPhys_ne_zero_iff hk hread hpfn, Discloses]
    tauto
  have hpos := Nat.two_pow_pos k
  have hoff : addr.toNat % 2 ^ k < 2 ^ k := Nat.mod_lt _ hpos
  constructor
  · exact hne.mp
  · intro hpa
    rw [if_pos (hne.mp hpa).1] at hvalue
    rw [BitVec.toNat_udiv, hvalue, toNat_pageSize hk, Nat.add_comm, Nat.add_mul_div_right _ _ hpos,
      Nat.div_eq_of_lt hoff, Nat.zero_add]
  · intro hpa
    rw [if_pos (hne.mp hpa).1] at hvalue
    apply BitVec.eq_of_toNat_eq
    rw [BitVec.toNat_umod, BitVec.toNat_umod, hvalue, toNat_pageSize hk, Nat.mul_add_mod_self_right,
      Nat.mod_mod]
  · intro name
    by_cases hpa : virtToPhys (some pread) (BitVec.twoPow 64 k) addr ≠ 0
    · rw [regionLine, if_pos hpa, if_pos (hne.mp hpa)]
    · rw [regionLine, if_neg hpa, if_neg fun hd => hpa (hne.mpr hd)]

theorem not_decodes_of_offset (hk : k < 64)
    (hread : pread (addr / BitVec.twoPow 64 k * 8) = some entry) (hpresent : present entry = true)
    (hframe : frameNumber entry = 0) (hoff : addr.toNat % 2 ^ k ≠ 0) :
    ¬Decodes pread (BitVec.twoPow 64 k) addr entry := by
  intro h
  have hpfn : frameNumber entry * 2 ^ k < 2 ^ 64 := by
    rw [hframe, Nat.zero_mul]
    exact Nat.two_pow_pos 64
  have hne := (virtToPhys_ne_zero_iff hk hread hpfn).mpr ⟨hpresent, .inr hoff⟩
  exact (h.disclosed hne).2 hframe

/-- An entry is decoded unless it hides the frame of a present page and the address
does not begin a page. -/
theorem decodes_iff (hk : k < 64) (hread : pread (addr / BitVec.twoPow 64 k * 8) = some entry)
    (hpfn : frameNumber entry * 2 ^ k < 2 ^ 64) :
    Decodes pread (BitVec.twoPow 64 k) addr entry ↔
      ¬(present entry = true ∧ frameNumber entry = 0 ∧ addr.toNat % 2 ^ k ≠ 0) := by
  constructor
  · rintro h ⟨hpresent, hframe, hoff⟩
    exact not_decodes_of_offset hk hread hpresent hframe hoff h
  · exact decodes_of_not hk hread hpfn

end Address

theorem decodes_disclosed :
    Decodes (fun _ => some 0x8000000000012345#64) (BitVec.twoPow 64 12) 0x7ffd1234abcd#64
        0x8000000000012345#64 ↔
      ¬(present 0x8000000000012345#64 = true ∧ frameNumber 0x8000000000012345#64 = 0 ∧
        (0x7ffd1234abcd#64).toNat % 2 ^ 12 ≠ 0) :=
  decodes_iff (by decide) rfl (by decide)

/-- The entry an unprivileged reader gets of a present page, for a variable on the
stack: the offset in the page is printed as its address. -/
theorem not_decodes_hidden :
    ¬Decodes (fun _ => some 0x8000000000000000#64) (BitVec.twoPow 64 12) 0x7ffd1234abcd#64
      0x8000000000000000#64 :=
  not_decodes_of_offset (by decide) rfl (by decide) (by decide) (by decide)

end OsLabs.ProcFiles
