import Mathlib.Data.BitVec
import OsLabs.Core.CInt
import OsLabs.Core.Scan

/-! # The line a child writes

`dprintf(fd, "%d %ld %ld %llu\n", ..)` in the child and
`fscanf(fp, "%d %ld %ld %llu", ..)` in the parent. A number that its type cannot
hold has no defined value in C; the scan fails on it.
-/

namespace OsLabs.PageCacheModels

open CInt

structure PipeLine where
  idx : Int
  minf : Int
  majf : Int
  partSum : BitVec 64
  deriving DecidableEq

def PipeLine.format (l : PipeLine) : List Char :=
  printInt l.idx ++ ' ' :: (printInt l.minf ++ ' ' :: (printInt l.majf ++ ' ' ::
    (printNat l.partSum.toNat ++ ['\n'])))

def signedOf (w : Nat) (neg : Bool) (n : Nat) : Option Int :=
  checked w (if neg then -(n : Int) else n)

def unsignedOf (w : Nat) (neg : Bool) (n : Nat) : Option (BitVec w) :=
  if n < 2 ^ w then some (if neg then -BitVec.ofNat w n else BitVec.ofNat w n) else none

/-- A value is a line when all four conversions succeed, that is when `fscanf`
returns 4. -/
def scanLine : Scanner PipeLine :=
  (Scanner.number (signedOf 32)).bind fun idx =>
    (Scanner.number (signedOf 64)).bind fun minf =>
      (Scanner.number (signedOf 64)).bind fun majf =>
        (Scanner.number (unsignedOf 64)).map fun partSum => ⟨idx, minf, majf, partSum⟩

/-- The fields of the line are values of their C types. -/
structure PipeLine.InRange (l : PipeLine) : Prop where
  idx : Fits 32 l.idx
  minf : Fits 64 l.minf
  majf : Fits 64 l.majf

theorem signedOf_natAbs {w : Nat} {x : Int} (h : Fits w x) :
    signedOf w (decide (x < 0)) x.natAbs = some x := by
  have hx : (if decide (x < 0) = true then -(x.natAbs : Int) else x.natAbs) = x := by
    by_cases hneg : x < 0
    · simp only [hneg, decide_true, if_true]
      omega
    · simp only [hneg, decide_false, Bool.false_eq_true, if_false]
      omega
  rw [signedOf, hx, checked_of_fits h]

theorem unsignedOf_toNat {w : Nat} (b : BitVec w) :
    unsignedOf w (decide ((b.toNat : Int) < 0)) (b.toNat : Int).natAbs = some b := by
  have hneg : ¬ ((b.toNat : Int) < 0) := by omega
  simp [unsignedOf, hneg, b.isLt]

theorem scanLine_stable : scanLine.Stable :=
  (Scanner.number_stable _).bind fun _ =>
    (Scanner.number_stable _).bind fun _ =>
      (Scanner.number_stable _).bind fun _ => (Scanner.number_stable _).map _

/-- `fscanf` reads back what `dprintf` wrote. -/
theorem scanLine_format {l : PipeLine} (h : l.InRange) (eof : Bool) :
    scanLine eof l.format = .done l ['\n'] := by
  have hblank : ∀ c ∈ [' '], Scanner.isSpace c := by simp [Scanner.isSpace]
  have hnone : ∀ c ∈ ([] : List Char), Scanner.isSpace c := by simp
  have hidx : ∀ cs, Scanner.number (signedOf 32) eof (printInt l.idx ++ ' ' :: cs) =
      .done l.idx (' ' :: cs) :=
    Scanner.number_printInt hnone (signedOf_natAbs h.idx) (by decide) eof
  have hminf : ∀ cs, Scanner.number (signedOf 64) eof (' ' :: (printInt l.minf ++ ' ' :: cs)) =
      .done l.minf (' ' :: cs) :=
    Scanner.number_printInt hblank (signedOf_natAbs h.minf) (by decide) eof
  have hmajf : ∀ cs, Scanner.number (signedOf 64) eof (' ' :: (printInt l.majf ++ ' ' :: cs)) =
      .done l.majf (' ' :: cs) :=
    Scanner.number_printInt hblank (signedOf_natAbs h.majf) (by decide) eof
  have hsum : Scanner.number (unsignedOf 64) eof (' ' :: (printNat l.partSum.toNat ++ ['\n'])) =
      .done l.partSum ['\n'] := by
    rw [← printInt_natCast]
    exact Scanner.number_printInt hblank (unsignedOf_toNat l.partSum) (by decide) eof []
  rw [scanLine, PipeLine.format, Scanner.bind_of_done _ (hidx _), Scanner.bind_of_done _ (hminf _),
    Scanner.bind_of_done _ (hmajf _), Scanner.map, hsum]

theorem printInt_length_le {x : Int} (h : Fits 64 x) : (printInt x).length ≤ 20 := by
  have hfits := fits_64_iff.mp h
  have hdigits : (printNat x.natAbs).length ≤ 19 :=
    (Nat.length_toDigits_le_iff (by decide) (by decide)).mpr (by omega)
  unfold printInt
  split
  · rw [List.length_cons]
    omega
  · omega

/-- A line fits in the smallest pipe. -/
theorem PipeLine.format_length_le {l : PipeLine} (h : l.InRange) : l.format.length ≤ 84 := by
  have hidx := fits_32_iff.mp h.idx
  have hidx' : (printInt l.idx).length ≤ 20 := printInt_length_le (fits_64_iff.mpr (by omega))
  have hminf := printInt_length_le h.minf
  have hmajf := printInt_length_le h.majf
  have hsum : (printNat l.partSum.toNat).length ≤ 20 :=
    (Nat.length_toDigits_le_iff (by decide) (by decide)).mpr
      (Nat.lt_trans l.partSum.isLt (by decide))
  simp only [format, List.length_append, List.length_cons, List.length_nil]
  omega

/-- A line that has not arrived completely keeps `fscanf` waiting. -/
theorem scanLine_prefix {l : PipeLine} (h : l.InRange) {pre suf : List Char}
    (hline : pre ++ suf = l.format) (hsuf : suf ≠ []) : scanLine false pre = .more :=
  scanLine_stable.more_of_prefix (hline ▸ scanLine_format h false) hsuf

end OsLabs.PageCacheModels
