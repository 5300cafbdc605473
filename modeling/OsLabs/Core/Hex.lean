import Mathlib.Tactic.IntervalCases

/-! # Hexadecimal numbers

Numbers as `%lx` prints them, padded with zeros or not. A printed number is read
back from its digits.
-/

namespace OsLabs

def hexDigits : List Char := "0123456789abcdef".toList

/-- `%lx` -/
def printHex (n : Nat) : List Char := Nat.toDigits 16 n

/-- `%0*lx` -/
def printHexPadded (width n : Nat) : List Char := (printHex n).leftpad width '0'

def hexValue (cs : List Char) : Nat := cs.foldl (fun n c => 16 * n + hexDigits.idxOf c) 0

theorem idxOf_digitChar {d : Nat} (h : d < 16) : hexDigits.idxOf d.digitChar = d := by
  interval_cases d <;> decide

theorem digitChar_mem {d : Nat} (h : d < 16) : d.digitChar ∈ hexDigits := by
  interval_cases d <;> decide

/-- The last digit of a number and those before it. -/
theorem printHex_of_le {n : Nat} (h : 16 ≤ n) :
    printHex n = printHex (n / 16) ++ [(n % 16).digitChar] :=
  Nat.toDigits_of_base_le (by decide) h

theorem printHex_of_lt {n : Nat} (h : n < 16) : printHex n = [n.digitChar] :=
  Nat.toDigits_of_lt_base h

theorem hexValue_printHex (n : Nat) : hexValue (printHex n) = n := by
  induction n using Nat.strongRecOn with
  | ind n ih =>
      by_cases h : n < 16
      · rw [printHex_of_lt h]
        simpa [hexValue] using idxOf_digitChar h
      · have hlast : n % 16 < 16 := Nat.mod_lt n (by decide)
        have hrest := ih (n / 16) (by omega)
        rw [hexValue] at hrest
        rw [printHex_of_le (by omega), hexValue, List.foldl_append, hrest, List.foldl_cons,
          List.foldl_nil, idxOf_digitChar hlast]
        omega

theorem mem_printHex {n : Nat} {c : Char} (h : c ∈ printHex n) : c ∈ hexDigits := by
  induction n using Nat.strongRecOn with
  | ind n ih =>
      by_cases hn : n < 16
      · rw [printHex_of_lt hn, List.mem_singleton] at h
        exact h ▸ digitChar_mem hn
      · rw [printHex_of_le (by omega)] at h
        rcases List.mem_append.mp h with hrest | hlast
        · exact ih (n / 16) (by omega) hrest
        · exact List.mem_singleton.mp hlast ▸ digitChar_mem (Nat.mod_lt n (by decide))

theorem hexValue_replicate (k : Nat) (cs : List Char) :
    hexValue (List.replicate k '0' ++ cs) = hexValue cs := by
  induction k with
  | zero => rfl
  | succ k ih =>
      rw [List.replicate_succ, List.cons_append, ← ih]
      rfl

theorem hexValue_printHexPadded (width n : Nat) : hexValue (printHexPadded width n) = n := by
  rw [printHexPadded, List.leftpad, hexValue_replicate, hexValue_printHex]

theorem printHexPadded_injective (width : Nat) : Function.Injective (printHexPadded width) := by
  intro m n h
  rw [← hexValue_printHexPadded width m, h, hexValue_printHexPadded]

theorem mem_printHexPadded {width n : Nat} {c : Char} (h : c ∈ printHexPadded width n) :
    c ∈ hexDigits := by
  rcases List.mem_append.mp h with hzero | hdigit
  · exact List.eq_of_mem_replicate hzero ▸ by decide
  · exact mem_printHex hdigit

theorem printHex_suffix (width n : Nat) : printHex n <:+ printHexPadded width n :=
  List.suffix_append _ _

end OsLabs
