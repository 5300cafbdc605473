import Mathlib.Data.List.TakeWhile
import OsLabs.Core.Loop
import OsLabs.Core.Scan
import OsLabs.PageCache.Setup

/-! # From the command line to the rounds

`main` turns each count from its string into a `long` with `strtol`, cuts it down
to an `int` and only then checks it; an `int` counts the rounds. Numbers equal to
a valid count modulo `2^32` are accepted as that count.
-/

namespace OsLabs.PageCacheModels

open CInt

/-! ## `strtol` -/

/-- `strtol` gives the nearest value of `long` where the number is not one. -/
def clampLong (x : Int) : Int := max (-2 ^ 63) (min x (2 ^ 63 - 1))

/-- `strtol(s, NULL, 10)` -/
def strtol (s : String) : Int :=
  let (neg, digits, _) := Scanner.splitNumber s.toList
  let value : Int := Nat.ofDigitChars 10 digits 0
  clampLong (if neg then -value else value)

/-- `(int)strtol(s, NULL, 10)` -/
def intArg (s : String) : Int := wrap 32 (strtol s)

/-! ## The rounds -/

structure RoundsState where
  round : Int
  ran : Nat

inductive RoundsEnd where
  | finished (ran : Nat)
  | overflow
  deriving DecidableEq

/-- One evaluation of `round <= rounds`, a round, and `round++`. -/
def roundStep (rounds : Int) (s : RoundsState) : RoundsState ⊕ RoundsEnd :=
  if s.round ≤ rounds then
    match cInt (s.round + 1) with
    | none => .inr .overflow
    | some round => .inl ⟨round, s.ran + 1⟩
  else .inr (.finished s.ran)

def runRounds (rounds : Nat) (fuel : Nat) : Option RoundsEnd :=
  Loop.run (roundStep rounds) fuel ⟨1, 0⟩

inductive MainEnd where
  | usage
  | finished (cfg : Config) (rounds ran : Nat)
  | overflow

/-- `main` on `argv[2]` to `argv[5]`, for a file and rounds without failing calls. -/
def main (mode procCount threadCount rounds : String) (fuel : Nat) : Option MainEnd :=
  match Config.ofArgs mode (intArg procCount) (intArg threadCount) (intArg rounds) with
  | none => some .usage
  | some (cfg, rounds) => (runRounds rounds fuel).map fun
      | .finished ran => .finished cfg rounds ran
      | .overflow => .overflow

/-- What `main` comes to with enough fuel. -/
def MainEnds (mode procCount threadCount rounds : String) (e : MainEnd) : Prop :=
  ∃ bound, ∀ fuel, bound < fuel → main mode procCount threadCount rounds fuel = some e

/-! ## Decimal strings -/

/-- The decimal representations of a number: digits, after a sign or none. -/
inductive Decimal : List Char → Int → Prop
  | plain {digits : List Char} (hne : digits ≠ []) (h : ∀ c ∈ digits, c.isDigit) :
      Decimal digits (Nat.ofDigitChars 10 digits 0 : Nat)
  | plus {digits : List Char} (hne : digits ≠ []) (h : ∀ c ∈ digits, c.isDigit) :
      Decimal ('+' :: digits) (Nat.ofDigitChars 10 digits 0 : Nat)
  | minus {digits : List Char} (hne : digits ≠ []) (h : ∀ c ∈ digits, c.isDigit) :
      Decimal ('-' :: digits) (-(Nat.ofDigitChars 10 digits 0 : Nat))

theorem decimal_printInt (x : Int) : Decimal (printInt x) x := by
  have hdigits : ∀ c ∈ printNat x.natAbs, c.isDigit := fun c hc => Scanner.isDigit_of_mem_printNat hc
  have hvalue : Nat.ofDigitChars 10 (printNat x.natAbs) 0 = x.natAbs :=
    Nat.ofDigitChars_ten_toDigits
  have hne : printNat x.natAbs ≠ [] := Nat.toDigits_ne_nil
  unfold printInt
  by_cases hx : x < 0
  · have hminus := Decimal.minus hne hdigits
    rw [hvalue, show -(x.natAbs : Int) = x by omega] at hminus
    rwa [if_pos hx]
  · have hplain := Decimal.plain hne hdigits
    rw [hvalue, show (x.natAbs : Int) = x by omega] at hplain
    rwa [if_neg hx]

/-- `strtol` reads a decimal string up to its end. -/
theorem strtol_of_decimal {s : String} {x : Int} (h : Decimal s.toList x) : strtol s = clampLong x := by
  unfold strtol Scanner.splitNumber
  generalize hcs : s.toList = cs at h
  cases h with
  | plain hne hdigits =>
      cases cs with
      | nil => exact (hne rfl).elim
      | cons c ds =>
          have hc : c.isDigit := hdigits c List.mem_cons_self
          rw [List.dropWhile_cons_of_neg (by simp [Scanner.isSpace_of_isDigit hc]),
            Scanner.takeSign_of_isDigit ds hc]
          simp only [List.takeWhile_eq_self_iff.mpr hdigits]
          rfl
  | plus hne hdigits =>
      rw [List.dropWhile_cons_of_neg (by decide)]
      simp [Scanner.takeSign, List.takeWhile_eq_self_iff.mpr hdigits]
  | minus hne hdigits =>
      rw [List.dropWhile_cons_of_neg (by decide)]
      simp [Scanner.takeSign, List.takeWhile_eq_self_iff.mpr hdigits]

theorem intArg_of_decimal {s : String} {x : Int} (h : Decimal s.toList x) :
    intArg s = wrap 32 (clampLong x) := by
  rw [intArg, strtol_of_decimal h]

/-! ## The check -/

/-- A count that `main` refuses: its `int` is not between 1 and 1024. -/
def CountRefused (x : Int) : Prop := ¬ Fits 64 x ∨ x % 2 ^ 32 = 0 ∨ 1024 < x % 2 ^ 32

/-- A number of rounds that `main` refuses: its `int` is not positive. -/
def RoundsRefused (x : Int) : Prop := ¬ Fits 64 x ∨ x % 2 ^ 32 = 0 ∨ 2 ^ 31 ≤ x % 2 ^ 32

instance (x : Int) : Decidable (CountRefused x) :=
  inferInstanceAs (Decidable (_ ∨ _ ∨ _))

instance (x : Int) : Decidable (RoundsRefused x) :=
  inferInstanceAs (Decidable (_ ∨ _ ∨ _))

theorem wrap_32_eq (x : Int) :
    wrap 32 x = if x % 2 ^ 32 < 2 ^ 31 then x % 2 ^ 32 else x % 2 ^ 32 - 2 ^ 32 := by
  norm_num [wrap, Int.bmod]

theorem clampLong_of_fits {x : Int} (h : Fits 64 x) : clampLong x = x := by
  rw [fits_64_iff] at h
  unfold clampLong
  omega

/-- Beyond `long` the value cut down to an `int` is -1 or 0. -/
theorem wrap_clampLong_of_not_fits {x : Int} (h : ¬ Fits 64 x) : wrap 32 (clampLong x) ≤ 0 := by
  rw [fits_64_iff] at h
  have hclamp : clampLong x = 2 ^ 63 - 1 ∨ clampLong x = -2 ^ 63 := by
    unfold clampLong
    omega
  rcases hclamp with hmax | hmin
  · rw [hmax]
    decide
  · rw [hmin]
    decide

theorem countRefused_iff (x : Int) :
    CountRefused x ↔ wrap 32 (clampLong x) ≤ 0 ∨ 1024 < wrap 32 (clampLong x) := by
  unfold CountRefused
  by_cases hfits : Fits 64 x
  · rw [clampLong_of_fits hfits, wrap_32_eq]
    simp only [hfits, not_true, false_or]
    split <;> omega
  · simp [hfits, wrap_clampLong_of_not_fits hfits]

theorem roundsRefused_iff (x : Int) : RoundsRefused x ↔ wrap 32 (clampLong x) ≤ 0 := by
  unfold RoundsRefused
  by_cases hfits : Fits 64 x
  · rw [clampLong_of_fits hfits, wrap_32_eq]
    simp only [hfits, not_true, false_or]
    split <;> omega
  · simp [hfits, wrap_clampLong_of_not_fits hfits]

/-- An accepted value is what the number is modulo `2^32`. -/
theorem wrap_clampLong_of_not_roundsRefused {x : Int} (h : ¬ RoundsRefused x) :
    wrap 32 (clampLong x) = x % 2 ^ 32 := by
  obtain ⟨hfits, _, hlt⟩ : Fits 64 x ∧ x % 2 ^ 32 ≠ 0 ∧ x % 2 ^ 32 < 2 ^ 31 := by
    simpa [RoundsRefused, not_or] using h
  rw [clampLong_of_fits hfits, wrap_32_eq, if_pos hlt]

theorem CountRefused.of_roundsRefused {x : Int} (h : RoundsRefused x) : CountRefused x := by
  rw [roundsRefused_iff] at h
  rw [countRefused_iff]
  exact .inl h

/-! ## The round loop -/

/-- The loop ends after `rounds` rounds unless these are `INT_MAX`, when the
counter overflows. -/
def roundsEnd (rounds : Nat) : RoundsEnd :=
  if rounds < 2147483647 then .finished rounds else .overflow

theorem roundStep_eq (rounds : Int) (s : RoundsState) :
    roundStep rounds s =
      if s.round ≤ rounds then
        if Fits 32 (s.round + 1) then .inl ⟨s.round + 1, s.ran + 1⟩ else .inr .overflow
      else .inr (.finished s.ran) := by
  unfold roundStep cInt checked
  by_cases hfits : Fits 32 (s.round + 1) <;> simp [hfits]

/-- The counter is an `int` one ahead of the rounds made. -/
structure RoundInv (rounds : Nat) (s : RoundsState) : Prop where
  round : s.round = s.ran + 1
  ran : s.ran ≤ rounds
  fits : Fits 32 s.round

theorem RoundInv.step {rounds : Nat} {s s' : RoundsState} (h : RoundInv rounds s)
    (hbody : roundStep rounds s = .inl s') :
    RoundInv rounds s' ∧ rounds - s'.ran < rounds - s.ran := by
  obtain ⟨hround, hran, _⟩ := h
  rw [roundStep_eq] at hbody
  split_ifs at hbody with hle hfits
  obtain rfl := Sum.inl.inj hbody
  refine ⟨⟨?_, ?_, hfits⟩, ?_⟩ <;> simp only <;> omega

theorem RoundInv.leave {rounds : Nat} (hrounds : rounds < 2147483648) {s : RoundsState} {e : RoundsEnd}
    (h : RoundInv rounds s) (hbody : roundStep rounds s = .inr e) : e = roundsEnd rounds := by
  obtain ⟨hround, hran, hcounter⟩ := h
  rw [fits_32_iff] at hcounter
  rw [roundStep_eq] at hbody
  rw [roundsEnd]
  split_ifs at hbody with hle hfits
  · rw [fits_32_iff] at hfits
    rw [← Sum.inr.inj hbody, if_neg (by omega)]
  · rw [← Sum.inr.inj hbody, if_pos (by omega), show s.ran = rounds by omega]

theorem runRounds_eq {rounds : Nat} (h : rounds < 2147483648) {fuel : Nat} (hfuel : rounds < fuel) :
    runRounds rounds fuel = some (roundsEnd rounds) := by
  have hinit : RoundInv rounds ⟨1, 0⟩ := ⟨rfl, Nat.zero_le _, by decide⟩
  obtain ⟨e, hrun, rfl⟩ := Loop.run_of_measure (I := RoundInv rounds) (fun s => rounds - s.ran)
    (fun _ _ hI hbody => hI.step hbody) (fun _ _ hI hbody => hI.leave h hbody) hinit hfuel
  exact hrun

/-! ## `main` -/

/-- `main` refuses, or its counts are valid, it goes on with exactly these and
runs that many rounds; the counter does not overflow. -/
def ArgumentsHandled (mode procCount threadCount rounds : String) (p t r : Int) : Prop :=
  MainEnds mode procCount threadCount rounds .usage ∨
    ((1 ≤ p ∧ p ≤ 1024) ∧ (1 ≤ t ∧ t ≤ 1024) ∧ 1 ≤ r ∧
      ∃ (cfg : Config) (n : Nat), MainEnds mode procCount threadCount rounds (.finished cfg n n) ∧
        cfg.procCount = p ∧ cfg.threadCount = t ∧ n = r)

theorem MainEnds.unique {mode procCount threadCount rounds : String} {e e' : MainEnd}
    (h : MainEnds mode procCount threadCount rounds e)
    (h' : MainEnds mode procCount threadCount rounds e') : e = e' := by
  obtain ⟨bound, h⟩ := h
  obtain ⟨bound', h'⟩ := h'
  have hfuel := h (max bound bound' + 1) (by omega)
  rw [h' (max bound bound' + 1) (by omega)] at hfuel
  exact (Option.some.inj hfuel).symm

section Handled

variable {mode procCount threadCount rounds : String} {m : Mode} {p t r : Int}

theorem ofArgs_of_refused {p t r : Int} (mode : String)
    (h : (p ≤ 0 ∨ 1024 < p) ∨ (t ≤ 0 ∨ 1024 < t) ∨ r ≤ 0) : Config.ofArgs mode p t r = none := by
  have hcheck : p ≤ 0 ∨ 1024 < p ∨ t ≤ 0 ∨ 1024 < t ∨ r ≤ 0 := by tauto
  rw [Config.ofArgs, dif_pos hcheck]

theorem mainEnds_of_refused (hp : Decimal procCount.toList p) (ht : Decimal threadCount.toList t)
    (hr : Decimal rounds.toList r) (h : CountRefused p ∨ CountRefused t ∨ RoundsRefused r) :
    MainEnds mode procCount threadCount rounds .usage := by
  rw [countRefused_iff, countRefused_iff, roundsRefused_iff, ← intArg_of_decimal hp,
    ← intArg_of_decimal ht, ← intArg_of_decimal hr] at h
  have hnone := ofArgs_of_refused mode h
  refine ⟨0, fun fuel _ => ?_⟩
  unfold main
  simp only [hnone]

theorem ofArgs_of_accepted {p t r : Int} (hmode : Mode.ofArg mode = some m)
    (h : ¬ ((p ≤ 0 ∨ 1024 < p) ∨ (t ≤ 0 ∨ 1024 < t) ∨ r ≤ 0)) :
    ∃ cfg : Config, Config.ofArgs mode p t r = some (cfg, r.toNat) ∧ cfg.procCount = p ∧
      cfg.threadCount = t := by
  have hcheck : ¬ (p ≤ 0 ∨ 1024 < p ∨ t ≤ 0 ∨ 1024 < t ∨ r ≤ 0) := by tauto
  rw [Config.ofArgs, dif_neg hcheck, hmode]
  exact ⟨_, rfl, Int.toNat_of_nonneg (by omega), Int.toNat_of_nonneg (by omega)⟩

/-- Accepted counts are those of the strings modulo `2^32`. -/
theorem mainEnds_of_accepted (hmode : Mode.ofArg mode = some m) (hp : Decimal procCount.toList p)
    (ht : Decimal threadCount.toList t) (hr : Decimal rounds.toList r) (hp' : ¬ CountRefused p)
    (ht' : ¬ CountRefused t) (hr' : ¬ RoundsRefused r) :
    ∃ cfg : Config, cfg.procCount = p % 2 ^ 32 ∧ cfg.threadCount = t % 2 ^ 32 ∧
      MainEnds mode procCount threadCount rounds
        (match roundsEnd (r % 2 ^ 32).toNat with
          | .finished ran => .finished cfg (r % 2 ^ 32).toNat ran
          | .overflow => .overflow) := by
  have hcheck := not_or.mpr ⟨hp', not_or.mpr ⟨ht', hr'⟩⟩
  have hpInt := wrap_clampLong_of_not_roundsRefused (mt CountRefused.of_roundsRefused hp')
  have htInt := wrap_clampLong_of_not_roundsRefused (mt CountRefused.of_roundsRefused ht')
  have hrInt := wrap_clampLong_of_not_roundsRefused hr'
  rw [countRefused_iff, countRefused_iff, roundsRefused_iff, hpInt, htInt, hrInt] at hcheck
  obtain ⟨cfg, hcfg, hprocs, hthreads⟩ := ofArgs_of_accepted hmode hcheck
  have hlt : (r % 2 ^ 32).toNat < 2147483648 := by
    simp only [RoundsRefused, not_or] at hr'
    omega
  refine ⟨cfg, hprocs, hthreads, (r % 2 ^ 32).toNat, fun fuel hfuel => ?_⟩
  unfold main
  rw [intArg_of_decimal hp, intArg_of_decimal ht, intArg_of_decimal hr, hpInt, htInt, hrInt]
  simp only [hcfg, runRounds_eq hlt hfuel, Option.map_some]

theorem handled_iff_of_accepted (hmode : Mode.ofArg mode = some m)
    (hp : Decimal procCount.toList p) (ht : Decimal threadCount.toList t)
    (hr : Decimal rounds.toList r) (hp' : ¬ CountRefused p) (ht' : ¬ CountRefused t)
    (hr' : ¬ RoundsRefused r) :
    ArgumentsHandled mode procCount threadCount rounds p t r ↔
      (1 ≤ p ∧ p ≤ 1024) ∧ (1 ≤ t ∧ t ≤ 1024) ∧ 1 ≤ r ∧ r < 2 ^ 31 - 1 := by
  obtain ⟨cfg, hprocs, hthreads, hends⟩ := mainEnds_of_accepted hmode hp ht hr hp' ht' hr'
  simp only [CountRefused, RoundsRefused, not_or] at hp' ht' hr'
  unfold roundsEnd at hends
  constructor
  · rintro (husage | ⟨hprange, htrange, hrpos, cfg', n, hends', hprocs', hthreads', hn⟩)
    · have heq := husage.unique hends
      split_ifs at heq
    · have heq := hends'.unique hends
      split_ifs at heq with hlt
      obtain ⟨rfl, hrounds, _⟩ := MainEnd.finished.inj heq
      exact ⟨hprange, htrange, hrpos, by omega⟩
  · rintro ⟨hprange, htrange, hrpos, hrlt⟩
    rw [if_pos (by omega)] at hends
    exact .inr ⟨hprange, htrange, hrpos, cfg, _, hends, by omega, by omega, by omega⟩

end Handled

/-- The arguments are handled as they should exactly when `main` refuses the
strings, or the counts are valid and the rounds fewer than `INT_MAX`. -/
theorem argumentsHandled_iff (mode procCount threadCount rounds : String) {m : Mode} {p t r : Int}
    (hmode : Mode.ofArg mode = some m) (hp : Decimal procCount.toList p)
    (ht : Decimal threadCount.toList t) (hr : Decimal rounds.toList r) :
    ArgumentsHandled mode procCount threadCount rounds p t r ↔
      (CountRefused p ∨ CountRefused t ∨ RoundsRefused r) ∨
        ((1 ≤ p ∧ p ≤ 1024) ∧ (1 ≤ t ∧ t ≤ 1024) ∧ 1 ≤ r ∧ r < 2 ^ 31 - 1) := by
  by_cases hrefused : CountRefused p ∨ CountRefused t ∨ RoundsRefused r
  · simp only [hrefused, true_or, iff_true]
    exact .inl (mainEnds_of_refused hp ht hr hrefused)
  · simp only [hrefused, false_or]
    obtain ⟨hp', ht', hr'⟩ : ¬ CountRefused p ∧ ¬ CountRefused t ∧ ¬ RoundsRefused r := by tauto
    exact handled_iff_of_accepted hmode hp ht hr hp' ht' hr'

theorem argumentsHandled_iff_hybrid : ArgumentsHandled "hybrid" "4" "2" "3" 4 2 3 :=
  (argumentsHandled_iff "hybrid" "4" "2" "3" (m := .hybrid) rfl (decimal_printInt 4)
    (decimal_printInt 2) (decimal_printInt 3)).mpr (.inr (by decide))

/-- `2^32 + 1` processes are taken for one. -/
theorem large_count_accepted :
    ¬ ∀ (mode procCount threadCount rounds : String) (m : Mode) (p t r : Int),
      Mode.ofArg mode = some m → Decimal procCount.toList p → Decimal threadCount.toList t →
      Decimal rounds.toList r → ArgumentsHandled mode procCount threadCount rounds p t r := by
  intro h
  have hp : Decimal "4294967297".toList 4294967297 := decimal_printInt 4294967297
  have hone : Decimal "1".toList 1 := decimal_printInt 1
  have hhandled := h "single" "4294967297" "1" "1" .single _ _ _ rfl hp hone hone
  rw [handled_iff_of_accepted rfl hp hone hone (by decide) (by decide) (by decide)] at hhandled
  exact absurd hhandled (by decide)

end OsLabs.PageCacheModels
