import Mathlib.Algebra.BigOperators.Group.List.Basic
import OsLabs.PageCache.ReadRange

/-! # Totals of a round

The workers' results are added up as `main` adds them: over the workers of a
process by the join loop, and on the processes path once more over the
processes. Any additive component of a result comes out as its plain sum.
-/

namespace OsLabs.PageCacheModels

def WorkerResult.zero : WorkerResult := ⟨0, 0, 0⟩

def WorkerResult.add (t r : WorkerResult) : WorkerResult :=
  ⟨t.minflt + r.minflt, t.majflt + r.majflt, t.checksum + r.checksum⟩

/-- The counters as `long` values, reduced to 64 bits where they do not fit. -/
def WorkerResult.toLong (r : WorkerResult) : WorkerResult :=
  ⟨CInt.wrap 64 r.minflt, CInt.wrap 64 r.majflt, r.checksum⟩

/-- `total_min += ..; total_maj += ..; checksum += ..` -/
def WorkerResult.addLong (t r : WorkerResult) : WorkerResult := (t.add r).toLong

/-- The join loop, over the results in the order of the workers. -/
def joinTotals (rs : List WorkerResult) : WorkerResult := rs.foldl WorkerResult.add .zero

/-- The totals of the summary line, from the results of each process. -/
def summaryOf (mode : Mode) (results : List (List WorkerResult)) : WorkerResult :=
  match mode with
  | .single | .threads => joinTotals results.flatten
  | .processes | .hybrid => joinTotals (results.map joinTotals)

namespace WorkerResult

/-- Both counters are values of type `long`. -/
structure InRange (r : WorkerResult) : Prop where
  minflt : CInt.Fits 64 r.minflt
  majflt : CInt.Fits 64 r.majflt

theorem toLong_of_inRange {r : WorkerResult} (h : r.InRange) : r.toLong = r := by
  rw [toLong, CInt.wrap_of_fits (by decide) h.minflt, CInt.wrap_of_fits (by decide) h.majflt]

theorem toLong_inRange (r : WorkerResult) : r.toLong.InRange :=
  ⟨CInt.fits_wrap_64 _, CInt.fits_wrap_64 _⟩

theorem toLong_add (t r : WorkerResult) : (t.toLong.add r).toLong = (t.add r).toLong := by
  simp only [toLong, add, CInt.wrap_wrap_add]

/-- Reducing after every addition is reducing the exact total. -/
theorem foldl_addLong (rs : List WorkerResult) (t : WorkerResult) :
    rs.foldl addLong t.toLong = (rs.foldl add t).toLong := by
  induction rs generalizing t with
  | nil => rfl
  | cons r rs ih =>
      have hstep : addLong t.toLong r = (t.add r).toLong := toLong_add t r
      rw [List.foldl_cons, List.foldl_cons, hstep, ih]

theorem add_toLong (t r : WorkerResult) : (t.add r.toLong).toLong = (t.add r).toLong := by
  simp only [toLong, add, CInt.wrap_add_wrap]

/-- Totals of reduced totals, as on the processes path. -/
theorem toLong_joinTotals_map (rs : List WorkerResult) :
    (joinTotals (rs.map toLong)).toLong = (joinTotals rs).toLong := by
  have hfold : ∀ t : WorkerResult,
      ((rs.map toLong).foldl add t).toLong = (rs.foldl add t).toLong := by
    induction rs with
    | nil => exact fun t => rfl
    | cons r rs ih =>
        intro t
        have hleft : ∀ u v : WorkerResult, u.toLong = v.toLong →
            (rs.foldl add u).toLong = (rs.foldl add v).toLong := by
          intro u v huv
          rw [← foldl_addLong, ← foldl_addLong, huv]
        rw [List.map_cons, List.foldl_cons, List.foldl_cons, ih]
        exact hleft _ _ (add_toLong t r)
  exact hfold zero

/-- What the `+=` loops of `main` compute. -/
theorem foldl_addLong_zero (rs : List WorkerResult) :
    rs.foldl addLong zero = (joinTotals rs).toLong :=
  foldl_addLong rs zero

end WorkerResult

/-- A component that `add` adds. -/
structure Additive {M : Type} [AddMonoid M] (f : WorkerResult → M) : Prop where
  zero : f .zero = 0
  add : ∀ t r, f (t.add r) = f t + f r

theorem minflt_additive : Additive WorkerResult.minflt := ⟨rfl, fun _ _ => rfl⟩
theorem majflt_additive : Additive WorkerResult.majflt := ⟨rfl, fun _ _ => rfl⟩
theorem checksum_additive : Additive WorkerResult.checksum := ⟨rfl, fun _ _ => rfl⟩

section Sums

variable {M : Type} [AddMonoid M] {f : WorkerResult → M}

theorem Additive.foldl (hf : Additive f) (rs : List WorkerResult) (t : WorkerResult) :
    f (rs.foldl WorkerResult.add t) = f t + (rs.map f).sum := by
  induction rs generalizing t with
  | nil => simp
  | cons r rs ih => simp [ih, hf.add, add_assoc]

theorem Additive.joinTotals (hf : Additive f) (rs : List WorkerResult) :
    f (joinTotals rs) = (rs.map f).sum := by
  simp [PageCacheModels.joinTotals, hf.foldl, hf.zero]

/-- Adding per process first makes no difference. -/
theorem Additive.summaryOf (hf : Additive f) (mode : Mode) (results : List (List WorkerResult)) :
    f (summaryOf mode results) = (results.flatten.map f).sum := by
  have hnested : ((results.map PageCacheModels.joinTotals).map f).sum =
      (results.flatten.map f).sum := by
    induction results with
    | nil => rfl
    | cons rs results ih =>
        simp only [List.map_cons, List.sum_cons, List.flatten_cons, List.map_append,
          List.sum_append, ih, hf.joinTotals]
  cases mode <;> simp only [PageCacheModels.summaryOf, hf.joinTotals, hnested]

end Sums

end OsLabs.PageCacheModels
