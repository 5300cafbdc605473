import OsLabs.Core.CInt
import OsLabs.Core.Intervals

/-! # Argument check, mode set-up and slicing

The part of `main` that turns the counts of the command line into the ranges
the workers of a round read. `int` and `off_t` results are checked: a
definition has no value where the C expression would overflow.
-/

namespace OsLabs.PageCacheModels

open CInt Intervals

abbrev cInt (x : Int) : Option Int := checked 32 x
abbrev offT (x : Int) : Option Int := checked 64 x

inductive Mode where
  | single
  | threads
  | processes
  | hybrid
  deriving DecidableEq, Repr

/-- The `strcmp` chain on `argv[2]`. -/
def Mode.ofArg (arg : String) : Option Mode :=
  if arg = "single" then some .single
  else if arg = "threads" then some .threads
  else if arg = "processes" then some .processes
  else if arg = "hybrid" then some .hybrid
  else none

/-- The counts and the mode `main` goes on with. -/
structure Config where
  mode : Mode
  procCount : Nat
  threadCount : Nat
  procCount_ok : 1 ≤ procCount ∧ procCount ≤ 1024
  threadCount_ok : 1 ≤ threadCount ∧ threadCount ≤ 1024

theorem one_count_ok : 1 ≤ 1 ∧ 1 ≤ 1024 := by decide

theorem two_count_ok : 1 ≤ 2 ∧ 2 ≤ 1024 := by decide

/-- The checks of `main`; `none` is the usage message and status 1. The second
component is the number of rounds. -/
def Config.ofArgs (mode : String) (procCount threadCount rounds : Int) : Option (Config × Nat) :=
  if h : procCount ≤ 0 ∨ 1024 < procCount ∨ threadCount ≤ 0 ∨ 1024 < threadCount ∨ rounds ≤ 0 then
    none
  else
    (Mode.ofArg mode).map fun m =>
      (⟨m, procCount.toNat, threadCount.toNat, by omega, by omega⟩, rounds.toNat)

/-- `proc_count`, `thread_count` and `total_workers` once the mode is known. -/
structure Setup where
  procCount : Nat
  threadCount : Nat
  totalWorkers : Nat
  deriving DecidableEq, Repr

def Config.setup (cfg : Config) : Option Setup :=
  match cfg.mode with
  | .single => some ⟨1, 1, 1⟩
  | .threads => some ⟨1, cfg.threadCount, cfg.threadCount⟩
  | .processes => some ⟨cfg.procCount, 1, cfg.procCount⟩
  | .hybrid => do
      let total ← cInt (cfg.procCount * cfg.threadCount)
      some ⟨cfg.procCount, cfg.threadCount, total.toNat⟩

/-- `worker_arg_t` without the path, which all workers share. -/
structure WorkerArg where
  start : Int
  stop : Int
  id : Int
  deriving DecidableEq, Repr

/-- The end of a worker's range: the last worker takes the remainder. -/
def rangeStop (size slice totalWorkers id : Int) : Option Int :=
  if id = totalWorkers - 1 then some size
  else do
    let next ← cInt (id + 1)
    offT (next * slice)

def rangeArg (size slice totalWorkers id : Int) : Option WorkerArg := do
  let start ← offT (id * slice)
  let stop ← rangeStop size slice totalWorkers id
  some ⟨start, stop, id⟩

/-- `args[i]` of the single and threads path. -/
def threadsArg (size slice totalWorkers : Int) (i : Nat) : Option WorkerArg :=
  rangeArg size slice totalWorkers i

/-- `args[t]` of child `p` on the processes and hybrid path. -/
def processArg (size slice totalWorkers : Int) (threadCount p t : Nat) : Option WorkerArg := do
  let base ← cInt (p * threadCount)
  let globalId ← cInt (base + t)
  rangeArg size slice totalWorkers globalId

/-- The workers of one round, process by process. -/
def Config.roundArgs (cfg : Config) (size : Int) : Option (List (List WorkerArg)) := do
  let su ← cfg.setup
  let slice := size.tdiv su.totalWorkers
  match cfg.mode with
  | .single | .threads =>
      let args ← (List.range su.totalWorkers).mapM (threadsArg size slice su.totalWorkers)
      some [args]
  | .processes | .hybrid =>
      (List.range su.procCount).mapM fun p =>
        (List.range su.threadCount).mapM (processArg size slice su.totalWorkers su.threadCount p)

/-! ## The set-up never overflows -/

namespace Config

variable (cfg : Config)

/-- Processes that run workers. -/
def procs : Nat :=
  match cfg.mode with
  | .single | .threads => 1
  | .processes | .hybrid => cfg.procCount

/-- Workers in each of them. -/
def workers : Nat :=
  match cfg.mode with
  | .single | .processes => 1
  | .threads | .hybrid => cfg.threadCount

def total : Nat := cfg.procs * cfg.workers

theorem procs_bounds : 1 ≤ cfg.procs ∧ cfg.procs ≤ 1024 := by
  have h := cfg.procCount_ok
  unfold procs
  split <;> omega

theorem workers_bounds : 1 ≤ cfg.workers ∧ cfg.workers ≤ 1024 := by
  have h := cfg.threadCount_ok
  unfold workers
  split <;> omega

theorem total_bounds : 1 ≤ cfg.total ∧ cfg.total ≤ 1048576 := by
  obtain ⟨hp, hp'⟩ := cfg.procs_bounds
  obtain ⟨hw, hw'⟩ := cfg.workers_bounds
  exact ⟨Nat.mul_le_mul hp hw, Nat.mul_le_mul hp' hw'⟩

theorem id_lt_total {p t : Nat} (hp : p < cfg.procs) (ht : t < cfg.workers) :
    p * cfg.workers + t < cfg.total := by
  calc p * cfg.workers + t < p * cfg.workers + cfg.workers := by omega
    _ = (p + 1) * cfg.workers := by rw [Nat.succ_mul]
    _ ≤ cfg.total := Nat.mul_le_mul_right _ hp

theorem setup_eq : cfg.setup = some ⟨cfg.procs, cfg.workers, cfg.total⟩ := by
  have hb := cfg.total_bounds
  unfold setup
  cases hm : cfg.mode
  case hybrid =>
    have htotal : cfg.total = cfg.procCount * cfg.threadCount := by
      simp [total, procs, workers, hm]
    have hfits : Fits 32 ((cfg.procCount : Int) * cfg.threadCount) := by
      rw [fits_32_iff]
      rw [htotal] at hb
      norm_cast
      omega
    have hcast : ((cfg.procCount : Int) * cfg.threadCount).toNat = cfg.total := by
      rw [htotal, ← Nat.cast_mul, Int.toNat_natCast]
    simp only [cInt, checked_of_fits hfits, Option.bind_eq_bind, Option.bind_some, hcast]
    simp [procs, workers, hm]
  all_goals simp [total, procs, workers, hm]

end Config

/-! ## The slices -/

/-- The range of worker `k` when `size` bytes are cut for `total` workers. -/
def sliceOf (size total k : Nat) : WorkerArg := ⟨cut size total k, cut size total (k + 1), k⟩

theorem cInt_natCast {n : Nat} (h : n < 2147483648) : cInt n = some (n : Int) :=
  checked_of_fits (fits_32_iff.mpr (by omega))

theorem offT_natCast {n : Nat} (h : n < 9223372036854775808) : offT n = some (n : Int) :=
  checked_of_fits (fits_64_iff.mpr (by omega))

theorem offT_mul_slice {size total i : Nat} (hsize : size < 2 ^ 63) (hi : i ≤ total) :
    offT ((i : Int) * (size / total : Nat)) = some ((i * (size / total) : Nat) : Int) := by
  have hle := mul_div_le size hi
  rw [← Nat.cast_mul]
  exact offT_natCast (by omega)

theorem rangeStop_eq {size total k : Nat} (hsize : size < 2 ^ 63) (htotal : total ≤ 1048576)
    (hk : k < total) :
    rangeStop size (size / total : Nat) total k = some (cut size total (k + 1) : Int) := by
  unfold rangeStop
  by_cases hlast : k + 1 = total
  · rw [if_pos (by omega), cut_of_le (Nat.le_of_eq hlast.symm)]
  · have hnext : cInt ((k : Int) + 1) = some ((k + 1 : Nat) : Int) :=
      cInt_natCast (n := k + 1) (by omega)
    rw [if_neg (by omega), hnext, Option.bind_eq_bind, Option.bind_some,
      offT_mul_slice hsize (by omega), cut_of_lt (by omega)]

theorem rangeArg_eq {size total k : Nat} (hsize : size < 2 ^ 63) (htotal : total ≤ 1048576)
    (hk : k < total) :
    rangeArg size ((size : Int).tdiv total) total k = some (sliceOf size total k) := by
  have hslice : (size : Int).tdiv total = (size / total : Nat) := (Int.ofNat_tdiv size total).symm
  rw [rangeArg, hslice, offT_mul_slice hsize (Nat.le_of_lt hk), Option.bind_eq_bind,
    Option.bind_some, rangeStop_eq hsize htotal hk, Option.bind_some, sliceOf, cut_of_lt hk]

theorem processArg_eq {size total threadCount p t : Nat} (hsize : size < 2 ^ 63)
    (htotal : total ≤ 1048576) (hk : p * threadCount + t < total) :
    processArg size ((size : Int).tdiv total) total threadCount p t =
      some (sliceOf size total (p * threadCount + t)) := by
  have hbase : cInt ((p : Int) * threadCount) = some ((p * threadCount : Nat) : Int) := by
    rw [← Nat.cast_mul]
    exact cInt_natCast (by omega)
  have hid : cInt (((p * threadCount : Nat) : Int) + t) =
      some ((p * threadCount + t : Nat) : Int) := by
    rw [← Nat.cast_add]
    exact cInt_natCast (by omega)
  rw [processArg, hbase, Option.bind_eq_bind, Option.bind_some, hid, Option.bind_some]
  exact rangeArg_eq hsize htotal hk

theorem mapM_eq_map {α β : Type} {f : α → Option β} {g : α → β} {l : List α}
    (h : ∀ a ∈ l, f a = some (g a)) : l.mapM f = some (l.map g) := by
  induction l with
  | nil => rfl
  | cons a l ih =>
      have ha := h a (by simp)
      have hl := ih fun b hb => h b (by simp [hb])
      simp [List.mapM_cons, ha, hl]

/-- The plan of a round: worker `t` of process `p` reads slice `p * workers + t`.
That the plan exists is the absence of overflow in all of the set-up. -/
theorem Config.roundArgs_eq (cfg : Config) {size : Nat} (hsize : size < 2 ^ 63) :
    cfg.roundArgs size = some ((List.range cfg.procs).map fun p =>
      (List.range cfg.workers).map fun t => sliceOf size cfg.total (p * cfg.workers + t)) := by
  have htotal := cfg.total_bounds.2
  have hthreads : (List.range cfg.total).mapM
      (threadsArg size ((size : Int).tdiv cfg.total) cfg.total) =
        some ((List.range cfg.total).map (sliceOf size cfg.total)) :=
    mapM_eq_map fun i hi => rangeArg_eq hsize htotal (List.mem_range.mp hi)
  have hprocesses : (List.range cfg.procs).mapM (fun p => (List.range cfg.workers).mapM
      (processArg size ((size : Int).tdiv cfg.total) cfg.total cfg.workers p)) =
        some ((List.range cfg.procs).map fun p =>
          (List.range cfg.workers).map fun t => sliceOf size cfg.total (p * cfg.workers + t)) :=
    mapM_eq_map fun p hp => mapM_eq_map fun t ht =>
      processArg_eq hsize htotal (cfg.id_lt_total (List.mem_range.mp hp) (List.mem_range.mp ht))
  rw [roundArgs, cfg.setup_eq]
  simp only [Option.bind_eq_bind, Option.bind_some]
  cases hm : cfg.mode
  case single | threads =>
    have hone : cfg.procs = 1 := by simp [procs, hm]
    have hall : cfg.workers = cfg.total := by simp [total, hone]
    simp only [hthreads, hone, hall, Option.bind_some, List.range_one, List.map_cons,
      List.map_nil, Nat.zero_mul, Nat.zero_add]
  case processes | hybrid => exact hprocesses

end OsLabs.PageCacheModels
