import Mathlib.Data.List.Flatten
import OsLabs.PageCache.Coverage
import OsLabs.PageCache.Totals

/-! # The summary checksum

The checksum of a round is the sum of the bytes at its sampled offsets, each
taken once. The sampling index starts anew at each `read`, so the sampled offsets
depend on the slices and on the lengths the reads return.
-/

namespace OsLabs.PageCacheModels

open Intervals

def runWorker (file : File) (calls : Nat → Calls) (w : WorkerArg) : Option WorkerResult :=
  match readRange file (calls w.id.toNat) w.start w.stop (file.size + 1) with
  | some (.ok r _) => some r
  | _ => none

/-- The totals of the summary line of a round no worker of which fails. -/
def roundSummary (cfg : Config) (file : File) (calls : Nat → Calls) : Option WorkerResult := do
  let plan ← cfg.roundArgs file.size
  let results ← plan.mapM fun args => args.mapM (runWorker file calls)
  some (summaryOf cfg.mode results)

/-! ## The sampled offsets of a round -/

/-- The offsets worker `k` samples. -/
def workerSampled (cfg : Config) (size : Nat) (calls : Nat → Calls) (k : Nat) : List Nat :=
  sampled (rangeReads (calls k).read (cut size cfg.total k) (cut size cfg.total (k + 1)))

def roundSampled (cfg : Config) (size : Nat) (calls : Nat → Calls) : List Nat :=
  (List.range cfg.total).flatMap (workerSampled cfg size calls)

theorem mapM_map_eq_map {α β γ : Type} {f : α → β} {g : β → Option γ} {h : α → γ} {l : List α}
    (hg : ∀ a ∈ l, g (f a) = some (h a)) : (l.map f).mapM g = some (l.map h) := by
  rw [List.mapM_map]
  exact mapM_eq_map hg

theorem sampleIndices_sublist (pos n : Nat) :
    ((sampleIndices n).map (pos + ·)).Sublist (interval pos (pos + n)) := by
  have hlt : (sampleIndices n).Pairwise (· < ·) := List.pairwise_lt_range' 4096
  have hsorted : ((sampleIndices n).map (pos + ·)).Pairwise (· < ·) :=
    hlt.map _ fun a b hab => Nat.add_lt_add_left hab pos
  have hsubset : (sampleIndices n).map (pos + ·) ⊆ interval pos (pos + n) := by
    intro o ho
    obtain ⟨i, hi, rfl⟩ := List.mem_map.mp ho
    have hin := (mem_sampleIndices.mp hi).1
    rw [mem_interval]
    omega
  have hinterval : (interval pos (pos + n)).Pairwise (· < ·) := List.pairwise_lt_range'
  exact List.sublist_of_subperm_of_pairwise (List.subperm_of_subset hsorted.nodup hsubset)
    hsorted hinterval

theorem sampled_sublist (reads : List (Nat × Nat)) : (sampled reads).Sublist (bytesRead reads) :=
  List.Sublist.flatMap_right reads fun r _ => sampleIndices_sublist r.1 r.2

theorem roundSampled_sublist (cfg : Config) (size : Nat) {calls : Nat → Calls}
    (hcalls : ∀ id, (calls id).Succeed) :
    (roundSampled cfg size calls).Sublist (interval 0 size) := by
  have hcover : (List.range cfg.total).flatMap
      (fun k => interval (cut size cfg.total k) (cut size cfg.total (k + 1))) =
        interval 0 size := by
    rw [flatMap_interval (cut_monotone size cfg.total), cut_zero cfg.total_bounds.1,
      cut_of_le (Nat.le_refl _)]
  rw [← hcover]
  apply List.Sublist.flatMap_right _
  intro k _
  rw [← slice_bytes cfg size hcalls k]
  exact sampled_sublist _

theorem roundSampled_nodup (cfg : Config) (size : Nat) {calls : Nat → Calls}
    (hcalls : ∀ id, (calls id).Succeed) : (roundSampled cfg size calls).Nodup :=
  (roundSampled_sublist cfg size hcalls).nodup (interval_nodup 0 size)

theorem sampleSum_flatMap (file : File) (f : Nat → List Nat) (ks : List Nat) :
    sampleSum file (ks.flatMap f) = (ks.map fun k => sampleSum file (f k)).sum := by
  induction ks with
  | nil => rfl
  | cons k ks ih => simp [ih]

/-- The summary checksum is the sum of the bytes at the sampled offsets. -/
theorem roundSummary_eq (cfg : Config) (file : File) (hsize : file.size < 2 ^ 63)
    {calls : Nat → Calls} (hcalls : ∀ id, (calls id).Succeed) :
    ∃ t, roundSummary cfg file calls = some t ∧
      t.checksum = sampleSum file (roundSampled cfg file.size calls) := by
  choose result hruns hchecksum using runs_slice cfg file hsize hcalls
  have hworker : ∀ k, runWorker file calls (sliceOf file.size cfg.total k) = some (result k) := by
    intro k
    have hk := hruns k (file.size + 1) (Nat.lt_succ_self _)
    simp [runWorker, sliceOf, hk]
  have hresults : (((List.range cfg.procs).map fun p => (List.range cfg.workers).map fun t =>
      sliceOf file.size cfg.total (p * cfg.workers + t)).mapM
        fun args => args.mapM (runWorker file calls)) =
      some ((List.range cfg.procs).map fun p => (List.range cfg.workers).map fun t =>
        result (p * cfg.workers + t)) := by
    refine mapM_map_eq_map fun p _ => mapM_map_eq_map fun t _ => ?_
    exact hworker (p * cfg.workers + t)
  have hflatten : ((List.range cfg.procs).map fun p => (List.range cfg.workers).map fun t =>
      result (p * cfg.workers + t)).flatten = (List.range cfg.total).map result :=
    flatten_range_mul _ _ _
  have hsum : (((List.range cfg.total).map result).map (·.checksum)).sum =
      sampleSum file (roundSampled cfg file.size calls) := by
    rw [roundSampled, sampleSum_flatMap, List.map_map]
    exact congrArg (fun f => ((List.range cfg.total).map f).sum) (funext hchecksum)
  refine ⟨_, by rw [roundSummary, cfg.roundArgs_eq hsize, Option.bind_eq_bind, Option.bind_some,
    hresults, Option.bind_eq_bind, Option.bind_some], ?_⟩
  rw [checksum_additive.summaryOf, hflatten, hsum]

/-! ## When two rounds agree -/

/-- The checksum of a set of offsets tells whether `o` is one of them. -/
theorem sampleSum_indicator (size o : Nat) {os : List Nat} (hos : os.Nodup) :
    sampleSum ⟨size, fun i => if i = o then 1 else 0⟩ os = if o ∈ os then 1 else 0 := by
  induction os with
  | nil => rfl
  | cons i os ih =>
      have hrest := ih (List.nodup_cons.mp hos).2
      have hnot := (List.nodup_cons.mp hos).1
      simp only [sampleSum, List.map_cons, List.sum_cons] at hrest ⊢
      rw [hrest]
      by_cases hi : i = o
      · subst hi
        simp [hnot]
      · simp [hi, Ne.symm hi]

theorem sampleSum_congr (file : File) {os os' : List Nat} (hos : os.Nodup) (hos' : os'.Nodup)
    (h : ∀ o, o ∈ os ↔ o ∈ os') : sampleSum file os = sampleSum file os' := by
  have hperm : os.Perm os' := (List.perm_ext_iff_of_nodup hos hos').mpr h
  exact (hperm.map _).sum_eq

/-- Every call of `read` in the round starts at a multiple of 4096. -/
def AlignedReads (cfg : Config) (size : Nat) (calls : Nat → Calls) : Prop :=
  ∀ k < cfg.total, ∀ r ∈ rangeReads (calls k).read (cut size cfg.total k)
    (cut size cfg.total (k + 1)), 4096 ∣ r.1

theorem mem_sampled_of_aligned {reads : List (Nat × Nat)} (h : ∀ r ∈ reads, 4096 ∣ r.1)
    {o : Nat} : o ∈ sampled reads ↔ o ∈ bytesRead reads ∧ 4096 ∣ o := by
  induction reads with
  | nil => simp
  | cons r reads ih =>
      have hr : 4096 ∣ r.1 := h r (by simp)
      have hrest := ih fun r' hr' => h r' (by simp [hr'])
      have hhead : o ∈ (sampleIndices r.2).map (r.1 + ·) ↔
          o ∈ interval r.1 (r.1 + r.2) ∧ 4096 ∣ o := by
        simp only [List.mem_map, mem_sampleIndices, mem_interval]
        constructor
        · rintro ⟨i, ⟨hi, hdvd⟩, ho⟩
          subst ho
          exact ⟨by omega, by omega⟩
        · rintro ⟨ho, hdvd⟩
          exact ⟨o - r.1, by omega, by omega⟩
      simp only [sampled, bytesRead, List.flatMap_cons, List.mem_append] at hrest ⊢
      rw [hhead, hrest]
      tauto

/-- A round with aligned reads samples one byte of every page of the file. -/
theorem mem_roundSampled_of_aligned (cfg : Config) (size : Nat) {calls : Nat → Calls}
    (hcalls : ∀ id, (calls id).Succeed) (h : AlignedReads cfg size calls) {o : Nat} :
    o ∈ roundSampled cfg size calls ↔ o < size ∧ 4096 ∣ o := by
  have hworker : ∀ k < cfg.total, (o ∈ workerSampled cfg size calls k ↔
      o ∈ interval (cut size cfg.total k) (cut size cfg.total (k + 1)) ∧ 4096 ∣ o) := by
    intro k hk
    rw [← slice_bytes cfg size hcalls k]
    exact mem_sampled_of_aligned (h k hk)
  simp only [roundSampled, List.mem_flatMap, List.mem_range]
  constructor
  · rintro ⟨k, hk, hmem⟩
    have hslice := (hworker k hk).mp hmem
    have hbounds := mem_interval.mp hslice.1
    exact ⟨Nat.lt_of_lt_of_le hbounds.2 (cut_le _ _ _), hslice.2⟩
  · rintro ⟨ho, hdvd⟩
    obtain ⟨k, ⟨hk, hmem⟩, _⟩ := existsUnique_slice cfg.total_bounds.1 ho
    exact ⟨k, hk, (hworker k hk).mpr ⟨hmem, hdvd⟩⟩

/-- Two rounds over a file of `size` bytes both print a summary, with the same
checksum, whatever the file contains. -/
def SameChecksum (size : Nat) (cfg cfg' : Config) (calls calls' : Nat → Calls) : Prop :=
  ∀ byte : Nat → UInt8, ∃ t t', roundSummary cfg ⟨size, byte⟩ calls = some t ∧
    roundSummary cfg' ⟨size, byte⟩ calls' = some t' ∧ t.checksum = t'.checksum

/-- Two rounds agree on the checksum for every content exactly when they sample
the same offsets. They do when all reads of both are aligned. -/
theorem sameChecksum_iff (size : Nat) (hsize : size < 2 ^ 63) (cfg cfg' : Config)
    (calls calls' : Nat → Calls) (hcalls : ∀ id, (calls id).Succeed)
    (hcalls' : ∀ id, (calls' id).Succeed) :
    (SameChecksum size cfg cfg' calls calls' ↔
      ∀ o, o ∈ roundSampled cfg size calls ↔ o ∈ roundSampled cfg' size calls') ∧
    (AlignedReads cfg size calls → AlignedReads cfg' size calls' →
      SameChecksum size cfg cfg' calls calls') := by
  have hnodup := roundSampled_nodup cfg size hcalls
  have hnodup' := roundSampled_nodup cfg' size hcalls'
  have hiff : SameChecksum size cfg cfg' calls calls' ↔
      ∀ o, o ∈ roundSampled cfg size calls ↔ o ∈ roundSampled cfg' size calls' := by
    constructor
    · intro hsame o
      obtain ⟨t, t', ht, ht', heq⟩ := hsame fun i => if i = o then 1 else 0
      obtain ⟨u, hu, hsum⟩ := roundSummary_eq cfg ⟨size, fun i => if i = o then 1 else 0⟩ hsize hcalls
      obtain ⟨u', hu', hsum'⟩ :=
        roundSummary_eq cfg' ⟨size, fun i => if i = o then 1 else 0⟩ hsize hcalls'
      obtain rfl := Option.some.inj (ht.symm.trans hu)
      obtain rfl := Option.some.inj (ht'.symm.trans hu')
      rw [hsum, hsum', sampleSum_indicator size o hnodup, sampleSum_indicator size o hnodup'] at heq
      by_cases hmem : o ∈ roundSampled cfg size calls <;>
        by_cases hmem' : o ∈ roundSampled cfg' size calls' <;> simp_all
    · intro hsame byte
      obtain ⟨t, ht, hsum⟩ := roundSummary_eq cfg ⟨size, byte⟩ hsize hcalls
      obtain ⟨t', ht', hsum'⟩ := roundSummary_eq cfg' ⟨size, byte⟩ hsize hcalls'
      refine ⟨t, t', ht, ht', ?_⟩
      rw [hsum, hsum', sampleSum_congr ⟨size, byte⟩ hnodup hnodup' hsame]
  refine ⟨hiff, ?_⟩
  intro haligned haligned'
  rw [hiff]
  intro o
  rw [mem_roundSampled_of_aligned cfg size hcalls haligned,
    mem_roundSampled_of_aligned cfg' size hcalls' haligned']

/-- Every read returns all the bytes asked for. -/
def fullReads : Nat → Calls :=
  fun _ => ⟨true, true, true, some (0, 0), some (0, 0), fun _ len => len⟩

theorem fullReads_succeed (id : Nat) : (fullReads id).Succeed :=
  ⟨⟨rfl, rfl, rfl, rfl, rfl⟩, fun _ len hlen => by
    show (1 : Int) ≤ len ∧ (len : Int) ≤ len
    omega⟩

def singleConfig : Config := ⟨.single, 1, 1, one_count_ok, one_count_ok⟩
def twoThreads : Config := ⟨.threads, 1, 2, one_count_ok, two_count_ok⟩

theorem sameChecksum_iff_two_threads :
    (SameChecksum 2 singleConfig twoThreads fullReads fullReads ↔
      ∀ o, o ∈ roundSampled singleConfig 2 fullReads ↔ o ∈ roundSampled twoThreads 2 fullReads) ∧
    (AlignedReads singleConfig 2 fullReads → AlignedReads twoThreads 2 fullReads →
      SameChecksum 2 singleConfig twoThreads fullReads fullReads) :=
  sameChecksum_iff 2 (by decide) _ _ _ _ fullReads_succeed fullReads_succeed

/-- Two bytes of value 1: one worker samples the first, two workers sample both. -/
theorem checksum_depends_on_slices :
    ¬ ∀ (file : File) (cfg cfg' : Config) (calls calls' : Nat → Calls), file.size < 2 ^ 63 →
      (∀ id, (calls id).Succeed) → (∀ id, (calls' id).Succeed) →
      (roundSummary cfg file calls).map (·.checksum) =
        (roundSummary cfg' file calls').map (·.checksum) := by
  intro h
  have heq := h ⟨2, fun _ => 1⟩ singleConfig twoThreads fullReads fullReads (by decide)
    fullReads_succeed fullReads_succeed
  have hsingle : (roundSummary singleConfig ⟨2, fun _ => 1⟩ fullReads).map (·.checksum) =
      some 1 := by decide
  have htwo : (roundSummary twoThreads ⟨2, fun _ => 1⟩ fullReads).map (·.checksum) =
      some 2 := by decide
  rw [hsingle, htwo] at heq
  exact absurd heq (by decide)

end OsLabs.PageCacheModels
