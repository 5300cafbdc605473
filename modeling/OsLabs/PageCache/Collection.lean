import Mathlib.Algebra.Order.BigOperators.Group.Finset
import OsLabs.PageCache.CollectInvariant

/-! # The collection is correct

The invariants put together: the parent never hangs, it ends, and when it has
ended it has counted every child that wrote a line once and reaped every child.
-/

namespace OsLabs.PageCacheModels

section Model

variable {procs cap : Nat} {outcome : Nat → Option WorkerResult} {s s' : CollectState}

structure CollectInv (procs : Nat) (outcome : Nat → Option WorkerResult) (s : CollectState) :
    Prop where
  fd : FdInv procs s
  data : DataInv procs outcome s
  result : ResultInv procs outcome s
  reap : ReapInv procs s

theorem CollectInv.init : CollectInv procs outcome collectInit :=
  ⟨FdInv.init, DataInv.init, ResultInv.init, ReapInv.init⟩

theorem CollectInv.step (hcol : Collectable procs cap outcome) (h : CollectInv procs outcome s)
    (hstep : CollectStep procs cap outcome s s') : CollectInv procs outcome s' where
  fd := h.fd.step hstep
  data := h.data.step hcol h.fd hstep
  result := h.result.step hcol h.fd h.data hstep
  reap := h.reap.step h.fd hstep

theorem CollectInv.of_reachable (hcol : Collectable procs cap outcome)
    (h : (collectSystem procs cap outcome).Reachable s) : CollectInv procs outcome s := by
  apply h.invariant
  · intro s₀ hinit
    rw [show s₀ = collectInit from hinit]
    exact CollectInv.init
  · intro s₁ a s₂ hinv hnext
    exact hinv.step hcol (collectNext_cases hnext)

/-! ## Progress -/

/-- A child between its birth and its exit can move. -/
theorem child_enabled (hcol : Collectable procs cap outcome) (h : CollectInv procs outcome s)
    {c : Nat} (hc : c < procs) (hunborn : (s.child c).phase ≠ .unborn)
    (hzombie : (s.child c).phase ≠ .zombie) (hreaped : (s.child c).phase ≠ .reaped) :
    (collectSystem procs cap outcome).Enabled s := by
  apply Lts.enabled_of_isSome (CollectAct.child c)
  simp only [collectSystem, collectNext, if_pos hc]
  cases hphase : (s.child c).phase with
  | unborn => exact absurd hphase hunborn
  | zombie => exact absurd hphase hzombie
  | reaped => exact absurd hphase hreaped
  | forked => simp [childNext, hphase]
  | wrote => simp [childNext, hphase]
  | closed => simp [childNext, hphase]
  | working =>
      cases hout : outcome c with
      | none => simp [childNext, hphase, hout]
      | some r =>
          have hempty := (h.data.empty_of_not_past hc (by rw [hphase]; rfl)).2
          have hroom : (s.data c).length + (childLine c r).format.length ≤ cap := by
            rw [hempty]
            simpa using hcol.fits c r hc hout
          simp only [childNext, hphase, hout, writeNext, if_pos hroom]
          split <;> rfl

/-- `fscanf` can move, or it waits for a child that can. -/
theorem scan_enabled (hcol : Collectable procs cap outcome) (h : CollectInv procs outcome s)
    {p : Nat} {buf : List Char} (hpc : s.parent = .scan p buf) (hp : p < procs) :
    (collectSystem procs cap outcome).Enabled s := by
  have hparent : (scanNext procs s p buf).isSome → (collectSystem procs cap outcome).Enabled s := by
    intro hsome
    apply Lts.enabled_of_isSome CollectAct.parent
    simpa [collectSystem, collectNext, parentNext, hpc, hp] using hsome
  cases hscan : scanLine false buf with
  | done l rest => exact hparent (by simp [scanNext, hscan])
  | fail => exact hparent (by simp [scanNext, hscan])
  | more =>
      by_cases hempty : s.data p = []
      · by_cases hend : writeOpen procs s p = false
        · apply hparent
          simp only [scanNext, hscan, if_pos (And.intro hempty hend)]
          split <;> rfl
        · rw [h.fd.writeOpen_eq hp, hpc, Bool.not_eq_false] at hend
          have hholds : (s.child p).phase.holdsWrite = true := hend
          refine child_enabled hcol h hp ?_ ?_ ?_ <;>
            · intro hphase
              rw [hphase] at hholds
              cases hholds
      · have hlen := List.length_pos_iff.mpr hempty
        apply Lts.enabled_of_isSome (CollectAct.read 1)
        simp only [collectSystem, collectNext, hpc, if_pos hp, readNext, hscan]
        rw [if_pos ⟨Nat.one_pos, hlen⟩]
        rfl

/-- `wait` returns, or it waits for a child that can move. -/
theorem wait_enabled (hcol : Collectable procs cap outcome) (h : CollectInv procs outcome s)
    {k : Nat} (hpc : s.parent = .wait k) (hk : k < procs) :
    (collectSystem procs cap outcome).Enabled s := by
  by_cases hnone : noChildren procs s = true
  · apply Lts.enabled_of_isSome CollectAct.parent
    simp [collectSystem, collectNext, parentNext, hpc, hk, hnone]
  · have hleft : ∃ c, c < procs ∧ (s.child c).phase ≠ .unborn ∧ (s.child c).phase ≠ .reaped := by
      simpa [noChildren] using hnone
    rcases hleft with ⟨c, hc, hunborn, hreaped⟩
    by_cases hzombie : (s.child c).phase = .zombie
    · apply Lts.enabled_of_isSome (CollectAct.reaped c)
      simp [collectSystem, collectNext, hpc, hk, hc, hzombie]
    · exact child_enabled hcol h hc hunborn hzombie hreaped

theorem CollectInv.progress (hcol : Collectable procs cap outcome)
    (h : CollectInv procs outcome s) :
    s.parent = .finished ∨ (collectSystem procs cap outcome).Enabled s := by
  have hparent : (parentNext procs s).isSome → (collectSystem procs cap outcome).Enabled s :=
    fun hsome => Lts.enabled_of_isSome CollectAct.parent hsome
  cases hpc : s.parent with
  | finished => exact .inl rfl
  | pipe p =>
      right
      apply hparent
      simp only [parentNext, hpc]
      split <;> rfl
  | fork p => exact .inr (hparent (by simp [parentNext, hpc]))
  | closeWrite p => exact .inr (hparent (by simp [parentNext, hpc]))
  | fclose p => exact .inr (hparent (by simp [parentNext, hpc]))
  | scan p buf =>
      by_cases hp : p < procs
      · exact .inr (scan_enabled hcol h hpc hp)
      · exact .inr (hparent (by simp [parentNext, hpc, hp]))
  | wait k =>
      by_cases hk : k < procs
      · exact .inr (wait_enabled hcol h hpc hk)
      · exact .inr (hparent (by simp [parentNext, hpc, hk]))

/-! ## Termination -/

def ParentPc.stepsLeft (procs : Nat) : ParentPc → Nat
  | .pipe p => 3 * (procs - p) + 3 * procs + 4
  | .fork p => 3 * (procs - p) + 3 * procs + 3
  | .closeWrite p => 3 * (procs - p) + 3 * procs + 2
  | .scan p _ => 2 * (procs - p) + procs + 3
  | .fclose p => 2 * (procs - p) + procs + 2
  | .wait k => (procs - k) + 1
  | .finished => 0

def ChildPhase.stepsLeft (line : Nat) : ChildPhase → Nat
  | .unborn | .forked => line + 4
  | .working => line + 3
  | .wrote => 2
  | .closed => 1
  | .zombie | .reaped => 0

/-- Steps child `c` can still make, and characters it can still deliver. -/
def childLeft (outcome : Nat → Option WorkerResult) (s : CollectState) (c : Nat) : Nat :=
  (s.child c).phase.stepsLeft (((outcome c).map fun r => (childLine c r).format.length).getD 0) +
    (s.data c).length

def stepsLeft (procs : Nat) (outcome : Nat → Option WorkerResult) (s : CollectState) : Nat :=
  s.parent.stepsLeft procs + ∑ c ∈ Finset.range procs, childLeft outcome s c

theorem stepsLeft_parent (hparent : s'.parent.stepsLeft procs < s.parent.stepsLeft procs)
    (hchild : ∀ c, childLeft outcome s' c ≤ childLeft outcome s c) :
    stepsLeft procs outcome s' < stepsLeft procs outcome s :=
  Nat.add_lt_add_of_lt_of_le hparent (Finset.sum_le_sum fun c _ => hchild c)

theorem stepsLeft_child {c : Nat} (hc : c < procs)
    (hparent : s'.parent.stepsLeft procs ≤ s.parent.stepsLeft procs)
    (hlt : childLeft outcome s' c < childLeft outcome s c)
    (hother : ∀ d, d ≠ c → childLeft outcome s' d = childLeft outcome s d) :
    stepsLeft procs outcome s' < stepsLeft procs outcome s := by
  have hle : ∀ d ∈ Finset.range procs, childLeft outcome s' d ≤ childLeft outcome s d := by
    intro d _
    by_cases hdc : d = c
    · exact hdc ▸ Nat.le_of_lt hlt
    · exact Nat.le_of_eq (hother d hdc)
  exact Nat.add_lt_add_of_le_of_lt hparent
    (Finset.sum_lt_sum hle ⟨c, Finset.mem_range.mpr hc, hlt⟩)

theorem childLeft_setChild {c : Nat} {phase : ChildPhase} {fds : Fds} (d : Nat) :
    d ≠ c → childLeft outcome (s.setChild c phase fds) d = childLeft outcome s d := by
  intro hdc
  simp [childLeft, CollectState.setChild, hdc]

theorem stepsLeft_setChild {c : Nat} {phase : ChildPhase} {fds : Fds} (hc : c < procs)
    (hlt : ∀ line, phase.stepsLeft line < (s.child c).phase.stepsLeft line) :
    stepsLeft procs outcome (s.setChild c phase fds) < stepsLeft procs outcome s := by
  refine stepsLeft_child hc (Nat.le_refl _) ?_ childLeft_setChild
  simp only [childLeft, CollectState.setChild, Function.update_self]
  exact Nat.add_lt_add_right (hlt _) _

theorem stepsLeft_step (hfd : FdInv procs s) (hstep : CollectStep procs cap outcome s s') :
    stepsLeft procs outcome s' < stepsLeft procs outcome s := by
  have hbound := hfd.bounds
  cases hstep with
  | @pipe p hpc hp =>
      apply stepsLeft_parent (by rw [hpc]; exact Nat.lt_succ_self _)
      intro c
      by_cases hcp : c = p
      · simp [childLeft, CollectState.setData, hcp]
      · simp [childLeft, CollectState.setData, hcp]
  | @forkedAll p hpc hp =>
      refine stepsLeft_parent ?_ fun c => Nat.le_refl _
      simp only [hpc, ParentPc.stepsLeft]
      omega
  | @fork p hpc =>
      have hunborn : (s.child p).phase = .unborn := by
        rw [hfd.unborn, hpc]
        exact Nat.le_refl p
      apply stepsLeft_parent (by rw [hpc]; exact Nat.lt_succ_self _)
      intro c
      by_cases hcp : c = p
      · simp [childLeft, CollectState.setChild, hcp, hunborn, ChildPhase.stepsLeft]
      · exact Nat.le_of_eq (childLeft_setChild c hcp)
  | @closeWrite p hpc =>
      rw [hpc] at hbound
      have hlt : p < procs := hbound
      refine stepsLeft_parent ?_ fun c => Nat.le_refl _
      simp only [hpc, ParentPc.stepsLeft]
      omega
  | matched hpc _ _ =>
      exact stepsLeft_parent (by rw [hpc]; exact Nat.lt_succ_self _) fun c => Nat.le_refl _
  | unmatched hpc _ _ =>
      exact stepsLeft_parent (by rw [hpc]; exact Nat.lt_succ_self _) fun c => Nat.le_refl _
  | @read p n buf hpc hp _ hn hle =>
      apply stepsLeft_child hp (by rw [hpc]; exact Nat.le_refl _)
      · simp only [childLeft, CollectState.setData, Function.update_self, List.length_drop]
        omega
      · intro d hdp
        simp [childLeft, CollectState.setData, hdp]
  | @scannedAll p buf hpc hp =>
      refine stepsLeft_parent ?_ fun c => Nat.le_refl _
      simp only [hpc, ParentPc.stepsLeft]
      omega
  | @fclose p hpc =>
      rw [hpc] at hbound
      have hlt : p < procs := hbound
      refine stepsLeft_parent ?_ fun c => Nat.le_refl _
      simp only [hpc, ParentPc.stepsLeft]
      omega
  | @waitNone k hpc hk _ =>
      refine stepsLeft_parent ?_ fun c => Nat.le_refl _
      simp only [hpc, ParentPc.stepsLeft]
      omega
  | @reap k c hpc hk hc hphase =>
      apply stepsLeft_parent
      · simp only [hpc, ParentPc.stepsLeft]
        omega
      · intro d
        by_cases hdc : d = c
        · simp [childLeft, CollectState.setChild, hdc, ChildPhase.stepsLeft]
        · exact Nat.le_of_eq (childLeft_setChild d hdc)
  | waitedAll hpc _ =>
      exact stepsLeft_parent (by rw [hpc]; exact Nat.succ_pos _) fun c => Nat.le_refl _
  | childCloseRead hc hphase =>
      exact stepsLeft_setChild hc (by simp [hphase, ChildPhase.stepsLeft])
  | childFails hc hphase _ => exact stepsLeft_setChild hc (by simp [hphase, ChildPhase.stepsLeft])
  | childKilled hc hphase _ => exact stepsLeft_setChild hc (by simp [hphase, ChildPhase.stepsLeft])
  | @childWrites c r hc hphase hr _ =>
      refine stepsLeft_child hc (Nat.le_refl _) ?_ fun d hdc => ?_
      · simp [childLeft, CollectState.setChild, CollectState.setData, hphase, hr,
          ChildPhase.stepsLeft]
        omega
      · simp [childLeft, CollectState.setChild, CollectState.setData, hdc]
  | childCloses hc hphase => exact stepsLeft_setChild hc (by simp [hphase, ChildPhase.stepsLeft])
  | childExits hc hphase => exact stepsLeft_setChild hc (by simp [hphase, ChildPhase.stepsLeft])

/-- From every reachable state the parent ends, whatever runs first. -/
theorem collect_inevitable (hcol : Collectable procs cap outcome) (h : CollectInv procs outcome s) :
    (collectSystem procs cap outcome).Inevitable (fun s => s.parent = .finished) s := by
  refine Lts.Inevitable.of_measure (I := CollectInv procs outcome) (stepsLeft procs outcome)
    (fun s₁ hinv => hinv.progress hcol) (fun s₁ a s₂ hinv hnext => ?_) h
  have hstep := collectNext_cases hnext
  exact ⟨hinv.step hcol hstep, stepsLeft_step hinv.fd hstep⟩

/-! ## The result -/

/-- The totals of the children that write theirs, each once. -/
def childTotals (procs : Nat) (outcome : Nat → Option WorkerResult) : WorkerResult :=
  joinTotals ((List.range procs).filterMap outcome)

theorem writers_map_snd (n : Nat) :
    (writers outcome n).map (·.2) = (List.range n).filterMap outcome := by
  rw [writers, List.map_filterMap]
  congr 1
  funext c
  cases outcome c <;> rfl

theorem CollectInv.totals (h : CollectInv procs outcome s) (hend : s.parent = .finished) :
    s.totals = (childTotals procs outcome).toLong := by
  have htotals := h.result.totals
  rw [hend] at htotals
  rw [htotals, writers_map_snd, WorkerResult.foldl_addLong_zero]
  rfl

theorem CollectInv.all_reaped (h : CollectInv procs outcome s) (hend : s.parent = .finished)
    {c : Nat} (hc : c < procs) : (s.child c).phase = .reaped := by
  have hcard : (reapedChildren procs s).card = s.parent.waits procs := h.reap
  rw [hend] at hcard
  have hall : reapedChildren procs s = Finset.range procs := by
    have hle : (Finset.range procs).card ≤ (reapedChildren procs s).card := by
      rw [hcard, Finset.card_range]
      exact Nat.le_refl procs
    exact Finset.eq_of_subset_of_card_le (Finset.filter_subset _ _) hle
  have hmem : c ∈ reapedChildren procs s := hall ▸ Finset.mem_range.mpr hc
  exact (Finset.mem_filter.mp hmem).2

end Model

/-- In every reachable state of the collection: the parent has finished or some
step is possible; the run ends whatever runs first; every line a child writes
is scanned back as it was; the lines matched so far are those of the children
that wrote, in order; and at the end the totals are the `long` sums over the
children that wrote (the exact sums where these fit) and every child is reaped. -/
theorem collection_correct {procs cap : Nat} {outcome : Nat → Option WorkerResult}
    (hcol : Collectable procs cap outcome) {s : CollectState}
    (hreach : (collectSystem procs cap outcome).Reachable s) :
    (s.parent = .finished ∨ (collectSystem procs cap outcome).Enabled s) ∧
      (collectSystem procs cap outcome).Inevitable (fun s => s.parent = .finished) s ∧
      (∀ c r, c < procs → outcome c = some r →
        scanLine false (childLine c r).format = .done (childLine c r) ['\n']) ∧
      s.lines = (writers outcome (s.parent.scannedPipes procs)).map
        (fun w => childLine w.1 w.2) ∧
      (s.parent = .finished →
        s.totals = (childTotals procs outcome).toLong ∧
          ((childTotals procs outcome).InRange → s.totals = childTotals procs outcome) ∧
          ∀ c, c < procs → (s.child c).phase = .reaped) := by
  have hinv := CollectInv.of_reachable hcol hreach
  refine ⟨hinv.progress hcol, collect_inevitable hcol hinv, ?_, hinv.result.lines, ?_⟩
  · intro c r hc hout
    exact scanLine_format (hcol.line hc hout) false
  · intro hend
    have htotals := hinv.totals hend
    refine ⟨htotals, ?_, fun c hc => hinv.all_reaped hend hc⟩
    intro hrange
    rw [htotals, WorkerResult.toLong_of_inRange hrange]

/-- Child 0 writes its totals, child 1 fails. -/
def oneOfTwo (c : Nat) : Option WorkerResult := if c = 0 then some ⟨3, 0, 7⟩ else none

theorem collection_correct_one_of_two :
    ∃ s, (collectSystem 2 4096 oneOfTwo).Reachable s ∧ s.parent = .finished ∧
      s.totals = ⟨3, 0, 7⟩ ∧ ∀ c, c < 2 → (s.child c).phase = .reaped := by
  have hcol : Collectable 2 4096 oneOfTwo := by
    constructor
    · decide
    · intro c r _ hr
      by_cases hc : c = 0
      · obtain rfl : ⟨3, 0, 7⟩ = r := by simpa [oneOfTwo, hc] using hr
        exact ⟨by decide, by decide⟩
      · simp [oneOfTwo, hc] at hr
    · intro c r _ hr
      by_cases hc : c = 0
      · obtain rfl : ⟨3, 0, 7⟩ = r := by simpa [oneOfTwo, hc] using hr
        subst hc
        decide
      · simp [oneOfTwo, hc] at hr
  have hinit : (collectSystem 2 4096 oneOfTwo).Reachable collectInit := .of_init rfl
  rcases (collection_correct hcol hinit).2.1.exists_run with ⟨ts, s, hruns, hend⟩
  have hreach : (collectSystem 2 4096 oneOfTwo).Reachable s := ⟨collectInit, ts, rfl, hruns⟩
  have hresult := (collection_correct hcol hreach).2.2.2.2 hend
  exact ⟨s, hreach, hend, hresult.2.1 ⟨by decide, by decide⟩, hresult.2.2⟩

end OsLabs.PageCacheModels
