import Mathlib.Data.Finset.Card
import OsLabs.PageCache.CollectSteps

/-! # Invariants of the collection

Which process holds which pipe end follows from where the parent and the
children are; so does what has been written, read and matched so far.
-/

namespace OsLabs.PageCacheModels

namespace ParentPc

/-- Children the parent has forked. -/
def forkedChildren (procs : Nat) : ParentPc → Nat
  | .pipe p | .fork p => p
  | .closeWrite p => p + 1
  | _ => procs

/-- Pipes the parent is done with. -/
def scannedPipes (procs : Nat) : ParentPc → Nat
  | .pipe _ | .fork _ | .closeWrite _ => 0
  | .scan p _ => p
  | .fclose p => p + 1
  | _ => procs

def InBounds (procs : Nat) : ParentPc → Prop
  | .pipe p | .scan p _ | .wait p => p ≤ procs
  | .fork p | .closeWrite p | .fclose p => p < procs
  | .finished => True

def readEnd (procs : Nat) : ParentPc → Nat → Bool
  | .pipe p, q => q < p
  | .fork p, q | .closeWrite p, q => q ≤ p
  | .scan p _, q | .fclose p, q => p ≤ q ∧ q < procs
  | _, _ => false

def writeEnd : ParentPc → Nat → Bool
  | .fork p, q | .closeWrite p, q => q = p
  | _, _ => false

end ParentPc

namespace ChildPhase

/-- The child still holds the write end of its own pipe. -/
def holdsWrite : ChildPhase → Bool
  | .forked | .working | .wrote => true
  | _ => false

/-- The child has written its line, or never will. -/
def past : ChildPhase → Bool
  | .wrote | .closed | .zombie | .reaped => true
  | _ => false

end ChildPhase

section Model

variable {procs cap : Nat} {outcome : Nat → Option WorkerResult} {s s' : CollectState}

/-! ## Pipe ends -/

structure FdInv (procs : Nat) (s : CollectState) : Prop where
  bounds : s.parent.InBounds procs
  unborn : ∀ c, (s.child c).phase = .unborn ↔ s.parent.forkedChildren procs ≤ c
  rd : ∀ q, s.fds.rd q = s.parent.readEnd procs q
  wr : ∀ q, s.fds.wr q = s.parent.writeEnd q
  childWr : ∀ c q, (s.child c).fds.wr q = (decide (q = c) && (s.child c).phase.holdsWrite)

theorem FdInv.init : FdInv procs collectInit where
  bounds := Nat.zero_le _
  unborn c := by simp [collectInit, ParentPc.forkedChildren]
  rd q := by simp [collectInit, Fds.none, ParentPc.readEnd]
  wr q := rfl
  childWr c q := by simp [collectInit, Fds.none, ChildPhase.holdsWrite]

/-- A child's step keeps the parent's table and its own write end in order. -/
theorem FdInv.setChild (h : FdInv procs s) {c : Nat} {phase : ChildPhase} {fds : Fds}
    (hborn : (s.child c).phase ≠ .unborn) (hphase : phase ≠ .unborn)
    (hwr : ∀ q, fds.wr q = (decide (q = c) && phase.holdsWrite)) :
    FdInv procs (s.setChild c phase fds) where
  bounds := h.bounds
  rd := h.rd
  wr := h.wr
  unborn d := by
    by_cases hd : d = c
    · subst hd
      have hforked := mt (h.unborn d).mpr hborn
      simp [CollectState.setChild, hphase, hforked]
    · simpa [CollectState.setChild, hd] using h.unborn d
  childWr d q := by
    by_cases hd : d = c
    · subst hd
      simp [CollectState.setChild, hwr]
    · simpa [CollectState.setChild, hd] using h.childWr d q

/-- A step of the parent that forks no child. -/
theorem FdInv.setParent (h : FdInv procs s) (hchild : s'.child = s.child)
    (hbounds : s'.parent.InBounds procs)
    (hforked : s'.parent.forkedChildren procs = s.parent.forkedChildren procs)
    (hrd : ∀ q, s'.fds.rd q = s'.parent.readEnd procs q)
    (hwr : ∀ q, s'.fds.wr q = s'.parent.writeEnd q) : FdInv procs s' where
  bounds := hbounds
  unborn c := by
    rw [hchild, hforked]
    exact h.unborn c
  rd := hrd
  wr := hwr
  childWr c := by
    rw [hchild]
    exact h.childWr c

theorem FdInv.step (h : FdInv procs s) (hstep : CollectStep procs cap outcome s s') :
    FdInv procs s' := by
  have hb := h.bounds
  have hu := h.unborn
  have hrd := h.rd
  have hwr := h.wr
  have hdead : ∀ (c q : Nat), Fds.none.wr q = (decide (q = c) && ChildPhase.zombie.holdsWrite) := by
    simp [Fds.none, ChildPhase.holdsWrite]
  cases hstep with
  | @pipe p hpc hp =>
      rw [hpc] at hrd hwr
      refine h.setParent rfl hp (by rw [hpc]; rfl) (fun q => ?_) fun q => ?_
      · have hq := hrd q
        by_cases hpq : q = p
        · simp [hpq, ParentPc.readEnd]
        · simp only [ParentPc.readEnd] at hq ⊢
          rw [Function.update_of_ne hpq, hq, decide_eq_decide]
          omega
      · have hq := hwr q
        by_cases hpq : q = p
        · simp [hpq, ParentPc.writeEnd]
        · simpa [ParentPc.writeEnd, hpq] using hq
  | @forkedAll p hpc hp =>
      rw [hpc] at hb hrd hwr
      have hlast : p = procs := Nat.le_antisymm hb (Nat.le_of_not_lt hp)
      refine h.setParent rfl (Nat.zero_le _) (by rw [hpc, hlast]; rfl) (fun q => ?_) hwr
      simpa [ParentPc.readEnd, hlast] using hrd q
  | @fork p hpc =>
      rw [hpc] at hb hu hrd hwr
      constructor
      · exact hb
      · intro c
        have hc := hu c
        by_cases hcp : c = p
        · simp [CollectState.setChild, hcp, ParentPc.forkedChildren]
        · simp only [CollectState.setChild, ParentPc.forkedChildren] at hc ⊢
          rw [Function.update_of_ne hcp, hc]
          omega
      · exact hrd
      · exact hwr
      · intro c q
        by_cases hcp : c = p
        · have hq := hwr q
          simpa [CollectState.setChild, hcp, ChildPhase.holdsWrite, ParentPc.writeEnd] using hq
        · simpa [CollectState.setChild, hcp] using h.childWr c q
  | @closeWrite p hpc =>
      rw [hpc] at hb hrd hwr
      refine h.setParent rfl hb (by rw [hpc]; rfl) (fun q => ?_) fun q => ?_
      · rw [hrd q]
        simp only [ParentPc.readEnd, decide_eq_decide]
        omega
      · have hq := hwr q
        by_cases hpq : q = p
        · simp [hpq, ParentPc.writeEnd]
        · simpa [ParentPc.writeEnd, hpq] using hq
  | matched hpc hp _ =>
      rw [hpc] at hrd hwr
      exact h.setParent rfl hp (by rw [hpc]; rfl) hrd hwr
  | unmatched hpc hp _ =>
      rw [hpc] at hrd hwr
      exact h.setParent rfl hp (by rw [hpc]; rfl) hrd hwr
  | read hpc hp _ _ _ =>
      rw [hpc] at hrd hwr
      exact h.setParent rfl (Nat.le_of_lt hp) (by rw [hpc]; rfl) hrd hwr
  | @scannedAll p buf hpc hp =>
      rw [hpc] at hb hrd hwr
      have hlast : p = procs := Nat.le_antisymm hb (Nat.le_of_not_lt hp)
      refine h.setParent rfl (Nat.zero_le _) (by rw [hpc]; rfl) (fun q => ?_) hwr
      rw [hrd q]
      simp [ParentPc.readEnd, hlast]
  | @fclose p hpc =>
      rw [hpc] at hb hrd hwr
      refine h.setParent rfl hb (by rw [hpc]; rfl) (fun q => ?_) hwr
      have hq := hrd q
      by_cases hpq : q = p
      · simp [hpq, ParentPc.readEnd]
      · simp only [ParentPc.readEnd] at hq ⊢
        rw [Function.update_of_ne hpq, hq, decide_eq_decide]
        omega
  | waitNone hpc hk _ =>
      rw [hpc] at hrd hwr
      exact h.setParent rfl hk (by rw [hpc]; rfl) hrd hwr
  | @reap k c hpc hk hc hphase =>
      rw [hpc] at hrd hwr
      have hchild : FdInv procs (s.setChild c .reaped (s.child c).fds) := by
        apply h.setChild (by simp [hphase]) (by simp)
        intro q
        simpa [hphase, ChildPhase.holdsWrite] using h.childWr c q
      have hparent : (s.setChild c .reaped (s.child c).fds).parent = .wait k := hpc
      exact hchild.setParent rfl hk (by rw [hparent]; rfl) hrd hwr
  | waitedAll hpc hk =>
      rw [hpc] at hrd hwr
      exact h.setParent rfl trivial (by rw [hpc]; rfl) hrd hwr
  | @childCloseRead c hc hphase =>
      apply h.setChild (by simp [hphase]) (by simp)
      intro q
      simpa [hphase, ChildPhase.holdsWrite] using h.childWr c q
  | @childFails c hc hphase _ => exact h.setChild (by simp [hphase]) (by simp) (hdead c)
  | @childKilled c hc hphase _ => exact h.setChild (by simp [hphase]) (by simp) (hdead c)
  | @childWrites c r hc hphase hr hroom =>
      have hdata : FdInv procs (s.setData c (s.data c ++ (childLine c r).format)) :=
        ⟨h.bounds, h.unborn, h.rd, h.wr, h.childWr⟩
      apply hdata.setChild (by simp [CollectState.setData, hphase]) (by simp)
      intro q
      simpa [hphase, ChildPhase.holdsWrite] using h.childWr c q
  | @childCloses c hc hphase =>
      apply h.setChild (by simp [hphase]) (by simp)
      intro q
      have hq := h.childWr c q
      by_cases hqc : q = c
      · simp [hqc, ChildPhase.holdsWrite]
      · simpa [hqc, ChildPhase.holdsWrite] using hq
  | @childExits c hc hphase => exact h.setChild (by simp [hphase]) (by simp) (hdead c)

/-- A child that has not written yet can be read from by the parent. -/
theorem FdInv.readOpen_eq (h : FdInv procs s) {c : Nat} (hc : c < procs)
    (hborn : (s.child c).phase ≠ .unborn) (hscan : s.parent.scannedPipes procs ≤ c) :
    readOpen procs s c = true := by
  have hforked := mt (h.unborn c).mpr hborn
  have hend : s.parent.readEnd procs c = true := by
    cases hpc : s.parent <;>
      simp only [hpc, ParentPc.forkedChildren, ParentPc.scannedPipes, ParentPc.readEnd,
        decide_eq_true_eq] at hforked hscan ⊢ <;> omega
  simp [readOpen, h.rd, hend]

/-- While the parent collects, only child `q` can hold the write end of pipe `q`. -/
theorem FdInv.writeOpen_eq (h : FdInv procs s) {q : Nat} (hq : q < procs) :
    writeOpen procs s q = (s.parent.writeEnd q || (s.child q).phase.holdsWrite) := by
  have hchildren : ((List.range procs).any fun c => (s.child c).fds.wr q) =
      (s.child q).phase.holdsWrite := by
    rw [Bool.eq_iff_iff, List.any_eq_true]
    constructor
    · rintro ⟨c, _, hc⟩
      rw [h.childWr] at hc
      simp only [Bool.and_eq_true, decide_eq_true_eq] at hc
      exact hc.1 ▸ hc.2
    · intro hphase
      exact ⟨q, List.mem_range.mpr hq, by simp [h.childWr, hphase]⟩
  rw [writeOpen, h.wr, hchildren]

/-! ## Pipe contents -/

/-- What `fscanf` has read of pipe `q` and not returned from yet. -/
def ParentPc.buffered : ParentPc → Nat → List Char
  | .scan p buf, q => if q = p then buf else []
  | _, _ => []

/-- What child `c` has written by this point. -/
def written (outcome : Nat → Option WorkerResult) (c : Nat) (phase : ChildPhase) : List Char :=
  match outcome c with
  | some r => if phase.past then (childLine c r).format else []
  | none => []

structure DataInv (procs : Nat) (outcome : Nat → Option WorkerResult) (s : CollectState) :
    Prop where
  writer : ∀ c, (s.child c).phase = .wrote ∨ (s.child c).phase = .closed → (outcome c).isSome
  scanned : ∀ c, c < procs → c < s.parent.scannedPipes procs → (s.child c).phase.past = true
  data : ∀ c, c < procs → s.parent.scannedPipes procs ≤ c →
    s.parent.buffered c ++ s.data c = written outcome c (s.child c).phase

theorem written_of_not_past {c : Nat} {phase : ChildPhase} (h : phase.past = false) :
    written outcome c phase = [] := by
  unfold written
  split <;> simp [h]

theorem written_of_past {c : Nat} {phase : ChildPhase} {r : WorkerResult}
    (hout : outcome c = some r) (h : phase.past = true) :
    written outcome c phase = (childLine c r).format := by
  simp [written, hout, h]

theorem written_of_none {c : Nat} {phase : ChildPhase} (hout : outcome c = none) :
    written outcome c phase = [] := by
  simp [written, hout]

/-- What every child writes is a line `fscanf` can read. -/
structure Collectable (procs cap : Nat) (outcome : Nat → Option WorkerResult) : Prop where
  procs_le : procs ≤ 1024
  inRange : ∀ c r, c < procs → outcome c = some r → r.InRange
  fits : ∀ c r, c < procs → outcome c = some r → (childLine c r).format.length ≤ cap

theorem Collectable.line (h : Collectable procs cap outcome) {c : Nat} {r : WorkerResult}
    (hc : c < procs) (hout : outcome c = some r) : (childLine c r).InRange where
  idx := by
    have hle := h.procs_le
    have hfits : CInt.Fits 32 (c : Int) := CInt.fits_32_iff.mpr (by omega)
    exact hfits
  minf := (h.inRange c r hc hout).minflt
  majf := (h.inRange c r hc hout).majflt

/-- The parent scans only after all children are forked. -/
theorem FdInv.past_of_eof (h : FdInv procs s) {p : Nat} {buf : List Char}
    (hpc : s.parent = .scan p buf) (hp : p < procs) (hend : writeOpen procs s p = false) :
    (s.child p).phase.past = true := by
  have hborn : (s.child p).phase ≠ .unborn := by
    intro hunborn
    have hle := (h.unborn p).mp hunborn
    rw [hpc] at hle
    exact absurd hp (Nat.not_lt.mpr hle)
  rw [h.writeOpen_eq hp, Bool.or_eq_false_iff] at hend
  have hclosed := hend.2
  cases hphase : (s.child p).phase <;> simp_all [ChildPhase.holdsWrite, ChildPhase.past]

/-- `fscanf` returns with the line of child `p` once it has arrived, and without
one only at the end of a pipe nobody wrote to. -/
theorem DataInv.verdict (hcol : Collectable procs cap outcome) (hfd : FdInv procs s)
    (h : DataInv procs outcome s) {p : Nat} {buf : List Char} (hpc : s.parent = .scan p buf)
    (hp : p < procs) :
    (∀ l, ScanMatches procs s p buf l →
        (s.child p).phase.past = true ∧ ∃ r, outcome p = some r ∧ l = childLine p r) ∧
      (ScanFails procs s p buf → (s.child p).phase.past = true ∧ outcome p = none) := by
  have hdata : buf ++ s.data p = written outcome p (s.child p).phase := by
    simpa [hpc, ParentPc.buffered] using h.data p hp (by rw [hpc]; exact Nat.le_refl p)
  by_cases hwrote : ∃ r, outcome p = some r ∧ (s.child p).phase.past = true
  · rcases hwrote with ⟨r, hout, hpast⟩
    have hline := hcol.line hp hout
    rw [written_of_past hout hpast] at hdata
    by_cases hrest : s.data p = []
    · rw [hrest, List.append_nil] at hdata
      have hscan : scanLine false buf = .done (childLine p r) ['\n'] :=
        hdata ▸ scanLine_format hline false
      constructor
      · intro l hmatch
        rcases hmatch with ⟨rest, hdone⟩ | ⟨hmore, _⟩
        · rw [hscan] at hdone
          exact ⟨hpast, r, hout, (Scan.done.inj hdone).1.symm⟩
        · rw [hscan] at hmore
          cases hmore
      · intro hfail
        rcases hfail with hfail | ⟨hmore, _⟩
        · rw [hscan] at hfail
          cases hfail
        · rw [hscan] at hmore
          cases hmore
    · have hscan : scanLine false buf = .more := scanLine_prefix hline hdata hrest
      constructor
      · intro l hmatch
        rcases hmatch with ⟨rest, hdone⟩ | ⟨_, hempty, _⟩
        · rw [hscan] at hdone
          cases hdone
        · exact absurd hempty hrest
      · intro hfail
        rcases hfail with hfail | ⟨_, hempty, _⟩
        · rw [hscan] at hfail
          cases hfail
        · exact absurd hempty hrest
  · have hnothing : written outcome p (s.child p).phase = [] := by
      cases hout : outcome p with
      | none => exact written_of_none hout
      | some r =>
          have hnot : (s.child p).phase.past = false := by
            rw [Bool.eq_false_iff]
            exact fun hpast => hwrote ⟨r, hout, hpast⟩
          exact written_of_not_past hnot
    rw [hnothing, List.append_eq_nil_iff] at hdata
    have hmore : scanLine false buf = .more := by
      rw [hdata.1]
      rfl
    have heof : scanLine true buf = .fail := by
      rw [hdata.1]
      rfl
    constructor
    · intro l hmatch
      rcases hmatch with ⟨rest, hdone⟩ | ⟨_, _, _, rest, hdone⟩
      · rw [hmore] at hdone
        cases hdone
      · rw [heof] at hdone
        cases hdone
    · intro hfail
      rcases hfail with hfail | ⟨_, _, hend, _⟩
      · rw [hmore] at hfail
        cases hfail
      · have hpast := hfd.past_of_eof hpc hp hend
        constructor
        · exact hpast
        · cases hout : outcome p with
          | none => rfl
          | some r => exact absurd ⟨r, hout, hpast⟩ hwrote

theorem DataInv.init : DataInv procs outcome collectInit where
  writer c h := by simp [collectInit] at h
  scanned c _ h := absurd h (Nat.not_lt_zero c)
  data c _ _ := by
    rw [written_of_not_past rfl]
    rfl

/-- A child's step that leaves the pipes as they are. -/
theorem DataInv.setChild (h : DataInv procs outcome s) {c : Nat} {phase : ChildPhase} {fds : Fds}
    (hwriter : phase = .wrote ∨ phase = .closed → (outcome c).isSome)
    (hpast : (s.child c).phase.past = true → phase.past = true)
    (hwritten : written outcome c phase = written outcome c (s.child c).phase) :
    DataInv procs outcome (s.setChild c phase fds) where
  writer d hd := by
    by_cases hdc : d = c
    · subst hdc
      exact hwriter (by simpa [CollectState.setChild] using hd)
    · exact h.writer d (by simpa [CollectState.setChild, hdc] using hd)
  scanned d hd hlt := by
    have hold := h.scanned d hd hlt
    by_cases hdc : d = c
    · subst hdc
      simpa [CollectState.setChild] using hpast hold
    · simpa [CollectState.setChild, hdc] using hold
  data d hd hle := by
    have hold := h.data d hd hle
    by_cases hdc : d = c
    · subst hdc
      simpa [CollectState.setChild, hwritten] using hold
    · simpa [CollectState.setChild, hdc] using hold

/-- A step of the parent that neither writes nor forks. -/
theorem DataInv.setParent (h : DataInv procs outcome s) (hchild : s'.child = s.child)
    (hscanned : ∀ c, c < procs → c < s'.parent.scannedPipes procs →
      c < s.parent.scannedPipes procs ∨ (s.child c).phase.past = true)
    (hdata : ∀ c, c < procs → s'.parent.scannedPipes procs ≤ c →
      s.parent.scannedPipes procs ≤ c ∧
        s'.parent.buffered c ++ s'.data c = s.parent.buffered c ++ s.data c) :
    DataInv procs outcome s' where
  writer c := by
    rw [hchild]
    exact h.writer c
  scanned c hc hlt := by
    rw [hchild]
    rcases hscanned c hc hlt with hold | hpast
    · exact h.scanned c hc hold
    · exact hpast
  data c hc hle := by
    rw [hchild, (hdata c hc hle).2]
    exact h.data c hc (hdata c hc hle).1

/-- A step of the parent before it scans the first pipe. -/
theorem DataInv.setForking (h : DataInv procs outcome s) (hchild : s'.child = s.child)
    (hnone : s.parent.scannedPipes procs = 0) (hnone' : s'.parent.scannedPipes procs = 0)
    (hdata : ∀ c, s'.parent.buffered c ++ s'.data c = s.parent.buffered c ++ s.data c) :
    DataInv procs outcome s' := by
  apply h.setParent hchild
  · intro c _ hlt
    rw [hnone'] at hlt
    exact absurd hlt (Nat.not_lt_zero c)
  · intro c _ _
    rw [hnone]
    exact ⟨Nat.zero_le c, hdata c⟩

/-- A step of the parent after it has scanned the last pipe. -/
theorem DataInv.setWaiting (h : DataInv procs outcome s) (hchild : s'.child = s.child)
    (hall : s.parent.scannedPipes procs = procs) (hall' : s'.parent.scannedPipes procs = procs) :
    DataInv procs outcome s' := by
  apply h.setParent hchild
  · intro c hc _
    rw [hall]
    exact .inl hc
  · intro c hc hle
    rw [hall'] at hle
    exact absurd hc (Nat.not_lt.mpr hle)

theorem DataInv.scannedPipes_le (h : DataInv procs outcome s) {c : Nat} (hc : c < procs)
    (hphase : (s.child c).phase.past = false) : s.parent.scannedPipes procs ≤ c := by
  by_contra hlt
  have hpast := h.scanned c hc (Nat.lt_of_not_le hlt)
  rw [hphase] at hpast
  cases hpast

/-- Before it writes, the pipe of a child is empty, and so is the buffer. -/
theorem DataInv.empty_of_not_past (h : DataInv procs outcome s) {c : Nat} (hc : c < procs)
    (hphase : (s.child c).phase.past = false) : s.parent.buffered c = [] ∧ s.data c = [] := by
  have hdata := h.data c hc (h.scannedPipes_le hc hphase)
  rw [written_of_not_past hphase] at hdata
  exact List.append_eq_nil_iff.mp hdata

theorem DataInv.write (h : DataInv procs outcome s) {c : Nat} {r : WorkerResult} {fds : Fds}
    (hc : c < procs) (hphase : (s.child c).phase = .working) (hr : outcome c = some r) :
    DataInv procs outcome
      ((s.setData c (s.data c ++ (childLine c r).format)).setChild c .wrote fds) where
  writer d hd := by
    by_cases hdc : d = c
    · simp [hdc, hr]
    · exact h.writer d (by simpa [CollectState.setChild, CollectState.setData, hdc] using hd)
  scanned d hd hlt := by
    by_cases hdc : d = c
    · simp [CollectState.setChild, hdc, ChildPhase.past]
    · simpa [CollectState.setChild, CollectState.setData, hdc] using h.scanned d hd hlt
  data d hd hle := by
    by_cases hdc : d = c
    · subst hdc
      have hempty := h.empty_of_not_past hd (by rw [hphase]; rfl)
      simp [CollectState.setChild, CollectState.setData, hempty,
        written_of_past hr (show ChildPhase.wrote.past = true from rfl)]
    · simpa [CollectState.setChild, CollectState.setData, hdc] using h.data d hd hle

/-- When the parent leaves pipe `p`, that pipe joins the scanned ones. -/
theorem DataInv.leaveScan (h : DataInv procs outcome s) {p : Nat} {buf : List Char}
    (hpc : s.parent = .scan p buf) (hpast : (s.child p).phase.past = true)
    (hchild : s'.child = s.child) (hdata : s'.data = s.data) (hpc' : s'.parent = .fclose p) :
    DataInv procs outcome s' := by
  apply h.setParent hchild
  · intro c _ hlt
    rw [hpc'] at hlt
    rw [hpc]
    by_cases hcp : c = p
    · exact .inr (hcp ▸ hpast)
    · have hlt' : c < p + 1 := hlt
      have hltp : c < p := by omega
      exact .inl hltp
  · intro c _ hle
    rw [hpc'] at hle
    have hgt : p < c := hle
    rw [hpc, hpc', hdata]
    constructor
    · exact Nat.le_of_lt hgt
    · simp [ParentPc.buffered, Nat.ne_of_gt hgt]

theorem DataInv.step (hcol : Collectable procs cap outcome) (hfd : FdInv procs s)
    (h : DataInv procs outcome s) (hstep : CollectStep procs cap outcome s s') :
    DataInv procs outcome s' := by
  cases hstep with
  | @pipe p hpc hp =>
      have hunborn : (s.child p).phase = .unborn := by
        rw [hfd.unborn, hpc]
        exact Nat.le_refl p
      have hempty : s.data p = [] := by
        have hold := h.data p hp (by rw [hpc]; exact Nat.zero_le p)
        rw [hunborn, written_of_not_past rfl, List.append_eq_nil_iff] at hold
        exact hold.2
      refine h.setForking rfl (by rw [hpc]; rfl) rfl fun c => ?_
      rw [hpc]
      by_cases hcp : c = p
      · simp [CollectState.setData, ParentPc.buffered, hcp, hempty]
      · simp [CollectState.setData, ParentPc.buffered, hcp]
  | @forkedAll p hpc hp =>
      refine h.setForking rfl (by rw [hpc]; rfl) rfl fun c => ?_
      rw [hpc]
      simp [ParentPc.buffered]
  | @fork p hpc =>
      have hunborn : (s.child p).phase = .unborn := by
        rw [hfd.unborn, hpc]
        exact Nat.le_refl p
      have hchild : DataInv procs outcome (s.setChild p .forked s.fds) :=
        h.setChild (by simp) (by simp [hunborn, ChildPhase.past])
          (by rw [hunborn, written_of_not_past rfl, written_of_not_past rfl])
      have hparent : (s.setChild p .forked s.fds).parent = .fork p := hpc
      refine hchild.setForking rfl (by rw [hparent]; rfl) rfl fun c => ?_
      rw [hparent]
      rfl
  | @closeWrite p hpc =>
      refine h.setForking rfl (by rw [hpc]; rfl) rfl fun c => ?_
      rw [hpc]
      rfl
  | @matched p buf l hpc hp hmatch =>
      have hpast := ((h.verdict hcol hfd hpc hp).1 l hmatch).1
      exact h.leaveScan hpc hpast rfl rfl rfl
  | @unmatched p buf hpc hp hfail =>
      have hpast := ((h.verdict hcol hfd hpc hp).2 hfail).1
      exact h.leaveScan hpc hpast rfl rfl rfl
  | @read p n buf hpc hp hmore hn hle =>
      refine h.setParent rfl (fun c _ hlt => ?_) fun c _ hc => ?_
      · rw [hpc]
        exact .inl hlt
      · rw [hpc]
        constructor
        · exact hc
        · by_cases hcp : c = p
          · simp [CollectState.setData, ParentPc.buffered, hcp]
          · simp [CollectState.setData, ParentPc.buffered, hcp]
  | @scannedAll p buf hpc hp =>
      refine h.setParent rfl (fun c hc _ => ?_) fun c hc hle => ?_
      · rw [hpc]
        exact .inl (Nat.lt_of_lt_of_le hc (Nat.le_of_not_lt hp))
      · exact absurd hc (Nat.not_lt.mpr hle)
  | @fclose p hpc =>
      refine h.setParent rfl (fun c _ hlt => ?_) fun c _ hle => ?_
      · rw [hpc]
        exact .inl hlt
      · rw [hpc]
        exact ⟨hle, by simp [ParentPc.buffered]⟩
  | @waitNone k hpc hk hnone => exact h.setWaiting rfl (by rw [hpc]; rfl) rfl
  | @reap k c hpc hk hc hphase =>
      have hwritten : written outcome c .reaped = written outcome c .zombie := rfl
      have hchild : DataInv procs outcome (s.setChild c .reaped (s.child c).fds) :=
        h.setChild (by simp) (fun _ => rfl) (by rw [hphase, hwritten])
      have hparent : (s.setChild c .reaped (s.child c).fds).parent = .wait k := hpc
      exact hchild.setWaiting rfl (by rw [hparent]; rfl) rfl
  | @waitedAll k hpc hk => exact h.setWaiting rfl (by rw [hpc]; rfl) rfl
  | @childCloseRead c hc hphase =>
      exact h.setChild (by simp) (by simp [hphase, ChildPhase.past])
        (by rw [hphase, written_of_not_past rfl, written_of_not_past rfl])
  | @childFails c hc hphase hnone =>
      exact h.setChild (by simp) (fun _ => rfl)
        (by rw [written_of_none hnone, written_of_none hnone])
  | @childKilled c hc hphase hclosed =>
      rw [hfd.readOpen_eq hc (by simp [hphase]) (h.scannedPipes_le hc (by rw [hphase]; rfl))]
        at hclosed
      cases hclosed
  | @childWrites c r hc hphase hr hroom => exact h.write hc hphase hr
  | @childCloses c hc hphase =>
      have hwritten : written outcome c .closed = written outcome c .wrote := rfl
      exact h.setChild (fun _ => h.writer c (.inl hphase)) (fun _ => rfl) (by rw [hphase, hwritten])
  | @childExits c hc hphase =>
      have hwritten : written outcome c .zombie = written outcome c .closed := rfl
      exact h.setChild (by simp) (fun _ => rfl) (by rw [hphase, hwritten])

/-! ## What has been matched -/

/-- The totals the first `n` children write. -/
def writers (outcome : Nat → Option WorkerResult) (n : Nat) : List (Nat × WorkerResult) :=
  (List.range n).filterMap fun c => (outcome c).map fun r => (c, r)

structure ResultInv (procs : Nat) (outcome : Nat → Option WorkerResult) (s : CollectState) :
    Prop where
  lines : s.lines =
    (writers outcome (s.parent.scannedPipes procs)).map fun w => childLine w.1 w.2
  totals : s.totals = ((writers outcome (s.parent.scannedPipes procs)).map (·.2)).foldl
    WorkerResult.addLong .zero

theorem writers_succ_of_some {n : Nat} {r : WorkerResult} (h : outcome n = some r) :
    writers outcome (n + 1) = writers outcome n ++ [(n, r)] := by
  simp [writers, List.range_succ, h]

theorem writers_succ_of_none {n : Nat} (h : outcome n = none) :
    writers outcome (n + 1) = writers outcome n := by
  simp [writers, List.range_succ, h]

theorem ResultInv.init : ResultInv procs outcome collectInit := ⟨rfl, rfl⟩

theorem ResultInv.congr (h : ResultInv procs outcome s) (hlines : s'.lines = s.lines)
    (htotals : s'.totals = s.totals)
    (hscanned : s'.parent.scannedPipes procs = s.parent.scannedPipes procs) :
    ResultInv procs outcome s' where
  lines := by rw [hlines, hscanned, h.lines]
  totals := by rw [htotals, hscanned, h.totals]

theorem ResultInv.step (hcol : Collectable procs cap outcome) (hfd : FdInv procs s)
    (hdata : DataInv procs outcome s) (h : ResultInv procs outcome s)
    (hstep : CollectStep procs cap outcome s s') : ResultInv procs outcome s' := by
  cases hstep with
  | pipe hpc _ => exact h.congr rfl rfl (by rw [hpc]; rfl)
  | forkedAll hpc _ => exact h.congr rfl rfl (by rw [hpc]; rfl)
  | fork hpc => exact h.congr rfl rfl (by rw [hpc]; rfl)
  | closeWrite hpc => exact h.congr rfl rfl (by rw [hpc]; rfl)
  | @matched p buf l hpc hp hmatch =>
      rcases ((hdata.verdict hcol hfd hpc hp).1 l hmatch).2 with ⟨r, hr, rfl⟩
      have hlines := h.lines
      have htotals := h.totals
      rw [hpc] at hlines htotals
      constructor
      · simp only [CollectState.matched, ParentPc.scannedPipes, writers_succ_of_some hr,
          List.map_append] at hlines ⊢
        rw [hlines]
        rfl
      · simp only [CollectState.matched, ParentPc.scannedPipes, writers_succ_of_some hr,
          List.map_append, List.foldl_append] at htotals ⊢
        rw [htotals]
        rfl
  | @unmatched p buf hpc hp hfail =>
      have hnone := ((hdata.verdict hcol hfd hpc hp).2 hfail).2
      have hlines := h.lines
      have htotals := h.totals
      rw [hpc] at hlines htotals
      constructor
      · simpa only [ParentPc.scannedPipes, writers_succ_of_none hnone] using hlines
      · simpa only [ParentPc.scannedPipes, writers_succ_of_none hnone] using htotals
  | read hpc _ _ _ _ => exact h.congr rfl rfl (by rw [hpc]; rfl)
  | @scannedAll p buf hpc hp =>
      have hbound := hfd.bounds
      rw [hpc] at hbound
      have hlast : p = procs := Nat.le_antisymm hbound (Nat.le_of_not_lt hp)
      exact h.congr rfl rfl (by rw [hpc, hlast]; rfl)
  | fclose hpc => exact h.congr rfl rfl (by rw [hpc]; rfl)
  | waitNone hpc _ _ => exact h.congr rfl rfl (by rw [hpc]; rfl)
  | reap hpc _ _ _ => exact h.congr rfl rfl (by rw [hpc]; rfl)
  | waitedAll hpc _ => exact h.congr rfl rfl (by rw [hpc]; rfl)
  | childCloseRead _ _ => exact h.congr rfl rfl rfl
  | childFails _ _ _ => exact h.congr rfl rfl rfl
  | childKilled _ _ _ => exact h.congr rfl rfl rfl
  | childWrites _ _ _ _ => exact h.congr rfl rfl rfl
  | childCloses _ _ => exact h.congr rfl rfl rfl
  | childExits _ _ => exact h.congr rfl rfl rfl

/-! ## Reaped children -/

def ParentPc.waits (procs : Nat) : ParentPc → Nat
  | .wait k => k
  | .finished => procs
  | _ => 0

def reapedChildren (procs : Nat) (s : CollectState) : Finset Nat :=
  (Finset.range procs).filter fun c => (s.child c).phase = .reaped

def ReapInv (procs : Nat) (s : CollectState) : Prop :=
  (reapedChildren procs s).card = s.parent.waits procs

theorem ReapInv.init : ReapInv procs collectInit := by
  simp [ReapInv, reapedChildren, collectInit, ParentPc.waits]

theorem ReapInv.congr (h : ReapInv procs s)
    (hreaped : ∀ c, (s'.child c).phase = .reaped ↔ (s.child c).phase = .reaped)
    (hwaits : s'.parent.waits procs = s.parent.waits procs) : ReapInv procs s' := by
  unfold ReapInv reapedChildren at *
  rw [hwaits, ← h]
  congr 1
  exact Finset.filter_congr fun c _ => hreaped c

theorem ReapInv.setChild (h : ReapInv procs s) {c : Nat} {phase : ChildPhase} {fds : Fds}
    (hold : (s.child c).phase ≠ .reaped) (hnew : phase ≠ .reaped) :
    ReapInv procs (s.setChild c phase fds) := by
  refine h.congr (fun d => ?_) rfl
  by_cases hdc : d = c
  · simp [CollectState.setChild, hdc, hold, hnew]
  · simp [CollectState.setChild, hdc]

theorem ReapInv.reap (h : ReapInv procs s) {k c : Nat} {fds : Fds} (hpc : s.parent = .wait k)
    (hc : c < procs) (hphase : (s.child c).phase = .zombie) :
    ReapInv procs { s.setChild c .reaped fds with parent := .wait (k + 1) } := by
  have hinsert : reapedChildren procs { s.setChild c .reaped fds with parent := .wait (k + 1) } =
      insert c (reapedChildren procs s) := by
    ext d
    simp only [reapedChildren, Finset.mem_filter, Finset.mem_insert, Finset.mem_range]
    by_cases hdc : d = c
    · simp [CollectState.setChild, hdc, hc]
    · simp [CollectState.setChild, hdc]
  have hnot : c ∉ reapedChildren procs s := by simp [reapedChildren, hphase]
  have hcard : (reapedChildren procs s).card = k := by
    have hold : (reapedChildren procs s).card = s.parent.waits procs := h
    rw [hpc] at hold
    exact hold
  rw [ReapInv, hinsert, Finset.card_insert_of_notMem hnot, hcard]
  rfl

/-- All children are reaped when none is left to wait for. -/
theorem reapedChildren_eq_range (hfd : FdInv procs s) {k : Nat} (hpc : s.parent = .wait k)
    (hnone : ∀ c, c < procs → (s.child c).phase = .unborn ∨ (s.child c).phase = .reaped) :
    reapedChildren procs s = Finset.range procs := by
  apply Finset.filter_true_of_mem
  intro c hc
  have hlt := Finset.mem_range.mp hc
  rcases hnone c hlt with hunborn | hreaped
  · have hle := (hfd.unborn c).mp hunborn
    rw [hpc] at hle
    exact absurd hlt (Nat.not_lt.mpr hle)
  · exact hreaped

theorem ReapInv.step (hfd : FdInv procs s) (h : ReapInv procs s)
    (hstep : CollectStep procs cap outcome s s') : ReapInv procs s' := by
  cases hstep with
  | pipe hpc _ => exact h.congr (fun _ => Iff.rfl) (by rw [hpc]; rfl)
  | forkedAll hpc _ => exact h.congr (fun _ => Iff.rfl) (by rw [hpc]; rfl)
  | @fork p hpc =>
      have hunborn : (s.child p).phase = .unborn := by
        rw [hfd.unborn, hpc]
        exact Nat.le_refl p
      have hchild : ReapInv procs (s.setChild p .forked s.fds) :=
        h.setChild (by simp [hunborn]) (by simp)
      have hparent : (s.setChild p .forked s.fds).parent = .fork p := hpc
      exact hchild.congr (fun _ => Iff.rfl) (by rw [hparent]; rfl)
  | closeWrite hpc => exact h.congr (fun _ => Iff.rfl) (by rw [hpc]; rfl)
  | matched hpc _ _ => exact h.congr (fun _ => Iff.rfl) (by rw [hpc]; rfl)
  | unmatched hpc _ _ => exact h.congr (fun _ => Iff.rfl) (by rw [hpc]; rfl)
  | read hpc _ _ _ _ => exact h.congr (fun _ => Iff.rfl) (by rw [hpc]; rfl)
  | scannedAll hpc _ => exact h.congr (fun _ => Iff.rfl) (by rw [hpc]; rfl)
  | fclose hpc => exact h.congr (fun _ => Iff.rfl) (by rw [hpc]; rfl)
  | @waitNone k hpc hk hnone =>
      have hcard : (reapedChildren procs s).card = s.parent.waits procs := h
      rw [reapedChildren_eq_range hfd hpc hnone, hpc, Finset.card_range] at hcard
      exact absurd hcard (Nat.ne_of_gt hk)
  | reap hpc _ hc hphase => exact h.reap hpc hc hphase
  | @waitedAll k hpc hk =>
      have hbound := hfd.bounds
      rw [hpc] at hbound
      have hlast : k = procs := Nat.le_antisymm hbound (Nat.le_of_not_lt hk)
      exact h.congr (fun _ => Iff.rfl) (by rw [hpc, hlast]; rfl)
  | childCloseRead _ hphase => exact h.setChild (by simp [hphase]) (by simp)
  | childFails _ hphase _ => exact h.setChild (by simp [hphase]) (by simp)
  | childKilled _ hphase _ => exact h.setChild (by simp [hphase]) (by simp)
  | @childWrites c r _ hphase _ _ =>
      have hdata : ReapInv procs (s.setData c (s.data c ++ (childLine c r).format)) := h
      exact hdata.setChild (by simp [CollectState.setData, hphase]) (by simp)
  | childCloses _ hphase => exact h.setChild (by simp [hphase]) (by simp)
  | childExits _ hphase => exact h.setChild (by simp [hphase]) (by simp)

end Model

end OsLabs.PageCacheModels
