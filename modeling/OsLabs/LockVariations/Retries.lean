import OsLabs.LockVariations.Seqlock

/-! # Passes of the read loop

The writer never waits for the reader. The reader waits for the writer only: a pass that
begins on an even `seq` and has to be repeated has seen `seq` change, and one that begins
on an odd `seq` has met a write in progress.
-/

namespace OsLabs.LockVariations

variable {s s' : State} {ts : List (Transition State Act)}

/-! ## What a run counts -/

def readerMoves (t : Transition State Act) : Bool :=
  match t.action with
  | .reader _ => true
  | _ => false

/-- `s1 = seq` -/
def loadsS1 (t : Transition State Act) : Bool := readerMoves t && t.before.reader.pc = .loadS1

def loadsEven (t : Transition State Act) : Bool := loadsS1 t && t.before.seq &&& 1 = 0

def loadsOdd (t : Transition State Act) : Bool := loadsS1 t && !(t.before.seq &&& 1 = 0)

def changesSeq (t : Transition State Act) : Bool := t.after.seq ≠ t.before.seq

theorem countP_snoc {α : Type} (p : α → Bool) (xs : List α) (x : α) :
    (xs ++ [x]).countP p = xs.countP p + (p x).toNat := by
  cases h : p x <;> simp [h]

/-- The steps left of the pass the reader is in. -/
def Reader.pass (r : Reader) : Nat :=
  match r.pc with
  | .outside | .loadS1 | .left => 0
  | .testS1 => if r.s1 &&& 1 = 0 then 5 else 2
  | .loadSec => 4
  | .loadNsec => 3
  | .loadS2 => 2
  | .compare => 1

/-- With one even load more than changes of `seq`, the last pass has seen no change. -/
def Unchanged (s : State) : Prop :=
  match s.reader.pc with
  | .testS1 => s.reader.s1 &&& 1 = 0 ∧ s.reader.s1 = s.seq
  | .loadSec | .loadNsec | .loadS2 => s.reader.s1 = s.seq
  | .compare => s.reader.s2 = some s.reader.s1
  | .left => True
  | .outside | .loadS1 => False

/-- One call of the reader, from its entry on. -/
structure CallInv (ts : List (Transition State Act)) (s : State) : Prop where
  idle : s.writer = .idle ↔ s.seq &&& 1 = 0
  entered : s.reader.pc ≠ .outside
  even : ts.countP loadsEven ≤ ts.countP changesSeq ∨
    ts.countP loadsEven = ts.countP changesSeq + 1 ∧ Unchanged s
  steps : ts.countP readerMoves + s.reader.pass = 6 * ts.countP loadsEven + 3 * ts.countP loadsOdd
  retries : s.reader.retries + (if s.reader.pc = .testS1 ∧ ¬ s.reader.s1 &&& 1 = 0 then 1 else 0) =
    ts.countP loadsOdd
  odd : ∀ t ∈ ts, loadsOdd t → t.before.writer ≠ .idle

theorem CallInv.init (hidle : s.writer = .idle ↔ s.seq &&& 1 = 0) (hentered : s.reader = .entered) :
    CallInv [] s := by
  refine ⟨hidle, ?_, .inl (Nat.le_refl 0), ?_, ?_, fun t ht => absurd ht List.not_mem_nil⟩
  · simp [hentered, Reader.entered]
  · simp [hentered, Reader.entered, Reader.pass]
  · simp [hentered, Reader.entered]

/-- A step of the writer. -/
theorem CallInv.writer (h : CallInv ts s) {a : Act} (hnext : next s a = some s')
    (ha : a = .writer ∨ ∃ sec nsec, a = .write sec nsec) : CallInv (ts ++ [⟨s, a, s'⟩]) s' := by
  obtain ⟨hreader, hseq⟩ := writer_cases hnext ha
  have hmoves : readerMoves ⟨s, a, s'⟩ = false := by
    rcases ha with rfl | ⟨sec, nsec, rfl⟩ <;> rfl
  have heven : loadsEven ⟨s, a, s'⟩ = false := by simp [loadsEven, loadsS1, hmoves]
  have hodd : loadsOdd ⟨s, a, s'⟩ = false := by simp [loadsOdd, loadsS1, hmoves]
  refine ⟨idle_step h.idle hnext, by rw [hreader]; exact h.entered, ?_, ?_, ?_, ?_⟩
  · simp only [countP_snoc, heven, Bool.toNat_false, Nat.add_zero]
    cases hchange : changesSeq ⟨s, a, s'⟩ with
    | true =>
        rcases h.even with hle | ⟨heq, -⟩
        · exact .inl (Nat.le_succ_of_le hle)
        · exact .inl (Nat.le_of_eq heq)
    | false =>
        have hsame : s'.seq = s.seq := by simpa [changesSeq] using hchange
        have hunchanged : Unchanged s' ↔ Unchanged s := by simp only [Unchanged, hreader, hsame]
        rw [hunchanged]
        exact h.even
  · simp only [countP_snoc, hmoves, heven, hodd, Bool.toNat_false, Nat.add_zero, hreader]
    exact h.steps
  · simp only [countP_snoc, hodd, Bool.toNat_false, Nat.add_zero, hreader]
    exact h.retries
  · intro t ht
    rcases List.mem_append.mp ht with hmem | hmem
    · exact h.odd t hmem
    · rw [List.mem_singleton.mp hmem, hodd]
      exact nofun

/-- A step of the reader other than the load of `s1`. -/
theorem CallInv.within (h : CallInv ts s) {junk : BitVec 32} {r : Reader}
    (hload : s.reader.pc ≠ .loadS1) (hentered : r.pc ≠ .outside)
    (hpass : r.pass + 1 = s.reader.pass) (hunchanged : Unchanged s → Unchanged { s with reader := r })
    (hretries : r.retries + (if r.pc = .testS1 ∧ ¬ r.s1 &&& 1 = 0 then 1 else 0) =
      s.reader.retries + (if s.reader.pc = .testS1 ∧ ¬ s.reader.s1 &&& 1 = 0 then 1 else 0)) :
    CallInv (ts ++ [⟨s, .reader junk, { s with reader := r }⟩]) { s with reader := r } := by
  have hloads : loadsS1 ⟨s, .reader junk, { s with reader := r }⟩ = false := by
    simp [loadsS1, readerMoves, hload]
  have heven : loadsEven ⟨s, .reader junk, { s with reader := r }⟩ = false := by
    simp [loadsEven, hloads]
  have hodd : loadsOdd ⟨s, .reader junk, { s with reader := r }⟩ = false := by simp [loadsOdd, hloads]
  have hchange : changesSeq ⟨s, .reader junk, { s with reader := r }⟩ = false := by simp [changesSeq]
  have hmoves : readerMoves ⟨s, .reader junk, { s with reader := r }⟩ = true := rfl
  refine ⟨h.idle, hentered, ?_, ?_, ?_, ?_⟩
  · simp only [countP_snoc, heven, hchange, Bool.toNat_false, Nat.add_zero]
    rcases h.even with hle | ⟨heq, hu⟩
    · exact .inl hle
    · exact .inr ⟨heq, hunchanged hu⟩
  · have hsteps := h.steps
    simp only [countP_snoc, heven, hodd, hmoves, Bool.toNat_false, Bool.toNat_true, Nat.add_zero]
    omega
  · simp only [countP_snoc, hodd, Bool.toNat_false, Nat.add_zero]
    exact hretries.trans h.retries
  · intro t ht
    rcases List.mem_append.mp ht with hmem | hmem
    · exact h.odd t hmem
    · rw [List.mem_singleton.mp hmem, hodd]
      exact nofun

/-- The load of `s1`: no pass is pending, so `seq` has changed as often as it was loaded. -/
theorem CallInv.load (h : CallInv ts s) {junk : BitVec 32} {r : Reader} (hpc : s.reader.pc = .loadS1)
    (hr : r = { s.reader with s1 := s.seq, pc := .testS1 }) :
    CallInv (ts ++ [⟨s, .reader junk, { s with reader := r }⟩]) { s with reader := r } := by
  have hle : ts.countP loadsEven ≤ ts.countP changesSeq := by
    rcases h.even with hle | ⟨-, hu⟩
    · exact hle
    · simp [Unchanged, hpc] at hu
  have hsteps := h.steps
  have hretries := h.retries
  simp only [Reader.pass, hpc, Nat.add_zero] at hsteps
  simp only [hpc, reduceCtorEq, false_and, if_false, Nat.add_zero] at hretries
  have hchange : changesSeq ⟨s, .reader junk, { s with reader := r }⟩ = false := by simp [changesSeq]
  have hmoves : readerMoves ⟨s, .reader junk, { s with reader := r }⟩ = true := rfl
  have hloads : loadsS1 ⟨s, .reader junk, { s with reader := r }⟩ = true := by
    simp [loadsS1, readerMoves, hpc]
  have hs1 : r.s1 = s.seq := by rw [hr]
  have hpc' : r.pc = .testS1 := by rw [hr]
  have hsame : r.retries = s.reader.retries := by rw [hr]
  by_cases heven : s.seq &&& 1 = 0
  · have hload : loadsEven ⟨s, .reader junk, { s with reader := r }⟩ = true := by
      simp only [loadsEven, hloads, heven, decide_true, Bool.and_self]
    have hodd : loadsOdd ⟨s, .reader junk, { s with reader := r }⟩ = false := by
      simp only [loadsOdd, heven, decide_true, Bool.not_true, Bool.and_false]
    refine ⟨h.idle, by simp [hpc'], ?_, ?_, ?_, ?_⟩
    · simp only [countP_snoc, hload, hchange, Bool.toNat_true, Bool.toNat_false, Nat.add_zero]
      rcases Nat.lt_or_eq_of_le hle with hlt | heq
      · exact .inl hlt
      · refine .inr ⟨congrArg Nat.succ heq, ?_⟩
        simp only [Unchanged, hpc', hs1]
        exact ⟨heven, trivial⟩
    · simp only [countP_snoc, hload, hodd, hmoves, Reader.pass, hpc', hs1, heven, Bool.toNat_true,
        Bool.toNat_false, if_true]
      omega
    · simp only [countP_snoc, hodd, hs1, heven, hsame, not_true, and_false, if_false, Bool.toNat_false]
      exact hretries
    · intro t ht
      rcases List.mem_append.mp ht with hmem | hmem
      · exact h.odd t hmem
      · rw [List.mem_singleton.mp hmem, hodd]
        exact nofun
  · have hload : loadsEven ⟨s, .reader junk, { s with reader := r }⟩ = false := by
      simp only [loadsEven, heven, decide_false, Bool.and_false]
    have hodd : loadsOdd ⟨s, .reader junk, { s with reader := r }⟩ = true := by
      simp only [loadsOdd, hloads, heven, decide_false, Bool.not_false, Bool.and_self]
    refine ⟨h.idle, by simp [hpc'], ?_, ?_, ?_, ?_⟩
    · simp only [countP_snoc, hload, hchange, Bool.toNat_false, Nat.add_zero]
      exact .inl hle
    · simp only [countP_snoc, hload, hodd, hmoves, Reader.pass, hpc', hs1, heven, Bool.toNat_true,
        Bool.toNat_false, if_false]
      omega
    · simp only [countP_snoc, hodd, hpc', hs1, heven, hsame, not_false_eq_true, and_self, if_true,
        Bool.toNat_true, hretries]
    · intro t ht
      rcases List.mem_append.mp ht with hmem | hmem
      · exact h.odd t hmem
      · rw [List.mem_singleton.mp hmem]
        exact fun _ hidle => heven (h.idle.mp hidle)

theorem CallInv.reader (h : CallInv ts s) {junk : BitVec 32} {r : Reader}
    (hr : readerNext s junk = some r) :
    CallInv (ts ++ [⟨s, .reader junk, { s with reader := r }⟩]) { s with reader := r } := by
  cases hpc : s.reader.pc with
  | outside => exact absurd hpc h.entered
  | left => simp [readerNext, hpc] at hr
  | loadS1 =>
      simp only [readerNext, hpc, Option.some.injEq] at hr
      exact h.load hpc hr.symm
  | testS1 =>
      simp only [readerNext, hpc] at hr
      split at hr
      next heven =>
        cases hr
        apply h.within (by simp [hpc]) (by simp)
        · simp only [Reader.pass, hpc, heven, if_true]
        · simp only [Unchanged, hpc]
          exact And.right
        · simp only [hpc, heven, reduceCtorEq, not_true, and_false, if_false]
      next hodd =>
        cases hr
        apply h.within (by simp [hpc]) (by simp)
        · simp only [Reader.pass, hpc, hodd, if_false]
        · simp only [Unchanged, hpc]
          exact fun hu => absurd hu.1 hodd
        · simp only [hpc, hodd, reduceCtorEq, false_and, not_false_eq_true, and_self, if_true, if_false]
  | loadSec =>
      simp only [readerNext, hpc, Option.some.injEq] at hr
      subst hr
      apply h.within (by simp [hpc]) (by simp)
      · simp [Reader.pass, hpc]
      · simp [Unchanged, hpc]
      · simp [hpc]
  | loadNsec =>
      simp only [readerNext, hpc, Option.some.injEq] at hr
      subst hr
      apply h.within (by simp [hpc]) (by simp)
      · simp [Reader.pass, hpc]
      · simp [Unchanged, hpc]
      · simp [hpc]
  | loadS2 =>
      simp only [readerNext, hpc, Option.some.injEq] at hr
      subst hr
      apply h.within (by simp [hpc]) (by simp)
      · simp [Reader.pass, hpc]
      · simp only [Unchanged, hpc]
        exact fun hu => congrArg some hu.symm
      · simp [hpc]
  | compare =>
      simp only [readerNext, hpc, Option.some.injEq] at hr
      subst hr
      by_cases heq : s.reader.s1 = s.reader.s2.getD junk
      · apply h.within (by simp [hpc])
        · simp [heq]
        · simp [Reader.pass, hpc, heq]
        · simp [Unchanged, heq]
        · simp [hpc, heq]
      · apply h.within (by simp [hpc])
        · simp [heq]
        · simp [Reader.pass, hpc, heq]
        · simp only [Unchanged, hpc]
          intro hs2
          exact absurd (by rw [hs2]; rfl) heq
        · simp [hpc, heq]

theorem CallInv.step (h : CallInv ts s) {a : Act} (hnext : next s a = some s') (henter : a ≠ .enter) :
    CallInv (ts ++ [⟨s, a, s'⟩]) s' := by
  cases a with
  | write sec nsec => exact h.writer hnext (.inr ⟨sec, nsec, rfl⟩)
  | writer => exact h.writer hnext (.inl rfl)
  | enter => exact absurd rfl henter
  | reader junk =>
      obtain ⟨r, hr, rfl⟩ := Option.map_eq_some_iff.mp hnext
      exact h.reader hr

/-! ## A reader by itself -/

/-- No writer moves. -/
def readerAlone : Lts State (BitVec 32) where
  init s := seqlock.Reachable s ∧ s.writer = .idle ∧ s.reader.pc ≠ .outside
  next s junk := next s (.reader junk)

/-- An upper bound of the steps the reader makes by itself: where it is bound to fail, it
makes one more pass. -/
def aloneRest (s : State) : Nat :=
  match s.reader.pc with
  | .outside | .left => 0
  | .loadS1 => 6
  | .testS1 => if s.reader.s1 = s.seq then 5 else 11
  | .loadSec => if s.reader.s1 = s.seq then 4 else 10
  | .loadNsec => if s.reader.s1 = s.seq then 3 else 9
  | .loadS2 => if s.reader.s1 = s.seq then 2 else 8
  | .compare => if s.reader.s2 = some s.reader.s1 then 1 else 7

theorem aloneRest_lt (heven : s.seq &&& 1 = 0) {junk : BitVec 32} {r : Reader}
    (hr : readerNext s junk = some r) : aloneRest { s with reader := r } < aloneRest s := by
  cases hpc : s.reader.pc with
  | outside => simp [readerNext, hpc] at hr
  | left => simp [readerNext, hpc] at hr
  | loadS1 =>
      simp only [readerNext, hpc, Option.some.injEq] at hr
      subst hr
      simp [aloneRest, hpc]
  | testS1 =>
      simp only [readerNext, hpc] at hr
      split at hr
      next =>
        cases hr
        simp only [aloneRest, hpc]
        split <;> decide
      next hodd =>
        cases hr
        have hne : s.reader.s1 ≠ s.seq := by
          intro heq
          exact hodd (heq ▸ heven)
        simp only [aloneRest, hpc, if_neg hne]
        split <;> decide
  | loadSec =>
      simp only [readerNext, hpc, Option.some.injEq] at hr
      subst hr
      simp only [aloneRest, hpc]
      split <;> decide
  | loadNsec =>
      simp only [readerNext, hpc, Option.some.injEq] at hr
      subst hr
      simp only [aloneRest, hpc]
      split <;> decide
  | loadS2 =>
      simp only [readerNext, hpc, Option.some.injEq] at hr
      subst hr
      simp only [aloneRest, hpc, Option.some.injEq]
      by_cases heq : s.reader.s1 = s.seq
      · simp [heq]
      · simp [heq, Ne.symm heq]
  | compare =>
      simp only [readerNext, hpc, Option.some.injEq] at hr
      subst hr
      simp only [aloneRest, hpc]
      by_cases heq : s.reader.s1 = s.reader.s2.getD junk
      · rw [if_pos heq]
        simp only
        split <;> decide
      · have hne : s.reader.s2 ≠ some s.reader.s1 := by
          intro hs2
          exact heq (by rw [hs2]; rfl)
        rw [if_neg heq, if_neg hne]
        simp

theorem reader_alone_leaves (hidle : s.writer = .idle ↔ s.seq &&& 1 = 0) (hwriter : s.writer = .idle)
    (hentered : s.reader.pc ≠ .outside) :
    readerAlone.Inevitable (fun s' => s'.reader.pc = .left) s := by
  refine Lts.Inevitable.of_measure aloneRest
    (I := fun s => s.seq &&& 1 = 0 ∧ s.reader.pc ≠ .outside) ?_ ?_ ⟨hidle.mp hwriter, hentered⟩
  · intro s ⟨_, hentered⟩
    by_cases hleft : s.reader.pc = .left
    · exact .inl hleft
    · refine .inr (Lts.enabled_of_isSome 0 ?_)
      simp only [readerAlone, next, Option.isSome_map]
      cases hpc : s.reader.pc with
      | outside => exact absurd hpc hentered
      | left => exact absurd hpc hleft
      | testS1 =>
          simp only [readerNext, hpc]
          split <;> rfl
      | _ => simp [readerNext, hpc]
  · intro s junk s' ⟨heven, hentered⟩ hnext
    obtain ⟨r, hr, rfl⟩ := Option.map_eq_some_iff.mp hnext
    refine ⟨⟨heven, ?_⟩, aloneRest_lt heven hr⟩
    show r.pc ≠ .outside
    unfold readerNext at hr
    cases hpc : s.reader.pc <;> simp only [hpc] at hr
    · cases hr
    · cases hr
      simp
    · split at hr <;> cases hr <;> simp
    · cases hr
      simp
    · cases hr
      simp
    · cases hr
      simp
    · cases hr
      simp only
      split <;> simp
    · cases hr

/-- One call of the reader in any run: of the passes that begin on an even `seq` all but
one have seen it change, each of the others has met a write in progress, and `retries`
counts the latter only. Once the writer is idle and stays so, the reader leaves. -/
theorem reader_retries {s₁ : State} (hreach : seqlock.Reachable s₁) (hentered : s₁.reader = .entered)
    (hruns : seqlock.RunsTo s₁ ts s) (hcall : ∀ t ∈ ts, t.action ≠ .enter) :
    ts.countP loadsEven ≤ ts.countP changesSeq + 1 ∧
      (∀ t ∈ ts, loadsOdd t → t.before.writer ≠ .idle) ∧
      ts.countP readerMoves ≤ 6 * ts.countP loadsEven + 3 * ts.countP loadsOdd ∧
      s.reader.retries ≤ ts.countP loadsOdd ∧
      (s.writer = .idle → readerAlone.Inevitable (fun s' => s'.reader.pc = .left) s) := by
  have hidle : s₁.writer = .idle ↔ s₁.seq &&& 1 = 0 := by
    refine hreach.invariant (I := fun s => s.writer = .idle ↔ s.seq &&& 1 = 0) ?_ ?_
    · intro s hinit
      exact iff_of_true hinit.2.1 hinit.1
    · intro s a s' h hnext
      exact idle_step h hnext
  have h : CallInv ts s := by
    refine hruns.history_of (P := fun t => t.action ≠ .enter) (I := CallInv) (.init hidle hentered) ?_ hcall
    intro ts s a s' h hnext henter
    exact h.step hnext henter
  refine ⟨?_, h.odd, ?_, ?_, fun hwriter => reader_alone_leaves h.idle hwriter h.entered⟩
  · rcases h.even with hle | ⟨heq, -⟩ <;> omega
  · have hsteps := h.steps
    omega
  · have hretries := h.retries
    omega

/-- A write begins after the load of `s1`, and the reader has to load it again. -/
def overtaken : List Act :=
  [.reader 0, .reader 0, .write 2 2, .reader 0, .reader 0, .reader 0, .reader 0, .writer, .writer,
    .writer, .reader 0]

theorem reader_retries_overtaken :
    ∃ ts s, seqlock.RunsTo { quiet with reader := .entered } ts s ∧ ts.map (·.action) = overtaken ∧
      ts.countP loadsEven ≤ ts.countP changesSeq + 1 ∧ s.reader.retries ≤ ts.countP loadsOdd := by
  have htrace : seqlock.trace { quiet with reader := .entered } overtaken = some (_, _) := rfl
  have hruns := Lts.RunsTo.of_trace htrace
  have hreach : seqlock.Reachable { quiet with reader := .entered } :=
    ⟨quiet, _, ⟨rfl, rfl, rfl⟩, .single (a := .enter) rfl⟩
  obtain ⟨heven, -, -, hretries, -⟩ := reader_retries hreach rfl hruns (by simp)
  exact ⟨_, _, hruns, rfl, heven, hretries⟩

end OsLabs.LockVariations
