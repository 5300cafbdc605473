import Mathlib.Algebra.Order.BigOperators.Group.Finset
import OsLabs.PageCache.Team

/-! # Every run of a process comes to the same end

The totals of all workers if no call fails, and exit status 1 otherwise, in
whatever order the threads run.
-/

namespace OsLabs.PageCacheModels

section Model

variable {workers : Nat} {calls : TeamCalls} {s s' : TeamState}

theorem TeamInv.init : TeamInv workers calls teamInit where
  created_le := Nat.zero_le _
  joins_le := Nat.zero_le _
  calloc h := absurd rfl h
  create i h := absurd h (Nat.not_lt_zero i)
  threads i _ := Nat.not_lt_zero i
  success i h := absurd h (Nat.not_lt_zero i)
  joined := rfl
  totals := rfl
  stopped code h := by cases h

theorem TeamCalls.results_succ {n : Nat} {r : WorkerResult} (h : (calls.thread n).result? = some r) :
    calls.results (n + 1) = calls.results n ++ [r] := by
  simp [results, List.range_succ, h]

/-- What a failing step saw is a call that failed. -/
theorem TeamInv.not_succeed (h : TeamInv workers calls s)
    (hfail : (s.main = .calloc ∧ calls.callocOk = false) ∨
      (∃ i, s.main = .create i ∧ i < workers ∧ calls.createOk i = false) ∨
      (∃ i, s.main = .join i ∧ i < workers ∧ s.threads i = .exited none) ∨
      ∃ w, w < workers ∧ s.threads w = .running ∧ calls.thread w = .exitProcess) :
    ¬ calls.Succeed workers := by
  intro hok
  rcases hfail with ⟨_, hno⟩ | ⟨i, _, hi, hno⟩ | ⟨i, _, hi, hthread⟩ | ⟨w, hw, _, hno⟩
  · rw [hok.calloc] at hno
    cases hno
  · rw [hok.create i hi] at hno
    cases hno
  · have hagrees := h.threads i hi
    rw [hthread] at hagrees
    have hsome := hok.thread i hi
    rw [hagrees.2] at hsome
    cases hsome
  · have hsome := hok.thread w hw
    rw [hno] at hsome
    cases hsome

theorem TeamInv.step (h : TeamInv workers calls s)
    (hstep : TeamStep workers calls s s') : TeamInv workers calls s' := by
  have hcreated := h.created_le
  have hcreate := h.create
  have hthreads := h.threads
  have hjoined := h.joined
  have hstopped : ∀ code, s.status = some code → code = 1 ∧ ¬ calls.Succeed workers := h.stopped
  cases hstep with
  | calloc hpc hok =>
      rw [hpc] at hcreated hcreate hthreads hjoined
      exact ⟨hcreated, Nat.zero_le _, fun _ => hok, hcreate, hthreads,
        fun i hi => absurd hi (Nat.not_lt_zero i), hjoined, h.totals, hstopped⟩
  | @create i hpc hi hok =>
      rw [hpc] at hcreate hthreads hjoined
      refine ⟨hi, Nat.zero_le _, fun _ => h.calloc (by simp [hpc]), fun j hj => ?_,
        fun j hj => ?_, fun j hj => absurd hj (Nat.not_lt_zero j), hjoined, h.totals, hstopped⟩
      · have hlt : j < i + 1 := hj
        by_cases hji : j = i
        · exact hji ▸ hok
        · exact hcreate j (show j < i by omega)
      · by_cases hji : j = i
        · subst hji
          simp [MainPc.created, ThreadState.Agrees]
        · have hold := hthreads j hj
          have hiff : j < i + 1 ↔ j < i := by omega
          simpa [MainPc.created, hji, hiff] using hold
  | @createdAll i hpc hi =>
      rw [hpc] at hcreated hcreate hthreads hjoined
      have hlast : i = workers := Nat.le_antisymm hcreated (Nat.le_of_not_lt hi)
      subst hlast
      exact ⟨Nat.le_refl _, Nat.zero_le _, fun _ => h.calloc (by simp [hpc]), hcreate, hthreads,
        fun j hj => absurd hj (Nat.not_lt_zero j), hjoined, h.totals, hstopped⟩
  | @join i r hpc hi hthread =>
      have hsuccess := h.success
      rw [hpc] at hcreated hcreate hthreads hsuccess hjoined
      have hresult : (calls.thread i).result? = some r := by
        have hagrees := hthreads i hi
        rw [hthread] at hagrees
        exact hagrees.2
      refine ⟨hcreated, hi, fun _ => h.calloc (by simp [hpc]), hcreate, hthreads, fun j hj => ?_,
        ?_, ?_, hstopped⟩
      · have hlt : j < i + 1 := hj
        by_cases hji : j = i
        · rw [hji, hresult]
          rfl
        · exact hsuccess j (show j < i by omega)
      · have hnext : calls.results (i + 1) = calls.results i ++ [r] := calls.results_succ hresult
        simp only [MainPc.joins] at hjoined ⊢
        rw [hnext, hjoined]
      · simp only [List.foldl_append, List.foldl_cons, List.foldl_nil, h.totals]
  | @joinedAll i hpc hi =>
      have hjoins := h.joins_le
      have hsuccess := h.success
      rw [hpc] at hcreated hcreate hthreads hjoins hsuccess hjoined
      have hlast : i = workers := Nat.le_antisymm hjoins (Nat.le_of_not_lt hi)
      subst hlast
      exact ⟨hcreated, Nat.le_refl _, fun _ => h.calloc (by simp [hpc]), hcreate, hthreads,
        hsuccess, hjoined, h.totals, hstopped⟩
  | @threadExits w hw hrunning hend =>
      refine ⟨h.created_le, h.joins_le, h.calloc, h.create, fun j hj => ?_, h.success, h.joined,
        h.totals, hstopped⟩
      have hold := h.threads j hj
      by_cases hjw : j = w
      · subst hjw
        rw [hrunning] at hold
        simp only [Function.update_self]
        exact ⟨hold, rfl⟩
      · simpa [hjw] using hold
  | fails hfail =>
      refine ⟨h.created_le, h.joins_le, h.calloc, h.create, h.threads, h.success, h.joined,
        h.totals, fun code hcode => ?_⟩
      constructor
      · exact (Option.some.inj hcode).symm
      · exact h.not_succeed hfail

theorem TeamInv.of_reachable (h : (teamSystem workers calls).Reachable s) :
    TeamInv workers calls s := by
  refine h.invariant (fun s₀ hinit => ?_) fun s₁ a s₂ hinv hnext => ?_
  · rw [show s₀ = teamInit from hinit]
    exact TeamInv.init
  · have hcases := teamNext_cases hnext
    exact hinv.step hcases.2

/-! ## Progress and termination -/

theorem TeamInv.progress (h : TeamInv workers calls s) :
    s.ended.isSome ∨ (teamSystem workers calls).Enabled s := by
  cases hstatus : s.status with
  | some code => exact .inl (by simp [TeamState.ended, hstatus])
  | none =>
      have hmain : (mainNext workers calls s).isSome → (teamSystem workers calls).Enabled s := by
        intro hsome
        apply Lts.enabled_of_isSome TeamAct.main
        simpa [teamSystem, teamNext, hstatus] using hsome
      cases hpc : s.main with
      | joinedAll => exact .inl (by simp [TeamState.ended, hstatus, hpc])
      | calloc =>
          right
          apply hmain
          simp only [mainNext, hpc]
          split <;> rfl
      | create i =>
          right
          apply hmain
          simp only [mainNext, hpc]
          split
          · split <;> rfl
          · rfl
      | join i =>
          right
          by_cases hi : i < workers
          · have hagrees := h.threads i hi
            cases hthread : s.threads i with
            | notCreated =>
                rw [hthread, hpc] at hagrees
                exact absurd hi hagrees
            | exited res =>
                apply hmain
                cases res <;> simp [mainNext, hpc, hi, hthread]
            | running =>
                apply Lts.enabled_of_isSome (TeamAct.thread i)
                simp only [teamSystem, teamNext, hstatus, Option.isSome_none, Bool.false_eq_true,
                  if_false, if_pos hi, threadNext, hthread]
                split <;> rfl
          · exact hmain (by simp [mainNext, hpc, hi])

def MainPc.stepsLeft (workers : Nat) : MainPc → Nat
  | .calloc => 2 * workers + 3
  | .create i => (workers - i) + workers + 2
  | .join i => (workers - i) + 1
  | .joinedAll => 0

def ThreadState.stepsLeft : ThreadState → Nat
  | .notCreated | .running => 1
  | .exited _ => 0

def teamStepsLeft (workers : Nat) (s : TeamState) : Nat :=
  (s.main.stepsLeft workers + ∑ w ∈ Finset.range workers, (s.threads w).stepsLeft) +
    if s.status = none then 1 else 0

theorem teamStepsLeft_step (hrun : s.status = none) (hstep : TeamStep workers calls s s')
    (hinv : TeamInv workers calls s) : teamStepsLeft workers s' < teamStepsLeft workers s := by
  have hmain : ∀ main joined totals, main.stepsLeft workers < s.main.stepsLeft workers →
      teamStepsLeft workers ⟨main, s.threads, joined, totals, s.status⟩ <
        teamStepsLeft workers s := by
    intro main joined totals hlt
    unfold teamStepsLeft
    simp only
    omega
  cases hstep with
  | calloc hpc _ => exact hmain _ _ _ (by simp only [hpc, MainPc.stepsLeft]; omega)
  | @create i hpc hi _ =>
      have hsum : ∑ w ∈ Finset.range workers,
            (Function.update s.threads i ThreadState.running w).stepsLeft ≤
          ∑ w ∈ Finset.range workers, (s.threads w).stepsLeft := by
        apply Finset.sum_le_sum
        intro w hw
        by_cases hwi : w = i
        · subst hwi
          have hagrees := hinv.threads w hi
          rw [hpc] at hagrees
          cases hthread : s.threads w with
          | exited res =>
              rw [hthread] at hagrees
              exact absurd hagrees.1 (Nat.lt_irrefl w)
          | notCreated => simp [ThreadState.stepsLeft]
          | running => simp [ThreadState.stepsLeft]
        · simp [hwi]
      simp only [teamStepsLeft, hpc, MainPc.stepsLeft]
      omega
  | createdAll hpc _ => exact hmain _ _ _ (by simp only [hpc, MainPc.stepsLeft]; omega)
  | join hpc hi _ => exact hmain _ _ _ (by simp only [hpc, MainPc.stepsLeft]; omega)
  | joinedAll hpc _ => exact hmain _ _ _ (by simp only [hpc, MainPc.stepsLeft]; omega)
  | @threadExits w hw hrunning _ =>
      have hsum : ∑ v ∈ Finset.range workers,
            (Function.update s.threads w (.exited (calls.thread w).result?) v).stepsLeft <
          ∑ v ∈ Finset.range workers, (s.threads v).stepsLeft := by
        refine Finset.sum_lt_sum (fun v _ => ?_) ⟨w, Finset.mem_range.mpr hw, ?_⟩
        · by_cases hvw : v = w
          · simp [hvw, ThreadState.stepsLeft]
          · simp [hvw]
        · simp [hrunning, ThreadState.stepsLeft]
      simp only [teamStepsLeft]
      omega
  | fails _ => simp [teamStepsLeft, hrun]

/-! ## The end -/

/-- What a process comes to. -/
def teamResult (workers : Nat) (calls : TeamCalls) (e : TeamEnd) : Prop :=
  (calls.Succeed workers ∧ e = .totals (joinTotals (calls.results workers)).toLong) ∨
    (¬ calls.Succeed workers ∧ e = .status 1)

theorem team_end (h : (teamSystem workers calls).Reachable s) {e : TeamEnd}
    (hend : s.ended = some e) : teamResult workers calls e := by
  have hinv := TeamInv.of_reachable h
  cases hstatus : s.status with
  | some code =>
      have hstopped := hinv.stopped code hstatus
      have he : e = .status code := by simpa [TeamState.ended, hstatus] using hend.symm
      exact .inr ⟨hstopped.2, by rw [he, hstopped.1]⟩
  | none =>
      by_cases hpc : s.main = .joinedAll
      · have he : e = .totals s.totals := by
          simpa [TeamState.ended, hstatus, hpc] using hend.symm
        have hcreate := hinv.create
        have hsuccess := hinv.success
        have hjoined := hinv.joined
        rw [hpc] at hcreate hsuccess hjoined
        left
        constructor
        · exact ⟨hinv.calloc (by simp [hpc]), hcreate, hsuccess⟩
        · rw [he, hinv.totals, hjoined, WorkerResult.foldl_addLong_zero]
          rfl
      · simp [TeamState.ended, hstatus, hpc] at hend

theorem team_inevitable (h : TeamInv workers calls s) :
    (teamSystem workers calls).Inevitable (fun s => s.ended.isSome) s := by
  refine Lts.Inevitable.of_measure (I := TeamInv workers calls) (teamStepsLeft workers)
    (fun s₁ hinv => hinv.progress) (fun s₁ a s₂ hinv hnext => ?_) h
  have hcases := teamNext_cases hnext
  exact ⟨hinv.step hcases.2, teamStepsLeft_step hcases.1 hcases.2 hinv⟩

end Model

end OsLabs.PageCacheModels
