import Mathlib.Algebra.BigOperators.Group.List.Basic
import Mathlib.Data.Finset.Insert
import OsLabs.Core.Loop

/-! # Leaving a trap by a jump

A process whose signal handler counts the signal and jumps to the buffer that
`sigsetjmp` set last. The kernel blocks a signal while its handler runs; a jump restores
the mask if it was saved, and else leaves the signal blocked. A trap whose signal is
blocked or has no handler kills the process, and a jump into a call that has returned, or
to a buffer never set, is undefined.
-/

namespace OsLabs.Traps

open Loop

inductive Signal where
  | sigsegv
  | sigbus
  | sigfpe
  | sigill
  | sigtrap
  deriving DecidableEq, Repr

/-- An instruction that may trap, alone or in `if (sigsetjmp(buf, savemask) == 0)`. -/
structure Op where
  guarded : Bool
  raises : Option Signal
  deriving DecidableEq, Repr

/-- The call that set the buffer, what it had left to do, and the mask if it is saved. -/
structure JumpBuf where
  call : Nat
  rest : List Op
  mask : Option (Finset Signal)

structure Process where
  blocked : Finset Signal
  buf : Option JumpBuf
  /-- Signals handled. -/
  faultCount : Nat

/-- `main` calls functions one after the other, the calls numbered. -/
structure Running where
  process : Process
  call : Nat
  ops : List Op
  calls : List (List Op)

inductive Ending where
  | returned (p : Process)
  | killed (sig : Signal)
  | undefined

section Program

variable (handled : Finset Signal) (savemask : Bool)

def siglongjmp (r : Running) : Running ⊕ Ending :=
  match r.process.buf with
  | none => .inr .undefined
  | some buf =>
      if buf.call = r.call then
        .inl { r with
          process := { r.process with blocked := buf.mask.getD r.process.blocked }
          ops := buf.rest }
      else .inr .undefined

/-- The kernel delivers the signal of a trap, and the handler runs. -/
def trap (r : Running) (sig : Signal) : Running ⊕ Ending :=
  if sig ∈ handled ∧ sig ∉ r.process.blocked then
    siglongjmp { r with
      process := { r.process with
        blocked := insert sig r.process.blocked
        faultCount := r.process.faultCount + 1 } }
  else .inr (.killed sig)

/-- The process with the buffer as the instruction leaves it. -/
def Running.sigsetjmp (r : Running) (op : Op) (ops : List Op) : Process :=
  if op.guarded then
    { r.process with buf := some ⟨r.call, ops, if savemask then some r.process.blocked else none⟩ }
  else r.process

def step (r : Running) : Running ⊕ Ending :=
  match r.ops, r.calls with
  | [], [] => .inr (.returned r.process)
  | [], ops :: calls => .inl { r with call := r.call + 1, ops := ops, calls := calls }
  | op :: ops, _ =>
      let r' := { r with process := r.sigsetjmp savemask op ops, ops := ops }
      match op.raises with
      | none => .inl r'
      | some sig => trap handled r' sig

/-- A program from its start: nothing is blocked and no buffer set. -/
def main (calls : List (List Op)) (fuel : Nat) : Option Ending :=
  run (step handled savemask) fuel ⟨⟨∅, none, 0⟩, 0, [], calls⟩

end Program

/-! ## What is left to do -/

/-- Instructions and returns. -/
def Running.remaining (r : Running) : Nat := r.ops.length + (r.calls.map fun ops => ops.length + 1).sum

def Running.rest (r : Running) : List Op := r.ops ++ r.calls.flatten

/-- The signals to come. -/
def Running.raised (r : Running) : List Signal := r.rest.filterMap Op.raises

/-- The instruction traps only where the buffer has just been set. -/
def Op.Safe (op : Op) : Prop := op.raises.isSome → op.guarded

instance (op : Op) : Decidable op.Safe := inferInstanceAs (Decidable (_ → _))

/-- Of two instructions of one function, the one that is not safe comes before any guard. -/
def Ordered (ops : List Op) : Prop := ops.Pairwise fun op op' => op.guarded → op'.Safe

instance (ops : List Op) : Decidable (Ordered ops) :=
  inferInstanceAs (Decidable (ops.Pairwise fun op op' => op.guarded → op'.Safe))

variable {handled : Finset Signal} {savemask : Bool} {r r' : Running} {e : Ending}

/-- What the next step is, according to the instruction. -/
inductive Step (handled : Finset Signal) (savemask : Bool) (r : Running) : Running ⊕ Ending → Prop
  | returns (hops : r.ops = []) (hcalls : r.calls = []) :
      Step handled savemask r (.inr (.returned r.process))
  | calls {ops : List Op} {calls : List (List Op)} (hops : r.ops = []) (hcalls : r.calls = ops :: calls) :
      Step handled savemask r (.inl { r with call := r.call + 1, ops := ops, calls := calls })
  | quiet {op : Op} {ops : List Op} (hops : r.ops = op :: ops) (hraises : op.raises = none) :
      Step handled savemask r (.inl { r with process := r.sigsetjmp savemask op ops, ops := ops })
  | killed {op : Op} {ops : List Op} {sig : Signal} (hops : r.ops = op :: ops)
      (hraises : op.raises = some sig) (hnot : ¬ (sig ∈ handled ∧ sig ∉ r.process.blocked)) :
      Step handled savemask r (.inr (.killed sig))
  | recovers {op : Op} {ops : List Op} {sig : Signal} (hops : r.ops = op :: ops)
      (hraises : op.raises = some sig) (hguarded : op.guarded = true) (hhandled : sig ∈ handled)
      (hblocked : sig ∉ r.process.blocked) :
      Step handled savemask r (.inl { r with
        process := {
          blocked := if savemask then r.process.blocked else insert sig r.process.blocked
          buf := some ⟨r.call, ops, if savemask then some r.process.blocked else none⟩
          faultCount := r.process.faultCount + 1 }
        ops := ops })
  | jumps {op : Op} {ops : List Op} {sig : Signal} {t : Running ⊕ Ending} (hops : r.ops = op :: ops)
      (hraises : op.raises = some sig) (hguarded : op.guarded = false) (hhandled : sig ∈ handled)
      (hblocked : sig ∉ r.process.blocked)
      (ht : t = siglongjmp { r with
        process := { r.process with
          blocked := insert sig r.process.blocked, faultCount := r.process.faultCount + 1 }
        ops := ops }) :
      Step handled savemask r t

theorem step_cases (handled : Finset Signal) (savemask : Bool) (r : Running) :
    Step handled savemask r (step handled savemask r) := by
  unfold step
  split
  next hops hcalls => exact .returns hops hcalls
  next ops calls hops hcalls => exact .calls hops hcalls
  next _ _ op ops hops =>
    cases hraises : op.raises with
    | none => exact .quiet hops hraises
    | some sig =>
        have hblocked : (r.sigsetjmp savemask op ops).blocked = r.process.blocked := by
          unfold Running.sigsetjmp
          split <;> rfl
        simp only [trap, hblocked]
        by_cases hdelivered : sig ∈ handled ∧ sig ∉ r.process.blocked
        · rw [if_pos hdelivered]
          cases hguarded : op.guarded with
          | true =>
              have hstep := @Step.recovers handled savemask r op ops sig hops hraises hguarded
                hdelivered.1 hdelivered.2
              cases savemask <;> simpa [siglongjmp, Running.sigsetjmp, hguarded] using hstep
          | false =>
              apply Step.jumps hops hraises hguarded hdelivered.1 hdelivered.2
              simp [Running.sigsetjmp, hguarded]
        · rw [if_neg hdelivered]
          exact .killed hops hraises hdelivered

section Rest

variable {op : Op} {ops : List Op}

theorem Op.safe_of_quiet (h : op.raises = none) : op.Safe := by
  simp [Op.Safe, h]

theorem Op.safe_of_guarded (h : op.guarded = true) : op.Safe := fun _ => h

theorem Op.not_safe {sig : Signal} (hraises : op.raises = some sig) (h : op.guarded = false) :
    ¬ op.Safe := by
  simp [Op.Safe, hraises, h]

theorem Running.rest_cons (h : r.ops = op :: ops) (p : Process) :
    r.rest = op :: Running.rest { r with process := p, ops := ops } := by
  simp [Running.rest, h]

theorem Running.rest_call {calls : List (List Op)} (hops : r.ops = []) (hcalls : r.calls = ops :: calls) :
    Running.rest { r with call := r.call + 1, ops := ops, calls := calls } = r.rest := by
  simp [Running.rest, hops, hcalls]

theorem Running.raised_cons (h : r.ops = op :: ops) (p : Process) :
    r.raised = op.raises.toList ++ Running.raised { r with process := p, ops := ops } := by
  rw [Running.raised, Running.raised, rest_cons h p, List.filterMap_cons]
  cases op.raises <;> rfl

theorem Running.remaining_cons (h : r.ops = op :: ops) (p : Process) :
    Running.remaining { r with process := p, ops := ops } < r.remaining := by
  simp only [Running.remaining, h, List.length_cons]
  omega

theorem Running.remaining_call {calls : List (List Op)} (hops : r.ops = [])
    (hcalls : r.calls = ops :: calls) :
    Running.remaining { r with call := r.call + 1, ops := ops, calls := calls } < r.remaining := by
  simp only [Running.remaining, hops, hcalls, List.map_cons, List.sum_cons, List.length_nil]
  omega

end Rest

/-! ## With the mask saved -/

/-- The mask is empty between two instructions, and an instruction that is not safe meets a
buffer set by a call that has returned. `safe` says whether the program has no such
instruction, `total` counts its signals. -/
structure Inv (handled : Finset Signal) (safe : Prop) (total : Nat) (r : Running) : Prop where
  blocked : r.process.blocked = ∅
  handled : ∀ sig ∈ r.raised, sig ∈ handled
  counted : r.process.faultCount + r.raised.length = total
  ordered : ∀ ops ∈ r.ops :: r.calls, Ordered ops
  buf : ∀ buf ∈ r.process.buf, buf.call ≤ r.call
  fresh : (∃ op ∈ r.ops, ¬ op.Safe) → ∀ buf ∈ r.process.buf, buf.call < r.call
  safe : (∀ op ∈ r.rest, op.Safe) ↔ safe

/-- How a run ends that has saved the mask. -/
def Ends (safe : Prop) (total : Nat) (e : Ending) : Prop :=
  (safe → ∃ p, e = .returned p ∧ p.faultCount = total ∧ p.blocked = ∅) ∧ (¬ safe → e = .undefined)

variable {safe : Prop} {total : Nat}

/-- An instruction that is not safe jumps into a call that has returned. -/
theorem Inv.jumps (h : Inv handled safe total r) {op : Op} {ops : List Op} {sig : Signal}
    (hops : r.ops = op :: ops) (hraises : op.raises = some sig) (hguarded : op.guarded = false) :
    siglongjmp { r with
      process := { r.process with
        blocked := insert sig r.process.blocked, faultCount := r.process.faultCount + 1 }
      ops := ops } = .inr .undefined := by
  have hfresh := h.fresh ⟨op, by simp [hops], Op.not_safe hraises hguarded⟩
  unfold siglongjmp
  cases hbuf : r.process.buf with
  | none => rfl
  | some buf =>
      have hlt := hfresh buf hbuf
      simp only [if_neg (Nat.ne_of_lt hlt)]

/-- The invariant past an instruction that leaves the buffer as it is, or sets it. -/
theorem Inv.past (h : Inv handled safe total r) {op : Op} {ops : List Op} (hops : r.ops = op :: ops)
    {p : Process} (hsafe : op.Safe) (hblocked : p.blocked = ∅)
    (hcount : p.faultCount = r.process.faultCount + op.raises.toList.length)
    (hbuf : p.buf = r.process.buf ∨ op.guarded = true ∧ ∀ buf ∈ p.buf, buf.call ≤ r.call) :
    Inv handled safe total { r with process := p, ops := ops } := by
  have hraised := Running.raised_cons hops p
  have hordered := h.ordered r.ops List.mem_cons_self
  rw [hops] at hordered
  obtain ⟨hhead, htail⟩ := List.pairwise_cons.mp hordered
  refine ⟨hblocked, ?_, ?_, ?_, ?_, ?_, ?_⟩
  · intro sig hsig
    apply h.handled
    rw [hraised]
    exact List.mem_append_right _ hsig
  · have hcounted := h.counted
    rw [hraised, List.length_append] at hcounted
    show p.faultCount + _ = total
    omega
  · intro os hos
    rcases List.mem_cons.mp hos with rfl | hos
    · exact htail
    · exact h.ordered os (List.mem_cons_of_mem _ hos)
  · rcases hbuf with hbuf | ⟨_, hbuf⟩
    · exact hbuf ▸ h.buf
    · exact hbuf
  · intro ⟨op', hmem, hopen⟩
    rcases hbuf with hbuf | ⟨hguarded, _⟩
    · show ∀ buf ∈ p.buf, buf.call < r.call
      rw [hbuf]
      exact h.fresh ⟨op', by rw [hops]; exact List.mem_cons_of_mem _ hmem, hopen⟩
    · exact (hopen (hhead op' hmem hguarded)).elim
  · rw [← h.safe, Running.rest_cons hops p, List.forall_mem_cons]
    exact (and_iff_right hsafe).symm

theorem Inv.step (h : Inv handled safe total r) (hstep : step handled true r = .inl r') :
    Inv handled safe total r' ∧ r'.remaining < r.remaining := by
  have hcases := step_cases handled true r
  rw [hstep] at hcases
  cases hcases with
  | @calls ops calls hops hcalls =>
      have hrest := Running.rest_call hops hcalls
      refine ⟨⟨h.blocked, ?_, ?_, ?_, ?_, ?_, ?_⟩, Running.remaining_call hops hcalls⟩
      · rw [Running.raised, hrest]
        exact h.handled
      · rw [Running.raised, hrest]
        exact h.counted
      · intro os hos
        exact h.ordered os (List.mem_cons_of_mem _ (hcalls ▸ hos))
      · intro buf hbuf
        exact Nat.le_succ_of_le (h.buf buf hbuf)
      · intro _ buf hbuf
        exact Nat.lt_succ_of_le (h.buf buf hbuf)
      · rw [hrest]
        exact h.safe
  | @quiet op ops hops hraises =>
      refine ⟨h.past hops (Op.safe_of_quiet hraises) ?_ ?_ ?_, Running.remaining_cons hops _⟩
      · unfold Running.sigsetjmp
        split <;> exact h.blocked
      · rw [hraises]
        unfold Running.sigsetjmp
        split <;> rfl
      · unfold Running.sigsetjmp
        split
        next hguarded => exact .inr ⟨hguarded, by simp⟩
        next => exact .inl rfl
  | @recovers op ops sig hops hraises hguarded hhandled hblocked =>
      refine ⟨h.past hops (Op.safe_of_guarded hguarded) h.blocked ?_ (.inr ⟨hguarded, by simp⟩),
        Running.remaining_cons hops _⟩
      rw [hraises]
      rfl
  | jumps hops hraises hguarded hhandled hblocked ht =>
      rw [h.jumps hops hraises hguarded] at ht
      cases ht

theorem Inv.leave (h : Inv handled safe total r) (hstep : Traps.step handled true r = .inr e) :
    Ends safe total e := by
  have hcases := step_cases handled true r
  rw [hstep] at hcases
  cases hcases with
  | returns hops hcalls =>
      have hrest : r.rest = [] := by simp [Running.rest, hops, hcalls]
      have hsafe : safe := h.safe.mp (by simp [hrest])
      have hcounted := h.counted
      rw [Running.raised, hrest] at hcounted
      exact ⟨fun _ => ⟨_, rfl, hcounted, h.blocked⟩, fun hnot => (hnot hsafe).elim⟩
  | @killed op ops sig hops hraises hnot =>
      have hmem : sig ∈ handled := by
        apply h.handled
        rw [Running.raised_cons hops r.process, hraises]
        exact List.mem_cons_self
      exact (hnot ⟨hmem, by simp [h.blocked]⟩).elim
  | jumps hops hraises hguarded hhandled hblocked ht =>
      rw [h.jumps hops hraises hguarded] at ht
      cases ht
      refine ⟨fun hsafe => ?_, fun _ => rfl⟩
      have hopen := Op.not_safe hraises hguarded
      exact (hopen (h.safe.mpr hsafe _ (by simp [Running.rest, hops]))).elim

/-- With the mask saved a program whose signals have handlers counts every one of them and
returns if each instruction that traps is guarded; if not, it jumps into a call that has
returned. -/
theorem main_returns {calls : List (List Op)} (hhandled : ∀ sig ∈ calls.flatten.filterMap Op.raises, sig ∈ handled)
    (hordered : ∀ ops ∈ calls, Ordered ops) {fuel : Nat}
    (hfuel : (calls.map fun ops => ops.length + 1).sum < fuel) :
    ∃ e, main handled true calls fuel = some e ∧
      Ends (∀ op ∈ calls.flatten, op.Safe) (calls.flatten.filterMap Op.raises).length e := by
  apply run_of_measure (I := Inv handled (∀ op ∈ calls.flatten, op.Safe)
    (calls.flatten.filterMap Op.raises).length) Running.remaining
  · intro r r' h hstep
    exact h.step hstep
  · intro r e h hstep
    exact h.leave hstep
  · refine ⟨rfl, hhandled, Nat.zero_add _, ?_, by simp, by simp, Iff.rfl⟩
    intro ops hops
    rcases List.mem_cons.mp hops with rfl | hops
    · exact List.Pairwise.nil
    · exact hordered ops hops
  · simpa [Running.remaining] using hfuel

/-! ## With the mask not saved -/

/-- Every signal handled so far stays blocked. `once` says whether the program raises no
signal twice. -/
structure UnsavedInv (handled : Finset Signal) (once : Prop) (total : Nat) (r : Running) : Prop where
  handled : ∀ sig ∈ r.raised, sig ∈ handled
  counted : r.process.faultCount + r.raised.length = total
  safe : ∀ op ∈ r.rest, op.Safe
  once : (r.raised.Nodup ∧ ∀ sig ∈ r.raised, sig ∉ r.process.blocked) ↔ once

def EndsOnce (once : Prop) (total : Nat) (e : Ending) : Prop :=
  (once → ∃ p, e = .returned p ∧ p.faultCount = total) ∧ (¬ once → ∃ sig, e = .killed sig)

variable {once : Prop}

theorem UnsavedInv.past (h : UnsavedInv handled once total r) {op : Op} {ops : List Op}
    (hops : r.ops = op :: ops) {p : Process}
    (hcount : p.faultCount = r.process.faultCount + op.raises.toList.length)
    (hfree : ∀ sig ∈ op.raises, sig ∉ r.process.blocked)
    (hblocked : ∀ sig, sig ∈ p.blocked ↔ sig ∈ op.raises ∨ sig ∈ r.process.blocked) :
    UnsavedInv handled once total { r with process := p, ops := ops } := by
  have hraised := Running.raised_cons hops p
  refine ⟨?_, ?_, ?_, ?_⟩
  · intro sig hsig
    apply h.handled
    rw [hraised]
    exact List.mem_append_right _ hsig
  · have hcounted := h.counted
    rw [hraised, List.length_append] at hcounted
    show p.faultCount + _ = total
    omega
  · intro op' hop'
    apply h.safe
    rw [Running.rest_cons hops p]
    exact List.mem_cons_of_mem _ hop'
  · rw [← h.once, hraised]
    show (List.Nodup _ ∧ ∀ sig ∈ _, sig ∉ p.blocked) ↔ _
    cases hraises : op.raises with
    | none => simp [hblocked, hraises]
    | some sig =>
        have hnot := hfree sig hraises
        simp only [hblocked, hraises, Option.mem_some_iff, not_or, Option.toList_some,
          List.cons_append, List.nil_append, List.nodup_cons, List.forall_mem_cons]
        constructor
        · rintro ⟨hnodup, hnew⟩
          exact ⟨⟨fun hmem => (hnew sig hmem).1 rfl, hnodup⟩, hnot, fun sig' hmem => (hnew sig' hmem).2⟩
        · rintro ⟨⟨hnew, hnodup⟩, _, hnew'⟩
          exact ⟨hnodup, fun sig' hmem => ⟨fun heq => hnew (heq ▸ hmem), hnew' sig' hmem⟩⟩

theorem UnsavedInv.step (h : UnsavedInv handled once total r) (hstep : Traps.step handled false r = .inl r') :
    UnsavedInv handled once total r' ∧ r'.remaining < r.remaining := by
  have hcases := step_cases handled false r
  rw [hstep] at hcases
  cases hcases with
  | @calls ops calls hops hcalls =>
      have hrest := Running.rest_call hops hcalls
      refine ⟨⟨?_, ?_, ?_, ?_⟩, Running.remaining_call hops hcalls⟩
      · rw [Running.raised, hrest]
        exact h.handled
      · rw [Running.raised, hrest]
        exact h.counted
      · rw [hrest]
        exact h.safe
      · rw [Running.raised, hrest]
        exact h.once
  | @quiet op ops hops hraises =>
      refine ⟨h.past hops ?_ ?_ ?_, Running.remaining_cons hops _⟩
      · rw [hraises]
        unfold Running.sigsetjmp
        split <;> rfl
      · simp [hraises]
      · intro sig
        rw [hraises]
        unfold Running.sigsetjmp
        split <;> simp
  | @recovers op ops sig hops hraises hguarded hhandled hblocked =>
      refine ⟨h.past hops ?_ ?_ ?_, Running.remaining_cons hops _⟩
      · rw [hraises]
        rfl
      · rw [hraises]
        intro sig' hsig'
        rwa [← Option.some.inj hsig']
      · intro sig'
        simp [hraises, eq_comm]
  | jumps hops hraises hguarded =>
      exact (Op.not_safe hraises hguarded (h.safe _ (by simp [Running.rest, hops]))).elim

theorem UnsavedInv.leave (h : UnsavedInv handled once total r)
    (hstep : Traps.step handled false r = .inr e) : EndsOnce once total e := by
  have hcases := step_cases handled false r
  rw [hstep] at hcases
  cases hcases with
  | returns hops hcalls =>
      have hrest : r.rest = [] := by simp [Running.rest, hops, hcalls]
      have hcounted := h.counted
      have honce := h.once
      rw [Running.raised, hrest] at hcounted honce
      exact ⟨fun _ => ⟨_, rfl, hcounted⟩, fun hnot => (hnot (honce.mp (by simp))).elim⟩
  | @killed op ops sig hops hraises hnot =>
      have hmem : sig ∈ r.raised := by
        rw [Running.raised_cons hops r.process, hraises]
        exact List.mem_cons_self
      refine ⟨fun hnodup => ?_, fun _ => ⟨sig, rfl⟩⟩
      exact (hnot ⟨h.handled sig hmem, (h.once.mpr hnodup).2 sig hmem⟩).elim
  | jumps hops hraises hguarded =>
      exact (Op.not_safe hraises hguarded (h.safe _ (by simp [Running.rest, hops]))).elim

/-- Without the mask the handler runs once for each signal, and the second trap of any of
them kills the process. -/
theorem unsaved_main_returns {calls : List (List Op)}
    (hhandled : ∀ sig ∈ calls.flatten.filterMap Op.raises, sig ∈ handled)
    (hsafe : ∀ op ∈ calls.flatten, op.Safe) {fuel : Nat}
    (hfuel : (calls.map fun ops => ops.length + 1).sum < fuel) :
    ∃ e, main handled false calls fuel = some e ∧
      EndsOnce (calls.flatten.filterMap Op.raises).Nodup (calls.flatten.filterMap Op.raises).length e := by
  apply run_of_measure (I := UnsavedInv handled (calls.flatten.filterMap Op.raises).Nodup
    (calls.flatten.filterMap Op.raises).length) Running.remaining
  · intro r r' h hstep
    exact h.step hstep
  · intro r e h hstep
    exact h.leave hstep
  · exact ⟨hhandled, Nat.zero_add _, hsafe, by simp [Running.raised, Running.rest]⟩
  · simpa [Running.remaining] using hfuel

end OsLabs.Traps
