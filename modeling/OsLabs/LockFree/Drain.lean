import OsLabs.LockFree.NoLeak
import OsLabs.LockFree.Program
import OsLabs.LockFree.Progress

/-! # Runs of the program on the compare-and-swap stack

`main` is the only thread in `pop`, so the stack of the program is the atomic one:
everything pushed is popped once and freed. And the program ends, for the pushers
cannot hold each other up for ever.
-/

namespace OsLabs.LockFree

section Model

variable {T Addr : Type} [DecidableEq T] [DecidableEq Addr] [Fintype T] {n : Nat}
  {s s' : Prog T Addr} {ts : List (Transition (Prog T Addr) (ProgAct T Addr))}
  {l : List (Addr × Int)} {phase : Option T → Phase}

omit [DecidableEq T] [Fintype T] in
theorem isCall_event (x : Transition (State (Option T) Addr) (Act (Option T) Addr)) :
    calls x = isCall (event x) := by
  obtain ⟨st, a, st'⟩ := x
  cases a with
  | call t op => rfl
  | malloc t n junk => rfl
  | run t junk =>
      simp only [calls, event]
      split
      · split <;> rfl
      · rfl
      · rfl
      · rfl
  | cas t spurious =>
      simp only [calls, event]
      split
      · split <;> rfl
      · split <;> rfl
      · rfl

omit [DecidableEq T] [Fintype T] in
theorem calls_of_permits {a : Act (Option T) Addr} {st : State (Option T) Addr}
    {e : Event (Option T)} (h : s.permits n a = true) (he : event ⟨s.stack, a, st⟩ = some e) :
    Calls n s e := by
  cases a with
  | call t op =>
      cases he
      cases t <;> simpa [Calls, Prog.permits] using h
  | malloc t m junk => cases he
  | run t junk =>
      simp only [event] at he
      split at he
      · split at he
        · cases he
          trivial
        · cases he
      · cases he
        trivial
      · cases he
        trivial
      · cases he
  | cas t spurious =>
      simp only [event] at he
      split at he
      · split at he
        · cases he
          trivial
        · cases he
      · split at he
        · cases he
          trivial
        · cases he
      · cases he

/-- What a run of the program keeps. -/
structure Rel (n : Nat) (ts : List (Transition (Prog T Addr) (ProgAct T Addr))) (s : Prog T Addr)
    (l : List (Addr × Int)) (phase : Option T → Phase) : Prop where
  inv : Inv s.stack l phase
  noLeak : NoLeak s.stack l
  accounts : Accounts n (vals ts) ((stackSteps ts).countP calls) s (abstraction l phase)
  balance : Balance (stackSteps ts) s.stack
  accesses : ∀ x ∈ stackSteps ts, AccessesAllocated Pc.derefs x

omit [DecidableEq T] in
theorem Rel.init : Rel n [] (initProg : Prog T Addr) [] fun _ => .idle := by
  constructor
  · exact Inv.init
  · intro a ha
    cases ha
  · constructor
    · exact fun _ => Nat.zero_le n
    · trivial
    · exact fun hmain => (hmain rfl).elim
    · exact fun _ => rfl
    · rfl
    · simp [vals, held, abstraction, pushedBy, initProg]
    · simp [stackSteps, callsBy, initProg, MainPc.lastCalls, abstraction]
  · exact Balance.init
  · simp [stackSteps]

omit [DecidableEq T] in
/-- Only `main` is in `pop`. -/
theorem Rel.onePopper (h : Rel n ts s l phase) : OnePopper s.stack := by
  have hmain : ∀ t, (s.stack.pc t).popping = true → t = none := by
    intro t ht
    cases t with
    | none => rfl
    | some t =>
        have hfits := h.inv.fits (some t)
        have hpusher : Pushing n (s.i t) (phase (some t)) := h.accounts.pusher t
        cases hpc : s.stack.pc (some t) <;> rw [hpc] at hfits ht <;> simp [Pc.popping] at ht <;>
          simp only [Fits] at hfits
        case popLoad =>
          rw [hfits] at hpusher
          cases hpusher.2
        case popNext | popCas | popFree =>
          rw [hfits.2] at hpusher
          cases hpusher.2
        case popVal =>
          obtain ⟨v, q, _, hphase⟩ := hfits
          rw [hphase] at hpusher
          cases hpusher.2
        case popRet =>
          rw [hfits] at hpusher
          cases hpusher.2
  intro t u ht hu
  rw [hmain t ht, hmain u hu]

theorem Rel.step (h : Rel n ts s l phase) {a : ProgAct T Addr} (hnext : progNext n s a = some s') :
    ∃ l' phase', Rel n (ts ++ [⟨s, a, s'⟩]) s' l' phase' := by
  cases a with
  | join =>
      simp only [progNext] at hnext
      split at hnext
      next hjoin =>
        cases hnext
        have hsteps : stackSteps (ts ++ [⟨s, .join, { s with main := .loop }⟩]) = stackSteps ts :=
          Lts.observed_snoc_none stackStep rfl
        have hvals : vals (ts ++ [⟨s, .join, { s with main := .loop }⟩]) = vals ts :=
          Lts.observed_snoc_none _ rfl
        refine ⟨l, phase, h.inv, h.noLeak, ?_, ?_, ?_⟩
        · rw [hsteps, hvals]
          exact h.accounts.join hjoin.1 hjoin.2
        · rw [hsteps]
          exact h.balance
        · rw [hsteps]
          exact h.accesses
      next => cases hnext
  | stack a =>
      simp only [progNext] at hnext
      split at hnext
      next hpermits =>
        obtain ⟨st, hst, rfl⟩ := Option.map_eq_some_iff.mp hnext
        have hstep := next_cases hst
        obtain ⟨phase', hinv, hshows⟩ := h.inv.step hstep (h.onePopper.freesUnheld a st)
        rw [after_eq_observe]
        have hsteps : stackSteps (ts ++ [⟨s, .stack a,
            { s.observe (event ⟨s.stack, a, st⟩) with stack := st }⟩]) =
            stackSteps ts ++ [⟨s.stack, a, st⟩] :=
          Lts.observed_snoc_some stackStep rfl
        refine ⟨relink l ⟨s.stack, a, st⟩, phase', hinv, h.noLeak.step h.inv hstep, ?_, ?_, ?_⟩
        · rw [hsteps, countP_snoc, isCall_event, vals, Lts.observed_snoc]
          show Accounts n (vals ts ++ (valOf (event ⟨s.stack, a, st⟩)).toList)
            ((stackSteps ts).countP calls + _) _ _
          cases hevent : event ⟨s.stack, a, st⟩ with
          | none =>
              simp only [hevent] at hshows
              rw [hshows]
              simpa [valOf, isCall, Prog.observe] using h.accounts.setStack st
          | some e =>
              simp only [hevent] at hshows
              have hcalls := calls_of_permits hpermits hevent
              exact (h.accounts.step hcalls (Atomic.next_cases hshows)).setStack st
        · rw [hsteps]
          exact h.balance.step hstep
        · rw [hsteps, List.forall_mem_append, List.forall_mem_singleton]
          exact ⟨h.accesses, h.inv.accesses⟩
      next => cases hnext

omit [DecidableEq T] [DecidableEq Addr] [Fintype T] in
theorem Fits.pc_idle {heap : Heap Addr Int} {p : Pc Addr} (h : Fits heap p .idle) : p = .idle := by
  cases p <;> simp [Fits] at h
  rfl

theorem Rel.of_runs (hruns : (prog n).RunsTo (initProg : Prog T Addr) ts s) :
    ∃ l phase, Rel n ts s l phase := by
  apply hruns.history (I := fun ts s => ∃ l phase, Rel n ts s l phase)
  · exact ⟨[], _, Rel.init⟩
  · rintro ts₁ s₁ a s₂ _ ⟨l, phase, h⟩ hnext
    exact h.step hnext

/-! ## Its end -/

def MainPc.joins : MainPc → Nat
  | .join => 0
  | _ => 1

theorem length_le (hruns : (prog n).RunsTo (initProg : Prog T Addr) ts s) :
    ts.length ≤ (stackSteps ts).length + s.main.joins := by
  apply hruns.history (I := fun ts s => ts.length ≤ (stackSteps ts).length + s.main.joins)
  · simp
  · intro ts₁ s₁ a s₂ _ h hnext
    rw [List.length_append, List.length_singleton]
    change progNext n s₁ a = some s₂ at hnext
    cases a with
    | join =>
        simp only [progNext] at hnext
        split at hnext
        next hjoin =>
          cases hnext
          rw [hjoin.1] at h
          rw [stackSteps, Lts.observed_snoc_none stackStep rfl]
          exact Nat.succ_le_succ h
        next => cases hnext
    | stack a =>
        simp only [progNext] at hnext
        split at hnext
        next =>
          obtain ⟨st, _, rfl⟩ := Option.map_eq_some_iff.mp hnext
          have hmain : s₁.main.joins ≤ (s₁.after a st).main.joins := by
            rw [after_eq_observe]
            unfold Prog.observe
            split
            case h_3 => cases s₁.main <;> simp [MainPc.joins]
            all_goals exact Nat.le_refl _
          rw [stackSteps, Lts.observed_snoc_some stackStep rfl, List.length_append,
            List.length_singleton]
          rw [stackSteps] at h
          omega
        next => cases hnext

/-- `main` waits for the pushers alone, and these for nobody. -/
theorem Rel.enabled (h : Rel n ts s l phase) (hmain : s.main ≠ .returned)
    (hmemory : ∃ a, s.stack.heap a = none) : (prog n).Enabled s := by
  have hstack : ∀ a : Act (Option T) Addr, s.permits n a = true → (next s.stack a).isSome →
      (prog n).Enabled s := by
    intro a hpermits hsome
    apply Lts.enabled_of_isSome (.stack a)
    simpa [prog, progNext, hpermits] using hsome
  by_cases hbusy : ∃ t, s.stack.pc t ≠ .idle
  · obtain ⟨t, ht⟩ := hbusy
    obtain ⟨a, rfl, hsome⟩ := next_isSome_of_not_idle ht hmemory
    apply hstack a _ hsome
    cases a with
    | call u op =>
        simp only [next, callNext] at hsome
        split at hsome
        next hidle => exact (ht hidle).elim
        next => cases hsome
    | _ => rfl
  · have hidle : ∀ t, s.stack.pc t = .idle := by simpa using hbusy
    cases hpc : s.main with
    | returned => exact (hmain hpc).elim
    | loop =>
        apply hstack (.call none .pop)
        · simp [Prog.permits, hpc]
        · simp [next, callNext, hidle]
    | join =>
        by_cases hdone : ∀ t, s.i t = n
        · apply Lts.enabled_of_isSome .join
          simp [prog, progNext, hpc, hdone]
        · obtain ⟨t, ht⟩ := not_forall.mp hdone
          have hle : s.i t ≤ n := by
            have hpusher : Pushing n (s.i t) (phase (some t)) := h.accounts.pusher t
            have hphase : phase (some t) = .idle := h.inv.fits_of_pc (hidle (some t))
            rwa [hphase] at hpusher
          apply hstack (.call (some t) (.push (s.i t)))
          · simpa [Prog.permits] using Nat.lt_of_le_of_ne hle ht
          · simp [next, callNext, hidle]

end Model

/-- Two pushers of one value each, which load the same top; `main` pops both. -/
def twoPushers : List (ProgAct Bool Nat) :=
  [.stack (.call (some false) (.push 0)), .stack (.call (some true) (.push 0)),
    .stack (.malloc (some false) 0 ⟨0, none⟩), .stack (.malloc (some true) 1 ⟨0, none⟩),
    .stack (.run (some false) ⟨0, none⟩), .stack (.run (some true) ⟨0, none⟩),
    .stack (.run (some false) ⟨0, none⟩), .stack (.run (some true) ⟨0, none⟩),
    .stack (.run (some false) ⟨0, none⟩), .stack (.run (some true) ⟨0, none⟩),
    .stack (.cas (some false) false), .stack (.cas (some true) false),
    .stack (.run (some true) ⟨0, none⟩), .stack (.run (some true) ⟨0, none⟩),
    .stack (.cas (some true) false), .stack (.run (some false) ⟨0, none⟩),
    .stack (.run (some true) ⟨0, none⟩), .join] ++
  ([.call none .pop, .run none ⟨0, none⟩, .run none ⟨0, none⟩, .cas none false,
    .run none ⟨0, none⟩, .run none ⟨0, none⟩, .run none ⟨0, none⟩,
    .call none .pop, .run none ⟨0, none⟩, .run none ⟨0, none⟩, .cas none false,
    .run none ⟨0, none⟩, .run none ⟨0, none⟩, .run none ⟨0, none⟩,
    .call none .pop, .run none ⟨0, none⟩, .run none ⟨0, none⟩] : List (Act (Option Bool) Nat)).map
      .stack

/-- A run of the program is bounded but for spurious failures, and it does not stop
before `main` has returned unless `malloc` finds no memory. -/
theorem main_ends {T Addr : Type} [DecidableEq T] [DecidableEq Addr] [Fintype T] {n : Nat}
    {s : Prog T Addr} {ts : List (Transition (Prog T Addr) (ProgAct T Addr))}
    (hruns : (prog n).RunsTo initProg ts s) :
    ts.length ≤ (3 * Fintype.card T + 7) * (2 * (Fintype.card T * n) + 1) + 1 +
        3 * (stackSteps ts).countP failsSpuriously ∧
      (s.main = .returned ∨ (∀ a, (s.stack.heap a).isSome) ∨ (prog n).Enabled s) := by
  obtain ⟨l, phase, hrel⟩ := Rel.of_runs hruns
  constructor
  · have hlength := length_le hruns
    have hjoins : s.main.joins ≤ 1 := by cases s.main <;> simp [MainPc.joins]
    have hmade := hrel.balance.made
    have hexchanged := hrel.balance.exchanged
    have hfailed := hrel.balance.failed
    have hcalls := hrel.accounts.calls_le
    rw [Fintype.card_option, Nat.add_sub_cancel] at hfailed
    have hretries : Fintype.card T * (stackSteps ts).countP exchanges ≤
        Fintype.card T * (2 * (Fintype.card T * n) + 1) :=
      Nat.mul_le_mul_left _ (by omega)
    rw [Nat.add_mul, Nat.mul_assoc 3]
    omega
  · by_cases hmain : s.main = .returned
    · exact .inl hmain
    · by_cases hmemory : ∃ a, s.stack.heap a = none
      · exact .inr (.inr (hrel.enabled hmain hmemory))
      · right
        left
        intro a
        rw [Option.isSome_iff_ne_none]
        exact fun hnone => hmemory ⟨a, hnone⟩

theorem main_ends_two_pushers :
    ∃ (ts : List (Transition (Prog Bool Nat) (ProgAct Bool Nat))) (s : Prog Bool Nat),
      (prog 1).RunsTo initProg ts s ∧ ts.length = 35 ∧
      ts.length ≤ (3 * Fintype.card Bool + 7) * (2 * (Fintype.card Bool * 1) + 1) + 1 +
        3 * (stackSteps ts).countP failsSpuriously := by
  have htrace : (prog 1).trace initProg twoPushers = some (_, _) := rfl
  have hruns := Lts.RunsTo.of_trace htrace
  exact ⟨_, _, hruns, rfl, (main_ends hruns).1⟩

end OsLabs.LockFree
