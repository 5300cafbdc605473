import OsLabs.Core.Threads
import OsLabs.LockFree.Steps

/-! # Lock freedom of the compare-and-swap stack

An exchange fails without cause or because another thread exchanged `stack_top`
after the load. Each success therefore makes at most one exchange of each other
thread fail, whatever `malloc` returns and whatever is read after `free`.
-/

namespace OsLabs.LockFree

open Threads

section Model

variable {T Addr : Type} [DecidableEq T] [DecidableEq Addr] {s s' : State T Addr}
  {a : Act T Addr}

/-! ## What is counted -/

def calls (x : Transition (State T Addr) (Act T Addr)) : Bool :=
  match x.action with
  | .call _ _ => true
  | _ => false

def exchanges (x : Transition (State T Addr) (Act T Addr)) : Bool :=
  match x.action with
  | .cas t spurious =>
      match x.before.pc t with
      | .pushCas _ _ old => x.before.casSucceeds old spurious
      | .popCas old _ => x.before.casSucceeds (some old) spurious
      | _ => false
  | _ => false

/-- An exchange that fails although the comparison may have held. -/
def failsSpuriously (x : Transition (State T Addr) (Act T Addr)) : Bool :=
  match x.action with
  | .cas _ spurious => spurious
  | _ => false

/-- An exchange that fails because `stack_top` is not `old`. -/
def failsCompare (x : Transition (State T Addr) (Act T Addr)) : Bool :=
  match x.action with
  | .cas _ spurious => !spurious && !exchanges x
  | _ => false

/-- The thread has loaded another top than the present one. -/
def Pc.stale (top : Option Addr) : Pc Addr → Nat
  | .pushNext _ _ old | .pushCas _ _ old => if top = old then 0 else 1
  | .popNext old | .popCas old _ => if top = some old then 0 else 1
  | _ => 0

def Pc.toExchange : Pc Addr → Nat
  | .pushMalloc _ | .pushVal _ _ | .pushLoad _ _ | .pushNext _ _ _ | .pushCas _ _ _ => 1
  | .popLoad | .popNext _ | .popCas _ _ => 1
  | _ => 0

def Pc.remaining : Pc Addr → Nat
  | .idle => 0
  | .pushMalloc _ => 6
  | .pushVal _ _ => 5
  | .pushLoad _ _ => 4
  | .pushNext _ _ _ => 3
  | .pushCas _ _ _ => 2
  | .pushRet => 1
  | .popLoad => 6
  | .popNext _ => 5
  | .popCas _ _ => 4
  | .popVal _ => 3
  | .popFree _ _ => 2
  | .popRet _ => 1

/-! ## One step -/

theorem Pc.stale_le_one (top : Option Addr) (p : Pc Addr) : p.stale top ≤ 1 := by
  unfold Pc.stale
  split
  case h_5 => omega
  all_goals
    split
    · omega
    · omega

theorem Step.counts (h : Step s a s') :
    ∃ p, s'.pc = Function.update s.pc a.thread p ∧
      p.stale s'.stackTop + (failsCompare ⟨s, a, s'⟩).toNat ≤ (s.pc a.thread).stale s.stackTop ∧
      p.toExchange + (exchanges ⟨s, a, s'⟩).toNat ≤
        (s.pc a.thread).toExchange + (calls ⟨s, a, s'⟩).toNat ∧
      p.remaining + 1 ≤ (s.pc a.thread).remaining + 7 * (calls ⟨s, a, s'⟩).toNat +
        3 * ((failsCompare ⟨s, a, s'⟩).toNat + (failsSpuriously ⟨s, a, s'⟩).toNat) := by
  cases h with
  | @call t op hpc =>
      refine ⟨_, rfl, ?_⟩
      cases op <;> simp [Act.thread, hpc, Pc.entry, Pc.stale, Pc.toExchange, Pc.remaining, calls,
        failsCompare, exchanges, failsSpuriously]
  | malloc hpc | storesVal hpc | pushLoads hpc | pushReturns hpc | readsVal hpc | frees hpc
  | popReturns hpc =>
      refine ⟨_, rfl, ?_⟩
      simp [Act.thread, hpc, Pc.stale, Pc.toExchange, Pc.remaining, calls, failsCompare, exchanges,
        failsSpuriously, State.setPc]
  | storesNext hpc | readsNext hpc =>
      -- `old` stays what it was
      refine ⟨_, rfl, ?_⟩
      rw [Act.thread, hpc]
      exact ⟨Nat.le_refl _, Nat.le_refl _, Nat.le_refl _⟩
  | popLoadsNull hpc htop | popLoads hpc htop =>
      refine ⟨_, rfl, ?_⟩
      simp [Act.thread, hpc, htop, Pc.stale, Pc.toExchange, Pc.remaining, calls, failsCompare,
        exchanges, failsSpuriously, State.setPc]
  | links hpc hcas | unlinks hpc hcas =>
      refine ⟨_, rfl, ?_⟩
      simp [Act.thread, hpc, hcas, Pc.stale, Pc.toExchange, Pc.remaining, calls, failsCompare,
        exchanges, State.setPc]
  | @pushRetries t val n old spurious hpc hcas =>
      refine ⟨_, rfl, ?_⟩
      cases spurious <;>
        simp_all [Act.thread, Pc.stale, Pc.toExchange, Pc.remaining, calls, failsCompare,
          failsSpuriously, exchanges, State.casSucceeds]
  | @popRetries t old next spurious hpc hcas =>
      refine ⟨_, rfl, ?_⟩
      cases spurious <;>
        simp_all [Act.thread, Pc.stale, Pc.toExchange, Pc.remaining, calls, failsCompare,
          failsSpuriously, exchanges, State.casSucceeds]

/-- `stack_top` changes only by an exchange, which leaves its thread with nothing loaded. -/
theorem Step.stackTop (h : Step s a s') :
    s'.stackTop = s.stackTop ∨
      exchanges ⟨s, a, s'⟩ = true ∧ (s'.pc a.thread).stale s'.stackTop = 0 := by
  cases h with
  | links hpc hcas | unlinks hpc hcas =>
      right
      simp [exchanges, hpc, hcas, Act.thread, State.setPc, Pc.stale]
  | _ => exact .inl rfl

/-- No thread waits for another one: inside a call it has a step, as long as
`malloc` finds memory. -/
theorem next_isSome_of_not_idle {t : T} (ht : s.pc t ≠ .idle) (hmemory : ∃ n, s.heap n = none) :
    ∃ a : Act T Addr, a.thread = t ∧ (next s a).isSome := by
  obtain ⟨n, hn⟩ := hmemory
  cases hpc : s.pc t with
  | idle => exact (ht hpc).elim
  | pushMalloc val =>
      refine ⟨.malloc t n ⟨0, none⟩, rfl, ?_⟩
      simp [next, mallocNext, hpc, hn]
  | pushCas val n old =>
      refine ⟨.cas t false, rfl, ?_⟩
      simp only [next, casNext, hpc]
      split <;> rfl
  | popCas old q =>
      refine ⟨.cas t false, rfl, ?_⟩
      simp only [next, casNext, hpc]
      split <;> rfl
  | popLoad =>
      refine ⟨.run t ⟨0, none⟩, rfl, ?_⟩
      simp only [next, runNext, hpc]
      split <;> rfl
  | _ =>
      refine ⟨.run t ⟨0, none⟩, rfl, ?_⟩
      simp [next, runNext, hpc]

/-! ## Runs -/

variable [Fintype T] {ts : List (Transition (State T Addr) (Act T Addr))}

/-- What is still to come, with what has been counted. -/
structure Balance (ts : List (Transition (State T Addr) (Act T Addr))) (s : State T Addr) :
    Prop where
  failed : ts.countP failsCompare + total (Pc.stale s.stackTop) s.pc ≤
    (Fintype.card T - 1) * ts.countP exchanges
  exchanged : ts.countP exchanges + total Pc.toExchange s.pc ≤ ts.countP calls
  made : ts.length + total Pc.remaining s.pc ≤
    7 * ts.countP calls + 3 * (ts.countP failsCompare + ts.countP failsSpuriously)

omit [DecidableEq T] [DecidableEq Addr] [Fintype T] in
theorem countP_snoc (p : Transition (State T Addr) (Act T Addr) → Bool)
    (x : Transition (State T Addr) (Act T Addr)) :
    (ts ++ [x]).countP p = ts.countP p + (p x).toNat := by
  cases h : p x <;> simp [h]

omit [DecidableEq T] in
theorem Balance.init : Balance [] (initState : State T Addr) := by
  constructor <;> simp [total, initState, Pc.stale, Pc.toExchange, Pc.remaining]

theorem Balance.step (h : Balance ts s) (hstep : Step s a s') :
    Balance (ts ++ [⟨s, a, s'⟩]) s' := by
  obtain ⟨p, hpc, hstale, htoExchange, hremaining⟩ := hstep.counts
  have hstales := total_update (Pc.stale s'.stackTop) s.pc a.thread p
  have hexchanges := total_update Pc.toExchange s.pc a.thread p
  have hremains := total_update Pc.remaining s.pc a.thread p
  rw [← hpc] at hstales hexchanges hremains
  constructor
  · rw [countP_snoc, countP_snoc, Nat.mul_add]
    have hfailed := h.failed
    rcases hstep.stackTop with htop | ⟨hexchanged, hself⟩
    · rw [htop] at hstales hstale ⊢
      omega
    · -- each other thread may be stale now
      have hothers : total (Pc.stale s'.stackTop) s'.pc ≤ Fintype.card T - 1 :=
        total_le_pred (fun u => Pc.stale_le_one _ _) hself
      have hsucceeded : failsCompare ⟨s, a, s'⟩ = false := by
        cases a <;> simp [failsCompare, hexchanged]
      rw [hexchanged, hsucceeded]
      simp only [Bool.toNat_true, Bool.toNat_false]
      omega
  · rw [countP_snoc, countP_snoc]
    have hexchanged := h.exchanged
    omega
  · rw [countP_snoc, countP_snoc, countP_snoc, List.length_append, List.length_singleton]
    have hmade := h.made
    omega

end Model

/-- Any threads in `push` and `pop`, with any reuse of addresses: no thread waits
for another one; each call makes one successful exchange at most, each of these
fails one exchange of each other thread at most, and a failure costs three steps. -/
theorem stack_lock_free {T Addr : Type} [DecidableEq T] [DecidableEq Addr] [Fintype T]
    {s : State T Addr} {ts : List (Transition (State T Addr) (Act T Addr))}
    (hruns : system.RunsTo initState ts s) :
    (∀ t, s.pc t ≠ .idle → (∃ n, s.heap n = none) →
        ∃ a : Act T Addr, a.thread = t ∧ (next s a).isSome) ∧
      ts.countP exchanges ≤ ts.countP calls ∧
      ts.countP failsCompare ≤ (Fintype.card T - 1) * ts.countP exchanges ∧
      ts.length ≤ 7 * ts.countP calls + 3 * (ts.countP failsCompare + ts.countP failsSpuriously) := by
  have hbalance : Balance ts s := by
    apply hruns.history (I := Balance) Balance.init
    intro ts₁ s₁ a s₂ _ h hnext
    exact h.step (next_cases hnext)
  refine ⟨fun t ht hmemory => next_isSome_of_not_idle ht hmemory, ?_, ?_, ?_⟩
  · have hexchanged := hbalance.exchanged
    omega
  · have hfailed := hbalance.failed
    omega
  · have hmade := hbalance.made
    omega

/-- Two threads load the same top; the second exchange fails and is made again. -/
def pushesOverlap : List (Act Bool Nat) :=
  [.call false (.push 5), .call true (.push 6), .malloc false 0 ⟨0, none⟩, .malloc true 1 ⟨0, none⟩,
    .run false ⟨0, none⟩, .run true ⟨0, none⟩, .run false ⟨0, none⟩, .run true ⟨0, none⟩,
    .run false ⟨0, none⟩, .run true ⟨0, none⟩, .cas false false, .cas true false,
    .run true ⟨0, none⟩, .run true ⟨0, none⟩, .cas true false, .run false ⟨0, none⟩,
    .run true ⟨0, none⟩]

theorem stack_lock_free_overlap :
    ∃ (ts : List (Transition (State Bool Nat) (Act Bool Nat))) (s : State Bool Nat),
      system.RunsTo initState ts s ∧ ts.map (·.action) = pushesOverlap ∧
      ts.countP calls = 2 ∧ ts.countP failsCompare = 1 ∧ ts.length = 17 ∧
      ts.countP failsCompare ≤ (Fintype.card Bool - 1) * ts.countP exchanges := by
  have htrace : system.trace initState pushesOverlap = some (_, _) := rfl
  have hruns := Lts.RunsTo.of_trace htrace
  exact ⟨_, _, hruns, rfl, rfl, rfl, rfl, (stack_lock_free hruns).2.2.1⟩

end OsLabs.LockFree
