import OsLabs.LockFree.Simulation

/-! # Runs of the compare-and-swap stack

While no node is freed that a `pop` holds, a run refines the atomic stack. One
thread in `pop` at a time is enough for that; with more, `pop` can read a node
that another one has freed.
-/

namespace OsLabs.LockFree

section Model

variable {T Addr : Type} [DecidableEq T] [DecidableEq Addr] {s s' : State T Addr}
  {ts : List (Transition (State T Addr) (Act T Addr))}

omit [DecidableEq T] in
theorem unpopped_snoc (ts : List (Transition (State T Addr) (Act T Addr)))
    (x : Transition (State T Addr) (Act T Addr)) : unpopped (ts ++ [x]) = relink (unpopped ts) x := by
  simp [unpopped]

/-- What a run has pushed and not popped is the chain, its events are a history
of the atomic stack, and it accesses allocated nodes only. -/
def Refines (ts : List (Transition (State T Addr) (Act T Addr))) (s : State T Addr) : Prop :=
  ∃ phase, Inv s (unpopped ts) phase ∧
    (Atomic.system Lifo.stack []).exec (Atomic.initState []) (Lts.observed event ts) =
      some (abstraction (unpopped ts) phase) ∧
    ∀ x ∈ ts, AccessesAllocated Pc.derefs x

theorem Refines.step (h : Refines ts s) {a : Act T Addr} (hnext : next s a = some s')
    (hfree : FreesUnheld ⟨s, a, s'⟩) : Refines (ts ++ [⟨s, a, s'⟩]) s' := by
  rcases h with ⟨phase, hinv, hexec, haccesses⟩
  rcases hinv.step (next_cases hnext) hfree with ⟨phase', hinv', hshows⟩
  refine ⟨phase', ?_, ?_, ?_⟩
  · rw [unpopped_snoc]
    exact hinv'
  · rw [unpopped_snoc]
    cases hevent : event ⟨s, a, s'⟩ with
    | none =>
        rw [hevent] at hshows
        rw [Lts.observed_snoc_none event hevent, hexec, hshows]
    | some e =>
        rw [hevent] at hshows
        rw [Lts.observed_snoc_some event hevent]
        exact Lts.exec_snoc hexec hshows
  · rw [List.forall_mem_append, List.forall_mem_singleton]
    exact ⟨haccesses, hinv.accesses⟩

theorem refines_of_freesUnheld (hruns : system.RunsTo initState ts s)
    (hfree : ∀ x ∈ ts, FreesUnheld x) : Refines ts s := by
  apply hruns.history_of _ _ hfree
  · exact ⟨fun _ => .idle, Inv.init, rfl, by simp⟩
  · intro ts₁ s₁ a s₂ h hnext hfree₁
    exact h.step hnext hfree₁

/-! ## One thread in `pop` -/

theorem freesUnheld_of_popsAlone (hruns : system.RunsTo initState ts s)
    (halone : ∀ x ∈ ts, PopsAlone x) : ∀ x ∈ ts, FreesUnheld x := by
  have hone : OnePopper s ∧ ∀ x ∈ ts, FreesUnheld x := by
    apply hruns.history_of (I := fun ts s => OnePopper s ∧ ∀ x ∈ ts, FreesUnheld x) _ _ halone
    · constructor
      · intro t u ht
        cases ht
      · simp
    · intro ts₁ s₁ a s₂ h hnext halone₁
      constructor
      · exact h.1.step (next_cases hnext) halone₁
      · rw [List.forall_mem_append, List.forall_mem_singleton]
        exact ⟨h.2, h.1.freesUnheld a s₂⟩
  exact hone.2

/-- One thread in `pop` at a time and any number in `push`: the calls, the
successful exchanges with the null loads, and the returns are a history of the
atomic stack, which then holds the values of the chain; so the values pushed
are those popped together with those, every call returns the result of its own
effect, and no node is accessed that is not allocated. -/
theorem stack_refines_lifo (hruns : system.RunsTo initState ts s)
    (halone : ∀ x ∈ ts, PopsAlone x) :
    ∃ l phase, Chain s.heap s.stackTop l ∧
      (Atomic.system Lifo.stack []).exec (Atomic.initState []) (Lts.observed event ts) =
        some ⟨l.map Prod.snd, phase⟩ ∧
      (Lifo.pushes (Lts.observed event ts)).Perm
        (Lifo.pops (Lts.observed event ts) ++ l.map Prod.snd) ∧
      (∀ t, Atomic.resultsOf t (Lts.observed event ts) =
        Atomic.returnsOf t (Lts.observed event ts) ++ (phase t).result) ∧
      ∀ x ∈ ts, AccessesAllocated Pc.derefs x := by
  rcases refines_of_freesUnheld hruns (freesUnheld_of_popsAlone hruns halone) with
    ⟨phase, hinv, hexec, haccesses⟩
  refine ⟨unpopped ts, phase, hinv.chain, hexec, ?_, ?_, haccesses⟩
  · have hperm := Lifo.exec_perm hexec
    simpa [Atomic.initState, abstraction] using hperm
  · intro t
    have hreturns := Atomic.exec_returns hexec t
    simpa [Atomic.initState, abstraction, Atomic.Phase.result] using hreturns

/-- While no node is freed that a `pop` holds, `stack_top` heads the chain of
the nodes pushed and not popped, and `pop` reads allocated nodes only. -/
theorem chain_of_unpopped (hruns : system.RunsTo initState ts s)
    (hfree : ∀ x ∈ ts, FreesUnheld x) :
    Chain s.heap s.stackTop (unpopped ts) ∧ ∀ x ∈ ts, AccessesAllocated Pc.popReads x := by
  rcases refines_of_freesUnheld hruns hfree with ⟨phase, hinv, _, haccesses⟩
  refine ⟨hinv.chain, ?_⟩
  intro x hx a hread
  apply haccesses x hx a
  cases haction : x.action with
  | run t junk => cases hpc : x.before.pc t <;> simp_all [touched, Pc.popReads, Pc.derefs]
  | _ => simp [touched, haction] at hread

end Model

def blank : Node Nat := ⟨0, none⟩

/-- An undisturbed `push`. -/
def pushActs (t : Bool) (val : Int) (n : Nat) : List (Act Bool Nat) :=
  [.call t (.push val), .malloc t n blank, .run t blank, .run t blank, .run t blank, .cas t false,
    .run t blank]

/-- An undisturbed `pop` of a node. -/
def popActs (t : Bool) : List (Act Bool Nat) :=
  [.call t .pop, .run t blank, .run t blank, .cas t false, .run t blank, .run t blank,
    .run t blank]

/-- A value pushed, popped and returned, and its address used again. -/
def pushPopPush : List (Act Bool Nat) :=
  pushActs false 5 0 ++ popActs true ++ pushActs false 6 0

theorem stack_refines_lifo_push_pop_push :
    ∃ ts s l, system.RunsTo initState ts s ∧ ts.map (·.action) = pushPopPush ∧
      Chain s.heap s.stackTop l ∧
      (Lifo.pushes (Lts.observed event ts)).Perm
        (Lifo.pops (Lts.observed event ts) ++ l.map Prod.snd) ∧
      ∀ x ∈ ts, AccessesAllocated Pc.derefs x := by
  have htrace : system.trace initState pushPopPush = some (_, _) := rfl
  have hruns := Lts.RunsTo.of_trace htrace
  rcases stack_refines_lifo hruns (by decide) with ⟨l, _, hchain, _, hperm, _, haccesses⟩
  exact ⟨_, _, l, hruns, rfl, hchain, hperm, haccesses⟩

/-- Two threads in `pop` with the same `old`: the second exchange fails, and the
node is freed after it. -/
def popsShareOld : List (Act Bool Nat) :=
  pushActs false 5 0 ++ [.call false .pop, .run false blank, .call true .pop, .run true blank,
    .run false blank, .run true blank, .cas false false, .cas true false, .run false blank,
    .run false blank, .run true blank]

theorem chain_of_unpopped_share_old :
    ∃ ts s, system.RunsTo initState ts s ∧ ts.map (·.action) = popsShareOld ∧
      Chain s.heap s.stackTop (unpopped ts) ∧ ∀ x ∈ ts, AccessesAllocated Pc.popReads x := by
  have htrace : system.trace initState popsShareOld = some (_, _) := rfl
  have hruns := Lts.RunsTo.of_trace htrace
  exact ⟨_, _, hruns, rfl, chain_of_unpopped hruns (by decide)⟩

/-- A thread loads `stack_top`, another one pops and frees that node, and the
first reads `old->next`. -/
def popsOverlap : List (Act Bool Nat) :=
  pushActs false 5 0 ++ [.call true .pop, .run true blank] ++ popActs false ++ [.run true blank]

theorem pop_reads_freed_node :
    ¬ ∀ (ts : List (Transition (State Bool Nat) (Act Bool Nat))) (s : State Bool Nat),
      system.RunsTo initState ts s →
        Chain s.heap s.stackTop (unpopped ts) ∧ ∀ x ∈ ts, AccessesAllocated Pc.popReads x := by
  intro h
  have htrace : system.trace initState popsOverlap = some (_, _) := rfl
  have hruns := Lts.RunsTo.of_trace htrace
  have haccesses := (h _ _ hruns).2
  have hread := haccesses _ (List.getLast_mem (by simp)) 0 rfl
  cases hread

end OsLabs.LockFree
