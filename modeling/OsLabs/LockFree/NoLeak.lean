import OsLabs.LockFree.Simulation

/-! # The nodes of the stack are not lost

What is allocated and not freed is in the chain, or in the hands of a thread that
links or frees it.
-/

namespace OsLabs.LockFree

section Model

variable {T Addr : Type} [DecidableEq T] [DecidableEq Addr] {s s' : State T Addr}
  {l l' : List (Addr × Int)} {phase : T → Phase}

/-- Every allocated node is in the chain or belongs to a thread. -/
def NoLeak (s : State T Addr) (l : List (Addr × Int)) : Prop :=
  ∀ a, (s.heap a).isSome → a ∈ l.map Prod.fst ∨ ∃ t, (s.pc t).owns = some a

omit [DecidableEq Addr] in
theorem NoLeak.update (h : NoLeak s l) {t : T} {p : Pc Addr}
    (hpc : s'.pc = Function.update s.pc t p)
    (hchain : ∀ a ∈ l.map Prod.fst, (s'.heap a).isSome → a ∈ l'.map Prod.fst ∨ p.owns = some a)
    (hself : ∀ a, (s.pc t).owns = some a → (s'.heap a).isSome →
      a ∈ l'.map Prod.fst ∨ p.owns = some a)
    (hheap : ∀ a, (s'.heap a).isSome → (s.heap a).isSome ∨ p.owns = some a) : NoLeak s' l' := by
  have hmine : ∀ a, p.owns = some a → ∃ u, (s'.pc u).owns = some a := by
    intro a ha
    refine ⟨t, ?_⟩
    rw [hpc, Function.update_self]
    exact ha
  intro a ha
  rcases hheap a ha with hold | hnew
  · rcases h a hold with hmem | ⟨u, hu⟩
    · exact (hchain a hmem ha).imp id (hmine a)
    · by_cases hut : u = t
      · subst hut
        exact (hself a hu ha).imp id (hmine a)
      · right
        refine ⟨u, ?_⟩
        rw [hpc, Function.update_of_ne hut]
        exact hu
  · exact .inr (hmine a hnew)

omit [DecidableEq Addr] in
/-- A step that leaves the set of nodes and their owners as they are. -/
theorem NoLeak.keep (h : NoLeak s l) {t : T} {p : Pc Addr}
    (hpc : s'.pc = Function.update s.pc t p) (howns : p.owns = (s.pc t).owns)
    (hheap : ∀ a, (s'.heap a).isSome → (s.heap a).isSome) : NoLeak s' l := by
  apply h.update hpc
  · exact fun a ha _ => .inl ha
  · exact fun a ha _ => .inr (howns.trans ha)
  · exact fun a ha => .inl (hheap a ha)

theorem isSome_of_store {heap : Heap Addr Int} {n : Addr} {f : Node Addr → Node Addr} (a : Addr)
    (h : (store heap n f a).isSome) : (heap a).isSome := by
  unfold store at h
  by_cases ha : a = n
  · subst ha
    simpa using h
  · rwa [Function.update_of_ne ha] at h

theorem NoLeak.step (h : NoLeak s l) (hinv : Inv s l phase) {a : Act T Addr} (hstep : Step s a s') :
    NoLeak s' (relink l ⟨s, a, s'⟩) := by
  cases hstep with
  | @call t op hpc =>
      exact h.keep rfl (by rw [hpc]; cases op <;> rfl) fun _ ha => ha
  | @malloc t val n junk hpc hfree =>
      apply h.update rfl
      · exact fun a ha _ => .inl ha
      · intro a ha
        rw [hpc] at ha
        cases ha
      · intro a ha
        by_cases han : a = n
        · exact .inr (congrArg some han.symm)
        · left
          simpa [State.setPc, Function.update_of_ne han] using ha
  | storesVal hpc | storesNext hpc => exact h.keep rfl (by rw [hpc]; rfl) isSome_of_store
  | pushLoads hpc | pushReturns hpc | popLoadsNull hpc _ | popLoads hpc _ | readsNext hpc
  | readsVal hpc | popReturns hpc => exact h.keep rfl (by rw [hpc]; rfl) fun _ ha => ha
  | @frees t old out junk hpc =>
      apply h.update rfl
      · exact fun a ha _ => .inl ha
      · intro a hown ha
        rw [hpc] at hown
        cases hown
        simp [State.setPc] at ha
      · intro a ha
        by_cases hold : a = old
        · simp [State.setPc, hold] at ha
        · left
          simpa [State.setPc, Function.update_of_ne hold] using ha
  | @links t val n old spurious hpc hcas =>
      have hl : relink l ⟨s, .cas t spurious, { s with stackTop := some n }.setPc t .pushRet⟩ =
          (n, val) :: l := by
        simp [relink, hpc, hcas]
      rw [hl]
      apply h.update rfl
      · exact fun a ha _ => .inl (List.mem_cons_of_mem _ ha)
      · intro a hown _
        rw [hpc] at hown
        cases hown
        exact .inl List.mem_cons_self
      · exact fun a ha => .inl ha
  | @unlinks t old q spurious hpc hcas =>
      rcases hinv.fits_of_pc hpc with ⟨⟨v, hcell⟩, _⟩
      rcases hinv.unlink (t := t) (stackTop_of_casSucceeds hcas) hcell with ⟨l', rfl, _⟩
      have hl : relink ((old, v) :: l')
          ⟨s, .cas t spurious, { s with stackTop := q }.setPc t (.popVal old)⟩ = l' := by
        simp [relink, hpc, hcas]
      rw [hl]
      apply h.update rfl
      · intro a ha _
        rcases List.mem_cons.mp ha with rfl | hmem
        · exact .inr rfl
        · exact .inl hmem
      · intro a hown
        rw [hpc] at hown
        cases hown
      · exact fun a ha => .inl ha
  | @pushRetries t val n old spurious hpc hcas =>
      have hl : relink l ⟨s, .cas t spurious, s.setPc t (.pushLoad val n)⟩ = l := by
        simp [relink, hpc, hcas]
      rw [hl]
      exact h.keep rfl (by rw [hpc]; rfl) fun _ ha => ha
  | @popRetries t old q spurious hpc hcas =>
      have hl : relink l ⟨s, .cas t spurious, s.setPc t .popLoad⟩ = l := by
        simp [relink, hpc, hcas]
      rw [hl]
      exact h.keep rfl (by rw [hpc]; rfl) fun _ ha => ha

end Model

end OsLabs.LockFree
