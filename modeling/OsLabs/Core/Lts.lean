import Mathlib.Tactic.Common

/-! # Labelled transition systems and their runs

A system is its initial states and a step function on actions. An action names
every choice the system leaves open (which thread moves, which address an
allocator returns), so a step is executable and a run is a list of transitions.
Runs grow at their end: an invariant may speak about the transitions made so far.
-/

namespace OsLabs

structure Lts (σ α : Type) where
  init : σ → Prop
  next : σ → α → Option σ

/-- One executed step, with the states on both sides of it. -/
structure Transition (σ α : Type) where
  before : σ
  action : α
  after : σ

namespace Lts

variable {σ α : Type} (M : Lts σ α)

/-! ## Runs -/

inductive RunsTo : σ → List (Transition σ α) → σ → Prop
  | refl (s : σ) : RunsTo s [] s
  | snoc {s s' s'' : σ} {ts : List (Transition σ α)} {a : α} :
      RunsTo s ts s' → M.next s' a = some s'' → RunsTo s (ts ++ [⟨s', a, s''⟩]) s''

def Reachable (s : σ) : Prop := ∃ s₀ ts, M.init s₀ ∧ M.RunsTo s₀ ts s

/-- Some action is possible. -/
def Enabled (s : σ) : Prop := ∃ a s', M.next s a = some s'

/-- Some run leads from one state to the other. -/
def Leads (s s' : σ) : Prop := ∃ ts, M.RunsTo s ts s'

/-- The state after a list of actions, if each of them is possible. -/
def exec : σ → List α → Option σ
  | s, [] => some s
  | s, a :: as => (M.next s a).bind fun s' => exec s' as

/-- The same with the transitions made. -/
def trace : σ → List α → Option (List (Transition σ α) × σ)
  | s, [] => some ([], s)
  | s, a :: as => (M.next s a).bind fun s' => (trace s' as).map fun r => (⟨s, a, s'⟩ :: r.1, r.2)

variable {M}

theorem RunsTo.single {s s' : σ} {a : α} (h : M.next s a = some s') :
    M.RunsTo s [⟨s, a, s'⟩] s' := by
  simpa using (RunsTo.refl s).snoc h

theorem RunsTo.trans {s s' s'' : σ} {ts ts' : List (Transition σ α)} (h : M.RunsTo s ts s')
    (h' : M.RunsTo s' ts' s'') : M.RunsTo s (ts ++ ts') s'' := by
  induction h' with
  | refl => simpa using h
  | snoc _ hstep ih =>
      rw [← List.append_assoc]
      exact ih.snoc hstep

/-- An executed list of actions is a run. -/
theorem RunsTo.of_trace {s s' : σ} {as : List α} {ts : List (Transition σ α)}
    (h : M.trace s as = some (ts, s')) : M.RunsTo s ts s' := by
  induction as generalizing s ts with
  | nil =>
      cases h
      exact .refl _
  | cons a as ih =>
      obtain ⟨s₁, hstep, hrest⟩ := Option.bind_eq_some_iff.mp h
      obtain ⟨⟨ts₁, s₂⟩, htrace, heq⟩ := Option.map_eq_some_iff.mp hrest
      cases heq
      exact (RunsTo.single hstep).trans (ih htrace)

theorem actions_of_trace {s s' : σ} {as : List α} {ts : List (Transition σ α)}
    (h : M.trace s as = some (ts, s')) : ts.map (·.action) = as := by
  induction as generalizing s ts with
  | nil =>
      cases h
      rfl
  | cons a as ih =>
      obtain ⟨s₁, -, hrest⟩ := Option.bind_eq_some_iff.mp h
      obtain ⟨⟨ts₁, s₂⟩, htrace, heq⟩ := Option.map_eq_some_iff.mp hrest
      cases heq
      rw [List.map_cons, ih htrace]

/-- A run of the actions whose end has been computed. -/
theorem RunsTo.of_trace_any {s : σ} {as : List α} {p : List (Transition σ α) × σ → Bool}
    (h : (M.trace s as).any p = true) :
    ∃ ts s', M.RunsTo s ts s' ∧ ts.map (·.action) = as ∧ p (ts, s') = true := by
  obtain ⟨⟨ts, s'⟩, htrace, hend⟩ := (Option.any_eq_true _ _).mp h
  exact ⟨ts, s', .of_trace htrace, actions_of_trace htrace, hend⟩

theorem Reachable.of_init {s : σ} (h : M.init s) : M.Reachable s := ⟨s, [], h, .refl s⟩

theorem Leads.refl (s : σ) : M.Leads s s := ⟨[], .refl s⟩

theorem Leads.single {s s' : σ} {a : α} (h : M.next s a = some s') : M.Leads s s' :=
  ⟨_, RunsTo.single h⟩

theorem Leads.trans {s s' s'' : σ} (h : M.Leads s s') (h' : M.Leads s' s'') : M.Leads s s'' := by
  obtain ⟨ts, hruns⟩ := h
  obtain ⟨ts', hruns'⟩ := h'
  exact ⟨ts ++ ts', hruns.trans hruns'⟩

theorem Leads.reachable {s s' : σ} (h : M.Leads s s') (hinit : M.init s) : M.Reachable s' := by
  obtain ⟨ts, hruns⟩ := h
  exact ⟨s, ts, hinit, hruns⟩

theorem enabled_of_isSome {s : σ} (a : α) (h : (M.next s a).isSome) : M.Enabled s :=
  ⟨a, _, (Option.some_get h).symm⟩

/-! ## Invariants -/

/-- What a step preserves, a run preserves. -/
theorem RunsTo.invariant {I : σ → Prop} (hI : ∀ s a s', I s → M.next s a = some s' → I s')
    {s s' : σ} {ts : List (Transition σ α)} (h : M.RunsTo s ts s') (h₀ : I s) : I s' := by
  induction h with
  | refl => exact h₀
  | snoc _ hstep ih => exact hI _ _ _ ih hstep

theorem Reachable.invariant {I : σ → Prop} (hinit : ∀ s, M.init s → I s)
    (hI : ∀ s a s', I s → M.next s a = some s' → I s') {s : σ} (h : M.Reachable s) : I s := by
  obtain ⟨s₀, ts, h₀, hruns⟩ := h
  exact hruns.invariant hI (hinit s₀ h₀)

/-- Invariants over the transitions made so far and the state they lead to.
The step case may use that the earlier transitions form a run. -/
theorem RunsTo.history {s : σ} {I : List (Transition σ α) → σ → Prop} (h₀ : I [] s)
    (hI : ∀ ts s₁ a s₂, M.RunsTo s ts s₁ → I ts s₁ → M.next s₁ a = some s₂ →
      I (ts ++ [⟨s₁, a, s₂⟩]) s₂)
    {ts : List (Transition σ α)} {s' : σ} (h : M.RunsTo s ts s') : I ts s' := by
  induction h with
  | refl => exact h₀
  | snoc hruns hstep ih => exact hI _ _ _ _ hruns ih hstep

/-- Invariants of the runs whose transitions all meet a condition. -/
theorem RunsTo.history_of {s : σ} {P : Transition σ α → Prop}
    {I : List (Transition σ α) → σ → Prop} (h₀ : I [] s)
    (hI : ∀ ts s₁ a s₂, I ts s₁ → M.next s₁ a = some s₂ → P ⟨s₁, a, s₂⟩ →
      I (ts ++ [⟨s₁, a, s₂⟩]) s₂)
    {ts : List (Transition σ α)} {s' : σ} (h : M.RunsTo s ts s') (hP : ∀ t ∈ ts, P t) :
    I ts s' := by
  induction h with
  | refl => exact h₀
  | snoc _ hstep ih =>
      rw [List.forall_mem_append, List.forall_mem_singleton] at hP
      exact hI _ _ _ _ (ih hP.1) hstep hP.2

/-! ## Inevitability -/

/-- Every maximal run from the state meets `P`: it cannot stop before, and it
cannot go on for ever without. -/
inductive Inevitable (M : Lts σ α) (P : σ → Prop) : σ → Prop
  | now {s : σ} : P s → Inevitable M P s
  | later {s : σ} : M.Enabled s → (∀ a s', M.next s a = some s' → Inevitable M P s') →
      Inevitable M P s

/-- What is inevitable happens in some run. -/
theorem Inevitable.exists_run {P : σ → Prop} {s : σ} (h : M.Inevitable P s) :
    ∃ ts s', M.RunsTo s ts s' ∧ P s' := by
  induction h with
  | now hp => exact ⟨[], _, .refl _, hp⟩
  | later henabled _ ih =>
      obtain ⟨a, s₁, hstep⟩ := henabled
      obtain ⟨ts, s', hruns, hp⟩ := ih a s₁ hstep
      exact ⟨_, s', (RunsTo.single hstep).trans hruns, hp⟩

/-- Progress under an invariant and a measure every step decreases. -/
theorem Inevitable.of_measure {P I : σ → Prop} (μ : σ → Nat)
    (hprogress : ∀ s, I s → P s ∨ M.Enabled s)
    (hstep : ∀ s a s', I s → M.next s a = some s' → I s' ∧ μ s' < μ s) {s : σ} (h : I s) :
    M.Inevitable P s := by
  induction hn : μ s using Nat.strongRecOn generalizing s with
  | ind n ih =>
      rcases hprogress s h with hp | henabled
      · exact .now hp
      · apply Inevitable.later henabled
        intro a s' hnext
        obtain ⟨hI, hlt⟩ := hstep s a s' h hnext
        exact ih (μ s') (hn ▸ hlt) hI rfl

/-! ## Simulation -/

/-- The abstract actions a run shows through `obs`. -/
def observed {β : Type} (obs : Transition σ α → Option β) (ts : List (Transition σ α)) : List β :=
  ts.filterMap obs

section Observed

variable {β : Type} (obs : Transition σ α → Option β)

@[simp] theorem observed_nil : observed obs ([] : List (Transition σ α)) = [] := rfl

theorem observed_snoc (ts : List (Transition σ α)) (t : Transition σ α) :
    observed obs (ts ++ [t]) = observed obs ts ++ (obs t).toList := by
  cases h : obs t <;> simp [observed, h]

theorem observed_snoc_none {ts : List (Transition σ α)} {t : Transition σ α}
    (h : obs t = none) : observed obs (ts ++ [t]) = observed obs ts := by
  simp [observed_snoc, h]

theorem observed_snoc_some {ts : List (Transition σ α)} {t : Transition σ α} {b : β}
    (h : obs t = some b) : observed obs (ts ++ [t]) = observed obs ts ++ [b] := by
  simp [observed_snoc, h]

end Observed

/-- Each step of `M` either is unobserved and leaves the abstract state as it
is, or is a step of `A` by the observed action. -/
structure Simulates {τ β : Type} (M : Lts σ α) (A : Lts τ β) (obs : Transition σ α → Option β)
    (R : σ → τ → Prop) : Prop where
  init : ∀ s, M.init s → ∃ t, A.init t ∧ R s t
  stutter : ∀ s t a s', R s t → M.next s a = some s' → obs ⟨s, a, s'⟩ = none → R s' t
  step : ∀ s t a s' b, R s t → M.next s a = some s' → obs ⟨s, a, s'⟩ = some b →
    ∃ t', A.next t b = some t' ∧ R s' t'

theorem exec_append (s : σ) (as bs : List α) :
    M.exec s (as ++ bs) = (M.exec s as).bind fun s' => M.exec s' bs := by
  induction as generalizing s with
  | nil => rfl
  | cons a as ih =>
      cases h : M.next s a with
      | none => simp [exec, h]
      | some s₁ => simp [exec, h, ih]

theorem exec_snoc {s s' s'' : σ} {as : List α} {a : α} (h : M.exec s as = some s')
    (hstep : M.next s' a = some s'') : M.exec s (as ++ [a]) = some s'' := by
  simp [exec_append, h, exec, hstep]

/-- A simulated run shows an execution of the abstract system. -/
theorem Simulates.run {τ β : Type} {A : Lts τ β} {obs : Transition σ α → Option β}
    {R : σ → τ → Prop} (h : M.Simulates A obs R) {s s' : σ} {ts : List (Transition σ α)}
    (hruns : M.RunsTo s ts s') {t : τ} (hR : R s t) :
    ∃ t', A.exec t (observed obs ts) = some t' ∧ R s' t' := by
  induction hruns with
  | refl => exact ⟨t, rfl, hR⟩
  | @snoc s₁ s₂ ts a hruns hstep ih =>
      obtain ⟨t₁, hexec, hR₁⟩ := ih
      cases hobs : obs ⟨s₁, a, s₂⟩ with
      | none =>
          exact ⟨t₁, by rw [observed_snoc_none obs hobs, hexec],
            h.stutter _ _ _ _ hR₁ hstep hobs⟩
      | some b =>
          obtain ⟨t₂, hnext, hR₂⟩ := h.step _ _ _ _ _ hR₁ hstep hobs
          exact ⟨t₂, by rw [observed_snoc_some obs hobs]; exact exec_snoc hexec hnext, hR₂⟩

end Lts

end OsLabs
