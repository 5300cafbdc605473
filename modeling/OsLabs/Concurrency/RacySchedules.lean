import OsLabs.Concurrency.RacyCounter
import Mathlib.Tactic.Ring

/-! # Schedules of the racy counter

Both bounds are reached: the upper one when the threads run one after the other,
the lower one when a first and a last store each overwrite all that came between
them and their loads.
-/

namespace OsLabs.Concurrency

open Threads

variable {T : Type} [DecidableEq T] {n : Nat} {s : State T} {t : T}

/-! ## Moves of one thread -/

theorem State.setPc_self (s : State T) (t : T) (pc : Pc) : (s.setPc t pc).pc t = pc := by
  simp [State.setPc]

theorem State.setPc_of_ne (s : State T) {t u : T} (h : u ≠ t) (pc : Pc) :
    (s.setPc t pc).pc u = s.pc u := by
  simp [State.setPc, h]

theorem leads_loads {i : Nat} (hpc : s.pc t = .loop i) (hi : i < n) :
    (system n).Leads s (s.setPc t (.store i s.counterRacy)) := by
  have hnext : (system n).next s t = some (s.setPc t (.store i s.counterRacy)) := by
    show next n s t = _
    simp [next, hpc, hi]
  exact .single hnext

theorem leads_stores {i : Nat} {loaded : Int} (hpc : s.pc t = .store i loaded) :
    (system n).Leads s ({ s with counterRacy := loaded + 1 }.setPc t (.loop (i + 1))) := by
  have hnext : (system n).next s t =
      some ({ s with counterRacy := loaded + 1 }.setPc t (.loop (i + 1))) := by
    show next n s t = _
    simp [next, hpc]
  exact .single hnext

theorem leads_returns {i : Nat} (hpc : s.pc t = .loop i) (hi : n ≤ i) :
    (system n).Leads s (s.setPc t (.returned i)) := by
  have hnext : (system n).next s t = some (s.setPc t (.returned i)) := by
    show next n s t = _
    simp [next, hpc, Nat.not_lt.mpr hi]
  exact .single hnext

/-- A thread that runs alone loses nothing. -/
theorem leads_increments {i : Nat} (k : Nat) (hpc : s.pc t = .loop i) (hk : i + k ≤ n) :
    (system n).Leads s ({ s with counterRacy := s.counterRacy + k }.setPc t (.loop (i + k))) := by
  induction k generalizing s i with
  | zero =>
      have hsame : { s with counterRacy := s.counterRacy + (0 : Nat) }.setPc t (.loop (i + 0)) = s := by
        cases s with
        | mk counterRacy pc =>
            simp only [Nat.add_zero, ← hpc]
            simp [State.setPc]
      rw [hsame]
      exact .refl s
  | succ k ih =>
      have hloads := leads_loads (n := n) hpc (by omega)
      have hstores := leads_stores (n := n) (State.setPc_self s t (.store i s.counterRacy))
      have hrest := ih (State.setPc_self
        { s.setPc t (.store i s.counterRacy) with counterRacy := s.counterRacy + 1 } t (.loop (i + 1)))
        (by omega)
      have hlead := (hloads.trans hstores).trans hrest
      simp only [State.setPc, Function.update_idem] at hlead ⊢
      rw [show s.counterRacy + ((k + 1 : Nat) : Int) = s.counterRacy + 1 + k by push_cast; ring,
        show i + (k + 1) = i + 1 + k by omega]
      exact hlead

theorem leads_finish {i : Nat} (hpc : s.pc t = .loop i) (hi : i ≤ n) :
    (system n).Leads s
      ({ s with counterRacy := s.counterRacy + (n - i : Nat) }.setPc t (.returned n)) := by
  have hincrements := leads_increments (n := n) (n - i) hpc (by omega)
  have hreturns := leads_returns (n := n) (State.setPc_self
    { s with counterRacy := s.counterRacy + (n - i : Nat) } t (.loop (i + (n - i)))) (by omega)
  have hlead := hincrements.trans hreturns
  simp only [State.setPc, Function.update_idem] at hlead ⊢
  rw [show i + (n - i) = n by omega] at hlead
  exact hlead

theorem leads_last_store {i : Nat} {loaded : Int} (hpc : s.pc t = .store i loaded) (hi : n ≤ i + 1) :
    (system n).Leads s ({ s with counterRacy := loaded + 1 }.setPc t (.returned (i + 1))) := by
  have hstores := leads_stores (n := n) hpc
  have hreturns := leads_returns (n := n)
    (State.setPc_self { s with counterRacy := loaded + 1 } t (.loop (i + 1))) hi
  have hlead := hstores.trans hreturns
  simp only [State.setPc, Function.update_idem] at hlead ⊢
  exact hlead

/-- The threads of a list run one after the other. -/
theorem leads_finish_all {l : List T} (hnodup : l.Nodup) (hpc : ∀ t ∈ l, s.pc t = .loop 0) :
    ∃ s', (system n).Leads s s' ∧ s'.counterRacy = s.counterRacy + (l.length * n : Nat) ∧
      (∀ t ∈ l, s'.pc t = .returned n) ∧ ∀ t ∉ l, s'.pc t = s.pc t := by
  induction l generalizing s with
  | nil => exact ⟨s, .refl s, by simp, by simp, fun _ _ => rfl⟩
  | cons u l ih =>
      obtain ⟨hu, hrest⟩ := List.nodup_cons.mp hnodup
      have hfinish := leads_finish (n := n) (hpc u List.mem_cons_self) (Nat.zero_le n)
      have hpending : ∀ t ∈ l, ({ s with counterRacy := s.counterRacy + (n - 0 : Nat) }.setPc u
          (.returned n)).pc t = .loop 0 := by
        intro t ht
        have hne : t ≠ u := fun heq => hu (heq ▸ ht)
        rw [State.setPc_of_ne _ hne]
        exact hpc t (List.mem_cons_of_mem u ht)
      obtain ⟨s', hlead, hcounter, hin, hout⟩ := ih hrest hpending
      refine ⟨s', hfinish.trans hlead, ?_, ?_, ?_⟩
      · rw [hcounter]
        simp only [State.setPc, List.length_cons, Nat.sub_zero]
        push_cast
        ring
      · intro t ht
        by_cases htl : t ∈ l
        · exact hin t htl
        · rcases List.mem_cons.mp ht with rfl | hmem
          · rw [hout t htl, State.setPc_self]
          · exact (htl hmem).elim
      · intro t ht
        obtain ⟨htu, htl⟩ := not_or.mp (List.mem_cons.not.mp ht)
        rw [hout t htl, State.setPc_of_ne _ htu]

/-- The other threads run meanwhile. -/
theorem leads_others [Fintype T] {l : List T} (hpc : ∀ t ∉ l, s.pc t = .loop 0) :
    ∃ s', (system n).Leads s s' ∧ (∀ t ∉ l, s'.pc t = .returned n) ∧ ∀ t ∈ l, s'.pc t = s.pc t := by
  have hpending : ∀ t ∈ (Finset.univ.filter (· ∉ l)).toList, s.pc t = .loop 0 := by
    intro t ht
    exact hpc t (by simpa using ht)
  obtain ⟨s', hlead, _, hin, hout⟩ := leads_finish_all (n := n) (Finset.nodup_toList _) hpending
  exact ⟨s', hlead, fun t ht => hin t (by simpa using ht), fun t ht => hout t (by simpa using ht)⟩

/-! ## The two schedules -/

theorem exists_all_kept (T : Type) [Fintype T] [DecidableEq T] (n : Nat) :
    ∃ s : State T, (system n).Reachable s ∧ Joined s ∧ s.counterRacy = (Fintype.card T * n : Nat) := by
  obtain ⟨s, hlead, hcounter, hin, _⟩ := leads_finish_all (n := n) (s := (initState : State T))
    Finset.univ.nodup_toList (fun t _ => rfl)
  refine ⟨s, hlead.reachable rfl, fun t => ⟨n, hin t (by simp)⟩, ?_⟩
  rw [hcounter, Finset.length_toList, Finset.card_univ]
  simp [initState]

variable [Fintype T]

/-- With one increment each, the thread that loads first stores last. -/
theorem exists_one_kept (a : T) :
    ∃ s : State T, (system 1).Reachable s ∧ Joined s ∧ s.counterRacy = 1 := by
  have hloads := leads_loads (n := 1) (s := initState) (t := a) rfl Nat.one_pos
  obtain ⟨s₁, hothers, hin, hout⟩ := leads_others (n := 1) (l := [a])
    (s := initState.setPc a (.store 0 0)) (by
      intro t ht
      rw [State.setPc_of_ne _ (by simpa using ht)]
      rfl)
  have hpc : s₁.pc a = .store 0 0 := by
    rw [hout a List.mem_cons_self, State.setPc_self]
  have hstores := leads_last_store (n := 1) hpc le_rfl
  refine ⟨_, ((hloads.trans hothers).trans hstores).reachable rfl, ?_, rfl⟩
  intro t
  refine ⟨1, ?_⟩
  by_cases ht : t = a
  · simp [State.setPc, ht]
  · simpa [State.setPc, ht] using hin t (by simpa using ht)

/-- Thread `a` stores what it loaded first when all but the last increment of
`b` are made. -/
theorem leads_first_store {a b : T} (hab : a ≠ b) (hn : 2 ≤ n) :
    ∃ s : State T, (system n).Leads initState s ∧ s.counterRacy = 1 ∧ s.pc a = .loop 1 ∧
      s.pc b = .loop (n - 1) ∧ ∀ t ∉ [a, b], s.pc t = .returned n := by
  have hloads := leads_loads (n := n) (s := initState) (t := a) rfl (by omega)
  obtain ⟨s₁, hothers, hin, hout⟩ := leads_others (n := n) (l := [a, b])
    (s := initState.setPc a (.store 0 0)) (by
      intro t ht
      rw [State.setPc_of_ne _ (fun heq => ht (by simp [heq]))]
      rfl)
  have ha : s₁.pc a = .store 0 0 := by
    rw [hout a List.mem_cons_self, State.setPc_self]
  have hb : s₁.pc b = .loop 0 := by
    rw [hout b (by simp), State.setPc_of_ne _ hab.symm]
    rfl
  have hincrements := leads_increments (n := n) (n - 1) hb (by omega)
  have ha' : ({ s₁ with counterRacy := s₁.counterRacy + (n - 1 : Nat) }.setPc b
      (.loop (0 + (n - 1)))).pc a = .store 0 0 := by
    rw [State.setPc_of_ne _ hab]
    exact ha
  have hstores := leads_stores (n := n) ha'
  refine ⟨_, ((hloads.trans hothers).trans hincrements).trans hstores, rfl, ?_, ?_, ?_⟩
  · exact State.setPc_self _ a _
  · simp [State.setPc, hab.symm]
  · intro t ht
    have hne := List.ne_of_not_mem_cons ht
    have hne' := List.ne_of_not_mem_cons (List.not_mem_of_not_mem_cons ht)
    simpa [State.setPc, hne, hne'] using hin t ht

/-- Thread `b` loads that 1 for its last increment and stores last. -/
theorem exists_two_kept {a b : T} (hab : a ≠ b) (hn : 2 ≤ n) :
    ∃ s : State T, (system n).Reachable s ∧ Joined s ∧ s.counterRacy = 2 := by
  obtain ⟨s₁, hfirst, hcounter, ha, hb, hin⟩ := leads_first_store (T := T) hab hn
  have hloads := leads_loads (n := n) hb (by omega)
  have hfinish := leads_finish (n := n)
    (s := s₁.setPc b (.store (n - 1) s₁.counterRacy)) (t := a) (i := 1)
    (by rw [State.setPc_of_ne _ hab, ha]) (by omega)
  have hb' : ({ s₁.setPc b (.store (n - 1) s₁.counterRacy) with
      counterRacy := s₁.counterRacy + (n - 1 : Nat) }.setPc a (.returned n)).pc b =
        .store (n - 1) 1 := by
    simp [State.setPc, hab.symm, hcounter]
  have hstores := leads_last_store (n := n) hb' (by omega)
  refine ⟨_, (((hfirst.trans hloads).trans hfinish).trans hstores).reachable rfl, ?_, rfl⟩
  intro t
  by_cases htb : t = b
  · exact ⟨n - 1 + 1, by simp [State.setPc, htb]⟩
  · by_cases hta : t = a
    · exact ⟨n, by simp [State.setPc, hta, hab]⟩
    · exact ⟨n, by simpa [State.setPc, hta, htb] using hin t (by simp [hta, htb])⟩

/-! ## The bounds -/

theorem exists_least_kept {a b : T} (hab : a ≠ b) (hn : 0 < n) :
    ∃ s : State T, (system n).Reachable s ∧ Joined s ∧ s.counterRacy = (min 2 n : Nat) := by
  by_cases htwo : 2 ≤ n
  · rw [Nat.min_eq_left htwo]
    exact exists_two_kept hab htwo
  · have hone : n = 1 := by omega
    rw [hone]
    exact exists_one_kept a

/-- Every interleaving ends, with at least `min 2 n` updates kept and never more
than all, and with two threads both happen. -/
theorem racy_bounds (T : Type) [Fintype T] [DecidableEq T] (n : Nat) (hthreads : 0 < Fintype.card T)
    (hn : 0 < n) :
    (system n).Inevitable Joined (initState : State T) ∧
      (∀ s : State T, (system n).Reachable s → Joined s →
        (min 2 n : Nat) ≤ s.counterRacy ∧ s.counterRacy ≤ (Fintype.card T * n : Nat) ∧
          0 ≤ lostUpdates n (Fintype.card T) s) ∧
      (2 ≤ Fintype.card T →
        (∃ s : State T, (system n).Reachable s ∧ Joined s ∧ s.counterRacy = (min 2 n : Nat)) ∧
        ∃ s : State T, (system n).Reachable s ∧ Joined s ∧
          s.counterRacy = (Fintype.card T * n : Nat)) := by
  refine ⟨joins_inevitable n, ?_, ?_⟩
  · intro s hreach hjoined
    obtain ⟨hlower, hupper⟩ := (CounterInv.of_reachable hreach).bounds hjoined hthreads
    refine ⟨hlower, hupper, ?_⟩
    rw [Nat.mul_comm] at hupper
    push_cast at hupper
    unfold lostUpdates
    omega
  · intro htwo
    obtain ⟨a, b, hab⟩ := Fintype.one_lt_card_iff.mp htwo
    exact ⟨exists_least_kept hab hn, exists_all_kept T n⟩

theorem racy_bounds_four_threads :
    (∀ s : State (Fin 4), (system 1000000).Reachable s → Joined s →
      2 ≤ s.counterRacy ∧ s.counterRacy ≤ 4000000) ∧
      ∃ s : State (Fin 4), (system 1000000).Reachable s ∧ Joined s ∧ s.counterRacy = 2 := by
  obtain ⟨_, hbounds, hreached⟩ := racy_bounds (Fin 4) 1000000 (by decide) (by decide)
  constructor
  · intro s hreach hjoined
    obtain ⟨hlower, hupper, _⟩ := hbounds s hreach hjoined
    exact ⟨by simpa using hlower, by simpa using hupper⟩
  · obtain ⟨s, hreach, hjoined, hcounter⟩ := (hreached (by decide)).1
    exact ⟨s, hreach, hjoined, by simpa using hcounter⟩

end OsLabs.Concurrency
