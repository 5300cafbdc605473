import OsLabs.Mpmc.Runs

/-! # Producers and consumers that do not balance

Loops of any lengths. Every run stops, and how it stops does not depend on the
schedule: the side with too few partners is left behind in `sem_wait`, with a full
buffer or with an empty one.
-/

namespace OsLabs.Mpmc

open Threads CInt

section Model

variable {P C : Type} [Fintype P] [Fintype C] {iters : P ⊕ C → Nat} {bufSize : Nat} {s : State P C}

def toProduce (iters : P ⊕ C → Nat) : Nat := ∑ p, iters (.inl p)

def toConsume (iters : P ⊕ C → Nat) : Nat := ∑ c, iters (.inr c)

/-- How a run stops: with as many values stored and loaded as both sides allow. The
threads left over block in `sem_wait`, and nobody holds the mutex. -/
structure Ended (iters : P ⊕ C → Nat) (bufSize : Nat) (s : State P C) : Prop where
  stuck : Stuck s
  owner : s.owner = none
  written : s.written = min (toProduce iters) (toConsume iters + bufSize)
  read : s.read = min (toProduce iters) (toConsume iters)
  produced : s.totalProduced = wrap 32 s.written
  consumed : s.totalConsumed = wrap 32 s.read
  full : s.fullSlots + s.read = s.written
  empty : s.emptySlots + s.fullSlots = bufSize
  producers : (∀ p, ∃ i, s.prod p = .returned i) ↔ toProduce iters ≤ toConsume iters + bufSize
  consumers : (∀ c, ∃ i, s.cons c = .returned i) ↔ toConsume iters ≤ toProduce iters

namespace Stuck

omit [Fintype C] in
/-- Between two iterations every operation of a producer has been made as often. -/
theorem total_prod (h : Stuck s) {f g : ProdPc → Nat} (hreturned : ∀ i, f (.returned i) = g (.returned i))
    (hwaits : ∀ i, f (.semWait i) = g (.semWait i)) : total f s.prod = total g s.prod := by
  apply total_congr
  intro p
  rcases h.prod p with ⟨i, hpc⟩ | ⟨i, hpc, _⟩
  · rw [hpc, hreturned]
  · rw [hpc, hwaits]

omit [Fintype P] in
theorem total_cons (h : Stuck s) {f g : ConsPc → Nat} (hreturned : ∀ i, f (.returned i) = g (.returned i))
    (hwaits : ∀ i, f (.semWait i) = g (.semWait i)) : total f s.cons = total g s.cons := by
  apply total_congr
  intro c
  rcases h.cons c with ⟨i, hpc⟩ | ⟨i, hpc, _⟩
  · rw [hpc, hreturned]
  · rw [hpc, hwaits]

omit [Fintype C] in
theorem prod_cases (h : Stuck s) (hcounters : Counters iters s) :
    ((∀ p, ∃ i, s.prod p = .returned i) ∧ s.written = toProduce iters) ∨
      (¬ (∀ p, ∃ i, s.prod p = .returned i) ∧ s.written < toProduce iters ∧ s.emptySlots = 0) := by
  by_cases hall : ∀ p, ∃ i, s.prod p = .returned i
  · refine .inl ⟨hall, Finset.sum_congr rfl fun p _ => ?_⟩
    obtain ⟨i, hpc⟩ := hall p
    have hcount := hcounters.prod p
    rw [hpc] at hcount ⊢
    exact hcount
  · obtain ⟨p, hp⟩ := not_forall.mp hall
    rcases h.prod p with hreturned | ⟨i, hpc, hzero⟩
    · exact (hp hreturned).elim
    · refine .inr ⟨hall, ?_, hzero⟩
      have hposts : s.written = total ProdPc.posts s.prod :=
        h.total_prod (fun _ => rfl) (fun _ => rfl)
      rw [hposts]
      apply Finset.sum_lt_sum (fun q _ => (hcounters.prod q).posts_le)
      have hcount := hcounters.prod p
      rw [hpc] at hcount
      exact ⟨p, Finset.mem_univ p, by rw [hpc]; exact hcount⟩

omit [Fintype P] in
theorem cons_cases (h : Stuck s) (hcounters : Counters iters s) :
    ((∀ c, ∃ i, s.cons c = .returned i) ∧ s.read = toConsume iters) ∨
      (¬ (∀ c, ∃ i, s.cons c = .returned i) ∧ s.read < toConsume iters ∧ s.fullSlots = 0) := by
  by_cases hall : ∀ c, ∃ i, s.cons c = .returned i
  · refine .inl ⟨hall, Finset.sum_congr rfl fun c _ => ?_⟩
    obtain ⟨i, hpc⟩ := hall c
    have hcount := hcounters.cons c
    rw [hpc] at hcount ⊢
    exact hcount
  · obtain ⟨c, hc⟩ := not_forall.mp hall
    rcases h.cons c with hreturned | ⟨i, hpc, hzero⟩
    · exact (hc hreturned).elim
    · refine .inr ⟨hall, ?_, hzero⟩
      have hposts : s.read = total ConsPc.posts s.cons :=
        h.total_cons (fun _ => rfl) (fun _ => rfl)
      rw [hposts]
      apply Finset.sum_lt_sum (fun d _ => (hcounters.cons d).posts_le)
      have hcount := hcounters.cons c
      rw [hpc] at hcount
      exact ⟨c, Finset.mem_univ c, by rw [hpc]; exact hcount⟩

theorem ended (h : Stuck s) (howner : s.owner = none) (hpos : 0 < bufSize)
    (haccounts : Accounts bufSize s) (hcounters : Counters iters s) : Ended iters bufSize s := by
  have hempty := haccounts.empty
  have hfull := haccounts.full
  rw [h.total_prod (f := ProdPc.waits) (g := ProdPc.stores) (fun _ => rfl) (fun _ => rfl),
    h.total_cons (f := ConsPc.posts) (g := ConsPc.loads) (fun _ => rfl) (fun _ => rfl)] at hempty
  rw [h.total_prod (f := ProdPc.posts) (g := ProdPc.stores) (fun _ => rfl) (fun _ => rfl),
    h.total_cons (f := ConsPc.waits) (g := ConsPc.loads) (fun _ => rfl) (fun _ => rfl)] at hfull
  have hproduced := haccounts.produced
  have hconsumed := haccounts.consumed
  rw [h.total_prod (f := ProdPc.adds) (g := ProdPc.stores) (fun _ => rfl) (fun _ => rfl)] at hproduced
  rw [h.total_cons (f := ConsPc.adds) (g := ConsPc.loads) (fun _ => rfl) (fun _ => rfl)] at hconsumed
  have hwritten : total ProdPc.stores s.prod = s.written := rfl
  have hread : total ConsPc.loads s.cons = s.read := rfl
  rw [hwritten, hread] at hempty hfull
  -- a producer and a consumer cannot both be left: one finds no room, the other no item
  rcases h.prod_cases hcounters with ⟨hprod, hall⟩ | ⟨hprod, hless, hzero⟩
  · rcases h.cons_cases hcounters with ⟨hcons, hall'⟩ | ⟨hcons, hless', hzero'⟩
    · exact ⟨h, howner, by omega, by omega, hproduced, hconsumed, by omega, by omega,
        ⟨fun _ => by omega, fun _ => hprod⟩, ⟨fun _ => by omega, fun _ => hcons⟩⟩
    · exact ⟨h, howner, by omega, by omega, hproduced, hconsumed, by omega, by omega,
        ⟨fun _ => by omega, fun _ => hprod⟩, ⟨fun hreturned => (hcons hreturned).elim, fun _ => by omega⟩⟩
  · rcases h.cons_cases hcounters with ⟨hcons, hall'⟩ | ⟨hcons, hless', hzero'⟩
    · exact ⟨h, howner, by omega, by omega, hproduced, hconsumed, by omega, by omega,
        ⟨fun hreturned => (hprod hreturned).elim, fun _ => by omega⟩, ⟨fun _ => by omega, fun _ => hcons⟩⟩
    · omega

end Stuck

end Model

/-- From every reachable state every run stops, and in the same way: the producers
return if and only if the consumers make room for all they store, the consumers if
and only if there are values for all they load; whoever is left over blocks in
`sem_wait`. -/
theorem ends_alike {P C : Type} [Fintype P] [Fintype C] [DecidableEq P] [DecidableEq C]
    {iters : P ⊕ C → Nat} {bufSize : Nat} (hpos : 0 < bufSize) {s : State P C}
    (h : (system iters bufSize).Reachable s) :
    (system iters bufSize).Inevitable
      (fun s => ¬ (system iters bufSize).Enabled s ∧ Ended iters bufSize s) s := by
  apply Lts.Inevitable.of_measure (I := RunInv iters bufSize) (stepsLeft iters)
  · intro s hinv
    by_cases henabled : (system iters bufSize).Enabled s
    · exact .inr henabled
    · left
      have hstuck : ∀ a, next iters bufSize s a = none := by
        intro a
        cases hnext : next iters bufSize s a with
        | none => rfl
        | some s' => exact (henabled ⟨a, s', hnext⟩).elim
      exact ⟨henabled, (Stuck.of_next hinv.mutex hstuck).ended (hinv.mutex.free_of_stuck hstuck) hpos
        hinv.accounts hinv.counters⟩
  · intro s a s' hinv hnext
    exact hinv.step hnext
  · exact RunInv.of_reachable h

/-- Three producers and one consumer of the lab: 15 values are stored, and one
producer at least is left behind, waiting for room. -/
theorem ends_alike_three_producers :
    ∃ s : State (Fin 3) (Fin 1), (system (fun _ => 10) 5).Reachable s ∧ s.written = 15 ∧
      s.read = 10 ∧ s.owner = none ∧ ∃ p i, s.prod p = .semWait i := by
  have hreach : (system (fun _ => 10) 5).Reachable (initState 5 : State (Fin 3) (Fin 1)) :=
    .of_init rfl
  obtain ⟨ts, s, hruns, _, hended⟩ := (ends_alike (by decide) hreach).exists_run
  have hleft : ¬ ∀ p, ∃ i, s.prod p = .returned i := by
    rw [hended.producers]
    decide
  refine ⟨s, ⟨_, ts, rfl, hruns⟩, ?_, ?_, hended.owner, ?_⟩
  · rw [hended.written]
    rfl
  · rw [hended.read]
    rfl
  · obtain ⟨p, hp⟩ := not_forall.mp hleft
    rcases hended.stuck.prod p with hreturned | ⟨i, hwait, -⟩
    · exact absurd hreturned hp
    · exact ⟨p, i, hwait⟩

end OsLabs.Mpmc
