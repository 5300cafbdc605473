import OsLabs.PageCache.OpenPipes

/-! # Runs that need too many descriptors

The argument check accepts counts for which there are no descriptors: `main` then returns
1, or it returns 0 without some of its children.
-/

namespace OsLabs.PageCacheModels.Descriptors

open Threads

variable {procs workers rounds limit base : Nat} {s s' : ForkState procs workers rounds}

/-! ## The end of a run -/

def ForkPc.rest : ForkPc procs → Nat
  | .pipe p => 3 * (procs - p) + 3 * procs + 5
  | .fork p => 3 * (procs - p) + 3 * procs + 4
  | .closeWrite p => 3 * (procs - p) + 3 * procs + 3
  | .scan p => 2 * (procs - p) + procs + 3
  | .fclose p => 2 * (procs - p) + procs + 2
  | .wait j => (procs - j) + 1
  | .pipeFailed _ | .returned => 0

/-- An upper bound of the steps all processes still make. -/
def ForkState.rest (s : ForkState procs workers rounds) : Nat :=
  (rounds - 1 - s.round) * (6 * procs + 5) + s.pc.rest + total ForkedChild.rest s.child

theorem ForkStep.rest_lt (h : ForkInv limit base s) (hstep : ForkStep limit base s s') :
    s'.rest < s.rest := by
  cases hstep with
  | pipe hpc hp hroom =>
      simp only [ForkState.rest, hpc, ForkPc.rest]
      omega
  | pipeFailed hpc hp hfull =>
      simp only [ForkState.rest, hpc, ForkPc.rest]
      omega
  | forkedAll hpc hp =>
      simp only [ForkState.rest, hpc, ForkPc.rest]
      omega
  | @fork p hpc =>
      have hunborn : (s.child (s.round, p)).pc = .unborn := by
        rw [h.unborn, ForkState.Future, hpc]
        exact .inr ⟨rfl, Nat.le_refl _⟩
      have hlt : total ForkedChild.rest (s.setChild (s.round, p) ⟨.closeRead, s.ends, false⟩).child <
          total ForkedChild.rest s.child :=
        total_update_lt (by simp [ForkedChild.rest, ChildPc.rest, hunborn])
      simp only [ForkState.rest, hpc, ForkPc.rest, ForkState.setChild] at hlt ⊢
      omega
  | @closeWrite p hpc =>
      have hp := p.isLt
      simp only [ForkState.rest, hpc, ForkPc.rest]
      omega
  | scan hpc hp =>
      simp only [ForkState.rest, hpc, ForkPc.rest]
      omega
  | scannedAll hpc hp =>
      simp only [ForkState.rest, hpc, ForkPc.rest]
      omega
  | @fclose p hpc =>
      have hp := p.isLt
      simp only [ForkState.rest, hpc, ForkPc.rest]
      omega
  | noChild hpc hj hnone =>
      simp only [ForkState.rest, hpc, ForkPc.rest]
      omega
  | summary hpc hj =>
      unfold ForkState.summary
      split
      next hnext =>
        have hround : rounds - 1 - s.round.val = rounds - 1 - (s.round.val + 1) + 1 := by omega
        simp only [ForkState.rest, hpc, ForkPc.rest, hround, Nat.succ_mul]
        omega
      next =>
        simp only [ForkState.rest, hpc, ForkPc.rest]
        omega

theorem ForkInv.rest_lt (h : ForkInv limit base s) {a : ForkAct procs workers rounds}
    (hnext : processesNext limit base s a = some s') : s'.rest < s.rest := by
  cases a with
  | main => exact (fork_cases hnext).rest_lt h
  | reap q =>
      obtain ⟨j, status, hpc, hj, hzombie, rfl⟩ := reap_cases hnext
      have hlt : total ForkedChild.rest (s.setChild q ((s.child q).reap status)).child <
          total ForkedChild.rest s.child :=
        total_update_lt (by simp [ForkedChild.rest, ForkedChild.reap, ChildPc.rest, hzombie])
      simp only [ForkState.rest, hpc, ForkPc.rest, ForkState.setChild] at hlt ⊢
      omega
  | child q a =>
      obtain ⟨ch, hch, rfl⟩ := Option.map_eq_some_iff.mp hnext
      have hlt : total ForkedChild.rest (s.setChild q ch).child < total ForkedChild.rest s.child :=
        total_update_lt ((ForkedChild.step_of_next hch).rest_lt (h.child q))
      exact Nat.add_lt_add_left hlt _

theorem enabled_child {hrounds : 0 < rounds} {q : Fin rounds × Fin procs} {a : TeamAct workers}
    (h : ((s.child q).next limit base (pipeId q) a).isSome) :
    (processesSystem limit base hrounds).Enabled s := by
  apply Lts.enabled_of_isSome (.child q a)
  simpa [processesSystem, processesNext] using h

theorem ForkInv.enabled (h : ForkInv limit base s) (hrounds : 0 < rounds)
    (hfailed : ∀ p, s.pc ≠ .pipeFailed p) (hreturned : s.pc ≠ .returned) :
    (processesSystem limit base hrounds).Enabled s := by
  have hmain (hsome : (forkNext limit base s).isSome) : (processesSystem limit base hrounds).Enabled s :=
    Lts.enabled_of_isSome .main hsome
  cases hpc : s.pc with
  | pipe p =>
      apply hmain
      simp only [forkNext, hpc]
      split
      · split <;> rfl
      · rfl
  | pipeFailed p => exact absurd hpc (hfailed p)
  | fork p => exact hmain (by simp [forkNext, hpc])
  | closeWrite p => exact hmain (by simp [forkNext, hpc])
  | scan p =>
      by_cases hp : p < procs
      · by_cases hread : (s.child (s.round, ⟨p, hp⟩)).wrote ∨ s.NoWriter (s.round, p)
        · exact hmain (by simp only [forkNext, hpc, dif_pos hp, if_pos hread, Option.isSome_some])
        · -- the writer is the child of the pipe, which is not at its end yet
          have hparent : (s.round.val, p) ∉ s.ends.wr := by simp [h.ends, hpc, ForkPc.ends]
          have hwriter : ∃ q, (s.round.val, p) ∈ (s.child q).ends.wr := by
            by_contra hnone
            exact hread (.inr ⟨hparent, fun q hmem => hnone ⟨q, hmem⟩⟩)
          obtain ⟨q, hmem⟩ := hwriter
          obtain ⟨-, halive, hzombie⟩ := (h.child q).mem_wr hmem
          rcases (h.child q).enabled halive with ⟨status, hstatus⟩ | ⟨a, ha⟩
          · exact absurd hstatus (hzombie status)
          · exact enabled_child ha
      · exact hmain (by simp [forkNext, hpc, hp])
  | fclose p => exact hmain (by simp [forkNext, hpc])
  | wait j =>
      by_cases hj : j < procs
      · have halive := h.alive
        rw [hpc] at halive
        simp only [ForkPc.unwaited] at halive
        have hpos : 0 < total ForkedChild.alive s.child := by omega
        obtain ⟨q, hq⟩ := exists_of_total_pos hpos
        have hone : (s.child q).alive = 1 := by
          have hle : (s.child q).alive ≤ 1 := by
            unfold ForkedChild.alive
            split <;> simp
          omega
        rcases (h.child q).enabled hone with ⟨status, hstatus⟩ | ⟨a, ha⟩
        · apply Lts.enabled_of_isSome (.reap q)
          simp [processesSystem, processesNext, reapNext, hpc, hstatus, hj]
        · exact enabled_child ha
      · exact hmain (by simp [forkNext, hpc, hj])
  | returned => exact absurd hpc hreturned

/-- All rounds are summarised, all pipes closed and all children waited for. -/
def ForkState.Complete (s : ForkState procs workers rounds) : Prop :=
  s.pc = .returned ∧ s.summaries = rounds ∧ s.ends = .none ∧
    ∀ q, ∃ status, (s.child q).pc = .reaped status

/-- `main` has returned 1 in the first round and left `p` children behind. -/
def ForkState.Failed (p : Nat) (s : ForkState procs workers rounds) : Prop :=
  s.pc = .pipeFailed p ∧ s.summaries = 0 ∧ total ForkedChild.alive s.child = p

theorem ForkInv.complete (h : ForkInv limit base s) (hprocs : 0 < procs) (hpc : s.pc = .returned) :
    base + procs + 1 ≤ limit ∧ s.Complete := by
  obtain ⟨hround, hsummaries⟩ := h.returned hpc
  have hroom := h.room
  have hends := h.ends
  have halive := h.alive
  rw [hpc] at hroom hends halive
  refine ⟨hroom hprocs, hpc, hsummaries, hends, ?_⟩
  intro q
  have hunborn : (s.child q).pc ≠ .unborn := by
    intro heq
    have hq := q.1.isLt
    have hq' := q.2.isLt
    have hfuture := (h.unborn q).mp heq
    simp only [ForkState.Future, hpc, ForkPc.forked, Fin.lt_def, Fin.ext_iff] at hfuture
    omega
  have hzero : (s.child q).alive = 0 := by
    have hle := le_total ForkedChild.alive s.child q
    rw [halive] at hle
    exact Nat.le_zero.mp hle
  cases hchild : (s.child q).pc with
  | unborn => exact absurd hchild hunborn
  | reaped status => exact ⟨status, rfl⟩
  | _ => simp [ForkedChild.alive, hchild] at hzero

theorem ForkInv.failed (h : ForkInv limit base s) {p : Nat} (hpc : s.pc = .pipeFailed p) :
    limit < base + procs + 1 ∧ s.Failed (limit - base - 1) := by
  have hbound := h.bound
  have hroom := h.room
  have halive := h.alive
  have hsummaries := h.summaries (by simp [hpc])
  have hlater := h.later
  rw [hpc] at hbound hroom halive
  simp only [ForkPc.Bound, ForkPc.opened, ForkPc.unwaited] at hbound hroom halive
  have hp : p = limit - base - 1 := by omega
  subst hp
  exact ⟨by omega, hpc, by omega, halive⟩

/-- In every order of steps the program comes to its end: with all its summaries, no pipe
open and no child left behind if there is room for the pipes of a round, and else by a
failed `pipe` in the first. -/
theorem processes_descriptors (hprocs : 0 < procs) (hrounds : 0 < rounds) (limit base : Nat) :
    (processesSystem limit base hrounds).Inevitable
      (fun s : ForkState procs workers rounds =>
        if base + procs + 1 ≤ limit then s.Complete else s.Failed (limit - base - 1))
      (processesInit hrounds) := by
  refine Lts.Inevitable.of_measure ForkState.rest (I := ForkInv limit base) ?_ ?_ (.init hrounds)
  · intro s h
    by_cases hreturned : s.pc = .returned
    · obtain ⟨hle, hcomplete⟩ := h.complete hprocs hreturned
      rw [if_pos hle]
      exact .inl hcomplete
    · by_cases hfailed : ∃ p, s.pc = .pipeFailed p
      · obtain ⟨p, hpc⟩ := hfailed
        obtain ⟨hlt, hfails⟩ := h.failed hpc
        rw [if_neg (Nat.not_le.mpr hlt)]
        exact .inl hfails
      · exact .inr (h.enabled hrounds (fun p hpc => hfailed ⟨p, hpc⟩) hreturned)
  · intro s a s' h hnext
    exact ⟨h.step hprocs hnext, h.rest_lt hnext⟩

/-- The largest count that is accepted, and the usual limit: 1020 children are forked, and
`main` returns 1. -/
theorem processes_descriptors_1024 :
    (processesSystem 1024 3 (by decide : 0 < 2)).Inevitable
      (fun s : ForkState 1024 1 2 =>
        if 3 + 1024 + 1 ≤ 1024 then s.Complete else s.Failed (1024 - 3 - 1))
      (processesInit (by decide)) :=
  processes_descriptors (by decide) (by decide) 1024 3

/-! ## Children without descriptors -/

theorem ForkInv.child_status (h : ForkInv limit base s) {q : Fin rounds × Fin procs}
    {ch : ForkedChild workers} (hroom : base + procs + workers ≤ limit) (hstep : (s.child q).Step limit base (pipeId q) ch) :
    ch.pc ≠ .zombie 1 := by
  cases hstep with
  | full hpc ht hfull =>
      have hcount := (h.child q).count_team hpc
      have hlt := Team.files_lt ht
      have hq := q.2.isLt
      rw [hcount] at hfull
      simp only [pipeId] at hfull
      omega
  | _ => simp [ForkedChild.exits]

/-- As many children as there are may be forked before any of them moves on. -/
theorem leads_forked (hrounds : 0 < rounds) (hprocs : 0 < procs) (hroom : base + procs + 1 ≤ limit) {p : Nat}
    (hp : p ≤ procs) :
    ∃ s : ForkState procs workers rounds,
      (processesSystem limit base hrounds).Leads (processesInit hrounds) s ∧ s.round = ⟨0, hrounds⟩ ∧
        s.pc = .pipe p ∧ ∀ c : Fin procs, c < p → (s.child (⟨0, hrounds⟩, c)).pc = .closeRead := by
  induction p with
  | zero => exact ⟨processesInit hrounds, .refl _, rfl, rfl, fun c hc => absurd hc (Nat.not_lt_zero c)⟩
  | succ p ih =>
      obtain ⟨s, hleads, hround, hpc, hchild⟩ := ih (Nat.le_of_succ_le hp)
      have hcount := (ForkInv.of_reachable hprocs (hleads.reachable rfl)).count_pipe hpc
      -- `pipe`, `fork` and `close` of the parent
      let s₁ : ForkState procs workers rounds :=
        { s with
          pc := .fork ⟨p, hp⟩
          ends := ⟨insert (s.round.val, p) s.ends.rd, insert (s.round.val, p) s.ends.wr⟩ }
      let s₂ : ForkState procs workers rounds :=
        { s₁.setChild (s.round, ⟨p, hp⟩) ⟨.closeRead, s₁.ends, false⟩ with pc := .closeWrite ⟨p, hp⟩ }
      let s₃ : ForkState procs workers rounds :=
        { s₂ with
          pc := .pipe (p + 1)
          ends := { s₂.ends with wr := s₂.ends.wr.erase (pipeId (s.round, (⟨p, hp⟩ : Fin procs))) } }
      have hpipe : forkNext limit base s = some s₁ := by
        simp only [forkNext, hpc, dif_pos (Nat.lt_of_succ_le hp), hcount,
          if_pos (show base + p + 2 ≤ limit by omega)]
        rfl
      have hfork : forkNext limit base s₁ = some s₂ := rfl
      have hclose : forkNext limit base s₂ = some s₃ := rfl
      refine ⟨s₃, ((hleads.trans (.single (a := .main) hpipe)).trans (.single (a := .main) hfork)).trans
        (.single (a := .main) hclose), hround, rfl, ?_⟩
      intro c hc
      show (Function.update s.child (s.round, ⟨p, hp⟩) _ (⟨0, hrounds⟩, c)).pc = _
      by_cases hcp : c = ⟨p, hp⟩
      · rw [hround, hcp, Function.update_self]
      · have hne : c.val ≠ p := fun heq => hcp (Fin.ext heq)
        rw [Function.update_of_ne (by simp [hcp])]
        exact hchild c (by omega)

theorem leads_team {hrounds : 0 < rounds} {q : Fin rounds × Fin procs} {team team' : Team workers}
    {held : Nat} (h : team.Leads limit held team') (hpc : (s.child q).pc = .team team)
    (hheld : held = base + (s.child q).ends.count) :
    ∃ s', (processesSystem limit base hrounds).Leads s s' ∧ (s'.child q).pc = .team team' ∧
      held = base + (s'.child q).ends.count := by
  induction h with
  | refl => exact ⟨s, .refl s, hpc, hheld⟩
  | @tail team₁ team₂ _ hstep ih =>
      obtain ⟨s₁, hleads, hpc₁, hheld₁⟩ := ih
      obtain ⟨a, ha⟩ := hstep
      rw [hheld₁] at ha
      have hchild := @ForkedChild.next_team workers limit base (pipeId q) (s₁.child q) team₁ a _ hpc₁ ha
      have hnext : processesNext limit base s₁ (.child q a) =
          some (s₁.setChild q ((s₁.child q).after (.ok team₂))) := by
        simp only [processesNext, hchild, Option.map_some]
      refine ⟨_, hleads.trans (.single (a := .child q a) hnext), ?_, ?_⟩
      · simp [ForkState.setChild, ForkedChild.after]
      · simpa [ForkState.setChild, ForkedChild.after] using hheld₁

theorem no_child_fails (hprocs : 0 < procs) {hrounds : 0 < rounds} (hroom : base + procs + workers ≤ limit)
    {s : ForkState procs workers rounds} (hreach : (processesSystem limit base hrounds).Reachable s)
    (q : Fin rounds × Fin procs) : (s.child q).pc ≠ .zombie 1 := by
  have hnever : ForkInv limit base s ∧ ∀ q, (s.child q).pc ≠ .zombie 1 := by
    refine hreach.invariant
      (I := fun s => ForkInv limit base s ∧ ∀ q, (s.child q).pc ≠ .zombie 1) ?_ ?_
    · intro s hinit
      cases hinit
      exact ⟨.init hrounds, fun q => nofun⟩
    · intro s a s' ⟨h, hnot⟩ hnext
      refine ⟨h.step hprocs hnext, ?_⟩
      have hset {q : Fin rounds × Fin procs} {ch : ForkedChild workers} (hch : ch.pc ≠ .zombie 1) :
          ∀ q', (Function.update s.child q ch q').pc ≠ .zombie 1 :=
        (Function.forall_update_iff s.child fun _ ch => ch.pc ≠ .zombie 1).mpr
          ⟨hch, fun q' _ => hnot q'⟩
      cases a with
      | main =>
          cases fork_cases hnext with
          | fork hpc => exact hset nofun
          | summary hpc hj =>
              unfold ForkState.summary
              split <;> exact hnot
          | _ => exact hnot
      | reap q =>
          obtain ⟨j, status, hpc, hj, hzombie, rfl⟩ := reap_cases hnext
          exact hset (by simp [ForkedChild.reap])
      | child q a =>
          obtain ⟨ch, hch, rfl⟩ := Option.map_eq_some_iff.mp hnext
          exact hset (h.child_status hroom (ForkedChild.step_of_next hch))
  exact hnever.2 q

/-- The last child begins while all others hold their read ends. -/
theorem leads_child_fails (hprocs : 0 < procs) (hworkers : 0 < workers) (hrounds : 0 < rounds)
    (hroom : base + procs + 1 ≤ limit) (hlt : limit < base + procs + workers) :
    ∃ s : ForkState procs workers rounds, (processesSystem limit base hrounds).Reachable s ∧
      ∃ q, (s.child q).pc = .zombie 1 := by
  obtain ⟨s, hleads, hround, hpc, hforked⟩ :=
    @leads_forked procs workers rounds limit base hrounds hprocs hroom procs (Nat.le_refl procs)
  let q : Fin rounds × Fin procs := (⟨0, hrounds⟩, ⟨procs - 1, by omega⟩)
  have hq : (s.child q).pc = .closeRead := hforked ⟨procs - 1, by omega⟩ (by simp; omega)
  -- the last child begins
  let s₁ := s.setChild q
    { s.child q with
      pc := .team .start, ends := { (s.child q).ends with rd := (s.child q).ends.rd.erase (pipeId q) } }
  have hbegin : processesNext limit base s (.child q .main) = some s₁ := by
    simp only [processesNext, ForkedChild.next, hq, Option.map_some]
    rfl
  have hleads₁ := hleads.trans (.single (a := .child q .main) hbegin)
  have hteam : (s₁.child q).pc = .team .start := by simp [s₁, ForkState.setChild]
  have hcount := ((ForkInv.of_reachable hprocs (hleads₁.reachable rfl)).child q).count_team hteam
  have hheld : base + procs = base + (s₁.child q).ends.count := by
    rw [hcount]
    simp only [pipeId, q]
    omega
  obtain ⟨team, a, hruns, hexit⟩ := @Team.leads_exit workers limit (base + procs) hlt hworkers
  obtain ⟨s₂, hleads₂, hpc₂, hheld₂⟩ := @leads_team procs workers rounds limit base s₁ hrounds q _ _ _
    hruns hteam hheld
  rw [hheld₂] at hexit
  have hchild := @ForkedChild.next_team workers limit base (pipeId q) (s₂.child q) team a _ hpc₂ hexit
  have hnext : processesNext limit base s₂ (.child q a) =
      some (s₂.setChild q ((s₂.child q).after (.error 1))) := by
    simp only [processesNext, hchild, Option.map_some]
  refine ⟨_, ((hleads₁.trans hleads₂).trans (.single (a := .child q a) hnext)).reachable rfl, q, ?_⟩
  simp [ForkState.setChild, ForkedChild.after, ForkedChild.exits]

/-- Where there is room for the pipes, a child can exit with status 1 exactly if the last
one, with the read ends it inherits, its own write end and its threads, needs more than
there is. -/
theorem children_descriptors (hprocs : 0 < procs) (hworkers : 0 < workers) (hrounds : 0 < rounds)
    (hroom : base + procs + 1 ≤ limit) :
    (∃ s : ForkState procs workers rounds, (processesSystem limit base hrounds).Reachable s ∧
        ∃ q, (s.child q).pc = .zombie 1) ↔
      limit < base + procs + workers := by
  constructor
  · intro ⟨s, hreach, q, hstatus⟩
    by_contra hle
    exact no_child_fails hprocs (Nat.le_of_not_lt hle) hreach q hstatus
  · exact leads_child_fails hprocs hworkers hrounds hroom

/-- 512 processes of 1024 threads: all pipes fit, and not all files of a child. -/
theorem children_descriptors_512 :
    ∃ s : ForkState 512 1024 2, (processesSystem 1024 3 (by decide : 0 < 2)).Reachable s ∧
      ∃ q, (s.child q).pc = .zombie 1 :=
  (children_descriptors (by decide) (by decide) (by decide) (by decide)).mpr (by decide)

end OsLabs.PageCacheModels.Descriptors
