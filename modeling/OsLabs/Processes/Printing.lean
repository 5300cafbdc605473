import OsLabs.Core.ForkOutput

/-! # What the children of the labs show

The labs that fork let their children print and leave by `_exit`, or by `execl`. What they
print has process numbers, addresses and counts in it and is an argument here.
-/

namespace OsLabs.Printing

open Forks Buffering

def forkAndWait (before child between after : List (List Char)) : ForkPhase :=
  ⟨before, [(child, .quit)], between, [after]⟩

/-- `demo_process_isolation`, with what is printed before and behind it. -/
def demoProcessIsolation (before child after : List (List Char)) : List ForkPhase :=
  [forkAndWait before child [] after]

def demoCowAfterFork (before child after : List (List Char)) : List ForkPhase :=
  [forkAndWait before child [] after]

/-- `ex_process_lineage`; `main` looks at its child before it waits. -/
def exProcessLineage (before child between after : List (List Char)) : List ForkPhase :=
  [forkAndWait before child between after]

/-- `main` of the lab on user page tables, which forks in two of its phases. -/
def userPageTables (before child middle child' after : List (List Char)) : List ForkPhase :=
  [forkAndWait before child [] middle, forkAndWait [] child' [] after]

/-- `main` of the lab on processes, with `n` children instead of three. The third one
becomes `ls`; `outs` is what that writes, or `none` where `execl` fails. -/
def processesInAction (n : Nat) (before : List (List Char)) (child : Nat → List Char)
    (exec : List Char) (outs : Option (List (List Char))) (reaped : List (List (List Char)))
    (created after : List (List Char)) : List ForkPhase :=
  let ls : Ending :=
    match outs with
    | some outs => .exec outs
    | none => .quit
  let forks := (List.range n).map fun i => if i = 2 then ([child i, exec], ls) else ([child i], .quit)
  [⟨before, forks, [], reaped⟩, forkAndWait [] [] created after]

inductive Lab : List ForkPhase → Prop where
  | isolation (before child after : List (List Char)) : Lab (demoProcessIsolation before child after)
  | cow (before child after : List (List Char)) : Lab (demoCowAfterFork before child after)
  | lineage (before child between after : List (List Char)) :
      Lab (exProcessLineage before child between after)
  | tables (before child middle child' after : List (List Char)) :
      Lab (userPageTables before child middle child' after)
  | processes (n : Nat) (before : List (List Char)) (child : Nat → List Char) (exec : List Char)
      (outs : Option (List (List Char))) (reaped : List (List (List Char)))
      (created after : List (List Char)) :
      Lab (processesInAction n before child exec outs reaped created after)

def program (phases : List ForkPhase) : List Op := phases.flatMap ForkPhase.ops

theorem Lab.drops {phases : List ForkPhase} (h : Lab phases) :
    ∀ d ∈ forked [] (program phases), d.ending.Drops := by
  have hchildren : ∀ phase ∈ phases, ∀ c ∈ phase.children, c.2.Drops := by
    cases h with
    | isolation before child after => simp [demoProcessIsolation, forkAndWait, Ending.Drops]
    | cow before child after => simp [demoCowAfterFork, forkAndWait, Ending.Drops]
    | lineage before child between after => simp [exProcessLineage, forkAndWait, Ending.Drops]
    | tables before child middle child' after => simp [userPageTables, forkAndWait, Ending.Drops]
    | processes n before child exec outs reaped created after =>
        have hforks : ∀ i, (if i = 2 then (([child i, exec], match outs with
            | some outs => .exec outs
            | none => .quit) : List (List Char) × Ending) else ([child i], .quit)).2.Drops := by
          intro i
          split
          · cases outs <;> trivial
          · trivial
        intro phase hphase c hc
        simp only [processesInAction, List.mem_cons, List.not_mem_nil, or_false] at hphase
        rcases hphase with rfl | rfl
        · obtain ⟨i, -, rfl⟩ := List.mem_map.mp hc
          exact hforks i
        · cases List.mem_singleton.mp hc
          trivial
  intro d hd
  obtain ⟨phase, hphase, hop⟩ := List.mem_flatMap.mp (fork_mem_of_forked hd)
  exact hchildren phase hphase _ (ForkPhase.fork_mem hop)

end OsLabs.Printing
