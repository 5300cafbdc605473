import OsLabs.Core.ForkOutput

/-! # The banner of a failed child

`main` prints the banner and the headings and forks its children with all of that pending,
unless it writes to a terminal. The children leave by `_exit`, but for `read_range`, which
calls `exit` where it fails: then what was pending is written by the child, and by `main`
again.
-/

namespace OsLabs.PageCacheModels

open Forks Buffering

inductive ChildExit where
  /-- `_exit(0)` behind its line -/
  | reported
  /-- `_exit(1)`: `calloc`, `pthread_create` or a join has failed. -/
  | failed
  /-- `exit(1)` in `read_range` -/
  | readFailed
  deriving DecidableEq

def ChildExit.ending : ChildExit → Ending
  | .reported => .quit
  | .failed => .quit
  | .readFailed => .exit

/-- A round: the texts that `main` prints, and its children. -/
structure RoundTexts where
  header : List (List Char)
  children : List ChildExit
  procs : List (List Char)
  summary : List Char

def RoundTexts.ops (r : RoundTexts) : List Op :=
  ForkPhase.ops ⟨r.header, r.children.map fun c => ([], c.ending), r.procs,
    List.replicate r.children.length []⟩ ++ [.print r.summary]

/-- `main` in the modes with processes. -/
def mainOps (banner : List (List Char)) (rounds : List RoundTexts) (quiz : List (List Char)) :
    List Op :=
  banner.map .print ++ rounds.flatMap RoundTexts.ops ++ quiz.map .print

section Output

variable {banner : List (List Char)} {rounds : List RoundTexts} {quiz : List (List Char)}

theorem forked_mainOps {d : Forked} (h : d ∈ forked [] (mainOps banner rounds quiz)) :
    d.texts = [] ∧ (d.ending = .quit ∨ d.ending = .exit) := by
  have hop := fork_mem_of_forked h
  simp only [mainOps, List.mem_append, List.mem_map, reduceCtorEq, and_false, exists_false,
    false_or, or_false, List.mem_flatMap, RoundTexts.ops, List.mem_singleton] at hop
  obtain ⟨r, -, hphase⟩ := hop
  have hmem := ForkPhase.fork_mem hphase
  obtain ⟨c, -, hc⟩ := List.mem_map.mp hmem
  obtain ⟨htexts, hending⟩ := Prod.mk.inj hc
  refine ⟨htexts.symm, ?_⟩
  rw [← hending]
  cases c with
  | reported => exact .inl rfl
  | failed => exact .inl rfl
  | readFailed => exact .inr rfl

theorem shows_blocks_mainOps {d : Forked} (h : d ∈ forked [] (mainOps banner rounds quiz)) (size : Nat) :
    d.shows (blocks size) =
      if d.ending = .exit then d.before.drop ((d.before.length - 1) / size * size) else [] := by
  obtain ⟨htexts, hending⟩ := forked_mainOps h
  rcases hending with hquit | hexit
  · rw [if_neg (by rw [hquit]; nofun), Forked.shows, hquit, htexts]
    simp [Ending.writes]
  · rw [if_pos hexit, Forked.shows_exit _ htexts hexit]
    rfl

theorem shows_lines_mainOps {d : Forked} (h : d ∈ forked [] (mainOps banner rounds quiz))
    (hbefore : Whole d.before) : d.shows lines = [] := by
  obtain ⟨htexts, hending⟩ := forked_mainOps h
  have htext : Whole d.texts.flatten := by
    rw [htexts]
    exact lines.kept_nil
  rw [Forked.shows_lines hbefore htext, htexts]
  rcases hending with hquit | hexit
  · rw [hquit]
    rfl
  · rw [hexit]
    rfl

/-- The run ends in every order of its steps. On a terminal only what `main` prints appears.
In a pipe or a file each child that failed in `read_range` repeats the last block, full or
not, of what `main` had printed at its fork, so nothing is repeated if and only if `main` had
not printed anything by then. -/
theorem banner_repeated (banner : List (List Char)) (rounds : List RoundTexts)
    (quiz : List (List Char)) :
    let prog := mainOps banner rounds quiz
    (∀ b, (system b prog).Inevitable State.Final (initState prog)) ∧
      ((∀ d ∈ forked [] prog, Whole d.before) → ∀ s, (system lines prog).Reachable s → s.Final →
        s.content = printed prog) ∧
      ∀ size, 0 < size → ∀ s, (system (blocks size) prog).Reachable s → s.Final →
        s.of none = printed prog ∧
          (∀ i d, (forked [] prog)[i]? = some d → s.of (some i) =
            if d.ending = .exit then d.before.drop ((d.before.length - 1) / size * size) else []) ∧
          (s.content = printed prog ↔
            ∀ d ∈ forked [] prog, d.ending = .exit → d.before = []) := by
  intro prog
  refine ⟨fun b => final_inevitable b prog, ?_, ?_⟩
  · intro hwhole s hreach hfinal
    rw [content_eq_printed_iff hreach hfinal]
    intro d hd
    exact shows_lines_mainOps hd (hwhole d hd)
  · intro size hpos s hreach hfinal
    obtain ⟨hmain, -, hshows, -⟩ := final_shows hreach hfinal
    refine ⟨hmain, ?_, ?_⟩
    · intro i d hd
      rw [hshows i d hd]
      exact shows_blocks_mainOps (List.mem_of_getElem? hd) size
    · rw [content_eq_printed_iff hreach hfinal]
      refine forall_congr' fun d => forall_congr' fun hd => ?_
      rw [shows_blocks_mainOps hd]
      by_cases hexit : d.ending = .exit
      · have hkept : d.before.drop ((d.before.length - 1) / size * size) = [] ↔ d.before = [] :=
          kept_blocks_eq_nil
        rw [if_pos hexit, hkept]
        exact ⟨fun h _ => h, fun h => h hexit⟩
      · rw [if_neg hexit]
        exact ⟨fun _ h => absurd h hexit, fun _ => rfl⟩

end Output

def failingRound : RoundTexts := ⟨["Round 1\n".toList], [.readFailed], [], "summary\n".toList⟩

/-- The 15 characters pending at the fork are repeated, here where they are a whole block. -/
theorem banner_repeated_once :
    let prog := mainOps ["Banner\n".toList] [failingRound] []
    ∃ s, (system (blocks 15) prog).Reachable s ∧ s.Final ∧
      s.of (some 0) = "Banner\nRound 1\n".toList ∧ s.content ≠ printed prog := by
  intro prog
  obtain ⟨hends, -, hfile⟩ := banner_repeated ["Banner\n".toList] [failingRound] []
  obtain ⟨ts, s, hruns, hfinal⟩ := (hends (blocks 15)).exists_run
  have hreach : (system (blocks 15) prog).Reachable s := ⟨_, ts, rfl, hruns⟩
  obtain ⟨-, hchild, hcontent⟩ := hfile 15 (by decide) s hreach hfinal
  have hforked : forked [] prog = [⟨"Banner\nRound 1\n".toList, [], .exit⟩] := rfl
  refine ⟨s, hreach, hfinal, ?_, ?_⟩
  · rw [hchild 0 _ rfl]
    rfl
  · rw [Ne, hcontent, hforked, List.forall_mem_singleton]
    decide

end OsLabs.PageCacheModels
