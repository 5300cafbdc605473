import OsLabs.Core.Forks

/-! # What children show

On a terminal the lines of a child appear. In a pipe or a file they appear only where they
go beyond a block together with what was pending at the fork, and a child that ends by
`exit` repeats what was pending.
-/

namespace OsLabs.Forks

open Buffering

/-- It does not depend on what is pending. -/
def Ending.Drops : Ending → Prop
  | .exit => False
  | _ => True

theorem Ending.Drops.writes_eq {ending : Ending} (h : ending.Drops) (pending : List Char) :
    ending.writes pending = ending.writes [] := by
  cases ending with
  | exit => exact h.elim
  | quit => rfl
  | exec outs => rfl

/-! ## Pipes and files -/

/-- What is printed is lost exactly where it stays within a block. -/
theorem Forked.shows_blocks_iff {d : Forked} (hdrops : d.ending.Drops) {size : Nat} (hpos : 0 < size) :
    d.shows (blocks size) = d.ending.writes [] ↔
      inBlock size d.before.length + d.texts.flatten.length ≤ size := by
  rw [Forked.shows, hdrops.writes_eq, List.append_left_eq_self, due_blocks_eq_nil hpos,
    List.length_append, length_kept_blocks]

/-- A child that prints nothing and ends by `exit`. -/
theorem Forked.shows_exit (b : Buffering) {d : Forked} (htexts : d.texts = []) (hexit : d.ending = .exit) :
    d.shows b = b.kept d.before := by
  simp [Forked.shows, htexts, hexit, Ending.writes]

/-! ## Terminals -/

theorem Forked.shows_lines {d : Forked} (hbefore : Whole d.before) (htexts : Whole d.texts.flatten) :
    d.shows lines = d.texts.flatten ++ d.ending.writes [] := by
  have hkept : lines.kept (d.before ++ d.texts.flatten) = [] := hbefore.append htexts
  rw [Forked.shows, hkept, hbefore, List.nil_append, htexts.due_eq]

def Ending.Lines : Ending → Prop
  | .exit => False
  | .quit => True
  | .exec outs => ∀ out ∈ outs, Whole out

def Op.Lines : Op → Prop
  | .fork _ ending => ending.Lines
  | _ => True

theorem Ending.Lines.drops {ending : Ending} (h : ending.Lines) : ending.Drops := by
  cases ending with
  | exit => exact h
  | quit => trivial
  | exec outs => trivial

/-- Only whole lines have been written. -/
structure LinesInv (s : State) : Prop where
  ops : ∀ op ∈ s.ops, op.Lines
  children : ∀ c ∈ s.children, c.ending.Lines
  written : ∀ w ∈ s.written, Whole w.2

theorem Child.Step.whole {c c' : Child} {out : List Char} (hstep : c.Step lines c' out)
    (h : c.ending.Lines) : c'.ending.Lines ∧ Whole out := by
  cases hstep with
  | print hrunning htexts => exact ⟨h, whole_due _⟩
  | write hrunning htexts hending =>
      rw [hending] at h
      have hall := List.forall_mem_cons.mp h
      exact ⟨hall.2, hall.1⟩
  | stop hrunning htexts hending => exact ⟨h, lines.kept_nil⟩
  | exit hrunning htexts hending =>
      rw [hending] at h
      exact h.elim

theorem LinesInv.tail {s : State} (h : LinesInv s) {op : Op} {ops : List Op} (hops : s.ops = op :: ops) :
    op.Lines ∧ ∀ op ∈ ops, op.Lines := by
  have hall := h.ops
  rw [hops] at hall
  exact List.forall_mem_cons.mp hall

theorem LinesInv.setChild {s : State} (h : LinesInv s) (i : Nat) {c : Child} (hc : c.ending.Lines) :
    ∀ c' ∈ s.children.set i c, c'.ending.Lines := by
  intro c' hc'
  rcases List.mem_or_eq_of_mem_set hc' with hmem | rfl
  · exact h.children c' hmem
  · exact hc

theorem LinesInv.snoc {s : State} (h : LinesInv s) (who : Option Nat) {out : List Char}
    (hout : Whole out) : ∀ w ∈ s.written ++ [(who, out)], Whole w.2 :=
  List.forall_mem_append.mpr ⟨h.written, List.forall_mem_singleton.mpr hout⟩

theorem LinesInv.step {prog : List Op} {before : List Char} {done : List Forked} {s s' : State}
    (h : LinesInv s) (hinv : Inv lines prog before done s) (hprog : Whole (printed prog))
    (hstep : Step lines s s') : LinesInv s' := by
  cases hstep with
  | print hops => exact ⟨(h.tail hops).2, h.children, h.snoc none (whole_due _)⟩
  | fork hops =>
      obtain ⟨hending, hrest⟩ := h.tail hops
      refine ⟨hrest, ?_, h.written⟩
      exact List.forall_mem_append.mpr ⟨h.children, List.forall_mem_singleton.mpr hending⟩
  | passWait hops => exact ⟨(h.tail hops).2, h.children, h.written⟩
  | returns hops hret =>
      -- nothing is pending behind the last line
      have hall := hinv.printed
      rw [hops, Forks.printed, List.append_nil] at hall
      have hpending : s.pending = [] := by
        rw [(hinv.main hret).2, hall]
        exact hprog
      refine ⟨h.ops, h.children, h.snoc none ?_⟩
      rw [hpending]
      exact lines.kept_nil
  | @child i c c' out hc hstep =>
      obtain ⟨hending, hout⟩ := hstep.whole (h.children c (List.mem_of_getElem? hc))
      exact ⟨h.ops, h.setChild i hending, h.snoc (some i) hout⟩
  | @reap i c ops hops hc hzombie =>
      exact ⟨(h.tail hops).2, h.setChild i (h.children c (List.mem_of_getElem? hc)), h.written⟩

/-- Lines of different processes are not mixed up. -/
theorem writes_whole {prog : List Op} {s : State} (hlines : ∀ op ∈ prog, op.Lines)
    (hprog : Whole (printed prog)) (hreach : (system lines prog).Reachable s) :
    ∀ w ∈ s.written, Whole w.2 := by
  have hinv : LinesInv s ∧ ∃ before done, Inv lines prog before done s := by
    refine hreach.invariant
      (I := fun s => LinesInv s ∧ ∃ before done, Inv lines prog before done s) ?_ ?_
    · intro s hinit
      cases hinit
      exact ⟨⟨hlines, by simp [initState], by simp [initState]⟩, _, _, .init prog⟩
    · intro s a s' h hnext
      obtain ⟨hlines, before, done, hinv⟩ := h
      have hstep := step_of_next hnext
      exact ⟨hlines.step hinv hprog hstep, hinv.step hstep⟩
  exact hinv.1.written

/-- The line ends where `main` forks, where a child ends and where the program ends. -/
structure LineEnds (prog : List Op) : Prop where
  printed : Whole (printed prog)
  before : ∀ d ∈ forked [] prog, Whole d.before
  texts : ∀ d ∈ forked [] prog, Whole d.texts.flatten
  lines : ∀ op ∈ prog, op.Lines

/-! ## Loops of forks and waits -/

/-- Prints, a loop of forks, prints, and a loop of waits with what is printed behind each. -/
structure ForkPhase where
  before : List (List Char)
  children : List (List (List Char) × Ending)
  between : List (List Char)
  waits : List (List (List Char))

def ForkPhase.ops (phase : ForkPhase) : List Op :=
  phase.before.map .print ++ phase.children.map (fun c => .fork c.1 c.2) ++
    phase.between.map .print ++ phase.waits.flatMap fun texts => .wait :: texts.map .print

theorem fork_mem_of_forked {prog : List Op} {before : List Char} {d : Forked}
    (h : d ∈ forked before prog) : .fork d.texts d.ending ∈ prog := by
  induction prog generalizing before with
  | nil => cases h
  | cons op ops ih =>
      cases op with
      | print text => exact List.mem_cons_of_mem _ (ih h)
      | wait => exact List.mem_cons_of_mem _ (ih h)
      | fork texts ending =>
          rcases List.mem_cons.mp h with rfl | hrest
          · exact List.mem_cons_self
          · exact List.mem_cons_of_mem _ (ih hrest)

theorem ForkPhase.fork_mem {phase : ForkPhase} {texts : List (List Char)} {ending : Ending}
    (h : .fork texts ending ∈ phase.ops) : (texts, ending) ∈ phase.children := by
  simpa [ForkPhase.ops] using h

end OsLabs.Forks
