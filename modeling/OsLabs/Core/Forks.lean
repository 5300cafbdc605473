import OsLabs.Core.Buffering
import OsLabs.Core.Lts
import Mathlib.Algebra.BigOperators.Group.List.Basic
import Mathlib.Tactic.NormNum

/-! # Children that print

`main` prints, forks and waits. A child has a copy of what was pending at its fork and
prints behind it. It ends by `exit`, which writes what is pending, by `_exit`, which drops
it, or as another program, which starts with nothing pending. All of them write to one
file.
-/

namespace OsLabs.Forks

inductive Ending where
  | exit
  | quit
  | exec (outs : List (List Char))
  deriving DecidableEq

inductive Op where
  | print (text : List Char)
  | fork (texts : List (List Char)) (ending : Ending)
  | wait

inductive Phase where
  | running
  | zombie
  | reaped
  deriving DecidableEq

structure Child where
  pending : List Char
  texts : List (List Char)
  ending : Ending
  phase : Phase

/-- `written` holds the writes to the file: `none` is `main`, `some i` the child forked
after `i` others. -/
structure State where
  ops : List Op
  pending : List Char
  returned : Bool
  children : List Child
  written : List (Option Nat × List Char)

inductive Act where
  | main
  | child (i : Nat)
  | reap (i : Nat)
  deriving DecidableEq

def textOf (who : Option Nat) (written : List (Option Nat × List Char)) : List Char :=
  (written.filter fun w => w.1 = who).flatMap Prod.snd

def State.of (s : State) (who : Option Nat) : List Char := textOf who s.written

/-- The file. -/
def State.content (s : State) : List Char := s.written.flatMap Prod.snd

/-- `main` has returned and every child has ended. -/
def State.Final (s : State) : Prop := s.returned = true ∧ ∀ c ∈ s.children, c.phase ≠ .running

section Model

variable (b : Buffering)

/-- A step of a child, with what it writes. -/
def Child.next (c : Child) : Option (Child × List Char) :=
  if c.phase = .running then
    match c.texts, c.ending with
    | text :: texts, _ =>
        some ({ c with pending := b.kept (c.pending ++ text), texts }, b.due (c.pending ++ text))
    | [], .exec (out :: outs) => some ({ c with pending := [], ending := .exec outs }, out)
    | [], .exec [] => some ({ c with phase := .zombie }, [])
    | [], .quit => some ({ c with phase := .zombie }, [])
    | [], .exit => some ({ c with phase := .zombie }, c.pending)
  else none

def childNext (s : State) (i : Nat) : Option State :=
  match s.children[i]? with
  | none => none
  | some c =>
      (c.next b).map fun r =>
        { s with children := s.children.set i r.1, written := s.written ++ [(some i, r.2)] }

/-- A `wait` that finds no child fails and `main` goes on. -/
def mainNext (s : State) : Option State :=
  match s.ops with
  | .print text :: ops =>
      some { s with
        ops
        pending := b.kept (s.pending ++ text)
        written := s.written ++ [(none, b.due (s.pending ++ text))] }
  | .fork texts ending :: ops =>
      some { s with ops, children := s.children ++ [⟨s.pending, texts, ending, .running⟩] }
  | .wait :: ops => if ∀ c ∈ s.children, c.phase = .reaped then some { s with ops } else none
  | [] =>
      if s.returned then none
      else some { s with returned := true, written := s.written ++ [(none, s.pending)] }

def reapNext (s : State) (i : Nat) : Option State :=
  match s.ops, s.children[i]? with
  | .wait :: ops, some c =>
      if c.phase = .zombie then
        some { s with ops, children := s.children.set i { c with phase := .reaped } }
      else none
  | _, _ => none

def next (s : State) : Act → Option State
  | .main => mainNext b s
  | .child i => childNext b s i
  | .reap i => reapNext s i

def initState (prog : List Op) : State := ⟨prog, [], false, [], []⟩

def system (prog : List Op) : Lts State Act where
  init s := s = initState prog
  next := next b

/-! ## Steps -/

inductive Child.Step (c : Child) : Child → List Char → Prop
  | print {text : List Char} {texts : List (List Char)} :
      c.phase = .running → c.texts = text :: texts →
      Child.Step c { c with pending := b.kept (c.pending ++ text), texts }
        (b.due (c.pending ++ text))
  | write {out : List Char} {outs : List (List Char)} :
      c.phase = .running → c.texts = [] → c.ending = .exec (out :: outs) →
      Child.Step c { c with pending := [], ending := .exec outs } out
  | stop :
      c.phase = .running → c.texts = [] → c.ending = .quit ∨ c.ending = .exec [] →
      Child.Step c { c with phase := .zombie } []
  | exit :
      c.phase = .running → c.texts = [] → c.ending = .exit →
      Child.Step c { c with phase := .zombie } c.pending

inductive Step (s : State) : State → Prop
  | print {text : List Char} {ops : List Op} :
      s.ops = .print text :: ops →
      Step s { s with
        ops
        pending := b.kept (s.pending ++ text)
        written := s.written ++ [(none, b.due (s.pending ++ text))] }
  | fork {texts : List (List Char)} {ending : Ending} {ops : List Op} :
      s.ops = .fork texts ending :: ops →
      Step s { s with ops, children := s.children ++ [⟨s.pending, texts, ending, .running⟩] }
  | passWait {ops : List Op} : s.ops = .wait :: ops → Step s { s with ops }
  | returns :
      s.ops = [] → s.returned = false →
      Step s { s with returned := true, written := s.written ++ [(none, s.pending)] }
  | child {i : Nat} {c c' : Child} {out : List Char} :
      s.children[i]? = some c → c.Step b c' out →
      Step s { s with children := s.children.set i c', written := s.written ++ [(some i, out)] }
  | reap {i : Nat} {c : Child} {ops : List Op} :
      s.ops = .wait :: ops → s.children[i]? = some c → c.phase = .zombie →
      Step s { s with ops, children := s.children.set i { c with phase := .reaped } }

variable {b}

theorem Child.step_of_next {c c' : Child} {out : List Char} (h : c.next b = some (c', out)) :
    c.Step b c' out := by
  unfold Child.next at h
  split at h
  next hrunning =>
    split at h
    next text texts htexts =>
      cases h
      exact .print hrunning htexts
    next out outs htexts hending =>
      cases h
      exact .write hrunning htexts hending
    next htexts hending =>
      cases h
      exact .stop hrunning htexts (.inr hending)
    next htexts hending =>
      cases h
      exact .stop hrunning htexts (.inl hending)
    next htexts hending =>
      cases h
      exact .exit hrunning htexts hending
  next => cases h

theorem step_of_next {s s' : State} {a : Act} (h : next b s a = some s') : Step b s s' := by
  cases a with
  | main =>
      simp only [next, mainNext] at h
      split at h
      next text ops hops =>
        cases h
        exact .print hops
      next texts ending ops hops =>
        cases h
        exact .fork hops
      next ops hops =>
        split at h
        · cases h
          exact .passWait hops
        · cases h
      next hops =>
        split at h
        · cases h
        next hret =>
          cases h
          exact .returns hops (by simpa using hret)
  | child i =>
      simp only [next, childNext] at h
      split at h
      · cases h
      next c hc =>
        obtain ⟨⟨c', out⟩, hr, rfl⟩ := Option.map_eq_some_iff.mp h
        exact .child hc (Child.step_of_next hr)
  | reap i =>
      simp only [next, reapNext] at h
      split at h
      next ops c hops hc =>
        split at h
        next hzombie =>
          cases h
          exact .reap hops hc hzombie
        · cases h
      · cases h

variable (b)

/-! ## What is printed -/

def Ending.writes : Ending → List Char → List Char
  | .exit, pending => pending
  | .quit, _ => []
  | .exec outs, _ => outs.flatten

/-- All that `main` prints. -/
def printed : List Op → List Char
  | [] => []
  | .print text :: ops => text ++ printed ops
  | .fork _ _ :: ops => printed ops
  | .wait :: ops => printed ops

/-- A fork, with what `main` had printed before it. -/
structure Forked where
  before : List Char
  texts : List (List Char)
  ending : Ending

def forked (before : List Char) : List Op → List Forked
  | [] => []
  | .print text :: ops => forked (before ++ text) ops
  | .fork texts ending :: ops => ⟨before, texts, ending⟩ :: forked before ops
  | .wait :: ops => forked before ops

/-- What a process is going to write. -/
def residue : List Char → List (List Char) → Ending → List Char
  | pending, [], ending => ending.writes pending
  | pending, text :: texts, ending =>
      b.due (pending ++ text) ++ residue (b.kept (pending ++ text)) texts ending

def Child.residue (c : Child) : List Char :=
  if c.phase = .running then Forks.residue b c.pending c.texts c.ending else []

/-- The child's part of the file. -/
def Forked.shows (d : Forked) : List Char :=
  b.due (b.kept d.before ++ d.texts.flatten) ++
    d.ending.writes (b.kept (d.before ++ d.texts.flatten))

theorem residue_kept (q : List Char) (texts : List (List Char)) (ending : Ending) :
    residue b (b.kept q) texts ending =
      b.due (b.kept q ++ texts.flatten) ++ ending.writes (b.kept (q ++ texts.flatten)) := by
  induction texts generalizing q with
  | nil => simp [residue]
  | cons text texts ih =>
      have htext : b.kept (b.kept q ++ text) = b.kept (q ++ text) := b.kept_append q text
      have hdue := b.due_append (b.kept q ++ text) texts.flatten
      rw [htext] at hdue
      rw [residue, htext, ih, List.flatten_cons, ← List.append_assoc, hdue, List.append_assoc,
        List.append_assoc]

variable {b}

theorem Child.Step.residue_eq {c c' : Child} {out : List Char} (h : c.Step b c' out) :
    c.residue b = out ++ c'.residue b := by
  cases h with
  | print hrunning htexts => simp [Child.residue, hrunning, htexts, Forks.residue]
  | write hrunning htexts hending =>
      simp [Child.residue, hrunning, htexts, hending, Forks.residue, Ending.writes]
  | stop hrunning htexts hending =>
      rcases hending with hquit | hexec
      · simp [Child.residue, hrunning, htexts, hquit, Forks.residue, Ending.writes]
      · simp [Child.residue, hrunning, htexts, hexec, Forks.residue, Ending.writes]
  | exit hrunning htexts hending =>
      simp [Child.residue, hrunning, htexts, hending, Forks.residue, Ending.writes]

@[simp] theorem textOf_nil (who : Option Nat) : textOf who [] = [] := rfl

theorem textOf_cons (who : Option Nat) (w : Option Nat × List Char)
    (ws : List (Option Nat × List Char)) :
    textOf who (w :: ws) = (if w.1 = who then w.2 else []) ++ textOf who ws := by
  by_cases hw : w.1 = who <;> simp [textOf, hw]

theorem textOf_snoc (who : Option Nat) (ws : List (Option Nat × List Char))
    (w : Option Nat × List Char) :
    textOf who (ws ++ [w]) = textOf who ws ++ if w.1 = who then w.2 else [] := by
  by_cases hw : w.1 = who <;> simp [textOf, hw]

/-! ## Runs -/

/-- `before` is what `main` has printed and `done` the forks it has made. What a child
has written and what it is going to write is fixed from its fork on. -/
structure Inv (b : Buffering) (prog : List Op) (before : List Char) (done : List Forked)
    (s : State) : Prop where
  printed : before ++ printed s.ops = printed prog
  forked : done ++ forked before s.ops = forked [] prog
  length : done.length = s.children.length
  main : s.returned = false → s.of none = b.due before ∧ s.pending = b.kept before
  returned : s.returned = true → s.of none = before ∧ s.ops = []
  child : ∀ i d c, done[i]? = some d → s.children[i]? = some c →
    s.of (some i) ++ c.residue b = d.shows b
  fresh : ∀ i, s.children.length ≤ i → s.of (some i) = []

variable {prog : List Op} {before : List Char} {done : List Forked} {s s' : State}

theorem Inv.init (prog : List Op) : Inv b prog [] [] (initState prog) where
  printed := rfl
  forked := rfl
  length := rfl
  main _ := by simp [initState, State.of]
  returned := nofun
  child := by simp
  fresh _ _ := rfl

theorem Inv.not_returned (h : Inv b prog before done s) {op : Op} {ops : List Op}
    (hops : s.ops = op :: ops) : s.returned ≠ true := by
  intro hret
  have hnil := (h.returned hret).2
  rw [hops] at hnil
  cases hnil

theorem Inv.childStep (h : Inv b prog before done s) {i : Nat} {c c' : Child} {out : List Char}
    (hc : s.children[i]? = some c) (hstep : c.Step b c' out) :
    Inv b prog before done
      { s with children := s.children.set i c', written := s.written ++ [(some i, out)] } where
  printed := h.printed
  forked := h.forked
  length := by simpa using h.length
  main hnot := by simpa [State.of, textOf_snoc] using h.main hnot
  returned hret := by simpa [State.of, textOf_snoc] using h.returned hret
  child j d x hd hx := by
    simp only [State.of, textOf_snoc, Option.some.injEq] at hx ⊢
    by_cases hij : i = j
    · subst hij
      have hset : x = c' := by
        rw [List.getElem?_set_self (List.getElem?_eq_some_iff.mp hc).1] at hx
        exact (Option.some.inj hx).symm
      have hchild := h.child i d c hd hc
      rw [hstep.residue_eq, ← List.append_assoc] at hchild
      rw [if_pos rfl, hset]
      exact hchild
    · rw [List.getElem?_set_ne hij] at hx
      rw [if_neg hij, List.append_nil]
      exact h.child j d x hd hx
  fresh j hj := by
    have hlt := (List.getElem?_eq_some_iff.mp hc).1
    have hne : i ≠ j := by
      intro hij
      simp at hj
      omega
    simp only [State.of, textOf_snoc, Option.some.injEq, if_neg hne, List.append_nil]
    exact h.fresh j (by simpa using hj)

theorem Inv.print (h : Inv b prog before done s) {text : List Char} {ops : List Op}
    (hops : s.ops = .print text :: ops) :
    Inv b prog (before ++ text) done
      { s with
        ops
        pending := b.kept (s.pending ++ text)
        written := s.written ++ [(none, b.due (s.pending ++ text))] } where
  printed := by
    have hprinted := h.printed
    rw [hops, Forks.printed, ← List.append_assoc] at hprinted
    exact hprinted
  forked := by
    have hforked := h.forked
    rwa [hops, Forks.forked] at hforked
  length := h.length
  main hnot := by
    obtain ⟨hof, hpending⟩ := h.main hnot
    have hwritten := congrArg (· ++ b.due (s.pending ++ text)) hof
    simp only [hpending] at hwritten
    rw [b.due_append] at hwritten
    refine ⟨?_, ?_⟩
    · simpa [State.of, textOf_snoc, hpending] using hwritten
    · rw [hpending, b.kept_append]
  returned hret := absurd hret (h.not_returned hops)
  child i d c hd hc := by simpa [State.of, textOf_snoc] using h.child i d c hd hc
  fresh i hi := by simpa [State.of, textOf_snoc] using h.fresh i hi

theorem Inv.fork (h : Inv b prog before done s) {texts : List (List Char)} {ending : Ending}
    {ops : List Op} (hops : s.ops = .fork texts ending :: ops) :
    Inv b prog before (done ++ [⟨before, texts, ending⟩])
      { s with ops, children := s.children ++ [⟨s.pending, texts, ending, .running⟩] } where
  printed := by
    have hprinted := h.printed
    rwa [hops, Forks.printed] at hprinted
  forked := by
    have hforked := h.forked
    rw [hops, Forks.forked] at hforked
    rwa [List.append_assoc, List.singleton_append]
  length := by simp [h.length]
  main := h.main
  returned hret := absurd hret (h.not_returned hops)
  child i d c hd hc := by
    rcases Nat.lt_trichotomy i s.children.length with hlt | heq | hgt
    · rw [List.getElem?_append_left hlt] at hc
      rw [List.getElem?_append_left (h.length ▸ hlt)] at hd
      exact h.child i d c hd hc
    · -- the new child has written nothing
      have hnot : s.returned = false := by simpa using h.not_returned hops
      subst heq
      rw [List.getElem?_concat_length, Option.some.injEq] at hc
      rw [← h.length, List.getElem?_concat_length, Option.some.injEq] at hd
      subst hc hd
      have hfresh : State.of { s with ops, children := s.children ++ [⟨s.pending, texts, ending, .running⟩] }
          (some s.children.length) = [] := h.fresh _ (Nat.le_refl _)
      rw [hfresh, List.nil_append, Child.residue, if_pos rfl, (h.main hnot).2, residue_kept]
      rfl
    · rw [List.getElem?_eq_none (by simp; omega)] at hc
      cases hc
  fresh i hi := h.fresh i (by simp at hi; omega)

theorem Inv.passWait (h : Inv b prog before done s) {ops : List Op} (hops : s.ops = .wait :: ops) :
    Inv b prog before done { s with ops } where
  printed := by
    have hprinted := h.printed
    rwa [hops, Forks.printed] at hprinted
  forked := by
    have hforked := h.forked
    rwa [hops, Forks.forked] at hforked
  length := h.length
  main := h.main
  returned hret := absurd hret (h.not_returned hops)
  child := h.child
  fresh := h.fresh

theorem Inv.returns (h : Inv b prog before done s) (hops : s.ops = []) (hret : s.returned = false) :
    Inv b prog before done
      { s with returned := true, written := s.written ++ [(none, s.pending)] } where
  printed := h.printed
  forked := h.forked
  length := h.length
  main := nofun
  returned _ := by
    obtain ⟨hof, hpending⟩ := h.main hret
    have hall : s.of none ++ s.pending = before := by
      rw [hof, hpending, b.due_append_kept]
    exact ⟨by simpa [State.of, textOf_snoc] using hall, hops⟩
  child i d c hd hc := by simpa [State.of, textOf_snoc] using h.child i d c hd hc
  fresh i hi := by simpa [State.of, textOf_snoc] using h.fresh i hi

theorem Inv.reap (h : Inv b prog before done s) {i : Nat} {c : Child}
    (hc : s.children[i]? = some c) (hzombie : c.phase = .zombie) :
    Inv b prog before done { s with children := s.children.set i { c with phase := .reaped } } where
  printed := h.printed
  forked := h.forked
  length := by simpa using h.length
  main := h.main
  returned := h.returned
  child j d c' hd hc' := by
    by_cases hij : i = j
    · subst hij
      rw [List.getElem?_set_self (List.getElem?_eq_some_iff.mp hc).1, Option.some.injEq] at hc'
      have hchild := h.child i d c hd hc
      rw [Child.residue, hzombie, if_neg nofun] at hchild
      subst hc'
      rw [Child.residue, if_neg nofun]
      exact hchild
    · rw [List.getElem?_set_ne hij] at hc'
      exact h.child j d c' hd hc'
  fresh j hj := h.fresh j (by simpa using hj)

theorem Inv.step (h : Inv b prog before done s) (hstep : Step b s s') :
    ∃ before' done', Inv b prog before' done' s' := by
  cases hstep with
  | print hops => exact ⟨_, _, h.print hops⟩
  | fork hops => exact ⟨_, _, h.fork hops⟩
  | passWait hops => exact ⟨_, _, h.passWait hops⟩
  | returns hops hret => exact ⟨_, _, h.returns hops hret⟩
  | child hc hstep => exact ⟨_, _, h.childStep hc hstep⟩
  | reap hops hc hzombie => exact ⟨_, _, (h.passWait hops).reap hc hzombie⟩

/-- Whatever the order of the steps, when all is over `main` has written all it prints, and
each child what is fixed by its fork. -/
theorem final_shows (hreach : (system b prog).Reachable s) (hfinal : s.Final) :
    s.of none = printed prog ∧ s.children.length = (forked [] prog).length ∧
      (∀ i d, (forked [] prog)[i]? = some d → s.of (some i) = d.shows b) ∧
      ∀ i, (forked [] prog).length ≤ i → s.of (some i) = [] := by
  have hinv : ∃ before done, Inv b prog before done s := by
    refine hreach.invariant (I := fun s => ∃ before done, Inv b prog before done s) ?_ ?_
    · intro s hinit
      cases hinit
      exact ⟨_, _, .init prog⟩
    · intro s a s' ⟨before, done, h⟩ hnext
      exact h.step (step_of_next hnext)
  obtain ⟨before, done, h⟩ := hinv
  obtain ⟨hof, hops⟩ := h.returned hfinal.1
  have hprinted := h.printed
  have hforked := h.forked
  rw [hops, Forks.printed, List.append_nil] at hprinted
  rw [hops, Forks.forked, List.append_nil] at hforked
  refine ⟨hof.trans hprinted, ?_, ?_, ?_⟩
  · rw [← hforked, h.length]
  · intro i d hd
    rw [← hforked] at hd
    have hlt := (List.getElem?_eq_some_iff.mp hd).1
    rw [h.length] at hlt
    have hc := List.getElem?_eq_getElem hlt
    have hchild := h.child i d _ hd hc
    rw [Child.residue, if_neg (hfinal.2 _ (List.getElem_mem hlt)), List.append_nil] at hchild
    exact hchild
  · intro i hi
    rw [← hforked, h.length] at hi
    exact h.fresh i hi

/-! ## Ends -/

def Ending.weight : Ending → Nat
  | .exec outs => outs.length + 1
  | _ => 1

def Op.weight : Op → Nat
  | .fork texts ending => texts.length + ending.weight + 1
  | _ => 1

def Child.weight (c : Child) : Nat :=
  if c.phase = .running then c.texts.length + c.ending.weight else 0

/-- The steps that are left. -/
def State.rest (s : State) : Nat :=
  (s.ops.map Op.weight).sum + (s.children.map Child.weight).sum + if s.returned then 0 else 1

theorem Child.Step.weight_lt {c c' : Child} {out : List Char} (h : c.Step b c' out) :
    c'.weight < c.weight := by
  cases h with
  | print hrunning htexts => simp [Child.weight, hrunning, htexts]
  | write hrunning htexts hending =>
      simp [Child.weight, hrunning, htexts, hending, Ending.weight]
  | stop hrunning htexts hending =>
      rcases hending with hquit | hexec
      · simp [Child.weight, hrunning, hquit, Ending.weight]
      · simp [Child.weight, hrunning, hexec, Ending.weight]
  | exit hrunning htexts hending => simp [Child.weight, hrunning, hending, Ending.weight]

theorem sum_set {α : Type} (f : α → Nat) {l : List α} {i : Nat} {x : α} (h : l[i]? = some x) (y : α) :
    ((l.set i y).map f).sum + f x = (l.map f).sum + f y := by
  induction l generalizing i with
  | nil => cases h
  | cons z l ih =>
      cases i with
      | zero =>
          cases h
          simp only [List.set_cons_zero, List.map_cons, List.sum_cons]
          omega
      | succ i =>
          have hrest := ih h
          simp only [List.set_cons_succ, List.map_cons, List.sum_cons]
          omega

theorem Step.rest_lt (hstep : Step b s s') : s'.rest < s.rest := by
  cases hstep with
  | print hops =>
      simp only [State.rest, hops, List.map_cons, List.sum_cons, Op.weight]
      omega
  | fork hops =>
      simp only [State.rest, hops, List.map_cons, List.sum_cons, Op.weight, List.map_append,
        List.sum_append, List.map_nil, List.sum_nil, Child.weight, if_true]
      omega
  | passWait hops =>
      simp only [State.rest, hops, List.map_cons, List.sum_cons, Op.weight]
      omega
  | returns hops hret => simp [State.rest, hret]
  | @child i c c' out hc hstep =>
      have hlt := hstep.weight_lt
      have hsum := sum_set Child.weight hc c'
      simp only [State.rest]
      omega
  | @reap i c ops hops hc hzombie =>
      have hsum := sum_set Child.weight hc { c with phase := .reaped }
      have hweight : c.weight = 0 := by simp [Child.weight, hzombie]
      have hreaped : Child.weight { c with phase := .reaped } = 0 := rfl
      simp only [State.rest, hops, List.map_cons, List.sum_cons, Op.weight]
      omega

theorem Child.next_isSome {c : Child} (h : c.phase = .running) : (c.next b).isSome := by
  unfold Child.next
  rw [if_pos h]
  split <;> rfl

/-- A `wait` is over when a child has ended or none is left. -/
theorem enabled_of_not_final (prog : List Op) (h : ¬ s.Final) :
    (system b prog).Enabled s := by
  by_cases hrunning : ∃ c ∈ s.children, c.phase = .running
  · obtain ⟨c, hmem, hphase⟩ := hrunning
    obtain ⟨i, hc⟩ := List.mem_iff_getElem?.mp hmem
    apply Lts.enabled_of_isSome (.child i)
    simp [system, next, childNext, hc, Child.next_isSome hphase]
  · have hended : ∀ c ∈ s.children, c.phase ≠ .running := fun c hc hphase => hrunning ⟨c, hc, hphase⟩
    have hret : s.returned = false := by
      cases hret : s.returned with
      | false => rfl
      | true => exact absurd ⟨hret, hended⟩ h
    cases hcase : s.ops with
    | nil =>
        apply Lts.enabled_of_isSome .main
        simp [system, next, mainNext, hcase, hret]
    | cons op ops =>
        cases op with
        | print text =>
            apply Lts.enabled_of_isSome .main
            simp [system, next, mainNext, hcase]
        | fork texts ending =>
            apply Lts.enabled_of_isSome .main
            simp [system, next, mainNext, hcase]
        | wait =>
            by_cases hall : ∀ c ∈ s.children, c.phase = .reaped
            · apply Lts.enabled_of_isSome .main
              simp only [system, next, mainNext, hcase]
              rw [if_pos hall]
              rfl
            · simp only [not_forall] at hall
              obtain ⟨c, hmem, hnot⟩ := hall
              obtain ⟨i, hc⟩ := List.mem_iff_getElem?.mp hmem
              have hzombie : c.phase = .zombie := by
                cases hphase : c.phase with
                | running => exact absurd hphase (hended c hmem)
                | zombie => rfl
                | reaped => exact absurd hphase hnot
              apply Lts.enabled_of_isSome (.reap i)
              simp [system, next, reapNext, hcase, hc, hzombie]

/-- Every program ends. -/
theorem final_inevitable (b : Buffering) (prog : List Op) :
    (system b prog).Inevitable State.Final (initState prog) := by
  refine Lts.Inevitable.of_measure State.rest
    (I := fun s => ∃ before done, Inv b prog before done s) ?_ ?_ ⟨_, _, .init prog⟩
  · intro s ⟨before, done, h⟩
    by_cases hfinal : s.Final
    · exact .inl hfinal
    · exact .inr (enabled_of_not_final prog hfinal)
  · intro s a s' ⟨before, done, h⟩ hnext
    have hstep := step_of_next hnext
    exact ⟨h.step hstep, hstep.rest_lt⟩

/-! ## The file -/

theorem content_of_forall {ws : List (Option Nat × List Char)} (h : ∀ i, textOf (some i) ws = []) :
    ws.flatMap Prod.snd = textOf none ws := by
  induction ws with
  | nil => rfl
  | cons w ws ih =>
      have htail : ∀ i, textOf (some i) ws = [] := by
        intro i
        have hi := h i
        rw [textOf_cons, List.append_eq_nil_iff] at hi
        exact hi.2
      rw [List.flatMap_cons, ih htail, textOf_cons]
      cases hw : w.1 with
      | none => rw [if_pos rfl]
      | some i =>
          have hi := h i
          rw [textOf_cons, if_pos hw, List.append_eq_nil_iff] at hi
          rw [if_neg nofun, hi.1]

theorem length_textOf_add_le {who who' : Option Nat} (h : who ≠ who')
    (ws : List (Option Nat × List Char)) :
    (textOf who ws).length + (textOf who' ws).length ≤ (ws.flatMap Prod.snd).length := by
  induction ws with
  | nil => exact Nat.le_refl 0
  | cons w ws ih =>
      rw [textOf_cons, textOf_cons, List.flatMap_cons, List.length_append, List.length_append,
        List.length_append]
      by_cases hw : w.1 = who
      · have hw' : w.1 ≠ who' := hw ▸ h
        simp only [if_pos hw, if_neg hw', List.length_nil]
        omega
      · simp only [if_neg hw, List.length_nil]
        split
        · omega
        · simp only [List.length_nil]
          omega

/-- The file holds what `main` prints and nothing else where no child has anything to show. -/
theorem content_eq_printed_iff (hreach : (system b prog).Reachable s) (hfinal : s.Final) :
    s.content = printed prog ↔ ∀ d ∈ forked [] prog, d.shows b = [] := by
  obtain ⟨hof, -, hshows, hfresh⟩ := final_shows hreach hfinal
  constructor
  · intro hcontent d hd
    obtain ⟨i, hi⟩ := List.mem_iff_getElem?.mp hd
    have hsum : (s.of none).length + (s.of (some i)).length ≤ s.content.length :=
      length_textOf_add_le (Option.some_ne_none i).symm s.written
    rw [hcontent, hof, hshows i d hi] at hsum
    exact List.length_eq_zero_iff.mp (by omega)
  · intro hnone
    rw [← hof]
    apply content_of_forall
    intro i
    by_cases hi : i < (forked [] prog).length
    · have hd := List.getElem?_eq_getElem hi
      exact (hshows i _ hd).trans (hnone _ (List.getElem_mem hi))
    · exact hfresh i (Nat.le_of_not_lt hi)

end Model

end OsLabs.Forks
