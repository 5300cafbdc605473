import Mathlib.Algebra.BigOperators.Group.Finset.Basic
import Mathlib.Data.Multiset.Range
import OsLabs.Core.Threads
import OsLabs.LockFree.Stack

/-! # The program on the compare-and-swap stack

`main` starts the pushers, joins them and pops until `pop` returns 0. Over the
atomic stack the program is an account: what the pushers have pushed is what `main`
has popped together with what is on the stack.
-/

namespace OsLabs.LockFree

/-- Where `main` is: before the last join, in `while(pop(&val))count++`, after it. -/
inductive MainPc where
  | join
  | loop
  | returned
  deriving DecidableEq

/-- The program; the thread `none` is `main`. -/
structure Prog (T Addr : Type) where
  stack : State (Option T) Addr
  i : T → Nat  -- of each `pusher`
  count : Nat
  main : MainPc

inductive ProgAct (T Addr : Type) where
  | join
  | stack (a : Act (Option T) Addr)

section Model

variable {T Addr : Type} [DecidableEq T] [DecidableEq Addr]

/-- Which calls the threads make. -/
def Prog.permits (n : Nat) (s : Prog T Addr) : Act (Option T) Addr → Bool
  | .call (some t) op => s.i t < n && op = .push (s.i t)
  | .call none op => s.main = .loop && op = .pop
  | _ => true

/-- A return ends an iteration of the thread's loop, `return 0` the loop of `main`. -/
def Prog.after (s : Prog T Addr) (a : Act (Option T) Addr) (st : State (Option T) Addr) :
    Prog T Addr :=
  match a with
  | .run (some t) _ =>
      match s.stack.pc (some t) with
      | .pushRet => { s with stack := st, i := Function.update s.i t (s.i t + 1) }
      | _ => { s with stack := st }
  | .run none _ =>
      match s.stack.pc none with
      | .popRet (some _) => { s with stack := st, count := s.count + 1 }
      | .popRet none => { s with stack := st, main := .returned }
      | _ => { s with stack := st }
  | _ => { s with stack := st }

/-- `pthread_join` returns for a thread that has run its loop to the end. -/
def progNext [Fintype T] (n : Nat) (s : Prog T Addr) : ProgAct T Addr → Option (Prog T Addr)
  | .join => if s.main = .join ∧ ∀ t, s.i t = n then some { s with main := .loop } else none
  | .stack a => if s.permits n a then (next s.stack a).map (s.after a) else none

def initProg : Prog T Addr := ⟨initState, fun _ => 0, 0, .join⟩

def prog [Fintype T] (n : Nat) : Lts (Prog T Addr) (ProgAct T Addr) where
  init s := s = initProg
  next := progNext n

/-! ## What a run shows -/

def stackStep (x : Transition (Prog T Addr) (ProgAct T Addr)) :
    Option (Transition (State (Option T) Addr) (Act (Option T) Addr)) :=
  match x.action with
  | .join => none
  | .stack a => some ⟨x.before.stack, a, x.after.stack⟩

/-- The steps on the stack. -/
def stackSteps (ts : List (Transition (Prog T Addr) (ProgAct T Addr))) :
    List (Transition (State (Option T) Addr) (Act (Option T) Addr)) :=
  Lts.observed stackStep ts

def valOf : Option (Event (Option T)) → Option Int
  | some (.ret none (.popped out)) => out
  | _ => none

/-- What `val` is after each `pop` of `main` that does not return 0. -/
def vals (ts : List (Transition (Prog T Addr) (ProgAct T Addr))) : List Int :=
  Lts.observed (fun x => (stackStep x).bind fun y => valOf (event y)) ts

/-! ## Steps -/

/-- What a step of the stack does to the loops. -/
def Prog.observe (s : Prog T Addr) : Option (Event (Option T)) → Prog T Addr
  | some (.ret (some t) .pushed) => { s with i := Function.update s.i t (s.i t + 1) }
  | some (.ret none (.popped (some _))) => { s with count := s.count + 1 }
  | some (.ret none (.popped none)) => { s with main := .returned }
  | _ => s

theorem after_eq_observe (s : Prog T Addr) (a : Act (Option T) Addr)
    (st : State (Option T) Addr) :
    s.after a st = { s.observe (event ⟨s.stack, a, st⟩) with stack := st } := by
  cases a with
  | run t junk =>
      cases t with
      | none =>
          cases hpc : s.stack.pc none with
          | popRet out => cases out <;> simp [Prog.after, event, hpc, Prog.observe]
          | popLoad =>
              simp only [Prog.after, event, hpc]
              split <;> rfl
          | _ => simp [Prog.after, event, hpc, Prog.observe]
      | some t =>
          cases hpc : s.stack.pc (some t) with
          | popLoad =>
              simp only [Prog.after, event, hpc]
              split <;> rfl
          | _ => simp [Prog.after, event, hpc, Prog.observe]
  | cas t spurious =>
      simp only [Prog.after, event]
      split
      · split <;> rfl
      · split <;> rfl
      · rfl
  | _ => rfl

/-! ## The program over the atomic stack -/

abbrev Abstract (T : Type) : Type := Atomic.State (Option T) (List Int) (StackOp Int) (StackRes Int)

/-- Where a pusher in its iteration `i` can be in a call. -/
def Pushing (n i : Nat) : Phase → Prop
  | .idle => i ≤ n
  | .pending op => i < n ∧ op = .push i
  | .done r => i < n ∧ r = .pushed

/-- The same for `main`. -/
def Popping (main : MainPc) : Phase → Prop
  | .idle => True
  | .pending op => main = .loop ∧ op = .pop
  | .done r => main = .loop ∧ ∃ out, r = .popped out

/-- What a pusher has pushed. -/
def pushedBy (i : Nat) : Phase → Multiset Int
  | .done _ => (Multiset.range (i + 1)).map Nat.cast
  | _ => (Multiset.range i).map Nat.cast

theorem pushedBy_done (i : Nat) (r : StackRes Int) (op : StackOp Int) :
    pushedBy i (.done r) = pushedBy i (.pending op) + {(i : Int)} := by
  unfold pushedBy
  rw [Multiset.range_succ, Multiset.map_cons, ← Multiset.singleton_add, add_comm]

/-- What is popped and not returned yet. -/
def held : Phase → Multiset Int
  | .done (.popped (some val)) => {val}
  | _ => 0

/-- The calls a loop has made after `i` of them have returned. -/
def callsBy (i : Nat) : Phase → Nat
  | .idle => i
  | _ => i + 1

def MainPc.lastCalls : MainPc → Nat
  | .returned => 1
  | _ => 0

variable [Fintype T] {n c : Nat} {vs : List Int} {s : Prog T Addr} {A A' : Abstract T}

/-- What the loops and the atomic stack have to do with each other, where `main` has
popped the values `vs` and `c` calls were made. -/
structure Accounts (n : Nat) (vs : List Int) (c : Nat) (s : Prog T Addr) (A : Abstract T) :
    Prop where
  pusher : ∀ t, Pushing n (s.i t) (A.phase (some t))
  popper : Popping s.main (A.phase none)
  joined : s.main ≠ .join → ∀ t, s.i t = n
  emptied : s.main = .returned ∨ A.phase none = .done (.popped none) → A.val = []
  counted : s.count = vs.length
  conserved : (vs : Multiset Int) + held (A.phase none) + A.val =
    ∑ t, pushedBy (s.i t) (A.phase (some t))
  called : c = ∑ t, callsBy (s.i t) (A.phase (some t)) + callsBy s.count (A.phase none) +
    s.main.lastCalls

/-- The calls the program makes. -/
def Calls (n : Nat) (s : Prog T Addr) : Event (Option T) → Prop
  | .call (some t) op => s.i t < n ∧ op = .push (s.i t)
  | .call none op => s.main = .loop ∧ op = .pop
  | _ => True

def isCall : Option (Event (Option T)) → Bool
  | some (.call _ _) => true
  | _ => false

namespace Accounts

omit [Fintype T] in
theorem update_none (A : Abstract T) (ph : Phase) (t : T) :
    Function.update A.phase none ph (some t) = A.phase (some t) :=
  Function.update_of_ne (by simp) _ _

omit [Fintype T] in
theorem update_some (A : Abstract T) (ph : Phase) (t : T) :
    Function.update A.phase (some t) ph none = A.phase none :=
  Function.update_of_ne (by simp) _ _

omit [DecidableEq T] [DecidableEq Addr] in
/-- `main` does not pop before the pushers have ended. -/
theorem joins (h : Accounts n vs c s A) {t : T} (ht : s.i t < n) : s.main = .join := by
  by_contra hmain
  have hend := h.joined hmain t
  omega

omit [DecidableEq T] [DecidableEq Addr] in
theorem not_emptied (h : Accounts n vs c s A) {t : T} (ht : s.i t < n) :
    ¬ (s.main = .returned ∨ A.phase none = .done (.popped none)) := by
  have hmain := h.joins ht
  rintro (hreturned | hnone)
  · rw [hmain] at hreturned
    cases hreturned
  · have hpopper := h.popper
    rw [hnone, hmain] at hpopper
    cases hpopper.1

omit [DecidableEq Addr] in
/-- The step of a pusher in its loop. -/
theorem move (h : Accounts n vs c s A) (t : T) (i : Nat) (ph : Phase) (val : List Int)
    (new : Multiset Int) (k : Nat) (ht : Pushing n i ph) (hlt : s.i t < n)
    (hnew : pushedBy i ph = pushedBy (s.i t) (A.phase (some t)) + new)
    (hval : (val : Multiset Int) = A.val + new)
    (hcalls : callsBy i ph = callsBy (s.i t) (A.phase (some t)) + k) :
    Accounts n vs (c + k) { s with i := Function.update s.i t i }
      ⟨val, Function.update A.phase (some t) ph⟩ := by
  have hself : ∀ u, u ≠ t → Function.update A.phase (some t) ph (some u) = A.phase (some u) :=
    fun u hu => Function.update_of_ne (by simpa using hu) _ _
  constructor
  · intro u
    by_cases hu : u = t
    · subst hu
      simpa using ht
    · simpa [hu, hself u hu] using h.pusher u
  · simpa [update_some] using h.popper
  · intro hmain
    exact (hmain (h.joins hlt)).elim
  · intro hempty
    simp only [update_some] at hempty
    exact (h.not_emptied hlt hempty).elim
  · exact h.counted
  · have hsum : ∑ u, pushedBy (Function.update s.i t i u)
        (Function.update A.phase (some t) ph (some u)) =
          ∑ u, pushedBy (s.i u) (A.phase (some u)) + new := by
      apply Threads.sum_add_of_others (t := t)
      · simpa using hnew
      · intro u hu
        rw [Function.update_of_ne hu, hself u hu]
    simp only [update_some]
    rw [hsum, hval, ← h.conserved, add_assoc, add_assoc, add_assoc]
  · have hsum : ∑ u, callsBy (Function.update s.i t i u)
        (Function.update A.phase (some t) ph (some u)) =
          ∑ u, callsBy (s.i u) (A.phase (some u)) + k := by
      apply Threads.sum_add_of_others (t := t)
      · simpa using hcalls
      · intro u hu
        rw [Function.update_of_ne hu, hself u hu]
    simp only [update_some]
    rw [hsum, h.called]
    omega

omit [DecidableEq Addr] in
/-- The step of `main` in its loop. -/
theorem moveMain (h : Accounts n vs c s A) (main : MainPc) (count : Nat) (ph : Phase)
    (val vs' : List Int) (k : Nat) (hloop : s.main = .loop) (hpopper : Popping main ph)
    (hempty : main = .returned ∨ ph = .done (.popped none) → val = []) (hcount : count = vs'.length)
    (hvals : (vs' : Multiset Int) + held ph + val = vs + held (A.phase none) + A.val)
    (hcalls : callsBy count ph + main.lastCalls = callsBy s.count (A.phase none) + k) :
    Accounts n vs' (c + k) { s with count := count, main := main }
      ⟨val, Function.update A.phase none ph⟩ := by
  constructor
  · intro t
    simpa [update_none] using h.pusher t
  · simpa using hpopper
  · intro _
    exact h.joined (by rw [hloop]; simp)
  · simpa using hempty
  · exact hcount
  · simp only [Function.update_self, update_none]
    rw [hvals]
    exact h.conserved
  · simp only [Function.update_self, update_none]
    have hcalled := h.called
    rw [hloop] at hcalled
    simp only [MainPc.lastCalls] at hcalled
    omega

omit [DecidableEq Addr] in
/-- What the threads do to the atomic stack. -/
theorem step (h : Accounts n vs c s A) {e : Event (Option T)} (hcalls : Calls n s e)
    (hstep : Atomic.Step Lifo.stack A e A') :
    Accounts n (vs ++ (valOf (some e)).toList) (c + (isCall (some e)).toNat) (s.observe (some e))
      A' := by
  cases hstep with
  | @call t op hphase =>
      cases t with
      | some t =>
          obtain ⟨hlt, rfl⟩ := hcalls
          have hmove := h.move t (s.i t) (.pending (.push (s.i t))) A.val 0 1
            ⟨hlt, rfl⟩ hlt (by rw [hphase]; exact (add_zero _).symm) (add_zero _).symm
            (by rw [hphase]; rfl)
          simpa [valOf, isCall, Prog.observe, Atomic.State.setPhase] using hmove
      | none =>
          obtain ⟨hloop, rfl⟩ := hcalls
          have hmove := h.moveMain s.main s.count (.pending .pop) A.val vs 1 hloop ⟨hloop, rfl⟩
            (fun hempty => h.emptied (hempty.imp id (by simp))) h.counted (by rw [hphase]; rfl)
            (by rw [hphase, hloop]; rfl)
          simpa [valOf, isCall, Prog.observe, Atomic.State.setPhase] using hmove
  | @effect t op hphase =>
      cases t with
      | some t =>
          have hpusher := h.pusher t
          rw [hphase] at hpusher
          obtain ⟨hlt, rfl⟩ := hpusher
          have hmove := h.move t (s.i t) (.done .pushed) ((s.i t : Int) :: A.val) {(s.i t : Int)} 0
            ⟨hlt, rfl⟩ hlt (by rw [hphase, pushedBy_done])
            (by rw [← Multiset.cons_coe, ← Multiset.singleton_add, add_comm])
            (by rw [hphase]; rfl)
          simpa [valOf, isCall, Prog.observe, Atomic.State.setPhase, Lifo.stack] using hmove
      | none =>
          have hpopper := h.popper
          rw [hphase] at hpopper
          obtain ⟨hloop, rfl⟩ := hpopper
          have hnone : ¬ s.main = .returned := by
            rw [hloop]
            simp
          cases hval : A.val with
          | nil =>
              have hmove := h.moveMain s.main s.count (.done (.popped none)) [] vs 0 hloop
                ⟨hloop, none, rfl⟩ (fun _ => rfl) h.counted (by rw [hphase, hval]; rfl)
                (by rw [hphase, hloop]; rfl)
              simpa [valOf, isCall, Prog.observe, Atomic.State.setPhase, Lifo.stack, hval] using hmove
          | cons a l =>
              have hmove := h.moveMain s.main s.count (.done (.popped (some a))) l vs 0 hloop
                ⟨hloop, some a, rfl⟩ (by simp [hnone]) h.counted
                (by simp [hphase, hval, held, ← Multiset.cons_coe, ← Multiset.singleton_add, add_assoc])
                (by rw [hphase, hloop]; rfl)
              simpa [valOf, isCall, Prog.observe, Atomic.State.setPhase, Lifo.stack, hval] using hmove
  | @ret t r hphase =>
      cases t with
      | some t =>
          have hpusher := h.pusher t
          rw [hphase] at hpusher
          obtain ⟨hlt, rfl⟩ := hpusher
          have hmove := h.move t (s.i t + 1) .idle A.val 0 0 (Nat.succ_le_of_lt hlt) hlt
            (by rw [hphase]; exact (add_zero _).symm) (add_zero _).symm (by rw [hphase]; rfl)
          simpa [valOf, isCall, Prog.observe, Atomic.State.setPhase] using hmove
      | none =>
          have hpopper := h.popper
          rw [hphase] at hpopper
          obtain ⟨hloop, out, rfl⟩ := hpopper
          cases out with
          | some val =>
              have hmove := h.moveMain s.main (s.count + 1) .idle A.val (vs ++ [val]) 0 hloop
                trivial (by simp [hloop]) (by simp [h.counted])
                (by simp [hphase, held, ← Multiset.coe_add]) (by rw [hphase, hloop]; rfl)
              simpa [valOf, isCall, Prog.observe, Atomic.State.setPhase] using hmove
          | none =>
              have hmove := h.moveMain .returned s.count .idle A.val vs 0 hloop trivial
                (fun _ => h.emptied (.inr hphase)) h.counted (by rw [hphase]; rfl) (by rw [hphase]; rfl)
              simpa [valOf, isCall, Prog.observe, Atomic.State.setPhase] using hmove

omit [DecidableEq T] [DecidableEq Addr] in
theorem join (h : Accounts n vs c s A) (hmain : s.main = .join) (hjoined : ∀ t, s.i t = n) :
    Accounts n vs c { s with main := .loop } A := by
  have hidle : A.phase none = .idle := by
    have hpopper := h.popper
    rw [hmain] at hpopper
    cases hphase : A.phase none with
    | idle => rfl
    | pending op =>
        rw [hphase] at hpopper
        cases hpopper.1
    | done r =>
        rw [hphase] at hpopper
        cases hpopper.1
  constructor
  · exact h.pusher
  · rw [hidle]
    trivial
  · exact fun _ => hjoined
  · rw [hidle]
    simp
  · exact h.counted
  · exact h.conserved
  · have hcalled := h.called
    rw [hmain] at hcalled
    exact hcalled

omit [DecidableEq T] [DecidableEq Addr] in
theorem idle_of_joined (h : Accounts n vs c s A) (hmain : s.main ≠ .join) (t : T) :
    A.phase (some t) = .idle := by
  have hpusher := h.pusher t
  rw [h.joined hmain t] at hpusher
  cases hphase : A.phase (some t) with
  | idle => rfl
  | pending op =>
      rw [hphase] at hpusher
      exact (Nat.lt_irrefl n hpusher.1).elim
  | done r =>
      rw [hphase] at hpusher
      exact (Nat.lt_irrefl n hpusher.1).elim

omit [DecidableEq T] [DecidableEq Addr] in
theorem idle_of_returned (h : Accounts n vs c s A) (hmain : s.main = .returned)
    (t : Option T) : A.phase t = .idle := by
  cases t with
  | some t => exact h.idle_of_joined (by rw [hmain]; simp) t
  | none =>
      have hpopper := h.popper
      rw [hmain] at hpopper
      cases hphase : A.phase none with
      | idle => rfl
      | pending op =>
          rw [hphase] at hpopper
          cases hpopper.1
      | done r =>
          rw [hphase] at hpopper
          cases hpopper.1

omit [DecidableEq T] [DecidableEq Addr] in
/-- What `main` has popped when it returns. -/
theorem vals_of_returned (h : Accounts n vs c s A) (hmain : s.main = .returned) :
    (vs : Multiset Int) = Fintype.card T • (Multiset.range n).map Nat.cast := by
  have hconserved := h.conserved
  have hpushed : ∀ t ∈ (Finset.univ : Finset T), pushedBy (s.i t) (A.phase (some t)) =
      (Multiset.range n).map Nat.cast := by
    intro t _
    rw [h.idle_of_returned hmain (some t), h.joined (by rw [hmain]; simp) t]
    rfl
  rw [h.idle_of_returned hmain none, h.emptied (.inl hmain), Finset.sum_congr rfl hpushed,
    Finset.sum_const, Finset.card_univ] at hconserved
  simpa [held] using hconserved

omit [DecidableEq T] [DecidableEq Addr] in
theorem pushed_le (h : Accounts n vs c s A) :
    vs.length + (held (A.phase none)).card ≤ Fintype.card T * n := by
  have hconserved := congrArg Multiset.card h.conserved
  have hpushed : ∀ t, (pushedBy (s.i t) (A.phase (some t))).card ≤ n := by
    intro t
    have hpusher := h.pusher t
    cases hphase : A.phase (some t) <;> rw [hphase] at hpusher <;>
      simp only [pushedBy, Multiset.card_map, Multiset.card_range] <;>
      simp only [Pushing] at hpusher <;> omega
  have hsum : ∑ t, (pushedBy (s.i t) (A.phase (some t))).card ≤ ∑ _t : T, n :=
    Finset.sum_le_sum fun t _ => hpushed t
  have hconst : ∑ _t : T, n = Fintype.card T * n := by simp
  simp only [Multiset.card_add, Multiset.coe_card, Multiset.card_sum] at hconserved
  omega

omit [DecidableEq T] [DecidableEq Addr] in
/-- Each pusher makes `n` calls, `main` one for each value and one more. -/
theorem calls_le (h : Accounts n vs c s A) : c ≤ 2 * (Fintype.card T * n) + 1 := by
  have hpushers : ∑ t, callsBy (s.i t) (A.phase (some t)) ≤ ∑ _t : T, n := by
    apply Finset.sum_le_sum
    intro t _
    have hpusher := h.pusher t
    cases hphase : A.phase (some t) <;> rw [hphase] at hpusher <;>
      simp only [Pushing] at hpusher <;> simp only [callsBy] <;> omega
  have hmain : callsBy s.count (A.phase none) + s.main.lastCalls ≤ Fintype.card T * n + 1 := by
    have hpushed := h.pushed_le
    have hpopper := h.popper
    rw [h.counted]
    cases hphase : A.phase none <;> rw [hphase] at hpopper hpushed
    case idle => cases s.main <;> simp only [callsBy, MainPc.lastCalls] <;> omega
    all_goals
      rw [hpopper.1]
      simp only [callsBy, MainPc.lastCalls]
      omega
  have hconst : ∑ _t : T, n = Fintype.card T * n := by simp
  have hcalled := h.called
  omega

omit [DecidableEq T] [DecidableEq Addr] in
theorem setStack (h : Accounts n vs c s A) (st : State (Option T) Addr) :
    Accounts n vs c { s with stack := st } A :=
  ⟨h.pusher, h.popper, h.joined, h.emptied, h.counted, h.conserved, h.called⟩

end Accounts

end Model

end OsLabs.LockFree
