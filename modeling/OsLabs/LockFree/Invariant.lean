import OsLabs.LockFree.Stack

/-! # The nodes of the stack

The chain from `stack_top` holds the pushed nodes. A node outside of it has one
owner, which alone changes or frees it. A `pop` that holds a node still knows
its `next` field: while it is held the node is neither changed nor freed.
-/

namespace OsLabs.LockFree

variable {T Addr : Type} {heap heap' : Heap Addr Int} {p : Pc Addr} {ph : Phase}

/-- What a thread relies on in the heap, and how far its call has come. -/
def Fits (heap : Heap Addr Int) : Pc Addr → Phase → Prop
  | .idle, ph => ph = .idle
  | .pushMalloc val, ph => ph = .pending (.push val)
  | .pushVal val n, ph => (heap n).isSome ∧ ph = .pending (.push val)
  | .pushLoad val n, ph => (∃ q, heap n = some ⟨val, q⟩) ∧ ph = .pending (.push val)
  | .pushNext val n _, ph => (∃ q, heap n = some ⟨val, q⟩) ∧ ph = .pending (.push val)
  | .pushCas val n old, ph => heap n = some ⟨val, old⟩ ∧ ph = .pending (.push val)
  | .pushRet, ph => ph = .done .pushed
  | .popLoad, ph => ph = .pending .pop
  | .popNext old, ph => (heap old).isSome ∧ ph = .pending .pop
  | .popCas old next, ph => (∃ v, heap old = some ⟨v, next⟩) ∧ ph = .pending .pop
  | .popVal old, ph => ∃ v q, heap old = some ⟨v, q⟩ ∧ ph = .done (.popped (some v))
  | .popFree old out, ph => (heap old).isSome ∧ ph = .done (.popped (some out))
  | .popRet out, ph => ph = .done (.popped out)

theorem Pc.owns_of_builds {a : Addr} (h : p.builds = some a) : p.owns = some a := by
  cases p <;> first | exact h | cases h

theorem Pc.holds_of_builds {a : Addr} (h : p.builds = some a) : p.holds = none := by
  cases p <;> first | rfl | cases h

theorem Fits.allocated {a : Addr} (h : Fits heap p ph) (ha : p.owns = some a ∨ p.holds = some a) :
    (heap a).isSome := by
  cases p <;> simp [Pc.owns, Pc.holds] at ha <;> subst ha <;> simp only [Fits] at h
  case pushVal => exact h.1
  case pushLoad =>
    rcases h.1 with ⟨q, hq⟩
    rw [hq]
    rfl
  case pushNext =>
    rcases h.1 with ⟨q, hq⟩
    rw [hq]
    rfl
  case pushCas =>
    rw [h.1]
    rfl
  case popNext => exact h.1
  case popCas =>
    rcases h.1 with ⟨v, hv⟩
    rw [hv]
    rfl
  case popVal =>
    rcases h with ⟨v, q, hv, _⟩
    rw [hv]
    rfl
  case popFree => exact h.1

theorem Fits.frame (h : Fits heap p ph)
    (heq : ∀ a, p.owns = some a ∨ p.holds = some a → heap' a = heap a) : Fits heap' p ph := by
  cases p <;> simp only [Fits] at h ⊢
  case idle | pushMalloc | pushRet | popLoad | popRet => exact h
  all_goals
    rw [heq _ (by simp [Pc.owns, Pc.holds])]
    exact h

/-! ## The invariant -/

structure Inv (s : State T Addr) (l : List (Addr × Int)) (phase : T → Phase) : Prop where
  chain : Chain s.heap s.stackTop l
  fits : ∀ t, Fits s.heap (s.pc t) (phase t)
  unlinked : ∀ t a, (s.pc t).owns = some a → a ∉ l.map Prod.fst
  owner : ∀ t u a, (s.pc t).owns = some a → (s.pc u).owns = some a → t = u
  hidden : ∀ t u a, (s.pc t).builds = some a → (s.pc u).holds ≠ some a

theorem Inv.fits_of_pc {s : State T Addr} {l : List (Addr × Int)} {phase : T → Phase} {t : T}
    (h : Inv s l phase) (hpc : s.pc t = p) : Fits s.heap p (phase t) := by
  rw [← hpc]
  exact h.fits t

theorem Inv.init : Inv (initState : State T Addr) [] fun _ => .idle := by
  constructor
  · rfl
  · intro t
    rfl
  · intro t a ha
    cases ha
  · intro t u a ha
    cases ha
  · intro t u a ha
    cases ha

section Steps

variable [DecidableEq T] [DecidableEq Addr] {s : State T Addr} {l l' : List (Addr × Int)}
  {phase : T → Phase} {t : T}

omit [DecidableEq Addr] in
/-- One thread moves, with what the heap, the chain and the other threads need. -/
theorem Inv.update (h : Inv s l phase) {top' : Option Addr} (hchain : Chain heap' top' l')
    (hfits : Fits heap' p ph)
    (hheap : ∀ u, u ≠ t → ∀ a, (s.pc u).owns = some a ∨ (s.pc u).holds = some a →
      heap' a = s.heap a)
    (hothers : ∀ u, u ≠ t → ∀ a, (s.pc u).owns = some a → a ∉ l'.map Prod.fst)
    (hself : ∀ a, p.owns = some a → a ∉ l'.map Prod.fst ∧ ∀ u, u ≠ t → (s.pc u).owns ≠ some a)
    (hbuilds : ∀ a, p.builds = some a → ∀ u, u ≠ t → (s.pc u).holds ≠ some a)
    (hholds : ∀ a, p.holds = some a → ∀ u, u ≠ t → (s.pc u).builds ≠ some a) :
    Inv (⟨top', heap', Function.update s.pc t p⟩ : State T Addr) l'
      (Function.update phase t ph) := by
  constructor
  · exact hchain
  · intro u
    by_cases hu : u = t
    · subst hu
      simpa using hfits
    · simpa [hu] using (h.fits u).frame (hheap u hu)
  · intro u a (ha : (Function.update s.pc t p u).owns = some a)
    by_cases hu : u = t
    · subst hu
      rw [Function.update_self] at ha
      exact (hself a ha).1
    · rw [Function.update_of_ne hu] at ha
      exact hothers u hu a ha
  · intro u w a (hua : (Function.update s.pc t p u).owns = some a)
      (hwa : (Function.update s.pc t p w).owns = some a)
    by_cases hu : u = t
    · by_cases hw : w = t
      · rw [hu, hw]
      · subst hu
        rw [Function.update_self] at hua
        rw [Function.update_of_ne hw] at hwa
        exact absurd hwa ((hself a hua).2 w hw)
    · by_cases hw : w = t
      · subst hw
        rw [Function.update_of_ne hu] at hua
        rw [Function.update_self] at hwa
        exact absurd hua ((hself a hwa).2 u hu)
      · rw [Function.update_of_ne hu] at hua
        rw [Function.update_of_ne hw] at hwa
        exact h.owner u w a hua hwa
  · intro u w a (hua : (Function.update s.pc t p u).builds = some a)
      (hwa : (Function.update s.pc t p w).holds = some a)
    by_cases hu : u = t
    · subst hu
      rw [Function.update_self] at hua
      by_cases hw : w = u
      · subst hw
        rw [Function.update_self, Pc.holds_of_builds hua] at hwa
        cases hwa
      · rw [Function.update_of_ne hw] at hwa
        exact hbuilds a hua w hw hwa
    · rw [Function.update_of_ne hu] at hua
      by_cases hw : w = t
      · subst hw
        rw [Function.update_self] at hwa
        exact hholds a hwa u hu hua
      · rw [Function.update_of_ne hw] at hwa
        exact h.hidden u w a hua hwa

omit [DecidableEq Addr] in
/-- A step that leaves the shared state and the thread's node as they are. -/
theorem Inv.move (h : Inv s l phase) {q : Pc Addr} (hpc : s.pc t = q) (hfits : Fits s.heap p ph)
    (howns : p.owns = q.owns) (hbuilds : p.builds = q.builds)
    (hholds : p.holds = none ∨ p.holds = q.holds) :
    Inv (s.setPc t p) l (Function.update phase t ph) := by
  subst hpc
  apply h.update h.chain hfits
  · intro u _ a _
    rfl
  · intro u _ a ha
    exact h.unlinked u a ha
  · intro a ha
    rw [howns] at ha
    exact ⟨h.unlinked t a ha, fun u hu hua => hu (h.owner u t a hua ha)⟩
  · intro a ha u _
    rw [hbuilds] at ha
    exact h.hidden t u a ha
  · intro a ha u _ hua
    rcases hholds with hnone | hsame
    · rw [hnone] at ha
      cases ha
    · rw [hsame] at ha
      exact h.hidden u t a hua ha

/-- `push` stores into the node it builds. -/
theorem Inv.write (h : Inv s l phase) {n : Addr} {c : Node Addr} (hn : (s.pc t).builds = some n)
    (hbuilds : p.builds = some n) (hfits : Fits (Function.update s.heap n (some c)) p ph) :
    Inv ({ s with heap := Function.update s.heap n (some c) }.setPc t p) l
      (Function.update phase t ph) := by
  have howns := Pc.owns_of_builds hn
  apply h.update (h.chain.update (h.unlinked t n howns) _) hfits
  · intro u hu a ha
    apply Function.update_of_ne
    rintro rfl
    rcases ha with hua | hua
    · exact hu (h.owner u t _ hua howns)
    · exact h.hidden t u _ hn hua
  · intro u _ a ha
    exact h.unlinked u a ha
  · intro a ha
    rw [Pc.owns_of_builds hbuilds] at ha
    cases ha
    exact ⟨h.unlinked t n howns, fun u hu hua => hu (h.owner u t _ hua howns)⟩
  · intro a ha u _
    rw [hbuilds] at ha
    cases ha
    exact h.hidden t u n hn
  · intro a ha
    rw [Pc.holds_of_builds hbuilds] at ha
    cases ha

theorem Inv.malloc (h : Inv s l phase) {n : Addr} {c : Node Addr} (hfree : s.heap n = none)
    (hbuilds : p.builds = some n) (hfits : Fits (Function.update s.heap n (some c)) p ph) :
    Inv ({ s with heap := Function.update s.heap n (some c) }.setPc t p) l
      (Function.update phase t ph) := by
  have hunused : ∀ u, ¬((s.pc u).owns = some n ∨ (s.pc u).holds = some n) := by
    intro u hu
    have hallocated := (h.fits u).allocated hu
    rw [hfree] at hallocated
    cases hallocated
  have houtside : n ∉ l.map Prod.fst := by
    intro hmem
    have hallocated := h.chain.allocated hmem
    rw [hfree] at hallocated
    cases hallocated
  apply h.update (h.chain.update houtside _) hfits
  · intro u _ a ha
    apply Function.update_of_ne
    rintro rfl
    exact hunused u ha
  · intro u _ a ha
    exact h.unlinked u a ha
  · intro a ha
    rw [Pc.owns_of_builds hbuilds] at ha
    cases ha
    exact ⟨houtside, fun u _ hua => hunused u (.inl hua)⟩
  · intro a ha u _ hua
    rw [hbuilds] at ha
    cases ha
    exact hunused u (.inr hua)
  · intro a ha
    rw [Pc.holds_of_builds hbuilds] at ha
    cases ha

omit [DecidableEq Addr] in
/-- `pop` loads the head of the chain, which nobody owns. -/
theorem Inv.hold (h : Inv s l phase) {old : Addr} (htop : s.stackTop = some old) :
    Inv (s.setPc t (.popNext old)) l (Function.update phase t (.pending .pop)) := by
  have hchain := h.chain
  rw [htop] at hchain
  rcases hchain.cons_of_some with ⟨v, q, l', rfl, hcell, _⟩
  apply h.update h.chain
  · constructor
    · rw [hcell]
      rfl
    · rfl
  · intro u _ a _
    rfl
  · intro u _ a ha
    exact h.unlinked u a ha
  · intro a ha
    cases ha
  · intro a ha
    cases ha
  · intro a ha u _ hua
    cases ha
    exact h.unlinked u old (Pc.owns_of_builds hua) (by simp)

omit [DecidableEq Addr] in
/-- The successful exchange of `push`. The node's `next` field is the old top,
whichever node is at that address by now. -/
theorem Inv.link (h : Inv s l phase) {val : Int} {n : Addr} (hpc : (s.pc t).owns = some n)
    (hcell : s.heap n = some ⟨val, s.stackTop⟩) :
    Inv ({ s with stackTop := some n }.setPc t .pushRet) ((n, val) :: l)
      (Function.update phase t (.done .pushed)) := by
  apply h.update (h.chain.push hcell)
  · rfl
  · intro u _ a _
    rfl
  · intro u hu a ha hmem
    rcases List.mem_cons.mp hmem with rfl | hmem
    · exact hu (h.owner u t _ ha hpc)
    · exact h.unlinked u a ha hmem
  · intro a ha
    cases ha
  · intro a ha
    cases ha
  · intro a ha
    cases ha

omit [DecidableEq Addr] in
/-- The successful exchange of `pop`. The head is the node that was loaded, and
`next` is still its successor. -/
theorem Inv.unlink (h : Inv s l phase) {old : Addr} {next : Option Addr} {v : Int}
    (htop : s.stackTop = some old) (hcell : s.heap old = some ⟨v, next⟩) :
    ∃ l', l = (old, v) :: l' ∧ Inv ({ s with stackTop := next }.setPc t (.popVal old)) l'
      (Function.update phase t (.done (.popped (some v)))) := by
  have hchain := h.chain
  rw [htop] at hchain
  rcases hchain.cons_of_some with ⟨v', q, l', rfl, hcell', htail⟩
  rw [hcell] at hcell'
  cases hcell'
  refine ⟨l', rfl, ?_⟩
  have hnodup := hchain.nodup
  rw [List.map_cons, List.nodup_cons] at hnodup
  apply h.update htail
  · exact ⟨v, next, hcell, rfl⟩
  · intro u _ a _
    rfl
  · intro u _ a ha hmem
    exact h.unlinked u a ha (List.mem_cons_of_mem _ hmem)
  · intro a ha
    cases ha
    exact ⟨hnodup.1, fun u _ hua => h.unlinked u old hua (by simp)⟩
  · intro a ha
    cases ha
  · intro a ha
    cases ha

theorem Inv.free (h : Inv s l phase) {old : Addr} {out : Int} (hpc : (s.pc t).owns = some old)
    (hunheld : ∀ u, (s.pc u).holds ≠ some old) :
    Inv ({ s with heap := Function.update s.heap old none }.setPc t (.popRet (some out))) l
      (Function.update phase t (.done (.popped (some out)))) := by
  apply h.update (h.chain.update (h.unlinked t old hpc) _)
  · rfl
  · intro u hu a ha
    apply Function.update_of_ne
    rintro rfl
    rcases ha with hua | hua
    · exact hu (h.owner u t _ hua hpc)
    · exact hunheld u hua
  · intro u _ a ha
    exact h.unlinked u a ha
  · intro a ha
    cases ha
  · intro a ha
    cases ha
  · intro a ha
    cases ha

end Steps

end OsLabs.LockFree
