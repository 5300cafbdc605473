import OsLabs.Rcu.Invariant

/-! # Every reader prints a published snapshot

With a grace period before each `free`, a reader prints version and value of one
update, no older than its call and no older than what it printed before.
-/

namespace OsLabs.Rcu

section Model

variable {T Addr : Type} {vals : List Int} {log : Log T}
  {gone : List (Option Data)} {s s' : State T Addr} {a : Act T Addr}

/-! ## Steps of the readers -/

section Readers

variable [DecidableEq T]

theorem Inv.read (h : Inv vals log gone s) (t : T) :
    Inv vals { log with before := Function.update log.before t log.stores } gone
      (s.setReader t .load) := by
  apply h.setReader
  · rfl
  · exact h.log.called t
  · intro u hu
    exact Function.update_of_ne hu _ _
  · intro u _
    rfl
  · apply ReaderOk.of_not_args
    intro p version value hpc
    simp [State.setReader] at hpc

theorem Inv.load (h : Inv vals log gone s) (t : T) :
    Inv vals log gone (s.setReader t (.args s.globalData none none)) := by
  apply h.setReader rfl h.log (fun _ _ => rfl) fun _ _ => rfl
  intro p version value hpc
  simp only [State.setReader, Function.update_self] at hpc
  cases hpc
  rcases h.current_eq with ⟨d, hnode, hheap⟩
  exact ⟨log.stores, d, ⟨hnode, hheap, h.writer.builds_ne, h.log.before t, Nat.le_refl _, h.log.last⟩,
    by simp, by simp⟩

/-- A reader that has evaluated one more argument of its `printf`. -/
theorem Inv.arg (h : Inv vals log gone s) {t : T} {p : Addr}
    {version value version' value' : Option Int} (hpc : s.reader t = .args p version value)
    (hversion : ∀ d, s.heap p = some d → ∀ x ∈ version', x ∈ version ∨ x = d.version)
    (hvalue : ∀ d, s.heap p = some d → ∀ y ∈ value', y ∈ value ∨ y = d.value) :
    Inv vals log gone (s.setReader t (.args p version' value')) := by
  apply h.setReader rfl h.log (fun _ _ => rfl) fun _ _ => rfl
  intro p' ver val hpc'
  simp only [State.setReader, Function.update_self] at hpc'
  cases hpc'
  rcases h.reader t _ _ _ hpc with ⟨k, d, hholding, hver, hval⟩
  refine ⟨k, d, ⟨hholding.node, hholding.heap, hholding.notBuilt, hholding.before, hholding.le,
    hholding.last⟩, ?_, ?_⟩
  · intro x hx
    exact (hversion d hholding.heap x hx).elim (hver x) id
  · intro y hy
    exact (hvalue d hholding.heap y hy).elim (hval y) id

theorem Inv.argVersion (h : Inv vals log gone s) {t : T} {p : Addr} {value : Option Int}
    (hpc : s.reader t = .args p none value) (junk : Data) :
    Inv vals log gone (s.setReader t (.args p (some (s.heap.load p junk).version) value)) := by
  apply h.arg hpc
  · intro d hheap x hx
    rw [Memory.load_of_some hheap] at hx
    exact .inr (Option.some.inj hx).symm
  · intro d _ y hy
    exact .inl hy

theorem Inv.argValue (h : Inv vals log gone s) {t : T} {p : Addr} {version : Option Int}
    (hpc : s.reader t = .args p version none) (junk : Data) :
    Inv vals log gone (s.setReader t (.args p version (some (s.heap.load p junk).value))) := by
  apply h.arg hpc
  · intro d _ x hx
    exact .inl hx
  · intro d hheap y hy
    rw [Memory.load_of_some hheap] at hy
    exact .inr (Option.some.inj hy).symm

theorem Inv.print (h : Inv vals log gone s) {t : T} {p : Addr} {version value : Int}
    (hpc : s.reader t = .args p (some version) (some value)) :
    Inv vals { log with
      prints := Function.update log.prints t (log.prints t ++ [⟨log.before t, version, value⟩]) }
      gone (s.setReader t .idle) := by
  rcases h.reader t _ _ _ hpc with ⟨k, d, hholding, hversion, hvalue⟩
  obtain rfl := hversion version rfl
  obtain rfl := hvalue value rfl
  apply h.setReader
  · rfl
  · exact h.log.printed hholding
  · intro u _
    rfl
  · intro u hu
    exact Function.update_of_ne hu _ _
  · apply ReaderOk.of_not_args
    intro p' version value hpc'
    simp [State.setReader] at hpc'

end Readers

/-! ## Steps of the writer -/

/-- A step of the writer that neither publishes nor frees. -/
theorem Inv.write (h : Inv vals log gone s) {heap : Memory Addr Data} {todo : List Int}
    {pc : WriterPc Addr} (hpending : pc.pending = s.writer.pending)
    (hcurrent : heap s.globalData = s.heap s.globalData)
    (hkeep : ∀ p d, s.writer.builds ≠ some p → s.heap p = some d →
      heap p = some d ∧ pc.builds ≠ some p)
    (hwriter : WriterOk vals log.stores { s with heap := heap, todo := todo, writer := pc }) :
    Inv vals log gone { s with heap := heap, todo := todo, writer := pc } := by
  have hreplaced : log.stores =
      (gone ++ (none : Option (Option Data)).toList).length + pc.pending := by
    rw [hpending]
    simpa using h.replaced
  have hsame := h.setWriter (fun x hx => by cases hx) hreplaced hcurrent
    (fun _ p d _ => hkeep p d) hwriter
  simpa using hsame

/-- A step of the writer on its locals. -/
theorem Inv.advance (h : Inv vals log gone s) {todo : List Int} {pc : WriterPc Addr}
    (hpending : pc.pending = s.writer.pending)
    (hbuilds : ∀ p, s.writer.builds ≠ some p → pc.builds ≠ some p)
    (hwriter : WriterOk vals log.stores { s with todo := todo, writer := pc }) :
    Inv vals log gone { s with todo := todo, writer := pc } := by
  apply h.write hpending rfl _ hwriter
  intro p d hp hheap
  exact ⟨hheap, hbuilds p hp⟩

section Heap

variable [DecidableEq Addr]

theorem Inv.malloc (h : Inv vals log gone s) {val : Int} {old new : Addr}
    (hpc : s.writer = .malloc val old) (hfree : s.heap new = none) (junk : Data) :
    Inv vals log gone
      { s with heap := s.heap.alloc new junk, writer := .readOld val old new } := by
  have hwriter := h.writer
  simp only [WriterOk, hpc] at hwriter
  obtain ⟨hcall, hold, hallocated⟩ := hwriter
  rcases h.current_eq with ⟨c, _, hcurrent⟩
  have hnew : ∀ {p d}, s.heap p = some d → new ≠ p := by
    intro p d hp heq
    rw [heq, hp] at hfree
    cases hfree
  apply h.write
  · rw [hpc]
    rfl
  · exact (Memory.alloc_of_some hfree hcurrent junk).trans hcurrent.symm
  · intro p d _ hheap
    exact ⟨Memory.alloc_of_some hfree hheap junk, fun heq => hnew hheap (Option.some.inj heq)⟩
  · exact ⟨hcall, hold, hnew hcurrent, hallocated.alloc junk⟩

/-- A store to the node under construction. -/
theorem Inv.storeNew (h : Inv vals log gone s) {new : Addr} {pc : WriterPc Addr} {f : Data → Data}
    (hpending : pc.pending = s.writer.pending) (hold : s.writer.builds = some new)
    (hbuilds : pc.builds = some new)
    (hwriter : WriterOk vals log.stores { s with heap := s.heap.store new f, writer := pc }) :
    Inv vals log gone { s with heap := s.heap.store new f, writer := pc } := by
  have hne : ∀ {p}, s.writer.builds ≠ some p → p ≠ new := by
    intro p hp heq
    exact hp (by rw [hold, heq])
  apply h.write hpending _ _ hwriter
  · exact Memory.store_of_ne (hne h.writer.builds_ne) f
  · intro p d hp hheap
    refine ⟨(Memory.store_of_ne (hne hp) f).trans hheap, ?_⟩
    rw [hbuilds, ← hold]
    exact hp

end Heap

theorem Inv.publish (h : Inv vals log gone s) {val : Int} {old new : Addr}
    (hpc : s.writer = .publish val old new) :
    Inv vals { log with stores := log.stores + 1 } gone
      { s with globalData := new, writer := .free val old new } := by
  have hwriter := h.writer
  have hreplaced := h.replaced
  simp only [WriterOk, hpc] at hwriter
  rw [hpc] at hreplaced
  obtain ⟨hbuilding, hnew⟩ := hwriter
  have hlt : log.stores < vals.length := (List.getElem?_eq_some_iff.mp hbuilding.val).1
  have hold : old ≠ new := by
    rw [hbuilding.old_eq]
    exact hbuilding.new_ne.symm
  refine ⟨?_, hlt, ?_, h.order, ?_, ?_, h.log.stores⟩
  · rw [nodeOf_succ hbuilding.val]
    exact hnew
  · refine ⟨hbuilding.todo, rfl, hold, ?_, ?_⟩
    · rw [hbuilding.old_eq]
      exact hbuilding.allocated
    · rw [hbuilding.old_eq, Nat.add_sub_cancel]
      exact h.current
  · exact congrArg (· + 1) hreplaced
  · intro t
    apply (h.reader t).frame
    · rfl
    · rfl
    · rfl
    · exact Nat.le_succ _
    · intro p d _ _ hheap
      exact ⟨hheap, by simp [WriterPc.builds]⟩

theorem Inv.free [DecidableEq Addr] (h : Inv vals log gone s) {val : Int} {old new : Addr}
    (hpc : s.writer = .free val old new) (hgrace : ∀ t, (s.reader t).holds ≠ some old) :
    Inv vals log (gone ++ [s.heap old])
      { s with heap := s.heap.free old, writer := .print val new } := by
  have hwriter := h.writer
  have hreplaced := h.replaced
  simp only [WriterOk, hpc] at hwriter
  rw [hpc] at hreplaced
  obtain ⟨htodo, hnew, hne, hallocated, hold⟩ := hwriter
  have hstores : log.stores = gone.length + 1 := hreplaced
  show Inv vals log (gone ++ (some (s.heap old)).toList) _
  apply h.setWriter
  · intro x hx
    obtain rfl := Option.some.inj hx
    rw [hold, hstores, Nat.add_sub_cancel]
  · simp [hstores, WriterPc.pending]
  · exact Memory.free_of_ne hne.symm
  · intro t p d hholds _ hheap
    have hp : p ≠ old := fun heq => hgrace t (heq ▸ hholds)
    exact ⟨(Memory.free_of_ne hp).trans hheap, by simp [WriterPc.builds]⟩
  · exact ⟨htodo, hnew, hallocated.free hne⟩

/-! ## Every run -/

variable [DecidableEq T] [DecidableEq Addr]

theorem Inv.step (h : Inv vals log gone s) (hstep : Step s a s') (hgrace : GracePeriod ⟨s, a, s'⟩) :
    Inv vals (record log ⟨s, a, s'⟩) (gone ++ ((frees ⟨s, a, s'⟩).map s.heap).toList) s' := by
  have hw := h.writer
  cases hstep with
  | read hpc => simpa [record, frees] using h.read _
  | load hpc => simpa [record, frees] using h.load _
  | argVersion hpc => simpa [record, frees] using h.argVersion hpc _
  | argValue hpc => simpa [record, frees] using h.argValue hpc _
  | print hpc => simpa [record, frees, hpc] using h.print hpc
  | @update val todo hpc htodo =>
      simp only [WriterOk, hpc] at hw
      rw [htodo] at hw
      have hval : vals[log.stores]? = some val := by
        rw [← List.head?_drop, ← hw.1]
        rfl
      have hrest : todo = vals.drop (log.stores + 1) := by
        rw [← List.tail_drop, ← hw.1]
        rfl
      have hadvance : Inv vals log gone { s with todo := todo, writer := .load val } :=
        h.advance (by rw [hpc]; rfl) (fun _ _ => by simp [WriterPc.builds]) ⟨⟨hval, hrest⟩, hw.2⟩
      simpa [record, frees] using hadvance
  | @loadOld val junk hpc =>
      simp only [WriterOk, hpc] at hw
      have hadvance : Inv vals log gone { s with writer := .malloc val s.globalData } :=
        h.advance (by rw [hpc]; rfl) (fun _ _ => by simp [WriterPc.builds]) ⟨hw.1, rfl, hw.2⟩
      simpa [record, frees, hpc] using hadvance
  | malloc hpc hfree => simpa [record, frees] using h.malloc hpc hfree _
  | @readOld val version old new junk hpc hversion _ =>
      simp only [WriterOk, hpc] at hw
      rcases h.current_eq with ⟨d, hnode, hheap⟩
      have hnext : version = log.stores + 1 := by
        rw [hversion, hw.old_eq, Memory.load_of_some hheap, version_of_nodeOf hnode]
      have hadvance : Inv vals log gone { s with writer := .storeVersion val old new version } :=
        h.advance (by rw [hpc]; rfl) (fun _ hb => by rwa [hpc] at hb) ⟨hw, hnext⟩
      simpa [record, frees, hpc] using hadvance
  | @storeVersion val version old new junk hpc =>
      simp only [WriterOk, hpc] at hw
      obtain ⟨hbuilding, hversion⟩ := hw
      obtain ⟨x, hx⟩ := Option.isSome_iff_exists.mp ((hbuilding.allocated new).mpr (by simp))
      have hstore : Inv vals log gone { s with
          heap := s.heap.store new fun d => { d with version := version }
          writer := .storeValue val old new } := h.storeNew (by rw [hpc]; rfl) (by rw [hpc]; rfl) rfl
        ⟨⟨hbuilding.toInCall, hbuilding.old_eq, hbuilding.new_ne, hbuilding.allocated.store _⟩,
          x.value, by simp [hx, hversion]⟩
      simpa [record, frees, hpc] using hstore
  | @storeValue val old new junk hpc =>
      simp only [WriterOk, hpc] at hw
      obtain ⟨hbuilding, x, hx⟩ := hw
      have hstore : Inv vals log gone { s with
          heap := s.heap.store new fun d => { d with value := val }
          writer := .publish val old new } := h.storeNew (by rw [hpc]; rfl) (by rw [hpc]; rfl) rfl
        ⟨⟨hbuilding.toInCall, hbuilding.old_eq, hbuilding.new_ne, hbuilding.allocated.store _⟩,
          by simp [hx]⟩
      simpa [record, frees, hpc] using hstore
  | publish hpc => simpa [record, frees, hpc] using h.publish hpc
  | @free val old new junk hpc =>
      have hunheld : ∀ t, (s.reader t).holds ≠ some old := hgrace old (by simp [frees, hpc])
      simpa [record, frees, hpc] using h.free hpc hunheld
  | @printNew val new junk hpc =>
      simp only [WriterOk, hpc] at hw
      have hadvance : Inv vals log gone { s with writer := .idle } :=
        h.advance (by rw [hpc]; rfl) (fun _ _ => by simp [WriterPc.builds]) ⟨hw.1, hw.2.2⟩
      simpa [record, frees, hpc] using hadvance

omit [DecidableEq T] [DecidableEq Addr] in
theorem Inv.accesses (h : Inv vals log gone s) (a : Act T Addr) (s' : State T Addr) :
    AccessesAllocated ⟨s, a, s'⟩ := by
  have hreader : ∀ t, ∀ p ∈ (s.reader t).holds, (s.heap p).isSome := by
    intro t p hp
    cases hpc : s.reader t with
    | args q version value =>
        rw [hpc] at hp
        cases hp
        rcases h.reader t _ _ _ hpc with ⟨k, d, hholding, _, _⟩
        rw [hholding.heap]
        rfl
    | _ =>
        rw [hpc] at hp
        cases hp
  cases a with
  | argVersion t junk => exact hreader t
  | argValue t junk => exact hreader t
  | writer junk => exact h.writer.accesses_allocated
  | _ =>
      intro p hp
      cases hp

omit [DecidableEq Addr] in
theorem logOf_snoc (ts : List (Transition (State T Addr) (Act T Addr)))
    (x : Transition (State T Addr) (Act T Addr)) : logOf (ts ++ [x]) = record (logOf ts) x := by
  simp [logOf]

omit [DecidableEq T] in
theorem Inv.init (node : Addr) :
    Inv vals ⟨0, fun _ => 0, fun _ => []⟩ [] (initState node vals : State T Addr) where
  current := by simp [initState, nodeOf]
  stores_le := Nat.zero_le _
  writer := by
    refine ⟨rfl, ?_⟩
    intro a
    by_cases ha : a = node <;> simp [initState, ha]
  order := rfl
  replaced := rfl
  reader := by
    intro t
    apply ReaderOk.of_not_args
    intro p version value hpc
    cases hpc
  log := by
    refine ⟨fun _ => Nat.zero_le _, ?_, fun _ => List.Pairwise.nil⟩
    intro t pr hpr
    cases hpr

variable {node : Addr} {ts : List (Transition (State T Addr) (Act T Addr))}

theorem Inv.of_runs (hruns : (system node vals).RunsTo (initState node vals) ts s)
    (hgrace : ∀ x ∈ ts, GracePeriod x) :
    Inv vals (logOf ts) (freed ts) s ∧ ∀ x ∈ ts, AccessesAllocated x := by
  apply hruns.history_of _ _ hgrace
  · exact ⟨Inv.init node, by simp⟩
  · rintro ts₁ s₁ a s₂ ⟨hinv, haccesses⟩ hnext hgrace₁
    constructor
    · rw [logOf_snoc, freed, Lts.observed_snoc]
      exact hinv.step (next_cases hnext) hgrace₁
    · rw [List.forall_mem_append, List.forall_mem_singleton]
      exact ⟨haccesses, hinv.accesses a s₂⟩

/-- A reader prints the version and the value of one update, at least as many
updates having been stored before its call, and versions never fall from call
to call; only allocated nodes are accessed; the nodes freed are those replaced,
each once and in order, but for one that is about to be; and when no update is
in progress one node is allocated. -/
theorem readers_print_snapshots (hruns : (system node vals).RunsTo (initState node vals) ts s)
    (hgrace : ∀ x ∈ ts, GracePeriod x) :
    (∀ t, ∀ pr ∈ (logOf ts).prints t, ∃ k : Nat, pr.version = k ∧
      (0 :: vals)[k]? = some pr.value ∧ pr.before ≤ k) ∧
    (∀ t, ((logOf ts).prints t).Pairwise fun pr pr' => pr.version ≤ pr'.version) ∧
    (∀ x ∈ ts, AccessesAllocated x) ∧
    freed ts = (List.range (freed ts).length).map (nodeOf vals) ∧
    (logOf ts).stores = (freed ts).length + s.writer.pending ∧
    (s.writer = .idle → ∃! a, (s.heap a).isSome) := by
  obtain ⟨hinv, haccesses⟩ := Inv.of_runs hruns hgrace
  refine ⟨?_, hinv.log.sorted, haccesses, hinv.order, hinv.replaced, ?_⟩
  · intro t pr hpr
    rcases hinv.log.prints t pr hpr with ⟨k, _, hnode, hbefore⟩
    have hversion := version_of_nodeOf hnode
    unfold nodeOf at hnode
    rcases Option.map_eq_some_iff.mp hnode with ⟨v, hv, heq⟩
    refine ⟨k, hversion, ?_, hbefore⟩
    rw [hv, ← (Data.mk.inj heq).2]
  · intro hidle
    have hwriter := hinv.writer
    simp only [WriterOk, hidle] at hwriter
    refine ⟨s.globalData, (hwriter.2 _).mpr (by simp), ?_⟩
    intro a ha
    simpa using (hwriter.2 a).mp ha

end Model

def blank : Data := ⟨0, 0⟩

/-- An `rcu_update` up to the store to `global_data`. -/
def publishAt (new : Nat) : List (Act Bool Nat) :=
  [.update, .writer blank, .malloc new blank, .writer blank, .writer blank, .writer blank,
    .writer blank]

/-- Two updates, each overtaking a reader; the second node is where the first was. -/
def twoUpdates : List (Act Bool Nat) :=
  [.read false, .load false] ++ publishAt 1 ++
    [.argVersion false blank, .argValue false blank, .print false, .writer blank, .writer blank,
      .read true, .load true] ++ publishAt 0 ++
    [.argValue true blank, .argVersion true blank, .print true, .writer blank, .writer blank,
      .read false, .load false, .argVersion false blank, .argValue false blank, .print false]

theorem readers_print_snapshots_two_updates :
    ∃ ts s, (system 0 [42, 99]).RunsTo (initState 0 [42, 99]) ts s ∧
      ts.map (·.action) = twoUpdates ∧
      (logOf ts).prints false = [⟨0, 0, 0⟩, ⟨2, 2, 99⟩] ∧ (logOf ts).prints true = [⟨1, 1, 42⟩] ∧
      (∀ x ∈ ts, AccessesAllocated x) ∧ ∃! a, (s.heap a).isSome := by
  have htrace : (system 0 [42, 99]).trace (initState 0 [42, 99]) twoUpdates = some (_, _) := rfl
  have hruns := Lts.RunsTo.of_trace htrace
  obtain ⟨_, _, haccesses, _, _, hone⟩ := readers_print_snapshots hruns (by decide)
  exact ⟨_, _, hruns, rfl, rfl, rfl, haccesses, hone rfl⟩

end OsLabs.Rcu
