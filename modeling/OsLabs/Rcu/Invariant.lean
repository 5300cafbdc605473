import OsLabs.Rcu.Steps

/-! # What the published nodes, the writer and the readers say of each other

The node with version `k` is what the `k`-th update publishes. It stays as it is
from then until it is freed, which is after the next one has been published and
while no reader holds it.
-/

namespace OsLabs.Rcu

theorem nodeOf_succ {vals : List Int} {n : Nat} {val : Int} (h : vals[n]? = some val) :
    nodeOf vals (n + 1) = some ⟨n + 1, val⟩ := by
  simp [nodeOf, h]

theorem version_of_nodeOf {vals : List Int} {k : Nat} {d : Data} (h : nodeOf vals k = some d) :
    d.version = k := by
  unfold nodeOf at h
  rcases Option.map_eq_some_iff.mp h with ⟨v, _, rfl⟩
  rfl

/-- The node only the writer knows. -/
def WriterPc.builds {Addr : Type} : WriterPc Addr → Option Addr
  | .readOld _ _ new | .storeVersion _ _ new _ | .storeValue _ _ new | .publish _ _ new => some new
  | .idle | .load _ | .malloc _ _ | .free _ _ _ | .print _ _ => none

/-- Nodes replaced and not freed yet. -/
def WriterPc.pending {Addr : Type} : WriterPc Addr → Nat
  | .free _ _ _ => 1
  | _ => 0

/-! ## Allocated addresses -/

section Allocates

variable {Addr : Type} {heap : Memory Addr Data} {a b : Addr}

def Allocates (heap : Memory Addr Data) (l : List Addr) : Prop := ∀ a, (heap a).isSome ↔ a ∈ l

variable [DecidableEq Addr]

theorem Allocates.alloc (h : Allocates heap [a]) (x : Data) : Allocates (heap.alloc b x) [a, b] := by
  intro c
  by_cases hc : c = b
  · simp [hc]
  · rw [Memory.alloc_of_ne hc, h c]
    simp [hc]

theorem Allocates.store {l : List Addr} (h : Allocates heap l) (f : Data → Data) :
    Allocates (heap.store b f) l := by
  intro c
  by_cases hc : c = b
  · rw [hc, Memory.store_self, Option.isSome_map, h b]
  · rw [Memory.store_of_ne hc, h c]

theorem Allocates.free (h : Allocates heap [b, a]) (hne : b ≠ a) : Allocates (heap.free b) [a] := by
  intro c
  by_cases hc : c = b
  · simp [hc, hne]
  · rw [Memory.free_of_ne hc, h c]
    simp [hc]

end Allocates

section Model

variable {T Addr : Type} {vals : List Int} {n : Nat} {s s' : State T Addr}

/-! ## The writer -/

/-- The writer is in the call with the value after the first `n`. -/
structure InCall (vals : List Int) (n : Nat) (todo : List Int) (val : Int) : Prop where
  val : vals[n]? = some val
  todo : todo = vals.drop (n + 1)

/-- It has allocated the node to come. -/
structure Building (vals : List Int) (n : Nat) (todo : List Int) (heap : Memory Addr Data)
    (globalData : Addr) (val : Int) (old new : Addr) : Prop extends InCall vals n todo val where
  old_eq : old = globalData
  new_ne : new ≠ globalData
  allocated : Allocates heap [globalData, new]

def WriterOk (vals : List Int) (n : Nat) (s : State T Addr) : Prop :=
  match s.writer with
  | .idle => s.todo = vals.drop n ∧ Allocates s.heap [s.globalData]
  | .load val => InCall vals n s.todo val ∧ Allocates s.heap [s.globalData]
  | .malloc val old => InCall vals n s.todo val ∧ old = s.globalData ∧ Allocates s.heap [s.globalData]
  | .readOld val old new => Building vals n s.todo s.heap s.globalData val old new
  | .storeVersion val old new version =>
      Building vals n s.todo s.heap s.globalData val old new ∧ version = n + 1
  | .storeValue val old new =>
      Building vals n s.todo s.heap s.globalData val old new ∧ ∃ x, s.heap new = some ⟨n + 1, x⟩
  | .publish val old new =>
      Building vals n s.todo s.heap s.globalData val old new ∧ s.heap new = some ⟨n + 1, val⟩
  | .free _ old new =>
      s.todo = vals.drop n ∧ new = s.globalData ∧ old ≠ s.globalData ∧
        Allocates s.heap [old, s.globalData] ∧ s.heap old = nodeOf vals (n - 1)
  | .print _ new =>
      s.todo = vals.drop n ∧ new = s.globalData ∧ Allocates s.heap [s.globalData]

/-- The node under construction is not the one published. -/
theorem WriterOk.builds_ne (h : WriterOk vals n s) : s.writer.builds ≠ some s.globalData := by
  unfold WriterOk at h
  intro hbuilds
  cases hpc : s.writer <;> simp only [hpc, WriterPc.builds] at h hbuilds <;> cases hbuilds
  · exact h.new_ne rfl
  · exact h.1.new_ne rfl
  · exact h.1.new_ne rfl
  · exact h.1.new_ne rfl

theorem WriterOk.accesses_allocated (h : WriterOk vals n s) :
    ∀ a ∈ s.writer.accesses, (s.heap a).isSome := by
  unfold WriterOk at h
  intro a ha
  cases hpc : s.writer <;> simp only [hpc, WriterPc.accesses] at h ha <;> cases ha
  · exact (h.allocated _).mpr (by simp [h.old_eq])
  · exact (h.1.allocated _).mpr (by simp)
  · exact (h.1.allocated _).mpr (by simp)
  · exact (h.2.2.2.1 _).mpr (by simp)
  · exact (h.2.2 _).mpr (by simp [h.2.1])

/-! ## The readers -/

variable {log log' : Log T} {t : T}

/-- The reader has loaded the node with version `k`, and `d` is in it. -/
structure Holding (vals : List Int) (log : Log T) (s : State T Addr) (t : T) (p : Addr) (k : Nat)
    (d : Data) : Prop where
  node : nodeOf vals k = some d
  heap : s.heap p = some d
  notBuilt : s.writer.builds ≠ some p
  before : log.before t ≤ k
  le : k ≤ log.stores
  last : ∀ pr ∈ log.prints t, pr.version ≤ k

def ReaderOk (vals : List Int) (log : Log T) (s : State T Addr) (t : T) : Prop :=
  ∀ p version value, s.reader t = .args p version value →
    ∃ k d, Holding vals log s t p k d ∧ (∀ x ∈ version, x = d.version) ∧ ∀ y ∈ value, y = d.value

theorem ReaderOk.of_not_args (h : ∀ p version value, s.reader t ≠ .args p version value) :
    ReaderOk vals log s t := fun p version value hpc => absurd hpc (h p version value)

/-- A step that leaves alone the reader and the node it holds. -/
theorem ReaderOk.frame (h : ReaderOk vals log s t) (hreader : s'.reader t = s.reader t)
    (hbefore : log'.before t = log.before t) (hprints : log'.prints t = log.prints t)
    (hstores : log.stores ≤ log'.stores)
    (hkeep : ∀ p d, (s.reader t).holds = some p → s.writer.builds ≠ some p → s.heap p = some d →
      s'.heap p = some d ∧ s'.writer.builds ≠ some p) : ReaderOk vals log' s' t := by
  intro p version value hpc
  rw [hreader] at hpc
  rcases h p version value hpc with ⟨k, d, hholding, hversion, hvalue⟩
  have hkept := hkeep p d (by rw [hpc]; rfl) hholding.notBuilt hholding.heap
  refine ⟨k, d, ⟨hholding.node, hkept.1, hkept.2, ?_, ?_, ?_⟩, hversion, hvalue⟩
  · rw [hbefore]
    exact hholding.before
  · exact Nat.le_trans hholding.le hstores
  · rw [hprints]
    exact hholding.last

/-! ## What was printed -/

structure LogOk (vals : List Int) (log : Log T) : Prop where
  before : ∀ t, log.before t ≤ log.stores
  prints : ∀ t, ∀ pr ∈ log.prints t, ∃ k, k ≤ log.stores ∧
    nodeOf vals k = some ⟨pr.version, pr.value⟩ ∧ pr.before ≤ k
  sorted : ∀ t, (log.prints t).Pairwise fun pr pr' => pr.version ≤ pr'.version

theorem LogOk.last (h : LogOk vals log) : ∀ pr ∈ log.prints t, pr.version ≤ log.stores := by
  intro pr hpr
  rcases h.prints t pr hpr with ⟨k, hk, hnode, _⟩
  have hversion := version_of_nodeOf hnode
  simp only at hversion
  omega

theorem LogOk.stores (h : LogOk vals log) : LogOk vals { log with stores := log.stores + 1 } := by
  refine ⟨fun t => Nat.le_succ_of_le (h.before t), ?_, h.sorted⟩
  intro t pr hpr
  rcases h.prints t pr hpr with ⟨k, hk, hnode, hbefore⟩
  exact ⟨k, Nat.le_succ_of_le hk, hnode, hbefore⟩

variable [DecidableEq T]

theorem LogOk.called (h : LogOk vals log) (t : T) :
    LogOk vals { log with before := Function.update log.before t log.stores } := by
  refine ⟨?_, h.prints, h.sorted⟩
  intro u
  by_cases hu : u = t
  · simp [hu]
  · simpa [hu] using h.before u

theorem LogOk.printed (h : LogOk vals log) {p : Addr} {k : Nat} {d : Data}
    (hholding : Holding vals log s t p k d) :
    LogOk vals { log with
      prints := Function.update log.prints t
        (log.prints t ++ [⟨log.before t, d.version, d.value⟩]) } := by
  refine ⟨h.before, ?_, ?_⟩
  · intro u pr hpr
    by_cases hu : u = t
    · simp only [hu, Function.update_self, List.mem_append, List.mem_singleton] at hpr
      rcases hpr with hold | rfl
      · exact h.prints t pr hold
      · exact ⟨k, hholding.le, hholding.node, hholding.before⟩
    · simp only [Function.update_of_ne hu] at hpr
      exact h.prints u pr hpr
  · intro u
    by_cases hu : u = t
    · simp only [hu, Function.update_self]
      rw [List.pairwise_append]
      refine ⟨h.sorted t, List.pairwise_singleton _ _, ?_⟩
      intro pr hpr pr' hpr'
      rw [List.mem_singleton.mp hpr', version_of_nodeOf hholding.node]
      exact hholding.last pr hpr
    · simp only [Function.update_of_ne hu]
      exact h.sorted u

/-! ## All together -/

structure Inv (vals : List Int) (log : Log T) (frees : List (Option Data)) (s : State T Addr) :
    Prop where
  current : s.heap s.globalData = nodeOf vals log.stores
  stores_le : log.stores ≤ vals.length
  writer : WriterOk vals log.stores s
  order : frees = (List.range frees.length).map (nodeOf vals)
  replaced : log.stores = frees.length + s.writer.pending
  reader : ∀ t, ReaderOk vals log s t
  log : LogOk vals log

variable {frees : List (Option Data)}

omit [DecidableEq T] in
theorem Inv.current_eq (h : Inv vals log frees s) :
    ∃ d, nodeOf vals log.stores = some d ∧ s.heap s.globalData = some d := by
  have hlt : log.stores < (0 :: vals).length := Nat.lt_succ_of_le h.stores_le
  refine ⟨⟨log.stores, (0 :: vals)[log.stores]⟩, ?_, ?_⟩
  · simp only [nodeOf, List.getElem?_eq_getElem hlt, Option.map_some]
  · rw [h.current]
    simp only [nodeOf, List.getElem?_eq_getElem hlt, Option.map_some]

/-- A step of reader `t`, which ends where `hself` says. -/
theorem Inv.setReader (h : Inv vals log frees s) {pc : ReaderPc Addr} {log' : Log T}
    (hstores : log'.stores = log.stores) (hlog : LogOk vals log')
    (hbefore : ∀ u, u ≠ t → log'.before u = log.before u)
    (hprints : ∀ u, u ≠ t → log'.prints u = log.prints u)
    (hself : ReaderOk vals log' (s.setReader t pc) t) :
    Inv vals log' frees (s.setReader t pc) where
  current := by
    rw [hstores]
    exact h.current
  stores_le := by
    rw [hstores]
    exact h.stores_le
  writer := by
    rw [hstores]
    exact h.writer
  order := h.order
  replaced := by
    rw [hstores]
    exact h.replaced
  reader := by
    intro u
    by_cases hu : u = t
    · rw [hu]
      exact hself
    · apply (h.reader u).frame _ (hbefore u hu) (hprints u hu) (Nat.le_of_eq hstores.symm)
      · intro p d _ hbuilds hheap
        exact ⟨hheap, hbuilds⟩
      · simp [State.setReader, hu]
  log := hlog

omit [DecidableEq T] in
/-- A step of the writer that publishes nothing. -/
theorem Inv.setWriter (h : Inv vals log frees s) {heap : Memory Addr Data} {todo : List Int}
    {pc : WriterPc Addr} {freed : Option (Option Data)}
    (hfreed : ∀ x ∈ freed, x = nodeOf vals frees.length)
    (hreplaced : log.stores = (frees ++ freed.toList).length + pc.pending)
    (hcurrent : heap s.globalData = s.heap s.globalData)
    (hkeep : ∀ t p d, (s.reader t).holds = some p → s.writer.builds ≠ some p → s.heap p = some d →
      heap p = some d ∧ pc.builds ≠ some p)
    (hwriter : WriterOk vals log.stores { s with heap := heap, todo := todo, writer := pc }) :
    Inv vals log (frees ++ freed.toList) { s with heap := heap, todo := todo, writer := pc } where
  current := hcurrent.trans h.current
  stores_le := h.stores_le
  writer := hwriter
  order := by
    cases freed with
    | none => simpa using h.order
    | some x =>
        have hx := hfreed x rfl
        rw [Option.toList_some, List.length_append, List.length_singleton, List.range_succ,
          List.map_append, ← h.order, hx]
        rfl
  replaced := hreplaced
  reader := fun t => (h.reader t).frame rfl rfl rfl (Nat.le_refl _) (hkeep t)
  log := h.log

end Model

end OsLabs.Rcu
