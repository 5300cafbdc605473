import OsLabs.Core.Fifo
import OsLabs.Mpmc.Accounts

/-! # The ring holds the values written and not yet read

The holder of the mutex finds the counters and the indices even with the stores
and loads made. So the `j`-th store puts `j` into slot `j % BUFSIZE`, which the
`j`-th load reads, and the permits keep the two less than a turn apart.
-/

namespace OsLabs.Mpmc

open Threads CInt

section Model

variable {P C : Type} {iters : P ⊕ C → Nat} {bufSize : Nat} {s s' : State P C}
  {ts : List (Transition (State P C) (Act P C))} {a : Act P C}

/-! ## What the holder of the mutex finds -/

theorem MutexOk.prod_other (h : MutexOk s) {p : P} (hp : (s.prod p).holds = true) {q : P}
    (hq : q ≠ p) : (s.prod q).holds = false :=
  h.other (t := Sum.inl p) hp fun heq => hq (Sum.inl.inj heq)

theorem MutexOk.cons_other (h : MutexOk s) {c : C} (hc : (s.cons c).holds = true) {d : C}
    (hd : d ≠ c) : (s.cons d).holds = false :=
  h.other (t := Sum.inr c) hc fun heq => hd (Sum.inr.inj heq)

section Holder

variable [Fintype P] [Fintype C] [DecidableEq P] [DecidableEq C]

omit [DecidableEq C] in
theorem Accounts.drawn (h : Accounts bufSize s) (hmutex : MutexOk s) {p : P} {i : Nat}
    (hpc : s.prod p = .fetchAdd i) : s.totalProduced = wrap 32 s.written := by
  have hothers : ∀ q, q ≠ p → (s.prod q).adds = (s.prod q).stores := fun q hq =>
    (ProdPc.even_of_not_holds (hmutex.prod_other (by rw [hpc]; rfl) hq)).1
  have heven := total_add_of_others hothers
  rw [hpc] at heven
  rw [h.produced, Nat.add_right_cancel heven]
  rfl

omit [DecidableEq C] in
theorem Accounts.inI_eq (h : Accounts bufSize s) (hmutex : MutexOk s) {p : P} {i : Nat} {val : Int}
    (hpc : s.prod p = .store i val) : s.inI = s.written % bufSize := by
  have hothers : ∀ q, q ≠ p → (s.prod q).advances = (s.prod q).stores := fun q hq =>
    (ProdPc.even_of_not_holds (hmutex.prod_other (by rw [hpc]; rfl) hq)).2
  have heven := total_add_of_others hothers
  rw [hpc] at heven
  rw [h.inI, Nat.add_right_cancel heven]
  rfl

omit [DecidableEq P] in
theorem Accounts.outI_eq (h : Accounts bufSize s) (hmutex : MutexOk s) {c : C} {i : Nat}
    (hpc : s.cons c = .load i) : s.outI = s.read % bufSize := by
  have hothers : ∀ d, d ≠ c → (s.cons d).advances = (s.cons d).loads := fun d hd =>
    ConsPc.even_of_not_holds (hmutex.cons_other (by rw [hpc]; rfl) hd)
  have heven := total_add_of_others hothers
  rw [hpc] at heven
  rw [h.outI, Nat.add_right_cancel heven]
  rfl

end Holder

/-! ## The values in the ring -/

/-- The ring and the history, with `written` and `read` counting the stores and
loads made. -/
structure Values (bufSize : Nat) (ts : List (Transition (State P C) (Act P C))) (s : State P C)
    (written read : Nat) : Prop where
  drawn : ∀ p i val, s.prod p = .store i val → val = wrap 32 written
  slots : ∀ j, read ≤ j → j < written → s.buffer (j % bufSize) = wrap 32 j
  order : consumed ts = (List.range read).map fun j : Nat => wrap 32 j
  marks : ∀ k, unread ts k = true ↔ ∃ j, read ≤ j ∧ j < written ∧ j % bufSize = k

variable {written read : Nat}

theorem Values.init : Values bufSize [] (initState bufSize : State P C) 0 0 := by
  constructor
  · intro p i val hpc
    cases hpc
  · intro j _ hj
    omega
  · rfl
  · intro k
    simp [unread]

theorem unread_snoc (ts : List (Transition (State P C) (Act P C)))
    (x : Transition (State P C) (Act P C)) : unread (ts ++ [x]) = markSlot (unread ts) x := by
  simp [unread]

theorem markSlot_of_stores {unread : Nat → Bool} {x : Transition (State P C) (Act P C)} {k : Nat}
    (h : storesSlot x = some k) : markSlot unread x = Function.update unread k true := by
  simp [markSlot, h]

theorem markSlot_of_loads {unread : Nat → Bool} {x : Transition (State P C) (Act P C)} {k : Nat}
    (hstores : storesSlot x = none) (h : loadsSlot x = some k) :
    markSlot unread x = Function.update unread k false := by
  simp [markSlot, hstores, h]

theorem Values.quiet (h : Values bufSize ts s written read)
    (hstores : storesSlot ⟨s, a, s'⟩ = none) (hloads : loadsSlot ⟨s, a, s'⟩ = none)
    (hbuffer : s'.buffer = s.buffer)
    (hdrawn : ∀ p i val, s'.prod p = .store i val → val = wrap 32 written) :
    Values bufSize (ts ++ [⟨s, a, s'⟩]) s' written read := by
  constructor
  · exact hdrawn
  · rw [hbuffer]
    exact h.slots
  · rw [consumed, Lts.observed_snoc_none _ (by rw [hloads]; rfl)]
    exact h.order
  · intro k
    rw [unread_snoc, markSlot, hstores, hloads]
    exact h.marks k

/-- The slot of a value is not the slot of the values less than a turn before it. -/
theorem slot_ne {j n : Nat} (hlt : j < n) (hturn : n < bufSize + j) : j % bufSize ≠ n % bufSize := by
  have hne : (j + 0) % bufSize ≠ (j + (n - j)) % bufSize := Fifo.index_ne (by omega) (by omega)
  rwa [Nat.add_zero, Nat.add_sub_cancel' (Nat.le_of_lt hlt)] at hne

theorem Values.store (h : Values bufSize ts s written read) (hle : read ≤ written)
    (hroom : written < bufSize + read) (hstores : storesSlot ⟨s, a, s'⟩ = some (written % bufSize))
    (hloads : loadsSlot ⟨s, a, s'⟩ = none)
    (hbuffer : s'.buffer = Function.update s.buffer (written % bufSize) (wrap 32 written))
    (hdrawn : ∀ p i val, s'.prod p ≠ .store i val) :
    unread ts (written % bufSize) = false ∧
      Values bufSize (ts ++ [⟨s, a, s'⟩]) s' (written + 1) read := by
  constructor
  · rw [Bool.eq_false_iff]
    intro hmarked
    obtain ⟨j, hle, hlt, hslot⟩ := (h.marks _).mp hmarked
    exact slot_ne hlt (by omega) hslot
  constructor
  · intro p i val hpc
    exact absurd hpc (hdrawn p i val)
  · intro j hle hlt
    rw [hbuffer]
    by_cases hj : j = written
    · rw [hj, Function.update_self]
    · rw [Function.update_of_ne (slot_ne (by omega) (by omega))]
      exact h.slots j hle (by omega)
  · rw [consumed, Lts.observed_snoc_none _ (by rw [hloads]; rfl)]
    exact h.order
  · intro k
    rw [unread_snoc, markSlot_of_stores hstores]
    by_cases hk : k = written % bufSize
    · subst hk
      rw [Function.update_self]
      exact ⟨fun _ => ⟨written, hle, Nat.lt_succ_self _, rfl⟩, fun _ => rfl⟩
    · rw [Function.update_of_ne hk, h.marks k]
      constructor
      · rintro ⟨j, hle, hlt, hslot⟩
        exact ⟨j, hle, by omega, hslot⟩
      · rintro ⟨j, hle, hlt, hslot⟩
        have hj : j ≠ written := fun heq => hk (by rw [← hslot, heq])
        exact ⟨j, hle, by omega, hslot⟩

theorem Values.load (h : Values bufSize ts s written read) (hitem : read < written)
    (hturn : written ≤ bufSize + read) (hstores : storesSlot ⟨s, a, s'⟩ = none)
    (hloads : loadsSlot ⟨s, a, s'⟩ = some (read % bufSize)) (hbuffer : s'.buffer = s.buffer)
    (hprod : s'.prod = s.prod) :
    unread ts (read % bufSize) = true ∧
      Values bufSize (ts ++ [⟨s, a, s'⟩]) s' written (read + 1) := by
  constructor
  · exact (h.marks _).mpr ⟨read, Nat.le_refl _, hitem, rfl⟩
  constructor
  · rw [hprod]
    exact h.drawn
  · intro j hle hlt
    rw [hbuffer]
    exact h.slots j (by omega) hlt
  · have hvalue : s.buffer (read % bufSize) = wrap 32 read := h.slots read (Nat.le_refl _) hitem
    have hobserved : (loadsSlot ⟨s, a, s'⟩).map s.buffer = some (wrap 32 read) := by
      rw [hloads, ← hvalue]
      rfl
    rw [consumed, Lts.observed_snoc_some _ hobserved, List.range_succ, List.map_append]
    exact congrArg (· ++ [wrap 32 read]) h.order
  · intro k
    rw [unread_snoc, markSlot_of_loads hstores hloads]
    by_cases hk : k = read % bufSize
    · subst hk
      rw [Function.update_self]
      constructor
      · intro hfalse
        cases hfalse
      · rintro ⟨j, hle, hlt, hslot⟩
        exact absurd hslot.symm (slot_ne (by omega) (by omega))
    · rw [Function.update_of_ne hk, h.marks k]
      constructor
      · rintro ⟨j, hle, hlt, hslot⟩
        have hj : j ≠ read := fun heq => hk (by rw [← hslot, heq])
        exact ⟨j, by omega, hlt, hslot⟩
      · rintro ⟨j, hle, hlt, hslot⟩
        exact ⟨j, by omega, hlt, hslot⟩

/-- A step that is neither a store nor a load respects the slots. -/
theorem RespectsSlots.of_none {x : Transition (State P C) (Act P C)} (hstores : storesSlot x = none)
    (hloads : loadsSlot x = none) : RespectsSlots ts x := by
  constructor <;> intro k hk
  · rw [hstores] at hk
    cases hk
  · rw [hloads] at hk
    cases hk

/-! ## Every run keeps the ring -/

variable [Fintype P] [Fintype C]

structure RingInv (bufSize : Nat) (ts : List (Transition (State P C) (Act P C)))
    (s : State P C) : Prop where
  mutex : MutexOk s
  accounts : Accounts bufSize s
  values : Values bufSize ts s s.written s.read

theorem RingInv.init : RingInv bufSize [] (initState bufSize : State P C) := by
  have hwritten : (initState bufSize : State P C).written = 0 := total_const fun _ => rfl
  have hread : (initState bufSize : State P C).read = 0 := total_const fun _ => rfl
  refine ⟨MutexOk.init, Accounts.init, ?_⟩
  rw [hwritten, hread]
  exact Values.init

/-- A producer that moves to any point but its store. -/
theorem Values.moveProd [DecidableEq P] (h : Values bufSize ts s s.written s.read) {p : P} {pc : ProdPc}
    {s₁ : State P C} (hstores : pc.stores = (s.prod p).stores)
    (hquiet : storesSlot ⟨s, .prod p, s₁.setProd p pc⟩ = none) (hbuffer : s₁.buffer = s.buffer)
    (hprod : s₁.prod = s.prod) (hcons : s₁.cons = s.cons)
    (hpc : ∀ i val, pc = .store i val → val = wrap 32 s.written) :
    Values bufSize (ts ++ [⟨s, .prod p, s₁.setProd p pc⟩]) (s₁.setProd p pc)
      (s₁.setProd p pc).written (s₁.setProd p pc).read := by
  have hwritten : (s₁.setProd p pc).written = s.written := by
    show total ProdPc.stores (Function.update s₁.prod p pc) = _
    rw [hprod]
    exact total_keep hstores
  have hread : (s₁.setProd p pc).read = s.read := by
    show total ConsPc.loads s₁.cons = _
    rw [hcons]
    rfl
  rw [hwritten, hread]
  apply h.quiet hquiet rfl hbuffer
  intro q i val hq
  have hmoved : Function.update s.prod p pc q = .store i val := by
    rw [← hprod]
    exact hq
  by_cases hqp : q = p
  · rw [hqp, Function.update_self] at hmoved
    exact hpc i val hmoved
  · rw [Function.update_of_ne hqp] at hmoved
    exact h.drawn q i val hmoved

theorem Values.moveCons [DecidableEq C] (h : Values bufSize ts s s.written s.read) {c : C} {pc : ConsPc}
    {s₁ : State P C} (hloads : pc.loads = (s.cons c).loads)
    (hquiet : loadsSlot ⟨s, .cons c, s₁.setCons c pc⟩ = none) (hbuffer : s₁.buffer = s.buffer)
    (hprod : s₁.prod = s.prod) (hcons : s₁.cons = s.cons) :
    Values bufSize (ts ++ [⟨s, .cons c, s₁.setCons c pc⟩]) (s₁.setCons c pc)
      (s₁.setCons c pc).written (s₁.setCons c pc).read := by
  have hwritten : (s₁.setCons c pc).written = s.written := by
    show total ProdPc.stores s₁.prod = _
    rw [hprod]
    rfl
  have hread : (s₁.setCons c pc).read = s.read := by
    show total ConsPc.loads (Function.update s₁.cons c pc) = _
    rw [hcons]
    exact total_keep hloads
  rw [hwritten, hread]
  apply h.quiet rfl hquiet hbuffer
  intro p i val hp
  apply h.drawn p i val
  rw [← hprod]
  exact hp

theorem RingInv.prodValues [DecidableEq P] (h : RingInv bufSize ts s) {p : P}
    (hstep : ProdStep iters bufSize s p s') :
    RespectsSlots ts ⟨s, .prod p, s'⟩ ∧
      Values bufSize (ts ++ [⟨s, .prod p, s'⟩]) s' s'.written s'.read := by
  cases hstep with
  | @stores i val hpc =>
      have hroom := h.accounts.room (p := p) (by rw [hpc]; exact Nat.lt_succ_self i)
      have hslot := h.accounts.inI_eq h.mutex hpc
      have hval := h.values.drawn p i val hpc
      have hstores : storesSlot ⟨s, .prod p, { s with
          buffer := Function.update s.buffer s.inI val }.setProd p (.advance i val)⟩ =
          some (s.written % bufSize) := by
        simp only [storesSlot, hpc, hslot]
      have hwritten : total ProdPc.stores (Function.update s.prod p (.advance i val)) =
          s.written + 1 := total_succ (by rw [hpc]; rfl)
      have hdrawn : ∀ q j v, Function.update s.prod p (.advance i val) q ≠ .store j v := by
        intro q j v hq
        by_cases hqp : q = p
        · rw [hqp, Function.update_self] at hq
          cases hq
        · rw [Function.update_of_ne hqp] at hq
          have hfree := h.mutex.prod_other (p := p) (by rw [hpc]; rfl) hqp
          rw [hq] at hfree
          cases hfree
      have hstored := h.values.store h.accounts.read_le_written hroom hstores rfl
        (by rw [← hslot, ← hval]; rfl) hdrawn
      constructor
      · constructor <;> intro k hk
        · rw [hstores] at hk
          exact Option.some.inj hk ▸ hstored.1
        · cases hk
      · show Values bufSize _ _ (total ProdPc.stores (Function.update s.prod p _)) s.read
        rw [hwritten]
        exact hstored.2
  | @adds i hpc =>
      have hquiet : storesSlot ⟨s, .prod p, { s with
          totalProduced := fetchAndAdd s.totalProduced }.setProd p (.store i s.totalProduced)⟩ =
          none := by
        simp only [storesSlot, hpc]
      refine ⟨.of_none hquiet rfl, h.values.moveProd (by rw [hpc]; rfl) hquiet rfl rfl rfl ?_⟩
      intro j val heq
      cases heq
      exact h.accounts.drawn h.mutex hpc
  | goes hpc _ _ | returns hpc _ | waits hpc _ | locks hpc _ | advances hpc | prints hpc
  | unlocks hpc | posts hpc =>
      have hquiet : ∀ s₁ : State P C, storesSlot ⟨s, .prod p, s₁⟩ = none := by
        intro s₁
        simp only [storesSlot, hpc]
      refine ⟨.of_none (hquiet _) rfl,
        h.values.moveProd (by rw [hpc]; rfl) (hquiet _) rfl rfl rfl ?_⟩
      intro j val heq
      cases heq

theorem RingInv.consValues [DecidableEq C] (h : RingInv bufSize ts s) {c : C}
    (hstep : ConsStep iters bufSize s c s') :
    RespectsSlots ts ⟨s, .cons c, s'⟩ ∧
      Values bufSize (ts ++ [⟨s, .cons c, s'⟩]) s' s'.written s'.read := by
  cases hstep with
  | @loads i hpc =>
      have hitem := h.accounts.item (c := c) (by rw [hpc]; exact Nat.lt_succ_self i)
      have hloads : loadsSlot ⟨s, .cons c, s.setCons c (.advance i s.front)⟩ =
          some (s.read % bufSize) := by
        simp only [loadsSlot, hpc, h.accounts.outI_eq h.mutex hpc]
      have hread : total ConsPc.loads (Function.update s.cons c (.advance i s.front)) =
          s.read + 1 := total_succ (by rw [hpc]; rfl)
      have hloaded := h.values.load hitem h.accounts.written_le rfl hloads rfl rfl
      constructor
      · constructor <;> intro k hk
        · cases hk
        · rw [hloads] at hk
          exact Option.some.inj hk ▸ hloaded.1
      · show Values bufSize _ _ s.written (total ConsPc.loads (Function.update s.cons c _))
        rw [hread]
        exact hloaded.2
  | goes hpc _ _ | returns hpc _ | waits hpc _ | locks hpc _ | advances hpc | adds hpc | prints hpc
  | unlocks hpc | posts hpc =>
      have hquiet : ∀ s₁ : State P C, loadsSlot ⟨s, .cons c, s₁⟩ = none := by
        intro s₁
        simp only [loadsSlot, hpc]
      exact ⟨.of_none rfl (hquiet _),
        h.values.moveCons (by rw [hpc]; rfl) (hquiet _) rfl rfl rfl⟩

variable [DecidableEq P] [DecidableEq C]

theorem RingInv.step (h : RingInv bufSize ts s) (hnext : next iters bufSize s a = some s') :
    RespectsSlots ts ⟨s, a, s'⟩ ∧ RingInv bufSize (ts ++ [⟨s, a, s'⟩]) s' := by
  cases a with
  | prod p =>
      have hstep := prodNext_cases hnext
      have hvalues := h.prodValues hstep
      exact ⟨hvalues.1, h.mutex.prodStep hstep, h.accounts.prodStep hstep, hvalues.2⟩
  | cons c =>
      have hstep := consNext_cases hnext
      have hvalues := h.consValues hstep
      exact ⟨hvalues.1, h.mutex.consStep hstep, h.accounts.consStep hstep, hvalues.2⟩

theorem RingInv.of_runs (h : (system iters bufSize).RunsTo (initState bufSize) ts s) :
    RingInv bufSize ts s :=
  h.history RingInv.init fun _ _ _ _ _ hinv hnext => (hinv.step hnext).2

end Model

end OsLabs.Mpmc
