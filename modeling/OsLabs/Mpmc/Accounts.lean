import OsLabs.Mpmc.Steps

/-! # What the threads have done, and what the shared variables say of it

Each semaphore, index and counter is the account of one kind of operation,
summed over the threads. A step changes both sides alike.
-/

namespace OsLabs.Mpmc

open Threads CInt

/-! ## Operations of one thread -/

namespace ProdPc

/-- `sem_wait` calls that have returned. -/
def waits : ProdPc → Nat
  | .loop i | .semWait i | .returned i => i
  | .lock i | .fetchAdd i | .store i _ | .advance i _ | .print i _ | .unlock i | .semPost i => i + 1

def adds : ProdPc → Nat
  | .loop i | .semWait i | .returned i | .lock i | .fetchAdd i => i
  | .store i _ | .advance i _ | .print i _ | .unlock i | .semPost i => i + 1

def stores : ProdPc → Nat
  | .loop i | .semWait i | .returned i | .lock i | .fetchAdd i | .store i _ => i
  | .advance i _ | .print i _ | .unlock i | .semPost i => i + 1

def advances : ProdPc → Nat
  | .loop i | .semWait i | .returned i | .lock i | .fetchAdd i | .store i _ | .advance i _ => i
  | .print i _ | .unlock i | .semPost i => i + 1

def posts : ProdPc → Nat
  | .loop i | .semWait i | .returned i | .lock i | .fetchAdd i | .store i _ | .advance i _
  | .print i _ | .unlock i | .semPost i => i

theorem posts_le_stores (pc : ProdPc) : pc.posts ≤ pc.stores := by
  cases pc <;> simp [posts, stores]

theorem stores_le_waits (pc : ProdPc) : pc.stores ≤ pc.waits := by
  cases pc <;> simp [stores, waits]

theorem waits_eq (pc : ProdPc) : pc.waits = pc.posts + pc.inside.toNat := by
  cases pc <;> rfl

/-- Outside the critical section the three are even. -/
theorem even_of_not_holds {pc : ProdPc} (h : pc.holds = false) :
    pc.adds = pc.stores ∧ pc.advances = pc.stores := by
  cases pc <;> first | exact ⟨rfl, rfl⟩ | cases h

end ProdPc

namespace ConsPc

def waits : ConsPc → Nat
  | .loop i | .semWait i | .returned i => i
  | .lock i | .load i | .advance i _ | .fetchAdd i _ | .print i _ | .unlock i | .semPost i => i + 1

def loads : ConsPc → Nat
  | .loop i | .semWait i | .returned i | .lock i | .load i => i
  | .advance i _ | .fetchAdd i _ | .print i _ | .unlock i | .semPost i => i + 1

def advances : ConsPc → Nat
  | .loop i | .semWait i | .returned i | .lock i | .load i | .advance i _ => i
  | .fetchAdd i _ | .print i _ | .unlock i | .semPost i => i + 1

def adds : ConsPc → Nat
  | .loop i | .semWait i | .returned i | .lock i | .load i | .advance i _ | .fetchAdd i _ => i
  | .print i _ | .unlock i | .semPost i => i + 1

def posts : ConsPc → Nat
  | .loop i | .semWait i | .returned i | .lock i | .load i | .advance i _ | .fetchAdd i _
  | .print i _ | .unlock i | .semPost i => i

theorem posts_le_loads (pc : ConsPc) : pc.posts ≤ pc.loads := by
  cases pc <;> simp [posts, loads]

theorem loads_le_waits (pc : ConsPc) : pc.loads ≤ pc.waits := by
  cases pc <;> simp [loads, waits]

theorem waits_eq (pc : ConsPc) : pc.waits = pc.posts + pc.inside.toNat := by
  cases pc <;> rfl

theorem even_of_not_holds {pc : ConsPc} (h : pc.holds = false) : pc.advances = pc.loads := by
  cases pc <;> first | rfl | cases h

end ConsPc

/-! ## The accounts -/

section Model

variable {P C : Type}

/-- Values stored so far. -/
def State.written [Fintype P] (s : State P C) : Nat := total ProdPc.stores s.prod

/-- Values loaded so far. -/
def State.read [Fintype C] (s : State P C) : Nat := total ConsPc.loads s.cons

structure Accounts [Fintype P] [Fintype C] (bufSize : Nat) (s : State P C) : Prop where
  empty : s.emptySlots + total ProdPc.waits s.prod = bufSize + total ConsPc.posts s.cons
  full : s.fullSlots + total ConsPc.waits s.cons = total ProdPc.posts s.prod
  produced : s.totalProduced = wrap 32 (total ProdPc.adds s.prod : Nat)
  inI : s.inI = total ProdPc.advances s.prod % bufSize
  consumed : s.totalConsumed = wrap 32 (total ConsPc.adds s.cons : Nat)
  outI : s.outI = total ConsPc.advances s.cons % bufSize

variable {iters : P ⊕ C → Nat} {bufSize : Nat} {s s' : State P C}

theorem Accounts.init [Fintype P] [Fintype C] : Accounts bufSize (initState bufSize : State P C) := by
  constructor <;>
    simp [initState, total, wrap, ProdPc.waits, ProdPc.posts, ProdPc.adds, ProdPc.advances,
      ConsPc.waits, ConsPc.posts, ConsPc.adds, ConsPc.advances]

theorem fetchAndAdd_wrap (n : Nat) : fetchAndAdd (wrap 32 n) = wrap 32 (n + 1 : Nat) := by
  rw [fetchAndAdd, wrap_wrap_add]
  norm_cast

section Producers

variable [Fintype P] [DecidableEq P] {p : P}

theorem ProdStep.empty (h : ProdStep iters bufSize s p s') :
    s'.emptySlots + total ProdPc.waits s'.prod = s.emptySlots + total ProdPc.waits s.prod := by
  cases h with
  | @waits i hpc hfree =>
      have hsucc : total ProdPc.waits (Function.update s.prod p (.lock i)) =
          total ProdPc.waits s.prod + 1 := total_succ (by rw [hpc]; rfl)
      show s.emptySlots - 1 + total ProdPc.waits (Function.update s.prod p (.lock i)) = _
      omega
  | goes hpc _ _ | returns hpc _ | locks hpc _ | adds hpc | stores hpc | advances hpc | prints hpc
  | unlocks hpc | posts hpc => exact congrArg (s.emptySlots + ·) (total_keep (by rw [hpc]; rfl))

theorem ProdStep.full (h : ProdStep iters bufSize s p s') :
    s'.fullSlots + total ProdPc.posts s.prod = s.fullSlots + total ProdPc.posts s'.prod := by
  cases h with
  | @posts i hpc =>
      have hsucc : total ProdPc.posts (Function.update s.prod p (.loop (i + 1))) =
          total ProdPc.posts s.prod + 1 := total_succ (by rw [hpc]; rfl)
      show s.fullSlots + 1 + _ = s.fullSlots + total ProdPc.posts (Function.update s.prod p _)
      omega
  | goes hpc _ _ | returns hpc _ | waits hpc _ | locks hpc _ | adds hpc | stores hpc
  | advances hpc | prints hpc | unlocks hpc =>
      exact congrArg (s.fullSlots + ·) (total_keep (by rw [hpc]; rfl)).symm

theorem ProdStep.produced (h : ProdStep iters bufSize s p s')
    (heq : s.totalProduced = wrap 32 (total ProdPc.adds s.prod : Nat)) :
    s'.totalProduced = wrap 32 (total ProdPc.adds s'.prod : Nat) := by
  cases h with
  | @adds i hpc =>
      have hsucc : total ProdPc.adds (Function.update s.prod p (.store i s.totalProduced)) =
          total ProdPc.adds s.prod + 1 := total_succ (by rw [hpc]; rfl)
      show fetchAndAdd s.totalProduced = wrap 32 (total ProdPc.adds (Function.update s.prod p _) : Nat)
      rw [hsucc, heq, fetchAndAdd_wrap]
  | goes hpc _ _ | returns hpc _ | waits hpc _ | locks hpc _ | stores hpc | advances hpc
  | prints hpc | unlocks hpc | posts hpc =>
      exact heq.trans (congrArg (fun n : Nat => wrap 32 n) (total_keep (by rw [hpc]; rfl)).symm)

theorem ProdStep.inI (h : ProdStep iters bufSize s p s')
    (heq : s.inI = total ProdPc.advances s.prod % bufSize) :
    s'.inI = total ProdPc.advances s'.prod % bufSize := by
  cases h with
  | @advances i val hpc =>
      have hsucc : total ProdPc.advances (Function.update s.prod p (.print i val)) =
          total ProdPc.advances s.prod + 1 := total_succ (by rw [hpc]; rfl)
      show (s.inI + 1) % bufSize = total ProdPc.advances (Function.update s.prod p _) % bufSize
      rw [hsucc, heq, Nat.mod_add_mod]
  | goes hpc _ _ | returns hpc _ | waits hpc _ | locks hpc _ | adds hpc | stores hpc
  | prints hpc | unlocks hpc | posts hpc =>
      exact heq.trans (congrArg (· % bufSize) (total_keep (by rw [hpc]; rfl)).symm)

omit [Fintype P] in
/-- What belongs to the consumers stays as it is. -/
theorem ProdStep.frame (h : ProdStep iters bufSize s p s') :
    s'.cons = s.cons ∧ s'.outI = s.outI ∧ s'.totalConsumed = s.totalConsumed ∧ s'.stop = s.stop := by
  cases h <;> exact ⟨rfl, rfl, rfl, rfl⟩

theorem Accounts.prodStep [Fintype C] (h : Accounts bufSize s) (hstep : ProdStep iters bufSize s p s') :
    Accounts bufSize s' := by
  obtain ⟨hcons, hout, hconsumed, _⟩ := hstep.frame
  have hempty := hstep.empty
  have hfull := hstep.full
  constructor
  · rw [hempty, hcons, h.empty]
  · rw [hcons]
    have hold := h.full
    omega
  · exact hstep.produced h.produced
  · exact hstep.inI h.inI
  · rw [hconsumed, hcons, h.consumed]
  · rw [hout, hcons, h.outI]

end Producers

section Consumers

variable [Fintype C] [DecidableEq C] {c : C}

theorem ConsStep.full (h : ConsStep iters bufSize s c s') :
    s'.fullSlots + total ConsPc.waits s'.cons = s.fullSlots + total ConsPc.waits s.cons := by
  cases h with
  | @waits i hpc hfull =>
      have hsucc : total ConsPc.waits (Function.update s.cons c (.lock i)) =
          total ConsPc.waits s.cons + 1 := total_succ (by rw [hpc]; rfl)
      show s.fullSlots - 1 + total ConsPc.waits (Function.update s.cons c (.lock i)) = _
      omega
  | goes hpc _ _ | returns hpc _ | locks hpc _ | loads hpc | advances hpc | adds hpc | prints hpc
  | unlocks hpc | posts hpc => exact congrArg (s.fullSlots + ·) (total_keep (by rw [hpc]; rfl))

theorem ConsStep.empty (h : ConsStep iters bufSize s c s') :
    s'.emptySlots + total ConsPc.posts s.cons = s.emptySlots + total ConsPc.posts s'.cons := by
  cases h with
  | @posts i hpc =>
      have hsucc : total ConsPc.posts (Function.update s.cons c (.loop (i + 1))) =
          total ConsPc.posts s.cons + 1 := total_succ (by rw [hpc]; rfl)
      show s.emptySlots + 1 + _ = s.emptySlots + total ConsPc.posts (Function.update s.cons c _)
      omega
  | goes hpc _ _ | returns hpc _ | waits hpc _ | locks hpc _ | loads hpc | advances hpc
  | adds hpc | prints hpc | unlocks hpc =>
      exact congrArg (s.emptySlots + ·) (total_keep (by rw [hpc]; rfl)).symm

theorem ConsStep.consumed (h : ConsStep iters bufSize s c s')
    (heq : s.totalConsumed = wrap 32 (total ConsPc.adds s.cons : Nat)) :
    s'.totalConsumed = wrap 32 (total ConsPc.adds s'.cons : Nat) := by
  cases h with
  | @adds i val hpc =>
      have hsucc : total ConsPc.adds (Function.update s.cons c (.print i val)) =
          total ConsPc.adds s.cons + 1 := total_succ (by rw [hpc]; rfl)
      show fetchAndAdd s.totalConsumed = wrap 32 (total ConsPc.adds (Function.update s.cons c _) : Nat)
      rw [hsucc, heq, fetchAndAdd_wrap]
  | goes hpc _ _ | returns hpc _ | waits hpc _ | locks hpc _ | loads hpc | advances hpc
  | prints hpc | unlocks hpc | posts hpc =>
      exact heq.trans (congrArg (fun n : Nat => wrap 32 n) (total_keep (by rw [hpc]; rfl)).symm)

theorem ConsStep.outI (h : ConsStep iters bufSize s c s')
    (heq : s.outI = total ConsPc.advances s.cons % bufSize) :
    s'.outI = total ConsPc.advances s'.cons % bufSize := by
  cases h with
  | @advances i val hpc =>
      have hsucc : total ConsPc.advances (Function.update s.cons c (.fetchAdd i val)) =
          total ConsPc.advances s.cons + 1 := total_succ (by rw [hpc]; rfl)
      show (s.outI + 1) % bufSize = total ConsPc.advances (Function.update s.cons c _) % bufSize
      rw [hsucc, heq, Nat.mod_add_mod]
  | goes hpc _ _ | returns hpc _ | waits hpc _ | locks hpc _ | loads hpc | adds hpc
  | prints hpc | unlocks hpc | posts hpc =>
      exact heq.trans (congrArg (· % bufSize) (total_keep (by rw [hpc]; rfl)).symm)

omit [Fintype C] in
/-- What belongs to the producers stays as it is. -/
theorem ConsStep.frame (h : ConsStep iters bufSize s c s') :
    s'.prod = s.prod ∧ s'.inI = s.inI ∧ s'.totalProduced = s.totalProduced ∧
      s'.buffer = s.buffer ∧ s'.stop = s.stop := by
  cases h <;> exact ⟨rfl, rfl, rfl, rfl, rfl⟩

theorem Accounts.consStep [Fintype P] (h : Accounts bufSize s) (hstep : ConsStep iters bufSize s c s') :
    Accounts bufSize s' := by
  obtain ⟨hprod, hin, hproduced, _, _⟩ := hstep.frame
  have hempty := hstep.empty
  have hfull := hstep.full
  constructor
  · rw [hprod]
    have hold := h.empty
    omega
  · rw [hfull, hprod, h.full]
  · rw [hproduced, hprod, h.produced]
  · rw [hin, hprod, h.inI]
  · exact hstep.consumed h.consumed
  · exact hstep.outI h.outI

end Consumers

/-! ## What the accounts say -/

variable [Fintype P] [Fintype C]

theorem Accounts.read_le_written (h : Accounts bufSize s) : s.read ≤ s.written := by
  have hfull := h.full
  have hloads : s.read ≤ total ConsPc.waits s.cons := total_mono fun c => (s.cons c).loads_le_waits
  have hposts : total ProdPc.posts s.prod ≤ s.written := total_mono fun p => (s.prod p).posts_le_stores
  omega

theorem Accounts.written_le (h : Accounts bufSize s) : s.written ≤ bufSize + s.read := by
  have hempty := h.empty
  have hstores : s.written ≤ total ProdPc.waits s.prod := total_mono fun p => (s.prod p).stores_le_waits
  have hposts : total ConsPc.posts s.cons ≤ s.read := total_mono fun c => (s.cons c).posts_le_loads
  omega

/-- A producer that has its permit and has not stored finds room. -/
theorem Accounts.room (h : Accounts bufSize s) {p : P}
    (hp : (s.prod p).stores < (s.prod p).waits) : s.written < bufSize + s.read := by
  have hempty := h.empty
  have hstores : s.written < total ProdPc.waits s.prod :=
    total_lt (fun q => (s.prod q).stores_le_waits) hp
  have hposts : total ConsPc.posts s.cons ≤ s.read := total_mono fun c => (s.cons c).posts_le_loads
  omega

/-- A consumer that has its permit and has not loaded finds an item. -/
theorem Accounts.item (h : Accounts bufSize s) {c : C}
    (hc : (s.cons c).loads < (s.cons c).waits) : s.read < s.written := by
  have hfull := h.full
  have hloads : s.read < total ConsPc.waits s.cons :=
    total_lt (fun d => (s.cons d).loads_le_waits) hc
  have hposts : total ProdPc.posts s.prod ≤ s.written := total_mono fun p => (s.prod p).posts_le_stores
  omega

/-- Permits are neither lost nor made. -/
theorem Accounts.conserved (h : Accounts bufSize s) :
    s.emptySlots + s.fullSlots + total (fun pc => pc.inside.toNat) s.prod +
      total (fun pc => pc.inside.toNat) s.cons = bufSize := by
  have hempty := h.empty
  have hfull := h.full
  have hprod : total ProdPc.waits s.prod =
      total ProdPc.posts s.prod + total (fun pc => pc.inside.toNat) s.prod := by
    rw [← total_add]
    exact total_congr fun p => (s.prod p).waits_eq
  have hcons : total ConsPc.waits s.cons =
      total ConsPc.posts s.cons + total (fun pc => pc.inside.toNat) s.cons := by
    rw [← total_add]
    exact total_congr fun c => (s.cons c).waits_eq
  omega

end Model

end OsLabs.Mpmc
