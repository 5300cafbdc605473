import OsLabs.Traps.Recovery

/-! # The labs that trap

`main` of the lab on segmentation and of the lab on trap handlers: for all results of the
system calls, which accesses trap, which of these are guarded, and how `main` ends. What a
function does apart from accesses that may trap is left out.
-/

namespace OsLabs.Traps

/-! ## Pages -/

inductive Page where
  | unmapped
  | anonymous (readable writable : Bool)
  /-- The page at this offset of a shared mapping of a file of this size. -/
  | file (offset size : Nat)

def Page.load : Page → Option Signal
  | .unmapped => some .sigsegv
  | .anonymous readable _ => if readable then none else some .sigsegv
  | .file offset size => if offset < size then none else some .sigbus

def Page.store : Page → Option Signal
  | .unmapped => some .sigsegv
  | .anonymous _ writable => if writable then none else some .sigsegv
  | .file offset size => if offset < size then none else some .sigbus

/-! ## Segmentation -/

/-- What the calls of the lab return: the page size, which calls succeed, and how many bytes
the two calls of `write` have put into the file. -/
structure Results where
  ps : Nat
  guardMmap : Bool
  guardMprotect : Bool
  protectMmap : Bool
  protectMprotect : Bool
  mkstemp : Bool
  written : Nat
  fileMmap : Bool
  ftruncate : Bool

namespace Results

variable (r : Results)

def demoNullDeref : List Op := [⟨true, Page.unmapped.load⟩]

def demoGuardPage : List Op :=
  if r.guardMmap then
    ⟨false, (Page.anonymous true true).store⟩ ::
      if r.guardMprotect then [⟨true, (Page.anonymous false false).load⟩] else []
  else []

/-- Neither `mmap` nor `mprotect` is checked. -/
def demoWriteProtect : List Op :=
  let page := if r.protectMmap then Page.anonymous true true else .unmapped
  let readOnly := if r.protectMmap && r.protectMprotect then .anonymous true false else page
  [⟨false, page.store⟩, ⟨true, readOnly.store⟩]

/-- Neither `write` nor `ftruncate` is checked. -/
def demoBusErrorSim : List Op :=
  if r.mkstemp && r.fileMmap then
    let truncated := if r.ftruncate then 0 else r.written
    [⟨false, (Page.file 0 r.written).load⟩, ⟨true, (Page.file r.ps truncated).load⟩]
  else []

def calls : List (List Op) :=
  [demoNullDeref, r.demoGuardPage, r.demoWriteProtect, r.demoBusErrorSim]

/-- `setup_handler` -/
def handled : Finset Signal := {.sigsegv, .sigbus}

/-- What the program takes for granted: the pages it sets before the guards are there. -/
def Granted : Prop := r.protectMmap ∧ (r.mkstemp && r.fileMmap → 0 < r.written)

instance : Decidable r.Granted := inferInstanceAs (Decidable (_ ∧ (_ → _)))

/-- The signals of the guarded accesses. -/
def caught : List Signal :=
  .sigsegv :: ((if r.guardMmap && r.guardMprotect then [.sigsegv] else []) ++
    (if r.protectMprotect then [.sigsegv] else []) ++
    if r.mkstemp && r.fileMmap && (r.ftruncate || r.written ≤ r.ps) then [.sigbus] else [])

end Results

variable {r : Results}

theorem Results.ordered (r : Results) : ∀ ops ∈ r.calls, Ordered ops := by
  intro ops hops
  simp only [calls, List.mem_cons, List.not_mem_nil, or_false] at hops
  rcases hops with rfl | rfl | rfl | rfl
  · exact List.pairwise_singleton _ _
  · unfold demoGuardPage
    split
    · split <;> simp [Ordered]
    · exact List.Pairwise.nil
  · simp [demoWriteProtect, Ordered]
  · unfold demoBusErrorSim
    split
    · simp [Ordered]
    · exact List.Pairwise.nil

/-- All traps are guarded exactly where the pages set before the guards are there. -/
theorem Results.safe_iff (r : Results) : (∀ op ∈ r.calls.flatten, op.Safe) ↔ r.Granted := by
  have hguard : ∀ op ∈ r.demoGuardPage, op.Safe := by
    unfold demoGuardPage
    split
    · split <;> simp [Op.Safe, Page.store]
    · simp
  have hprotect : (∀ op ∈ r.demoWriteProtect, op.Safe) ↔ r.protectMmap := by
    cases hmmap : r.protectMmap <;> simp [demoWriteProtect, hmmap, Op.Safe, Page.store]
  have hfile : (∀ op ∈ r.demoBusErrorSim, op.Safe) ↔ (r.mkstemp && r.fileMmap → 0 < r.written) := by
    unfold demoBusErrorSim
    split
    next hmmap =>
      rcases Nat.eq_zero_or_pos r.written with hzero | hpos
      · simp [Op.Safe, Page.load, hzero, hmmap]
      · simp [Op.Safe, Page.load, hpos]
    next hmmap => simp [hmmap]
  simp only [calls, List.flatten_cons, List.flatten_nil, List.append_nil, List.forall_mem_append,
    hprotect, hfile, Granted]
  constructor
  · intro h
    exact h.2.2
  · intro h
    exact ⟨by simp [demoNullDeref, Op.Safe], hguard, h⟩

theorem Results.raised_eq (h : r.Granted) : r.calls.flatten.filterMap Op.raises = r.caught := by
  obtain ⟨hmmap, hwritten⟩ := h
  have hguard : r.demoGuardPage.filterMap Op.raises =
      if r.guardMmap && r.guardMprotect then [.sigsegv] else [] := by
    cases hguard : r.guardMmap <;> cases hprot : r.guardMprotect <;>
      simp [demoGuardPage, hguard, hprot, Page.store, Page.load]
  have hprotect : r.demoWriteProtect.filterMap Op.raises =
      if r.protectMprotect then [.sigsegv] else [] := by
    cases hprot : r.protectMprotect <;> simp [demoWriteProtect, hmmap, hprot, Page.store]
  have hfile : r.demoBusErrorSim.filterMap Op.raises =
      if r.mkstemp && r.fileMmap && (r.ftruncate || r.written ≤ r.ps) then [.sigbus] else [] := by
    cases hboth : r.mkstemp && r.fileMmap with
    | false => simp [demoBusErrorSim, hboth]
    | true =>
        have hpos := hwritten hboth
        cases htrunc : r.ftruncate with
        | true => simp [demoBusErrorSim, hboth, htrunc, Page.load, hpos]
        | false =>
            by_cases hle : r.written ≤ r.ps
            · simp [demoBusErrorSim, hboth, htrunc, Page.load, hpos, hle, Nat.not_lt.mpr hle]
            · simp [demoBusErrorSim, hboth, htrunc, Page.load, hpos, hle, Nat.not_le.mp hle]
  simp only [calls, List.flatten_cons, List.flatten_nil, List.append_nil, List.filterMap_append,
    hguard, hprotect, hfile, caught]
  simp [demoNullDeref, Page.load]

theorem Results.length_calls (r : Results) : (r.calls.map fun ops => ops.length + 1).sum ≤ 11 := by
  have hguard : r.demoGuardPage.length ≤ 2 := by
    unfold demoGuardPage
    split
    · split <;> simp
    · simp
  have hfile : r.demoBusErrorSim.length ≤ 2 := by
    unfold demoBusErrorSim
    split <;> simp
  simp only [calls, demoNullDeref, demoWriteProtect, List.map_cons, List.map_nil, List.sum_cons,
    List.sum_nil, List.length_cons, List.length_nil]
  omega

theorem Page.load_handled (page : Page) : ∀ sig ∈ page.load, sig ∈ Results.handled := by
  cases page with
  | unmapped => simp [load, Results.handled]
  | anonymous readable _ => cases readable <;> simp [load, Results.handled]
  | file offset size => by_cases h : offset < size <;> simp [load, h, Results.handled]

theorem Page.store_handled (page : Page) : ∀ sig ∈ page.store, sig ∈ Results.handled := by
  cases page with
  | unmapped => simp [store, Results.handled]
  | anonymous _ writable => cases writable <;> simp [store, Results.handled]
  | file offset size => by_cases h : offset < size <;> simp [store, h, Results.handled]

/-- Each instruction of the lab is an access to a page. -/
theorem Results.accesses (r : Results) {op : Op} (h : op ∈ r.calls.flatten) :
    ∃ page : Page, op.raises = page.load ∨ op.raises = page.store := by
  simp only [calls, demoNullDeref, demoGuardPage, demoWriteProtect, demoBusErrorSim,
    List.flatten_cons, List.flatten_nil, List.append_nil, List.mem_append] at h
  rcases h with h | h | h | h
  · obtain rfl := List.mem_singleton.mp h
    exact ⟨.unmapped, .inl rfl⟩
  · split at h
    · rcases List.mem_cons.mp h with rfl | h
      · exact ⟨.anonymous true true, .inr rfl⟩
      · split at h
        · obtain rfl := List.mem_singleton.mp h
          exact ⟨.anonymous false false, .inl rfl⟩
        · cases h
    · cases h
  · rcases List.mem_cons.mp h with rfl | h
    · exact ⟨_, .inr rfl⟩
    · obtain rfl := List.mem_singleton.mp h
      exact ⟨_, .inr rfl⟩
  · split at h
    · rcases List.mem_cons.mp h with rfl | h
      · exact ⟨.file 0 r.written, .inl rfl⟩
      · obtain rfl := List.mem_singleton.mp h
        exact ⟨.file r.ps (if r.ftruncate then 0 else r.written), .inl rfl⟩
    · cases h

theorem Results.mem_handled (r : Results) {sig : Signal}
    (h : sig ∈ r.calls.flatten.filterMap Op.raises) : sig ∈ handled := by
  obtain ⟨op, hop, hraises⟩ := List.mem_filterMap.mp h
  obtain ⟨page, hload | hstore⟩ := r.accesses hop
  · exact page.load_handled sig (hload ▸ hraises)
  · exact page.store_handled sig (hstore ▸ hraises)

/-- Whatever the calls return: if the unchecked `mmap` gave a page, and the unchecked `write`
something to map, the program returns with every guarded trap counted and nothing blocked;
if not, its handler jumps into a call that has returned. -/
theorem faults_caught (r : Results) {fuel : Nat} (hfuel : 11 < fuel) :
    ∃ e, main Results.handled true r.calls fuel = some e ∧
      (r.Granted → ∃ p, e = .returned p ∧ p.faultCount = r.caught.length ∧ p.blocked = ∅) ∧
      (¬ r.Granted → e = .undefined) := by
  obtain ⟨e, hmain, hreturns, hundefined⟩ :=
    main_returns (fun sig => r.mem_handled) r.ordered (Nat.lt_of_le_of_lt r.length_calls hfuel)
  refine ⟨e, hmain, fun hgranted => ?_, fun hnot => hundefined (hnot ∘ r.safe_iff.mp)⟩
  rw [← Results.raised_eq hgranted]
  exact hreturns (r.safe_iff.mpr hgranted)

/-- All calls succeed: four faults, as the program announces. -/
def allSucceed : Results := ⟨4096, true, true, true, true, true, 8192, true, true⟩

theorem faults_caught_four :
    ∃ p, main Results.handled true allSucceed.calls 12 = some (.returned p) ∧ p.faultCount = 4 := by
  obtain ⟨e, hmain, hreturns, -⟩ := faults_caught allSucceed (by decide : 11 < 12)
  obtain ⟨p, rfl, hcount, -⟩ := hreturns (by decide)
  exact ⟨p, hmain, hcount⟩

/-- "Without signal mask restoration": the second trap on a protected page would kill the
process, so it would return only where neither protection is in place. -/
theorem unsaved_mask (h : r.Granted) {fuel : Nat} (hfuel : 11 < fuel) :
    ∃ e, main Results.handled false r.calls fuel = some e ∧
      ((∃ p, e = .returned p) ↔ (r.guardMmap && r.guardMprotect) = false ∧ r.protectMprotect = false) := by
  obtain ⟨e, hmain, hreturns, hkilled⟩ :=
    unsaved_main_returns (fun sig => r.mem_handled) (r.safe_iff.mpr h)
      (Nat.lt_of_le_of_lt r.length_calls hfuel)
  rw [Results.raised_eq h] at hreturns hkilled
  have honce : r.caught.Nodup ↔ (r.guardMmap && r.guardMprotect) = false ∧ r.protectMprotect = false := by
    unfold Results.caught
    cases r.guardMmap && r.guardMprotect <;> cases r.protectMprotect <;>
      cases r.mkstemp && r.fileMmap && (r.ftruncate || r.written ≤ r.ps) <;> simp
  refine ⟨e, hmain, ?_⟩
  rw [← honce]
  constructor
  · intro ⟨p, hp⟩
    by_contra hnot
    obtain ⟨sig, hsig⟩ := hkilled hnot
    rw [hsig] at hp
    cases hp
  · intro hnodup
    obtain ⟨p, hp, -⟩ := hreturns hnodup
    exact ⟨p, hp⟩

example :
    ∃ e, main Results.handled false allSucceed.calls 12 = some e ∧ ¬ ∃ p, e = .returned p := by
  obtain ⟨e, hmain, hiff⟩ := unsaved_mask (by decide : allSucceed.Granted) (by decide : 11 < 12)
  exact ⟨e, hmain, fun h => absurd (hiff.mp h).1 (by decide)⟩

/-! ## Trap handlers

The number passed to `siglongjmp` is only printed. -/

namespace TrapHandlers

/-- `install_handlers` -/
def handled : Finset Signal := {.sigfpe, .sigill, .sigsegv, .sigbus, .sigtrap}

/-- The integer division traps on x86 only, and the breakpoint is compiled there only;
`mapped` says whether the address the last function reads is mapped after all. -/
def calls (x86 mapped : Bool) : List (List Op) :=
  [[⟨true, if x86 then some .sigfpe else none⟩],
    if x86 then [⟨true, some .sigtrap⟩] else [],
    [⟨true, if mapped then none else (Page.load .unmapped)⟩]]

/-- The lab recovers from all its traps, which are of different kinds, so that here nothing
depends on the mask. -/
theorem traps_recovered (x86 mapped savemask : Bool) {fuel : Nat} (hfuel : 6 < fuel) :
    ∃ p, main handled savemask (calls x86 mapped) fuel = some (.returned p) ∧
      p.faultCount = 2 * x86.toNat + (!mapped).toNat := by
  have hlength : ((calls x86 mapped).map fun ops => ops.length + 1).sum < fuel := by
    cases x86 <;> simp [calls] <;> omega
  have hhandled : ∀ sig ∈ (calls x86 mapped).flatten.filterMap Op.raises, sig ∈ handled := by
    cases x86 <;> cases mapped <;> decide
  have hsafe : ∀ op ∈ (calls x86 mapped).flatten, op.Safe := by
    cases x86 <;> cases mapped <;> decide
  have hcount : ((calls x86 mapped).flatten.filterMap Op.raises).length =
      2 * x86.toNat + (!mapped).toNat := by
    cases x86 <;> cases mapped <;> rfl
  cases savemask with
  | true =>
      have hordered : ∀ ops ∈ calls x86 mapped, Ordered ops := by
        cases x86 <;> cases mapped <;> decide
      obtain ⟨e, hmain, hreturns, -⟩ := main_returns hhandled hordered hlength
      obtain ⟨p, rfl, hp, -⟩ := hreturns hsafe
      exact ⟨p, hmain, hp.trans hcount⟩
  | false =>
      have honce : ((calls x86 mapped).flatten.filterMap Op.raises).Nodup := by
        cases x86 <;> cases mapped <;> decide
      obtain ⟨e, hmain, hreturns, -⟩ := unsaved_main_returns hhandled hsafe hlength
      obtain ⟨p, rfl, hp⟩ := hreturns honce
      exact ⟨p, hmain, hp.trans hcount⟩

end TrapHandlers

end OsLabs.Traps
