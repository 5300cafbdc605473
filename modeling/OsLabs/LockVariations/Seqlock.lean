import Mathlib.Data.BitVec
import OsLabs.Core.Lts

/-! # The seqlock read loop

A writer that repeats `seq++`, the two stores and `seq++`, next to a reader in
its `do .. while (s1 != s2)` loop, interleaved access by access. A `continue`
goes to the loop test. The test reads `s2` even when no pass has assigned it;
such a read yields any value.
-/

namespace OsLabs.LockVariations

inductive WriterPc where
  | idle
  | storeSec (sec nsec : Int)
  | storeNsec (nsec : Int)
  | finish
  deriving DecidableEq

inductive ReaderPc where
  | outside
  | loadS1
  | testS1
  | loadSec
  | loadNsec
  | loadS2
  | compare
  | left
  deriving DecidableEq

/-- The locals of the read block. `none` is an unassigned variable; `s1` is
assigned before every use. -/
structure Reader where
  pc : ReaderPc
  s1 : BitVec 32
  s2 : Option (BitVec 32)
  tsSec : Option Int
  tsNsec : Option Int
  retries : Nat

/-- `writes` counts the writes begun since the reader entered the block; the
source has no such counter. -/
structure State where
  seq : BitVec 32
  sec : Int
  nsec : Int
  writer : WriterPc
  reader : Reader
  writes : Nat

/-- `write` begins a write of a pair. `junk` is what the loop test reads where
`s2` is unassigned. -/
inductive Act where
  | write (sec nsec : Int)
  | writer
  | enter
  | reader (junk : BitVec 32)
  deriving DecidableEq

def Reader.entered : Reader := ⟨.loadS1, 0, none, none, none, 0⟩

def writerNext (s : State) : Option State :=
  match s.writer with
  | .idle => none
  | .storeSec sec nsec => some { s with sec := sec, writer := .storeNsec nsec }
  | .storeNsec nsec => some { s with nsec := nsec, writer := .finish }
  | .finish => some { s with seq := s.seq + 1, writer := .idle }

def readerNext (s : State) (junk : BitVec 32) : Option Reader :=
  let r := s.reader
  match r.pc with
  | .outside | .left => none
  | .loadS1 => some { r with s1 := s.seq, pc := .testS1 }
  | .testS1 =>
      if r.s1 &&& 1 = 0 then some { r with pc := .loadSec }
      else some { r with retries := r.retries + 1, pc := .compare }
  | .loadSec => some { r with tsSec := some s.sec, pc := .loadNsec }
  | .loadNsec => some { r with tsNsec := some s.nsec, pc := .loadS2 }
  | .loadS2 => some { r with s2 := some s.seq, pc := .compare }
  | .compare => some { r with pc := if r.s1 = r.s2.getD junk then .left else .loadS1 }

def next (s : State) : Act → Option State
  | .write sec nsec =>
      if s.writer = .idle then
        some { s with
          seq := s.seq + 1
          writer := .storeSec sec nsec
          writes := s.writes + 1 }
      else none
  | .writer => writerNext s
  | .enter =>
      if s.reader.pc = .outside ∨ s.reader.pc = .left then
        some { s with reader := .entered, writes := 0 }
      else none
  | .reader junk => (readerNext s junk).map fun r => { s with reader := r }

/-- Any even `seq` and any pair, no write and no read in progress. -/
def seqlock : Lts State Act where
  init s := s.seq &&& 1 = 0 ∧ s.writer = .idle ∧ s.reader.pc = .outside
  next := next

/-! ## What the reader promises -/

/-- The pair was current in a state of the run in which no write was in progress. -/
def Current (ts : List (Transition State Act)) (sec nsec : Int) : Prop :=
  ∃ t ∈ ts, t.before.writer = .idle ∧ t.before.sec = sec ∧ t.before.nsec = nsec

/-- After the last step: what a reader that has left holds was current, and
`s2` is assigned where it is about to be compared. -/
def Consistent (ts : List (Transition State Act)) (s : State) : Prop :=
  (s.reader.pc = .left → ∃ sec nsec, s.reader.tsSec = some sec ∧ s.reader.tsNsec = some nsec ∧
    Current ts sec nsec) ∧
  (s.reader.pc = .compare → s.reader.s2.isSome)

/-- Fewer than 2^31 writes begin during one call of the reader. -/
def FewWrites (t : Transition State Act) : Prop := t.after.writes < 2 ^ 31

/-- At each load of `s1`: `seq` is even, or an earlier pass has left another
value in `s2`. -/
def LoadsStable (t : Transition State Act) : Prop :=
  ∀ junk, t.action = .reader junk → t.before.reader.pc = .loadS1 →
    t.before.seq &&& 1 = 0 ∨ ∃ v, t.before.reader.s2 = some v ∧ v ≠ t.before.seq

/-! ## Parity -/

theorem even_iff (x : BitVec 32) : x &&& 1 = 0 ↔ x.toNat % 2 = 0 := by
  rw [BitVec.toNat_eq, BitVec.toNat_and]
  simp [Nat.and_one_is_mod]

theorem even_add_ofNat (x : BitVec 32) (k : Nat) :
    x + BitVec.ofNat 32 k &&& 1 = 0 ↔ (x.toNat + k) % 2 = 0 := by
  rw [even_iff, BitVec.toNat_add, BitVec.toNat_ofNat]
  omega

/-- `seq` comes back to a value only after 2^32 increments. -/
theorem add_ofNat_ne_self (x : BitVec 32) {k : Nat} (hpos : 0 < k) (hlt : k < 2 ^ 32) :
    x + BitVec.ofNat 32 k ≠ x := by
  intro heq
  have htoNat := congrArg BitVec.toNat heq
  rw [BitVec.toNat_add, BitVec.toNat_ofNat] at htoNat
  have hx := x.isLt
  omega

theorem add_ofNat_succ (x : BitVec 32) (k : Nat) :
    x + BitVec.ofNat 32 k + 1 = x + BitVec.ofNat 32 (k + 1) := by
  rw [BitVec.add_assoc]
  congr 1
  exact (BitVec.ofNat_add k 1).symm

/-! ## Since the load of `s1` -/

/-- `seq` was incremented `k` times since `s1` was loaded, when `m` was current. -/
structure Since (s : State) (m : Int × Int) (k : Nat) : Prop where
  seq : s.seq = s.reader.s1 + BitVec.ofNat 32 k
  idle : s.writer = .idle ↔ k % 2 = 0
  bound : k ≤ 2 * s.writes
  data : k = 0 → s.sec = m.1 ∧ s.nsec = m.2

/-- A pass that has loaded an even `s1` and has come to condition `locals`,
which need not hold once a write has begun. -/
def Passing (ts : List (Transition State Act)) (s : State) (locals : Int × Int → Prop) : Prop :=
  ∃ m k, Current ts m.1 m.2 ∧ Since s m k ∧ (k = 0 → locals m)

def ReaderInv (ts : List (Transition State Act)) (s : State) : Prop :=
  match s.reader.pc with
  | .outside | .loadS1 => True
  | .testS1 =>
      if s.reader.s1 &&& 1 = 0 then Passing ts s fun _ => True
      else ∃ v, s.reader.s2 = some v ∧ v ≠ s.reader.s1
  | .loadSec => Passing ts s fun _ => True
  | .loadNsec => Passing ts s fun m => s.reader.tsSec = some m.1
  | .loadS2 => Passing ts s fun m => s.reader.tsSec = some m.1 ∧ s.reader.tsNsec = some m.2
  | .compare =>
      ∃ v, s.reader.s2 = some v ∧ (v ≠ s.reader.s1 ∨ ∃ sec nsec, s.reader.tsSec = some sec ∧
        s.reader.tsNsec = some nsec ∧ Current ts sec nsec)
  | .left => ∃ sec nsec, s.reader.tsSec = some sec ∧ s.reader.tsNsec = some nsec ∧
      Current ts sec nsec

structure SeqInv (ts : List (Transition State Act)) (s : State) : Prop where
  idle : s.writer = .idle ↔ s.seq &&& 1 = 0
  reader : ReaderInv ts s

section Steps

variable {ts : List (Transition State Act)} {s s' : State}

theorem Current.snoc {sec nsec : Int} (h : Current ts sec nsec) (t : Transition State Act) :
    Current (ts ++ [t]) sec nsec := by
  rcases h with ⟨u, hu, hcurrent⟩
  exact ⟨u, List.mem_append_left _ hu, hcurrent⟩

/-- A step of the reader that keeps `s1`. -/
theorem Passing.setReader {locals locals' : Int × Int → Prop} (h : Passing ts s locals)
    {r : Reader} (hs1 : r.s1 = s.reader.s1)
    (hlocals : ∀ m, s.sec = m.1 → s.nsec = m.2 → locals m → locals' m)
    (t : Transition State Act) : Passing (ts ++ [t]) { s with reader := r } locals' := by
  rcases h with ⟨m, k, hcurrent, hsince, hm⟩
  refine ⟨m, k, hcurrent.snoc t, ⟨?_, hsince.idle, hsince.bound, hsince.data⟩, ?_⟩
  · simp only [hs1]
    exact hsince.seq
  · intro hk
    exact hlocals m (hsince.data hk).1 (hsince.data hk).2 (hm hk)

/-- The writer's own steps, and the beginning of a write. -/
theorem writer_cases {a : Act} (h : next s a = some s')
    (ha : a = .writer ∨ ∃ sec nsec, a = .write sec nsec) :
    s'.reader = s.reader ∧
      ((s.writer = .idle ∧ s'.writer ≠ .idle ∧ s'.seq = s.seq + 1 ∧ s'.writes = s.writes + 1) ∨
        (s.writer ≠ .idle ∧ s'.writer ≠ .idle ∧ s'.seq = s.seq ∧ s'.writes = s.writes) ∨
        (s.writer ≠ .idle ∧ s'.writer = .idle ∧ s'.seq = s.seq + 1 ∧ s'.writes = s.writes)) := by
  rcases ha with rfl | ⟨sec, nsec, rfl⟩
  · cases hw : s.writer with
    | idle => simp [next, writerNext, hw] at h
    | storeSec sec nsec =>
        simp only [next, writerNext, hw, Option.some.injEq] at h
        subst h
        exact ⟨rfl, .inr (.inl ⟨by simp, by simp, rfl, rfl⟩)⟩
    | storeNsec nsec =>
        simp only [next, writerNext, hw, Option.some.injEq] at h
        subst h
        exact ⟨rfl, .inr (.inl ⟨by simp, by simp, rfl, rfl⟩)⟩
    | finish =>
        simp only [next, writerNext, hw, Option.some.injEq] at h
        subst h
        exact ⟨rfl, .inr (.inr ⟨by simp, rfl, rfl, rfl⟩)⟩
  · simp only [next] at h
    split at h
    next hidle =>
      cases h
      exact ⟨rfl, .inl ⟨hidle, by simp, rfl, rfl⟩⟩
    next => cases h

/-- Once the writer has moved, the pass knows that `seq` has changed. -/
theorem Since.writer {m : Int × Int} {k : Nat} (h : Since s m k) {a : Act}
    (hnext : next s a = some s') (ha : a = .writer ∨ ∃ sec nsec, a = .write sec nsec) :
    ∃ k', k' ≠ 0 ∧ Since s' m k' := by
  have hseq := h.seq
  have hidle := h.idle
  have hbound := h.bound
  rcases writer_cases hnext ha with ⟨hreader, ⟨hbefore, hafter, hstep, hwrites⟩ |
    ⟨hbefore, hafter, hstep, hwrites⟩ | ⟨hbefore, hafter, hstep, hwrites⟩⟩
  · have heven := hidle.mp hbefore
    refine ⟨k + 1, by omega, ⟨?_, ?_, by omega, by omega⟩⟩
    · rw [hstep, hreader, hseq, add_ofNat_succ]
    · constructor
      · intro habs
        exact absurd habs hafter
      · intro hodd
        omega
  · have hodd : k % 2 ≠ 0 := fun heven => hbefore (hidle.mpr heven)
    refine ⟨k, by omega, ⟨?_, ?_, by omega, by omega⟩⟩
    · rw [hstep, hreader, hseq]
    · constructor
      · intro habs
        exact absurd habs hafter
      · intro heven
        exact absurd heven hodd
  · have hodd : k % 2 ≠ 0 := fun heven => hbefore (hidle.mpr heven)
    refine ⟨k + 1, by omega, ⟨?_, ?_, by omega, by omega⟩⟩
    · rw [hstep, hreader, hseq, add_ofNat_succ]
    · constructor
      · intro _
        omega
      · intro _
        exact hafter

theorem even_succ (x : BitVec 32) : x + 1 &&& 1 = 0 ↔ ¬ x &&& 1 = 0 := by
  have hsucc := even_add_ofNat x 1
  have hsame := even_iff x
  have hone : BitVec.ofNat 32 1 = 1 := rfl
  rw [hone] at hsucc
  rw [hsucc, hsame]
  omega

/-- No write is in progress exactly when `seq` is even. -/
theorem idle_step (h : s.writer = .idle ↔ s.seq &&& 1 = 0) {a : Act} (hnext : next s a = some s') :
    s'.writer = .idle ↔ s'.seq &&& 1 = 0 := by
  have hwriter : (a = .writer ∨ ∃ sec nsec, a = .write sec nsec) →
      (s'.writer = .idle ↔ s'.seq &&& 1 = 0) := by
    intro ha
    rcases (writer_cases hnext ha).2 with ⟨hbefore, hafter, hstep, _⟩ |
      ⟨hbefore, hafter, hstep, _⟩ | ⟨hbefore, hafter, hstep, _⟩
    · rw [hstep, even_succ, ← h]
      simp [hbefore, hafter]
    · rw [hstep, ← h]
      simp [hbefore, hafter]
    · rw [hstep, even_succ, ← h]
      simp [hbefore, hafter]
  cases a with
  | write sec nsec => exact hwriter (.inr ⟨sec, nsec, rfl⟩)
  | writer => exact hwriter (.inl rfl)
  | enter =>
      simp only [next] at hnext
      split at hnext
      next =>
        cases hnext
        exact h
      next => cases hnext
  | reader junk =>
      rcases Option.map_eq_some_iff.mp hnext with ⟨r, _, rfl⟩
      exact h

theorem Passing.writer {locals locals' : Int × Int → Prop} (h : Passing ts s locals) {a : Act}
    (hnext : next s a = some s') (ha : a = .writer ∨ ∃ sec nsec, a = .write sec nsec) :
    Passing (ts ++ [⟨s, a, s'⟩]) s' locals' := by
  rcases h with ⟨m, k, hcurrent, hsince, _⟩
  rcases hsince.writer hnext ha with ⟨k', hne, hsince'⟩
  exact ⟨m, k', hcurrent.snoc _, hsince', fun hzero => absurd hzero hne⟩

/-- The writer's steps keep what the reader knows. -/
theorem ReaderInv.writer (h : ReaderInv ts s) {a : Act} (hnext : next s a = some s')
    (ha : a = .writer ∨ ∃ sec nsec, a = .write sec nsec) :
    ReaderInv (ts ++ [⟨s, a, s'⟩]) s' := by
  have hreader := (writer_cases hnext ha).1
  unfold ReaderInv at h ⊢
  rw [hreader]
  cases hpc : s.reader.pc <;> simp only [hpc] at h ⊢
  case testS1 =>
    split at h
    next heven =>
      rw [if_pos heven]
      exact h.writer hnext ha
    next hodd =>
      rw [if_neg hodd]
      exact h
  case loadSec => exact h.writer hnext ha
  case loadNsec => exact h.writer hnext ha
  case loadS2 => exact h.writer hnext ha
  case compare =>
    rcases h with ⟨v, hv, hne | ⟨sec, nsec, hsec, hnsec, hcurrent⟩⟩
    · exact ⟨v, hv, .inl hne⟩
    · exact ⟨v, hv, .inr ⟨sec, nsec, hsec, hnsec, hcurrent.snoc _⟩⟩
  case left =>
    rcases h with ⟨sec, nsec, hsec, hnsec, hcurrent⟩
    exact ⟨sec, nsec, hsec, hnsec, hcurrent.snoc _⟩

/-- The load of `s1`: an even value starts a pass, an odd one is not in `s2`. -/
theorem readerInv_loadS1 (h : SeqInv ts s) (hpc : s.reader.pc = .loadS1) {junk : BitVec 32}
    (hs' : s' = { s with reader := { s.reader with s1 := s.seq, pc := .testS1 } })
    (hstable : LoadsStable ⟨s, .reader junk, s'⟩) :
    ReaderInv (ts ++ [⟨s, .reader junk, s'⟩]) s' := by
  have hcurrent : s.writer = .idle → Current (ts ++ [⟨s, .reader junk, s'⟩]) s.sec s.nsec :=
    fun hidle => ⟨_, List.mem_append_right _ (List.mem_singleton_self _), hidle, rfl, rfl⟩
  subst hs'
  simp only [ReaderInv]
  split
  next heven =>
    have hidle : s.writer = .idle := h.idle.mpr heven
    refine ⟨(s.sec, s.nsec), 0, hcurrent hidle, ⟨?_, ?_, Nat.zero_le _, ?_⟩, ?_⟩
    · simp
    · simp [hidle]
    · exact fun _ => ⟨rfl, rfl⟩
    · exact fun _ => trivial
  next hodd =>
    rcases hstable junk rfl hpc with heven | hstale
    · exact absurd heven hodd
    · exact hstale

/-- The load of `s2`: either `seq` has changed, or the pair is still the one
that was current when `s1` was loaded. -/
theorem Passing.compare (h : Passing ts s fun m => s.reader.tsSec = some m.1 ∧
      s.reader.tsNsec = some m.2) (hwrites : s.writes < 2 ^ 31) (t : Transition State Act) :
    s.seq ≠ s.reader.s1 ∨ ∃ sec nsec, s.reader.tsSec = some sec ∧ s.reader.tsNsec = some nsec ∧
      Current (ts ++ [t]) sec nsec := by
  rcases h with ⟨m, k, hcurrent, hsince, hlocals⟩
  by_cases hk : k = 0
  · exact .inr ⟨m.1, m.2, (hlocals hk).1, (hlocals hk).2, hcurrent.snoc t⟩
  · left
    have hbound := hsince.bound
    rw [hsince.seq]
    exact add_ofNat_ne_self _ (by omega) (by omega)

theorem ReaderInv.reader (h : SeqInv ts s) {junk : BitVec 32}
    (hnext : next s (.reader junk) = some s') (hfew : FewWrites ⟨s, .reader junk, s'⟩)
    (hstable : LoadsStable ⟨s, .reader junk, s'⟩) :
    ReaderInv (ts ++ [⟨s, .reader junk, s'⟩]) s' := by
  have hinv := h.reader
  rcases Option.map_eq_some_iff.mp hnext with ⟨r, hr, rfl⟩
  unfold ReaderInv at hinv
  cases hpc : s.reader.pc <;> simp only [readerNext, hpc] at hr hinv
  case outside => cases hr
  case left => cases hr
  case loadS1 =>
    cases hr
    exact readerInv_loadS1 h hpc rfl hstable
  case testS1 =>
    split at hr
    next heven =>
      cases hr
      rw [if_pos heven] at hinv
      refine Passing.setReader hinv ?_ (fun _ _ _ _ => trivial) _
      rfl
    next hodd =>
      cases hr
      rw [if_neg hodd] at hinv
      rcases hinv with ⟨v, hv, hne⟩
      exact ⟨v, hv, .inl hne⟩
  case loadSec =>
    cases hr
    refine Passing.setReader hinv ?_ (fun m hsec _ _ => congrArg some hsec) _
    rfl
  case loadNsec =>
    cases hr
    refine Passing.setReader hinv ?_ (fun m _ hnsec hsec => ⟨hsec, congrArg some hnsec⟩) _
    rfl
  case loadS2 =>
    cases hr
    exact ⟨s.seq, rfl, hinv.compare hfew _⟩
  case compare =>
    rcases hinv with ⟨v, hv, hcases⟩
    cases hr
    simp only [hv, Option.getD_some, ReaderInv]
    by_cases heq : s.reader.s1 = v
    · rw [if_pos heq]
      rcases hcases with hne | ⟨sec, nsec, hsec, hnsec, hcurrent⟩
      · exact absurd heq.symm hne
      · exact ⟨sec, nsec, hsec, hnsec, hcurrent.snoc _⟩
    · rw [if_neg heq]
      trivial

theorem SeqInv.step (h : SeqInv ts s) {a : Act} (hnext : next s a = some s')
    (hfew : FewWrites ⟨s, a, s'⟩) (hstable : LoadsStable ⟨s, a, s'⟩) :
    SeqInv (ts ++ [⟨s, a, s'⟩]) s' := by
  constructor
  · exact idle_step h.idle hnext
  · cases a with
    | write sec nsec => exact h.reader.writer hnext (.inr ⟨sec, nsec, rfl⟩)
    | writer => exact h.reader.writer hnext (.inl rfl)
    | reader junk => exact ReaderInv.reader h hnext hfew hstable
    | enter =>
        simp only [next] at hnext
        split at hnext
        next =>
          cases hnext
          trivial
        next => cases hnext

theorem SeqInv.consistent (h : SeqInv ts s) : Consistent ts s := by
  have hinv := h.reader
  unfold ReaderInv at hinv
  constructor
  · intro hpc
    rw [hpc] at hinv
    exact hinv
  · intro hpc
    rw [hpc] at hinv
    rcases hinv with ⟨v, hv, _⟩
    rw [hv]
    rfl

end Steps

/-- In a run whose loads of `s1` are all stable, the reader compares an
assigned `s2` and leaves with a pair that was current. -/
theorem reader_consistent {s₀ s : State} {ts : List (Transition State Act)}
    (hinit : seqlock.init s₀) (hruns : seqlock.RunsTo s₀ ts s) (hfew : ∀ t ∈ ts, FewWrites t)
    (hstable : ∀ t ∈ ts, LoadsStable t) : Consistent ts s := by
  have hinv : SeqInv ts s := by
    apply hruns.history_of _ _ fun t ht => And.intro (hfew t ht) (hstable t ht)
    · have heven : s₀.seq &&& 1 = 0 := hinit.1
      have hidle : s₀.writer = .idle := hinit.2.1
      have houtside : s₀.reader.pc = .outside := hinit.2.2
      constructor
      · exact iff_of_true hidle heven
      · simp [ReaderInv, houtside]
    · intro ts₁ s₁ a s₂ h hnext hstep
      exact h.step hnext hstep.1 hstep.2
  exact hinv.consistent

def quiet : State := ⟨0, 1, 1, .idle, ⟨.outside, 0, none, none, none, 0⟩, 0⟩

/-- The first pass straddles a write, the second loads `s1` during the next one
(an odd value, not the one left in `s2`), the third is undisturbed. -/
def twoWrites : List Act :=
  [.enter, .reader 0, .reader 0, .reader 0, .write 2 2, .writer, .reader 0, .reader 0, .reader 0,
    .writer, .writer, .write 3 3, .reader 0, .reader 0, .reader 0, .writer, .writer, .writer,
    .reader 0, .reader 0, .reader 0, .reader 0, .reader 0, .reader 0]

theorem reader_consistent_two_writes :
    ∃ ts s, seqlock.RunsTo quiet ts s ∧ ts.map (·.action) = twoWrites ∧
      (∃ t ∈ ts, t.before.reader.pc = .loadS1 ∧ t.before.seq = 3 ∧ t.before.reader.s2 = some 1) ∧
      s.reader.pc = .left ∧ s.reader.retries = 1 ∧ s.reader.tsSec = some 3 ∧
      s.reader.tsNsec = some 3 ∧ Consistent ts s := by
  have htrace : seqlock.trace quiet twoWrites = some (_, _) := rfl
  have hruns := Lts.RunsTo.of_trace htrace
  refine ⟨_, _, hruns, rfl, ?_, rfl, rfl, rfl, rfl,
    reader_consistent ⟨rfl, rfl, rfl⟩ hruns ?_ ?_⟩
  · exact ⟨_, List.mem_of_getElem? (i := 12) rfl, rfl, rfl, rfl⟩
  · simp [FewWrites, quiet, Reader.entered]
  · simp [LoadsStable, quiet, Reader.entered]

/-- A write begins after the first load of `s1` and is still going on in the
second pass, whose `continue` compares `s1` with the `s2` of the first. -/
def tornPass : List Act :=
  [.enter, .reader 0, .reader 0, .write 2 2, .writer, .reader 0, .reader 0, .reader 0, .reader 0,
    .reader 0, .reader 0, .reader 0]

theorem reader_leaves_with_torn_pair :
    ¬ ∀ (s₀ s : State) (ts : List (Transition State Act)), seqlock.init s₀ →
      seqlock.RunsTo s₀ ts s → (∀ t ∈ ts, FewWrites t) → Consistent ts s := by
  intro h
  have htrace : seqlock.trace quiet tornPass = some (_, _) := rfl
  have hruns := Lts.RunsTo.of_trace htrace
  have hconsistent := h _ _ _ ⟨rfl, rfl, rfl⟩ hruns (by simp [FewWrites, quiet, Reader.entered])
  rcases hconsistent.1 rfl with ⟨sec, nsec, hsec, hnsec, hcurrent⟩
  cases hsec
  cases hnsec
  unfold Current at hcurrent
  revert hcurrent
  decide

end OsLabs.LockVariations
