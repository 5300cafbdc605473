import OsLabs.PageCache.Collect

/-! # The steps of the collection

What a step can do, once: the parent's and the children's steps with their
guards and their effects.
-/

namespace OsLabs.PageCacheModels

section Model

variable (procs cap : Nat) (outcome : Nat → Option WorkerResult)

/-- `fscanf` leaves pipe `p` with a line. -/
def ScanMatches (s : CollectState) (p : Nat) (buf : List Char) (l : PipeLine) : Prop :=
  (∃ rest, scanLine false buf = .done l rest) ∨
    (scanLine false buf = .more ∧ s.data p = [] ∧ writeOpen procs s p = false ∧
      ∃ rest, scanLine true buf = .done l rest)

/-- `fscanf` leaves pipe `p` with less than four conversions. -/
def ScanFails (s : CollectState) (p : Nat) (buf : List Char) : Prop :=
  scanLine false buf = .fail ∨
    (scanLine false buf = .more ∧ s.data p = [] ∧ writeOpen procs s p = false ∧
      ∀ l rest, scanLine true buf ≠ .done l rest)

inductive CollectStep (s : CollectState) : CollectState → Prop
  | pipe {p : Nat} (hpc : s.parent = .pipe p) (hp : p < procs) :
      CollectStep s { s.setData p [] with
        parent := .fork p
        fds := ⟨Function.update s.fds.rd p true, Function.update s.fds.wr p true⟩ }
  | forkedAll {p : Nat} (hpc : s.parent = .pipe p) (hp : ¬ p < procs) :
      CollectStep s { s with parent := .scan 0 [] }
  | fork {p : Nat} (hpc : s.parent = .fork p) :
      CollectStep s { s.setChild p .forked s.fds with parent := .closeWrite p }
  | closeWrite {p : Nat} (hpc : s.parent = .closeWrite p) :
      CollectStep s { s with
        parent := .pipe (p + 1)
        fds := { s.fds with wr := Function.update s.fds.wr p false } }
  | matched {p : Nat} {buf : List Char} {l : PipeLine} (hpc : s.parent = .scan p buf)
      (hp : p < procs) (h : ScanMatches procs s p buf l) : CollectStep s (s.matched p l)
  | unmatched {p : Nat} {buf : List Char} (hpc : s.parent = .scan p buf) (hp : p < procs)
      (h : ScanFails procs s p buf) : CollectStep s { s with parent := .fclose p }
  | read {p n : Nat} {buf : List Char} (hpc : s.parent = .scan p buf) (hp : p < procs)
      (hmore : scanLine false buf = .more) (hn : 0 < n) (hle : n ≤ (s.data p).length) :
      CollectStep s { s.setData p ((s.data p).drop n) with
        parent := .scan p (buf ++ (s.data p).take n) }
  | scannedAll {p : Nat} {buf : List Char} (hpc : s.parent = .scan p buf) (hp : ¬ p < procs) :
      CollectStep s { s with parent := .wait 0 }
  | fclose {p : Nat} (hpc : s.parent = .fclose p) :
      CollectStep s { s with
        parent := .scan (p + 1) []
        fds := { s.fds with rd := Function.update s.fds.rd p false } }
  | waitNone {k : Nat} (hpc : s.parent = .wait k) (hk : k < procs)
      (h : ∀ c, c < procs → (s.child c).phase = .unborn ∨ (s.child c).phase = .reaped) :
      CollectStep s { s with parent := .wait (k + 1) }
  | reap {k c : Nat} (hpc : s.parent = .wait k) (hk : k < procs) (hc : c < procs)
      (hphase : (s.child c).phase = .zombie) :
      CollectStep s { s.setChild c .reaped (s.child c).fds with parent := .wait (k + 1) }
  | waitedAll {k : Nat} (hpc : s.parent = .wait k) (hk : ¬ k < procs) :
      CollectStep s { s with parent := .finished }
  | childCloseRead {c : Nat} (hc : c < procs) (hphase : (s.child c).phase = .forked) :
      CollectStep s (s.setChild c .working
        { (s.child c).fds with rd := Function.update (s.child c).fds.rd c false })
  | childFails {c : Nat} (hc : c < procs) (hphase : (s.child c).phase = .working)
      (h : outcome c = none) : CollectStep s (s.setChild c .zombie .none)
  | childKilled {c : Nat} (hc : c < procs) (hphase : (s.child c).phase = .working)
      (h : readOpen procs s c = false) : CollectStep s (s.setChild c .zombie .none)
  | childWrites {c : Nat} {r : WorkerResult} (hc : c < procs)
      (hphase : (s.child c).phase = .working) (h : outcome c = some r)
      (hroom : (s.data c).length + (childLine c r).format.length ≤ cap) :
      CollectStep s
        ((s.setData c (s.data c ++ (childLine c r).format)).setChild c .wrote (s.child c).fds)
  | childCloses {c : Nat} (hc : c < procs) (hphase : (s.child c).phase = .wrote) :
      CollectStep s (s.setChild c .closed
        { (s.child c).fds with wr := Function.update (s.child c).fds.wr c false })
  | childExits {c : Nat} (hc : c < procs) (hphase : (s.child c).phase = .closed) :
      CollectStep s (s.setChild c .zombie .none)

variable {procs cap outcome} {s s' : CollectState}

theorem scanNext_cases {p : Nat} {buf : List Char} (h : scanNext procs s p buf = some s') :
    (∃ l, ScanMatches procs s p buf l ∧ s' = s.matched p l) ∨
      (ScanFails procs s p buf ∧ s' = { s with parent := .fclose p }) := by
  unfold scanNext at h
  cases hscan : scanLine false buf with
  | done l rest =>
      left
      exact ⟨l, .inl ⟨rest, hscan⟩, by simpa [hscan] using h.symm⟩
  | fail =>
      right
      exact ⟨.inl hscan, by simpa [hscan] using h.symm⟩
  | more =>
      simp only [hscan] at h
      by_cases hend : s.data p = [] ∧ writeOpen procs s p = false
      · rw [if_pos hend] at h
        cases heof : scanLine true buf with
        | done l rest =>
            left
            exact ⟨l, .inr ⟨hscan, hend.1, hend.2, rest, heof⟩, by simpa [heof] using h.symm⟩
        | fail =>
            right
            exact ⟨.inr ⟨hscan, hend.1, hend.2, by simp [heof]⟩, by simpa [heof] using h.symm⟩
        | more =>
            right
            exact ⟨.inr ⟨hscan, hend.1, hend.2, by simp [heof]⟩, by simpa [heof] using h.symm⟩
      · rw [if_neg hend] at h
        cases h

theorem parentNext_cases (h : parentNext procs s = some s') :
    CollectStep procs cap outcome s s' := by
  unfold parentNext at h
  split at h
  next p hpc =>
    split at h
    next hp =>
      cases h
      exact .pipe hpc hp
    next hp =>
      cases h
      exact .forkedAll hpc hp
  next p hpc =>
    cases h
    exact .fork hpc
  next p hpc =>
    cases h
    exact .closeWrite hpc
  next p buf hpc =>
    split at h
    next hp =>
      rcases scanNext_cases h with ⟨l, hmatch, rfl⟩ | ⟨hfail, rfl⟩
      · exact .matched hpc hp hmatch
      · exact .unmatched hpc hp hfail
    next hp =>
      cases h
      exact .scannedAll hpc hp
  next p hpc =>
    cases h
    exact .fclose hpc
  next k hpc =>
    split at h
    next hk =>
      split at h
      next hnone =>
        cases h
        exact .waitNone hpc hk (by simpa [noChildren] using hnone)
      next => cases h
    next hk =>
      cases h
      exact .waitedAll hpc hk
  next => cases h

theorem childNext_cases {c : Nat} (hc : c < procs)
    (h : childNext procs cap outcome s c = some s') : CollectStep procs cap outcome s s' := by
  unfold childNext at h
  split at h
  next hphase =>
    cases h
    exact .childCloseRead hc hphase
  next hphase =>
    split at h
    next r hr =>
      unfold writeNext at h
      split at h
      next hclosed =>
        cases h
        exact .childKilled hc hphase hclosed
      next =>
        split at h
        next hroom =>
          cases h
          exact .childWrites hc hphase hr hroom
        next => cases h
    next hr =>
      cases h
      exact .childFails hc hphase hr
  next hphase =>
    cases h
    exact .childCloses hc hphase
  next hphase =>
    cases h
    exact .childExits hc hphase
  all_goals cases h

/-- Every step of the collection is one of `CollectStep`. -/
theorem collectNext_cases {a : CollectAct} (h : collectNext procs cap outcome s a = some s') :
    CollectStep procs cap outcome s s' := by
  cases a with
  | parent => exact parentNext_cases h
  | read n =>
      simp only [collectNext] at h
      split at h
      next p buf hpc =>
        split at h
        next hp =>
          unfold readNext at h
          split at h
          next hmore =>
            split at h
            next hn =>
              cases h
              exact .read hpc hp hmore hn.1 hn.2
            next => cases h
          next => cases h
        next => cases h
      next => cases h
  | reaped c =>
      simp only [collectNext] at h
      split at h
      next k hpc =>
        split at h
        next hguard =>
          cases h
          exact .reap hpc hguard.1 hguard.2.1 hguard.2.2
        next => cases h
      next => cases h
  | child c =>
      simp only [collectNext] at h
      split at h
      next hc => exact childNext_cases hc h
      next => cases h

end Model

end OsLabs.PageCacheModels
