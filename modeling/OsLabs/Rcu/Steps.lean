import OsLabs.Rcu.Model

/-! # Steps of the readers and the writer -/

namespace OsLabs.Rcu

section Model

variable {T Addr : Type} [DecidableEq T] [DecidableEq Addr] {s s' : State T Addr}

/-- Every step, with its guard and its effect. -/
inductive Step (s : State T Addr) : Act T Addr → State T Addr → Prop
  | read {t : T} (hpc : s.reader t = .idle) : Step s (.read t) (s.setReader t .load)
  | load {t : T} (hpc : s.reader t = .load) :
      Step s (.load t) (s.setReader t (.args s.globalData none none))
  | argVersion {t : T} {p : Addr} {value : Option Int} {junk : Data}
      (hpc : s.reader t = .args p none value) :
      Step s (.argVersion t junk)
        (s.setReader t (.args p (some (s.heap.load p junk).version) value))
  | argValue {t : T} {p : Addr} {version : Option Int} {junk : Data}
      (hpc : s.reader t = .args p version none) :
      Step s (.argValue t junk)
        (s.setReader t (.args p version (some (s.heap.load p junk).value)))
  | print {t : T} {p : Addr} {version value : Int}
      (hpc : s.reader t = .args p (some version) (some value)) :
      Step s (.print t) (s.setReader t .idle)
  | update {val : Int} {todo : List Int} (hpc : s.writer = .idle) (htodo : s.todo = val :: todo) :
      Step s .update { s with todo := todo, writer := .load val }
  | loadOld {val : Int} {junk : Data} (hpc : s.writer = .load val) :
      Step s (.writer junk) { s with writer := .malloc val s.globalData }
  | malloc {val : Int} {old new : Addr} {junk : Data} (hpc : s.writer = .malloc val old)
      (hfree : s.heap new = none) :
      Step s (.malloc new junk)
        { s with heap := s.heap.alloc new junk, writer := .readOld val old new }
  | readOld {val version : Int} {old new : Addr} {junk : Data}
      (hpc : s.writer = .readOld val old new)
      (hversion : version = (s.heap.load old junk).version + 1) (hfits : CInt.Fits 32 version) :
      Step s (.writer junk) { s with writer := .storeVersion val old new version }
  | storeVersion {val version : Int} {old new : Addr} {junk : Data}
      (hpc : s.writer = .storeVersion val old new version) :
      Step s (.writer junk)
        { s with
          heap := s.heap.store new fun d => { d with version := version }
          writer := .storeValue val old new }
  | storeValue {val : Int} {old new : Addr} {junk : Data}
      (hpc : s.writer = .storeValue val old new) :
      Step s (.writer junk)
        { s with
          heap := s.heap.store new fun d => { d with value := val }
          writer := .publish val old new }
  | publish {val : Int} {old new : Addr} {junk : Data} (hpc : s.writer = .publish val old new) :
      Step s (.writer junk) { s with globalData := new, writer := .free val old new }
  | free {val : Int} {old new : Addr} {junk : Data} (hpc : s.writer = .free val old new) :
      Step s (.writer junk) { s with heap := s.heap.free old, writer := .print val new }
  | printNew {val : Int} {new : Addr} {junk : Data} (hpc : s.writer = .print val new) :
      Step s (.writer junk) { s with writer := .idle }

theorem writerNext_cases {junk : Data} (h : writerNext s junk = some s') :
    Step s (.writer junk) s' := by
  unfold writerNext at h
  split at h
  next val hpc =>
    cases h
    exact .loadOld hpc
  next val old new hpc =>
    rcases Option.bind_eq_some_iff.mp h with ⟨version, hchecked, hrest⟩
    cases hrest
    unfold CInt.checked at hchecked
    split at hchecked
    next hfits =>
      cases hchecked
      exact .readOld hpc rfl hfits
    next => cases hchecked
  next val old new version hpc =>
    cases h
    exact .storeVersion hpc
  next val old new hpc =>
    cases h
    exact .storeValue hpc
  next val old new hpc =>
    cases h
    exact .publish hpc
  next val old new hpc =>
    cases h
    exact .free hpc
  next val new hpc =>
    cases h
    exact .printNew hpc
  all_goals cases h

theorem next_cases {a : Act T Addr} (h : next s a = some s') : Step s a s' := by
  cases a with
  | read t =>
      simp only [next, readNext] at h
      split at h
      next hpc =>
        cases h
        exact .read hpc
      next => cases h
  | load t =>
      simp only [next, loadNext] at h
      split at h
      next hpc =>
        cases h
        exact .load hpc
      next => cases h
  | argVersion t junk =>
      simp only [next, argVersionNext] at h
      split at h
      next p value hpc =>
        cases h
        exact .argVersion hpc
      next => cases h
  | argValue t junk =>
      simp only [next, argValueNext] at h
      split at h
      next p version hpc =>
        cases h
        exact .argValue hpc
      next => cases h
  | print t =>
      simp only [next, printNext] at h
      split at h
      next p version value hpc =>
        cases h
        exact .print hpc
      next => cases h
  | update =>
      simp only [next, updateNext] at h
      split at h
      next val todo hpc htodo =>
        cases h
        exact .update hpc htodo
      next => cases h
  | malloc new junk =>
      simp only [next, mallocNext] at h
      split at h
      next val old hpc =>
        split at h
        next hfree =>
          cases h
          exact .malloc hpc hfree
        next => cases h
      next => cases h
  | writer junk => exact writerNext_cases h

end Model

end OsLabs.Rcu
