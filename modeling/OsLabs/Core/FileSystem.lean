import Mathlib.Data.List.Basic
import Mathlib.Logic.Function.Basic

/-! # A file system and its disk

Directory entries lead to files. A call of the system makes effects, each on the
directory or on the data of one file; the effects not yet synced are pending. At
a crash the disk holds any of them, in the order they were made. A sync makes the
effects on its target durable.
-/

namespace OsLabs

structure Files (Name Ino α : Type) where
  dir : Name → Option Ino
  data : Ino → List α

inductive Target (Ino : Type) where
  | dir
  | data (ino : Ino)
  deriving DecidableEq

/-- An effect the disk makes wholly or not at all. -/
inductive Effect (Name Ino α : Type) where
  | entry (name : Name) (ino : Option Ino)
  | truncate (ino : Ino)
  | byte (ino : Ino) (pos : Nat) (b : α)

variable {Name Ino α : Type}

def Effect.target : Effect Name Ino α → Target Ino
  | .entry _ _ => .dir
  | .truncate ino | .byte ino _ _ => .data ino

/-- A byte at `pos`; a gap before it is filled. -/
def setByte [Inhabited α] (l : List α) (pos : Nat) (b : α) : List α :=
  if pos < l.length then l.set pos b else l ++ List.replicate (pos - l.length) default ++ [b]

theorem setByte_length [Inhabited α] (l : List α) (b : α) : setByte l l.length b = l ++ [b] := by
  simp [setByte]

namespace Files

def contents (fs : Files Name Ino α) (name : Name) : Option (List α) := (fs.dir name).map fs.data

variable [DecidableEq Name] [DecidableEq Ino] [Inhabited α]

def apply (fs : Files Name Ino α) : Effect Name Ino α → Files Name Ino α
  | .entry name ino => { fs with dir := Function.update fs.dir name ino }
  | .truncate ino => { fs with data := Function.update fs.data ino [] }
  | .byte ino pos b => { fs with data := Function.update fs.data ino (setByte (fs.data ino) pos b) }

def applyAll (fs : Files Name Ino α) (es : List (Effect Name Ino α)) : Files Name Ino α :=
  es.foldl apply fs

variable {fs : Files Name Ino α} {es es' : List (Effect Name Ino α)} {e e' : Effect Name Ino α}
  {name : Name} {ino : Ino}

@[simp] theorem applyAll_nil (fs : Files Name Ino α) : fs.applyAll [] = fs := rfl

@[simp] theorem applyAll_cons (fs : Files Name Ino α) (e : Effect Name Ino α)
    (es : List (Effect Name Ino α)) : fs.applyAll (e :: es) = (fs.apply e).applyAll es := rfl

theorem applyAll_append (fs : Files Name Ino α) (es es' : List (Effect Name Ino α)) :
    fs.applyAll (es ++ es') = (fs.applyAll es).applyAll es' := List.foldl_append

theorem apply_dir_of_ne (h : ∀ o, e ≠ .entry name o) : (fs.apply e).dir name = fs.dir name := by
  cases e with
  | entry name' o =>
      have hne : name ≠ name' := by
        rintro rfl
        exact h o rfl
      exact Function.update_of_ne hne _ _
  | truncate | byte => rfl

theorem apply_data_of_ne (h : e.target ≠ .data ino) : (fs.apply e).data ino = fs.data ino := by
  cases e with
  | entry => rfl
  | truncate ino' | byte ino' pos b =>
      have hne : ino ≠ ino' := by
        rintro rfl
        exact h rfl
      exact Function.update_of_ne hne _ _

theorem applyAll_dir (h : ∀ o, Effect.entry name o ∉ es) :
    (fs.applyAll es).dir name = fs.dir name := by
  induction es generalizing fs with
  | nil => rfl
  | cons e es ih =>
      have hhead : ∀ o, e ≠ .entry name o := by
        rintro o rfl
        exact h o List.mem_cons_self
      rw [applyAll_cons, ih fun o ho => h o (List.mem_cons_of_mem e ho), apply_dir_of_ne hhead]

theorem applyAll_data (h : ∀ e ∈ es, e.target ≠ .data ino) :
    (fs.applyAll es).data ino = fs.data ino := by
  induction es generalizing fs with
  | nil => rfl
  | cons e es ih =>
      rw [applyAll_cons, ih fun e' he' => h e' (List.mem_cons_of_mem e he'),
        apply_data_of_ne (h e List.mem_cons_self)]

/-- An entry is what it was or what one of the effects made it. -/
theorem applyAll_dir_cases (fs : Files Name Ino α) (es : List (Effect Name Ino α)) (name : Name) :
    (fs.applyAll es).dir name = fs.dir name ∨
      ∃ o, Effect.entry name o ∈ es ∧ (fs.applyAll es).dir name = o := by
  induction es generalizing fs with
  | nil => exact .inl rfl
  | cons e es ih =>
      rcases ih (fs.apply e) with hsame | ⟨o, ho, heq⟩
      · by_cases hentry : ∃ o, e = .entry name o
        · obtain ⟨o, rfl⟩ := hentry
          exact .inr ⟨o, List.mem_cons_self, by rw [applyAll_cons, hsame]; simp [apply]⟩
        · exact .inl (by rw [applyAll_cons, hsame, apply_dir_of_ne (not_exists.mp hentry)])
      · exact .inr ⟨o, List.mem_cons_of_mem e ho, heq⟩

theorem applyAll_bytes (fs : Files Name Ino α) (ino : Ino) (bs : List α) :
    (fs.applyAll ((bs.zipIdx (fs.data ino).length).map fun b => .byte ino b.2 b.1)).data ino =
      fs.data ino ++ bs := by
  induction bs generalizing fs with
  | nil => simp
  | cons b bs ih =>
      have hdata : (fs.apply (.byte ino (fs.data ino).length b)).data ino = fs.data ino ++ [b] := by
        simp [apply, setByte_length]
      have hrest := ih (fs.apply (.byte ino (fs.data ino).length b))
      rw [hdata, List.length_append, List.length_singleton] at hrest
      simpa using hrest

/-! ## Order -/

theorem apply_comm (h : e.target ≠ e'.target) : (fs.apply e).apply e' = (fs.apply e').apply e := by
  cases e with
  | entry name o =>
      cases e' with
      | entry name' o' => exact (h rfl).elim
      | truncate | byte => rfl
  | truncate ino =>
      cases e' with
      | entry => rfl
      | truncate ino' =>
          have hne : ino ≠ ino' := by
            rintro rfl
            exact h rfl
          simp [apply, Function.update_comm hne]
      | byte ino' pos b =>
          have hne : ino ≠ ino' := by
            rintro rfl
            exact h rfl
          simp [apply, Function.update_comm hne, Function.update_of_ne hne.symm]
  | byte ino pos b =>
      cases e' with
      | entry => rfl
      | truncate ino' =>
          have hne : ino ≠ ino' := by
            rintro rfl
            exact h rfl
          simp [apply, Function.update_comm hne, Function.update_of_ne hne]
      | byte ino' pos' b' =>
          have hne : ino ≠ ino' := by
            rintro rfl
            exact h rfl
          simp [apply, Function.update_comm hne, Function.update_of_ne hne,
            Function.update_of_ne hne.symm]

theorem applyAll_apply_comm (h : ∀ e' ∈ es, e.target ≠ e'.target) :
    (fs.apply e).applyAll es = (fs.applyAll es).apply e := by
  induction es generalizing fs with
  | nil => rfl
  | cons e' es ih =>
      rw [applyAll_cons, apply_comm (h e' List.mem_cons_self), applyAll_cons,
        ih fun e'' he'' => h e'' (List.mem_cons_of_mem e' he'')]

/-- The effects on some targets may come first. -/
theorem applyAll_partition (q : Target Ino → Bool) (fs : Files Name Ino α)
    (es : List (Effect Name Ino α)) :
    (fs.applyAll (es.filter fun e => q e.target)).applyAll (es.filter fun e => !q e.target) =
      fs.applyAll es := by
  induction es generalizing fs with
  | nil => rfl
  | cons e es ih =>
      cases hq : q e.target with
      | true => simpa [hq] using ih (fs.apply e)
      | false =>
          have hcomm : (fs.apply e).applyAll (es.filter fun e => q e.target) =
              (fs.applyAll (es.filter fun e => q e.target)).apply e := by
            apply applyAll_apply_comm
            intro e' he' heq
            rw [List.mem_filter, ← heq, hq] at he'
            exact Bool.false_ne_true he'.2
          have hrest := ih (fs.apply e)
          rw [hcomm] at hrest
          simpa [hq] using hrest

end Files

/-! ## The disk -/

/-- What is on the disk, and the effects made since. -/
structure Disk (Name Ino α : Type) where
  durable : Files Name Ino α
  pending : List (Effect Name Ino α)

namespace Disk

variable [DecidableEq Name] [DecidableEq Ino] [Inhabited α]

/-- What the calls of the running system see. -/
def current (d : Disk Name Ino α) : Files Name Ino α := d.durable.applyAll d.pending

/-- What may be on the disk after a crash. -/
def Crash (d : Disk Name Ino α) (fs : Files Name Ino α) : Prop :=
  ∃ es, es.Sublist d.pending ∧ fs = d.durable.applyAll es

def add (d : Disk Name Ino α) (es : List (Effect Name Ino α)) : Disk Name Ino α :=
  { d with pending := d.pending ++ es }

/-- The effects on the target become durable: `fsync` of a file or of the directory. -/
def sync (d : Disk Name Ino α) (t : Target Ino) : Disk Name Ino α where
  durable := d.durable.applyAll (d.pending.filter fun e => decide (e.target = t))
  pending := d.pending.filter fun e => !decide (e.target = t)

variable {d : Disk Name Ino α} {fs : Files Name Ino α} {name : Name}

theorem current_add (d : Disk Name Ino α) (es : List (Effect Name Ino α)) :
    (d.add es).current = d.current.applyAll es := d.durable.applyAll_append d.pending es

/-- No call sees whether the disk has been synced. -/
theorem current_sync (d : Disk Name Ino α) (t : Target Ino) : (d.sync t).current = d.current :=
  d.durable.applyAll_partition (fun u => decide (u = t)) d.pending

theorem mem_sync_pending {e : Effect Name Ino α} {t : Target Ino} :
    e ∈ (d.sync t).pending ↔ e ∈ d.pending ∧ e.target ≠ t := by
  simp [sync]

theorem sync_data_dir (d : Disk Name Ino α) (ino : Ino) (name : Name) :
    (d.sync (.data ino)).durable.dir name = d.durable.dir name := by
  apply Files.applyAll_dir
  intro o ho
  cases of_decide_eq_true (List.mem_filter.mp ho).2

theorem sync_data_of_ne {t : Target Ino} {ino : Ino} (h : t ≠ .data ino) :
    (d.sync t).durable.data ino = d.durable.data ino := by
  apply Files.applyAll_data
  intro e he
  rw [of_decide_eq_true (List.mem_filter.mp he).2]
  exact h

/-- The data of a synced file is what the system saw. -/
theorem sync_data_self (d : Disk Name Ino α) (ino : Ino) :
    (d.sync (.data ino)).durable.data ino = d.current.data ino := by
  have hsame : (d.sync (.data ino)).current.data ino = (d.sync (.data ino)).durable.data ino :=
    Files.applyAll_data fun e he => (mem_sync_pending.mp he).2
  rw [← hsame, current_sync]

/-- And so are the entries of a synced directory. -/
theorem sync_dir_self (d : Disk Name Ino α) (name : Name) :
    (d.sync .dir).durable.dir name = d.current.dir name := by
  have hsame : (d.sync .dir).current.dir name = (d.sync .dir).durable.dir name :=
    Files.applyAll_dir fun o ho => (mem_sync_pending.mp ho).2 rfl
  rw [← hsame, current_sync]

theorem crash_current (d : Disk Name Ino α) : d.Crash d.current := ⟨_, List.Sublist.refl _, rfl⟩

/-- A name that leads only to files without pending data shows after a crash
what is durable or the durable data of a file that a pending entry leads to. -/
theorem Crash.contents (h : d.Crash fs)
    (hquiet : ∀ ino, d.durable.dir name = some ino ∨ Effect.entry name (some ino) ∈ d.pending →
      ∀ e ∈ d.pending, e.target ≠ .data ino) :
    fs.contents name = d.durable.contents name ∨
      ∃ o, Effect.entry name o ∈ d.pending ∧ fs.contents name = o.map d.durable.data := by
  obtain ⟨es, hsub, rfl⟩ := h
  have hdata : ∀ o, (d.durable.dir name = o ∨ Effect.entry name o ∈ d.pending) →
      o.map (d.durable.applyAll es).data = o.map d.durable.data := by
    intro o ho
    cases o with
    | none => rfl
    | some ino =>
        have hsame : (d.durable.applyAll es).data ino = d.durable.data ino :=
          Files.applyAll_data fun e he => hquiet ino ho e (hsub.subset he)
        simp [hsame]
  unfold Files.contents
  rcases d.durable.applyAll_dir_cases es name with hsame | ⟨o, ho, heq⟩
  · exact .inl (by rw [hsame, hdata _ (.inl rfl)])
  · have hmem := hsub.subset ho
    exact .inr ⟨o, hmem, by rw [heq, hdata o (.inr hmem)]⟩

end Disk

end OsLabs
