import Mathlib.Data.List.Infix

/-! # Words

The words of a list are its longest parts without separators.
-/

namespace OsLabs

variable {α : Type} {sep : α → Bool}

/-- The non-empty parts between separators. -/
def words [DecidableEq α] (sep : α → Bool) (cs : List α) : List (List α) :=
  (cs.splitOnP sep).filter (· ≠ [])

/-- The first part starts the list, and the others lie in it. -/
theorem splitOnP_parts (sep : α → Bool) (cs : List α) :
    ∃ v vs, cs.splitOnP sep = v :: vs ∧ v <+: cs ∧ ∀ w ∈ vs, w <:+: cs := by
  induction cs with
  | nil => exact ⟨[], [], rfl, List.prefix_rfl, by simp⟩
  | cons c cs ih =>
      obtain ⟨v, vs, hparts, hv, hvs⟩ := ih
      have htail : cs <:+: c :: cs := (List.suffix_cons c cs).isInfix
      rw [List.splitOnP_cons_eq_if_modifyHead, hparts]
      by_cases hc : sep c = true
      · rw [if_pos hc]
        refine ⟨[], v :: vs, rfl, List.nil_prefix, ?_⟩
        intro w hw
        rcases List.mem_cons.mp hw with rfl | hmem
        · exact hv.isInfix.trans htail
        · exact (hvs w hmem).trans htail
      · rw [if_neg hc]
        exact ⟨c :: v, vs, rfl, (List.prefix_cons_inj c).mpr hv, fun w hw => (hvs w hw).trans htail⟩

theorem infix_of_mem_splitOnP {cs w : List α} (h : w ∈ cs.splitOnP sep) : w <:+: cs := by
  obtain ⟨v, vs, hparts, hv, hvs⟩ := splitOnP_parts sep cs
  rw [hparts] at h
  rcases List.mem_cons.mp h with rfl | hmem
  · exact hv.isInfix
  · exact hvs w hmem

theorem not_sep_of_mem_splitOnP {cs w : List α} (h : w ∈ cs.splitOnP sep) :
    ∀ c ∈ w, sep c = false := by
  induction cs generalizing w with
  | nil =>
      rw [List.splitOnP_nil, List.mem_singleton] at h
      simp [h]
  | cons c cs ih =>
      obtain ⟨v, vs, hparts⟩ := List.exists_cons_of_ne_nil (List.splitOnP_ne_nil sep cs)
      rw [List.splitOnP_cons_eq_if_modifyHead, hparts] at h
      rw [hparts] at ih
      by_cases hc : sep c = true
      · rw [if_pos hc] at h
        rcases List.mem_cons.mp h with rfl | hw
        · simp
        · exact ih hw
      · rw [if_neg hc] at h
        rcases List.mem_cons.mp h with rfl | hw
        · exact List.forall_mem_cons.mpr ⟨by simpa using hc, ih List.mem_cons_self⟩
        · exact ih (List.mem_cons_of_mem v hw)

variable [DecidableEq α]

theorem not_sep_of_mem_words {cs w : List α} (h : w ∈ words sep cs) : ∀ c ∈ w, sep c = false :=
  not_sep_of_mem_splitOnP (List.mem_filter.mp h).1

theorem infix_of_mem_words {cs w : List α} (h : w ∈ words sep cs) : w <:+: cs :=
  infix_of_mem_splitOnP (List.mem_filter.mp h).1

theorem words_append_sep {c : α} (hc : sep c = true) (xs ys : List α) :
    words sep (xs ++ c :: ys) = words sep xs ++ words sep ys := by
  rw [words, List.splitOnP_append_cons xs ys hc, List.filter_append]
  rfl

theorem words_of_forall {cs : List α} (hne : cs ≠ []) (h : ∀ c ∈ cs, sep c = false) :
    words sep cs = [cs] := by
  rw [words, List.splitOnP_eq_singleton h]
  simp [hne]

/-- A word with a separator before it, behind a list. -/
theorem words_append_word {c : α} (hc : sep c = true) (xs : List α) {w : List α} (hne : w ≠ [])
    (hw : ∀ d ∈ w, sep d = false) : words sep (xs ++ c :: w) = words sep xs ++ [w] := by
  rw [words_append_sep hc, words_of_forall hne hw]

/-- A part that touches nothing but separators is a word. -/
theorem mem_words_of_touches {xs w ys : List α} (hne : w ≠ []) (hw : ∀ c ∈ w, sep c = false)
    (hbefore : ∀ c, xs.getLast? = some c → sep c = true)
    (hbehind : ∀ c, ys.head? = some c → sep c = true) : w ∈ words sep (xs ++ w ++ ys) := by
  have hfront : w ∈ words sep (xs ++ w) := by
    rcases List.eq_nil_or_concat xs with rfl | ⟨xs, c, rfl⟩
    · rw [List.nil_append, words_of_forall hne hw]
      exact List.mem_singleton_self w
    · have hc : sep c = true := hbefore c (by simp)
      rw [List.concat_eq_append, List.append_assoc, List.singleton_append,
        words_append_word hc xs hne hw]
      exact List.mem_append_right _ (List.mem_singleton_self w)
  cases ys with
  | nil => rwa [List.append_nil]
  | cons d ys =>
      rw [words_append_sep (hbehind d rfl)]
      exact List.mem_append_left _ hfront

theorem words_ne_nil {cs : List α} {c : α} (h : c ∈ cs) (hc : sep c = false) :
    words sep cs ≠ [] := by
  induction cs with
  | nil => cases h
  | cons d ds ih =>
      by_cases hd : sep d = true
      · have hmem : c ∈ ds := by
          rcases List.mem_cons.mp h with rfl | hmem
          · rw [hc] at hd
            cases hd
          · exact hmem
        have hsplit := words_append_sep hd [] ds
        rw [List.nil_append] at hsplit
        rw [hsplit]
        exact List.append_ne_nil_of_right_ne_nil _ (ih hmem)
      · obtain ⟨v, vs, hparts⟩ := List.exists_cons_of_ne_nil (List.splitOnP_ne_nil sep ds)
        rw [words, List.splitOnP_cons_eq_if_modifyHead, if_neg hd, hparts, List.modifyHead_cons]
        simp

end OsLabs
