import Mathlib.Data.List.Range
import Mathlib.Tactic.NormNum

/-! # While loops with fuel

A loop body either continues with a new state or leaves with a value. The fuel
keeps `run` structurally recursive. Total correctness is one rule: an invariant
the body keeps and a measure it decreases, and any fuel above the measure does.
-/

namespace OsLabs.Loop

variable {σ β : Type}

def run (body : σ → σ ⊕ β) : Nat → σ → Option β
  | 0, _ => none
  | fuel + 1, s =>
      match body s with
      | .inl s' => run body fuel s'
      | .inr b => some b

theorem run_succ_of_continue {body : σ → σ ⊕ β} {s s' : σ} (fuel : Nat)
    (h : body s = .inl s') : run body (fuel + 1) s = run body fuel s' := by
  simp [run, h]

theorem run_succ_of_leave {body : σ → σ ⊕ β} {s : σ} {b : β} (fuel : Nat)
    (h : body s = .inr b) : run body (fuel + 1) s = some b := by
  simp [run, h]

/-- Under the invariant the body decreases the measure or leaves with a value
that meets the postcondition. -/
theorem run_of_measure {body : σ → σ ⊕ β} {I : σ → Prop} {Q : β → Prop} (μ : σ → Nat)
    (hcontinue : ∀ s s', I s → body s = .inl s' → I s' ∧ μ s' < μ s)
    (hleave : ∀ s b, I s → body s = .inr b → Q b) {s : σ} (h : I s) {fuel : Nat}
    (hfuel : μ s < fuel) : ∃ b, run body fuel s = some b ∧ Q b := by
  induction fuel generalizing s with
  | zero => omega
  | succ fuel ih =>
      cases hbody : body s with
      | inl s' =>
          have hnext := hcontinue s s' h hbody
          rw [run_succ_of_continue fuel hbody]
          exact ih hnext.1 (by omega)
      | inr b =>
          rw [run_succ_of_leave fuel hbody]
          exact ⟨b, rfl, hleave s b h hbody⟩

/-! ## Loops with a stride

`for (size_t i = 0; i < stop; i += stride)`, with an index of 64 bits. -/

/-- The multiples of `stride` below `stop`. -/
def strides (stride stop : Nat) : List Nat :=
  (List.range ((stop + stride - 1) / stride)).map (· * stride)

def strideBody (f : σ → Nat → σ) (stride stop : Nat) : Nat × σ → (Nat × σ) ⊕ σ
  | (i, s) => if i < stop then .inl ((i + stride) % 2 ^ 64, f s i) else .inr s

def strideRun (f : σ → Nat → σ) (stride stop fuel : Nat) (s : σ) : Option σ :=
  run (strideBody f stride stop) fuel (0, s)

@[simp] theorem strides_length (stride stop : Nat) :
    (strides stride stop).length = (stop + stride - 1) / stride := by
  simp [strides]

theorem lt_length_strides {stride stop j : Nat} (hstride : 0 < stride) :
    j < (strides stride stop).length ↔ j * stride < stop := by
  rw [strides_length, Nat.lt_iff_add_one_le, Nat.le_div_iff_mul_le hstride, Nat.succ_mul]
  omega

theorem mem_strides {stride stop x : Nat} (hstride : 0 < stride) :
    x ∈ strides stride stop ↔ x < stop ∧ stride ∣ x := by
  have hlength (j : Nat) := @lt_length_strides stride stop j hstride
  rw [strides_length] at hlength
  simp only [strides, List.mem_map, List.mem_range, hlength]
  constructor
  · intro ⟨j, hj, hx⟩
    exact ⟨hx ▸ hj, hx ▸ Nat.dvd_mul_left stride j⟩
  · intro ⟨hx, j, hj⟩
    rw [Nat.mul_comm] at hj
    exact ⟨j, hj ▸ hx, hj.symm⟩

/-- After `j` rounds the first `j` multiples are done. -/
def StrideInv (f : σ → Nat → σ) (stride stop : Nat) (s : σ) (t : Nat × σ) : Prop :=
  ∃ j ≤ (strides stride stop).length,
    t = (j * stride, ((strides stride stop).take j).foldl f s)

theorem StrideInv.step {f : σ → Nat → σ} {stride stop : Nat} {s : σ} {t t' : Nat × σ}
    (hstride : 0 < stride) (hfit : stop + stride ≤ 2 ^ 64) (h : StrideInv f stride stop s t)
    (hbody : strideBody f stride stop t = .inl t') :
    StrideInv f stride stop s t' ∧ stop - t'.1 < stop - t.1 := by
  obtain ⟨j, hj, rfl⟩ := h
  by_cases hlt : j * stride < stop
  · simp only [strideBody, if_pos hlt, Sum.inl.injEq] at hbody
    subst hbody
    have hnext := (lt_length_strides hstride).mpr hlt
    have hmod : (j * stride + stride) % 2 ^ 64 = (j + 1) * stride := by
      rw [Nat.mod_eq_of_lt (by omega), Nat.succ_mul]
    refine ⟨⟨j + 1, hnext, ?_⟩, ?_⟩
    · rw [hmod, List.take_succ_eq_append_getElem hnext, List.foldl_append]
      simp [strides]
    · rw [hmod, Nat.succ_mul]
      omega
  · simp [strideBody, hlt] at hbody

theorem StrideInv.leave {f : σ → Nat → σ} {stride stop : Nat} {s b : σ} {t : Nat × σ}
    (hstride : 0 < stride) (h : StrideInv f stride stop s t)
    (hbody : strideBody f stride stop t = .inr b) : b = (strides stride stop).foldl f s := by
  obtain ⟨j, hj, rfl⟩ := h
  by_cases hlt : j * stride < stop
  · simp [strideBody, hlt] at hbody
  · simp only [strideBody, if_neg hlt, Sum.inr.injEq] at hbody
    have hall : j = (strides stride stop).length :=
      Nat.le_antisymm hj (Nat.le_of_not_lt (hlt ∘ (lt_length_strides hstride).mp))
    rw [← hbody, hall, List.take_length]

/-- The loop folds its body over the multiples; the index does not wrap around. -/
theorem strideRun_eq (f : σ → Nat → σ) {stride stop fuel : Nat} (hstride : 0 < stride)
    (hfit : stop + stride ≤ 2 ^ 64) (hfuel : stop < fuel) (s : σ) :
    strideRun f stride stop fuel s = some ((strides stride stop).foldl f s) := by
  have hloop : ∃ b, run (strideBody f stride stop) fuel (0, s) = some b ∧
      b = (strides stride stop).foldl f s := by
    apply run_of_measure (I := StrideInv f stride stop s) (fun t => stop - t.1)
    · intro t t' h hbody
      exact h.step hstride hfit hbody
    · intro t b h hbody
      exact h.leave hstride hbody
    · exact ⟨0, Nat.zero_le _, by simp⟩
    · exact hfuel
  obtain ⟨b, hrun, hb⟩ := hloop
  rw [strideRun, hrun, hb]

end OsLabs.Loop
