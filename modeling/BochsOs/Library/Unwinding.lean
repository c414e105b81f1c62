import Mathlib.Tactic

/-!
# Non-interference by unwinding

Several users make calls on one system; a call has an output.  `Trace step s l t`: the
calls of `l`, each with its output, lead from `s` to `t`.  A user does not notice the
others when there is a relation between the real run and the run with the calls of the
others left out that every call respects (`purged`); with a deterministic step the outputs
of a user are then the same in any two runs in which he makes the same calls
(`outputs_eq`).
-/

namespace Unwinding

variable {σ ι ω : Type*} {step : σ → ι → ω → σ → Prop}

/-- The calls of the list, with the outputs they give, lead from one state to another. -/
def Trace (step : σ → ι → ω → σ → Prop) : σ → List (ι × ω) → σ → Prop
  | s, [], t => t = s
  | s, (i, o) :: l, t => ∃ u, step s i o u ∧ Trace step u l t

/-- No call has two outcomes. -/
def Deterministic (step : σ → ι → ω → σ → Prop) : Prop :=
  ∀ s i o o' t t', step s i o t → step s i o' t' → o = o' ∧ t = t'

/-- One more call. -/
theorem Trace.snoc {s t u : σ} {l : List (ι × ω)} {i : ι} {o : ω} (h : Trace step s l t)
    (hstep : step t i o u) : Trace step s (l ++ [(i, o)]) u := by
  induction l generalizing s with
  | nil => exact ⟨u, (show t = s from h) ▸ hstep, rfl⟩
  | cons c l ih =>
      obtain ⟨v, hv, h⟩ := h
      exact ⟨v, hv, ih h⟩

/-- With a deterministic step the calls determine the outputs. -/
theorem Trace.unique (hdet : Deterministic step) {s t t' : σ} {l l' : List (ι × ω)}
    (h : Trace step s l t) (h' : Trace step s l' t') (hcalls : l.map Prod.fst = l'.map Prod.fst) :
    l = l' := by
  induction l generalizing s l' with
  | nil =>
      rw [List.map_nil, eq_comm, List.map_eq_nil_iff] at hcalls
      exact hcalls.symm
  | cons c l ih =>
      obtain ⟨i, o⟩ := c
      cases l' with
      | nil => simp at hcalls
      | cons c' l' =>
          obtain ⟨i', o'⟩ := c'
          simp only [List.map_cons, List.cons.injEq] at hcalls
          obtain ⟨rfl, hcalls⟩ := hcalls
          obtain ⟨u, hu, h⟩ := h
          obtain ⟨u', hu', h'⟩ := h'
          obtain ⟨rfl, rfl⟩ := hdet _ _ _ _ _ _ hu hu'
          rw [ih h h' hcalls]

variable {own : ι → Bool} {R : σ → σ → Prop}

/-- The run with the calls of the others left out. -/
theorem Trace.purged
    (hown : ∀ s u i o s', own i = true → R s u → step s i o s' → ∃ u', step u i o u' ∧ R s' u')
    (hother : ∀ s u i o s', own i = false → R s u → step s i o s' → R s' u)
    {s u t : σ} {l : List (ι × ω)} (h : Trace step s l t) (hR : R s u) :
    ∃ v, Trace step u (l.filter (own ·.1)) v ∧ R t v := by
  induction l generalizing s u with
  | nil => exact ⟨u, rfl, h ▸ hR⟩
  | cons c l ih =>
      obtain ⟨i, o⟩ := c
      obtain ⟨s', hstep, h⟩ := h
      cases hi : own i with
      | true =>
          obtain ⟨u', hu', hR'⟩ := hown _ _ _ _ _ hi hR hstep
          obtain ⟨v, hv, hRv⟩ := ih h hR'
          rw [List.filter_cons_of_pos (by exact hi)]
          exact ⟨v, ⟨u', hu', hv⟩, hRv⟩
      | false =>
          rw [List.filter_cons_of_neg (by simp [hi])]
          exact ih h (hother _ _ _ _ _ hi hR hstep)

/-- In any two runs in which a user makes the same calls, the calls have the same
outputs. -/
theorem outputs_eq (hdet : Deterministic step)
    (hown : ∀ s u i o s', own i = true → R s u → step s i o s' → ∃ u', step u i o u' ∧ R s' u')
    (hother : ∀ s u i o s', own i = false → R s u → step s i o s' → R s' u) (hrefl : ∀ s, R s s)
    {s t t' : σ} {l l' : List (ι × ω)} (h : Trace step s l t) (h' : Trace step s l' t')
    (hcalls : (l.map Prod.fst).filter own = (l'.map Prod.fst).filter own) :
    l.filter (own ·.1) = l'.filter (own ·.1) := by
  obtain ⟨v, hv, -⟩ := h.purged hown hother (hrefl s)
  obtain ⟨v', hv', -⟩ := h'.purged hown hother (hrefl s)
  refine hv.unique hdet hv' ?_
  rw [List.filter_map, List.filter_map] at hcalls
  exact hcalls

end Unwinding
