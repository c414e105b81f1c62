import BochsOs.Library.Prog

/-!
# Programs that follow one another

`Follows e R x y`: whenever `x` runs to its end, so does `y` from a related state, with the
same result and again in related states.  With `R` the agreement of two states on the part
that matters, this compares two runs of one program; with `Eq` and two different bounds on a
recursion it says that more fuel does no harm.
-/

namespace Suspend.Prog

variable {σ τ α β : Type} {e : Env} {R : σ → τ → Prop}

/-- What `x` ensures, `y` ensures from a related state. -/
def Follows (e : Env) (R : σ → τ → Prop) (x : Prog σ α) (y : Prog τ α) : Prop :=
  ∀ ⦃P : α → σ → Prop⦄ ⦃Q : α → τ → Prop⦄ ⦃s : σ⦄ ⦃t : τ⦄, R s t →
    (∀ a s' t', R s' t' → P a s' → Q a t') → x.ensures e P s → y.ensures e Q t

namespace Follows

theorem pure (a : α) : Follows e R (Pure.pure a : Prog σ α) (Pure.pure a : Prog τ α) :=
  fun _ _ s t hR hPQ h => hPQ a s t hR h

/-- A program that stops is followed by every program. -/
theorem stop (hstops : ¬ e.stops) (f : Fault) (y : Prog τ α) : Follows e R (Prog.stop f) y :=
  fun _ _ _ _ _ _ h => absurd h hstops

theorem write {s : σ} {t : τ} (h : R s t) : Follows e R (Prog.write s) (Prog.write t) :=
  fun _ _ _ _ _ hPQ hP => hPQ () s t h hP

theorem modify {f : σ → σ} {g : τ → τ} (h : ∀ s t, R s t → R (f s) (g t)) :
    Follows e R (Prog.modify f) (Prog.modify g) :=
  fun _ _ s t hR hPQ hP => hPQ () (f s) (g t) (h s t hR) hP

theorem assert (hstops : ¬ e.stops) {b c : Bool} (hbc : b = true → c = true) :
    Follows e R (Prog.assert b : Prog σ Unit) (Prog.assert c : Prog τ Unit) := by
  intro P Q s t hR hPQ h
  cases b with
  | false => exact absurd h hstops
  | true =>
      rw [hbc rfl]
      exact hPQ () s t hR h

theorem bind {x : Prog σ α} {y : Prog τ α} {f : α → Prog σ β} {g : α → Prog τ β}
    (hx : Follows e R x y) (hf : ∀ a, Follows e R (f a) (g a)) : Follows e R (x >>= f) (y >>= g) := by
  intro P Q s t hR hPQ h
  rw [ensures_bind] at h ⊢
  exact hx hR (fun a s' t' hR' hP => hf a hR' hPQ hP) h

theorem read_bind {f : σ → Prog σ α} {g : τ → Prog τ α}
    (h : ∀ s t, R s t → Follows e R (f s) (g t)) : Follows e R (Prog.read >>= f) (Prog.read >>= g) := by
  intro P Q s t hR hPQ hP
  rw [ensures_bind, ensures_read] at hP ⊢
  exact h s t hR hR hPQ hP

theorem arbitrary_bind {f : ℕ → Prog σ α} {g : ℕ → Prog τ α} (h : ∀ n, Follows e R (f n) (g n)) :
    Follows e R (Prog.arbitrary >>= f) (Prog.arbitrary >>= g) := by
  intro P Q s t hR hPQ hP
  rw [ensures_bind, ensures_arbitrary] at hP ⊢
  exact fun n hn => h n hR hPQ (hP n hn)

/-- A program follows itself. -/
theorem self (x : Prog σ α) : Follows e Eq x x := by
  intro P Q s t hst hPQ h
  rw [← hst]
  exact ensures_mono h fun a s' hP => hPQ a s' s' rfl hP

end Follows

/-- With all answers `0`, a program that comes to its end has a single outcome. -/
theorem exists_outcome {x : Prog σ α} {s : σ} {P : α → σ → Prop} (h : x.ensures .zero P s) :
    ∃ a t, ∀ Q : α → σ → Prop, x.ensures .zero Q s ↔ Q a t := by
  induction x generalizing s with
  | ret a => exact ⟨a, s, fun _ => Iff.rfl⟩
  | stop f => exact h.elim
  | get k ih => exact ih s h
  | set t k ih => exact ih h
  | choose k ih =>
      obtain ⟨a, t, hout⟩ := ih 0 (h 0 rfl)
      exact ⟨a, t, fun Q => forall_eq.trans (hout Q)⟩
  | pause k ih => exact ih h

end Suspend.Prog
