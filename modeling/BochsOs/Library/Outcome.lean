import BochsOs.Library.Prog

/-!
# The run in which every request is granted

A program asks the environment for what it does not control, and `0` is the answer of an
environment that has what is asked for.  With all answers `0` there is just one run, and
`outcome x s` is what becomes of it: the result and the last state, or the fault with which the
program stops.
-/

namespace Suspend.Prog

variable {σ τ α β : Type}

/-- What `x` does from `s` when every answer is `0`. -/
def outcome : Prog σ α → σ → Except Fault (α × σ)
  | ret a, s => .ok (a, s)
  | stop f, _ => .error f
  | get k, s => outcome (k s) s
  | set s k, _ => outcome k s
  | choose k, s => outcome (k 0) s
  | pause k, s => outcome k s

variable {x : Prog σ α} {f : α → Prog σ β} {s t : σ} {a : α}

@[simp] theorem outcome_pure : outcome (pure a : Prog σ α) s = .ok (a, s) := rfl

@[simp] theorem outcome_stop {e : Fault} : outcome (stop e : Prog σ α) s = .error e := rfl

@[simp] theorem outcome_read : outcome (read : Prog σ σ) s = .ok (s, s) := rfl

@[simp] theorem outcome_write : outcome (write t : Prog σ Unit) s = .ok ((), t) := rfl

@[simp] theorem outcome_modify {g : σ → σ} : outcome (modify g) s = .ok ((), g s) := rfl

@[simp] theorem outcome_arbitrary : outcome (arbitrary : Prog σ ℕ) s = .ok (0, s) := rfl

@[simp] theorem outcome_block : outcome (block : Prog σ Unit) s = .ok ((), s) := rfl

theorem outcome_assert {c : Bool} (hc : c = true) : outcome (assert c : Prog σ Unit) s = .ok ((), s) := by
  rw [hc]
  rfl

theorem outcome_assert_false {c : Bool} (hc : c = false) :
    outcome (assert c : Prog σ Unit) s = .error .halt := by
  rw [hc]
  rfl

/-- One part after the other. -/
theorem outcome_bind :
    outcome (x >>= f) s = (outcome x s).bind fun r => outcome (f r.1) r.2 := by
  change outcome (bind x f) s = _
  induction x generalizing s with
  | ret a => rfl
  | stop e => rfl
  | get k ih => exact ih s
  | set t k ih => exact ih
  | choose k ih => exact ih 0
  | pause k ih => exact ih

/-- The first part returns. -/
theorem outcome_bind_ok (h : outcome x s = .ok (a, t)) : outcome (x >>= f) s = outcome (f a) t := by
  rw [outcome_bind, h]
  rfl

/-- The first part stops. -/
theorem outcome_bind_error {e : Fault} (h : outcome x s = .error e) :
    outcome (x >>= f) s = .error e := by
  rw [outcome_bind, h]
  rfl

/-- Reading the state and going on is going on with the state. -/
theorem outcome_read_bind {g : σ → Prog σ α} : outcome (read >>= g) s = outcome (g s) s := rfl

/-- The outcome is one of the things that the program can return. -/
theorem returns_of_outcome (h : outcome x s = .ok (a, t)) : Returns x s a t := by
  induction x generalizing s with
  | ret b =>
      simp only [outcome, Except.ok.injEq, Prod.mk.injEq] at h
      exact ⟨h.1.symm, h.2.symm⟩
  | stop e => cases h
  | get k ih => exact ih s h
  | set u k ih => exact ih h
  | choose k ih => exact ⟨0, ih 0 h⟩
  | pause k ih => exact ih h

/-- A program that returns when every answer is `0` has an outcome. -/
theorem outcome_of_ensures_post {Q : α → σ → Prop} (h : ensures Env.zero x Q s) :
    ∃ a t, outcome x s = .ok (a, t) ∧ Q a t := by
  induction x generalizing s with
  | ret a => exact ⟨a, s, rfl, h⟩
  | stop e => exact h.elim
  | get k ih => exact ih s h
  | set u k ih => exact ih h
  | choose k ih => exact ih 0 (h 0 rfl)
  | pause k ih => exact ih h

/-- A program that ensures one result and one state has them as its outcome. -/
theorem outcome_of_ensures (h : ensures Env.zero x (fun b u => b = a ∧ u = t) s) :
    outcome x s = .ok (a, t) := by
  obtain ⟨_, _, hout, rfl, rfl⟩ := outcome_of_ensures_post h
  exact hout

/-- A program that succeeds has an outcome. -/
theorem outcome_of_succeeds {Q : α → σ → Prop} (h : succeeds x Q s) :
    ∃ a t, outcome x s = .ok (a, t) ∧ Q a t := by
  induction x generalizing s with
  | ret a => exact ⟨a, s, rfl, h⟩
  | stop e => exact h.elim
  | get k ih => exact ih s h
  | set u k ih => exact ih h
  | choose k ih => exact ih 0 (h 0)
  | pause k ih => exact ih h

/-- The outcome of a program that succeeds with one result. -/
theorem outcome_of_succeeds_ret {P Q : σ → Prop} (h : succeeds x (fun r t => r = a ∧ P t) s)
    (hPQ : ∀ t, P t → Q t) : ∃ t, outcome x s = .ok (a, t) ∧ Q t := by
  obtain ⟨_, t, hout, rfl, ht⟩ := outcome_of_succeeds h
  exact ⟨t, hout, hPQ t ht⟩

/-- What every run returns has the outcome too. -/
theorem outcome_of_wp {Q : α → σ → Prop} (h : wp x Q s) (hret : outcome x s = .ok (a, t)) : Q a t :=
  wp_iff_returns.mp h a t (returns_of_outcome hret)

/-- An outcome whose result is computed. -/
theorem exists_outcome_of_map (h : (outcome x s).toOption.map Prod.fst = some a) :
    ∃ t, outcome x s = .ok (a, t) := by
  rcases hout : outcome x s with e | ⟨b, t⟩
  · rw [hout] at h
    cases h
  · rw [hout] at h
    exact ⟨t, congrArg (fun b => Except.ok (b, t)) (Option.some.inj h)⟩

/-- The execution in which all answers are `0` is the outcome. -/
theorem exec_nil : x.exec [] s = (outcome x s).toOption := by
  induction x generalizing s with
  | ret a => rfl
  | stop e => rfl
  | get k ih => exact ih s
  | set t k ih => exact ih
  | choose k ih => exact ih 0
  | pause k ih => exact ih

/-- An outcome whose result is computed, with the state after the program. -/
theorem outcome_after (h : (outcome x s).toOption.map Prod.fst = some a) :
    outcome x s = .ok (a, after x s) := by
  obtain ⟨t, hout⟩ := exists_outcome_of_map h
  have hexec : x.exec [] s = some (a, t) := by
    rw [exec_nil, hout]
    rfl
  rw [hout, after, hexec]
  rfl

/-- The outcome of a program over a part of the state. -/
theorem outcome_focus {part : τ → σ} {put : σ → τ → τ} (hpart : ∀ s t, part (put s t) = s)
    (hput : ∀ s s' t, put s (put s' t) = put s t) (hself : ∀ t, put (part t) t = t) {u : τ} :
    outcome (focus part put x) u =
      (outcome x (part u)).map fun r => (r.1, put r.2 u) := by
  induction x generalizing u with
  | ret a => exact congrArg (fun v => Except.ok (a, v)) (hself u).symm
  | stop e => rfl
  | get k ih => exact ih (part u)
  | set t k ih =>
      simp only [focus, outcome]
      rw [ih, hpart]
      simp only [hput]
  | choose k ih => exact ih 0
  | pause k ih => exact ih

/-! ## Programs that ask for nothing -/

/-- A program that asks the environment for nothing. -/
def Decided : Prog σ α → Prop
  | ret _ => True
  | stop _ => True
  | get k => ∀ s, Decided (k s)
  | set _ k => Decided k
  | choose _ => False
  | pause k => Decided k

namespace Decided

theorem pure (a : α) : Decided (Pure.pure a : Prog σ α) := trivial

theorem stop (e : Fault) : Decided (Prog.stop e : Prog σ α) := trivial

theorem read : Decided (Prog.read : Prog σ σ) := fun _ => trivial

theorem write (t : σ) : Decided (Prog.write t) := trivial

theorem modify (g : σ → σ) : Decided (Prog.modify g) := fun _ => trivial

theorem block : Decided (Prog.block : Prog σ Unit) := trivial

theorem assert (c : Bool) : Decided (Prog.assert c : Prog σ Unit) := by
  cases c with
  | false => trivial
  | true => trivial

theorem bind (hx : Decided x) (hf : ∀ a, Decided (f a)) : Decided (x >>= f) := by
  change Decided (Prog.bind x f)
  induction x with
  | ret a => exact hf a
  | stop e => trivial
  | get k ih => exact fun s => ih s (hx s)
  | set u k ih => exact ih hx
  | choose k ih => exact hx.elim
  | pause k ih => exact ih hx

/-- What such a program returns is its outcome. -/
theorem outcome_of_returns (hx : Decided x) (h : Returns x s a t) : outcome x s = .ok (a, t) := by
  induction x generalizing s with
  | ret b =>
      obtain ⟨rfl, rfl⟩ := h
      rfl
  | stop e => exact h.elim
  | get k ih => exact ih s (hx s) h
  | set u k ih => exact ih hx h
  | choose k ih => exact hx.elim
  | pause k ih => exact ih hx h

/-- A program whose outcome is a fault returns nothing. -/
theorem wp_of_error (hx : Decided x) {e : Fault} (h : outcome x s = .error e) {Q : α → σ → Prop} :
    wp x Q s :=
  wp_iff_returns.mpr fun a t hret => by
    have hok := hx.outcome_of_returns hret
    rw [h] at hok
    cases hok

/-- A program that asks for nothing stops with a fault only in its outcome. -/
theorem avoids_of_outcome (hx : Decided x) {e : Fault} (h : outcome x s ≠ .error e) : avoids e x s := by
  induction x generalizing s with
  | ret a => trivial
  | stop e' => exact fun heq => h (congrArg _ heq)
  | get k ih => exact ih s (hx s) h
  | set u k ih => exact ih hx h
  | choose k ih => exact hx.elim
  | pause k ih => exact ih hx h

end Decided

/-- A program that does not stop with a fault has another outcome. -/
theorem outcome_ne_of_avoids {e : Fault} (h : avoids e x s) : outcome x s ≠ .error e := by
  induction x generalizing s with
  | ret a => exact fun hne => by cases hne
  | stop e' =>
      intro heq
      cases heq
      exact h rfl
  | get k ih => exact ih s h
  | set u k ih => exact ih h
  | choose k ih => exact ih 0 (h 0)
  | pause k ih => exact ih h

end Suspend.Prog
