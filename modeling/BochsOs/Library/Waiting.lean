import BochsOs.Library.Prog

/-!
# Programs among others

`amid R x Q s`: whatever `x` returns from `s` satisfies `Q`, where the others change the state as
`R` allows each time that `x` is switched out.  A program that is never switched out, `steady`,
does not see the others (`amid_iff_wp`).
-/

namespace Suspend

namespace Prog

variable {σ α β : Type}

/-- What the program returns from `s` among others that change the state by `R` satisfies `Q`. -/
def amid (R : σ → σ → Prop) : Prog σ α → (α → σ → Prop) → σ → Prop
  | ret a, Q, s => Q a s
  | stop _, _, _ => True
  | get k, Q, s => amid R (k s) Q s
  | set s k, Q, _ => amid R k Q s
  | choose k, Q, s => ∀ n, amid R (k n) Q s
  | pause k, Q, s => ∀ t, R s t → amid R k Q t

/-- The program is never switched out. -/
def steady : Prog σ α → Prop
  | ret _ => True
  | stop _ => True
  | get k => ∀ s, steady (k s)
  | set _ k => steady k
  | choose k => ∀ n, steady (k n)
  | pause _ => False

variable {R : σ → σ → Prop} {x : Prog σ α} {f : α → Prog σ β} {s : σ}

/-! ## Among others -/

theorem amid_mono {Q Q' : α → σ → Prop} (h : amid R x Q s) (hQ : ∀ a t, Q a t → Q' a t) :
    amid R x Q' s := by
  induction x generalizing s with
  | ret a => exact hQ a s h
  | stop e => trivial
  | get k ih => exact ih s h
  | set t k ih => exact ih h
  | choose k ih => exact fun n => ih n (h n)
  | pause k ih => exact fun t ht => ih (h t ht)

@[simp] theorem amid_pure {a : α} {Q : α → σ → Prop} : amid R (pure a : Prog σ α) Q s ↔ Q a s :=
  Iff.rfl

@[simp] theorem amid_stop {e : Fault} {Q : α → σ → Prop} : amid R (stop e) Q s ↔ True := Iff.rfl

@[simp] theorem amid_read {Q : σ → σ → Prop} : amid R read Q s ↔ Q s s := Iff.rfl

@[simp] theorem amid_write {t : σ} {Q : Unit → σ → Prop} : amid R (write t) Q s ↔ Q () t := Iff.rfl

@[simp] theorem amid_modify {g : σ → σ} {Q : Unit → σ → Prop} :
    amid R (modify g) Q s ↔ Q () (g s) := Iff.rfl

@[simp] theorem amid_block {Q : Unit → σ → Prop} : amid R block Q s ↔ ∀ t, R s t → Q () t := Iff.rfl

@[simp] theorem amid_assert {c : Bool} {Q : Unit → σ → Prop} :
    amid R (assert c) Q s ↔ (c = true → Q () s) := by
  cases c <;> simp [assert, amid]

@[simp] theorem amid_bind {Q : β → σ → Prop} :
    amid R (x >>= f) Q s ↔ amid R x (fun a t => amid R (f a) Q t) s := by
  change amid R (bind x f) Q s ↔ _
  induction x generalizing s with
  | ret a => exact Iff.rfl
  | stop e => exact Iff.rfl
  | get k ih => exact ih s
  | set t k ih => exact ih
  | choose k ih => exact forall_congr' fun n => ih n
  | pause k ih => exact forall_congr' fun t => forall_congr' fun _ => ih

/-! ## Steady programs -/

@[simp] theorem steady_pure {a : α} : steady (pure a : Prog σ α) := trivial

@[simp] theorem steady_stop {e : Fault} : steady (stop e : Prog σ α) := trivial

@[simp] theorem steady_read : steady (read : Prog σ σ) := fun _ => trivial

@[simp] theorem steady_write {t : σ} : steady (write t) := trivial

@[simp] theorem steady_modify {g : σ → σ} : steady (modify g) := fun _ => trivial

@[simp] theorem steady_assert {c : Bool} : steady (assert c : Prog σ Unit) := by
  cases c <;> trivial

theorem steady_bind (hx : steady x) (hf : ∀ a, steady (f a)) : steady (x >>= f) := by
  change steady (bind x f)
  induction x with
  | ret a => exact hf a
  | stop e => trivial
  | get k ih => exact fun s => ih s (hx s)
  | set t k ih => exact ih hx
  | choose k ih => exact fun n => ih n (hx n)
  | pause k ih => exact hx.elim

theorem steady_ite {c : Prop} [Decidable c] {y : Prog σ α} (hx : steady x) (hy : steady y) :
    steady (if c then x else y) := by
  split
  · exact hx
  · exact hy

theorem steady_focus {τ : Type} {part : τ → σ} {put : σ → τ → τ} (hx : steady x) :
    steady (focus part put x) := by
  induction x with
  | ret a => trivial
  | stop e => trivial
  | get k ih => exact fun t => ih _ (hx _)
  | set s k ih => exact fun t => ih hx
  | choose k ih => exact fun n => ih n (hx n)
  | pause k ih => exact hx.elim

/-- A steady program does not see the others. -/
theorem amid_iff_wp (hx : steady x) {Q : α → σ → Prop} : amid R x Q s ↔ wp x Q s := by
  induction x generalizing s with
  | ret a => exact Iff.rfl
  | stop e => exact Iff.rfl
  | get k ih => exact ih s (hx s)
  | set t k ih => exact ih hx
  | choose k ih => exact forall_congr' fun n => ih n (hx n)
  | pause k ih => exact hx.elim

end Prog

end Suspend
