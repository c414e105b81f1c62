import BochsOs.Library.Prog

/-!
# Programs that never block

`unblocked x Q s`: whatever the environment answers, the program `x` returns from `s` without
giving up the processor on the way, and what it returns satisfies `Q`.
-/

namespace Suspend

namespace Prog

variable {σ α β : Type}

/-- The program returns from `s` without blocking, and what it returns satisfies `Q`. -/
def unblocked : Prog σ α → (α → σ → Prop) → σ → Prop
  | ret a, Q, s => Q a s
  | stop _, _, _ => False
  | get k, Q, s => unblocked (k s) Q s
  | set s k, Q, _ => unblocked k Q s
  | choose k, Q, s => ∀ n, unblocked (k n) Q s
  | pause _, _, _ => False

variable {x : Prog σ α} {f : α → Prog σ β} {s : σ}

/-- A program that never blocks succeeds. -/
theorem succeeds_of_unblocked {Q : α → σ → Prop} (h : unblocked x Q s) : succeeds x Q s := by
  induction x generalizing s with
  | ret a => exact h
  | stop e => exact h
  | get k ih => exact ih s h
  | set t k ih => exact ih h
  | choose k ih => exact fun n => ih n (h n)
  | pause k ih => exact h.elim

theorem unblocked_mono {Q R : α → σ → Prop} (h : unblocked x Q s) (hQR : ∀ a t, Q a t → R a t) :
    unblocked x R s := by
  induction x generalizing s with
  | ret a => exact hQR a s h
  | stop e => exact h
  | get k ih => exact ih s h
  | set t k ih => exact ih h
  | choose k ih => exact fun n => ih n (h n)
  | pause k ih => exact h

/-- What a program returns when it never blocks it returns. -/
theorem unblocked_of_wp {Q R : α → σ → Prop} (h : unblocked x Q s) (hwp : wp x R s) :
    unblocked x R s := by
  induction x generalizing s with
  | ret a => exact hwp
  | stop e => exact h
  | get k ih => exact ih s h hwp
  | set t k ih => exact ih h hwp
  | choose k ih => exact fun n => ih n (h n) (hwp n)
  | pause k ih => exact h

@[simp] theorem unblocked_pure {a : α} {Q : α → σ → Prop} :
    unblocked (pure a : Prog σ α) Q s ↔ Q a s := Iff.rfl

@[simp] theorem unblocked_stop {e : Fault} {Q : α → σ → Prop} :
    unblocked (stop e) Q s ↔ False := Iff.rfl

@[simp] theorem unblocked_read {Q : σ → σ → Prop} : unblocked read Q s ↔ Q s s := Iff.rfl

@[simp] theorem unblocked_write {t : σ} {Q : Unit → σ → Prop} :
    unblocked (write t) Q s ↔ Q () t := Iff.rfl

@[simp] theorem unblocked_arbitrary {Q : ℕ → σ → Prop} :
    unblocked arbitrary Q s ↔ ∀ n, Q n s := Iff.rfl

@[simp] theorem unblocked_block {Q : Unit → σ → Prop} : unblocked block Q s ↔ False := Iff.rfl

@[simp] theorem unblocked_assert {c : Bool} {Q : Unit → σ → Prop} :
    unblocked (assert c) Q s ↔ c = true ∧ Q () s := by
  cases c <;> simp [assert, unblocked]

@[simp] theorem unblocked_bind {Q : β → σ → Prop} :
    unblocked (x >>= f) Q s ↔ unblocked x (fun a t => unblocked (f a) Q t) s := by
  change unblocked (bind x f) Q s ↔ _
  induction x generalizing s with
  | ret a => exact Iff.rfl
  | stop e => exact Iff.rfl
  | get k ih => exact ih s
  | set t k ih => exact ih
  | choose k ih => exact forall_congr' fun n => ih n
  | pause k ih => exact Iff.rfl

end Prog

end Suspend
