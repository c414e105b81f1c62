import Mathlib.Tactic

/-!
# Programs that can be suspended

Kernel code runs with interrupts off and gives up the processor only where it
blocks.  `Prog σ α` is such code over a global state `σ`: it reads and writes
the state, asks its environment for a number it does not control (whether an
allocation succeeds, what an uninitialised variable holds), marks the points at
which it may be switched out, returns an `α`, or stops for good.

* `Returns x s a t`: run on its own from `s`, the program can return `a` in
  state `t`.
* `wp x Q s`: whatever `x` returns from `s` satisfies `Q`; a program that stops
  satisfies every `wp`.
* `succeeds x Q s`: `x` returns from `s`, and what it returns satisfies `Q`; `focus` runs
  a program on a part of a larger state.
* `ensures e x Q s`: the same in the environment `e`, which restricts the answers or lets
  programs stop; `wp` and the run in which every answer is `0` are instances.
* `always x P s`: every state that `x` goes through satisfies `P`; `Within R x` says
  that these states are all related to the one it started in.
* `Turn x s r t`: what `x` does from `s` until it is done or switched out; `Steady R x` says that all
  that `x` changes is in `R`, whatever others change meanwhile.
-/

namespace Suspend

/-- Why a program does not return. -/
inductive Fault where
  /-- A failed assertion or an explicit panic: the machine is halted. -/
  | halt
  /-- A loop that does not end. -/
  | hang
  /-- An access through a null or dangling pointer, or outside an array. -/
  | undefined
  /-- A transfer that is longer than its buffer. -/
  | overrun
  deriving DecidableEq, Repr

/-- A program over the state `σ` with result `α`. -/
inductive Prog (σ α : Type) : Type where
  | ret (a : α)
  | stop (f : Fault)
  | get (k : σ → Prog σ α)
  | set (s : σ) (k : Prog σ α)
  /-- Ask the environment for a number. -/
  | choose (k : ℕ → Prog σ α)
  /-- A point at which the program may be switched out. -/
  | pause (k : Prog σ α)

namespace Prog

variable {σ α β : Type}

/-- Run `x`, then `f` on its result. -/
def bind : Prog σ α → (α → Prog σ β) → Prog σ β
  | ret a, f => f a
  | stop e, _ => stop e
  | get k, f => get fun s => bind (k s) f
  | set s k, f => set s (bind k f)
  | choose k, f => choose fun n => bind (k n) f
  | pause k, f => pause (bind k f)

instance : Monad (Prog σ) where
  pure := ret
  bind := bind

theorem ret_bind (a : α) (f : α → Prog σ β) : (Pure.pure a >>= f) = f a := rfl

theorem bind_assoc {γ : Type} (x : Prog σ α) (f : α → Prog σ β) (g : β → Prog σ γ) :
    x >>= f >>= g = x >>= fun a => f a >>= g := by
  change bind (bind x f) g = bind x fun a => bind (f a) g
  induction x with
  | ret a => rfl
  | stop e => rfl
  | get k ih => exact congrArg get (funext fun s => ih s)
  | set s k ih => exact congrArg (set s) ih
  | choose k ih => exact congrArg choose (funext fun n => ih n)
  | pause k ih => exact congrArg pause ih

/-- Read the state. -/
def read : Prog σ σ := get ret

/-- Replace the state. -/
def write (s : σ) : Prog σ Unit := set s (ret ())

/-- Change the state. -/
def modify (f : σ → σ) : Prog σ Unit := get fun s => set (f s) (ret ())

/-- A number from the environment. -/
def arbitrary : Prog σ ℕ := choose ret

/-- May be switched out here. -/
def block : Prog σ Unit := pause (ret ())

/-- `ASSERT`: stop unless `c` holds. -/
def assert (c : Bool) : Prog σ Unit := if c then ret () else stop .halt

/-! ## What a program returns -/

/-- Run without interruption from `s`, the program can return `a` in state `t`. -/
def Returns : Prog σ α → σ → α → σ → Prop
  | ret b, s, a, t => a = b ∧ t = s
  | stop _, _, _, _ => False
  | get k, s, a, t => Returns (k s) s a t
  | set s k, _, a, t => Returns k s a t
  | choose k, s, a, t => ∃ n, Returns (k n) s a t
  | pause k, s, a, t => Returns k s a t

/-- Run the program with the given answers of the environment; an answer that
is missing is `0`. -/
def exec : Prog σ α → List ℕ → σ → Option (α × σ)
  | ret a, _, s => some (a, s)
  | stop _, _, _ => none
  | get k, o, s => exec (k s) o s
  | set s k, o, _ => exec k o s
  | choose k, o, s => exec (k (o.headD 0)) o.tail s
  | pause k, o, s => exec k o s

/-- An execution with fixed answers is one of the program's behaviours. -/
theorem returns_of_exec {x : Prog σ α} {o : List ℕ} {s t : σ} {a : α}
    (h : x.exec o s = some (a, t)) : Returns x s a t := by
  induction x generalizing o s with
  | ret b =>
      simp only [exec, Option.some.injEq, Prod.mk.injEq] at h
      exact ⟨h.1.symm, h.2.symm⟩
  | stop e => simp [exec] at h
  | get k ih => exact ih _ h
  | set u k ih => exact ih h
  | choose k ih => exact ⟨_, ih _ h⟩
  | pause k ih => exact ih h

/-- The state after the program, which takes every answer to be `0`. -/
@[irreducible] def after (x : Prog σ α) (s : σ) : σ := (x.exec [] s).elim s Prod.snd

theorem returns_after {x : Prog σ α} {s : σ} {a : α}
    (h : (x.exec [] s).map Prod.fst = some a) : Returns x s a (after x s) := by
  obtain ⟨⟨b, t⟩, hexec, rfl⟩ := Option.map_eq_some_iff.mp h
  refine @returns_of_exec _ _ _ [] _ _ _ ?_
  rw [after, hexec]
  rfl

theorem returns_bind {x : Prog σ α} {f : α → Prog σ β} {s t : σ} {b : β} :
    Returns (x >>= f) s b t ↔ ∃ a u, Returns x s a u ∧ Returns (f a) u b t := by
  change Returns (bind x f) s b t ↔ _
  induction x generalizing s with
  | ret a => simp [bind, Returns]
  | stop e => simp [bind, Returns]
  | get k ih => exact ih s
  | set u k ih => exact ih
  | choose k ih =>
      simp only [bind, Returns, ih]
      constructor
      · rintro ⟨n, a, u, h, h'⟩
        exact ⟨a, u, ⟨n, h⟩, h'⟩
      · rintro ⟨a, u, ⟨n, h⟩, h'⟩
        exact ⟨n, a, u, h, h'⟩
  | pause k ih => exact ih

/-- An assertion that holds does nothing. -/
theorem exec_assert_bind {c : Bool} (hc : c = true) {f : Unit → Prog σ β} {o : List ℕ} {s : σ} :
    (assert c >>= f).exec o s = (f ()).exec o s := by
  rw [hc]
  rfl

/-- Where every answer is `0` the parts of a program run one after the other. -/
theorem exec_bind_nil {x : Prog σ α} {f : α → Prog σ β} {s : σ} :
    (x >>= f).exec [] s = (x.exec [] s).bind fun r => (f r.1).exec [] r.2 := by
  change (bind x f).exec [] s = _
  induction x generalizing s with
  | ret a => rfl
  | stop e => rfl
  | get k ih => exact ih s
  | set u k ih => exact ih
  | choose k ih => exact ih 0
  | pause k ih => exact ih

/-! ## Weakest preconditions -/

/-- Whatever the program returns from `s` satisfies `Q`. -/
def wp : Prog σ α → (α → σ → Prop) → σ → Prop
  | ret a, Q, s => Q a s
  | stop _, _, _ => True
  | get k, Q, s => wp (k s) Q s
  | set s k, Q, _ => wp k Q s
  | choose k, Q, s => ∀ n, wp (k n) Q s
  | pause k, Q, s => wp k Q s

theorem wp_iff_returns {x : Prog σ α} {Q : α → σ → Prop} {s : σ} :
    wp x Q s ↔ ∀ a t, Returns x s a t → Q a t := by
  induction x generalizing s with
  | ret b =>
      simp only [wp, Returns]
      constructor
      · rintro h a t ⟨rfl, rfl⟩
        exact h
      · intro h
        exact h b s ⟨rfl, rfl⟩
  | stop e => simp [wp, Returns]
  | get k ih => exact ih s
  | set u k ih => exact ih
  | choose k ih =>
      simp only [wp, Returns, ih]
      constructor
      · rintro h a t ⟨n, hn⟩
        exact h n a t hn
      · intro h n a t hn
        exact h a t ⟨n, hn⟩
  | pause k ih => exact ih

variable {x : Prog σ α} {f : α → Prog σ β} {s : σ}

@[simp] theorem wp_pure {a : α} {Q : α → σ → Prop} : wp (pure a : Prog σ α) Q s ↔ Q a s := Iff.rfl

@[simp] theorem wp_ret {a : α} {Q : α → σ → Prop} : wp (ret a) Q s ↔ Q a s := Iff.rfl

@[simp] theorem wp_stop {e : Fault} {Q : α → σ → Prop} : wp (stop e) Q s ↔ True := Iff.rfl

@[simp] theorem wp_read {Q : σ → σ → Prop} : wp read Q s ↔ Q s s := Iff.rfl

@[simp] theorem wp_write {t : σ} {Q : Unit → σ → Prop} : wp (write t) Q s ↔ Q () t := Iff.rfl

@[simp] theorem wp_modify {g : σ → σ} {Q : Unit → σ → Prop} :
    wp (modify g) Q s ↔ Q () (g s) := Iff.rfl

@[simp] theorem wp_arbitrary {Q : ℕ → σ → Prop} : wp arbitrary Q s ↔ ∀ n, Q n s := Iff.rfl

@[simp] theorem wp_block {Q : Unit → σ → Prop} : wp block Q s ↔ Q () s := Iff.rfl

@[simp] theorem wp_assert {c : Bool} {Q : Unit → σ → Prop} :
    wp (assert c) Q s ↔ (c = true → Q () s) := by
  cases c <;> simp [assert]

@[simp] theorem wp_bind {Q : β → σ → Prop} :
    wp (x >>= f) Q s ↔ wp x (fun a t => wp (f a) Q t) s := by
  simp only [wp_iff_returns, returns_bind]
  constructor
  · intro h a t ha b u hb
    exact h b u ⟨a, t, ha, hb⟩
  · rintro h b u ⟨a, t, ha, hb⟩
    exact h a t ha b u hb

/-- A program whose `wp` is that of one result returns just that result. -/
theorem returns_iff_of_wp {c : Prop} {a : α} {t : σ}
    (h : ∀ Q : α → σ → Prop, wp x Q s ↔ (c → Q a t)) {b : α} {u : σ} :
    Returns x s b u ↔ c ∧ b = a ∧ u = t := by
  constructor
  · exact wp_iff_returns.mp ((h fun b u => c ∧ b = a ∧ u = t).mpr fun hc => ⟨hc, rfl, rfl⟩) b u
  · rintro ⟨hc, rfl, rfl⟩
    exact (h fun b u => Returns x s b u).mp (wp_iff_returns.mpr fun _ _ hret => hret) hc

/-- A weaker postcondition is easier to reach. -/
theorem wp_mono {Q R : α → σ → Prop} (h : wp x Q s) (hQR : ∀ a t, Q a t → R a t) : wp x R s := by
  rw [wp_iff_returns] at h ⊢
  exact fun a t hret => hQR a t (h a t hret)

/-- Two facts about the same run. -/
theorem wp_and {Q R : α → σ → Prop} (h : wp x Q s) (h' : wp x R s) :
    wp x (fun a t => Q a t ∧ R a t) s := by
  rw [wp_iff_returns] at h h' ⊢
  exact fun a t hret => ⟨h a t hret, h' a t hret⟩

theorem wp_true : wp x (fun _ _ => True) s := by
  rw [wp_iff_returns]
  exact fun _ _ _ => trivial

/-- The rest is right whatever the first part does. -/
theorem wp_bind_any {Q : β → σ → Prop} (h : ∀ a t, wp (f a) Q t) : wp (x >>= f) Q s :=
  wp_bind.mpr (wp_mono wp_true fun a t _ => h a t)

/-! ## Programs that do not stop -/

/-- The program returns from `s` whatever the environment answers, and what it returns
satisfies `Q`. -/
def succeeds : Prog σ α → (α → σ → Prop) → σ → Prop
  | ret a, Q, s => Q a s
  | stop _, _, _ => False
  | get k, Q, s => succeeds (k s) Q s
  | set s k, Q, _ => succeeds k Q s
  | choose k, Q, s => ∀ n, succeeds (k n) Q s
  | pause k, Q, s => succeeds k Q s

/-- What a program returns when it succeeds it returns. -/
theorem wp_of_succeeds {Q : α → σ → Prop} (h : succeeds x Q s) : wp x Q s := by
  induction x generalizing s with
  | ret a => exact h
  | stop e => trivial
  | get k ih => exact ih s h
  | set t k ih => exact ih h
  | choose k ih => exact fun n => ih n (h n)
  | pause k ih => exact ih h

theorem succeeds_mono {Q R : α → σ → Prop} (h : succeeds x Q s) (hQR : ∀ a t, Q a t → R a t) :
    succeeds x R s := by
  induction x generalizing s with
  | ret a => exact hQR a s h
  | stop e => exact h
  | get k ih => exact ih s h
  | set t k ih => exact ih h
  | choose k ih => exact fun n => ih n (h n)
  | pause k ih => exact ih h

/-- A program that succeeds returns. -/
theorem returns_of_succeeds {Q : α → σ → Prop} (h : succeeds x Q s) :
    ∃ a t, Returns x s a t ∧ Q a t := by
  induction x generalizing s with
  | ret a => exact ⟨a, s, ⟨rfl, rfl⟩, h⟩
  | stop e => exact h.elim
  | get k ih => exact ih s h
  | set t k ih => exact ih h
  | choose k ih =>
      obtain ⟨a, t, hret, hQ⟩ := ih 0 (h 0)
      exact ⟨a, t, ⟨0, hret⟩, hQ⟩
  | pause k ih => exact ih h

@[simp] theorem succeeds_pure {a : α} {Q : α → σ → Prop} :
    succeeds (pure a : Prog σ α) Q s ↔ Q a s := Iff.rfl

@[simp] theorem succeeds_stop {e : Fault} {Q : α → σ → Prop} : succeeds (stop e) Q s ↔ False :=
  Iff.rfl

@[simp] theorem succeeds_read {Q : σ → σ → Prop} : succeeds read Q s ↔ Q s s := Iff.rfl

@[simp] theorem succeeds_write {t : σ} {Q : Unit → σ → Prop} :
    succeeds (write t) Q s ↔ Q () t := Iff.rfl

@[simp] theorem succeeds_modify {g : σ → σ} {Q : Unit → σ → Prop} :
    succeeds (modify g) Q s ↔ Q () (g s) := Iff.rfl

@[simp] theorem succeeds_assert {c : Bool} {Q : Unit → σ → Prop} :
    succeeds (assert c) Q s ↔ c = true ∧ Q () s := by
  cases c <;> simp [assert, succeeds]

@[simp] theorem succeeds_bind {Q : β → σ → Prop} :
    succeeds (x >>= f) Q s ↔ succeeds x (fun a t => succeeds (f a) Q t) s := by
  change succeeds (bind x f) Q s ↔ _
  induction x generalizing s with
  | ret a => exact Iff.rfl
  | stop e => exact Iff.rfl
  | get k ih => exact ih s
  | set t k ih => exact ih
  | choose k ih => exact forall_congr' fun n => ih n
  | pause k ih => exact ih

/-! ## Environments -/

/-- An environment: the answers that a program can get, and whether it may stop. -/
structure Env where
  answer : ℕ → Prop
  stops : Prop

/-- Any answers, and any program may stop. -/
def Env.any : Env := ⟨fun _ => True, True⟩

/-- Every answer is `0`, and no program stops. -/
def Env.zero : Env := ⟨fun n => n = 0, False⟩

/-- What the program returns from `s` in the environment satisfies `Q`. -/
def ensures (e : Env) : Prog σ α → (α → σ → Prop) → σ → Prop
  | ret a, Q, s => Q a s
  | stop _, _, _ => e.stops
  | get k, Q, s => ensures e (k s) Q s
  | set s k, Q, _ => ensures e k Q s
  | choose k, Q, s => ∀ n, e.answer n → ensures e (k n) Q s
  | pause k, Q, s => ensures e k Q s

section Ensures

variable {e : Env} {Q R : α → σ → Prop}

theorem wp_of_ensures (h : ensures Env.any x Q s) : wp x Q s := by
  induction x generalizing s with
  | ret a => exact h
  | stop f => trivial
  | get k ih => exact ih s h
  | set t k ih => exact ih h
  | choose k ih => exact fun n => ih n (h n trivial)
  | pause k ih => exact ih h

/-- Where programs may stop, what they return is all that counts. -/
theorem ensures_of_wp (hstops : e.stops) (h : wp x Q s) : ensures e x Q s := by
  induction x generalizing s with
  | ret a => exact h
  | stop f => exact hstops
  | get k ih => exact ih s h
  | set t k ih => exact ih h
  | choose k ih => exact fun n _ => ih n (h n)
  | pause k ih => exact ih h

/-- Any answers, and no program stops. -/
theorem succeeds_of_ensures (h : ensures ⟨fun _ => True, False⟩ x Q s) : succeeds x Q s := by
  induction x generalizing s with
  | ret a => exact h
  | stop f => exact h
  | get k ih => exact ih s h
  | set t k ih => exact ih h
  | choose k ih => exact fun n => ih n (h n trivial)
  | pause k ih => exact ih h

theorem ensures_of_succeeds (h : succeeds x Q s) : ensures ⟨fun _ => True, False⟩ x Q s := by
  induction x generalizing s with
  | ret a => exact h
  | stop f => exact h
  | get k ih => exact ih s h
  | set t k ih => exact ih h
  | choose k ih => exact fun n _ => ih n (h n)
  | pause k ih => exact ih h

theorem exec_of_ensures (h : ensures Env.zero x Q s) : ∃ a t, exec x [] s = some (a, t) ∧ Q a t := by
  induction x generalizing s with
  | ret a => exact ⟨a, s, rfl, h⟩
  | stop f => exact h.elim
  | get k ih => exact ih s h
  | set t k ih => exact ih h
  | choose k ih => exact ih 0 (h 0 rfl)
  | pause k ih => exact ih h

theorem ensures_mono (h : ensures e x Q s) (hQR : ∀ a t, Q a t → R a t) : ensures e x R s := by
  induction x generalizing s with
  | ret a => exact hQR a s h
  | stop f => exact h
  | get k ih => exact ih s h
  | set t k ih => exact ih h
  | choose k ih => exact fun n hn => ih n (h n hn)
  | pause k ih => exact ih h

/-- What a program returns, whatever the environment answers, it returns in each environment. -/
theorem ensures_and_wp (h : ensures e x Q s) (h' : wp x R s) : ensures e x (fun a t => Q a t ∧ R a t) s := by
  induction x generalizing s with
  | ret a => exact ⟨h, h'⟩
  | stop f => exact h
  | get k ih => exact ih s h h'
  | set t k ih => exact ih h h'
  | choose k ih => exact fun n hn => ih n (h n hn) (h' n)
  | pause k ih => exact ih h h'

@[simp] theorem ensures_pure {a : α} : ensures e (pure a : Prog σ α) Q s ↔ Q a s := Iff.rfl

@[simp] theorem ensures_stop {f : Fault} : ensures e (stop f) Q s ↔ e.stops := Iff.rfl

@[simp] theorem ensures_read {Q : σ → σ → Prop} : ensures e read Q s ↔ Q s s := Iff.rfl

@[simp] theorem ensures_write {t : σ} {Q : Unit → σ → Prop} :
    ensures e (write t) Q s ↔ Q () t := Iff.rfl

@[simp] theorem ensures_modify {g : σ → σ} {Q : Unit → σ → Prop} :
    ensures e (modify g) Q s ↔ Q () (g s) := Iff.rfl

@[simp] theorem ensures_arbitrary {Q : ℕ → σ → Prop} :
    ensures e arbitrary Q s ↔ ∀ n, e.answer n → Q n s := Iff.rfl

@[simp] theorem ensures_block {Q : Unit → σ → Prop} : ensures e block Q s ↔ Q () s := Iff.rfl

/-- An assertion that holds does nothing. -/
theorem ensures_assert {c : Bool} {Q : Unit → σ → Prop} (hc : c = true) :
    ensures e (assert c) Q s ↔ Q () s := by
  rw [hc]
  exact Iff.rfl

@[simp] theorem ensures_bind {Q : β → σ → Prop} :
    ensures e (x >>= f) Q s ↔ ensures e x (fun a t => ensures e (f a) Q t) s := by
  change ensures e (bind x f) Q s ↔ _
  induction x generalizing s with
  | ret a => exact Iff.rfl
  | stop f => exact Iff.rfl
  | get k ih => exact ih s
  | set t k ih => exact ih
  | choose k ih => exact forall_congr' fun n => forall_congr' fun _ => ih n
  | pause k ih => exact ih

end Ensures

/-! ## Programs over a part of the state -/

section Focus

variable {τ : Type} (part : τ → σ) (put : σ → τ → τ)

/-- A program over a part of a larger state. -/
def focus : Prog σ α → Prog τ α
  | ret a => ret a
  | stop e => stop e
  | get k => get fun t => focus (k (part t))
  | set s k => get fun t => set (put s t) (focus k)
  | choose k => choose fun n => focus (k n)
  | pause k => pause (focus k)

variable {part put}

theorem wp_focus (hpart : ∀ s t, part (put s t) = s) (hput : ∀ s s' t, put s (put s' t) = put s t)
    (hself : ∀ t, put (part t) t = t) {Q : α → τ → Prop} {t : τ} :
    wp (focus part put x) Q t ↔ wp x (fun a s => Q a (put s t)) (part t) := by
  induction x generalizing t with
  | ret a => simp only [focus, wp, hself]
  | stop e => exact Iff.rfl
  | get k ih => exact ih (part t)
  | set s k ih =>
      simp only [focus, wp, ih, hpart, hput]
  | choose k ih => exact forall_congr' fun n => ih n
  | pause k ih => exact ih

theorem succeeds_focus (hpart : ∀ s t, part (put s t) = s)
    (hput : ∀ s s' t, put s (put s' t) = put s t) (hself : ∀ t, put (part t) t = t)
    {Q : α → τ → Prop} {t : τ} :
    succeeds (focus part put x) Q t ↔ succeeds x (fun a s => Q a (put s t)) (part t) := by
  induction x generalizing t with
  | ret a => simp only [focus, succeeds, hself]
  | stop e => exact Iff.rfl
  | get k ih => exact ih (part t)
  | set s k ih =>
      simp only [focus, succeeds, ih, hpart, hput]
  | choose k ih => exact forall_congr' fun n => ih n
  | pause k ih => exact ih

theorem ensures_focus {e : Env} (hpart : ∀ s t, part (put s t) = s)
    (hput : ∀ s s' t, put s (put s' t) = put s t) (hself : ∀ t, put (part t) t = t)
    {Q : α → τ → Prop} {t : τ} :
    ensures e (focus part put x) Q t ↔ ensures e x (fun a s => Q a (put s t)) (part t) := by
  induction x generalizing t with
  | ret a => simp only [focus, ensures, hself]
  | stop f => exact Iff.rfl
  | get k ih => exact ih (part t)
  | set s k ih =>
      simp only [focus, ensures, ih, hpart, hput]
  | choose k ih => exact forall_congr' fun n => forall_congr' fun _ => ih n
  | pause k ih => exact ih

end Focus

/-! ## Every state on the way -/

/-- Every state that the program goes through from `s` on satisfies `P`. -/
def always : Prog σ α → (σ → Prop) → σ → Prop
  | ret _, P, s => P s
  | stop _, P, s => P s
  | get k, P, s => always (k s) P s
  | set t k, P, s => P s ∧ always k P t
  | choose k, P, s => ∀ n, always (k n) P s
  | pause k, P, s => always k P s

section Always

variable {P P' : σ → Prop}

theorem always_start (h : always x P s) : P s := by
  induction x generalizing s with
  | ret a => exact h
  | stop e => exact h
  | get k ih => exact ih s h
  | set t k ih => exact h.1
  | choose k ih => exact ih 0 (h 0)
  | pause k ih => exact ih h

/-- What holds on the way holds at the end. -/
theorem wp_of_always (h : always x P s) : wp x (fun _ t => P t) s := by
  induction x generalizing s with
  | ret a => exact h
  | stop e => trivial
  | get k ih => exact ih s h
  | set t k ih => exact ih h.2
  | choose k ih => exact fun n => ih n (h n)
  | pause k ih => exact ih h

theorem always_mono (h : always x P s) (hP : ∀ t, P t → P' t) : always x P' s := by
  induction x generalizing s with
  | ret a => exact hP s h
  | stop e => exact hP s h
  | get k ih => exact ih s h
  | set t k ih => exact ⟨hP s h.1, ih h.2⟩
  | choose k ih => exact fun n => ih n (h n)
  | pause k ih => exact ih h

@[simp] theorem always_pure {a : α} : always (pure a : Prog σ α) P s ↔ P s := Iff.rfl

@[simp] theorem always_stop {e : Fault} : always (stop e : Prog σ α) P s ↔ P s := Iff.rfl

@[simp] theorem always_read : always read P s ↔ P s := Iff.rfl

@[simp] theorem always_write {t : σ} : always (write t) P s ↔ P s ∧ P t := Iff.rfl

@[simp] theorem always_modify {g : σ → σ} : always (modify g) P s ↔ P s ∧ P (g s) := Iff.rfl

@[simp] theorem always_arbitrary : always arbitrary P s ↔ P s := by
  simp [arbitrary, always]

@[simp] theorem always_block : always block P s ↔ P s := Iff.rfl

@[simp] theorem always_assert {c : Bool} : always (assert c) P s ↔ P s := by
  cases c <;> exact Iff.rfl

theorem always_bind :
    always (x >>= f) P s ↔ always x P s ∧ wp x (fun a t => always (f a) P t) s := by
  change always (bind x f) P s ↔ _
  induction x generalizing s with
  | ret a =>
      change always (f a) P s ↔ P s ∧ always (f a) P s
      exact ⟨fun h => ⟨always_start h, h⟩, fun h => h.2⟩
  | stop e => simp [bind, always, wp]
  | get k ih => exact ih s
  | set t k ih =>
      simp only [bind, always, wp, ih]
      exact and_assoc.symm
  | choose k ih =>
      simp only [bind, always, wp, ih]
      exact forall_and
  | pause k ih => exact ih

/-- A program that never leaves the states related to the one it starts in. -/
def Within (R : σ → σ → Prop) (x : Prog σ α) : Prop := ∀ s, always x (R s) s

variable {R : σ → σ → Prop} [IsPreorder σ R]

/-- A program that stays within `R` keeps what is related to an earlier state. -/
theorem Within.always_of (hx : Within R x) {s₀ : σ} (hs : R s₀ s) : always x (R s₀) s :=
  always_mono (hx s) fun _ ht => Trans.trans hs ht

theorem Within.wp_of (hx : Within R x) {s₀ : σ} (hs : R s₀ s) : wp x (fun _ => R s₀) s :=
  wp_of_always (hx.always_of hs)

/-- First something that stays within `R`, then the rest. -/
theorem Within.wp_then (hx : Within R x) {Q : β → σ → Prop} {s₀ : σ} (hs : R s₀ s)
    (hf : ∀ a t, R s₀ t → wp (f a) Q t) : wp (x >>= f) Q s :=
  wp_bind.mpr (wp_mono (hx.wp_of hs) hf)

theorem Within.pure (a : α) : Within R (pure a : Prog σ α) := fun s => refl s

theorem Within.stop (e : Fault) : Within R (stop e : Prog σ α) := fun s => refl s

theorem Within.read : Within R (read : Prog σ σ) := fun s => refl s

theorem Within.arbitrary : Within R (arbitrary : Prog σ ℕ) := fun s =>
  always_arbitrary.mpr (refl s)

theorem Within.block : Within R (block : Prog σ Unit) := fun s => refl s

theorem Within.assert (c : Bool) : Within R (assert c : Prog σ Unit) := fun s =>
  always_assert.mpr (refl s)

theorem Within.modify {g : σ → σ} (hg : ∀ s, R s (g s)) : Within R (modify g) := fun s =>
  ⟨refl s, hg s⟩

theorem Within.bind (hx : Within R x) (hf : ∀ a, Within R (f a)) : Within R (x >>= f) := by
  intro s
  refine always_bind.mpr ⟨hx s, wp_mono (wp_of_always (hx s)) ?_⟩
  intro a t ht
  exact (hf a).always_of ht

/-- A program that changes nothing stays within every relation. -/
theorem Within.of_eq (hx : Within Eq x) : Within R x := fun s =>
  always_mono (hx s) fun _ h => h ▸ refl s

theorem Within.wp_eq (hx : Within Eq x) : wp x (fun _ t => t = s) s :=
  wp_mono (wp_of_always (hx s)) fun _ _ h => h.symm

omit [IsPreorder σ R] in
/-- A program that begins by reading the state. -/
theorem Within.read_bind {g : σ → Prog σ α} (hg : ∀ s, always (g s) (R s) s) :
    Within R (Prog.read >>= g) := hg

end Always

/-! ## Programs that are switched out -/

/-- What is left of a program when it gives up the processor. -/
inductive Progress (σ α : Type) where
  | done (a : α)
  | blocked (x : Prog σ α)

/-- From `s` the program runs until it is done or switched out. -/
def Turn : Prog σ α → σ → Progress σ α → σ → Prop
  | ret a, s, r, t => r = .done a ∧ t = s
  | stop _, _, _, _ => False
  | get k, s, r, t => Turn (k s) s r t
  | set s k, _, r, t => Turn k s r t
  | choose k, s, r, t => ∃ n, Turn (k n) s r t
  | pause k, s, r, t => r = .blocked k ∧ t = s

/-- A turn of two programs is one of the first, in which it is switched out, or it goes on with the
second. -/
theorem turn_bind {f : α → Prog σ β} {r : Progress σ β} {t : σ} :
    Turn (x >>= f) s r t ↔ (∃ y, Turn x s (.blocked y) t ∧ r = .blocked (y >>= f)) ∨
      ∃ a u, Turn x s (.done a) u ∧ Turn (f a) u r t := by
  change Turn (bind x f) s r t ↔ _
  induction x generalizing s with
  | ret a =>
      constructor
      · exact fun h => Or.inr ⟨a, s, ⟨rfl, rfl⟩, h⟩
      · rintro (⟨y, ⟨hy, -⟩, -⟩ | ⟨b, u, ⟨hb, rfl⟩, h⟩)
        · cases hy
        · cases hb
          exact h
  | stop e =>
      constructor
      · exact fun h => h.elim
      · rintro (⟨y, hy, -⟩ | ⟨b, u, hb, -⟩)
        · exact hy.elim
        · exact hb.elim
  | get k ih => exact ih s
  | set t k ih => exact ih
  | choose k ih =>
      constructor
      · rintro ⟨n, hn⟩
        obtain ⟨y, hy, hr⟩ | ⟨a, u, ha, hu⟩ := (ih n).mp hn
        · exact Or.inl ⟨y, ⟨n, hy⟩, hr⟩
        · exact Or.inr ⟨a, u, ⟨n, ha⟩, hu⟩
      · rintro (⟨y, ⟨n, hy⟩, hr⟩ | ⟨a, u, ⟨n, ha⟩, hu⟩)
        · exact ⟨n, (ih n).mpr (Or.inl ⟨y, hy, hr⟩)⟩
        · exact ⟨n, (ih n).mpr (Or.inr ⟨a, u, ha, hu⟩)⟩
  | pause k ih =>
      constructor
      · rintro ⟨rfl, rfl⟩
        exact Or.inl ⟨k, ⟨rfl, rfl⟩, rfl⟩
      · rintro (⟨y, ⟨hy, rfl⟩, rfl⟩ | ⟨b, u, ⟨hb, -⟩, -⟩)
        · cases hy
          exact ⟨rfl, rfl⟩
        · cases hb

/-- The program is not switched out. -/
def unbroken : Prog σ α → σ → Prop
  | ret _, _ => True
  | stop _, _ => True
  | get k, s => unbroken (k s) s
  | set s k, _ => unbroken k s
  | choose k, s => ∀ n, unbroken (k n) s
  | pause _, _ => False

theorem unbroken_read_bind {g : σ → Prog σ α} : (read >>= g).unbroken s ↔ (g s).unbroken s := Iff.rfl

theorem turn_iff_returns {r : Progress σ α} {t : σ} (hx : unbroken x s) :
    Turn x s r t ↔ ∃ a, Returns x s a t ∧ r = .done a := by
  induction x generalizing s with
  | ret b =>
      constructor
      · rintro ⟨rfl, rfl⟩
        exact ⟨b, ⟨rfl, rfl⟩, rfl⟩
      · rintro ⟨a, ⟨rfl, rfl⟩, rfl⟩
        exact ⟨rfl, rfl⟩
  | stop e =>
      constructor
      · exact fun h => h.elim
      · exact fun ⟨_, h, _⟩ => h.elim
  | get k ih => exact ih s hx
  | set u k ih => exact ih hx
  | choose k ih =>
      constructor
      · rintro ⟨n, hn⟩
        obtain ⟨a, ha, rfl⟩ := (ih n (hx n)).mp hn
        exact ⟨a, ⟨n, ha⟩, rfl⟩
      · rintro ⟨a, ⟨n, hn⟩, rfl⟩
        exact ⟨n, (ih n (hx n)).mpr ⟨a, hn, rfl⟩⟩
  | pause k ih => exact hx.elim

/-- A turn with the given answers of the environment; an answer that is missing is `0`. -/
def turn : Prog σ α → List ℕ → σ → Option (Progress σ α × σ)
  | ret a, _, s => some (.done a, s)
  | stop _, _, _ => none
  | get k, o, s => turn (k s) o s
  | set s k, o, _ => turn k o s
  | choose k, o, s => turn (k (o.headD 0)) o.tail s
  | pause k, _, s => some (.blocked k, s)

theorem turn_sound {o : List ℕ} {r : Progress σ α} {t : σ} (h : turn x o s = some (r, t)) :
    Turn x s r t := by
  induction x generalizing s o with
  | ret a =>
      cases h
      exact ⟨rfl, rfl⟩
  | stop e => cases h
  | get k ih => exact ih s h
  | set t k ih => exact ih h
  | choose k ih => exact ⟨_, ih _ h⟩
  | pause k ih =>
      cases h
      exact ⟨rfl, rfl⟩

/-- Every change that the program makes from `s` on is in `R`, also when others have changed the state
while it was switched out. -/
def steps (R : σ → σ → Prop) : Prog σ α → σ → Prop
  | ret _, _ => True
  | stop _, _ => True
  | get k, s => steps R (k s) s
  | set t k, s => R s t ∧ steps R k t
  | choose k, s => ∀ n, steps R (k n) s
  | pause k, _ => ∀ s, steps R k s

/-- Every change that the program makes is in `R`. -/
def Steady (R : σ → σ → Prop) (x : Prog σ α) : Prop := ∀ s, steps R x s

section Steady

variable {R R' : σ → σ → Prop}

theorem steps_mono (h : steps R x s) (hR : ∀ s t, R s t → R' s t) : steps R' x s := by
  induction x generalizing s with
  | ret a => trivial
  | stop e => trivial
  | get k ih => exact ih s h
  | set t k ih => exact ⟨hR s t h.1, ih h.2⟩
  | choose k ih => exact fun n => ih n (h n)
  | pause k ih => exact fun s => ih (h s)

theorem steps_bind {f : α → Prog σ β} (hx : steps R x s) (hf : ∀ a, Steady R (f a)) :
    steps R (x >>= f) s := by
  change steps R (bind x f) s
  induction x generalizing s with
  | ret a => exact hf a s
  | stop e => trivial
  | get k ih => exact ih s hx
  | set t k ih => exact ⟨hx.1, ih hx.2⟩
  | choose k ih => exact fun n => ih n (hx n)
  | pause k ih => exact fun s => ih (hx s)

theorem always_of_steps [IsPreorder σ R] (hx : steps R x s) {s₀ : σ} (hs : R s₀ s) :
    always x (R s₀) s := by
  induction x generalizing s with
  | ret a => exact hs
  | stop e => exact hs
  | get k ih => exact ih s hx hs
  | set t k ih => exact ⟨hs, ih hx.2 (Trans.trans hs hx.1)⟩
  | choose k ih => exact fun n => ih n (hx n) hs
  | pause k ih => exact ih (hx s) hs

/-- What a turn changes is in `R`, and so is what the rest of the program changes. -/
theorem turn_of_steps [IsPreorder σ R] {r : Progress σ α} {t : σ} (hx : steps R x s)
    (h : Turn x s r t) : R s t ∧ ∀ y, r = .blocked y → Steady R y := by
  induction x generalizing s with
  | ret a =>
      obtain ⟨rfl, rfl⟩ := h
      exact ⟨refl _, fun y hy => by cases hy⟩
  | stop e => exact h.elim
  | get k ih => exact ih s hx h
  | set u k ih =>
      obtain ⟨hu, hy⟩ := ih hx.2 h
      exact ⟨Trans.trans hx.1 hu, hy⟩
  | choose k ih =>
      obtain ⟨n, hn⟩ := h
      exact ih n (hx n) hn
  | pause k ih =>
      obtain ⟨rfl, rfl⟩ := h
      refine ⟨refl _, fun y hy => ?_⟩
      cases hy
      exact hx

/-- Undisturbed, the program stays within `R`. -/
theorem Steady.within [IsPreorder σ R] (hx : Steady R x) : Within R x := fun s =>
  always_of_steps (hx s) (refl s)

theorem Steady.wp_then [IsPreorder σ R] {f : α → Prog σ β} (hx : Steady R x) {Q : β → σ → Prop} {s₀ : σ}
    (hs : R s₀ s) (hf : ∀ a t, R s₀ t → wp (f a) Q t) : wp (x >>= f) Q s :=
  hx.within.wp_then hs hf

/-- A program that changes nothing. -/
theorem Steady.of_same [IsPreorder σ R] (hx : Steady Eq x) : Steady R x := fun s =>
  steps_mono (hx s) fun _ _ h => h ▸ refl _

theorem Steady.of_eq [IsPreorder σ R] (hx : Steady Eq x) : Within R x := hx.within.of_eq

theorem Steady.wp_eq (hx : Steady Eq x) : wp x (fun _ t => t = s) s := hx.within.wp_eq

theorem Steady.pure (a : α) : Steady R (pure a : Prog σ α) := fun _ => trivial

theorem Steady.stop (e : Fault) : Steady R (stop e : Prog σ α) := fun _ => trivial

theorem Steady.read : Steady R (read : Prog σ σ) := fun _ => trivial

theorem Steady.arbitrary : Steady R (arbitrary : Prog σ ℕ) := fun _ _ => trivial

theorem Steady.block : Steady R (block : Prog σ Unit) := fun _ _ => trivial

theorem Steady.assert (c : Bool) : Steady R (assert c : Prog σ Unit) := by
  cases c with
  | false => exact fun _ => trivial
  | true => exact fun _ => trivial

theorem Steady.modify {g : σ → σ} (hg : ∀ s, R s (g s)) : Steady R (modify g) := fun s =>
  ⟨hg s, trivial⟩

theorem Steady.bind {f : α → Prog σ β} (hx : Steady R x) (hf : ∀ a, Steady R (f a)) :
    Steady R (x >>= f) := fun s => steps_bind (hx s) hf

/-- A program that begins by reading the state. -/
theorem Steady.read_bind {g : σ → Prog σ α} (hg : ∀ s, steps R (g s) s) :
    Steady R (Prog.read >>= g) := hg

end Steady

/-- Whatever the states that the program reads, it can only return what `P` holds of. -/
def yields (P : α → Prop) : Prog σ α → Prop
  | ret a => P a
  | stop _ => True
  | get k => ∀ s, yields P (k s)
  | set _ k => yields P k
  | choose k => ∀ n, yields P (k n)
  | pause k => yields P k

theorem yields_bind {f : α → Prog σ β} {P : β → Prop} (hf : ∀ a, yields P (f a)) :
    yields P (x >>= f) := by
  change yields P (bind x f)
  induction x with
  | ret a => exact hf a
  | stop e => trivial
  | get k ih => exact fun s => ih s
  | set t k ih => exact ih
  | choose k ih => exact fun n => ih n
  | pause k ih => exact ih

/-- After a turn the rest of the program can still only return what `P` holds of. -/
theorem turn_of_yields {P : α → Prop} {r : Progress σ α} {t : σ} (hx : yields P x)
    (h : Turn x s r t) : (∀ a, r = .done a → P a) ∧ ∀ y, r = .blocked y → yields P y := by
  induction x generalizing s with
  | ret a =>
      obtain ⟨rfl, rfl⟩ := h
      refine ⟨fun b hb => ?_, fun y hy => by cases hy⟩
      cases hb
      exact hx
  | stop e => exact h.elim
  | get k ih => exact ih s (hx s) h
  | set u k ih => exact ih hx h
  | choose k ih =>
      obtain ⟨n, hn⟩ := h
      exact ih n (hx n) hn
  | pause k ih =>
      obtain ⟨rfl, rfl⟩ := h
      refine ⟨fun a ha => (by cases ha), fun y hy => ?_⟩
      cases hy
      exact hx

/-! ## Faults -/

/-- Started in `s`, the program does not stop with the fault `f`. -/
def avoids (f : Fault) : Prog σ α → σ → Prop
  | ret _, _ => True
  | stop e, _ => e ≠ f
  | get k, s => avoids f (k s) s
  | set s k, _ => avoids f k s
  | choose k, s => ∀ n, avoids f (k n) s
  | pause k, s => avoids f k s

theorem avoids_bind {f : Fault} {g : α → Prog σ β} :
    avoids f (x >>= g) s ↔ avoids f x s ∧ wp x (fun a t => avoids f (g a) t) s := by
  change avoids f (bind x g) s ↔ _
  induction x generalizing s with
  | ret a => simp [bind, avoids]
  | stop e => simp [bind, avoids]
  | get k ih => exact ih s
  | set t k ih => exact ih
  | choose k ih =>
      simp only [bind, avoids, wp, ih]
      exact forall_and
  | pause k ih => exact ih

/-- A program that returns does not stop. -/
theorem avoids_of_succeeds {f : Fault} {Q : α → σ → Prop} (h : succeeds x Q s) : avoids f x s := by
  induction x generalizing s with
  | ret a => trivial
  | stop e => exact h.elim
  | get k ih => exact ih s h
  | set t k ih => exact ih h
  | choose k ih => exact fun n => ih n (h n)
  | pause k ih => exact ih h

/-- A program that stops with the fault `f` from no state. -/
def Never (f : Fault) (x : Prog σ α) : Prop := ∀ s, avoids f x s

namespace Never

variable {f : Fault}

theorem pure (a : α) : Never f (Pure.pure a : Prog σ α) := fun _ => trivial

theorem stop {e : Fault} (h : e ≠ f) : Never f (Prog.stop e : Prog σ α) := fun _ => h

theorem read : Never f (Prog.read : Prog σ σ) := fun _ => trivial

theorem write (t : σ) : Never f (Prog.write t) := fun _ => trivial

theorem modify (g : σ → σ) : Never f (Prog.modify g) := fun _ => trivial

theorem arbitrary : Never f (Prog.arbitrary : Prog σ ℕ) := fun _ _ => trivial

theorem block : Never f (Prog.block : Prog σ Unit) := fun _ => trivial

theorem assert (h : .halt ≠ f) (c : Bool) : Never f (Prog.assert c : Prog σ Unit) := by
  intro s
  cases c with
  | false => exact h
  | true => trivial

theorem bind {g : α → Prog σ β} (hx : Never f x) (hg : ∀ a, Never f (g a)) : Never f (x >>= g) := by
  intro s
  refine avoids_bind.mpr ⟨hx s, wp_mono wp_true fun a t _ => hg a t⟩

end Never

/-! ## Programs that do the same -/

/-- From `s` the programs return the same and stop with the same faults, in every environment. -/
structure SameFrom (x y : Prog σ α) (s : σ) : Prop where
  ensures : ∀ e (Q : α → σ → Prop), ensures e x Q s ↔ ensures e y Q s
  avoids : ∀ f, avoids f x s ↔ avoids f y s

namespace SameFrom

variable {x y z : Prog σ α} {s : σ}

theorem refl (x : Prog σ α) (s : σ) : SameFrom x x s := ⟨fun _ _ => Iff.rfl, fun _ => Iff.rfl⟩

theorem trans (h : SameFrom x y s) (h' : SameFrom y z s) : SameFrom x z s :=
  ⟨fun e Q => (h.ensures e Q).trans (h'.ensures e Q), fun f => (h.avoids f).trans (h'.avoids f)⟩

theorem symm (h : SameFrom x y s) : SameFrom y x s :=
  ⟨fun e Q => (h.ensures e Q).symm, fun f => (h.avoids f).symm⟩

theorem succeeds_iff (h : SameFrom x y s) {Q : α → σ → Prop} : succeeds x Q s ↔ succeeds y Q s :=
  ⟨fun hx => succeeds_of_ensures ((h.ensures _ Q).mp (ensures_of_succeeds hx)),
    fun hy => succeeds_of_ensures ((h.ensures _ Q).mpr (ensures_of_succeeds hy))⟩

/-- Reading the state and going on is going on with the state. -/
theorem read_bind (g : σ → Prog σ α) (s : σ) : SameFrom (read >>= g) (g s) s :=
  ⟨fun _ _ => Iff.rfl, fun _ => Iff.rfl⟩

/-- The first part may be replaced by what does the same. -/
theorem bind {v w : Prog σ β} (h : SameFrom v w s) (g : β → Prog σ α) :
    SameFrom (v >>= g) (w >>= g) s := by
  refine ⟨fun e Q => ?_, fun f => ?_⟩
  · rw [ensures_bind, ensures_bind]
    exact h.ensures e _
  · have hwp : wp v (fun a t => Prog.avoids f (g a) t) s ↔ wp w (fun a t => Prog.avoids f (g a) t) s :=
      ⟨fun hv => wp_of_ensures ((h.ensures .any _).mp (ensures_of_wp trivial hv)),
        fun hw => wp_of_ensures ((h.ensures .any _).mpr (ensures_of_wp trivial hw))⟩
    rw [avoids_bind, avoids_bind, h.avoids f, hwp]

end SameFrom

end Prog

end Suspend
