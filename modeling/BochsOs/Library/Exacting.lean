import BochsOs.Library.Prog

/-!
# Programs that insist on the answer `0`

Many programs stop with one fault as soon as the environment answers anything but `0`: what
they asked for was memory, and they use it unchecked.  For such a program it is enough to
look at the run with all answers `0`.  What that run returns is all the program can return
(`Exacting.wp`), and a fault other than the one fault occurs in no run if it does not occur
in that one (`Exacting.avoids`).
-/

namespace Suspend.Prog

variable {σ α β : Type} {f : Fault}

/-- Every answer but `0` stops the program with the fault `f`. -/
def Exacting (f : Fault) : Prog σ α → Prop
  | ret _ => True
  | stop _ => True
  | get k => ∀ s, Exacting f (k s)
  | set _ k => Exacting f k
  | choose k => (∀ n, n ≠ 0 → k n = stop f) ∧ Exacting f (k 0)
  | pause k => Exacting f k

namespace Exacting

theorem pure (a : α) : Exacting f (Pure.pure a : Prog σ α) := trivial

theorem stop (g : Fault) : Exacting f (Prog.stop g : Prog σ α) := trivial

theorem read : Exacting f (Prog.read : Prog σ σ) := fun _ => trivial

theorem write (s : σ) : Exacting f (Prog.write s) := trivial

theorem modify (g : σ → σ) : Exacting f (Prog.modify g) := fun _ => trivial

theorem block : Exacting f (Prog.block : Prog σ Unit) := trivial

theorem assert (c : Bool) : Exacting f (Prog.assert c : Prog σ Unit) := by
  cases c with
  | false => trivial
  | true => trivial

theorem bind {x : Prog σ α} {g : α → Prog σ β} (hx : Exacting f x) (hg : ∀ a, Exacting f (g a)) :
    Exacting f (x >>= g) := by
  change Exacting f (Prog.bind x g)
  induction x with
  | ret a => exact hg a
  | stop e => trivial
  | get k ih => exact fun s => ih s (hx s)
  | set s k ih => exact ih hx
  | choose k ih =>
      refine ⟨fun n hn => ?_, ih 0 hx.2⟩
      change Prog.bind (k n) g = Prog.stop f
      rw [hx.1 n hn]
      rfl
  | pause k ih => exact ih hx

variable {x : Prog σ α} {s : σ} {Q : α → σ → Prop}

/-- No run has a fault that the run with all answers `0` does not have. -/
theorem avoids (hx : Exacting f x) (h : x.ensures .zero Q s) {g : Fault} (hg : f ≠ g) :
    x.avoids g s := by
  induction x generalizing s with
  | ret a => trivial
  | stop e => exact h.elim
  | get k ih => exact ih s (hx s) h
  | set s k ih => exact ih hx h
  | choose k ih =>
      intro n
      by_cases hn : n = 0
      · rw [hn]
        exact ih 0 hx.2 (h 0 rfl)
      · rw [hx.1 n hn]
        exact hg
  | pause k ih => exact ih hx h

/-- What is returned is what the run with all answers `0` returns. -/
theorem wp (hx : Exacting f x) (h : x.ensures .zero Q s) : x.wp Q s := by
  induction x generalizing s with
  | ret a => exact h
  | stop e => trivial
  | get k ih => exact ih s (hx s) h
  | set s k ih => exact ih hx h
  | choose k ih =>
      intro n
      by_cases hn : n = 0
      · rw [hn]
        exact ih 0 hx.2 (h 0 rfl)
      · rw [hx.1 n hn]
        trivial
  | pause k ih => exact ih hx h

/-- A program that insists on `0`, followed by another. -/
theorem avoids_bind {g : α → Prog σ β} {e : Fault} (hx : Exacting f x) (h : x.ensures .zero Q s)
    (he : f ≠ e) (hg : ∀ a t, Q a t → (g a).avoids e t) : (x >>= g).avoids e s :=
  Prog.avoids_bind.mpr ⟨hx.avoids h he, wp_mono (hx.wp h) hg⟩

end Exacting

end Suspend.Prog
