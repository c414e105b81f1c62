import Mathlib.Tactic

/-!
# Runs of a labelled transition system

`Reachable init step ok s`: the state `s` is reached from an initial state by steps
that all meet the side condition `ok`.  `Reachable.invariant` is the induction rule,
and `follow` replays a list of labels with an executable step function.  A list of labels
has good beginnings only, if and only if none of its steps is bad (`good_beginnings_iff`).
-/

namespace Runs

variable {σ ι : Type*} {init : σ → Prop} {step : σ → ι → σ → Prop} {ok : σ → ι → Prop}

/-- The states reached by steps that meet `ok`. -/
inductive Reachable (init : σ → Prop) (step : σ → ι → σ → Prop) (ok : σ → ι → Prop) : σ → Prop where
  | start {s : σ} (hinit : init s) : Reachable init step ok s
  | next {s t : σ} {i : ι} (hs : Reachable init step ok s) (hok : ok s i) (hstep : step s i t) :
      Reachable init step ok t

/-- What holds initially and is kept by every step holds in every reachable state. -/
theorem Reachable.invariant (inv : σ → Prop) (hinit : ∀ s, init s → inv s)
    (hstep : ∀ s i t, inv s → ok s i → step s i t → inv t) {s : σ}
    (hs : Reachable init step ok s) : inv s := by
  induction hs with
  | start h => exact hinit _ h
  | next _ hok hst ih => exact hstep _ _ _ ih hok hst

/-- Replay labels with an executable step function. -/
def follow (exec : σ → ι → Option σ) : List ι → σ → Option σ
  | [], s => some s
  | i :: is, s => (exec s i).bind (follow exec is)

/-- A replay whose steps are steps of the system, as long as `inv` holds, ends in a reachable
state. -/
theorem Reachable.of_follow_inv {exec : σ → ι → Option σ} (inv : σ → Prop)
    (hexec : ∀ s i t, inv s → exec s i = some t → ok s i ∧ step s i t ∧ inv t) {is : List ι} {s t : σ}
    (hs : Reachable init step ok s) (hinv : inv s) (h : follow exec is s = some t) :
    Reachable init step ok t := by
  induction is generalizing s with
  | nil =>
      simp only [follow, Option.some.injEq] at h
      exact h ▸ hs
  | cons i is ih =>
      simp only [follow, Option.bind_eq_some_iff] at h
      obtain ⟨u, hu, h⟩ := h
      obtain ⟨hok, hstep, hinv'⟩ := hexec s i u hinv hu
      exact ih (.next hs hok hstep) hinv' h

/-- A replay whose steps are steps of the system ends in a reachable state. -/
theorem Reachable.of_follow {exec : σ → ι → Option σ}
    (hexec : ∀ s i t, exec s i = some t → ok s i ∧ step s i t) {is : List ι} {s t : σ}
    (hs : Reachable init step ok s) (h : follow exec is s = some t) : Reachable init step ok t :=
  hs.of_follow_inv (fun _ => True)
    (fun s i u _ hu => ⟨(hexec s i u hu).1, (hexec s i u hu).2, trivial⟩) trivial h

/-- If exactly the bad steps lead from a good list to one that is not good, then a list with good
beginnings only is one without a bad step. -/
theorem good_beginnings_iff {good : List ι → Prop} {bad : List ι → ι → Prop} (hnil : good [])
    (hsnoc : ∀ u i, good u → (good (u ++ [i]) ↔ ¬bad u i)) (is : List ι) :
    (∀ u, u <+: is → good u) ↔ ∀ u i v, is = u ++ i :: v → ¬bad u i := by
  constructor
  · rintro h u i v rfl
    refine (hsnoc u i (h u (List.prefix_append u _))).mp (h (u ++ [i]) ⟨v, ?_⟩)
    rw [List.append_assoc, List.singleton_append]
  · intro h u
    induction u using List.reverseRecOn with
    | nil => exact fun _ => hnil
    | append_singleton u i ih =>
        rintro ⟨v, rfl⟩
        have hu := ih ((List.prefix_append u [i]).trans (List.prefix_append (u ++ [i]) v))
        refine (hsnoc u i hu).mpr (h u i v ?_)
        rw [List.append_assoc, List.singleton_append]

end Runs
