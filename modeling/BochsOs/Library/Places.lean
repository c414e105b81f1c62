import BochsOs.Library.Words

/-!
# The places of words

A text in which a separator cuts out words, as in `Words`, and where the words begin.  A program
that scans such a text either is inside of a word or is not, and so does `places`.

`ListsRuns` says without a scan which words and places are meant: the longest pieces without
separator, from left to right.
-/

namespace Words

variable {α : Type*} [DecidableEq α] {sep c : α} {p q : ℕ} {inside : Bool} {s u v w : List α}

/-- The words of a text with the places where they begin.  The text is at `p`, and `inside` says that
there is a letter in front of it. -/
def places (sep : α) : (p : ℕ) → (inside : Bool) → List α → List (ℕ × List α)
  | _, _, [] => []
  | p, inside, c :: s =>
      if c = sep then places sep (p + 1) false s
      else if inside then places sep (p + 1) true s
      else (p, (c :: s).takeWhile (· ≠ sep)) :: places sep (p + 1) true s

/-- A word may begin behind `u`. -/
def Opens (sep : α) (inside : Bool) (u : List α) : Prop :=
  match u.getLast? with
  | none => inside = false
  | some c => c = sep

/-- A word may end in front of `v`. -/
def Closes (sep : α) (v : List α) : Prop := ∀ c ∈ v.head?, c = sep

/-- The piece `w` of the text `s` at `p` is a longest one without separator, and begins at `q`. -/
def IsRun (sep : α) (p : ℕ) (inside : Bool) (s : List α) (q : ℕ) (w : List α) : Prop :=
  ∃ u v, s = u ++ w ++ v ∧ q = p + u.length ∧ IsWord sep w ∧ Opens sep inside u ∧ Closes sep v

/-- All of these pieces, from left to right. -/
structure ListsRuns (sep : α) (p : ℕ) (s : List α) (ts : List (ℕ × List α)) : Prop where
  mem : ∀ q w, (q, w) ∈ ts ↔ IsRun sep p false s q w
  sorted : ts.Pairwise fun x y => x.1 < y.1

/-! ## How a scan goes on -/

@[simp] theorem places_nil : places sep p inside [] = [] := rfl

@[simp] theorem places_sep_cons : places sep p inside (sep :: s) = places sep (p + 1) false s :=
  if_pos rfl

theorem places_skip :
    places sep p false s =
      places sep (p + (s.takeWhile (· = sep)).length) false (s.dropWhile (· = sep)) := by
  induction s generalizing p with
  | nil => rfl
  | cons c s ih =>
      by_cases hc : c = sep
      · rw [List.takeWhile_cons_of_pos (by simpa using hc),
          List.dropWhile_cons_of_pos (by simpa using hc), hc, places_sep_cons, ih, List.length_cons,
          Nat.add_assoc, Nat.add_comm 1]
      · rw [List.takeWhile_cons_of_neg (by simpa using hc),
          List.dropWhile_cons_of_neg (by simpa using hc)]
        rfl

theorem places_inside :
    places sep p true s =
      places sep (p + (s.takeWhile (· ≠ sep)).length) true (s.dropWhile (· ≠ sep)) := by
  induction s generalizing p with
  | nil => rfl
  | cons c s ih =>
      by_cases hc : c = sep
      · rw [List.takeWhile_cons_of_neg (by simpa using hc),
          List.dropWhile_cons_of_neg (by simpa using hc)]
        rfl
      · rw [List.takeWhile_cons_of_pos (by simpa using hc),
          List.dropWhile_cons_of_pos (by simpa using hc), places, if_neg hc, if_pos rfl, ih,
          List.length_cons, Nat.add_assoc, Nat.add_comm 1]

/-- A word is taken off, and the scan goes on behind it. -/
theorem places_word (hc : c ≠ sep) :
    places sep p false (c :: s) =
      (p, (c :: s).takeWhile (· ≠ sep)) ::
        places sep (p + ((c :: s).takeWhile (· ≠ sep)).length) true ((c :: s).dropWhile (· ≠ sep)) := by
  rw [places, if_neg hc, if_neg Bool.false_ne_true, places_inside,
    List.takeWhile_cons_of_pos (by simpa using hc), List.dropWhile_cons_of_pos (by simpa using hc),
    List.length_cons, Nat.add_assoc, Nat.add_comm 1]

/-! ## The scan lists the runs -/

theorem opens_cons : Opens sep inside (c :: u) ↔ Opens sep (decide (c ≠ sep)) u := by
  unfold Opens
  cases u with
  | nil => simp
  | cons d u => rw [List.getLast?_cons_cons, List.getLast?_cons]

theorem le_of_mem_places {x : ℕ × List α} (hx : x ∈ places sep p inside s) : p ≤ x.1 := by
  induction s generalizing p inside with
  | nil => cases hx
  | cons c s ih =>
      rw [places] at hx
      split_ifs at hx
      · exact (Nat.le_succ p).trans (ih hx)
      · exact (Nat.le_succ p).trans (ih hx)
      · rcases List.mem_cons.mp hx with rfl | hx
        · exact le_rfl
        · exact (Nat.le_succ p).trans (ih hx)

theorem sorted_places : (places sep p inside s).Pairwise fun x y => x.1 < y.1 := by
  induction s generalizing p inside with
  | nil => exact List.Pairwise.nil
  | cons c s ih =>
      rw [places]
      split_ifs
      · exact ih
      · exact ih
      · exact List.pairwise_cons.mpr ⟨fun x hx => le_of_mem_places hx, ih⟩

theorem takeWhile_word (hw : IsWord sep w) (hv : Closes sep v) : (w ++ v).takeWhile (· ≠ sep) = w := by
  have hall : ∀ c ∈ w, decide (c ≠ sep) = true := by
    intro c hc
    rw [decide_eq_true_eq]
    rintro rfl
    exact hw.2 hc
  rw [List.takeWhile_append_of_pos hall]
  cases v with
  | nil => exact List.append_nil w
  | cons d v => rw [List.takeWhile_cons_of_neg (by simpa using hv d rfl), List.append_nil]

theorem closes_dropWhile (s : List α) : Closes sep (s.dropWhile (· ≠ sep)) := by
  intro c hc
  rcases dropWhile_cases sep s with hnil | ⟨s', hcons⟩
  · rw [hnil] at hc
    cases hc
  · rw [hcons] at hc
    exact (Option.some_inj.mp hc).symm

/-- A run that does not begin with the text begins behind its first letter. -/
theorem isRun_cons : IsRun sep p inside (c :: s) q w ↔
    (inside = false ∧ c ≠ sep ∧ q = p ∧ w = (c :: s).takeWhile (· ≠ sep)) ∨
      IsRun sep (p + 1) (decide (c ≠ sep)) s q w := by
  constructor
  · rintro ⟨u, v, hs, hq, hw, hopen, hclose⟩
    cases u with
    | nil =>
        rw [List.nil_append] at hs
        refine Or.inl ⟨hopen, ?_, hq, ?_⟩
        · obtain ⟨d, w', rfl⟩ := List.exists_cons_of_ne_nil hw.1
          rw [List.cons_append] at hs
          rw [(List.cons_eq_cons.mp hs).1]
          rintro rfl
          exact hw.2 List.mem_cons_self
        · rw [hs, takeWhile_word hw hclose]
    | cons d u =>
        rw [List.cons_append, List.cons_append] at hs
        obtain ⟨rfl, htail⟩ := List.cons_eq_cons.mp hs
        refine Or.inr ⟨u, v, htail, ?_, hw, opens_cons.mp hopen, hclose⟩
        rw [hq, List.length_cons]
        omega
  · rintro (⟨hin, hc, rfl, rfl⟩ | ⟨u, v, rfl, hq, hw, hopen, hclose⟩)
    · refine ⟨[], (c :: s).dropWhile (· ≠ sep), ?_, rfl, ⟨?_, not_mem_takeWhile _⟩, hin,
        closes_dropWhile _⟩
      · rw [List.nil_append, List.takeWhile_append_dropWhile]
      · rw [List.takeWhile_cons_of_pos (by simpa using hc)]
        exact List.cons_ne_nil _ _
    · refine ⟨c :: u, v, rfl, ?_, hw, opens_cons.mpr hopen, hclose⟩
      rw [hq, List.length_cons]
      omega

theorem mem_places : (q, w) ∈ places sep p inside s ↔ IsRun sep p inside s q w := by
  induction s generalizing p inside with
  | nil =>
      refine iff_of_false List.not_mem_nil ?_
      rintro ⟨u, v, hs, -, hw, -⟩
      have hnil := List.append_eq_nil_iff.mp (List.append_eq_nil_iff.mp hs.symm).1
      exact hw.1 hnil.2
  | cons c s ih =>
      rw [isRun_cons, ← ih, places]
      split_ifs with hc hin
      · rw [hc, decide_eq_false (fun hne => hne rfl)]
        exact (or_iff_right fun h => h.2.1 rfl).symm
      · rw [decide_eq_true hc]
        exact (or_iff_right fun h => Bool.false_ne_true (h.1.symm.trans hin)).symm
      · rw [decide_eq_true hc, List.mem_cons, Prod.mk.injEq]
        refine or_congr_left ⟨fun h => ⟨Bool.eq_false_iff.mpr hin, hc, h⟩, fun h => h.2.2⟩

theorem listsRuns_places : ListsRuns sep p s (places sep p false s) :=
  ⟨fun _ _ => mem_places, sorted_places⟩

/-- The pieces are the words of the text. -/
theorem map_places : (places sep p false s).map Prod.snd = words sep s := by
  induction hn : s.length using Nat.strong_induction_on generalizing p s with
  | _ n ih =>
      rw [places_skip, words_eq]
      have hle := (List.dropWhile_sublist (· = sep) (l := s)).length_le
      cases htext : s.dropWhile (· = sep) with
      | nil => rfl
      | cons c text =>
          have hc : c ≠ sep := ne_sep_of_dropWhile htext
          have hlen := congrArg List.length
            (List.takeWhile_append_dropWhile (p := (· ≠ sep)) (l := c :: text))
          have hne : (c :: text).takeWhile (· ≠ sep) ≠ [] := by
            rw [List.takeWhile_cons_of_pos (by simpa using hc)]
            exact List.cons_ne_nil _ _
          have hpos := List.length_pos_of_ne_nil hne
          rw [List.length_append] at hlen
          rw [htext] at hle
          rw [if_neg hne, places_word hc, List.map_cons]
          congr 1
          -- behind a word the text is over or there is a separator
          rcases dropWhile_cases sep (c :: text) with hnil | ⟨rest, hrest⟩
          · rw [hnil, places_nil, words_nil]
            rfl
          · rw [hrest, places_sep_cons, words_sep_cons]
            rw [hrest, List.length_cons] at hlen
            exact ih rest.length (by omega) rfl

theorem length_places : (places sep p false s).length = (words sep s).length := by
  rw [← map_places (p := p), List.length_map]

end Words
