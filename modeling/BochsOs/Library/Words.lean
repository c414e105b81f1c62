import Mathlib.Data.List.TakeWhile
import Mathlib.Tactic

/-!
# Words between separators

A text over any alphabet is cut at the occurrences of a separator.  `words sep s` are
the pieces that are not empty, so separators in a row and at the ends do not count;
`join sep ws` puts a separator in front of every word.  `words` undoes `join`
(`words_join`), and `words_eq` takes the first word off a text, as a program does that
reads it from left to right.
-/

namespace Words

section Join

variable {α : Type*} {sep : α}

/-- The words with a separator in front of each. -/
def join (sep : α) (ws : List (List α)) : List α := ws.flatMap (sep :: ·)

@[simp] theorem join_nil : join sep [] = [] := rfl

@[simp] theorem join_cons (w : List α) (ws : List (List α)) :
    join sep (w :: ws) = sep :: w ++ join sep ws := rfl

@[simp] theorem join_append (ws ws' : List (List α)) :
    join sep (ws ++ ws') = join sep ws ++ join sep ws' :=
  List.flatMap_append

theorem length_le_length_join (ws : List (List α)) : ws.length ≤ (join sep ws).length := by
  induction ws with
  | nil => exact le_rfl
  | cons w ws ih =>
      rw [join_cons, List.length_append, List.length_cons, List.length_cons]
      omega

end Join

variable {α : Type*} [DecidableEq α] {sep : α}

/-- The words of a text: its nonempty pieces between separators. -/
def words (sep : α) (s : List α) : List (List α) := (s.splitOn sep).filter (· ≠ [])

/-- A nonempty text without separator. -/
def IsWord (sep : α) (w : List α) : Prop := w ≠ [] ∧ sep ∉ w

instance (sep : α) (w : List α) : Decidable (IsWord sep w) := instDecidableAnd

@[simp] theorem words_nil : words sep [] = [] := by
  simp [words, List.splitOn_nil]

/-- A separator ends a word. -/
theorem words_append_sep (s s' : List α) :
    words sep (s ++ sep :: s') = words sep s ++ words sep s' := by
  simp only [words, List.splitOn_append_cons_self, List.filter_append]

@[simp] theorem words_sep_cons (s : List α) : words sep (sep :: s) = words sep s := by
  have h : words sep ([] ++ sep :: s) = words sep [] ++ words sep s := words_append_sep [] s
  rwa [words_nil, List.nil_append, List.nil_append] at h

theorem words_of_isWord {w : List α} (hw : IsWord sep w) : words sep w = [w] := by
  simp [words, List.splitOn_eq_singleton hw.2, hw.1]

/-- Leading separators do not count. -/
theorem words_dropWhile (s : List α) : words sep (s.dropWhile (· = sep)) = words sep s := by
  induction s with
  | nil => rfl
  | cons c s ih =>
      by_cases hc : c = sep
      · rw [List.dropWhile_cons_of_pos (by simpa using hc), ih, hc, words_sep_cons]
      · rw [List.dropWhile_cons_of_neg (by simpa using hc)]

/-- What stands before the first separator has none. -/
theorem not_mem_takeWhile (s : List α) : sep ∉ s.takeWhile (· ≠ sep) := by
  intro hmem
  simpa using List.mem_takeWhile_imp hmem

/-- The rest of a text after its first piece is empty or begins with a separator. -/
theorem dropWhile_cases (sep : α) (s : List α) :
    s.dropWhile (· ≠ sep) = [] ∨ ∃ s', s.dropWhile (· ≠ sep) = sep :: s' := by
  induction s with
  | nil => exact Or.inl rfl
  | cons c s ih =>
      by_cases hc : c = sep
      · rw [List.dropWhile_cons_of_neg (by simpa using hc), hc]
        exact Or.inr ⟨s, rfl⟩
      · rw [List.dropWhile_cons_of_pos (by simpa using hc)]
        exact ih

/-- What follows the leading separators is none. -/
theorem ne_sep_of_dropWhile {s s' : List α} {c : α} (h : s.dropWhile (· = sep) = c :: s') : c ≠ sep := by
  have hc := List.head_dropWhile_not (· = sep) (l := s) (by rw [h]; exact List.cons_ne_nil c s')
  simpa only [h, List.head_cons, decide_eq_false_iff_not] using hc

/-- The text after its leading separators is empty or begins with a word. -/
theorem takeWhile_ne_nil {s : List α} (hs : s.dropWhile (· = sep) ≠ []) :
    (s.dropWhile (· = sep)).takeWhile (· ≠ sep) ≠ [] := by
  rcases htext : s.dropWhile (· = sep) with _ | ⟨c, s'⟩
  · exact absurd htext hs
  · simp [ne_sep_of_dropWhile htext]

/-- The words of a text, first word first: skip the separators, take what stands before
the next one, and go on behind it. -/
theorem words_eq (s : List α) :
    words sep s =
      if (s.dropWhile (· = sep)).takeWhile (· ≠ sep) = [] then []
      else (s.dropWhile (· = sep)).takeWhile (· ≠ sep) ::
        words sep ((s.dropWhile (· = sep)).dropWhile (· ≠ sep)) := by
  rw [← words_dropWhile s]
  split
  next hnil =>
    have htext : s.dropWhile (· = sep) = [] := by
      by_contra hne
      exact takeWhile_ne_nil hne hnil
    rw [htext, words_nil]
  next hne =>
    set text := s.dropWhile (· = sep)
    have hword : IsWord sep (text.takeWhile (· ≠ sep)) := ⟨hne, not_mem_takeWhile text⟩
    conv_lhs => rw [← List.takeWhile_append_dropWhile (p := (· ≠ sep)) (l := text)]
    rcases dropWhile_cases sep text with hrest | ⟨s', hrest⟩
    · rw [hrest, List.append_nil, words_of_isWord hword, words_nil]
    · rw [hrest, words_append_sep, words_of_isWord hword, words_sep_cons]
      rfl

/-- A text without words has separators only. -/
theorem eq_sep_of_words_eq_nil {s : List α} (hs : words sep s = []) : ∀ c ∈ s, c = sep := by
  have htext : s.dropWhile (· = sep) = [] := by
    by_contra hne
    rw [words_eq, if_neg (takeWhile_ne_nil hne)] at hs
    cases hs
  intro c hc
  exact of_decide_eq_true (List.dropWhile_eq_nil_iff.mp htext c hc)

/-- The words of a text are words, and stand in the text. -/
theorem isWord_of_mem_words {s w : List α} (hw : w ∈ words sep s) : IsWord sep w ∧ w ⊆ s := by
  induction hn : s.length using Nat.strong_induction_on generalizing s with
  | _ n ih =>
      rw [words_eq] at hw
      split at hw
      next => simp at hw
      next hne =>
        have hsub : s.dropWhile (· = sep) ⊆ s := (List.dropWhile_sublist _).subset
        rcases List.mem_cons.mp hw with rfl | hrest
        · exact ⟨⟨hne, not_mem_takeWhile _⟩, List.Subset.trans (List.takeWhile_sublist _).subset hsub⟩
        · refine (ih _ ?_ hrest rfl).imp_right fun h =>
            List.Subset.trans h (List.Subset.trans (List.dropWhile_sublist _).subset hsub)
          have hlen := congrArg List.length (List.takeWhile_append_dropWhile
            (p := (· ≠ sep)) (l := s.dropWhile (· = sep)))
          have hpos := List.length_pos_iff.mpr hne
          have hle := (List.dropWhile_sublist (· = sep) (l := s)).length_le
          rw [List.length_append] at hlen
          omega

/-- Joined words are found again, and so is the text behind them. -/
theorem words_join_append {ws : List (List α)} (hws : ∀ w ∈ ws, IsWord sep w) {s : List α}
    (hs : ∀ c ∈ s.head?, c = sep) : words sep (join sep ws ++ s) = ws ++ words sep s := by
  induction ws with
  | nil => rfl
  | cons w ws ih =>
      have ih := ih fun v hv => hws v (List.mem_cons_of_mem w hv)
      have hword := words_of_isWord (hws w List.mem_cons_self)
      rw [join_cons, List.append_assoc, List.cons_append, words_sep_cons]
      rcases htext : join sep ws ++ s with _ | ⟨c, s'⟩
      · rw [htext, words_nil] at ih
        rw [List.append_nil, hword, List.cons_append, ← ih]
      · have hc : c = sep := by
          cases ws with
          | nil => exact hs c (by simp_all)
          | cons v ws => simp only [join_cons, List.cons_append, List.cons.injEq] at htext
                         exact htext.1.symm
        have hrest : words sep s' = ws ++ words sep s := by
          rw [← ih, htext, hc, words_sep_cons]
        rw [hc, words_append_sep, hword, hrest]
        rfl

/-- `words` undoes `join`. -/
theorem words_join {ws : List (List α)} (hws : ∀ w ∈ ws, IsWord sep w) :
    words sep (join sep ws) = ws := by
  simpa using words_join_append hws (s := []) (by simp)

/-- The words of a text, joined, are no longer than the text with one more separator. -/
theorem length_join_words_le (s : List α) : (join sep (words sep s)).length ≤ s.length + 1 := by
  induction hn : s.length using Nat.strong_induction_on generalizing s with
  | _ n ih =>
      rw [words_eq]
      split
      next => simp
      next hne =>
        have hle := (List.dropWhile_sublist (· = sep) (l := s)).length_le
        set text := s.dropWhile (· = sep)
        have hlen := congrArg List.length (List.takeWhile_append_dropWhile
          (p := (· ≠ sep)) (l := text))
        have hpos := List.length_pos_iff.mpr hne
        rw [List.length_append] at hlen
        rw [join_cons, List.length_append, List.length_cons]
        rcases dropWhile_cases sep text with hrest | ⟨s', hrest⟩
        · rw [hrest, words_nil, join_nil, List.length_nil]
          omega
        · have hs' := ih s'.length (by rw [hrest, List.length_cons] at hlen; omega) s' rfl
          rw [hrest, words_sep_cons]
          rw [hrest, List.length_cons] at hlen
          omega

/-- A text that begins with a separator is at least as long as its words joined. -/
theorem length_join_words_le_of_head {s : List α} (hs : s.head? = some sep) :
    (join sep (words sep s)).length ≤ s.length := by
  cases s with
  | nil => simp at hs
  | cons c s =>
      obtain rfl : c = sep := by simpa using hs
      rw [words_sep_cons]
      exact length_join_words_le s

end Words
