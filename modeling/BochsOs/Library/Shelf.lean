import Mathlib.Tactic
import Mathlib.Data.List.ReduceOption

/-!
# Shelves with holes

A shelf is a row of places, each empty or with a box in it, and a box is a row of slots,
each free or with an item in it.  `items` lists the items in order.

What is done to a shelf is done to one place: `exists_items_update` says that the items
before and after that place stay as they are.
-/

namespace Shelves

/-- A box of slots. -/
abbrev Box (α : Type*) := List (Option α)

/-- A row of places for boxes. -/
abbrev BoxRow (α : Type*) := ℕ → Option (Box α)

variable {α : Type*}

/-- The box has a free slot. -/
def hasFreeSlot (b : Box α) : Bool := b.any Option.isNone

theorem hasFreeSlot_iff {b : Box α} : hasFreeSlot b = true ↔ none ∈ b := by
  unfold hasFreeSlot
  rw [List.any_eq_true]
  constructor
  · rintro ⟨o, ho, hnone⟩
    rwa [Option.isNone_iff_eq_none.mp hnone] at ho
  · exact fun h => ⟨none, h, rfl⟩

/-- The items in what stands in one place. -/
def boxItems (o : Option (Box α)) : List α := (o.getD []).reduceOption

@[simp] theorem boxItems_none : boxItems (none : Option (Box α)) = [] := rfl

@[simp] theorem boxItems_some (b : Box α) : boxItems (some b) = b.reduceOption := rfl

/-- The items in the places from `first` on. -/
def items (s : BoxRow α) : (left first : ℕ) → List α
  | 0, _ => []
  | left + 1, first => boxItems (s first) ++ items s left (first + 1)

theorem items_congr {s s' : BoxRow α} {left first : ℕ}
    (h : ∀ i, first ≤ i → i < first + left → s i = s' i) : items s left first = items s' left first := by
  induction left generalizing first with
  | zero => rfl
  | succ left ih =>
      rw [items, items, h first le_rfl (by omega), ih fun i hi hi' => h i (by omega) (by omega)]

theorem items_add (s : BoxRow α) (left left' first : ℕ) :
    items s (left + left') first = items s left first ++ items s left' (first + left) := by
  induction left generalizing first with
  | zero => rw [Nat.zero_add, items, List.nil_append, Nat.add_zero]
  | succ left ih =>
      rw [Nat.succ_add, items, items, ih, List.append_assoc,
        show first + 1 + left = first + (left + 1) by omega]

theorem items_eq_nil {s : BoxRow α} {left first : ℕ} (h : items s left first = []) :
    ∀ i, first ≤ i → i < first + left → boxItems (s i) = [] := by
  induction left generalizing first with
  | zero => exact fun i hlow hhigh => absurd hhigh (Nat.not_lt.mpr hlow)
  | succ left ih =>
      intro i hlow hhigh
      rw [items, List.append_eq_nil_iff] at h
      rcases Nat.eq_or_lt_of_le hlow with rfl | hlt
      · exact h.1
      · exact ih h.2 i hlt (by omega)

/-- Places that hold at most `c` items each. -/
theorem length_items_le {s : BoxRow α} {c left first : ℕ}
    (h : ∀ i, first ≤ i → i < first + left → (boxItems (s i)).length ≤ c) :
    (items s left first).length ≤ c * left := by
  induction left generalizing first with
  | zero => exact Nat.zero_le _
  | succ left ih =>
      have hfirst := h first le_rfl (by omega)
      have hrest : (items s left (first + 1)).length ≤ c * left :=
        ih fun i hi hi' => h i (by omega) (by omega)
      rw [items, List.length_append, Nat.mul_succ]
      omega

/-- The slots of the places from `first` on. -/
def row (s : BoxRow α) : (left first : ℕ) → Box α
  | 0, _ => []
  | left + 1, first => (s first).getD [] ++ row s left (first + 1)

theorem reduceOption_row (s : BoxRow α) (left first : ℕ) :
    (row s left first).reduceOption = items s left first := by
  induction left generalizing first with
  | zero => rfl
  | succ left ih => rw [row, items, List.reduceOption_append, ih, boxItems]

/-- A change of one place keeps the items before it and after it. -/
theorem exists_items_update (s : BoxRow α) {n i : ℕ} (hi : i < n) :
    ∃ before after, ∀ o, items (Function.update s i o) n 0 = before ++ boxItems o ++ after := by
  refine ⟨items s i 0, items s (n - i - 1) (i + 1), fun o => ?_⟩
  have hbefore : items (Function.update s i o) i 0 = items s i 0 :=
    items_congr fun j _ hj => Function.update_of_ne (by omega) _ _
  have hafter : items (Function.update s i o) (n - i - 1) (i + 1) = items s (n - i - 1) (i + 1) :=
    items_congr fun j hj _ => Function.update_of_ne (by omega) _ _
  have hn : n = i + ((n - i - 1) + 1) := by omega
  conv_lhs => rw [hn]
  rw [items_add, items, Nat.zero_add, Function.update_self, hbefore, hafter, List.append_assoc]

/-- The items of the shelf itself, around one place. -/
theorem exists_items (s : BoxRow α) {n i : ℕ} (hi : i < n) :
    ∃ before after, items s n 0 = before ++ boxItems (s i) ++ after ∧
      ∀ o, items (Function.update s i o) n 0 = before ++ boxItems o ++ after := by
  obtain ⟨before, after, h⟩ := exists_items_update s hi
  refine ⟨before, after, ?_, h⟩
  rw [← h, Function.update_eq_self]

/-- An item put somewhere in a list. -/
def Inserted (x : α) (l l' : List α) : Prop := ∃ l₁ l₂, l = l₁ ++ l₂ ∧ l' = l₁ ++ x :: l₂

theorem Inserted.length {x : α} {l l' : List α} (h : Inserted x l l') : l'.length = l.length + 1 := by
  obtain ⟨l₁, l₂, rfl, rfl⟩ := h
  rw [List.length_append, List.length_append, List.length_cons, Nat.add_assoc]

theorem Inserted.mem_iff {x y : α} {l l' : List α} (h : Inserted x l l') :
    y ∈ l' ↔ y = x ∨ y ∈ l := by
  obtain ⟨l₁, l₂, rfl, rfl⟩ := h
  rw [List.mem_append, List.mem_append, List.mem_cons]
  tauto

theorem Inserted.perm {x : α} {l l' : List α} (h : Inserted x l l') : l'.Perm (x :: l) := by
  obtain ⟨l₁, l₂, rfl, rfl⟩ := h
  exact List.perm_middle

/-- A search that the new item does not answer is answered as before. -/
theorem Inserted.find?_of_neg {x : α} {l l' : List α} (h : Inserted x l l') {p : α → Bool}
    (hp : ¬ p x = true) : l'.find? p = l.find? p := by
  obtain ⟨l₁, l₂, rfl, rfl⟩ := h
  rw [List.find?_append, List.find?_append, List.find?_cons_of_neg hp]

/-- A search that had no answer is answered by the new item. -/
theorem Inserted.find?_of_pos {x : α} {l l' : List α} (h : Inserted x l l') {p : α → Bool}
    (hp : p x = true) (hnone : l.find? p = none) : l'.find? p = some x := by
  obtain ⟨l₁, l₂, rfl, rfl⟩ := h
  rw [List.find?_append, Option.or_eq_none_iff] at hnone
  rw [List.find?_append, hnone.1, Option.none_or, List.find?_cons_of_pos hp]

/-- An item put in a free slot of a box. -/
theorem inserted_set {b : Box α} {j : ℕ} (hj : j < b.length) (hfree : b[j] = none) (x : α) :
    Inserted x b.reduceOption (b.set j (some x)).reduceOption := by
  refine ⟨(b.take j).reduceOption, (b.drop (j + 1)).reduceOption, ?_, ?_⟩
  · conv_lhs => rw [← List.take_append_drop j b, List.drop_eq_getElem_cons hj, hfree]
    rw [List.reduceOption_append, List.reduceOption_cons_of_none]
  · rw [List.set_eq_take_append_cons_drop, if_pos hj, List.reduceOption_append,
      List.reduceOption_cons_of_some]

/-- An item that is put in one place is put in the shelf. -/
theorem inserted_of_place {s : BoxRow α} {n i : ℕ} (hi : i < n) {x : α} {o : Option (Box α)}
    (h : Inserted x (boxItems (s i)) (boxItems o)) :
    Inserted x (items s n 0) (items (Function.update s i o) n 0) := by
  obtain ⟨before, after, hs, hupd⟩ := exists_items s hi
  obtain ⟨l₁, l₂, hl, hl'⟩ := h
  refine ⟨before ++ l₁, l₂ ++ after, ?_, ?_⟩
  · rw [hs, hl]
    simp only [List.append_assoc]
  · rw [hupd, hl']
    simp only [List.append_assoc, List.cons_append]

/-- An item that is taken out of one place is taken out of the shelf. -/
theorem removed_of_place {s : BoxRow α} {n i : ℕ} (hi : i < n) {x : α} {o : Option (Box α)}
    (h : Inserted x (boxItems o) (boxItems (s i))) :
    Inserted x (items (Function.update s i o) n 0) (items s n 0) := by
  obtain ⟨before, after, hs, hupd⟩ := exists_items s hi
  obtain ⟨l₁, l₂, hl, hl'⟩ := h
  refine ⟨before ++ l₁, l₂ ++ after, ?_, ?_⟩
  · rw [hupd, hl]
    simp only [List.append_assoc]
  · rw [hs, hl']
    simp only [List.append_assoc, List.cons_append]

/-- A search that passes over the free slots looks at the items only. -/
theorem find?_reduceOption {b : Box α} {p : Option α → Bool} (hp : p none = false) :
    b.find? p = (b.reduceOption.find? fun x => p (some x)).map some := by
  induction b with
  | nil => rfl
  | cons o b ih =>
      cases o with
      | none => rw [List.find?_cons_of_neg (by rw [hp]; decide), List.reduceOption_cons_of_none, ih]
      | some x =>
          rw [List.reduceOption_cons_of_some]
          by_cases hx : p (some x) = true
          · rw [List.find?_cons_of_pos hx, List.find?_cons_of_pos (p := fun x => p (some x)) hx]
            rfl
          · rw [List.find?_cons_of_neg hx, List.find?_cons_of_neg (p := fun x => p (some x)) hx, ih]

/-- In the second row the item follows on used slots, with which the first row begins. -/
def PlacedFirst (x : α) (r r' : Box α) : Prop :=
  ∃ l rest rest', none ∉ l ∧ r = l ++ rest ∧ r' = l ++ some x :: rest'

/-- A search that found no item finds the new one, also where free slots answer it. -/
theorem PlacedFirst.find? {x : α} {r r' : Box α} (h : PlacedFirst x r r') {p : Option α → Bool}
    (hp : p (some x) = true) (hold : ∀ y, r.find? p ≠ some (some y)) : r'.find? p = some (some x) := by
  obtain ⟨l, rest, rest', hused, rfl, rfl⟩ := h
  have hnone : l.find? p = none := by
    rcases hfind : l.find? p with _ | o
    · rfl
    · cases o with
      | none => exact absurd (List.mem_of_find?_eq_some hfind) hused
      | some y => exact absurd (by rw [List.find?_append, hfind]; rfl) (hold y)
  rw [List.find?_append, hnone, Option.none_or, List.find?_cons_of_pos hp]

/-- An item in the first free slot of a box. -/
theorem placedFirst_set {b : Box α} {j : ℕ} (hj : j < b.length)
    (hused : ∀ i (hi : i < j), b[i] ≠ none) (x : α) : PlacedFirst x b (b.set j (some x)) := by
  refine ⟨b.take j, b.drop j, b.drop (j + 1), fun hmem => ?_, (List.take_append_drop j b).symm, ?_⟩
  · obtain ⟨i, hi, hget⟩ := List.getElem_of_mem hmem
    rw [List.length_take] at hi
    rw [List.getElem_take] at hget
    exact hused i (by omega) hget
  · rw [List.set_eq_take_append_cons_drop, if_pos hj]

/-- An item in the first free slot of a place behind places that are full. -/
theorem placedFirst_of_place {s s' : BoxRow α} {n i : ℕ} (hi : i < n) {x : α}
    (hsame : ∀ j < i, s' j = s j) (hfull : ∀ j < i, none ∉ (s j).getD [])
    (h : PlacedFirst x ((s i).getD []) ((s' i).getD [])) : PlacedFirst x (row s n 0) (row s' n 0) := by
  have hgen : ∀ i first left, i < left → (∀ j, first ≤ j → j < first + i → s' j = s j) →
      (∀ j, first ≤ j → j < first + i → none ∉ (s j).getD []) →
      PlacedFirst x ((s (first + i)).getD []) ((s' (first + i)).getD []) →
      PlacedFirst x (row s left first) (row s' left first) := by
    intro i
    induction i with
    | zero =>
        rintro first (_ | left) hi - - ⟨l, rest, rest', hused, hl, hl'⟩
        · exact absurd hi (Nat.lt_irrefl 0)
        · rw [Nat.add_zero] at hl hl'
          refine ⟨l, rest ++ row s left (first + 1), rest' ++ row s' left (first + 1), hused, ?_, ?_⟩
          · rw [row, hl, List.append_assoc]
          · rw [row, hl', List.append_assoc, List.cons_append]
    | succ i ih =>
        rintro first (_ | left) hi hsame hfull h
        · exact absurd hi (Nat.not_lt_zero _)
        · rw [show first + (i + 1) = first + 1 + i by omega] at h
          obtain ⟨l, rest, rest', hused, hl, hl'⟩ := ih (first + 1) left (by omega)
            (fun j hj hj' => hsame j (by omega) (by omega))
            (fun j hj hj' => hfull j (by omega) (by omega)) h
          refine ⟨(s first).getD [] ++ l, rest, rest', fun hmem => ?_, ?_, ?_⟩
          · rcases List.mem_append.mp hmem with hmem | hmem
            · exact hfull first le_rfl (by omega) hmem
            · exact hused hmem
          · rw [row, hl, List.append_assoc]
          · rw [row, hl', hsame first le_rfl (by omega), List.append_assoc]
  refine hgen i 0 n hi (fun j _ hj => hsame j (by omega)) (fun j _ hj => hfull j (by omega)) ?_
  rwa [Nat.zero_add]

/-- What a place holds is on the shelf. -/
theorem mem_items {s : BoxRow α} {n : ℕ} {x : α} :
    x ∈ items s n 0 ↔ ∃ i < n, x ∈ boxItems (s i) := by
  have hgen : ∀ left first, x ∈ items s left first ↔
      ∃ i, first ≤ i ∧ i < first + left ∧ x ∈ boxItems (s i) := by
    intro left
    induction left with
    | zero =>
        intro first
        simp only [items, List.not_mem_nil, false_iff, not_exists]
        rintro i ⟨hlow, hhigh, -⟩
        omega
    | succ left ih =>
        intro first
        rw [items, List.mem_append, ih]
        constructor
        · rintro (h | ⟨i, hlow, hhigh, h⟩)
          · exact ⟨first, le_rfl, by omega, h⟩
          · exact ⟨i, by omega, by omega, h⟩
        · rintro ⟨i, hlow, hhigh, h⟩
          rcases Nat.eq_or_lt_of_le hlow with rfl | hlt
          · exact Or.inl h
          · exact Or.inr ⟨i, hlt, by omega, h⟩
  rw [hgen]
  simp only [Nat.zero_le, Nat.zero_add, true_and]

/-! ## Walks that pass over places -/

/-- The items that a walk over the places before `n` meets which passes over the place behind
each empty one. -/
def skipItems (s : BoxRow α) (n : ℕ) : (fuel i : ℕ) → List α
  | 0, _ => []
  | fuel + 1, i =>
      if n ≤ i then []
      else
        match s i with
        | none => skipItems s n fuel (i + 2)
        | some b => b.reduceOption ++ skipItems s n fuel (i + 1)

/-- Such a walk passes over empty places only. -/
def SkipsNone (empty : ℕ → Prop) (n : ℕ) : (fuel i : ℕ) → Prop
  | 0, _ => True
  | fuel + 1, i => i < n →
      (empty i → (i + 1 < n → empty (i + 1)) ∧ SkipsNone empty n fuel (i + 2)) ∧
      (¬ empty i → SkipsNone empty n fuel (i + 1))

theorem items_of_lt {s : BoxRow α} {n i : ℕ} (hi : i < n) :
    items s (n - i) i = boxItems (s i) ++ items s (n - (i + 1)) (i + 1) := by
  rw [show n - i = n - (i + 1) + 1 by omega, items]

/-- A walk that passes over empty places only meets all items. -/
theorem skipItems_eq {s : BoxRow α} {n fuel i : ℕ} (h : SkipsNone (fun j => s j = none) n fuel i)
    (hfuel : n ≤ fuel + i) : skipItems s n fuel i = items s (n - i) i := by
  induction fuel generalizing i with
  | zero => rw [skipItems, Nat.sub_eq_zero_of_le (by omega), items]
  | succ fuel ih =>
      rw [skipItems]
      by_cases hn : n ≤ i
      · rw [if_pos hn, Nat.sub_eq_zero_of_le hn, items]
      · obtain ⟨hempty, hused⟩ := h (by omega)
        rw [if_neg hn, items_of_lt (by omega)]
        rcases hs : s i with _ | b
        · obtain ⟨hnext, hrest⟩ := hempty hs
          have hwalk := ih hrest (by omega)
          dsimp only
          rw [boxItems_none, List.nil_append, hwalk]
          by_cases hlast : i + 1 < n
          · rw [items_of_lt hlast, hnext hlast, boxItems_none, List.nil_append]
          · rw [Nat.sub_eq_zero_of_le (show n ≤ i + 2 by omega),
              Nat.sub_eq_zero_of_le (show n ≤ i + 1 by omega), items, items]
        · have hsome : ¬ s i = none := fun hnone => by rw [hs] at hnone; cases hnone
          have hwalk := ih (hused hsome) (by omega)
          dsimp only
          rw [hwalk, boxItems_some]

theorem length_skipItems_le {s : BoxRow α} {n fuel i : ℕ} :
    (skipItems s n fuel i).length ≤ (items s (n - i) i).length := by
  induction fuel generalizing i with
  | zero => exact Nat.zero_le _
  | succ fuel ih =>
      rw [skipItems]
      by_cases hn : n ≤ i
      · rw [if_pos hn]
        exact Nat.zero_le _
      · rw [if_neg hn, items_of_lt (by omega)]
        rcases hs : s i with _ | b
        · have hwalk := @ih (i + 2)
          dsimp only
          rw [boxItems_none, List.nil_append]
          by_cases hlast : i + 1 < n
          · rw [items_of_lt hlast, List.length_append]
            exact hwalk.trans (Nat.le_add_left _ _)
          · rw [Nat.sub_eq_zero_of_le (show n ≤ i + 2 by omega), items] at hwalk
            exact hwalk.trans (Nat.zero_le _)
        · have hwalk := @ih (i + 1)
          dsimp only
          rw [boxItems_some, List.length_append, List.length_append]
          omega

/-- A walk that meets as many items as there are passes over empty places only, where no box
is empty. -/
theorem skipsNone_of_length {s : BoxRow α} (hused : ∀ j, boxItems (s j) = [] → s j = none)
    {n fuel i : ℕ} (h : (items s (n - i) i).length ≤ (skipItems s n fuel i).length) :
    SkipsNone (fun j => s j = none) n fuel i := by
  induction fuel generalizing i with
  | zero => trivial
  | succ fuel ih =>
      intro hi
      rw [skipItems, if_neg (by omega), items_of_lt hi] at h
      rcases hs : s i with _ | b
      · rw [hs] at h
        dsimp only at h
        rw [boxItems_none, List.nil_append] at h
        have hwalk : (skipItems s n fuel (i + 2)).length ≤ (items s (n - (i + 2)) (i + 2)).length :=
          length_skipItems_le
        refine ⟨fun _ => ⟨fun hlast => ?_, ih ?_⟩, fun hne => absurd hs hne⟩
        · rw [items_of_lt hlast, List.length_append, show i + 1 + 1 = i + 2 from rfl] at h
          exact hused _ (List.length_eq_zero_iff.mp (by omega))
        · by_cases hlast : i + 1 < n
          · rw [items_of_lt hlast, List.length_append, show i + 1 + 1 = i + 2 from rfl] at h
            omega
          · rw [Nat.sub_eq_zero_of_le (show n ≤ i + 2 by omega), items]
            exact Nat.zero_le _
      · rw [hs] at h
        dsimp only at h
        rw [boxItems_some, List.length_append, List.length_append] at h
        refine ⟨fun hnone : s i = none => ?_, fun _ => ih (by omega)⟩
        rw [hs] at hnone
        cases hnone

/-- Every run of empty places before a used one is of even length. -/
def EvenGaps (empty : ℕ → Prop) (n : ℕ) : Prop :=
  ∀ i j, i ≤ j → j < n → (i = 0 ∨ ¬ empty (i - 1)) → (∀ l, i ≤ l → l < j → empty l) → ¬ empty j →
    Even (j - i)

/-- The gap that begins at `i` and all later ones. -/
def EvenGapsFrom (empty : ℕ → Prop) (n i : ℕ) : Prop :=
  ∀ i' j, i ≤ i' → i' ≤ j → j < n → (i' = i ∨ ¬ empty (i' - 1)) → (∀ l, i' ≤ l → l < j → empty l) →
    ¬ empty j → Even (j - i')

/-- Behind a used place a new gap begins. -/
theorem evenGapsFrom_succ {empty : ℕ → Prop} {n i : ℕ} (hi : ¬ empty i) :
    EvenGapsFrom empty n i ↔ EvenGapsFrom empty n (i + 1) := by
  constructor
  · intro h i' j hlow hle hj hstart hgap hend
    refine h i' j (by omega) hle hj (Or.inr ?_) hgap hend
    rcases hstart with rfl | hstart
    · exact hi
    · exact hstart
  · intro h i' j hlow hle hj hstart hgap hend
    rcases Nat.eq_or_lt_of_le hlow with rfl | hlt
    · have hij : j = i := by
        by_contra hne
        exact hi (hgap i le_rfl (by omega))
      rw [hij, Nat.sub_self]
      exact Even.zero
    · refine h i' j hlt hle hj ?_ hgap hend
      by_cases hi' : i' = i + 1
      · exact Or.inl hi'
      · exact Or.inr (hstart.resolve_left (by omega))

/-- An empty place needs a second one behind it. -/
theorem evenGapsFrom_add_two {empty : ℕ → Prop} {n i : ℕ} (hi : empty i) :
    EvenGapsFrom empty n i ↔ (i + 1 < n → empty (i + 1)) ∧ EvenGapsFrom empty n (i + 2) := by
  constructor
  · intro h
    have hnext : i + 1 < n → empty (i + 1) := by
      intro hlt
      by_contra hend
      have hodd := h i (i + 1) le_rfl (Nat.le_succ i) hlt (Or.inl rfl)
        (fun l hlow hhigh => (show l = i by omega) ▸ hi) hend
      rw [Nat.add_sub_cancel_left] at hodd
      exact absurd hodd (by decide)
    refine ⟨hnext, fun i' j hlow hle hj hstart hgap hend => ?_⟩
    by_cases hi' : i' = i + 2
    · -- the gap reaches back to `i`
      have heven := h i j le_rfl (by omega) hj (Or.inl rfl) (fun l hlow hhigh => by
        by_cases hl : l = i
        · rw [hl]
          exact hi
        · by_cases hl' : l = i + 1
          · rw [hl']
            exact hnext (by omega)
          · exact hgap l (by omega) hhigh) hend
      rw [show j - i = j - i' + 2 by omega] at heven
      exact (Nat.even_add.mp heven).mpr even_two
    · exact h i' j (by omega) hle hj (Or.inr (hstart.resolve_left hi')) hgap hend
  · rintro ⟨hnext, h⟩ i' j hlow hle hj hstart hgap hend
    by_cases hi' : i' = i
    · have hji : j ≠ i := fun heq => hend (heq ▸ hi)
      have hji' : j ≠ i + 1 := fun heq => hend (heq ▸ hnext (heq ▸ hj))
      have heven := h (i + 2) j le_rfl (by omega) hj (Or.inl rfl)
        (fun l hlow hhigh => hgap l (by omega) hhigh) hend
      rw [show j - i' = j - (i + 2) + 2 by omega]
      exact heven.add even_two
    · have hstart := hstart.resolve_left hi'
      by_cases hi'' : i' = i + 1
      · rw [hi'', Nat.add_sub_cancel] at hstart
        exact absurd hi hstart
      · exact h i' j (by omega) hle hj (Or.inr hstart) hgap hend

theorem skipsNone_iff_from {empty : ℕ → Prop} {n fuel i : ℕ} (hfuel : n ≤ fuel + i) :
    SkipsNone empty n fuel i ↔ EvenGapsFrom empty n i := by
  have hend {i : ℕ} (hi : n ≤ i) : EvenGapsFrom empty n i :=
    fun i' j hlow hle hj => absurd hj (by omega)
  induction fuel generalizing i with
  | zero => exact iff_of_true trivial (hend (by omega))
  | succ fuel ih =>
      rw [SkipsNone]
      by_cases hi : i < n
      · have hpast : SkipsNone empty n fuel (i + 2) ↔ EvenGapsFrom empty n (i + 2) := ih (by omega)
        have hnext : SkipsNone empty n fuel (i + 1) ↔ EvenGapsFrom empty n (i + 1) := ih (by omega)
        rw [hpast, hnext]
        by_cases hempty : empty i
        · rw [evenGapsFrom_add_two hempty]
          exact ⟨fun h => (h hi).1 hempty, fun h _ => ⟨fun _ => h, fun hne => absurd hempty hne⟩⟩
        · rw [evenGapsFrom_succ hempty]
          exact ⟨fun h => (h hi).2 hempty, fun h _ => ⟨fun hyes => absurd hyes hempty, fun _ => h⟩⟩
      · exact iff_of_true (fun hlt => absurd hlt hi) (hend (Nat.not_lt.mp hi))

/-- A walk passes over empty places only just if all gaps are of even length. -/
theorem skipsNone_iff {empty : ℕ → Prop} {n fuel : ℕ} (hfuel : n ≤ fuel) :
    SkipsNone empty n fuel 0 ↔ EvenGaps empty n := by
  rw [skipsNone_iff_from (by omega)]
  exact ⟨fun h i j => h i j (Nat.zero_le i), fun h i j _ => h i j⟩

end Shelves
