import Mathlib.Tactic

/-!
# Rings of cells

A ring of `n` cells holds a sequence: its elements stand from the index `tail` on, up to
the index `head`, where the next one goes.  Indices wrap at `n`, and one cell stays
unused so that a full ring differs from an empty one.
-/

namespace Ring

variable {α : Type*} {n : ℕ}

/-- The number of elements from `tail` up to `head`. -/
def count (n tail head : ℕ) : ℕ :=
  if tail ≤ head then head - tail else head + n - tail

/-- The elements from `tail` up to `head`. -/
def content (n : ℕ) (buf : ℕ → α) (tail head : ℕ) : List α :=
  (List.range (count n tail head)).map fun i => buf ((tail + i) % n)

@[simp]
theorem length_content (buf : ℕ → α) (tail head : ℕ) :
    (content n buf tail head).length = count n tail head := by
  simp [content]

theorem succ_mod {i : ℕ} (hi : i < n) : (i + 1) % n = if i + 1 = n then 0 else i + 1 := by
  split
  next h => rw [h, Nat.mod_self]
  next h => exact Nat.mod_eq_of_lt (by omega)

theorem count_lt {tail head : ℕ} (htail : tail < n) (hhead : head < n) : count n tail head < n := by
  unfold count
  split <;> omega

theorem count_eq_zero {tail head : ℕ} (htail : tail < n) :
    count n tail head = 0 ↔ head = tail := by
  unfold count
  split <;> omega

/-- A ring with one cell left is full. -/
theorem count_full {tail head : ℕ} (htail : tail < n) (hhead : head < n) :
    count n tail head + 1 = n ↔ (head + 1) % n = tail := by
  rw [succ_mod hhead]
  unfold count
  split <;> split <;> omega

theorem count_succ_head {tail head : ℕ} (htail : tail < n) (hhead : head < n)
    (hfree : (head + 1) % n ≠ tail) : count n tail ((head + 1) % n) = count n tail head + 1 := by
  rw [succ_mod hhead] at hfree ⊢
  unfold count
  split_ifs at hfree ⊢ <;> omega

theorem count_succ_tail {tail head : ℕ} (htail : tail < n) (hhead : head < n)
    (hne : head ≠ tail) : count n tail head = count n ((tail + 1) % n) head + 1 := by
  rw [succ_mod htail]
  unfold count
  split <;> split <;> split <;> omega

/-- The last element stands right before `head`. -/
theorem add_count {tail head : ℕ} (htail : tail < n) (hhead : head < n) :
    (tail + count n tail head) % n = head := by
  unfold count
  split
  next h => rw [Nat.add_sub_cancel' h, Nat.mod_eq_of_lt hhead]
  next h =>
    have hsum : tail + (head + n - tail) = head + n := by omega
    rw [hsum, Nat.add_mod_right, Nat.mod_eq_of_lt hhead]

/-- An element before the last stands elsewhere than at `head`. -/
theorem add_ne_head {tail head i : ℕ} (htail : tail < n) (hhead : head < n)
    (hi : i < count n tail head) : (tail + i) % n ≠ head := by
  have hlt := count_lt htail hhead
  unfold count at hi hlt
  by_cases hwrap : tail + i < n
  · rw [Nat.mod_eq_of_lt hwrap]
    split at hi <;> omega
  · rw [Nat.mod_eq_sub_mod (by omega), Nat.mod_eq_of_lt (by omega)]
    split at hi <;> omega

/-- Storing at `head` appends. -/
theorem content_push {buf : ℕ → α} {tail head : ℕ} (x : α) (htail : tail < n)
    (hhead : head < n) (hfree : (head + 1) % n ≠ tail) :
    content n (Function.update buf head x) tail ((head + 1) % n) =
      content n buf tail head ++ [x] := by
  unfold content
  rw [count_succ_head htail hhead hfree, List.range_succ, List.map_append, List.map_singleton,
    add_count htail hhead, Function.update_self]
  congr 1
  refine List.map_congr_left fun i hi => ?_
  exact Function.update_of_ne (add_ne_head htail hhead (List.mem_range.mp hi)) _ _

/-- The first element stands at `tail`. -/
theorem content_pop {buf : ℕ → α} {tail head : ℕ} (htail : tail < n) (hhead : head < n)
    (hne : head ≠ tail) :
    content n buf tail head = buf tail :: content n buf ((tail + 1) % n) head := by
  unfold content
  rw [count_succ_tail htail hhead hne, List.range_succ_eq_map, List.map_cons, List.map_map,
    Nat.add_zero, Nat.mod_eq_of_lt htail]
  congr 1
  refine List.map_congr_left fun i _ => ?_
  simp only [Function.comp_apply]
  congr 1
  rw [Nat.mod_add_mod]
  congr 1
  omega

end Ring
