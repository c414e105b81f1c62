import Mathlib.Data.Nat.Digits.Lemmas
import Mathlib.Tactic

/-!
# Numerals

The digits of a number as they are written, most significant digit first.  `Nat.digits` has them
the other way round and has none for zero; a numeral has at least one digit (`numeral_ne_nil`), does
not begin with a zero unless it is `0` (`eq_of_head_numeral`), and determines the number
(`valueOf_numeral`).  `numeral_of_le` is the step of a program that divides by the base.
-/

namespace Numerals

/-- The numeral of `n`. -/
def numeral (base n : ℕ) : List ℕ := if n = 0 then [0] else (Nat.digits base n).reverse

/-- The number that a sequence of digits stands for. -/
def valueOf (base : ℕ) (ds : List ℕ) : ℕ := ds.foldl (fun v d => v * base + d) 0

variable {base n d k : ℕ}

theorem valueOf_reverse (ds : List ℕ) : valueOf base ds.reverse = Nat.ofDigits base ds := by
  rw [valueOf, List.foldl_reverse, Nat.ofDigits_eq_foldr]
  congr 1
  funext d v
  rw [Nat.cast_id, mul_comm, add_comm]

theorem valueOf_numeral : valueOf base (numeral base n) = n := by
  rw [numeral]
  split_ifs with hn
  · rw [hn, valueOf, List.foldl_cons, List.foldl_nil, zero_mul]
  · rw [valueOf_reverse, Nat.ofDigits_digits]

theorem numeral_ne_nil : numeral base n ≠ [] := by
  rw [numeral]
  split_ifs with hn
  · exact List.cons_ne_nil 0 []
  · rw [ne_eq, List.reverse_eq_nil_iff]
    exact Nat.digits_ne_nil_iff_ne_zero.mpr hn

theorem lt_of_mem_numeral (hbase : 1 < base) (hd : d ∈ numeral base n) : d < base := by
  rw [numeral] at hd
  split_ifs at hd with hn
  · rw [List.mem_singleton.mp hd]
    omega
  · exact Nat.digits_lt_base hbase (List.mem_reverse.mp hd)

/-- There are no superfluous zeros. -/
theorem eq_of_head_numeral (hhead : (numeral base n).head? = some 0) : numeral base n = [0] := by
  rw [numeral] at hhead ⊢
  split_ifs at hhead ⊢ with hn
  · rfl
  · rw [List.head?_reverse] at hhead
    obtain ⟨hne, hlast⟩ := List.mem_getLast?_eq_getLast hhead
    exact absurd hlast.symm (Nat.getLast_digit_ne_zero base hn)

theorem numeral_of_lt (hn : n < base) : numeral base n = [n] := by
  rw [numeral]
  split_ifs with hzero
  · rw [hzero]
  · rw [Nat.digits_of_lt base n hzero hn, List.reverse_singleton]

/-- The last digit is the remainder, and what stands in front of it is the numeral of the
quotient. -/
theorem numeral_of_le (hbase : 1 < base) (hn : base ≤ n) :
    numeral base n = numeral base (n / base) ++ [n % base] := by
  have hpos : n ≠ 0 := by omega
  have hdiv : n / base ≠ 0 := (Nat.div_pos hn (by omega)).ne'
  rw [numeral, if_neg hpos, numeral, if_neg hdiv, Nat.digits_eq_cons_digits_div hbase hpos,
    List.reverse_cons]

end Numerals
