import Mathlib.Tactic

/-!
# Code with absolute addresses

A piece of code with jumps to absolute addresses is a function of the address at which it is put.
`seq` puts one piece behind the other, `branch`, `either` and `loop` jump over pieces and back.
`Placed` says that the cells of a piece are found from an address on; the lemmas take a placed
piece apart in the way in which it was put together.

The addresses are those of any additive monoid, a cell is `size` addresses long.
-/

namespace Relocation

variable {A W : Type*} [AddMonoid A]

/-- A piece of code. -/
abbrev Code (A W : Type*) := A → List W

namespace Code

variable (size : A) (word : A → W)

/-- The address behind a piece that is put at `p`. -/
def stop (c : Code A W) (p : A) : A := p + (c p).length • size

/-- Cells that do not depend on the address. -/
def cells (ws : List W) : Code A W := fun _ => ws

/-- One piece behind the other. -/
def seq (c d : Code A W) : Code A W := fun p => c p ++ d (c.stop size p)

/-- An instruction whose operand is the address behind the piece that follows it. -/
def branch (op : W) (c : Code A W) : Code A W := fun p =>
  op :: word (c.stop size (p + 2 • size)) :: c (p + 2 • size)

/-- Two pieces, of which one is skipped: `op` jumps to the second one, and a `jump` behind the first one
leads behind the second one. -/
def either (op jump : W) (c d : Code A W) : Code A W := fun p =>
  let q := c.stop size (p + 2 • size)
  op :: word (q + 2 • size) :: c (p + 2 • size) ++
    jump :: word (d.stop size (q + 2 • size)) :: d (q + 2 • size)

/-- A piece and a `jump` back to the address `p` behind it, with a way out by `op` between the parts. -/
def loop (op jump : W) (c d : Code A W) : Code A W := fun p =>
  let q := c.stop size p
  let r := d.stop size (q + 2 • size)
  c p ++ op :: word (r + 2 • size) :: d (q + 2 • size) ++ [jump, word p]

end Code

/-- The cells are found from `p` on, where `holds q w` says that `w` is found at `q`. -/
def Placed (size : A) (holds : A → W → Prop) (p : A) : List W → Prop
  | [] => True
  | w :: ws => holds p w ∧ Placed size holds (p + size) ws

/-- Exactly the cells `ws` are found, from `q` on. -/
def Listed (size : A) (q : A) (ws : List W) (p : A) (w : W) : Prop :=
  ∃ i, ∃ h : i < ws.length, p = q + i • size ∧ w = ws[i]

section Lemmas

variable {size : A} {word : A → W} {holds : A → W → Prop} {p : A} {w : W} {ws ws' : List W}
  {c d : Code A W} {op jump : W}

@[simp] theorem placed_nil : Placed size holds p [] := trivial

@[simp] theorem placed_cons :
    Placed size holds p (w :: ws) ↔ holds p w ∧ Placed size holds (p + size) ws := Iff.rfl

theorem Placed.mono {holds' : A → W → Prop} (hholds : ∀ p w, holds p w → holds' p w)
    (h : Placed size holds p ws) : Placed size holds' p ws := by
  induction ws generalizing p with
  | nil => trivial
  | cons w ws ih => exact ⟨hholds p w h.1, ih h.2⟩

theorem placed_listed : Placed size (Listed size p ws) p ws := by
  induction ws generalizing p with
  | nil => trivial
  | cons w ws ih =>
      refine ⟨⟨0, Nat.zero_lt_succ _, by rw [zero_nsmul, add_zero], rfl⟩, ih.mono ?_⟩
      rintro _ _ ⟨i, hi, rfl, rfl⟩
      exact ⟨i + 1, Nat.succ_lt_succ hi, by rw [succ_nsmul', add_assoc], rfl⟩

theorem placed_append : Placed size holds p (ws ++ ws') ↔
    Placed size holds p ws ∧ Placed size holds (p + ws.length • size) ws' := by
  induction ws generalizing p with
  | nil => simp
  | cons w ws ih =>
      rw [List.cons_append, placed_cons, placed_cons, ih, List.length_cons, succ_nsmul', add_assoc,
        and_assoc]

@[simp] theorem stop_cells : (Code.cells ws).stop size p = p + ws.length • size := rfl

@[simp] theorem stop_seq : (c.seq size d).stop size p = d.stop size (c.stop size p) := by
  unfold Code.seq Code.stop
  rw [List.length_append, add_nsmul, add_assoc]

@[simp] theorem stop_branch :
    (c.branch size word op).stop size p = c.stop size (p + 2 • size) := by
  unfold Code.branch Code.stop
  simp only [List.length_cons, add_assoc, ← add_nsmul]
  congr 2
  omega

@[simp] theorem stop_either : (c.either size word op jump d).stop size p =
    d.stop size (c.stop size (p + 2 • size) + 2 • size) := by
  unfold Code.either Code.stop
  simp only [List.length_append, List.length_cons, List.cons_append]
  simp only [add_assoc, ← add_nsmul]
  congr 2
  omega

@[simp] theorem stop_loop : (c.loop size word op jump d).stop size p =
    d.stop size (c.stop size p + 2 • size) + 2 • size := by
  unfold Code.loop Code.stop
  simp only [List.length_append, List.length_cons, List.length_nil]
  simp only [add_assoc, ← add_nsmul]
  congr 2
  omega

theorem seq_assoc (c d e : Code A W) :
    (c.seq size d).seq size e = c.seq size (d.seq size e) := by
  funext p
  change c p ++ d (c.stop size p) ++ e ((c.seq size d).stop size p) =
    c p ++ (d (c.stop size p) ++ e (d.stop size (c.stop size p)))
  rw [stop_seq, List.append_assoc]

theorem placed_seq : Placed size holds p (c.seq size d p) ↔
    Placed size holds p (c p) ∧ Placed size holds (c.stop size p) (d (c.stop size p)) :=
  placed_append

theorem placed_branch : Placed size holds p (c.branch size word op p) ↔
    holds p op ∧ holds (p + size) (word (c.stop size (p + 2 • size))) ∧
      Placed size holds (p + 2 • size) (c (p + 2 • size)) := by
  rw [Code.branch, placed_cons, placed_cons, add_assoc, ← two_nsmul]

theorem placed_either : Placed size holds p (c.either size word op jump d p) ↔
    (holds p op ∧ holds (p + size) (word (c.stop size (p + 2 • size) + 2 • size)) ∧
      Placed size holds (p + 2 • size) (c (p + 2 • size))) ∧
    holds (c.stop size (p + 2 • size)) jump ∧
      holds (c.stop size (p + 2 • size) + size)
        (word (d.stop size (c.stop size (p + 2 • size) + 2 • size))) ∧
      Placed size holds (c.stop size (p + 2 • size) + 2 • size)
        (d (c.stop size (p + 2 • size) + 2 • size)) := by
  have hfirst : p + (op :: word (c.stop size (p + 2 • size) + 2 • size) :: c (p + 2 • size)).length • size =
      c.stop size (p + 2 • size) := by
    simp only [List.length_cons, Code.stop, add_assoc, ← add_nsmul]
    congr 2
    omega
  rw [Code.either, placed_append, hfirst, placed_cons, placed_cons, placed_cons, placed_cons,
    add_assoc p, add_assoc (c.stop size (p + 2 • size)), ← two_nsmul]

theorem placed_loop : Placed size holds p (c.loop size word op jump d p) ↔
    Placed size holds p (c p) ∧
    (holds (c.stop size p) op ∧
      holds (c.stop size p + size) (word (d.stop size (c.stop size p + 2 • size) + 2 • size)) ∧
      Placed size holds (c.stop size p + 2 • size) (d (c.stop size p + 2 • size))) ∧
    holds (d.stop size (c.stop size p + 2 • size)) jump ∧
      holds (d.stop size (c.stop size p + 2 • size) + size) (word p) := by
  have hsecond : p + (c p ++ op :: word (d.stop size (c.stop size p + 2 • size) + 2 • size) ::
      d (c.stop size p + 2 • size)).length • size = d.stop size (c.stop size p + 2 • size) := by
    simp only [List.length_append, List.length_cons, Code.stop, add_assoc, ← add_nsmul]
    congr 2
    omega
  rw [Code.loop, placed_append, hsecond, placed_append, placed_cons, placed_cons, placed_cons,
    placed_cons, add_assoc (p + _), ← two_nsmul, and_assoc]
  simp only [Code.stop, placed_nil, and_true]

end Lemmas

end Relocation
