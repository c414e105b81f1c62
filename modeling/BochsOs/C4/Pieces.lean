import BochsOs.C4.Codegen
import BochsOs.C4.Semantics

/-!
# What a piece of code does

`Does` is a triple for a piece of code on the machine: from a memory that agrees with `M` it takes
the value `a` to `b` and reaches a memory that agrees with `M'`, and it has used nothing but the
stack below `sp` (`Kept`).  A piece that leaves a value on the stack is described by `DoesOver`, one
that pushes arguments by `DoesArgs`.  There is one rule for each way to put pieces together.

`text p v` says that the cell `v` of the code lies at `p`.
-/

namespace BochsOs.C4

open ByteMemory Relocation Vm

/-! ## Words in memory -/

section Words

variable {m m' : Bytes} {p q v : Word} {ty x : ℕ}

theorem loadInt_congr (h : ∀ i < 4, m (p.toNat + i) = m' (p.toNat + i)) : loadInt m p = loadInt m' p :=
  congrArg _ (readU32_congr h)

@[simp] theorem loadInt_storeInt : loadInt (storeInt m p v) p = v := by
  unfold loadInt storeInt
  rw [readU32_writeU32, Nat.mod_eq_of_lt v.isLt, BitVec.ofNat_toNat, BitVec.setWidth_eq]

theorem storeInt_outside (h : x < p.toNat ∨ p.toNat + 4 ≤ x) : storeInt m p v x = m x :=
  writeU32_outside h

theorem storeInt_inside (hlow : p.toNat ≤ x) (hhigh : x < p.toNat + 4) :
    storeInt m p v x = storeInt m' p v x := by
  unfold storeInt writeU32
  rw [if_pos ⟨hlow, hhigh⟩, if_pos ⟨hlow, hhigh⟩]

theorem mem_between {low high : ℕ} : x ∈ between low high ↔ low ≤ x ∧ x < high := Iff.rfl

theorem mem_extent : x ∈ extent ty p ↔ p.toNat ≤ x ∧ x < p.toNat + objectSize ty := Iff.rfl

theorem loadAs_congr (h : ∀ x ∈ extent ty p, m x = m' x) : loadAs ty m p = loadAs ty m' p := by
  unfold loadAs
  by_cases hty : ty = Ty.char
  · rw [if_pos hty, if_pos hty, loadChar, loadChar, h]
    rw [mem_extent, objectSize, if_pos hty]
    omega
  · rw [if_neg hty, if_neg hty]
    refine loadInt_congr fun i hi => h _ ?_
    rw [mem_extent, objectSize, if_neg hty]
    omega

theorem storeAs_outside (h : x ∉ extent ty p) : storeAs ty m p v x = m x := by
  rw [mem_extent, objectSize] at h
  unfold storeAs
  by_cases hty : ty = Ty.char
  · rw [if_pos hty] at h ⊢
    exact Function.update_of_ne (by omega) _ _
  · rw [if_neg hty] at h ⊢
    exact storeInt_outside (by omega)

theorem storeAs_inside (h : x ∈ extent ty p) : storeAs ty m p v x = storeAs ty m' p v x := by
  rw [mem_extent, objectSize] at h
  unfold storeAs
  by_cases hty : ty = Ty.char
  · rw [if_pos hty] at h ⊢
    rw [if_pos hty]
    obtain rfl : x = p.toNat := by omega
    unfold storeChar
    rw [Function.update_self, Function.update_self]
  · rw [if_neg hty] at h ⊢
    rw [if_neg hty]
    exact storeInt_inside h.1 h.2

theorem toNat_sub_four (h : 4 ≤ p.toNat) : (p - 4).toNat = p.toNat - 4 := by
  have := p.isLt
  rw [BitVec.toNat_sub]
  change (2 ^ 32 - 4 + p.toNat) % 2 ^ 32 = _
  omega

theorem toNat_sub_cells {n : ℕ} (h : 4 * n ≤ p.toNat) :
    (p - 4 * BitVec.ofNat 32 n).toNat = p.toNat - 4 * n := by
  have := p.isLt
  rw [BitVec.toNat_sub, BitVec.toNat_mul, BitVec.toNat_ofNat]
  change (2 ^ 32 - 4 * (n % 2 ^ 32) % 2 ^ 32 + p.toNat) % 2 ^ 32 = _
  omega

theorem sub_cells_succ (p : Word) (n : ℕ) :
    p - 4 - 4 * BitVec.ofNat 32 n = p - 4 * BitVec.ofNat 32 (n + 1) := by
  rw [BitVec.ofNat_add, mul_add, sub_sub, add_comm (4 : Word)]
  rfl

theorem add_sub_cells (p : Word) (n : ℕ) :
    p - 4 * BitVec.ofNat 32 n + 4 * BitVec.ofNat 32 n = p := sub_add_cancel _ _

/-- A word that is written over itself. -/
theorem storeInt_self (h : loadInt m p = v) : storeInt m p v = m := by
  funext x
  by_cases hx : p.toNat ≤ x ∧ x < p.toNat + 4
  · obtain ⟨i, rfl⟩ := Nat.exists_eq_add_of_le hx.1
    have hi : i < 4 := by omega
    have hv : v.toNat = readU32 m p.toNat := by
      rw [← h, loadInt, BitVec.toNat_ofNat, Nat.mod_eq_of_lt (readU32_lt _ _)]
    unfold storeInt writeU32
    rw [if_pos hx, hv, Nat.add_sub_cancel_left, readU32]
    refine UInt8.toNat_inj.mp ?_
    rw [UInt8.toNat_ofNat']
    have h0 := (m p.toNat).toNat_lt
    have h1 := (m (p.toNat + 1)).toNat_lt
    have h2 := (m (p.toNat + 2)).toNat_lt
    have h3 := (m (p.toNat + 3)).toNat_lt
    interval_cases i
    · simp only [pow_zero, Nat.div_one, Nat.add_zero]
      omega
    · omega
    · omega
    · omega
  · exact storeInt_outside (by omega)

theorem pushAll_outside {vs : List Word} (hroom : 4 * vs.length ≤ p.toNat)
    (hx : x < p.toNat - 4 * vs.length ∨ p.toNat ≤ x) : pushAll m p vs x = m x := by
  induction vs generalizing m p with
  | nil => rfl
  | cons v vs ih =>
      rw [List.length_cons] at hroom hx
      have hsub : (p - 4).toNat = p.toNat - 4 := toNat_sub_four (by omega)
      rw [pushAll, ih (by omega) (by omega)]
      exact storeInt_outside (by omega)

theorem sub_cells_add (p : Word) (n k : ℕ) :
    p - 4 * BitVec.ofNat 32 n - 4 * BitVec.ofNat 32 k = p - 4 * BitVec.ofNat 32 (n + k) := by
  rw [BitVec.ofNat_add, mul_add, sub_sub]

theorem pushAll_append (m : Bytes) (p : Word) (us vs : List Word) :
    pushAll m p (us ++ vs) = pushAll (pushAll m p us) (p - 4 * BitVec.ofNat 32 us.length) vs := by
  induction us generalizing m p with
  | nil =>
      have hp : p - 4 * BitVec.ofNat 32 0 = p := sub_zero p
      rw [List.nil_append, pushAll, List.length_nil, hp]
  | cons u us ih =>
      rw [List.cons_append, pushAll, ih, List.length_cons, sub_cells_succ]
      rfl

/-- What has been pushed does not depend on what was there. -/
theorem pushAll_inside {vs : List Word} (hroom : 4 * vs.length ≤ p.toNat)
    (hlow : p.toNat - 4 * vs.length ≤ x) (hhigh : x < p.toNat) :
    pushAll m p vs x = pushAll m' p vs x := by
  induction vs generalizing m m' p with
  | nil =>
      rw [List.length_nil] at hlow
      omega
  | cons v vs ih =>
      rw [List.length_cons] at hroom hlow
      have hsub : (p - 4).toNat = p.toNat - 4 := toNat_sub_four (by omega)
      rw [pushAll, pushAll]
      by_cases htop : x < p.toNat - 4
      · exact ih (by omega) (by omega) (by omega)
      · rw [pushAll_outside (by omega) (by omega), pushAll_outside (by omega) (by omega)]
        exact storeInt_inside (by omega) (by omega)

theorem loadInt_pushAll {vs : List Word} (hroom : 4 * vs.length + 4 ≤ p.toNat) :
    loadInt (pushAll m p (v :: vs)) (p - 4) = v := by
  have hsub : (p - 4).toNat = p.toNat - 4 := toNat_sub_four (by omega)
  rw [pushAll]
  refine (loadInt_congr fun i hi => ?_).trans (loadInt_storeInt (m := m))
  exact pushAll_outside (by omega) (by omega)

/-! ### Cells one behind the other -/

/-- The cells are written from `q` on. -/
def putCells (m : Bytes) : Word → List Word → Bytes
  | _, [] => m
  | q, w :: ws => storeInt (putCells m (q + 4) ws) q w

theorem toNat_add_four (h : q.toNat + 4 < 2 ^ 32) : (q + 4).toNat = q.toNat + 4 := by
  rw [BitVec.toNat_add]
  exact Nat.mod_eq_of_lt h

theorem toNat_add_cells {i : ℕ} (h : q.toNat + 4 * i < 2 ^ 32) :
    (q + i • (4 : Word)).toNat = q.toNat + 4 * i := by
  induction i with
  | zero => rw [zero_nsmul, add_zero, mul_zero, add_zero]
  | succ i ih =>
      rw [succ_nsmul, ← add_assoc, toNat_add_four (by omega), ih (by omega)]
      omega

/-- A byte of a listed cell. -/
theorem listed_byte {ws : List Word} (h : Listed 4 q ws p v) (hroom : q.toNat + 4 * ws.length < 2 ^ 32) :
    q.toNat ≤ p.toNat ∧ p.toNat + 4 ≤ q.toNat + 4 * ws.length := by
  obtain ⟨i, hi, rfl, rfl⟩ := h
  rw [toNat_add_cells (by omega)]
  omega

theorem putCells_outside {ws : List Word} (hroom : q.toNat + 4 * ws.length < 2 ^ 32)
    (hx : x < q.toNat ∨ q.toNat + 4 * ws.length ≤ x) : putCells m q ws x = m x := by
  induction ws generalizing q with
  | nil => rfl
  | cons w ws ih =>
      rw [List.length_cons] at hroom hx
      have hnext : (q + 4).toNat = q.toNat + 4 := toNat_add_four (by omega)
      rw [putCells, storeInt_outside (by omega)]
      exact ih (by omega) (by omega)

/-- What has been written is there. -/
theorem loadInt_putCells {ws : List Word} (h : Listed 4 q ws p v)
    (hroom : q.toNat + 4 * ws.length < 2 ^ 32) : loadInt (putCells m q ws) p = v := by
  obtain ⟨i, hi, rfl, rfl⟩ := h
  induction ws generalizing q i with
  | nil => cases hi
  | cons w ws ih =>
      rw [List.length_cons] at hroom
      have hnext : (q + 4).toNat = q.toNat + 4 := toNat_add_four (by omega)
      rw [putCells]
      cases i with
      | zero =>
          rw [zero_nsmul, add_zero]
          exact loadInt_storeInt
      | succ i =>
          have hi' : i < ws.length := Nat.lt_of_succ_lt_succ hi
          rw [succ_nsmul', ← add_assoc]
          refine (loadInt_congr fun j _ => storeInt_outside ?_).trans (ih (by omega) i hi')
          rw [toNat_add_cells (by omega)]
          omega

end Words

/-! ## The memory of the machine -/

section Memory

variable (P : Program) (text : Word → Word → Prop)

/-- The memory `w` of the machine agrees with the memory of the program, and the code is there. -/
structure Agrees (M : Store) (w : Bytes) : Prop where
  text : ∀ p v, text p v → loadInt w p = v
  bytes : ∀ x ∈ M.init, w x = M.bytes x
  initOwn : M.init ⊆ M.own

/-- Not below `sp` on the stack. -/
def Outside (sp : Word) (x : ℕ) : Prop := x < P.low ∨ sp.toNat ≤ x

/-- The function `F` runs with `sp` as the end of the stack: what the program may write, the code and
the saved registers do not lie below `sp`. -/
structure Fits (F : Activation) (own : Set ℕ) (sp : Word) : Prop where
  low : P.low ≤ sp.toNat
  apart : ∀ x ∈ own, Outside P sp x
  code : ∀ p v, text p v → ∀ i < 4, p.toNat + i ∉ own ∧ Outside P sp (p.toNat + i)
  frame : sp.toNat ≤ F.bp.toNat
  top : F.bp.toNat + 8 ≤ 2 ^ 32
  saved : ∀ x, F.bp.toNat ≤ x → x < F.bp.toNat + 8 → x ∉ own

/-- From `w` to `w'` nothing has changed but what the program may write and the stack below `sp`. -/
def Kept (own : Set ℕ) (sp : Word) (w w' : Bytes) : Prop :=
  ∀ x, x ∉ own → Outside P sp x → w' x = w x

variable {P text} {F : Activation} {own : Set ℕ} {sp : Word} {M : Store} {w w' w'' : Bytes}

theorem Kept.refl : Kept P own sp w w := fun _ _ _ => rfl

theorem Kept.trans (h : Kept P own sp w w') (h' : Kept P own sp w' w'') : Kept P own sp w w'' :=
  fun x hx hout => (h' x hx hout).trans (h x hx hout)

theorem outside_lower {sp' : Word} (hle : sp'.toNat ≤ sp.toNat) {x : ℕ} (hx : Outside P sp x) :
    Outside P sp' x := hx.imp_right hle.trans

theorem outside_pop (hroom : P.low + 4 ≤ sp.toNat) {x : ℕ} (hx : Outside P sp x) :
    Outside P (sp - 4) x :=
  outside_lower (by rw [toNat_sub_four (by omega)]; omega) hx

/-- Below `sp` there is less than below the old `sp`. -/
theorem Kept.pop (hroom : P.low + 4 ≤ sp.toNat) (h : Kept P own (sp - 4) w w') : Kept P own sp w w' :=
  fun x hx hout => h x hx (outside_pop hroom hout)

theorem Fits.lower (h : Fits P text F own sp) {sp' : Word} (hlow : P.low ≤ sp'.toNat)
    (hle : sp'.toNat ≤ sp.toNat) : Fits P text F own sp' where
  low := hlow
  apart x hx := outside_lower hle (h.apart x hx)
  code p v hp i hi := ⟨(h.code p v hp i hi).1, outside_lower hle (h.code p v hp i hi).2⟩
  frame := hle.trans h.frame
  top := h.top
  saved := h.saved

theorem Fits.push (h : Fits P text F own sp) (hroom : P.low + 4 ≤ sp.toNat) :
    Fits P text F own (sp - 4) := by
  have hsub : (sp - 4).toNat = sp.toNat - 4 := toNat_sub_four (by omega)
  exact h.lower (by omega) (by omega)

/-- What happens below `sp` does not matter. -/
theorem Agrees.scratch (h : Agrees text M w) (hf : Fits P text F M.own sp)
    (hsame : ∀ x, Outside P sp x → w' x = w x) : Agrees text M w' where
  text p v hp := by
    rw [← h.text p v hp]
    exact loadInt_congr fun i hi => hsame _ (hf.code p v hp i hi).2
  bytes x hx := by
    rw [hsame x (hf.apart x (h.initOwn hx))]
    exact h.bytes x hx
  initOwn := h.initOwn

theorem storeInt_push (hroom : P.low + 4 ≤ sp.toNat) {v : Word} {x : ℕ} (hx : Outside P sp x) :
    storeInt w (sp - 4) v x = w x := by
  unfold Outside at hx
  refine storeInt_outside ?_
  rw [toNat_sub_four (by omega)]
  omega

theorem Agrees.push (h : Agrees text M w) (hf : Fits P text F M.own sp) (hroom : P.low + 4 ≤ sp.toNat)
    (v : Word) : Agrees text M (storeInt w (sp - 4) v) :=
  h.scratch hf fun _ hx => storeInt_push hroom hx

theorem Kept.push (hroom : P.low + 4 ≤ sp.toNat) (v : Word) :
    Kept P own sp w (storeInt w (sp - 4) v) := fun _ _ hx => storeInt_push hroom hx

/-- What was pushed is still there. -/
theorem Kept.pushed (h : Kept P own (sp - 4) w w') (hf : Fits P text F own sp)
    (hroom : P.low + 4 ≤ sp.toNat) : loadInt w' (sp - 4) = loadInt w (sp - 4) := by
  refine loadInt_congr fun i hi => h _ (fun hx => ?_) (Or.inr (Nat.le_add_right _ _))
  have := hf.apart _ hx
  unfold Outside at this
  rw [toNat_sub_four (by omega)] at this
  omega

/-- The saved registers are still there. -/
theorem Kept.saved (h : Kept P own sp w w') (hf : Fits P text F own sp) :
    loadInt w' F.bp = loadInt w F.bp ∧ loadInt w' (F.bp + 4) = loadInt w (F.bp + 4) := by
  have hframe := hf.frame
  have htop := hf.top
  have hnext : (F.bp + 4).toNat = F.bp.toNat + 4 := by
    rw [BitVec.toNat_add]
    change (F.bp.toNat + 4) % 2 ^ 32 = _
    omega
  constructor
  · exact loadInt_congr fun i hi =>
      h _ (hf.saved _ (by omega) (by omega)) (Or.inr (by omega))
  · refine loadInt_congr fun i hi => ?_
    rw [hnext]
    exact h _ (hf.saved _ (by omega) (by omega)) (Or.inr (by omega))

end Memory

/-! ## The triple -/

/-- The machine where a piece ends that was started in the memory `w`. -/
def Ending.machine (F : Activation) (sp stop b : Word) (w w' : Bytes) : Ending → Vm
  | .done => ⟨stop, sp, F.bp, b, w'⟩
  | .returned => ⟨loadInt w (F.bp + 4), F.bp + 8, loadInt w F.bp, b, w'⟩
  | .pushed vs => ⟨stop, sp - 4 * BitVec.ofNat 32 vs.length, F.bp, b, w'⟩

/-- The values that have been pushed lie on the stack. -/
def Ending.Left (P : Program) (sp : Word) (w : Bytes) : Ending → Prop
  | .pushed vs => P.low + 4 * vs.length ≤ sp.toNat ∧
      ∀ m x, sp.toNat - 4 * vs.length ≤ x → x < sp.toNat → w x = pushAll m sp vs x
  | _ => True

section Triples

variable (P : Program) (text : Word → Word → Prop) (F : Activation)

/-- The piece `c` takes the memory `M` and the value `a` to `M'` and `b`. -/
structure Does (sp : Word) (c : Piece) (M : Store) (a : Word) (out : Ending) (M' : Store) (b : Word) :
    Prop where
  own : M'.own = M.own
  run : ∀ p w, Placed 4 text p (c p) → Fits P text F M.own sp → Agrees text M w →
    ∃ w', Steps ⟨p, sp, F.bp, a, w⟩ (out.machine F sp (c.stop 4 p) b w w') ∧
      Agrees text M' w' ∧ Kept P M.own sp w w' ∧ out.Left P sp w'

/-- The same, and `u` lies on the stack then. -/
structure DoesOver (sp : Word) (c : Piece) (M : Store) (a u : Word) (M' : Store) (b : Word) : Prop where
  room : P.low + 4 ≤ sp.toNat
  own : M'.own = M.own
  run : ∀ p w, Placed 4 text p (c p) → Fits P text F M.own sp → Agrees text M w →
    ∃ w', Steps ⟨p, sp, F.bp, a, w⟩ ⟨c.stop 4 p, sp - 4, F.bp, b, w'⟩ ∧
      Agrees text M' w' ∧ Kept P M.own sp w w' ∧ loadInt w' (sp - 4) = u

variable {P text F} {sp a b u v : Word} {c d : Piece} {M M₁ M₂ : Store} {out : Ending} {o : Op}

/-! ### Single instructions -/

theorem stop_op (p : Word) : (Piece.op o).stop 4 p = p + 4 := by
  change p + 1 • (4 : Word) = _
  rw [one_nsmul]

theorem stop_opWith (p : Word) : (Piece.opWith o v).stop 4 p = p + 4 + 4 := by
  change p + 2 • (4 : Word) = _
  rw [two_nsmul, add_assoc]

theorem stop_append (p : Word) : (c ++ d).stop 4 p = d.stop 4 (c.stop 4 p) := stop_seq

theorem append_assoc (c d e : Piece) : c ++ d ++ e = c ++ (d ++ e) := seq_assoc c d e

theorem stop_optional (p : Word) :
    (Piece.optional o c).stop 4 p = c.stop 4 (p + 2 • (4 : Word)) := stop_branch

theorem stop_cond (p : Word) : (Piece.either c d).stop 4 p =
    d.stop 4 (c.stop 4 (p + 2 • (4 : Word)) + 2 • (4 : Word)) := stop_either

theorem stop_while (p : Word) : (Piece.loop c d).stop 4 p =
    d.stop 4 (c.stop 4 p + 2 • (4 : Word)) + 2 • (4 : Word) := stop_loop

theorem placed_op {p : Word} : Placed 4 text p (Piece.op o p) ↔ text p o.code := and_iff_left trivial

theorem placed_opWith {p : Word} :
    Placed 4 text p (Piece.opWith o v p) ↔ text p o.code ∧ text (p + 4) v :=
  and_congr_right fun _ => and_iff_left trivial

theorem stop_nil (p : Word) : Code.stop 4 Piece.nil p = p := by
  change p + 0 • (4 : Word) = p
  rw [zero_nsmul, add_zero]

theorem Does.nil : Does P text F sp .nil M a .done M a where
  own := rfl
  run p w _ _ hagree := by
    rw [stop_nil]
    exact ⟨w, .refl, hagree, .refl, trivial⟩

theorem Does.imm : Does P text F sp (.opWith .imm v) M a .done M v where
  own := rfl
  run p w hp _ hagree := by
    obtain ⟨hop, harg⟩ := placed_opWith.mp hp
    rw [stop_opWith]
    exact ⟨w, .single (next_imm (hagree.text _ _ hop) (hagree.text _ _ harg)), hagree, .refl, trivial⟩

theorem Does.lea : Does P text F sp (.opWith .lea v) M a .done M (F.bp + 4 * v) where
  own := rfl
  run p w hp _ hagree := by
    obtain ⟨hop, harg⟩ := placed_opWith.mp hp
    rw [stop_opWith]
    exact ⟨w, .single (next_lea (hagree.text _ _ hop) (hagree.text _ _ harg)), hagree, .refl, trivial⟩

theorem Does.load {ty : ℕ} (hinit : extent ty a ⊆ M.init) :
    Does P text F sp (.op (loadOp ty)) M a .done M (loadAs ty M.bytes a) where
  own := rfl
  run p w hp _ hagree := by
    have hop := hagree.text _ _ (placed_op.mp hp)
    have hvalue : loadAs ty M.bytes a = loadAs ty w a :=
      (loadAs_congr fun x hx => hagree.bytes x (hinit hx)).symm
    refine ⟨w, ?_, hagree, .refl, trivial⟩
    rw [stop_op, hvalue]
    unfold loadOp at hop
    unfold loadAs
    split
    next hty =>
      rw [if_pos hty] at hop
      exact .single (next_lc hop)
    next hty =>
      rw [if_neg hty] at hop
      exact .single (next_li hop)

theorem Does.lev : Does P text F sp (.op .lev) M a .returned M a where
  own := rfl
  run _ w hp _ hagree :=
    ⟨w, .single (next_lev (hagree.text _ _ (placed_op.mp hp))), hagree, .refl, trivial⟩

theorem DoesOver.psh (hroom : P.low + 4 ≤ sp.toNat) :
    DoesOver P text F sp (.op .psh) M a a M a where
  room := hroom
  own := rfl
  run p w hp hfits hagree := by
    rw [stop_op]
    exact ⟨_, .single (next_psh (hagree.text _ _ (placed_op.mp hp))), hagree.push hfits hroom a,
      .push hroom a, loadInt_storeInt⟩

/-! ### Sequences -/

/-- The saved registers are the same in a memory that has been kept. -/
theorem machine_kept {own : Set ℕ} {w w₁ w' : Bytes} {q : Word} (hkept : Kept P own sp w w₁)
    (hfits : Fits P text F own sp) : out.machine F sp q b w₁ w' = out.machine F sp q b w w' := by
  obtain ⟨hbp, hret⟩ := hkept.saved hfits
  cases out with
  | done => rfl
  | pushed vs => rfl
  | returned => rw [Ending.machine, Ending.machine, hbp, hret]

/-- One piece after the other. -/
theorem Does.seq (h : Does P text F sp c M a .done M₁ b) (h' : Does P text F sp d M₁ b out M₂ v) :
    Does P text F sp (c ++ d) M a out M₂ v where
  own := h'.own.trans h.own
  run p w hp hfits hagree := by
    obtain ⟨hpc, hpd⟩ := placed_seq.mp hp
    obtain ⟨w₁, hsteps, hagree₁, hkept, -⟩ := h.run p w hpc hfits hagree
    have hfits₁ := hfits
    rw [← h.own] at hfits₁
    obtain ⟨w₂, hsteps', hagree₂, hkept', hleft⟩ := h'.run _ w₁ hpd hfits₁ hagree₁
    rw [h.own] at hkept'
    rw [machine_kept hkept hfits] at hsteps'
    rw [stop_append]
    exact ⟨w₂, hsteps.trans hsteps', hagree₂, hkept.trans hkept', hleft⟩

/-- What follows a `return` does not matter. -/
theorem Does.returned_seq (h : Does P text F sp c M a .returned M₁ b) :
    Does P text F sp (c ++ d) M a .returned M₁ b where
  own := h.own
  run p w hp hfits hagree := h.run p w (placed_seq.mp hp).1 hfits hagree

theorem Does.over (h : Does P text F sp c M a .done M₁ b) (h' : DoesOver P text F sp d M₁ b u M₂ v) :
    DoesOver P text F sp (c ++ d) M a u M₂ v where
  room := h'.room
  own := h'.own.trans h.own
  run p w hp hfits hagree := by
    obtain ⟨hpc, hpd⟩ := placed_seq.mp hp
    obtain ⟨w₁, hsteps, hagree₁, hkept, -⟩ := h.run p w hpc hfits hagree
    rw [← h.own] at hfits
    obtain ⟨w₂, hsteps', hagree₂, hkept', hu⟩ := h'.run _ w₁ hpd hfits hagree₁
    rw [h.own] at hkept'
    rw [stop_append]
    exact ⟨w₂, hsteps.trans hsteps', hagree₂, hkept.trans hkept', hu⟩

/-- The value on the stack is still there after the next piece. -/
theorem DoesOver.seq (h : DoesOver P text F sp c M a u M₁ b)
    (h' : Does P text F (sp - 4) d M₁ b .done M₂ v) : DoesOver P text F sp (c ++ d) M a u M₂ v where
  room := h.room
  own := h'.own.trans h.own
  run p w hp hfits hagree := by
    obtain ⟨hpc, hpd⟩ := placed_seq.mp hp
    obtain ⟨w₁, hsteps, hagree₁, hkept, hu⟩ := h.run p w hpc hfits hagree
    have hfits' := hfits.push h.room
    rw [← h.own] at hfits'
    obtain ⟨w₂, hsteps', hagree₂, hkept', -⟩ := h'.run _ w₁ hpd hfits' hagree₁
    rw [h.own] at hkept'
    rw [stop_append]
    exact ⟨w₂, hsteps.trans hsteps', hagree₂, hkept.trans (hkept'.pop h.room),
      (hkept'.pushed hfits h.room).trans hu⟩

theorem pop_push (sp : Word) : sp - 4 + 4 = sp := sub_add_cancel sp 4

/-- An operator takes its left operand from the stack. -/
theorem DoesOver.apply (h : DoesOver P text F sp c M a u M₁ v) (hr : o.apply u v = some b) :
    Does P text F sp (c ++ .op o) M a .done M₁ b where
  own := h.own
  run p w hp hfits hagree := by
    obtain ⟨hpc, hpo⟩ := placed_seq.mp hp
    obtain ⟨w₁, hsteps, hagree₁, hkept, hu⟩ := h.run p w hpc hfits hagree
    have hop := hagree₁.text _ _ (placed_op.mp hpo)
    refine ⟨w₁, hsteps.trans (.single ?_), hagree₁, hkept, trivial⟩
    have hstop : Code.stop 4 (c ++ .op o) p = Code.stop 4 c p + 4 :=
      (stop_append p).trans (stop_op _)
    have hnext := next_apply (v := ⟨Code.stop 4 c p, sp - 4, F.bp, v, w₁⟩) hop (hu.symm ▸ hr)
    dsimp only at hnext
    rwa [pop_push, ← hstop] at hnext

/-- A value goes to the address on the stack. -/
theorem DoesOver.store {ty : ℕ} (h : DoesOver P text F sp c M a u M₁ v)
    (hown : extent ty u ⊆ M₁.own) :
    Does P text F sp (c ++ .op (storeOp ty)) M a .done (M₁.write ty u v) (convert ty v) where
  own := h.own
  run p w hp hfits hagree := by
    obtain ⟨hpc, hpo⟩ := placed_seq.mp hp
    obtain ⟨w₁, hsteps, hagree₁, hkept, hu⟩ := h.run p w hpc hfits hagree
    have hop := hagree₁.text _ _ (placed_op.mp hpo)
    have hstop : Code.stop 4 (c ++ .op (storeOp ty)) p = Code.stop 4 c p + 4 :=
      (stop_append p).trans (stop_op _)
    refine ⟨storeAs ty w₁ u v, hsteps.trans (.single ?_), ⟨fun q y hq => ?_, fun x hx => ?_, ?_⟩,
      fun x hx hout => ?_, trivial⟩
    · change Next _ ⟨_, sp, F.bp, convert ty v, storeAs ty w₁ u v⟩
      unfold storeOp at hop
      unfold storeAs convert
      split
      next hty =>
        rw [if_pos hty] at hop
        have hnext := next_sc (v := ⟨Code.stop 4 c p, sp - 4, F.bp, v, w₁⟩) hop
        dsimp only at hnext
        rwa [pop_push, ← hstop, hu] at hnext
      next hty =>
        rw [if_neg hty] at hop
        have hnext := next_si (v := ⟨Code.stop 4 c p, sp - 4, F.bp, v, w₁⟩) hop
        dsimp only at hnext
        rwa [pop_push, ← hstop, hu] at hnext
    · rw [← hagree₁.text q y hq]
      refine loadInt_congr fun i hi => storeAs_outside fun hx => ?_
      have := (hfits.code q y hq i hi).1
      rw [← h.own] at this
      exact this (hown hx)
    · change storeAs ty w₁ u v x = storeAs ty M₁.bytes u v x
      by_cases hin : x ∈ extent ty u
      · exact storeAs_inside hin
      · rw [storeAs_outside hin, storeAs_outside hin]
        exact hagree₁.bytes x (hx.resolve_right hin)
    · exact Set.union_subset hagree₁.initOwn hown
    · rw [storeAs_outside, hkept x hx hout]
      intro hin
      rw [← h.own] at hx
      exact hx (hown hin)

/-! ### Jumps -/

/-- The way behind a `BZ` and its operand. -/
theorem behind (p : Word) : p + 2 • (4 : Word) = p + 4 + 4 := by
  rw [two_nsmul, add_assoc]

/-- A piece that is run after some steps. -/
theorem Does.after {c' : Piece} {p q : Word} {w : Bytes} (h : Does P text F sp c M a out M₁ b)
    (hstep : Steps ⟨p, sp, F.bp, v, w⟩ ⟨q, sp, F.bp, a, w⟩) (hq : Placed 4 text q (c q))
    (hstop : Code.stop 4 c' p = Code.stop 4 c q) (hfits : Fits P text F M.own sp)
    (hagree : Agrees text M w) :
    ∃ w', Steps ⟨p, sp, F.bp, v, w⟩ (out.machine F sp (c'.stop 4 p) b w w') ∧
      Agrees text M₁ w' ∧ Kept P M.own sp w w' ∧ out.Left P sp w' := by
  obtain ⟨w', hsteps, hrest⟩ := h.run q w hq hfits hagree
  rw [hstop]
  exact ⟨w', hstep.trans hsteps, hrest⟩

theorem Does.optional_bz (ha : a ≠ 0) (h : Does P text F sp c M a out M₁ b) :
    Does P text F sp (.optional .bz c) M a out M₁ b where
  own := h.own
  run p w hp hfits hagree := by
    obtain ⟨hop, harg, hc⟩ := placed_branch.mp hp
    have hnext := next_bz (v := ⟨p, sp, F.bp, a, w⟩) (hagree.text _ _ hop) (hagree.text _ _ harg)
    dsimp only at hnext
    rw [if_pos ha, ← behind] at hnext
    exact h.after (.single hnext) hc (stop_optional p) hfits hagree

theorem Does.optional_bz_zero : Does P text F sp (.optional .bz c) M 0 .done M 0 where
  own := rfl
  run p w hp _ hagree := by
    obtain ⟨hop, harg, -⟩ := placed_branch.mp hp
    have hnext := next_bz (v := ⟨p, sp, F.bp, 0, w⟩) (hagree.text _ _ hop) (hagree.text _ _ harg)
    dsimp only at hnext
    rw [if_neg (not_not.mpr rfl)] at hnext
    rw [stop_optional]
    exact ⟨w, .single hnext, hagree, .refl, trivial⟩

theorem Does.optional_bnz (ha : a ≠ 0) : Does P text F sp (.optional .bnz c) M a .done M a where
  own := rfl
  run p w hp _ hagree := by
    obtain ⟨hop, harg, -⟩ := placed_branch.mp hp
    have hnext := next_bnz (v := ⟨p, sp, F.bp, a, w⟩) (hagree.text _ _ hop) (hagree.text _ _ harg)
    dsimp only at hnext
    rw [if_pos ha] at hnext
    rw [stop_optional]
    exact ⟨w, .single hnext, hagree, .refl, trivial⟩

theorem Does.optional_bnz_zero (h : Does P text F sp c M 0 out M₁ b) :
    Does P text F sp (.optional .bnz c) M 0 out M₁ b where
  own := h.own
  run p w hp hfits hagree := by
    obtain ⟨hop, harg, hc⟩ := placed_branch.mp hp
    have hnext := next_bnz (v := ⟨p, sp, F.bp, 0, w⟩) (hagree.text _ _ hop) (hagree.text _ _ harg)
    dsimp only at hnext
    rw [if_neg (not_not.mpr rfl), ← behind] at hnext
    exact h.after (.single hnext) hc (stop_optional p) hfits hagree

/-- The end of a piece, followed by a jump. -/
theorem Does.jump {p q : Word} {w w' : Bytes}
    (hsteps : Steps ⟨p, sp, F.bp, a, w⟩ (out.machine F sp q b w w')) {r : Word}
    (hop : text q Op.jmp.code) (harg : text (q + 4) r) (hagree : Agrees text M₁ w') :
    Steps ⟨p, sp, F.bp, a, w⟩ (out.machine F sp r b w w') := by
  cases out with
  | done =>
      exact hsteps.trans (.single (next_jmp (v := ⟨q, sp, F.bp, b, w'⟩) (hagree.text _ _ hop)
        (hagree.text _ _ harg)))
  | returned => exact hsteps
  | pushed vs =>
      exact hsteps.trans (.single (next_jmp
        (v := ⟨q, sp - 4 * BitVec.ofNat 32 vs.length, F.bp, b, w'⟩) (hagree.text _ _ hop)
        (hagree.text _ _ harg)))

theorem Does.either_true (ha : a ≠ 0) (h : Does P text F sp c M a out M₁ b) :
    Does P text F sp (.either c d) M a out M₁ b where
  own := h.own
  run p w hp hfits hagree := by
    obtain ⟨⟨hop, harg, hc⟩, hjmp, hto, -⟩ := placed_either.mp hp
    have hnext := next_bz (v := ⟨p, sp, F.bp, a, w⟩) (hagree.text _ _ hop) (hagree.text _ _ harg)
    dsimp only at hnext
    rw [if_pos ha, ← behind] at hnext
    obtain ⟨w', hsteps, hagree', hkept, hleft⟩ := h.run _ w hc hfits hagree
    rw [stop_cond]
    exact ⟨w', .trans (.single hnext) (Does.jump hsteps hjmp hto hagree'), hagree', hkept, hleft⟩

theorem Does.either_false (h : Does P text F sp d M 0 out M₁ b) :
    Does P text F sp (.either c d) M 0 out M₁ b where
  own := h.own
  run p w hp hfits hagree := by
    obtain ⟨⟨hop, harg, -⟩, -, -, hd⟩ := placed_either.mp hp
    have hnext := next_bz (v := ⟨p, sp, F.bp, 0, w⟩) (hagree.text _ _ hop) (hagree.text _ _ harg)
    dsimp only at hnext
    rw [if_neg (not_not.mpr rfl)] at hnext
    exact h.after (.single hnext) hd (stop_cond p) hfits hagree

/-- The condition of a loop, and the way to its body. -/
theorem Does.loop_head (h : Does P text F sp c M a .done M₁ u) {p : Word} {w : Bytes}
    (hp : Placed 4 text p (Piece.loop c d p)) (hfits : Fits P text F M.own sp)
    (hagree : Agrees text M w) : ∃ w', Steps ⟨p, sp, F.bp, a, w⟩
      ⟨if u ≠ 0 then c.stop 4 p + 2 • (4 : Word) else (Piece.loop c d).stop 4 p, sp, F.bp, u, w'⟩ ∧
      Agrees text M₁ w' ∧ Kept P M.own sp w w' := by
  obtain ⟨hc, ⟨hop, harg, -⟩, -⟩ := placed_loop.mp hp
  obtain ⟨w', hsteps, hagree', hkept, -⟩ := h.run p w hc hfits hagree
  have hnext := next_bz (v := ⟨c.stop 4 p, sp, F.bp, u, w'⟩) (hagree'.text _ _ hop)
    (hagree'.text _ _ harg)
  dsimp only at hnext
  rw [stop_while, behind (c.stop 4 p)]
  rw [behind (c.stop 4 p)] at hnext
  exact ⟨w', hsteps.trans (.single hnext), hagree', hkept⟩

theorem Does.loop_false (h : Does P text F sp c M a .done M₁ 0) :
    Does P text F sp (.loop c d) M a .done M₁ 0 where
  own := h.own
  run p w hp hfits hagree := by
    obtain ⟨w', hsteps, hagree', hkept⟩ := h.loop_head hp hfits hagree
    rw [if_neg (not_not.mpr rfl)] at hsteps
    exact ⟨w', hsteps, hagree', hkept, trivial⟩

/-- The body of a loop, after its condition. -/
theorem Does.loop_body {M₃ : Store} (h : Does P text F sp c M a .done M₁ u) (hu : u ≠ 0)
    (h' : Does P text F sp d M₁ u out M₃ b) {p : Word} {w : Bytes}
    (hp : Placed 4 text p (Piece.loop c d p)) (hfits : Fits P text F M.own sp)
    (hagree : Agrees text M w) : ∃ w', Steps ⟨p, sp, F.bp, a, w⟩
      (out.machine F sp (d.stop 4 (c.stop 4 p + 2 • (4 : Word))) b w w') ∧
      Agrees text M₃ w' ∧ Kept P M.own sp w w' ∧ out.Left P sp w' := by
  obtain ⟨-, ⟨-, -, hd⟩, -⟩ := placed_loop.mp hp
  obtain ⟨w₁, hsteps, hagree₁, hkept⟩ := h.loop_head hp hfits hagree
  rw [if_pos hu] at hsteps
  have hfits₁ := hfits
  rw [← h.own] at hfits₁
  obtain ⟨w', hsteps', hagree', hkept', hleft⟩ := h'.run _ w₁ hd hfits₁ hagree₁
  rw [h.own] at hkept'
  rw [machine_kept hkept hfits] at hsteps'
  exact ⟨w', hsteps.trans hsteps', hagree', hkept.trans hkept', hleft⟩

theorem Does.loop_returned {M₃ : Store} (h : Does P text F sp c M a .done M₁ u) (hu : u ≠ 0)
    (h' : Does P text F sp d M₁ u .returned M₃ b) :
    Does P text F sp (.loop c d) M a .returned M₃ b where
  own := h'.own.trans h.own
  run _ _ hp hfits hagree := h.loop_body hu h' hp hfits hagree

theorem Does.loop_true {M₃ : Store} (h : Does P text F sp c M a .done M₁ u) (hu : u ≠ 0)
    (h' : Does P text F sp d M₁ u .done M₂ v) (hloop : Does P text F sp (.loop c d) M₂ v out M₃ b) :
    Does P text F sp (.loop c d) M a out M₃ b where
  own := hloop.own.trans (h'.own.trans h.own)
  run p w hp hfits hagree := by
    obtain ⟨w₁, hsteps, hagree₁, hkept, -⟩ := h.loop_body hu h' hp hfits hagree
    obtain ⟨-, -, hop, harg⟩ := placed_loop.mp hp
    have hback := Does.jump hsteps hop harg hagree₁
    have hown := h'.own.trans h.own
    have hfits₁ := hfits
    rw [← hown] at hfits₁
    obtain ⟨w', hsteps', hagree', hkept', hleft⟩ := hloop.run p w₁ hp hfits₁ hagree₁
    rw [hown] at hkept'
    rw [machine_kept hkept hfits] at hsteps'
    exact ⟨w', hback.trans hsteps', hagree', hkept.trans hkept', hleft⟩

end Triples

end BochsOs.C4
