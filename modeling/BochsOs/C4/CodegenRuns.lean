import BochsOs.C4.Calls

/-!
# The code does what the program means

`Runs.does`: when an item of the program runs, its code takes the machine to the memory and the
value that the semantics gives, wherever the code is put, in any memory that agrees with that of
the program.  The induction is on the run, with one rule of `Pieces` for each part of the code.
-/

namespace BochsOs.C4

open ByteMemory Relocation Vm

/-- The code of an item. -/
def Item.code (Γ : Scope) (loc : Word) : Item → Piece
  | .expr e => e.code Γ loc
  | .address e => e.address Γ loc
  | .args es => codeArgs Γ loc es
  | .stmt s => s.code Γ loc
  | .block ss => codeBlock Γ loc ss

section Parts

variable {P : Program} {text : Word → Word → Prop} {F : Activation} {sp a b u v : Word} {c : Piece}
  {M M₁ M₂ : Store} {ty : ℕ} {Γ : Scope}

theorem room_push (hroom : P.low + 8 ≤ sp.toNat) : P.low + 4 ≤ (sp - 4).toNat := by
  rw [toNat_sub_four (by omega)]
  omega

/-! ## Constants -/

/-- An operation with a constant. -/
theorem Does.const_op {o : Op} (hroom : P.low + 4 ≤ sp.toNat) (h : Does P text F sp c M a .done M₁ u)
    (hr : o.apply u v = some b) :
    Does P text F sp (c ++ .op .psh ++ .opWith .imm v ++ .op o) M a .done M₁ b :=
  ((h.over (.psh hroom)).seq .imm).apply hr

theorem Does.scale {o : Op} (hroom : P.low + 4 ≤ sp.toNat) (hr : o.apply a 4 = some b) :
    Does P text F sp (.scale o) M a .done M b :=
  ((DoesOver.psh hroom).seq .imm).apply hr

/-- The right operand of `+`, `-` or an index. -/
theorem DoesOver.scaled (hroom : P.low + scaleRoom ty ≤ sp.toNat)
    (h : DoesOver P text F sp c M a u M₁ v) :
    DoesOver P text F sp (c ++ if Ty.ptr < ty then .scale .mul else .nil) M a u M₁ (scaled ty v) := by
  unfold scaleRoom at hroom
  unfold C4.scaled
  split
  next hty =>
    rw [if_pos hty] at hroom
    exact h.seq (.scale (room_push hroom) rfl)
  next hty => exact h.seq .nil

theorem room_of_scale (hroom : P.low + scaleRoom ty ≤ sp.toNat) : P.low + 4 ≤ sp.toNat := by
  unfold scaleRoom at hroom
  split at hroom
  · omega
  · exact hroom

theorem div_four (u : Word) : Op.div.apply u 4 = some (u.sdiv 4) := by
  rw [Op.apply, if_neg]
  rintro (h | ⟨-, h⟩)
  · exact absurd h (by decide)
  · exact absurd h (by decide)

theorem eq_zero_apply (v : Word) : Op.eq.apply v 0 = some (if v = 0 then 1 else 0) := by
  rw [Op.apply, Op.ofBool]
  congr 1
  by_cases hv : v = 0
  · rw [if_pos hv, if_pos (decide_eq_true hv)]
  · rw [if_neg hv, if_neg (by simpa using hv)]

theorem xor_ones_apply (v : Word) : Op.xor.apply v (-1) = some (~~~v) := by
  have hones : (-1 : Word) = BitVec.allOnes 32 := rfl
  rw [Op.apply, hones, BitVec.xor_allOnes]

/-! ## Lvalues -/

theorem Expr.lvalue_of_loads {e : Expr} (h : e.Loads Γ) : e.lvalue Γ = true := by
  cases e with
  | name i => exact decide_eq_true h
  | deref e => rfl
  | index x y => rfl
  | _ => exact h.elim

/-- A step up or down. -/
theorem stepped_apply (dec : Bool) (v : Word) :
    Op.apply (if dec then .sub else .add) v (stepOf ty) = some (stepped dec ty v) := by
  cases dec with
  | false => rfl
  | true => rfl

/-- And back. -/
theorem unstepped_apply (dec : Bool) (v : Word) :
    Op.apply (if dec then .add else .sub) v (stepOf ty) = some (stepped (!dec) ty v) := by
  cases dec with
  | false => rfl
  | true => rfl

/-- `++` and `--` in front of an lvalue. -/
theorem Does.increment {dec : Bool} (hroom : P.low + 8 ≤ sp.toNat) (hinit : extent ty a ⊆ M.init)
    (hv : v = stepped dec ty (loadAs ty M.bytes a)) :
    Does P text F sp (.increment dec ty) M a .done (M.write ty a v) (convert ty v) := by
  refine ⟨rfl, fun p w hp hfits hagree => Does.run ?_ p w hp hfits hagree⟩
  have hvalue : Does P text F (sp - 4) _ M a .done M v :=
    (Does.load hinit).const_op (o := if dec then .sub else .add) (v := stepOf ty) (room_push hroom)
      (hv ▸ stepped_apply dec _)
  have hall := ((DoesOver.psh (by omega)).seq hvalue).store (hinit.trans hagree.initOwn)
  simp only [append_assoc] at hall
  simpa only [Piece.increment, append_assoc] using hall

/-! ## Arguments -/

theorem Runs.length_args {es : List Expr} {vs : List Word}
    (h : Runs P F sp (.args es) M a (.pushed vs) M₁ b) : vs.length = es.length := by
  induction es generalizing sp a M vs with
  | nil =>
      cases h
      rfl
  | cons e es ih =>
      cases h with
      | argsCons _ _ hes => rw [List.length_cons, List.length_cons, ih hes]

end Parts

/-! ## The theorem -/

section Simulation

variable {P : Program} {text : Word → Word → Prop}

/-- What an item does, its code does. -/
theorem Runs.does (hcode : ∀ v f, P.functions v = some f → Placed 4 text v (f.code v))
    {F : Activation} {sp a b : Word} {item : Item} {M M' : Store} {out : Ending}
    (h : Runs P F sp item M a out M' b) :
    Does P text F sp (item.code F.scope F.loc) M a out M' b := by
  induction h with
  | num => exact .imm
  | str => exact .imm
  | sizeof => exact .imm
  | const hi =>
      rw [Item.code, Expr.code, if_pos hi]
      exact .imm
  | «local» hi =>
      rw [Item.code, Expr.address, if_pos hi]
      exact .lea
  | global hi =>
      rw [Item.code, Expr.address, if_neg (by rw [hi]; decide)]
      exact .imm
  | parenAddress _ ih =>
      rw [Item.code, Expr.address]
      exact ih
  | derefAddress _ ih =>
      rw [Item.code, Expr.address]
      exact ih
  | indexAddress _ hroom _ ihx ihy =>
      rw [Item.code, Expr.address]
      exact (((ihx.over (.psh (room_of_scale hroom))).seq ihy).scaled hroom).apply rfl
  | load hload _ hinit ih =>
      rw [Item.code, Expr.code_lvalue _ _ (Expr.lvalue_of_loads hload)]
      exact ih.seq (.load hinit)
  | paren _ ih =>
      rw [Item.code, Expr.code]
      exact ih
  | cast _ ih =>
      rw [Item.code, Expr.code]
      exact ih
  | addressOf _ ih =>
      rw [Item.code, Expr.code]
      exact ih
  | lnot _ hroom ih =>
      rw [Item.code, Expr.code]
      exact ih.const_op hroom (eq_zero_apply _)
  | bnot _ hroom ih =>
      rw [Item.code, Expr.code]
      exact ih.const_op hroom (xor_ones_apply _)
  | plus _ ih =>
      rw [Item.code, Expr.code]
      exact ih
  | negNum =>
      rw [Item.code, Expr.code]
      exact .imm
  | neg hnum hroom _ ih =>
      rw [Item.code, Expr.code, Expr.literal_eq_none hnum]
      exact ((Does.imm.over (.psh hroom)).seq ih).apply (congrArg some (neg_one_mul _))
  | pre hlvalue _ hroom hinit hv ih =>
      rw [Item.code, Expr.code]
      exact ih.seq (.increment hroom hinit hv)
  | post hlvalue _ hroom hinit hv ih =>
      rw [Item.code, Expr.code]
      exact (ih.seq (.increment hroom hinit hv)).const_op (by omega) (unstepped_apply _ _)
  | bin _ hroom _ hr ihx ihy =>
      rw [Item.code, Expr.code]
      exact ((ihx.over (.psh hroom)).seq ihy).apply hr
  | add _ hroom _ ihx ihy =>
      rw [Item.code, Expr.code]
      exact (((ihx.over (.psh (room_of_scale hroom))).seq ihy).scaled hroom).apply rfl
  | subPtr htype _ hroom _ ihx ihy =>
      rw [Item.code, Expr.code, if_pos htype]
      exact (((ihx.over (.psh hroom)).seq ihy).apply rfl).seq (.scale hroom (div_four _))
  | sub htype _ hroom _ ihx ihy =>
      rw [Item.code, Expr.code, if_neg htype]
      exact (((ihx.over (.psh (room_of_scale hroom))).seq ihy).scaled hroom).apply rfl
  | lorLeft _ hu ihx =>
      rw [Item.code, Expr.code]
      exact ihx.seq (.optional_bnz hu)
  | lorRight _ _ ihx ihy =>
      rw [Item.code, Expr.code]
      exact ihx.seq (.optional_bnz_zero ihy)
  | lanLeft _ ihx =>
      rw [Item.code, Expr.code]
      exact ihx.seq .optional_bz_zero
  | lanRight _ hu _ ihx ihy =>
      rw [Item.code, Expr.code]
      exact ihx.seq (.optional_bz hu ihy)
  | condTrue _ hu _ ihx ihy =>
      rw [Item.code, Expr.code]
      exact ihx.seq (.either_true hu ihy)
  | condFalse _ _ ihx ihz =>
      rw [Item.code, Expr.code]
      exact ihx.seq (.either_false ihz)
  | assign hlvalue _ hroom _ hown ihx ihy =>
      rw [Item.code, Expr.code]
      exact ((ihx.over (.psh hroom)).seq ihy).store hown
  | argsNil =>
      rw [Item.code, codeArgs]
      exact .args_nil
  | argsCons _ hroom _ ihe ihes =>
      rw [Item.code, codeArgs]
      exact ihe.args_cons hroom ihes
  | call hi hf hlen hes hroom hout _ ihes ihbody =>
      rw [Item.code, Expr.code, if_neg (by rw [hi]; decide), hlen]
      exact .call (hes.length_args.trans hlen) (hcode _ _ hf) hroom hout ihes ihbody
  | exprStmt _ ih =>
      rw [Item.code, Stmt.code]
      exact ih
  | ifTrue _ hu _ ihc ihs =>
      rw [Item.code, Stmt.code]
      exact ihc.seq (.optional_bz hu ihs)
  | ifFalse _ ihc =>
      rw [Item.code, Stmt.code]
      exact ihc.seq .optional_bz_zero
  | ifElseTrue _ hu _ ihc ihs =>
      rw [Item.code, Stmt.code]
      exact ihc.seq (.either_true hu ihs)
  | ifElseFalse _ _ ihc iht =>
      rw [Item.code, Stmt.code]
      exact ihc.seq (.either_false iht)
  | whileFalse _ ihc =>
      rw [Item.code, Stmt.code]
      exact ihc.loop_false
  | whileTrue _ hu _ _ ihc ihs ihloop =>
      rw [Item.code, Stmt.code] at ihloop ⊢
      exact ihc.loop_true hu ihs ihloop
  | whileReturn _ hu _ ihc ihs =>
      rw [Item.code, Stmt.code]
      exact ihc.loop_returned hu ihs
  | «return» => exact .lev
  | returnVal _ ih =>
      rw [Item.code, Stmt.code]
      exact ih.seq .lev
  | empty => exact .nil
  | blockStmt _ ih =>
      rw [Item.code, Stmt.code]
      exact ih
  | blockNil => exact .nil
  | blockCons _ _ ihs ihss =>
      rw [Item.code, codeBlock]
      exact ihs.seq ihss
  | blockReturn _ ihs =>
      rw [Item.code, codeBlock]
      exact ihs.returned_seq

end Simulation

/-! ## Programs -/

/-- The stack of `main`: what is done when it returns, its arguments and where it returns to. -/
def startStack (m : Bytes) (top argc argv : Word) : Bytes :=
  pushAll m top [Op.exit.code, Op.psh.code, argc, argv, top - 8]

/-- The machine at the beginning of the run, with `main` at `v`. -/
def startVm (m : Bytes) (top argc argv v a : Word) : Vm :=
  ⟨v, top - 20, top, a, startStack m top argc argv⟩

/-- The arguments that a `main` with `n` parameters sees are the last ones. -/
def mainArgs (argc argv : Word) (n : ℕ) : List Word := [argc, argv].drop (2 - n)

/-- The program is in the memory `m`, and its stack ends at `top`. -/
structure Loaded (P : Program) (text : Word → Word → Prop) (M : Store) (m : Bytes) (top : Word) :
    Prop where
  agrees : Agrees text M m
  apart : ∀ x ∈ M.own, x < P.low ∨ top.toNat ≤ x
  code : ∀ p v, text p v → ∀ i < 4,
    p.toNat + i ∉ M.own ∧ (p.toNat + i < P.low ∨ top.toNat ≤ p.toNat + i)
  functions : ∀ v f, P.functions v = some f → Placed 4 text v (f.code v)

/-- The code, and what is done when `main` returns. -/
def withExit (text : Word → Word → Prop) (top p v : Word) : Prop :=
  text p v ∨ (p = top - 8 ∧ v = Op.psh.code) ∨ p = top - 4 ∧ v = Op.exit.code

section Start

variable {P : Program} {text : Word → Word → Prop} {M M₂ : Store} {m m' : Bytes}
  {sp top argc argv a r u v : Word} {vs us : List Word} {n k : ℕ} {x : ℕ}

/-- The arguments of `main`, behind the code that is run when it returns. -/
theorem pushAll_mainArgs (hn : n ≤ 2) :
    pushAll m top [Op.exit.code, Op.psh.code, argc, argv] =
      pushAll (pushAll m top ([Op.exit.code, Op.psh.code] ++ [argc, argv].take (2 - n)))
        (top - 4 * BitVec.ofNat 32 (4 - n)) (mainArgs argc argv n) := by
  have hsplit : [Op.exit.code, Op.psh.code, argc, argv] =
      ([Op.exit.code, Op.psh.code] ++ [argc, argv].take (2 - n)) ++ mainArgs argc argv n := by
    rw [mainArgs, List.append_assoc, List.take_append_drop]
    rfl
  have hlength : ([Op.exit.code, Op.psh.code] ++ [argc, argv].take (2 - n)).length = 4 - n := by
    rw [List.length_append, List.length_take]
    simp only [List.length_cons, List.length_nil]
    omega
  rw [hsplit, pushAll_append, hlength]

theorem length_mainArgs (argc argv : Word) (hn : n ≤ 2) : (mainArgs argc argv n).length = n := by
  rw [mainArgs, List.length_drop, List.length_cons, List.length_cons, List.length_nil]
  omega

theorem mainArgs_left (argc argv : Word) (hn : n ≤ 2) (hroom : P.low + 16 ≤ top.toNat) :
    (Ending.pushed (mainArgs argc argv n)).Left P (top - 4 * BitVec.ofNat 32 (4 - n))
      (pushAll m top [Op.exit.code, Op.psh.code, argc, argv]) := by
  have hlength := length_mainArgs argc argv hn
  have hsp : (top - 4 * BitVec.ofNat 32 (4 - n)).toNat = top.toNat - 4 * (4 - n) :=
    toNat_sub_cells (by omega)
  rw [pushAll_mainArgs hn]
  refine ⟨by omega, fun m' x hlow hhigh => ?_⟩
  exact pushAll_inside (by omega) hlow hhigh

/-- The stack of `main` before the return address. -/
theorem startStack_eq : startStack m top argc argv =
    storeInt (pushAll m top [Op.exit.code, Op.psh.code, argc, argv]) (top - 16 - 4) (top - 8) := by
  have hcells : top - 4 * BitVec.ofNat 32 4 = top - 16 := rfl
  have hsplit : [Op.exit.code, Op.psh.code, argc, argv, top - 8] =
      [Op.exit.code, Op.psh.code, argc, argv] ++ [top - 8] := rfl
  rw [startStack, hsplit, pushAll_append, List.length_cons, List.length_cons, List.length_cons,
    List.length_cons, List.length_nil]
  exact congrArg (fun p => storeInt _ (p - 4) _) hcells

/-- The memory when `main` begins, but for the return address. -/
theorem Loaded.start (h : Loaded P text M m top) (argc argv : Word)
    (hroom : P.low + 24 ≤ top.toNat) :
    Agrees (withExit text top) M (pushAll m top [Op.exit.code, Op.psh.code, argc, argv]) := by
  have hsame : ∀ x, x < P.low ∨ top.toNat ≤ x →
      pushAll m top [Op.exit.code, Op.psh.code, argc, argv] x = m x := fun x hx =>
    pushAll_outside (by simp only [List.length_cons, List.length_nil]; omega)
      (by simp only [List.length_cons, List.length_nil]; omega)
  refine ⟨fun p v hp => ?_, fun x hx => ?_, h.agrees.initOwn⟩
  · obtain hp | ⟨rfl, rfl⟩ | ⟨rfl, rfl⟩ := hp
    · rw [← h.agrees.text p v hp]
      exact loadInt_congr fun i hi => hsame _ (h.code p v hp i hi).2
    · have hsub : (top - 4).toNat = top.toNat - 4 := toNat_sub_four (by omega)
      rw [pushAll, ← sub_four_four]
      exact loadInt_pushAll (by simp only [List.length_cons, List.length_nil]; omega)
    · exact loadInt_pushAll (by simp only [List.length_cons, List.length_nil]; omega)
  · rw [hsame x (h.apart x (h.agrees.initOwn hx))]
    exact h.agrees.bytes x hx

/-- There is room for `main`. -/
theorem Loaded.fits (h : Loaded P text M m top) (hroom : P.low + 24 ≤ top.toNat) (Γ : Scope)
    (loc : Word) (hn : n ≤ 2) :
    Fits P (withExit text top) ⟨Γ, loc, top - 8⟩ M.own (top - 4 * BitVec.ofNat 32 (4 - n)) := by
  have hsp : (top - 4 * BitVec.ofNat 32 (4 - n)).toNat = top.toNat - 4 * (4 - n) :=
    toNat_sub_cells (by omega)
  have hsub : (top - 4).toNat = top.toNat - 4 := toNat_sub_four (by omega)
  have hsub' : (top - 8).toNat = top.toNat - 8 := toNat_sub_eight (by omega)
  have htop := top.isLt
  have hout : ∀ x ∈ M.own, x < P.low ∨ top.toNat ≤ x := h.apart
  refine ⟨by omega, fun x hx => (hout x hx).imp_right (by omega), fun p v hp i hi => ?_,
    by dsimp only; omega, by dsimp only; omega, fun x hlow hhigh hx => ?_⟩
  · obtain hp | ⟨rfl, rfl⟩ | ⟨rfl, rfl⟩ := hp
    · exact (h.code p v hp i hi).imp_right (Or.imp_right (by omega))
    · refine ⟨fun hx => ?_, Or.inr (by omega)⟩
      have := hout _ hx
      omega
    · refine ⟨fun hx => ?_, Or.inr (by omega)⟩
      have := hout _ hx
      omega
  · dsimp only at hlow hhigh
    have := hout x hx
    omega

/-- The first instruction of `main`. -/
theorem Loaded.enter (h : Loaded P text M m top) (hroom : P.low + 24 ≤ top.toNat)
    (hent : text v Op.ent.code) (hk : text (v + 4) u) :
    Steps (startVm m top argc argv v a) ⟨v + 4 + 4, top - 24 - 4 * u, top - 24, a,
      saveFrame (pushAll m top [Op.exit.code, Op.psh.code, argc, argv]) (top - 16) (top - 8) top⟩ := by
  have hsub : (top - 16).toNat = top.toNat - 16 := toNat_sub_cells (n := 4) (by omega)
  have hagree := h.start argc argv hroom
  have hfits : Fits P (withExit text top) ⟨fun _ => ⟨.none, 0, 0⟩, 0, top - 8⟩ M.own (top - 16) :=
    h.fits (n := 0) hroom _ _ (Nat.zero_le 2)
  have hagree' := hagree.push hfits (by omega) (top - 8)
  have hagree'' := hagree'.push (hfits.push (by omega)) (by rw [toNat_sub_four (by omega)]; omega) top
  have hnext := next_ent (v := ⟨v, top - 16 - 4, top, a, storeInt
    (pushAll m top [Op.exit.code, Op.psh.code, argc, argv]) (top - 16 - 4) (top - 8)⟩)
    (hagree'.text _ _ (Or.inl hent)) (hagree''.text _ _ (Or.inl hk))
  have hret : top - 16 - 4 = top - 20 := sub_sub top 16 4
  have hbp : top - 16 - 8 = top - 24 := sub_sub top 16 8
  dsimp only at hnext
  rw [sub_four_four, hbp, hret] at hnext
  rw [startVm, startStack_eq, saveFrame, hbp, hret]
  exact .single hnext

/-- When `main` returns, its value is pushed and the run ends. -/
theorem Loaded.exit {w : Bytes} {M₁ : Store} (h : Loaded P text M m top)
    (hroom : P.low + 24 ≤ top.toNat) (hagree : Agrees (withExit text top) (M₁.leave M) w) :
    ∃ v', Steps ⟨top - 8, top - 16, top, r, w⟩ v' ∧ v'.step = .exit r ∧
      ∀ x ∈ M₁.init ∩ M.own, v'.mem x = M₁.bytes x := by
  have hsub : (top - 16).toNat = top.toNat - 16 := toNat_sub_cells (n := 4) (by omega)
  have hfits : Fits P (withExit text top) ⟨fun _ => ⟨.none, 0, 0⟩, 0, top - 8⟩ M.own (top - 16) :=
    h.fits (n := 0) hroom _ _ (Nat.zero_le 2)
  have hagree' : Agrees (withExit text top) (M₁.leave M) (storeInt w (top - 16 - 4) r) :=
    hagree.push hfits (by omega) r
  have hnext := next_psh (v := ⟨top - 8, top - 16, top, r, w⟩)
    (hagree.text _ _ (Or.inr (Or.inl ⟨rfl, rfl⟩)))
  refine ⟨_, .single hnext, ?_, hagree'.bytes⟩
  have hpc : top - 8 + 4 = top - 4 := by
    rw [← sub_four_four, pop_push]
  rw [step_exit]
  · exact congrArg Outcome.exit loadInt_storeInt
  · exact hagree'.text _ _ (Or.inr (Or.inr ⟨hpc, rfl⟩))

/-- A run of the program: the machine that `c4` starts exits with the value of `main`, and what the
program has written is there. -/
theorem runs_program {f : Function} {out : Ending} (h : Loaded P text M m top)
    (hmain : P.functions v = some f) (hparams : f.params ≤ 2)
    (hroom : P.low + 24 + 4 * f.locals ≤ top.toNat) (hout : out = .done ∨ out = .returned)
    (hbody : Runs P ⟨f.scope, f.loc, top - 24⟩ (top - 24 - 4 * BitVec.ofNat 32 f.locals)
      (.block f.body) (M.enter (top - 4 * BitVec.ofNat 32 (4 - f.params))
        (mainArgs argc argv f.params) f.locals) a out M₂ r) :
    ∃ v', Steps (startVm m top argc argv v a) v' ∧ v'.step = .exit r ∧
      ∀ x ∈ M₂.init ∩ M.own, v'.mem x = M₂.bytes x := by
  have hcode : ∀ v f, P.functions v = some f → Placed 4 (withExit text top) v (f.code v) :=
    fun v f hf => (h.functions v f hf).mono fun _ _ => Or.inl
  have hplaced := h.functions v f hmain
  rw [Function.code, append_assoc] at hplaced
  obtain ⟨henter, -⟩ := placed_seq.mp hplaced
  obtain ⟨hent, hk⟩ := placed_opWith.mp henter
  have hplaced' := hcode v f hmain
  rw [Function.code, append_assoc] at hplaced'
  obtain ⟨-, hpbody⟩ := placed_seq.mp hplaced'
  rw [stop_opWith] at hpbody
  -- Where `main` finds its arguments and its frame.
  have hlength := length_mainArgs argc argv hparams
  have hsp : (top - 4 * BitVec.ofNat 32 (4 - f.params)).toNat = top.toNat - 4 * (4 - f.params) :=
    toNat_sub_cells (by omega)
  have hcells : top - 4 * BitVec.ofNat 32 (4 - f.params) - 4 * BitVec.ofNat 32 f.params = top - 16 := by
    rw [sub_cells_add, Nat.sub_add_cancel (by omega)]
    rfl
  have hbp : top - 16 - 8 = top - 24 := sub_sub top 16 8
  have hfits := h.fits (by omega) f.scope f.loc hparams
  have hroom' : P.low + 4 * (mainArgs argc argv f.params).length + 8 + 4 * f.locals ≤
      (top - 4 * BitVec.ofNat 32 (4 - f.params)).toNat := by omega
  have hfits' := hfits.enter f.scope f.loc hroom'
  have hagree := (h.start argc argv (by omega)).enter (top - 8) top hfits hroom'
    (mainArgs_left argc argv hparams (by omega))
  rw [hlength, hcells] at hfits' hagree
  rw [hbp] at hfits'
  -- The run.
  obtain ⟨w, hsteps, hagree', hkept, -⟩ :=
    ((hbody.does hcode).body hout).run _ _ hpbody hfits' hagree
  obtain ⟨hsaved, hret⟩ := loadInt_saveFrame (p := top - 16)
    (w := pushAll m top [Op.exit.code, Op.psh.code, argc, argv]) (top - 8) top
    (by rw [← hcells, toNat_sub_cells (by omega)]; omega)
  have hback : top - 24 + 8 = top - 16 := by
    rw [← hbp, sub_add_cancel]
  rw [hbp] at hsaved hret
  rw [Ending.machine, hsaved, hret, hback] at hsteps
  obtain ⟨v', hsteps', hexit, hbytes⟩ := h.exit (r := r) (by omega) (hagree'.leave (M := M))
  exact ⟨v', (h.enter (by omega) hent hk).trans (hsteps.trans hsteps'), hexit, hbytes⟩

end Start

/-! The program `int main(int argc, char **argv) { return argc; }`. -/

/-- The function. -/
def returnArgc : Function := ⟨2, 0, fun _ => ⟨.loc, Ty.int, 0⟩, [.returnVal (.name 0)]⟩

/-- The program, with `main` at 4096 and the stack from 65536 on. -/
def returnArgcProgram : Program := ⟨fun v => if v = 4096 then some returnArgc else none, 65536⟩

/-- Its cells. -/
def returnArgcCells : List Word := returnArgc.code 4096

/-- The memory with the cells. -/
def returnArgcMemory : Bytes := pushAll (fun _ => 0) 4124 returnArgcCells.reverse

/-- Where they lie. -/
def returnArgcText (p v : Word) : Prop :=
  ∃ i < 7, p = 4096 + BitVec.ofNat 32 (4 * i) ∧ v = returnArgcCells.getD i 0

theorem returnArgc_loaded : Loaded returnArgcProgram returnArgcText ⟨fun _ => 0, ∅, ∅⟩
    returnArgcMemory 131072 := by
  refine ⟨⟨?_, fun x hx => hx.elim, fun x hx => hx.elim⟩, fun x hx => hx.elim, ?_, ?_⟩
  · rintro p v ⟨i, h, rfl, rfl⟩
    interval_cases i <;> decide
  · rintro p v ⟨i, h, rfl, rfl⟩ j hj
    refine ⟨fun hx => hx.elim, Or.inl ?_⟩
    rw [BitVec.toNat_add, BitVec.toNat_ofNat]
    change (4096 + (4 * i) % 2 ^ 32) % 2 ^ 32 + j < 65536
    omega
  · intro v f hf
    change (if v = 4096 then some returnArgc else none) = some f at hf
    split at hf
    next hv =>
      cases hf
      rw [hv]
      exact ⟨⟨0, by decide, rfl, rfl⟩, ⟨1, by decide, rfl, rfl⟩, ⟨2, by decide, rfl, rfl⟩,
        ⟨3, by decide, rfl, rfl⟩, ⟨4, by decide, rfl, rfl⟩, ⟨5, by decide, rfl, rfl⟩,
        ⟨6, by decide, rfl, rfl⟩, trivial⟩
    next => cases hf

theorem runs_program_returnArgc : ∃ v', Steps (startVm returnArgcMemory 131072 5 70000 4096 0) v' ∧
    v'.step = .exit 5 ∧ ∀ x ∈ (∅ : Set ℕ) ∩ ∅, v'.mem x = (0 : UInt8) := by
  have hparam : Runs returnArgcProgram ⟨returnArgc.scope, returnArgc.loc, 131072 - 24⟩
      (131072 - 24 - 4 * BitVec.ofNat 32 0) (.block returnArgc.body)
      (Store.enter ⟨fun _ => 0, ∅, ∅⟩ (131072 - 4 * BitVec.ofNat 32 2) (mainArgs 5 70000 2) 0) 0
      .returned (Store.enter ⟨fun _ => 0, ∅, ∅⟩ (131072 - 4 * BitVec.ofNat 32 2) (mainArgs 5 70000 2) 0)
      (loadInt (pushAll (fun _ => 0) 131064 [5, 70000]) 131060) := by
    refine .blockReturn (.returnVal (.load (show Class.loc ≠ Class.num by decide) (.local rfl) fun x hx => Or.inr ?_))
    exact ⟨le_trans (by decide) hx.1, lt_of_lt_of_le hx.2 (by decide)⟩
  have hvalue : loadInt (pushAll (fun _ => 0) 131064 [5, 70000]) 131060 = 5 := by decide
  rw [hvalue] at hparam
  have hmain : returnArgcProgram.functions 4096 = some returnArgc := rfl
  obtain ⟨v', hsteps, hexit, -⟩ := runs_program returnArgc_loaded hmain le_rfl (by decide)
    (Or.inr rfl) hparam
  exact ⟨v', hsteps, hexit, fun x hx => hx.1.elim⟩

end BochsOs.C4
