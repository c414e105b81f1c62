import BochsOs.C4.Pieces

/-!
# Calls

The code of a function, and the rules for the arguments of a call and for the call.  The frame of a
call lies below the stack of its caller: the arguments, the return address and the old `bp`, the
local variables.  Between `low` and `sp` there is nothing of the caller, so that the function may
use all of it (`Fits.enter`), and what the caller has is the same afterwards (`Kept.leave`).
-/

namespace BochsOs.C4

open ByteMemory Relocation Vm

/-- What `main` puts out for a function. -/
def Function.code (f : Function) : Piece :=
  .opWith .ent (BitVec.ofNat 32 f.locals) ++ codeBlock f.scope f.loc f.body ++ .op .lev

/-- The return address and the `bp` of the caller, below the arguments. -/
def saveFrame (w : Bytes) (p ret bp : Word) : Bytes := storeInt (storeInt w (p - 4) ret) (p - 8) bp

section Calls

variable {P : Program} {text : Word → Word → Prop} {F : Activation} {sp a b r u v : Word}
  {c d : Piece} {M M₁ M₂ : Store} {w w' : Bytes} {vs : List Word} {n k : ℕ} {out : Ending}

/-! ## Arguments -/

theorem Does.args_nil : Does P text F sp .nil M a (.pushed []) M a where
  own := rfl
  run p w hp hfits hagree := by
    obtain ⟨w', hsteps, hagree', hkept, -⟩ := (Does.nil (a := a)).run p w hp hfits hagree
    have hsp : sp - 4 * BitVec.ofNat 32 0 = sp := sub_zero sp
    refine ⟨w', ?_, hagree', hkept, hfits.low, fun m x hlow hhigh => absurd hhigh (not_lt.mpr hlow)⟩
    rw [Ending.machine, List.length_nil, hsp]
    exact hsteps

/-- What was pushed first lies above the rest. -/
theorem left_cons (hroom : P.low + 4 ≤ sp.toNat) (hv : loadInt w (sp - 4) = v)
    (hleft : (Ending.pushed vs).Left P (sp - 4) w) : (Ending.pushed (v :: vs)).Left P sp w := by
  obtain ⟨hlow, hpushed⟩ := hleft
  have hsub : (sp - 4).toNat = sp.toNat - 4 := toNat_sub_four (by omega)
  rw [hsub] at hlow hpushed
  refine ⟨by rw [List.length_cons]; omega, fun m x hx hx' => ?_⟩
  rw [List.length_cons] at hx
  rw [pushAll]
  by_cases htop : x < sp.toNat - 4
  · exact hpushed _ x (by omega) htop
  · rw [pushAll_outside (by omega) (by omega), ← storeInt_self hv]
    exact storeInt_inside (by omega) (by omega)

/-- An argument and those that follow it. -/
theorem Does.args_cons (hroom : P.low + 4 ≤ sp.toNat) (h : Does P text F sp c M a .done M₁ v)
    (h' : Does P text F (sp - 4) d M₁ v (.pushed vs) M₂ b) :
    Does P text F sp (c ++ .op .psh ++ d) M a (.pushed (v :: vs)) M₂ b where
  own := h'.own.trans h.own
  run p w hp hfits hagree := by
    have hover := h.over (DoesOver.psh hroom)
    obtain ⟨hpc, hpd⟩ := placed_seq.mp hp
    obtain ⟨w₁, hsteps, hagree₁, hkept, hv⟩ := hover.run p w hpc hfits hagree
    have hfits' := hfits.push hroom
    rw [← h.own] at hfits'
    obtain ⟨w₂, hsteps', hagree₂, hkept', hleft⟩ := h'.run _ w₁ hpd hfits' hagree₁
    rw [h.own] at hkept'
    rw [Ending.machine, sub_cells_succ] at hsteps'
    rw [stop_append]
    exact ⟨w₂, hsteps.trans hsteps', hagree₂, hkept.trans (hkept'.pop hroom),
      left_cons hroom ((hkept'.pushed hfits hroom).trans hv) hleft⟩

/-! ## Frames -/

theorem toNat_frame (h : 4 * n + 8 ≤ sp.toNat) :
    (sp - 4 * BitVec.ofNat 32 n - 8).toNat = sp.toNat - 4 * n - 8 := by
  have hcells : (sp - 4 * BitVec.ofNat 32 n).toNat = sp.toNat - 4 * n := toNat_sub_cells (by omega)
  have := (sp - 4 * BitVec.ofNat 32 n).isLt
  rw [BitVec.toNat_sub]
  change (2 ^ 32 - 8 + _) % 2 ^ 32 = _
  omega

theorem toNat_locals (sp : Word) (n k : ℕ) (h : 4 * n + 8 + 4 * k ≤ sp.toNat) :
    (sp - 4 * BitVec.ofNat 32 n - 8 - 4 * BitVec.ofNat 32 k).toNat = sp.toNat - 4 * n - 8 - 4 * k := by
  have hframe : (sp - 4 * BitVec.ofNat 32 n - 8).toNat = sp.toNat - 4 * n - 8 :=
    toNat_frame (by omega)
  rw [toNat_sub_cells (by omega), hframe]

/-- What the caller has is not in the frame. -/
theorem not_mem_enter (hroom : P.low + 4 * vs.length + 8 + 4 * k ≤ sp.toNat) {x : ℕ} (hx : x ∉ M.own)
    (hout : Outside P sp x) : x ∉ (M.enter sp vs k).own := by
  rintro ((hown | hparam) | hlocal)
  · exact hx hown
  · rw [Store.paramsAt, mem_between] at hparam
    unfold Outside at hout
    omega
  · rw [Store.localsAt, mem_between] at hlocal
    unfold Outside at hout
    omega

/-- A function fits below its caller. -/
theorem Fits.enter (Γ : Scope) (loc : Word) (h : Fits P text F M.own sp)
    (hroom : P.low + 4 * vs.length + 8 + 4 * k ≤ sp.toNat) :
    Fits P text ⟨Γ, loc, sp - 4 * BitVec.ofNat 32 vs.length - 8⟩ (M.enter sp vs k).own
      (sp - 4 * BitVec.ofNat 32 vs.length - 8 - 4 * BitVec.ofNat 32 k) := by
  have hframe : (sp - 4 * BitVec.ofNat 32 vs.length - 8).toNat = sp.toNat - 4 * vs.length - 8 :=
    toNat_frame (by omega)
  have hlocals := toNat_locals sp vs.length k (by omega)
  have := sp.isLt
  refine ⟨by omega, fun x hx => ?_, fun p v hp i hi => ⟨?_, ?_⟩, ?_, ?_, fun x hlow hhigh => ?_⟩
  · unfold Outside
    rw [hlocals]
    obtain (hown | hparam) | hlocal := hx
    · have := h.apart x hown
      unfold Outside at this
      omega
    · rw [Store.paramsAt, mem_between] at hparam
      omega
    · rw [Store.localsAt, mem_between] at hlocal
      omega
  · exact not_mem_enter hroom (h.code p v hp i hi).1 (h.code p v hp i hi).2
  · exact outside_lower (by omega) (h.code p v hp i hi).2
  · dsimp only
    omega
  · dsimp only
    omega
  · dsimp only at hlow hhigh
    rw [hframe] at hlow hhigh
    rintro ((hown | hparam) | hlocal)
    · have := h.apart x hown
      unfold Outside at this
      omega
    · rw [Store.paramsAt, mem_between] at hparam
      omega
    · rw [Store.localsAt, mem_between] at hlocal
      omega

/-- The saved registers lie between the arguments and the local variables. -/
theorem saveFrame_outside {p ret bp : Word} {x : ℕ} (hroom : 8 ≤ p.toNat)
    (hx : x < p.toNat - 8 ∨ p.toNat ≤ x) : saveFrame w p ret bp x = w x := by
  have hsub : (p - 4).toNat = p.toNat - 4 := toNat_sub_four (by omega)
  have hsub' : (p - 8).toNat = p.toNat - 8 := by
    have := p.isLt
    rw [BitVec.toNat_sub]
    change (2 ^ 32 - 8 + p.toNat) % 2 ^ 32 = _
    omega
  unfold saveFrame
  rw [storeInt_outside (by omega), storeInt_outside (by omega)]

/-- The memory at the beginning of a function. -/
theorem Agrees.enter (r q : Word) (h : Agrees text M w) (hfits : Fits P text F M.own sp)
    (hroom : P.low + 4 * vs.length + 8 + 4 * k ≤ sp.toNat) (hleft : (Ending.pushed vs).Left P sp w) :
    Agrees text (M.enter sp vs k) (saveFrame w (sp - 4 * BitVec.ofNat 32 vs.length) r q) := by
  have hcells : (sp - 4 * BitVec.ofNat 32 vs.length).toNat = sp.toNat - 4 * vs.length :=
    toNat_sub_cells (by omega)
  have hsame : ∀ x, x < sp.toNat - 4 * vs.length - 8 ∨ sp.toNat - 4 * vs.length ≤ x →
      saveFrame w (sp - 4 * BitVec.ofNat 32 vs.length) r q x = w x := fun x hx =>
    saveFrame_outside (by omega) (by omega)
  refine ⟨fun p v hp => ?_, fun x hx => ?_, ?_⟩
  · rw [← h.text p v hp]
    refine loadInt_congr fun i hi => hsame _ ?_
    have := (hfits.code p v hp i hi).2
    unfold Outside at this
    omega
  · obtain hx | hx := hx
    · have hout := hfits.apart x (h.initOwn hx)
      unfold Outside at hout
      rw [hsame x (by omega), h.bytes x hx]
      exact (pushAll_outside (by omega) (by omega)).symm
    · rw [Store.paramsAt, mem_between] at hx
      rw [hsame x (by omega)]
      exact hleft.2 _ x hx.1 hx.2
  · rintro x (hx | hx)
    · exact Or.inl (Or.inl (h.initOwn hx))
    · exact Or.inl (Or.inr hx)

/-- What the caller has is the same after the call. -/
theorem Kept.leave (hroom : P.low + 4 * vs.length + 8 + 4 * k ≤ sp.toNat)
    (h : Kept P (M.enter sp vs k).own
      (sp - 4 * BitVec.ofNat 32 vs.length - 8 - 4 * BitVec.ofNat 32 k) w w') :
    Kept P M.own sp w w' := fun x hx hout => by
  have hlocals := toNat_locals sp vs.length k (by omega)
  exact h x (not_mem_enter hroom hx hout) (outside_lower (by omega) hout)

/-- The caller has its memory back. -/
theorem Agrees.leave (h : Agrees text M₁ w) : Agrees text (M₁.leave M) w where
  text := h.text
  bytes x hx := h.bytes x hx.1
  initOwn := Set.inter_subset_right

/-! ## Calls -/

theorem sub_four_four (p : Word) : p - 4 - 4 = p - 8 := by
  rw [sub_sub]
  rfl

theorem toNat_sub_eight {p : Word} (h : 8 ≤ p.toNat) : (p - 8).toNat = p.toNat - 8 := by
  have hsub : (p - 4).toNat = p.toNat - 4 := toNat_sub_four (by omega)
  rw [← sub_four_four, toNat_sub_four (by omega)]
  omega

/-- The saved registers. -/
theorem loadInt_saveFrame {p : Word} (r q : Word) (hroom : 8 ≤ p.toNat) :
    loadInt (saveFrame w p r q) (p - 8) = q ∧
      loadInt (saveFrame w p r q) (p - 8 + 4) = r := by
  have hsub : (p - 4).toNat = p.toNat - 4 := toNat_sub_four (by omega)
  have hsub' := toNat_sub_eight hroom
  refine ⟨loadInt_storeInt, ?_⟩
  rw [← sub_four_four, pop_push, saveFrame, ← sub_four_four]
  refine (loadInt_congr fun i hi => storeInt_outside ?_).trans loadInt_storeInt
  rw [sub_four_four]
  omega

/-- `JSR` and `ENT`. -/
theorem steps_enter {q b : Word} (hagree : Agrees text M w) (hfits : Fits P text F M.own sp)
    (hroom : P.low + 8 ≤ sp.toNat) (hjsr : text q Op.jsr.code) (hto : text (q + 4) v)
    (hent : text v Op.ent.code) (hk : text (v + 4) u) :
    Steps ⟨q, sp, b, a, w⟩
      ⟨v + 4 + 4, sp - 8 - 4 * u, sp - 8, a, saveFrame w sp (q + 4 + 4) b⟩ := by
  have hsub : (sp - 4).toNat = sp.toNat - 4 := toNat_sub_four (by omega)
  have hagree' := hagree.push hfits (by omega) (q + 4 + 4)
  have hfits' := hfits.push (by omega)
  have hagree'' := hagree'.push hfits' (by omega) b
  have hnext := next_jsr (v := ⟨q, sp, b, a, w⟩) (hagree.text _ _ hjsr) (hagree'.text _ _ hto)
  have hnext' := next_ent (v := ⟨v, sp - 4, b, a, storeInt w (sp - 4) (q + 4 + 4)⟩)
    (hagree'.text _ _ hent) (hagree''.text _ _ hk)
  dsimp only at hnext hnext'
  rw [sub_four_four] at hnext'
  exact (Relation.ReflTransGen.single hnext).tail hnext'

/-- The body of a function, up to its `LEV`. -/
theorem Does.body (hout : out = .done ∨ out = .returned) (h : Does P text F sp c M a out M₁ r) :
    Does P text F sp (c ++ .op .lev) M a .returned M₁ r := by
  obtain rfl | rfl := hout
  · exact h.seq .lev
  · exact h.returned_seq

/-- `ADJ` takes the arguments from the stack. -/
theorem steps_adj {q b s : Word} (hagree : Agrees text M w)
    (hadj : Placed 4 text q ((if n = 0 then Piece.nil else .opWith .adj (BitVec.ofNat 32 n)) q)) :
    Steps ⟨q, s - 4 * BitVec.ofNat 32 n, b, a, w⟩
      ⟨(if n = 0 then Piece.nil else .opWith .adj (BitVec.ofNat 32 n)).stop 4 q, s, b, a, w⟩ := by
  split at hadj
  next hn =>
    subst hn
    have hstop : Code.stop 4 Piece.nil q = q := stop_nil q
    have hsp : s - 4 * BitVec.ofNat 32 0 = s := sub_zero s
    rw [if_pos rfl, hstop, hsp]
  next hn =>
    obtain ⟨hop, harg⟩ := placed_opWith.mp hadj
    have hnext := next_adj (v := ⟨q, s - 4 * BitVec.ofNat 32 n, b, a, w⟩) (hagree.text _ _ hop)
      (hagree.text _ _ harg)
    dsimp only at hnext
    rw [add_sub_cells] at hnext
    rw [if_neg hn, stop_opWith]
    exact .single hnext

/-- A call: the arguments, the body of the function and the way back. -/
theorem Does.call {f : Function} (hn : vs.length = n) (hcode : Placed 4 text v (f.code v))
    (hroom : P.low + 4 * n + 8 + 4 * f.locals ≤ sp.toNat) (hout : out = .done ∨ out = .returned)
    (hargs : Does P text F sp c M a (.pushed vs) M₁ b)
    (hbody : Does P text ⟨f.scope, f.loc, sp - 4 * BitVec.ofNat 32 n - 8⟩
      (sp - 4 * BitVec.ofNat 32 n - 8 - 4 * BitVec.ofNat 32 f.locals) (codeBlock f.scope f.loc f.body)
      (M₁.enter sp vs f.locals) b out M₂ r) :
    Does P text F sp
      (c ++ .opWith .jsr v ++ if n = 0 then .nil else .opWith .adj (BitVec.ofNat 32 n))
      M a .done (M₂.leave M₁) r where
  own := hargs.own
  run p w hp hfits hagree := by
    subst hn
    obtain ⟨hpcj, hpadj⟩ := placed_seq.mp hp
    obtain ⟨hpc, hpj⟩ := placed_seq.mp hpcj
    obtain ⟨hjsr, hto⟩ := placed_opWith.mp hpj
    rw [Function.code, append_assoc] at hcode
    obtain ⟨henter, hpbody⟩ := placed_seq.mp hcode
    obtain ⟨hent, hk⟩ := placed_opWith.mp henter
    rw [stop_opWith] at hpbody
    -- The arguments.
    obtain ⟨w₁, hsteps₁, hagree₁, hkept₁, hleft⟩ := hargs.run p w hpc hfits hagree
    have hfits₁ := hfits
    rw [← hargs.own] at hfits₁ hkept₁
    have hcells : (sp - 4 * BitVec.ofNat 32 vs.length).toNat = sp.toNat - 4 * vs.length :=
      toNat_sub_cells (by omega)
    -- The way into the function.
    have hlower : Fits P text F M₁.own (sp - 4 * BitVec.ofNat 32 vs.length) :=
      hfits₁.lower (by omega) (by omega)
    have hsteps₂ := steps_enter (a := b) (q := Code.stop 4 c p) (b := F.bp) hagree₁ hlower (by omega)
      hjsr hto hent hk
    have hagree₂ := hagree₁.enter (Code.stop 4 c p + 4 + 4) F.bp hfits₁ hroom hleft
    have hfits₂ := hfits₁.enter f.scope f.loc hroom
    -- The body, and the way back.
    obtain ⟨w₃, hsteps₃, hagree₃, hkept₃, -⟩ := (hbody.body hout).run _ _ hpbody hfits₂ hagree₂
    obtain ⟨hbp, hret⟩ := loadInt_saveFrame (w := w₁) (p := sp - 4 * BitVec.ofNat 32 vs.length)
      (Code.stop 4 c p + 4 + 4) F.bp (by omega)
    rw [Ending.machine, hbp, hret, sub_add_cancel] at hsteps₃
    have hsteps₄ := steps_adj (s := sp) (a := r) (b := F.bp) hagree₃ hpadj
    rw [stop_append p, stop_opWith] at hsteps₄
    have hsave : Kept P M₁.own sp w₁
        (saveFrame w₁ (sp - 4 * BitVec.ofNat 32 vs.length) (Code.stop 4 c p + 4 + 4) F.bp) := by
      intro x _ hx
      unfold Outside at hx
      exact saveFrame_outside (by omega) (by omega)
    have hkept : Kept P M₁.own sp w w₃ := hkept₁.trans (hsave.trans (hkept₃.leave hroom))
    rw [hargs.own] at hkept
    refine ⟨w₃, ?_, hagree₃.leave, hkept, trivial⟩
    rw [stop_append p, stop_append p, stop_opWith]
    exact hsteps₁.trans (hsteps₂.trans (hsteps₃.trans hsteps₄))

end Calls

end BochsOs.C4
