import BochsOs.Library.Numerals
import BochsOs.Lib.Stdio

/-!
# What the formatted output says

`itoa` appends the numeral of its argument (`itoa_numeral`), and so `%d` prints every `int` as a
decimal number (`putDecimal_prints`); the smallest `int` is its own negative, and `itoa` reads it as
the number `2^31`.

A format is a list of `Piece`s with their arguments, and `render` is what it should print.  The
pieces come out right, but `vsprintf` never stores the zero behind them.  The string has an end only
where `strcpy` has just put one or where the buffer had a zero already
(`sprintf_renders_iff`).
-/

namespace BochsOs.Stdio

open ByteMemory Bytewise Numerals

/-! ## The specification -/

/-- The value of a digit `0`-`9` or `a`-`z`. -/
def digitVal (c : UInt8) : ℕ := if c.toNat < 97 then c.toNat - 48 else c.toNat - 97 + 10

/-- A character out of `0`-`9` or `a`-`z`. -/
def IsDigit (c : UInt8) : Prop := (48 ≤ c.toNat ∧ c.toNat ≤ 57) ∨ (97 ≤ c.toNat ∧ c.toNat ≤ 122)

/-- The string `s` is a numeral of `value`. -/
structure IsNumeral (base value : ℕ) (s : List UInt8) : Prop where
  nonempty : s ≠ []
  digits : ∀ c ∈ s, IsDigit c ∧ digitVal c < base
  noZeros : s.head? = some 48 → s = [48]
  value : valueOf base (s.map digitVal) = value

/-- The string `s` is a decimal number with the value `z`. -/
inductive IsDecimal : ℤ → List UInt8 → Prop where
  | nonneg {n : ℕ} {s : List UInt8} : IsNumeral 10 n s → IsDecimal n s
  | neg {n : ℕ} {s : List UInt8} : 0 < n → IsNumeral 10 n s → IsDecimal (-n) (minus :: s)

/-- The word that holds an `int`. -/
def wordOf (z : ℤ) : ℕ := (z % 2 ^ 32).toNat

/-- The digits of `value` as characters. -/
def numeralStr (base value : ℕ) : List UInt8 := (numeral base value).map digitChar

/-- A decimal number. -/
def decimalStr (z : ℤ) : List UInt8 :=
  if z < 0 then minus :: numeralStr 10 z.natAbs else numeralStr 10 z.natAbs

/-- A character of a format or a conversion with its argument. -/
inductive Piece where
  | lit (c : UInt8)
  /-- `%x` -/
  | hex (word : ℕ)
  /-- `%d` -/
  | dec (z : ℤ)
  /-- `%c` -/
  | chr (c : UInt8)
  /-- `%s` -/
  | str (s : List UInt8)

namespace Piece

/-- The characters in the format. -/
def format : Piece → List UInt8
  | lit c => [c]
  | hex _ => [percent, 120]
  | dec _ => [percent, 100]
  | chr _ => [percent, 99]
  | str _ => [percent, 115]

/-- The argument, if there is one. -/
def args : Piece → List Arg
  | lit _ => []
  | hex word => [.int word]
  | dec z => [.int (wordOf z)]
  | chr c => [.char c]
  | str s => [.str (some s)]

/-- What should be printed. -/
def render : Piece → List UInt8
  | lit c => [c]
  | hex word => numeralStr 16 word
  | dec z => decimalStr z
  | chr c => [c]
  | str s => s

/-- An ordinary character, a 32-bit number, a character or a string. -/
def Ok : Piece → Prop
  | lit c => c ≠ 0 ∧ c ≠ percent
  | hex word => word < 2 ^ 32
  | dec z => -2 ^ 31 ≤ z ∧ z < 2 ^ 31
  | chr c => c ≠ 0
  | str s => (0 : UInt8) ∉ s

/-- A conversion `%s`. -/
def IsStr : Piece → Prop
  | str _ => True
  | _ => False

end Piece

/-- The format of a list of pieces. -/
def formatOf (ps : List Piece) : List UInt8 := ps.flatMap Piece.format

/-- Its arguments. -/
def argsOf (ps : List Piece) : List Arg := ps.flatMap Piece.args

/-- Its reference rendering. -/
def renderOf (ps : List Piece) : List UInt8 := ps.flatMap Piece.render

/-! ## Digits -/

section Digits

variable {base value fuel d : ℕ} {o : Out}

theorem toNat_digitChar (hd : d < 36) :
    (digitChar d).toNat = if d < 10 then d + 48 else d - 10 + 97 := by
  rw [digitChar]
  split_ifs with hten
  · exact UInt8.toNat_ofNat_of_lt' (show d + 48 < 256 by omega)
  · exact UInt8.toNat_ofNat_of_lt' (show d - 10 + 97 < 256 by omega)

theorem isDigit_digitChar (hd : d < 36) : IsDigit (digitChar d) := by
  rw [IsDigit, toNat_digitChar hd]
  split_ifs
  · exact Or.inl (by omega)
  · exact Or.inr (by omega)

theorem digitVal_digitChar (hd : d < 36) : digitVal (digitChar d) = d := by
  rw [digitVal, toNat_digitChar hd]
  split_ifs <;> omega

theorem IsDigit.ne_zero {c : UInt8} (hc : IsDigit c) : c ≠ 0 := by
  rintro rfl
  rcases hc with ⟨h, -⟩ | ⟨h, -⟩ <;> exact absurd h (by decide)

theorem isNumeral_numeralStr (hbase : 2 ≤ base) (hmax : base ≤ 36) :
    IsNumeral base value (numeralStr base value) := by
  have hlt : ∀ d ∈ numeral base value, d < 36 := fun d hd => (lt_of_mem_numeral hbase hd).trans_le hmax
  refine ⟨?_, ?_, ?_, ?_⟩
  · rw [numeralStr, ne_eq, List.map_eq_nil_iff]
    exact numeral_ne_nil
  · intro c hc
    obtain ⟨d, hd, rfl⟩ := List.mem_map.mp hc
    rw [digitVal_digitChar (hlt d hd)]
    exact ⟨isDigit_digitChar (hlt d hd), lt_of_mem_numeral hbase hd⟩
  · intro hhead
    rw [numeralStr, List.head?_map] at hhead
    obtain ⟨d, hd, hzero⟩ := Option.map_eq_some_iff.mp hhead
    have hval := digitVal_digitChar (hlt d (List.mem_of_mem_head? hd))
    rw [hzero] at hval
    rw [show d = 0 from hval.symm.trans (by decide)] at hd
    rw [numeralStr, eq_of_head_numeral hd]
    decide
  · rw [numeralStr, List.map_map]
    have hid : (numeral base value).map (digitVal ∘ digitChar) = (numeral base value).map id :=
      List.map_congr_left fun d hd => digitVal_digitChar (hlt d hd)
    rw [hid, List.map_id, valueOf_numeral]

@[simp] theorem Out.append_nil (o : Out) : o.append [] = o := rfl

theorem Out.append_append (o : Out) (s s' : List UInt8) :
    (o.append s).append s' = o.append (s ++ s') := by
  rw [Out.append, Out.append, Out.append, store_append, List.length_append, Nat.add_assoc]

theorem Out.put_eq (o : Out) (c : UInt8) : o.put c = o.append [c] := rfl

/-- The recursion stops when the quotient is zero; each call takes one digit off. -/
theorem itoaRec_numeral (hbase : 2 ≤ base) (hvalue : value < base ^ (fuel + 1)) :
    itoaRec base (fuel + 1) value o = some (o.append (numeralStr base value)) := by
  induction fuel generalizing value with
  | zero =>
      rw [Nat.zero_add, pow_one] at hvalue
      rw [itoaRec]
      rw [if_neg (by rw [Nat.div_eq_of_lt hvalue]; exact fun h => h rfl), Nat.mod_eq_of_lt hvalue,
        numeralStr, numeral_of_lt hvalue, Out.put_eq]
      rfl
  | succ fuel ih =>
      rw [itoaRec]
      rcases Nat.lt_or_ge value base with hlt | hge
      · rw [if_neg (by rw [Nat.div_eq_of_lt hlt]; exact fun h => h rfl), Nat.mod_eq_of_lt hlt,
          numeralStr, numeral_of_lt hlt, Out.put_eq]
        rfl
      · have hdiv : value / base < base ^ (fuel + 1) := by
          rw [Nat.div_lt_iff_lt_mul (by omega), ← pow_succ]
          exact hvalue
        rw [if_pos (Nat.div_pos hge (by omega)).ne', ih hdiv, Option.map_some, Out.put_eq,
          Out.append_append, numeralStr, numeralStr, numeral_of_le hbase hge, List.map_append]
        rfl

theorem itoa_eq (hbase : 2 ≤ base) (hvalue : value < 2 ^ 32) :
    itoa value base o = some (o.append (numeralStr base value)) :=
  itoaRec_numeral hbase (hvalue.trans_le (Nat.pow_le_pow_left hbase 32))

end Digits

/-! ## `%d` -/

section Decimal

variable {z : ℤ} {o : Out}

theorem isDecimal_decimalStr (z : ℤ) : IsDecimal z (decimalStr z) := by
  rw [decimalStr]
  split_ifs with hneg
  · have h := IsDecimal.neg (n := z.natAbs) (by omega)
      (isNumeral_numeralStr (by omega) (by omega) : IsNumeral 10 z.natAbs (numeralStr 10 z.natAbs))
    rwa [show (-(z.natAbs : ℤ)) = z by omega] at h
  · have h := IsDecimal.nonneg
      (isNumeral_numeralStr (by omega) (by omega) : IsNumeral 10 z.natAbs (numeralStr 10 z.natAbs))
    rwa [show (z.natAbs : ℤ) = z by omega] at h

/-- For `-2^31` the subtraction wraps around to the same word, which `itoa` takes as `2^31`. -/
theorem putInt_eq (hlow : -2 ^ 31 ≤ z) (hhigh : z < 2 ^ 31) :
    putInt (wordOf z) o = some (o.append (decimalStr z)) := by
  rw [putInt, decimalStr]
  have hword : wordOf z = if z < 0 then 2 ^ 32 - z.natAbs else z.natAbs := by
    rw [wordOf]
    split_ifs <;> omega
  split_ifs at hword ⊢ with hneg hbig hbig
  · have hsub : subU32 0 (wordOf z) = z.natAbs := by
      rw [hword, subU32, if_neg (by omega)]
      omega
    rw [hsub, itoa_eq (by omega) (by omega), Out.put_eq, Out.append_append]
    rfl
  · omega
  · omega
  · rw [hword, itoa_eq (by omega) (by omega)]

/-- One `%d` of a format. -/
theorem vsprintfLoop_dec {size : ℕ} {format : List UInt8} {args : List Arg} (hlow : -2 ^ 31 ≤ z)
    (hhigh : z < 2 ^ 31) :
    vsprintfLoop size (percent :: 100 :: format) (.int (wordOf z) :: args) o =
      vsprintfLoop size format args (o.append (decimalStr z)) := by
  rw [vsprintfLoop, if_neg (fun h => h rfl),
    if_neg (by decide), if_pos rfl, putInt_eq hlow hhigh, Option.bind_some]

end Decimal

/-- `itoa` appends a numeral of its argument, and `%d` a decimal number with the value of its. -/
theorem itoa_numeral :
    (∀ value base (o : Out), value < 2 ^ 32 → 2 ≤ base → base ≤ 36 →
      ∃ s, itoa value base o = some (o.append s) ∧ IsNumeral base value s) ∧
    ∀ (z : ℤ), -2 ^ 31 ≤ z → z < 2 ^ 31 → ∃ s, IsDecimal z s ∧
      ∀ size format args (o : Out),
        vsprintfLoop size (percent :: 100 :: format) (.int (wordOf z) :: args) o =
          vsprintfLoop size format args (o.append s) := by
  refine ⟨fun value base o hvalue hlow hhigh => ?_, fun z hlow hhigh => ?_⟩
  · exact ⟨numeralStr base value, itoa_eq hlow hvalue, isNumeral_numeralStr hlow hhigh⟩
  · exact ⟨decimalStr z, isDecimal_decimalStr z, fun size format args o =>
      vsprintfLoop_dec hlow hhigh⟩

/-- `-2147483648`. -/
theorem itoa_numeral_min : ∃ s, IsDecimal (-2 ^ 31) s ∧ ∀ size format args (o : Out),
    vsprintfLoop size (percent :: 100 :: format) (.int (2 ^ 31) :: args) o =
      vsprintfLoop size format args (o.append s) :=
  itoa_numeral.2 (-2 ^ 31) (by decide) (by decide)

/-! ## Whole formats -/

/-- The buffer after one piece. -/
def Piece.out : Piece → Out → Out
  | .str s, o => o.copyStr s
  | p, o => o.append p.render

/-- The buffer after all of them. -/
def outOf (ps : List Piece) (o : Out) : Out := ps.foldl (fun o p => p.out o) o

section Formats

variable {size : ℕ} {format : List UInt8} {args : List Arg} {o : Out} {ps : List Piece} {p : Piece}

theorem vsprintfLoop_piece (hp : p.Ok) :
    vsprintfLoop size (p.format ++ format) (p.args ++ args) o =
      vsprintfLoop size format args (p.out o) := by
  cases p with
  | lit c =>
      show vsprintfLoop size (c :: format) args o = _
      rw [vsprintfLoop.eq_def]
      dsimp only
      rw [if_pos hp.2]
      rfl
  | hex word =>
      show vsprintfLoop size (percent :: 120 :: format) (.int word :: args) o = _
      rw [vsprintfLoop, if_neg (fun h => h rfl), if_pos rfl, itoa_eq (by omega) hp, Option.bind_some]
      rfl
  | dec z => exact vsprintfLoop_dec hp.1 hp.2
  | chr c =>
      show vsprintfLoop size (percent :: 99 :: format) (.char c :: args) o = _
      rw [vsprintfLoop, if_neg (fun h => h rfl), if_neg (by decide), if_neg (by decide), if_pos rfl]
      rfl
  | str s =>
      show vsprintfLoop size (percent :: 115 :: format) (.str (some s) :: args) o = _
      rw [vsprintfLoop, if_neg (fun h => h rfl), if_neg (by decide), if_neg (by decide),
        if_neg (by decide), if_pos rfl]
      rfl

theorem vsprintfLoop_pieces (hps : ∀ p ∈ ps, p.Ok) :
    vsprintfLoop size (formatOf ps) (argsOf ps) o =
      (strlen (outOf ps o).mem size 0).map fun n => ((outOf ps o).mem, n) := by
  induction ps generalizing o with
  | nil => rfl
  | cons p ps ih =>
      rw [List.forall_mem_cons] at hps
      rw [formatOf, argsOf, List.flatMap_cons, List.flatMap_cons, vsprintfLoop_piece hps.1]
      exact ih hps.2

theorem outOf_snoc (ps : List Piece) (p : Piece) (o : Out) :
    outOf (ps ++ [p]) o = p.out (outOf ps o) := by
  rw [outOf, List.foldl_append]
  rfl

theorem renderOf_snoc (ps : List Piece) (p : Piece) :
    renderOf (ps ++ [p]) = renderOf ps ++ p.render := by
  rw [renderOf, List.flatMap_append, List.flatMap_cons, List.flatMap_nil, List.append_nil]
  rfl

theorem decimalStr_ne_nil (z : ℤ) : decimalStr z ≠ [] := by
  rw [decimalStr]
  split_ifs
  · exact List.cons_ne_nil _ _
  · exact (isNumeral_numeralStr (by omega) (by omega)).nonempty

theorem Piece.render_ne_nil (hp : ¬p.IsStr) : p.render ≠ [] := by
  cases p with
  | lit c => exact List.cons_ne_nil c []
  | hex word => exact (isNumeral_numeralStr (by omega) (by omega)).nonempty
  | dec z => exact decimalStr_ne_nil z
  | chr c => exact List.cons_ne_nil c []
  | str s => exact absurd trivial hp

theorem Piece.out_of_not_isStr (hp : ¬p.IsStr) (o : Out) : p.out o = o.append p.render := by
  cases p with
  | str s => exact absurd trivial hp
  | _ => rfl

theorem Piece.eq_str (hp : p.IsStr) : ∃ s, p = .str s := by
  cases p with
  | str s => exact ⟨s, rfl⟩
  | _ => exact absurd hp id

theorem zero_not_mem_numeralStr {base value : ℕ} (hbase : 2 ≤ base) (hmax : base ≤ 36) :
    (0 : UInt8) ∉ numeralStr base value := by
  intro hmem
  exact ((isNumeral_numeralStr hbase hmax).digits 0 hmem).1.ne_zero rfl

theorem Piece.zero_not_mem_render (hp : p.Ok) : (0 : UInt8) ∉ p.render := by
  cases p with
  | lit c => exact fun hmem => hp.1 (List.mem_singleton.mp hmem).symm
  | hex word => exact zero_not_mem_numeralStr (by omega) (by omega)
  | dec z =>
      have hdigits : (0 : UInt8) ∉ numeralStr 10 z.natAbs :=
        zero_not_mem_numeralStr (by omega) (by omega)
      show (0 : UInt8) ∉ decimalStr z
      rw [decimalStr]
      split_ifs
      · rw [List.mem_cons, not_or]
        exact ⟨by decide, hdigits⟩
      · exact hdigits
  | chr c => exact fun hmem => hp (List.mem_singleton.mp hmem).symm
  | str s => exact hp

theorem zero_not_mem_renderOf (hps : ∀ p ∈ ps, p.Ok) : (0 : UInt8) ∉ renderOf ps := by
  intro hmem
  obtain ⟨p, hp, hin⟩ := List.mem_flatMap.mp hmem
  exact Piece.zero_not_mem_render (hps p hp) hin

/-- The last piece is a `%s`. -/
def EndsInStr (ps : List Piece) : Prop := ∃ p, ps.getLast? = some p ∧ p.IsStr

theorem endsInStr_snoc : EndsInStr (ps ++ [p]) ↔ p.IsStr := by
  rw [EndsInStr, List.getLast?_concat]
  constructor
  · rintro ⟨q, hq, hstr⟩
    rwa [Option.some_inj.mp hq]
  · exact fun hstr => ⟨p, rfl, hstr⟩

/-- The buffer after some pieces: the rendering, with the old bytes behind it, except that the byte
next to it may be the zero of a `strcpy`. -/
structure Printed (buf : Bytes) (ps : List Piece) (o : Out) : Prop where
  bp : o.bp = (renderOf ps).length
  mem : ∀ x, x ≠ o.bp → o.mem x = store buf 0 (renderOf ps) x
  last : EndsInStr ps → o.mem o.bp = 0
  old : ¬EndsInStr ps → o.mem o.bp = buf o.bp

/-- Characters put over the byte next to the rendering hide what it was. -/
theorem Printed.append {buf : Bytes} {s : List UInt8} (h : Printed buf ps o) (x : ℕ)
    (hx : x ≠ o.bp ∨ s ≠ []) :
    store o.mem o.bp s x = store buf 0 (renderOf ps ++ s) x := by
  rw [store_append, Nat.zero_add, ← h.bp]
  rcases Nat.lt_or_ge x o.bp with hlow | hge
  · rw [store_outside (Or.inl hlow), store_outside (Or.inl hlow), h.mem x hlow.ne]
  · rcases Nat.lt_or_ge x (o.bp + s.length) with hin | hout
    · obtain ⟨i, rfl⟩ := Nat.exists_eq_add_of_le hge
      rw [store_inside (by omega), store_inside (by omega)]
    · have hne : x ≠ o.bp := by
        rcases hx with hne | hs
        · exact hne
        · have := List.length_pos_of_ne_nil hs
          omega
      rw [store_outside (Or.inr hout), store_outside (Or.inr hout), h.mem x hne]

theorem Printed.out {buf : Bytes} (h : Printed buf ps o) (p : Piece) :
    Printed buf (ps ++ [p]) (p.out o) := by
  have hlen : (renderOf (ps ++ [p])).length = o.bp + p.render.length := by
    rw [renderOf_snoc, List.length_append, h.bp]
  by_cases hp : p.IsStr
  · obtain ⟨s, rfl⟩ := Piece.eq_str hp
    refine ⟨hlen.symm, fun x hx => ?_, fun _ => ?_, fun hne => absurd (endsInStr_snoc.mpr hp) hne⟩
    · show store o.mem o.bp (s ++ [0]) x = _
      replace hx : x ≠ o.bp + s.length := hx
      rw [renderOf_snoc, store_append]
      have hlast : store (store o.mem o.bp s) (o.bp + s.length) [0] x = store o.mem o.bp s x := by
        refine store_outside ?_
        rw [List.length_singleton]
        omega
      rw [hlast]
      by_cases hs : s = []
      · exact h.append x (Or.inl (by rwa [hs] at hx))
      · exact h.append x (Or.inr hs)
    · show store o.mem o.bp (s ++ [0]) (o.bp + s.length) = 0
      rw [store_inside (by rw [List.length_append, List.length_singleton]; omega),
        List.getElem_concat_length rfl]
  · rw [Piece.out_of_not_isStr hp]
    have hne := Piece.render_ne_nil hp
    have hpos := List.length_pos_of_ne_nil hne
    have hbuf : store o.mem o.bp p.render (o.bp + p.render.length) = buf (o.bp + p.render.length) := by
      rw [h.append _ (Or.inr hne), store_outside (Or.inr _)]
      rw [List.length_append, ← h.bp]
      omega
    refine ⟨hlen.symm, fun x _ => ?_, fun hstr => absurd (endsInStr_snoc.mp hstr) hp, fun _ => hbuf⟩
    rw [renderOf_snoc]
    exact h.append x (Or.inr hne)

theorem printed_outOf (buf : Bytes) (ps : List Piece) : Printed buf ps (outOf ps ⟨buf, 0⟩) := by
  induction ps using List.reverseRecOn with
  | nil => exact ⟨rfl, fun _ _ => rfl, fun ⟨p, hp, _⟩ => (by cases hp), fun _ => rfl⟩
  | append_singleton ps p ih =>
      rw [outOf_snoc]
      exact ih.out p

end Formats

/-- The buffer holds the rendering as a string, and the result is its length. -/
def Renders (size : ℕ) (buf : Bytes) (ps : List Piece) : Prop :=
  ∃ m, sprintf size buf (formatOf ps) (argsOf ps) = some (m, (renderOf ps).length) ∧
    StrAt m 0 (renderOf ps)

theorem sprintf_eq (size : ℕ) (buf : Bytes) {ps : List Piece} (hps : ∀ p ∈ ps, p.Ok) :
    sprintf size buf (formatOf ps) (argsOf ps) =
      (strlen (outOf ps ⟨buf, 0⟩).mem size 0).map fun n => ((outOf ps ⟨buf, 0⟩).mem, n) :=
  vsprintfLoop_pieces hps

theorem Renders.nul {size : ℕ} {buf : Bytes} {ps : List Piece} (h : Renders size buf ps)
    (hps : ∀ p ∈ ps, p.Ok) (hend : ¬EndsInStr ps) : buf (renderOf ps).length = 0 := by
  have hprinted := printed_outOf buf ps
  obtain ⟨m, hres, hstr⟩ := h
  rw [sprintf_eq size buf hps] at hres
  obtain ⟨n, -, hn⟩ := Option.map_eq_some_iff.mp hres
  have hm : (outOf ps ⟨buf, 0⟩).mem = m := congrArg Prod.fst hn
  rw [← hprinted.bp, ← hprinted.old hend, hm, hprinted.bp]
  have hnul := hstr.nul
  rwa [Nat.zero_add] at hnul

/-- Nothing stores the zero behind the rendering, unless the last thing printed was a `%s`. -/
theorem sprintf_renders_iff (size : ℕ) (buf : Bytes) (ps : List Piece) (hps : ∀ p ∈ ps, p.Ok)
    (hsize : (renderOf ps).length < size) :
    Renders size buf ps ↔ EndsInStr ps ∨ buf (renderOf ps).length = 0 := by
  have hprinted := printed_outOf buf ps
  constructor
  · exact fun h => or_iff_not_imp_left.mpr (h.nul hps)
  · intro hend
    have hnul : (outOf ps ⟨buf, 0⟩).mem (renderOf ps).length = 0 := by
      rw [← hprinted.bp]
      by_cases hlast : EndsInStr ps
      · exact hprinted.last hlast
      · rw [hprinted.old hlast, hprinted.bp]
        exact hend.resolve_left hlast
    have hstr : StrAt (outOf ps ⟨buf, 0⟩).mem 0 (renderOf ps) := by
      refine ⟨fun i hi => ?_, by rwa [Nat.zero_add], zero_not_mem_renderOf hps⟩
      rw [hprinted.mem _ (by rw [hprinted.bp]; omega), store_inside hi]
    rw [Renders, sprintf_eq size buf hps, strlen_of_strAt hstr hsize]
    exact ⟨_, rfl, hstr⟩

/-- `"%s %d"` in a buffer with a zero at the right place. -/
theorem sprintf_renders_sda :
    Renders 64 (Function.update (fun _ => 255) 5 0) 
      [.str [115, 100, 97], .lit 32, .dec 7] :=
  (sprintf_renders_iff 64 _ _ (by simp [Piece.Ok, percent]) (by decide)).mpr (Or.inr (by decide))

/-- One character in a buffer that has no zero. -/
theorem not_always_renders : ¬∀ size buf ps, (∀ p ∈ ps, Piece.Ok p) →
    (renderOf ps).length < size → Renders size buf ps := by
  intro h
  have hok : ∀ p ∈ [Piece.lit 97], p.Ok := by
    rintro p hp
    rw [List.mem_singleton.mp hp]
    exact ⟨by decide, by decide⟩
  have hend : ¬EndsInStr [Piece.lit 97] := by
    rintro ⟨p, hp, hstr⟩
    rw [← Option.some_inj.mp hp] at hstr
    exact hstr
  have hnul := (h 64 (fun _ => 255) [.lit 97] hok (by decide)).nul hok hend
  exact absurd hnul (by decide)

end BochsOs.Stdio
