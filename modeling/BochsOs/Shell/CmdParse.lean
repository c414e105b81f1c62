import BochsOs.Lib.String
import BochsOs.Library.Places

/-!
# Cutting command lines

`cmd_parse` of `shell/shell.c`.  It goes through the command string once, puts a zero behind every
word and the address of the word into the next slot of `argv`.  The array has `MAX_ARG_NR` slots; the
17th word makes it return `-1`, with all slots taken (`cmdParse_spec`).

The invariant of the loop is about the rest of the string: the bytes before it are never touched
again, so the words found so far stay as they are.
-/

namespace BochsOs.Bytewise

open ByteMemory Words

/-- `MAX_ARG_NR`. -/
def maxArgNr : ℕ := 16

/-- The slots of `argv`, from `0` on; `none` is `NULL`. -/
abbrev Argv := ℕ → Option ℕ

/-- The loop of `cmd_parse`, at most `rounds` times: the string, `argv` and the result. -/
def cmdParseLoop (fuel : ℕ) (split : UInt8) : (rounds : ℕ) → (m : Bytes) → (argv : Argv) →
    (next argc : ℕ) → Option (Bytes × Argv × ℤ)
  | 0, _, _, _, _ => none
  | rounds + 1, m, argv, next, argc =>
      if m next ≠ 0 then
        (skip m split fuel next).bind fun next =>
          if m next = 0 then some (m, argv, argc)
          else if argc = maxArgNr then some (m, argv, -1)
          else
            (skipTo m split fuel next).bind fun stop =>
              let argv := Function.update argv argc (some next)
              if m stop ≠ 0 then
                cmdParseLoop fuel split rounds (Function.update m stop 0) argv (stop + 1) (argc + 1)
              else cmdParseLoop fuel split rounds m argv stop (argc + 1)
      else some (m, argv, argc)

/-- `cmd_parse`. -/
def cmdParse (fuel : ℕ) (m : Bytes) (argv : Argv) (cmdStr : ℕ) (split : UInt8) :
    Option (Bytes × Argv × ℤ) :=
  cmdParseLoop fuel split fuel m (fun i => if i < maxArgNr then none else argv i) cmdStr 0

/-! ## The loop -/

/-- The loop is done with the string `s` at `a`, with `argc` slots taken before.  All words that fit
into `argv` are there and are strings now. -/
structure Parsed (split : UInt8) (m : Bytes) (argv : Argv) (a : ℕ) (s : List UInt8) (argc : ℕ)
    (ts : List (ℕ × List UInt8)) (m' : Bytes) (argv' : Argv) (r : ℤ) : Prop where
  result : r = if argc + ts.length ≤ maxArgNr then ((argc + ts.length : ℕ) : ℤ) else -1
  slots : ∀ i (hi : i < ts.length), argc + i < maxArgNr →
    argv' (argc + i) = some ts[i].1 ∧ StrAt m' ts[i].1 ts[i].2
  others : ∀ j, j < argc ∨ argc + ts.length ≤ j → argv' j = argv j
  frame : ∀ x, x < a ∨ a + s.length ≤ x → m' x = m x

section Loop

variable {fuel rounds a argc : ℕ} {split c : UInt8} {m m' : Bytes} {argv argv' : Argv} {r : ℤ}
  {s : List UInt8} {ts : List (ℕ × List UInt8)}

theorem Parsed.nil (hargc : argc ≤ maxArgNr) : Parsed split m argv a s argc [] m argv argc := by
  refine ⟨?_, fun i hi => absurd hi (Nat.not_lt_zero i), fun _ _ => rfl, fun _ _ => rfl⟩
  rw [List.length_nil, Nat.add_zero, if_pos hargc]

/-- No slot is left for the next word. -/
theorem Parsed.full {t : ℕ × List UInt8} : Parsed split m argv a s maxArgNr (t :: ts) m argv (-1) := by
  refine ⟨?_, fun i hi hlt => absurd hlt (by omega), fun j hj => rfl, fun _ _ => rfl⟩
  rw [if_neg]
  rw [List.length_cons]
  omega

/-- One more word in front: the loop goes on at `q` with memory `m₁`. -/
theorem Parsed.cons {b q : ℕ} {w rest : List UInt8} {m₁ : Bytes}
    (h : Parsed split m₁ (Function.update argv argc (some b)) q rest (argc + 1) ts m' argv' r)
    (hw : StrAt m' b w) (hm : ∀ x, x < a ∨ a + s.length ≤ x → m₁ x = m x)
    (hq : a ≤ q) (hrest : q + rest.length ≤ a + s.length) :
    Parsed split m argv a s argc ((b, w) :: ts) m' argv' r := by
  refine ⟨?_, fun i hi hlt => ?_, fun j hj => ?_, fun x hx => ?_⟩
  · rw [h.result, List.length_cons, show argc + 1 + ts.length = argc + (ts.length + 1) by omega]
  · cases i with
    | zero =>
        refine ⟨?_, hw⟩
        rw [Nat.add_zero, h.others argc (Or.inl (Nat.lt_succ_self _)), Function.update_self]
        rfl
    | succ i =>
        have hi' : i < ts.length := Nat.lt_of_succ_lt_succ hi
        rw [show argc + (i + 1) = argc + 1 + i by omega] at hlt ⊢
        exact h.slots i hi' hlt
  · rw [List.length_cons] at hj
    rw [h.others j (by omega), Function.update_of_ne (by omega)]
  · rw [h.frame x (by omega), hm x hx]

/-- A round takes the separators and one word off the string. -/
theorem cmdParseLoop_parsed (argv : Argv) (h : StrAt m a s) (hargc : argc ≤ maxArgNr) (hfuel : s.length < fuel)
    (hrounds : s.length < rounds) :
    ∃ m' argv' r, cmdParseLoop fuel split rounds m argv a argc = some (m', argv', r) ∧
      Parsed split m argv a s argc (places split a false s) m' argv' r := by
  induction rounds generalizing m argv a argc s with
  | zero => exact absurd hrounds (Nat.not_lt_zero _)
  | succ rounds ih =>
      rw [cmdParseLoop]
      by_cases hnil : s = []
      · rw [hnil] at h ⊢
        rw [if_neg fun hne => hne (StrAt.nil_iff.mp h)]
        exact ⟨m, argv, argc, rfl, .nil hargc⟩
      · have hpos := List.length_pos_of_ne_nil hnil
        have hne := h.ne_zero hpos
        rw [Nat.add_zero] at hne
        have hsplit := congrArg List.length (List.takeWhile_append_dropWhile (p := (· = split)) (l := s))
        rw [List.length_append] at hsplit
        have htext : StrAt m (a + (s.takeWhile (· = split)).length) (s.dropWhile (· = split)) :=
          h.dropWhile _
        rw [if_pos hne, skip_of_strAt h (Or.inr hnil) hfuel, Option.bind_some, places_skip]
        generalize hb : a + (s.takeWhile (· = split)).length = b at htext ⊢
        cases hcons : s.dropWhile (· = split) with
        | nil =>
            rw [hcons] at htext
            rw [if_pos (StrAt.nil_iff.mp htext)]
            exact ⟨m, argv, argc, rfl, .nil hargc⟩
        | cons c text =>
            rw [hcons] at htext hsplit
            have hc : c ≠ split := ne_sep_of_dropWhile hcons
            rw [if_neg (by rw [(StrAt.cons_iff.mp htext).1]; exact (StrAt.cons_iff.mp htext).2.1),
              places_word hc]
            by_cases hfull : argc = maxArgNr
            · rw [if_pos hfull, hfull]
              exact ⟨m, argv, -1, rfl, .full⟩
            · rw [if_neg hfull, skipTo_of_strAt htext (by omega), Option.bind_some]
              have hword := htext.takeWhile (· ≠ split)
              have hrest := htext.dropWhile (· ≠ split)
              have hlen := congrArg List.length
                (List.takeWhile_append_dropWhile (p := (· ≠ split)) (l := c :: text))
              rw [List.length_append] at hlen
              generalize (c :: text).takeWhile (· ≠ split) = w at hword hrest hlen ⊢
              dsimp only
              rcases dropWhile_cases split (c :: text) with hend | ⟨text', hend⟩
              · -- the word ends with the string
                rw [hend] at hrest hlen ⊢
                have hzero := StrAt.nil_iff.mp hrest
                obtain ⟨m', argv', r, hrun, hparsed⟩ := ih (Function.update argv argc (some b)) hrest
                  (show argc + 1 ≤ maxArgNr by omega) (by rw [List.length_nil]; omega)
                  (by rw [List.length_nil]; omega)
                rw [if_neg fun hne => hne hzero]
                refine ⟨m', argv', r, hrun, ?_⟩
                refine hparsed.cons (q := b + w.length) ?_ (fun _ _ => rfl) (by omega) ?_
                · refine hword.congr fun i _ => ?_
                  rw [hparsed.frame _ (by rw [List.length_nil]; omega)]
                  by_cases hi : b + i = b + w.length
                  · rw [hi, Function.update_self, hzero]
                  · rw [Function.update_of_ne hi]
                · rw [List.length_nil] at hlen ⊢
                  omega
              · -- a separator is overwritten
                rw [hend] at hrest hlen ⊢
                obtain ⟨hsep, hnz, hback⟩ := StrAt.cons_iff.mp hrest
                rw [List.length_cons] at hlen
                have hback' : StrAt (Function.update m (b + w.length) 0) (b + w.length + 1) text' :=
                  hback.congr fun i _ => Function.update_of_ne (by omega) _ _
                obtain ⟨m', argv', r, hrun, hparsed⟩ := ih (Function.update argv argc (some b)) hback'
                  (show argc + 1 ≤ maxArgNr by omega) (by omega) (by omega)
                rw [if_pos (by rwa [hsep]), places_sep_cons]
                refine ⟨m', argv', r, hrun, ?_⟩
                refine hparsed.cons (q := b + w.length + 1) ?_ (fun x hx => ?_) (by omega) (by omega)
                · exact hword.congr fun i hi => hparsed.frame _ (Or.inl (by omega))
                · exact Function.update_of_ne (by omega) _ _

theorem cmdParse_parsed (split : UInt8) (argv : Argv) (h : StrAt m a s) (hfuel : s.length < fuel) :
    ∃ m' argv' r, cmdParse fuel m argv a split = some (m', argv', r) ∧
      Parsed split m (fun i => if i < maxArgNr then none else argv i) a s 0 (places split a false s)
        m' argv' r :=
  cmdParseLoop_parsed _ h (Nat.zero_le _) hfuel hfuel

end Loop

/-- `cmd_parse` returns `-1` exactly if there are more words than slots.  Otherwise it returns the
number of words, and the slots have their places, where the words are strings now. -/
theorem cmdParse_spec {fuel a : ℕ} {split : UInt8} {m : Bytes} {argv : Argv} {s : List UInt8}
    (h : StrAt m a s) (hfuel : s.length < fuel) :
    ∃ ts, ListsRuns split a s ts ∧ ∃ m' argv' r, cmdParse fuel m argv a split = some (m', argv', r) ∧
      (r = -1 ↔ maxArgNr < ts.length) ∧
      (ts.length ≤ maxArgNr → r = ts.length ∧
        (∀ i (hi : i < ts.length), argv' i = some ts[i].1 ∧ StrAt m' ts[i].1 ts[i].2) ∧
        ∀ i, ts.length ≤ i → i < maxArgNr → argv' i = none) := by
  obtain ⟨m', argv', r, hrun, hparsed⟩ := cmdParse_parsed split argv h hfuel
  have hresult := hparsed.result
  rw [Nat.zero_add] at hresult
  refine ⟨_, listsRuns_places, m', argv', r, hrun, ?_, fun hle => ⟨?_, fun i hi => ?_, fun i hi hlt => ?_⟩⟩
  · by_cases hle : (places split a false s).length ≤ maxArgNr
    · rw [hresult, if_pos hle]
      refine iff_of_false ?_ (Nat.not_lt.mpr hle)
      omega
    · rw [hresult, if_neg hle]
      exact iff_of_true rfl (Nat.lt_of_not_le hle)
  · rw [hresult, if_pos hle]
  · have hslot := hparsed.slots i hi (by omega)
    rwa [Nat.zero_add] at hslot
  · rw [hparsed.others i (Or.inr (by omega)), if_pos hlt]

/-- `" ls  -l "`. -/
theorem cmdParse_spec_ls :
    ∃ ts, ListsRuns 32 0 [32, 108, 115, 32, 32, 45, 108, 32] ts ∧ ∃ m' argv' r,
      cmdParse 9 (image [32, 108, 115, 32, 32, 45, 108, 32]) (fun _ => none) 0 32 = some (m', argv', r) ∧
      (r = -1 ↔ maxArgNr < ts.length) ∧
      (ts.length ≤ maxArgNr → r = ts.length ∧
        (∀ i (hi : i < ts.length), argv' i = some ts[i].1 ∧ StrAt m' ts[i].1 ts[i].2) ∧
        ∀ i, ts.length ≤ i → i < maxArgNr → argv' i = none) :=
  cmdParse_spec (StrAt.image_nul (by decide)) (by decide)

end BochsOs.Bytewise
