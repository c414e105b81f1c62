import BochsOs.Shell.CmdParse

/-!
# From a line to its commands

What `shell_run` and `pipe_run` of `shell/shell.c` do with a line: they cut it at `|`, let
`cmd_parse` cut the parts into words and call `cmd_run`.  A `Call` is what `cmd_run` finds in `argc`
and `argv`; it changes neither the line nor anything that the next `cmd_parse` does not set again.
The descriptors that `pipe_run` moves around are left out here.

`cmd_run` trusts that there is a command and that `argv` ends (`Ready`).  Nobody looks after the first,
and the second fails for exactly as many words as there are slots, and in a pipeline also for more,
since `pipe_run` does not look at the result of `cmd_parse` (`shellLine_ready_iff`).
-/

namespace BochsOs.Bytewise

open ByteMemory Words

/-! ## The code -/

/-- `' '`. -/
def blank : UInt8 := 32

/-- `'|'`. -/
def bar : UInt8 := 124

/-- `CMD_LEN`. -/
def cmdLen : ℕ := 512

/-- A call of `cmd_run`. -/
structure Call where
  argc : ℤ
  argv : Argv

/-- `argc = cmd_parse(each_cmd, ' ')` and `cmd_run()`. -/
def parseAndRun (fuel : ℕ) (m : Bytes) (argv : Argv) (eachCmd : ℕ) : Option (Bytes × Call) :=
  (cmdParse fuel m argv eachCmd blank).map fun (m, argv, argc) => (m, ⟨argc, argv⟩)

/-- `pipe_run` from the first right part on. -/
def pipeLoop (fuel : ℕ) : (rounds : ℕ) → (m : Bytes) → (argv : Argv) → (eachCmd : ℕ) → Option (List Call)
  | 0, _, _, _ => none
  | rounds + 1, m, argv, eachCmd =>
      (strchr m bar fuel eachCmd).bind fun pipeSym =>
        match pipeSym with
        | none => (parseAndRun fuel m argv eachCmd).map fun (_, call) => [call]
        | some pipeSym =>
            (parseAndRun fuel (Function.update m pipeSym 0) argv eachCmd).bind fun (m, call) =>
              (pipeLoop fuel rounds m call.argv (pipeSym + 1)).map (call :: ·)

/-- `pipe_run` on the line at `0`; the inner `none` is the result `-2`. -/
def pipeRun (fuel : ℕ) (m : Bytes) (argv : Argv) : Option (Option (List Call)) :=
  (strchr m bar fuel 0).bind fun pipeSym =>
    match pipeSym with
    | none => some none
    | some pipeSym =>
        (parseAndRun fuel (Function.update m pipeSym 0) argv 0).bind fun (m, call) =>
          (pipeLoop fuel fuel m call.argv (pipeSym + 1)).map fun calls => some (call :: calls)

/-- `shell_run` after `readline`. -/
def shellLine (fuel : ℕ) (m : Bytes) (argv : Argv) : Option (List Call) :=
  if m 0 = 0 then some []
  else
    (pipeRun fuel m argv).bind fun pipeOk =>
      match pipeOk with
      | some calls => some calls
      | none =>
          (parseAndRun fuel m (fun i => if i < maxArgNr then none else argv i) 0).map fun (_, call) =>
            if call.argc = -1 then [] else [call]

/-- The scan for the end of `argv` in `sys_execv`; `none` if it leaves the array. -/
def execvArgc (argv : Argv) : (slots argc : ℕ) → Option ℕ
  | 0, _ => none
  | slots + 1, argc => if argv argc ≠ none then execvArgc argv slots (argc + 1) else some argc

/-! ## What `cmd_run` needs -/

/-- There is a command, and a `NULL` within the array behind the arguments. -/
structure Ready (call : Call) : Prop where
  first : call.argv 0 ≠ none
  ended : ∃ i < maxArgNr, call.argv i = none ∧ ∀ j < i, call.argv j ≠ none

/-- One to fifteen words. -/
def Moderate (s : List UInt8) : Prop := 0 < (words blank s).length ∧ (words blank s).length < maxArgNr

/-- The condition on a line: without `|` it may also be empty or have too many words, since then
nothing is run. -/
def Manageable (line : List UInt8) : Prop :=
  if bar ∈ line then ∀ s ∈ line.splitOn bar, Moderate s
  else line = [] ∨ maxArgNr < (words blank line).length ∨ Moderate line

/-- A line that `readline` can return: it fits into the buffer and has no characters with a meaning
of their own. -/
def Accepted (line : List UInt8) : Prop :=
  line.length < cmdLen ∧ ∀ c ∈ line, c ∉ ([0, 8, 10, 11, 13, 20] : List UInt8)

section Ready

variable {m m' : Bytes} {argv : Argv} {a n : ℕ} {call : Call} {s : List UInt8}
  {ts : List (ℕ × List UInt8)}

theorem execvArgc_of_null {i slots : ℕ} (hi : i < slots) (hnull : argv (n + i) = none)
    (hfull : ∀ j < i, argv (n + j) ≠ none) : execvArgc argv slots n = some (n + i) := by
  induction slots generalizing n i with
  | zero => exact absurd hi (Nat.not_lt_zero i)
  | succ slots ih =>
      rw [execvArgc]
      cases i with
      | zero =>
          rw [if_neg fun hne => hne hnull]
          rfl
      | succ i =>
          have hmove : ∀ j, n + (j + 1) = n + 1 + j := fun j => by omega
          have hhead : argv n ≠ none := hfull 0 (Nat.succ_pos i)
          rw [if_pos hhead, hmove i]
          refine ih (Nat.lt_of_succ_lt_succ hi) ?_ fun j hj => ?_
          · rw [← hmove i]
            exact hnull
          · rw [← hmove j]
            exact hfull (j + 1) (Nat.succ_lt_succ hj)

/-- The scan stays inside of the array. -/
theorem Ready.execv (h : Ready call) : ∃ argc < maxArgNr, execvArgc call.argv maxArgNr 0 = some argc := by
  obtain ⟨i, hi, hnull, hfull⟩ := h.ended
  refine ⟨i, hi, ?_⟩
  have hscan : execvArgc call.argv maxArgNr 0 = some (0 + i) := by
    refine execvArgc_of_null hi ?_ fun j hj => ?_
    · rwa [Nat.zero_add]
    · rw [Nat.zero_add]
      exact hfull j hj
  rwa [Nat.zero_add] at hscan

/-- What `cmd_parse` leaves is ready for `cmd_run` if it has found one to fifteen words. -/
theorem Parsed.ready_iff {r : ℤ} {argv' : Argv}
    (h : Parsed blank m (fun i => if i < maxArgNr then none else argv i) a s 0 ts m' argv' r) :
    Ready ⟨r, argv'⟩ ↔ 0 < ts.length ∧ ts.length < maxArgNr := by
  have hslot : ∀ i < ts.length, i < maxArgNr → argv' i ≠ none := by
    intro i hi hlt
    have hsome := (h.slots i hi (by omega)).1
    rw [Nat.zero_add] at hsome
    rw [hsome]
    exact Option.some_ne_none _
  have hnull : ∀ i, ts.length ≤ i → i < maxArgNr → argv' i = none := by
    intro i hi hlt
    rw [h.others i (Or.inr (by omega)), if_pos hlt]
  constructor
  · rintro ⟨hfirst, i, hi, hnone, -⟩
    refine ⟨?_, ?_⟩
    · by_contra hzero
      exact hfirst (hnull 0 (by omega) (by decide))
    · by_contra hmany
      exact hslot i (by omega) hi hnone
  · rintro ⟨hpos, hlt⟩
    exact ⟨hslot 0 hpos (by decide), ts.length, hlt, hnull _ le_rfl hlt,
      fun j hj => hslot j hj (hj.trans hlt)⟩

end Ready

/-! ## The parts of a line -/

section Parts

variable {fuel rounds a : ℕ} {m : Bytes} {argv : Argv} {s t line : List UInt8}

/-- One part: whether it is ready, and that the memory behind it stays as it is. -/
theorem parseAndRun_of_strAt (argv : Argv) (h : StrAt m a s) (hfuel : s.length < fuel) :
    ∃ m' call, parseAndRun fuel m argv a = some (m', call) ∧ (Ready call ↔ Moderate s) ∧
      (call.argc = -1 ↔ maxArgNr < (words blank s).length) ∧ ∀ x, a + s.length ≤ x → m' x = m x := by
  obtain ⟨m', argv', r, hrun, hparsed⟩ := cmdParse_parsed blank argv h hfuel
  have hresult := hparsed.result
  rw [Nat.zero_add, length_places] at hresult
  refine ⟨m', ⟨r, argv'⟩, ?_, ?_, ?_, fun x hx => hparsed.frame x (Or.inr hx)⟩
  · rw [parseAndRun, hrun]
    rfl
  · rw [hparsed.ready_iff, length_places]
    rfl
  · show r = -1 ↔ _
    by_cases hle : (words blank s).length ≤ maxArgNr
    · rw [hresult, if_pos hle]
      refine iff_of_false ?_ (Nat.not_lt.mpr hle)
      omega
    · rw [hresult, if_neg hle]
      exact iff_of_true rfl (Nat.lt_of_not_le hle)

/-- A line with a bar is its first part and the rest. -/
theorem exists_first_part (hbar : bar ∈ line) : ∃ s t, line = s ++ bar :: t ∧ bar ∉ s := by
  obtain ⟨s, t, hline, hs⟩ := List.eq_append_cons_of_mem hbar
  exact ⟨s, t, hline, hs⟩

/-- The part in front of a bar: it is cut off, and the rest behind the bar is still there. -/
theorem parseAndRun_part (argv : Argv) (h : StrAt m a (s ++ bar :: t)) (hfuel : s.length < fuel) :
    ∃ m' call, parseAndRun fuel (Function.update m (a + s.length) 0) argv a = some (m', call) ∧
      (Ready call ↔ Moderate s) ∧ StrAt m' (a + s.length + 1) t := by
  have hcut := h.take (i := s.length) (by rw [List.length_append]; omega)
  rw [List.take_left] at hcut
  have hback := h.drop (i := s.length + 1) (by rw [List.length_append, List.length_cons]; omega)
  rw [List.drop_length_add_append, List.drop_one, List.tail_cons, ← Nat.add_assoc] at hback
  obtain ⟨m', call, hrun, hready, -, hframe⟩ := parseAndRun_of_strAt argv hcut hfuel
  refine ⟨m', call, hrun, hready, hback.congr fun i _ => ?_⟩
  rw [hframe _ (by omega), Function.update_of_ne (by omega)]

/-- The commands of a pipeline, part by part. -/
theorem pipeLoop_ready (argv : Argv) (h : StrAt m a line) (hfuel : line.length < fuel)
    (hrounds : line.length < rounds) :
    ∃ calls, pipeLoop fuel rounds m argv a = some calls ∧
      ((∀ call ∈ calls, Ready call) ↔ ∀ s ∈ line.splitOn bar, Moderate s) := by
  induction rounds generalizing m argv a line with
  | zero => exact absurd hrounds (Nat.not_lt_zero _)
  | succ rounds ih =>
      rw [pipeLoop]
      by_cases hbar : bar ∈ line
      · obtain ⟨s, t, rfl, hs⟩ := exists_first_part hbar
        rw [List.length_append, List.length_cons] at hfuel hrounds
        obtain ⟨m', call, hrun, hready, hrest⟩ := parseAndRun_part argv h
          (show s.length < fuel by omega)
        obtain ⟨calls, hloop, hcalls⟩ := ih call.argv hrest (by omega) (by omega)
        rw [strchr_of_append h hs (by omega), Option.bind_some]
        dsimp only
        rw [hrun, Option.bind_some]
        dsimp only
        rw [hloop]
        refine ⟨call :: calls, rfl, ?_⟩
        rw [List.splitOn_append_cons_self_of_not_mem hs, List.forall_mem_cons, List.forall_mem_cons,
          hready, hcalls]
      · obtain ⟨m', call, hrun, hready, -⟩ := parseAndRun_of_strAt argv h hfuel
        rw [strchr_of_not_mem h hbar hfuel, Option.bind_some]
        dsimp only
        rw [hrun]
        refine ⟨[call], rfl, ?_⟩
        rw [List.splitOn_eq_singleton hbar, List.forall_mem_singleton, List.forall_mem_singleton, hready]

/-- On a line with a bar `pipe_run` is its loop, with the first part as one more. -/
theorem pipeRun_of_bar (h : StrAt m 0 line) (hbar : bar ∈ line) (hfuel : line.length < fuel) :
    pipeRun fuel m argv = (pipeLoop fuel (fuel + 1) m argv 0).map some := by
  obtain ⟨s, t, rfl, hs⟩ := exists_first_part hbar
  rw [List.length_append, List.length_cons] at hfuel
  rw [pipeRun, pipeLoop, strchr_of_append h hs (by omega), Option.bind_some, Option.bind_some]
  dsimp only
  rw [Option.map_bind]
  congr 1
  funext r
  exact (Option.map_map ..).symm

end Parts

/-- Every call of `cmd_run` for a line finds a command and the end of `argv` if and only if the line is
manageable; what `builtin_run` and `sys_execv` need follows. -/
theorem shellLine_ready_iff {fuel : ℕ} {m : Bytes} {argv : Argv} {line : List UInt8}
    (h : StrAt m 0 line) (hfuel : line.length < fuel) :
    ∃ calls, shellLine fuel m argv = some calls ∧
      ((∀ call ∈ calls, Ready call) ↔ Manageable line) ∧
      ∀ call ∈ calls, Ready call →
        call.argv 0 ≠ none ∧ ∃ argc < maxArgNr, execvArgc call.argv maxArgNr 0 = some argc := by
  suffices hcalls : ∃ calls, shellLine fuel m argv = some calls ∧
      ((∀ call ∈ calls, Ready call) ↔ Manageable line) by
    obtain ⟨calls, hrun, hready⟩ := hcalls
    exact ⟨calls, hrun, hready, fun call _ hcall => ⟨hcall.first, hcall.execv⟩⟩
  rw [shellLine, Manageable]
  by_cases hnil : line = []
  · rw [hnil] at h ⊢
    rw [if_pos (StrAt.nil_iff.mp h), if_neg List.not_mem_nil]
    exact ⟨[], rfl, iff_of_true (fun call hcall => (by cases hcall)) (Or.inl rfl)⟩
  · have hne := h.ne_zero (List.length_pos_of_ne_nil hnil)
    rw [if_neg hne]
    by_cases hbar : bar ∈ line
    · obtain ⟨calls, hloop, hcalls⟩ := pipeLoop_ready argv h hfuel (Nat.lt_succ_of_lt hfuel)
      rw [if_pos hbar, pipeRun_of_bar h hbar hfuel, hloop]
      exact ⟨calls, rfl, hcalls⟩
    · rw [if_neg hbar, pipeRun, strchr_of_not_mem h hbar hfuel, Option.bind_some]
      dsimp only
      obtain ⟨m', call, hrun, hready, hmany, -⟩ := parseAndRun_of_strAt
        (fun i => if i < maxArgNr then none else argv i) h hfuel
      rw [Option.bind_some]
      dsimp only
      rw [hrun, Option.map_some]
      refine ⟨_, rfl, ?_⟩
      by_cases hover : call.argc = -1
      · rw [if_pos hover]
        exact iff_of_true (fun call hcall => (by cases hcall)) (Or.inr (Or.inl (hmany.mp hover)))
      · rw [if_neg hover, List.forall_mem_singleton, hready]
        exact ⟨fun h => Or.inr (Or.inr h),
          fun h => (h.resolve_left hnil).resolve_left fun h => hover (hmany.mpr h)⟩

/-- `"ls|cat"`. -/
theorem shellLine_ready_pipeline :
    ∃ calls, shellLine 10 (image [108, 115, bar, 99, 97, 116]) (fun _ => none) = some calls ∧
      ((∀ call ∈ calls, Ready call) ↔ Manageable [108, 115, bar, 99, 97, 116]) ∧
      ∀ call ∈ calls, Ready call →
        call.argv 0 ≠ none ∧ ∃ argc < maxArgNr, execvArgc call.argv maxArgNr 0 = some argc :=
  shellLine_ready_iff (StrAt.image_nul (by decide)) (by decide)

/-- A line of one blank: `cmd_run` is called without a command. -/
theorem not_always_ready : ¬∀ fuel m argv line calls, StrAt m 0 line → Accepted line →
    shellLine fuel m argv = some calls → ∀ call ∈ calls, Ready call := by
  intro h
  have hcalls : (shellLine 3 (image [blank]) fun _ => none).map (·.map fun call => call.argv 0) =
      some [none] := by decide
  obtain ⟨calls, hrun, hargv⟩ := Option.map_eq_some_iff.mp hcalls
  obtain ⟨call, hmem, hnull⟩ := List.mem_map.mp (hargv ▸ List.mem_singleton_self none)
  have haccepted : Accepted [blank] :=
    ⟨by decide, List.forall_mem_singleton.mpr (by decide)⟩
  have hready := h 3 (image [blank]) (fun _ => none) [blank] calls (StrAt.image_nul (by decide))
    haccepted hrun call hmem
  exact hready.first hnull

end BochsOs.Bytewise
