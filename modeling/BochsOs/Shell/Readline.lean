import BochsOs.Library.Strings

/-!
# Reading a line

`readline` of `shell/shell.c`.  Every byte is stored at the cursor before it is looked at, also a
control character, and the test against the capacity comes after the store.

What is typed is folded into a line by `edit`.  The invariant `Typed` says that the line stands in
front of the cursor, whatever a control character has left at or behind it.  It holds as long as
no byte arrives on a full buffer (`NeverFull`), and this is exactly when the buffer is kept and the
line comes out (`readline_good_iff`): a line of `count` characters leaves no room for its zero.
-/

namespace BochsOs.Bytewise

open ByteMemory

/-! ## The code -/

/-- What is printed along the way. -/
inductive Echo where
  /-- `putchar` -/
  | char (c : UInt8)
  /-- `clear`, the prompt and the line -/
  | redraw
  /-- the message about the overflow -/
  | overflow

/-- The buffer, the cursor, and, to be watched, the places stored to. -/
structure Typing where
  mem : Bytes
  pos : ℕ
  stores : List ℕ
  echo : List Echo

/-- `readline` waits for a byte, or has returned. -/
inductive Reading where
  | typing (t : Typing)
  | returned (t : Typing)

/-- `'\n'`. -/
def newline : UInt8 := 10

/-- `'\r'`. -/
def carriageReturn : UInt8 := 13

/-- `'\b'`. -/
def backspace : UInt8 := 8

/-- `'l' - 'a'`. -/
def ctrlL : UInt8 := 11

/-- `'u' - 'a'`. -/
def ctrlU : UInt8 := 20

namespace Typing

/-- A byte stored at the cursor. -/
def put (t : Typing) (c : UInt8) : Typing :=
  { t with mem := Function.update t.mem t.pos c, stores := t.pos :: t.stores }

/-- `putchar` and the like. -/
def say (t : Typing) (e : Echo) : Typing := { t with echo := e :: t.echo }

/-- The loop of ctrl-u, with the cursor at `pos`. -/
def rubOut (t : Typing) : (pos : ℕ) → Typing
  | 0 => { t with pos := 0 }
  | pos + 1 => (({ t with pos := pos + 1 }.say (.char backspace)).put 0).rubOut pos

/-- One round of the loop, in which `read` delivers `c`. -/
def next (count : ℕ) (t : Typing) (c : UInt8) : Reading :=
  let t := t.put c
  if ¬t.pos < count then .returned (t.say .overflow)
  else if c = newline ∨ c = carriageReturn then .returned ((t.put 0).say (.char newline))
  else if c = backspace then
    -- the byte that was just stored tells whether the cursor is at the start
    if t.mem 0 ≠ backspace then .typing ({ t with pos := t.pos - 1 }.say (.char backspace))
    else .typing t
  else if c = ctrlL then .typing ((t.put 0).say .redraw)
  else if c = ctrlU then .typing (t.rubOut t.pos)
  else .typing { t.say (.char c) with pos := t.pos + 1 }

/-- The bytes that `read` delivers one after the other. -/
def feed (count : ℕ) : Typing → List UInt8 → Reading
  | t, [] => .typing t
  | t, c :: cs =>
      match t.next count c with
      | .typing t => t.feed count cs
      | .returned t => .returned t

end Typing

/-- The state in either case. -/
def Reading.state : Reading → Typing
  | .typing t => t
  | .returned t => t

/-- `readline` on a buffer with the bytes of `m`. -/
def readline (count : ℕ) (m : Bytes) (cs : List UInt8) : Option Reading :=
  -- `assert(buf != NULL && count > 0)`
  if 0 < count then some ((Typing.mk m 0 [] []).feed count cs) else none

/-! ## What it is meant to do -/

/-- The line after one more key. -/
def edit (text : List UInt8) (c : UInt8) : List UInt8 :=
  if c = backspace then text.dropLast
  else if c = ctrlL then text
  else if c = ctrlU then []
  else text ++ [c]

/-- A key that ends the line. -/
def EndsLine (c : UInt8) : Prop := c = newline ∨ c = carriageReturn

instance (c : UInt8) : Decidable (EndsLine c) := instDecidableOr

/-- The line typed by some keys, up to the one that ends it. -/
def typedLine (text : List UInt8) (cs : List UInt8) : List UInt8 :=
  (cs.takeWhile fun c => ¬EndsLine c).foldl edit text

/-- Every store is inside of the buffer, and when `readline` returns the line is a string there, cut
off at the capacity. -/
structure Good (count : ℕ) (text cs : List UInt8) (r : Reading) : Prop where
  inside : ∀ x ∈ r.state.stores, x < count
  ended : ∀ t, r = .returned t → StrAt t.mem 0 ((typedLine text cs).take (count - 1))

/-- No byte arrives while the line, which begins as `line`, has `count` characters. -/
def NeverFull (count : ℕ) (text cs : List UInt8) : Prop :=
  ∀ u c v, cs = u ++ c :: v → (∀ d ∈ u, ¬EndsLine d) → (u.foldl edit text).length < count

/-! ## One byte -/

/-- The line stands in front of the cursor. -/
structure Typed (count : ℕ) (text : List UInt8) (t : Typing) : Prop where
  pos : t.pos = text.length
  bytes : ∀ i (hi : i < text.length), t.mem i = text[i]
  plain : ∀ c ∈ text, c ≠ 0 ∧ c ≠ backspace
  stores : ∀ x ∈ t.stores, x < count

section Next

variable {count : ℕ} {text cs : List UInt8} {t : Typing} {c : UInt8}

theorem Typed.say (h : Typed count text t) (e : Echo) : Typed count text (t.say e) :=
  ⟨h.pos, h.bytes, h.plain, h.stores⟩

/-- A byte stored at the cursor does not touch the line. -/
theorem Typed.put (h : Typed count text t) (hroom : text.length < count) : Typed count text (t.put c) := by
  refine ⟨h.pos, fun i hi => ?_, h.plain, fun x hx => ?_⟩
  · have := h.pos
    exact (Function.update_of_ne (by omega) _ _).trans (h.bytes i hi)
  · rcases List.mem_cons.mp hx with rfl | hx
    · rwa [h.pos]
    · exact h.stores x hx

/-- The zero that ends the line. -/
theorem Typed.finish (h : Typed count text t) : StrAt (t.put 0).mem 0 text := by
  refine ⟨fun i hi => ?_, ?_, fun hmem => (h.plain 0 hmem).1 rfl⟩
  · have := h.pos
    rw [Nat.zero_add]
    exact (Function.update_of_ne (by omega) _ _).trans (h.bytes i hi)
  · rw [Nat.zero_add, ← h.pos]
    exact Function.update_self ..

theorem rubOut_stores {pos : ℕ} (ht : ∀ x ∈ t.stores, x < count) (hpos : pos < count) :
    (t.rubOut pos).pos = 0 ∧ ∀ x ∈ (t.rubOut pos).stores, x < count := by
  induction pos generalizing t with
  | zero => exact ⟨rfl, ht⟩
  | succ pos ih =>
      rw [Typing.rubOut]
      refine ih (fun x hx => ?_) (Nat.lt_of_succ_lt hpos)
      rcases List.mem_cons.mp hx with rfl | hx
      · exact hpos
      · exact ht x hx

/-- A key that does not end the line edits it. -/
theorem Typed.next (h : Typed count text t) (hroom : text.length < count) (hc : c ≠ 0)
    (hend : ¬EndsLine c) : ∃ t', t.next count c = .typing t' ∧ Typed count (edit text c) t' := by
  have hput := h.put (c := c) hroom
  have hpos : (t.put c).pos < count := by rwa [hput.pos]
  rw [Typing.next, edit]
  dsimp only
  rw [if_neg (not_not.mpr hpos), if_neg (show ¬(c = newline ∨ c = carriageReturn) from hend)]
  by_cases hback : c = backspace
  · rw [if_pos hback, if_pos hback]
    have hcursor : (t.put c).mem t.pos = c := Function.update_self ..
    by_cases hzero : (t.put c).mem 0 = backspace
    · -- the cursor is at the start
      rw [if_neg (not_not.mpr hzero)]
      have hnil : text = [] := by
        by_contra hne
        have hfirst := List.length_pos_of_ne_nil hne
        have hbyte := hput.bytes 0 hfirst
        exact (h.plain _ (List.getElem_mem hfirst)).2 (hbyte.symm.trans hzero)
      rw [hnil] at hput ⊢
      exact ⟨_, rfl, hput⟩
    · rw [if_pos hzero]
      have hne : text.length ≠ 0 := by
        intro hnil
        rw [h.pos, hnil] at hcursor
        exact hzero (hcursor.trans hback)
      refine ⟨_, rfl, ?_, fun i hi => ?_, fun d hd => h.plain d (List.mem_of_mem_dropLast hd), hput.stores⟩
      · show (t.put c).pos - 1 = _
        rw [hput.pos, List.length_dropLast]
      · rw [List.length_dropLast] at hi
        rw [List.getElem_dropLast]
        exact hput.bytes i (by omega)
  · rw [if_neg hback, if_neg hback]
    by_cases hl : c = ctrlL
    · rw [if_pos hl, if_pos hl]
      exact ⟨_, rfl, (hput.put hroom).say _⟩
    · rw [if_neg hl, if_neg hl]
      by_cases hu : c = ctrlU
      · rw [if_pos hu, if_pos hu]
        obtain ⟨hzero, hstores⟩ := rubOut_stores hput.stores hpos
        exact ⟨_, rfl, hzero, fun i hi => absurd hi (Nat.not_lt_zero i), fun d hd => (by cases hd), hstores⟩
      · rw [if_neg hu, if_neg hu]
        refine ⟨_, rfl, ?_, fun i hi => ?_, fun d hd => ?_, hput.stores⟩
        · rw [List.length_append, List.length_singleton]
          exact congrArg (· + 1) hput.pos
        · rw [List.length_append, List.length_singleton] at hi
          rcases Nat.lt_or_ge i text.length with hlt | hge
          · rw [List.getElem_append_left hlt]
            exact hput.bytes i hlt
          · obtain rfl : i = text.length := by omega
            rw [List.getElem_concat_length rfl, ← h.pos]
            exact Function.update_self ..
        · rcases List.mem_append.mp hd with hd | hd
          · exact h.plain d hd
          · rw [List.mem_singleton.mp hd]
            exact ⟨hc, hback⟩

/-- A key that ends the line. -/
theorem Typed.next_ends (h : Typed count text t) (hroom : text.length < count) (hend : EndsLine c) :
    ∃ t', t.next count c = .returned t' ∧ (∀ x ∈ t'.stores, x < count) ∧ StrAt t'.mem 0 text := by
  have hput := h.put (c := c) hroom
  have hpos : (t.put c).pos < count := by rwa [hput.pos]
  rw [Typing.next]
  dsimp only
  rw [if_neg (not_not.mpr hpos), if_pos (show c = newline ∨ c = carriageReturn from hend)]
  exact ⟨_, rfl, (hput.put (c := 0) hroom).stores, hput.finish⟩

/-- A byte that arrives on a full buffer is stored behind it. -/
theorem Typed.next_full (h : Typed count text t) (hfull : ¬text.length < count) :
    ∃ t', t.next count c = .returned t' ∧ t.pos ∈ t'.stores := by
  rw [Typing.next]
  dsimp only
  have hpos : ¬(t.put c).pos < count := by
    rw [show (t.put c).pos = text.length from h.pos]
    exact hfull
  rw [if_pos hpos]
  exact ⟨_, rfl, List.mem_cons_self⟩

end Next

/-! ## All bytes -/

section Run

variable {count : ℕ} {text cs : List UInt8} {t : Typing} {c : UInt8}

theorem typedLine_cons (hend : ¬EndsLine c) : typedLine text (c :: cs) = typedLine (edit text c) cs := by
  rw [typedLine, List.takeWhile_cons_of_pos (by simpa using hend)]
  rfl

theorem typedLine_of_ends (hend : EndsLine c) : typedLine text (c :: cs) = text := by
  rw [typedLine, List.takeWhile_cons_of_neg (by simpa using hend)]
  rfl

theorem neverFull_cons (hend : ¬EndsLine c) :
    NeverFull count text (c :: cs) ↔ text.length < count ∧ NeverFull count (edit text c) cs := by
  constructor
  · intro h
    refine ⟨h [] c cs rfl fun d hd => (by cases hd), fun u d v hcs hu => ?_⟩
    refine h (c :: u) d v (by rw [hcs]; rfl) fun e he => ?_
    rcases List.mem_cons.mp he with rfl | he
    · exact hend
    · exact hu e he
  · rintro ⟨hroom, h⟩ u d v hcs hu
    cases u with
    | nil => exact hroom
    | cons e u =>
        rw [List.cons_append] at hcs
        obtain ⟨rfl, htail⟩ := List.cons_eq_cons.mp hcs
        exact h u d v htail fun f hf => hu f (List.mem_cons_of_mem c hf)

theorem neverFull_of_ends (hend : EndsLine c) (hroom : text.length < count) :
    NeverFull count text (c :: cs) := by
  intro u d v hcs hu
  cases u with
  | nil => exact hroom
  | cons e u =>
      rw [List.cons_append] at hcs
      rw [(List.cons_eq_cons.mp hcs).1] at hend
      exact absurd hend (hu e List.mem_cons_self)

/-- The invariant is carried along the bytes until one ends the line or finds the buffer full. -/
theorem feed_good_iff (h : Typed count text t) (hcs : (0 : UInt8) ∉ cs) :
    Good count text cs (t.feed count cs) ↔ NeverFull count text cs := by
  induction cs generalizing text t with
  | nil =>
      refine iff_of_true ⟨h.stores, fun t' ht' => (by cases ht')⟩ fun u c v hnil => ?_
      exact absurd hnil.symm (List.append_ne_nil_of_right_ne_nil u (List.cons_ne_nil c v))
  | cons c cs ih =>
      rw [List.mem_cons, not_or] at hcs
      rw [Typing.feed]
      by_cases hroom : text.length < count
      · by_cases hend : EndsLine c
        · obtain ⟨t', hnext, hstores, htext⟩ := h.next_ends hroom hend
          rw [hnext]
          refine iff_of_true ⟨hstores, fun t'' ht'' => ?_⟩ (neverFull_of_ends hend hroom)
          rw [typedLine_of_ends hend, List.take_of_length_le (by omega)]
          exact Reading.returned.inj ht'' ▸ htext
        · obtain ⟨t', hnext, htyped⟩ := h.next hroom (Ne.symm hcs.1) hend
          have hih := ih htyped hcs.2
          rw [hnext, neverFull_cons hend, ← hih, and_iff_right hroom]
          constructor
          · rintro ⟨hin, hret⟩
            rw [typedLine_cons hend] at hret
            exact ⟨hin, hret⟩
          · rintro ⟨hin, hret⟩
            rw [← typedLine_cons hend] at hret
            exact ⟨hin, hret⟩
      · obtain ⟨t', hnext, hstore⟩ := h.next_full (c := c) hroom
        rw [hnext]
        refine iff_of_false (fun hgood => ?_) fun hnever => hroom (hnever [] c cs rfl fun d hd => (by cases hd))
        have hlt := hgood.inside t.pos hstore
        rw [h.pos] at hlt
        exact hroom hlt

theorem typed_start (m : Bytes) : Typed count [] ⟨m, 0, [], []⟩ :=
  ⟨rfl, fun i hi => absurd hi (Nat.not_lt_zero i), fun _ hc => (by cases hc), fun _ hx => (by cases hx)⟩

theorem length_foldl_edit (n : ℕ) : ((List.replicate n 97).foldl edit text).length = text.length + n := by
  induction n generalizing text with
  | zero => rfl
  | succ n ih =>
      have hkey : edit text 97 = text ++ [97] := rfl
      rw [List.replicate_succ, List.foldl_cons, ih, hkey, List.length_append, List.length_singleton]
      omega

end Run

/-- `readline` stores inside of its buffer and leaves the line there exactly if no byte arrives while
the line has `count` characters. -/
theorem readline_good_iff {count : ℕ} (m : Bytes) {cs : List UInt8} (hcount : 0 < count)
    (hcs : (0 : UInt8) ∉ cs) :
    ∃ r, readline count m cs = some r ∧ (Good count [] cs r ↔ NeverFull count [] cs) :=
  ⟨_, if_pos hcount, feed_good_iff (typed_start m) hcs⟩

/-- A typing error, taken back, and enter. -/
theorem readline_good_ls :
    ∃ r, readline 512 (fun _ => 0) [108, 97, backspace, 115, carriageReturn] = some r ∧
      (Good 512 [] [108, 97, backspace, 115, carriageReturn] r ↔
        NeverFull 512 [] [108, 97, backspace, 115, carriageReturn]) :=
  readline_good_iff _ (by decide) (by decide)

/-- 513 characters for the 512 bytes of the shell. -/
theorem not_always_good : ¬∀ count m cs r, 0 < count → (0 : UInt8) ∉ cs →
    readline count m cs = some r → Good count [] cs r := by
  intro h
  have hcs : (0 : UInt8) ∉ List.replicate 512 97 ++ [97] := by
    rw [← List.replicate_succ']
    exact fun hmem => absurd (List.eq_of_mem_replicate hmem) (by decide)
  have hgood := h 512 (fun _ => 0) (List.replicate 512 97 ++ [97]) _ (by decide) hcs (if_pos (by decide))
  have hnever := (feed_good_iff (typed_start _) hcs).mp hgood (List.replicate 512 97) 97 [] rfl fun d hd => by
    rw [List.eq_of_mem_replicate hd]
    decide
  rw [length_foldl_edit] at hnever
  exact absurd hnever (by decide)

end BochsOs.Bytewise
