import BochsOs.Device.Ioqueue
import BochsOs.Library.Runs

/-!
# The keyboard

`intr_keyboard_handler` of `device/keyboard.c`, called once for every byte of a scan code.  There is one
flag for ctrl, one for shift and one for alt, but two keys of each; a bit of a key code says that the key
was released, and the prefix `0xe0` comes as a byte of its own.

A `Desk` is what the keys are really like, with the characters that should be waiting.  The handler keeps
up with it (`Right`) until one key of a pair is released while the other one is still down: then the flag
is cleared with a key held.  Without such a release every state is right, and such a release makes the
next one wrong (`keyboard_right_iff`).

Between any two bytes some characters may be taken out of the queue by whoever reads it.  The message about
unknown keys is left out.
-/

namespace BochsOs.Keyboard

/-! ## The code -/

/-- The variables of the handler and `kbd_buf`. -/
structure State where
  ctrlStatus : ℕ
  shiftStatus : ℕ
  altStatus : ℕ
  capsLockStatus : ℕ
  extScancode : ℕ
  kbdBuf : Ioqueue

/-- `keymap`: the characters of the scan codes from `0` on, without and with shift. -/
def keymap : List (UInt8 × UInt8) :=
  [(0, 0), (27, 27), (49, 33), (50, 64), (51, 35), (52, 36), (53, 37), (54, 94),
    (55, 38), (56, 42), (57, 40), (48, 41), (45, 95), (61, 43), (8, 8), (9, 9),
    (113, 81), (119, 87), (101, 69), (114, 82), (116, 84), (121, 89), (117, 85), (105, 73),
    (111, 79), (112, 80), (91, 123), (93, 125), (13, 13), (0, 0), (97, 65), (115, 83),
    (100, 68), (102, 70), (103, 71), (104, 72), (106, 74), (107, 75), (108, 76), (59, 58),
    (39, 34), (96, 126), (0, 0), (92, 124), (122, 90), (120, 88), (99, 67), (118, 86),
    (98, 66), (110, 78), (109, 77), (44, 60), (46, 62), (47, 63), (0, 0), (42, 42),
    (0, 0), (32, 32), (0, 0)]

/-- `keymap[index][shift]`. -/
def charAt (index shift : ℕ) : UInt8 :=
  let chars := keymap.getD index (0, 0)
  if shift = 0 then chars.1 else chars.2

/-- The scan codes of numbers and symbols. -/
def isSymbol (scancode : ℕ) : Bool :=
  scancode < 0x0e || scancode = 0x29 || scancode = 0x1a || scancode = 0x1b || scancode = 0x2b ||
    scancode = 0x27 || scancode = 0x28 || scancode = 0x33 || scancode = 0x34 || scancode = 0x35

/-- `!ioq_full(&kbd_buf)` and `ioq_putchar`, which then need not wait. -/
def putChar (ioq : Ioqueue) (byte : UInt8) : Ioqueue :=
  if ioqFull ioq then ioq
  else { ioq with buf := Function.update ioq.buf ioq.head byte, head := nextPos ioq.head }

/-- A character taken out with `ioq_getchar`, if there is one. -/
def takeChar (ioq : Ioqueue) : Ioqueue :=
  if ioqEmpty ioq then ioq else { ioq with tail := nextPos ioq.tail }

namespace State

/-- The handler of a break code, given the make code. -/
def breakCode (s : State) (makeCode : ℕ) : State :=
  if makeCode = 0x1d ∨ makeCode = 0xe01d then { s with ctrlStatus := 0 }
  else if makeCode = 0x2a ∨ makeCode = 0x36 then { s with shiftStatus := 0 }
  else if makeCode = 0x38 ∨ makeCode = 0xe038 then { s with altStatus := 0 }
  else s

/-- Whether the second column of `keymap` is used. -/
def shiftFor (s : State) (scancode : ℕ) : ℕ :=
  if isSymbol scancode then s.shiftStatus
  else if (s.shiftStatus ≠ 0 ∧ s.capsLockStatus ≠ 0) ∨ (s.shiftStatus = 0 ∧ s.capsLockStatus = 0) then 0
  else 1

/-- The handler of a make code. -/
def makeCode (s : State) (scancode : ℕ) : State :=
  if (0x00 < scancode ∧ scancode < 0x3b) ∨ scancode = 0xe038 ∨ scancode = 0xe01d ∨ scancode = 0xe01c then
    let shift := s.shiftFor scancode
    let index := scancode &&& 0x00ff
    let curChar := charAt index shift
    if curChar ≠ 0 then
      -- ctrl-l and ctrl-u
      let curChar := if s.ctrlStatus ≠ 0 ∧ (curChar = 108 ∨ curChar = 117) then curChar - 97 else curChar
      { s with kbdBuf := putChar s.kbdBuf curChar }
    else if index = 0x1d ∨ index = 0xe01d then { s with ctrlStatus := 1 }
    else if index = 0x2a ∨ index = 0x36 then { s with shiftStatus := 1 }
    else if index = 0x38 ∨ index = 0xe038 then { s with altStatus := 1 }
    else if index = 0x3a then { s with capsLockStatus := if s.capsLockStatus = 0 then 1 else 0 }
    else s
  -- `put_str("unknown key\n")`
  else s

/-- `intr_keyboard_handler`, with the byte from the port. -/
def handler (s : State) (byte : ℕ) : State :=
  if byte = 0xe0 then { s with extScancode := 1 }
  else
    let scancode := if s.extScancode ≠ 0 then 0xe000 ||| byte else byte
    let s := { s with extScancode := 0 }
    if scancode &&& 0x0080 ≠ 0 then s.breakCode (scancode &&& 0xff7f)
    else s.makeCode scancode

/-- Some characters are taken out of the queue. -/
def taken (s : State) (n : ℕ) : State := { s with kbdBuf := takeChar^[n] s.kbdBuf }

end State

/-- `keyboard_init`. -/
def init (buf : ℕ → UInt8) : State := ⟨0, 0, 0, 0, 0, ⟨buf, 0, 0⟩⟩

/-! ## Keys -/

/-- A key in scan code set 1, with or without prefix.  No key has the code `0x60`: its release would be
the prefix. -/
structure Key where
  prefixed : Bool
  code : ℕ
  valid : code < 0x80 ∧ code ≠ 0x60
  deriving DecidableEq

/-- A key goes down or up, and how many characters are taken before each byte of its code. -/
structure Event where
  key : Key
  down : Bool
  takes : ℕ
  takes' : ℕ

/-- The last byte of the code. -/
def Event.byte (e : Event) : ℕ := if e.down then e.key.code else e.key.code ||| 0x80

/-- The interrupts of an event. -/
def State.event (s : State) (e : Event) : State :=
  let s := s.taken e.takes
  let s := if e.key.prefixed then (s.handler 0xe0).taken e.takes' else s
  s.handler e.byte

/-- All events, one after the other. -/
def run (buf : ℕ → UInt8) (es : List Event) : State := es.foldl State.event (init buf)

namespace Key

def ctrlL : Key := ⟨false, 0x1d, by decide⟩
def ctrlR : Key := ⟨true, 0x1d, by decide⟩
def shiftL : Key := ⟨false, 0x2a, by decide⟩
def shiftR : Key := ⟨false, 0x36, by decide⟩
def altL : Key := ⟨false, 0x38, by decide⟩
def altR : Key := ⟨true, 0x38, by decide⟩
def capsLock : Key := ⟨false, 0x3a, by decide⟩

/-- The other key of a pair. -/
def partner (k : Key) : Option Key :=
  if k = ctrlL then some ctrlR
  else if k = ctrlR then some ctrlL
  else if k = shiftL then some shiftR
  else if k = shiftR then some shiftL
  else if k = altL then some altR
  else if k = altR then some altL
  else none

/-- The characters on a key, without and with shift; the key with prefix is the other enter key. -/
def chars (k : Key) : Option (UInt8 × UInt8) :=
  if k.prefixed ∧ k.code ≠ 0x1c then none
  else
    match keymap[k.code]? with
    | none => none
    | some c => if c.1 = 0 then none else some c

end Key

/-! ## The desk -/

/-- The keys that are down, the number of times caps lock was pressed, and the characters that wait. -/
structure Desk where
  down : Key → Bool
  capsPresses : ℕ
  queue : List UInt8

namespace Desk

variable (d : Desk)

def ctrl : Bool := d.down .ctrlL || d.down .ctrlR
def shift : Bool := d.down .shiftL || d.down .shiftR
def alt : Bool := d.down .altL || d.down .altR

/-- Caps lock is on. -/
def caps : Bool := d.capsPresses % 2 = 1

/-- The character of a pressed key: caps lock turns shift around for letters, and ctrl makes control
characters out of `l` and `u`. -/
def character (chars : UInt8 × UInt8) : UInt8 :=
  let isLetter := 97 ≤ chars.1 ∧ chars.1 ≤ 122
  let upper := if isLetter then d.shift ^^ d.caps else d.shift
  let c := if upper then chars.2 else chars.1
  if d.ctrl ∧ (c = 108 ∨ c = 117) then c - 97 else c

/-- A character joins the queue, unless that is full. -/
def enqueue (queue : List UInt8) (c : UInt8) : List UInt8 :=
  if queue.length + 1 < bufsize then queue ++ [c] else queue

/-- The desk after an event. -/
def event (e : Event) : Desk where
  down := Function.update d.down e.key e.down
  capsPresses := if e.down ∧ e.key = .capsLock then d.capsPresses + 1 else d.capsPresses
  queue :=
    let queue := d.queue.drop (e.takes + if e.key.prefixed then e.takes' else 0)
    if e.down then
      match e.key.chars with
      | none => queue
      | some chars => enqueue queue (d.character chars)
    else queue

/-- Nothing has been touched yet. -/
def start : Desk := ⟨fun _ => false, 0, []⟩

/-- The desk after some events. -/
def after (es : List Event) : Desk := es.foldl event start

/-- One key of a pair is released while the other one is down. -/
def LiftsOne (e : Event) : Prop := e.down = false ∧ ∃ k ∈ e.key.partner, d.down k = true

end Desk

/-- The flags and the queue are as the desk has them. -/
structure Right (s : State) (d : Desk) : Prop where
  ctrl : s.ctrlStatus = if d.ctrl then 1 else 0
  shift : s.shiftStatus = if d.shift then 1 else 0
  alt : s.altStatus = if d.alt then 1 else 0
  caps : s.capsLockStatus = d.capsPresses % 2
  queue : s.kbdBuf.content = d.queue

namespace Key

/-- The code of a pressed key as the handler puts it together. -/
def scancode (k : Key) : ℕ := if k.prefixed then 0xe000 ||| k.code else k.code

end Key

/-! ## Scan codes -/

theorem byte_facts : ∀ c < 0x80, c ≠ 0x60 →
    (c ≠ 0xe0 ∧ c ||| 0x80 ≠ 0xe0) ∧
      (c &&& 0x80 = 0 ∧ (0xe000 ||| c) &&& 0x80 = 0) ∧
        ((c ||| 0x80) &&& 0x80 ≠ 0 ∧ (0xe000 ||| (c ||| 0x80)) &&& 0x80 ≠ 0) ∧
          (c ||| 0x80) &&& 0xff7f = c ∧ (0xe000 ||| (c ||| 0x80)) &&& 0xff7f = 0xe000 ||| c ∧
            0xe000 ≤ 0xe000 ||| c ∧ (0xe000 ||| c) &&& 0xff = c := by
  decide +kernel

theorem Key.scancode_inj {k l : Key} (h : k.scancode = l.scancode) : k = l := by
  obtain ⟨p, c, hc⟩ := k
  obtain ⟨q, d, hd⟩ := l
  obtain ⟨-, -, -, -, -, hcle, hclow⟩ := byte_facts c hc.1 hc.2
  obtain ⟨-, -, -, -, -, hdle, hdlow⟩ := byte_facts d hd.1 hd.2
  have hfit := And.intro hc.1 hd.1
  cases p <;> cases q <;> simp only [scancode, Bool.false_eq_true, if_false, if_true] at h
  · subst h; rfl
  · omega
  · omega
  · obtain rfl : c = d := by rw [← hclow, h, hdlow]
    rfl

namespace State

variable (s : State)

/-- The last byte of a code. -/
theorem handler_last (k : Key) (down : Bool) (hext : s.extScancode = if k.prefixed then 1 else 0) :
    s.handler (if down then k.code else k.code ||| 0x80) =
      (let s := { s with extScancode := 0 }
        if down then s.makeCode k.scancode else s.breakCode k.scancode) := by
  obtain ⟨p, c, hc⟩ := k
  obtain ⟨⟨hne, hne'⟩, ⟨hmake, hmake'⟩, ⟨hbreak, hbreak'⟩, hcode, hcode', -⟩ := byte_facts c hc.1 hc.2
  cases p with
  | false =>
      have hzero : s.extScancode = 0 := hext
      cases down with
      | false => simp only [handler, Key.scancode, Bool.false_eq_true, if_false, hne', hzero, ne_eq,
          not_true_eq_false, hbreak, not_false_eq_true, if_true, hcode]
      | true => simp only [handler, Key.scancode, Bool.false_eq_true, if_false, if_true, hne, hzero, ne_eq,
          not_true_eq_false, hmake]
  | true =>
      have hone : s.extScancode = 1 := hext
      cases down with
      | false => simp only [handler, Key.scancode, Bool.false_eq_true, if_false, if_true, hne', hone, ne_eq,
          Nat.one_ne_zero, not_false_eq_true, hbreak', hcode']
      | true => simp only [handler, Key.scancode, if_false, if_true, hne, hone, ne_eq, Nat.one_ne_zero,
          not_false_eq_true, hmake', not_true_eq_false]

theorem taken_taken (n n' : ℕ) : (s.taken n).taken n' = s.taken (n + n') := by
  rw [taken, taken, taken, Nat.add_comm n n', Function.iterate_add_apply]

/-- All bytes of an event together. -/
theorem event_eq (e : Event) (hs : s.extScancode = 0) :
    s.event e =
      (let s := s.taken (e.takes + if e.key.prefixed then e.takes' else 0)
        if e.down then s.makeCode e.key.scancode else s.breakCode e.key.scancode) := by
  have hclear (n : ℕ) : { s.taken n with extScancode := 0 } = s.taken n := by rw [taken, hs]
  rw [event, Event.byte]
  cases hp : e.key.prefixed with
  | false =>
      rw [if_neg Bool.false_ne_true, if_neg Bool.false_ne_true, handler_last _ _ _ (by rw [hp]; exact hs)]
      dsimp only
      rw [hclear, Nat.add_zero]
  | true =>
      rw [if_pos rfl, if_pos rfl, handler_last _ _ _ (by rw [hp]; rfl), ← taken_taken]
      have hset : { ((s.taken e.takes).handler 0xe0).taken e.takes' with extScancode := 0 } =
          (s.taken e.takes).taken e.takes' := by
        change State.taken { s.taken e.takes with extScancode := 0 } e.takes' = _
        rw [hclear]
      dsimp only at hset ⊢
      rw [hset]

/-! ## Break codes -/

theorem breakCode_eq (k : Key) :
    s.breakCode k.scancode =
      { s with
        ctrlStatus := if k = .ctrlL ∨ k = .ctrlR then 0 else s.ctrlStatus
        shiftStatus := if k = .shiftL ∨ k = .shiftR then 0 else s.shiftStatus
        altStatus := if k = .altL ∨ k = .altR then 0 else s.altStatus } := by
  have hcode (l : Key) : k.scancode = l.scancode ↔ k = l := ⟨Key.scancode_inj, fun h => h ▸ rfl⟩
  rw [breakCode, show (0x1d : ℕ) = Key.ctrlL.scancode from rfl, show (0xe01d : ℕ) = Key.ctrlR.scancode from rfl,
    show (0x2a : ℕ) = Key.shiftL.scancode from rfl, show (0x36 : ℕ) = Key.shiftR.scancode from rfl,
    show (0x38 : ℕ) = Key.altL.scancode from rfl, show (0xe038 : ℕ) = Key.altR.scancode from rfl]
  simp only [hcode]
  by_cases hctrl : k = .ctrlL ∨ k = .ctrlR
  · rcases hctrl with rfl | rfl <;> rfl
  · by_cases hshift : k = .shiftL ∨ k = .shiftR
    · rcases hshift with rfl | rfl <;> rfl
    · rw [if_neg hctrl, if_neg hctrl, if_neg hshift, if_neg hshift]
      split <;> rfl

/-! ## Make codes -/

theorem charAt_modifier {index : ℕ} (h : keymap.getD index (0, 0) = (0, 0)) (shift : ℕ) :
    charAt index shift = 0 := by
  rw [charAt, h]
  exact ite_self _

end State

namespace Key

/-- There are finitely many keys. -/
instance (P : Key → Prop) [DecidablePred P] : Decidable (∀ k, P k) :=
  decidable_of_iff (∀ p, ∀ c < 0x80, ∀ hc : c < 0x80 ∧ c ≠ 0x60, P ⟨p, c, hc⟩)
    ⟨fun h k => h k.prefixed k.code k.valid.1 k.valid, fun h p c _ hc => h ⟨p, c, hc⟩⟩

/-- The scan codes with an entry of `keymap`. -/
def Known (k : Key) : Prop :=
  (0x00 < k.scancode ∧ k.scancode < 0x3b) ∨ k.scancode = 0xe038 ∨ k.scancode = 0xe01d ∨ k.scancode = 0xe01c

instance (k : Key) : Decidable k.Known := inferInstanceAs (Decidable (_ ∨ _))

/-- What the handler finds for a key with the characters `l` on it. -/
def Carries (k : Key) (l : UInt8 × UInt8) : Prop :=
  k.Known ∧ keymap.getD (k.scancode &&& 0xff) (0, 0) = l ∧ (l.1 ≠ 0 ∧ l.2 ≠ 0) ∧
    (if isSymbol k.scancode then ¬(97 ≤ l.1 ∧ l.1 ≤ 122) else (97 ≤ l.1 ∧ l.1 ≤ 122) ∨ l.1 = l.2) ∧
      k.partner = none ∧ k ≠ .capsLock

instance (k : Key) (l : UInt8 × UInt8) : Decidable (k.Carries l) := inferInstanceAs (Decidable (_ ∧ _))

theorem chars_spec (k : Key) {l : UInt8 × UInt8} (hl : l ∈ k.chars) : k.Carries l := by
  -- one round for each key; `l` is not to be enumerated
  have hall : ∀ k : Key, k.chars.all (fun l => decide (k.Carries l)) = true := by decide +kernel
  have hk := hall k
  rw [Option.mem_def.mp hl, Option.all_some] at hk
  exact of_decide_eq_true hk

/-- What it finds for a key without characters. -/
theorem no_chars_spec : ∀ k : Key, k.chars = none →
    if k.Known then
      let index := k.scancode &&& 0x00ff
      keymap.getD index (0, 0) = (0, 0) ∧ (index = 0x1d ∨ index = 0xe01d ↔ k = .ctrlL ∨ k = .ctrlR) ∧
        (index = 0x2a ∨ index = 0x36 ↔ k = .shiftL ∨ k = .shiftR) ∧
        (index = 0x38 ∨ index = 0xe038 ↔ k = .altL ∨ k = .altR) ∧ (index = 0x3a ↔ k = .capsLock)
    else ¬(k = .ctrlL ∨ k = .ctrlR) ∧ ¬(k = .shiftL ∨ k = .shiftR) ∧ ¬(k = .altL ∨ k = .altR) ∧ k ≠ .capsLock := by
  decide +kernel

end Key

namespace State

variable {s : State} {d : Desk}

theorem ne_zero_iff_of_flag {status : ℕ} {b : Bool} (h : status = if b then 1 else 0) :
    status ≠ 0 ↔ b = true := by
  rw [h]
  cases b <;> decide

/-- The column of `keymap`, for a key with the characters `l`. -/
theorem charAt_shiftFor (h : Right s d) {k : Key} {l : UInt8 × UInt8} (hl : l ∈ k.chars) :
    charAt (k.scancode &&& 0xff) (s.shiftFor k.scancode) =
      if (if 97 ≤ l.1 ∧ l.1 ≤ 122 then d.shift ^^ d.caps else d.shift) then l.2 else l.1 := by
  obtain ⟨-, hcell, -, hletter, -⟩ := Key.chars_spec k hl
  have hshift := h.shift
  have hcaps : s.capsLockStatus = if d.caps then 1 else 0 := by
    rw [h.caps, Desk.caps]
    rcases Nat.mod_two_eq_zero_or_one d.capsPresses with hmod | hmod <;> rw [hmod] <;> rfl
  rw [charAt, hcell, shiftFor, hshift, hcaps]
  by_cases hsym : isSymbol k.scancode = true
  · rw [if_pos hsym] at hletter
    rw [if_pos hsym, if_neg hletter]
    cases d.shift <;> rfl
  · rw [if_neg hsym] at hletter
    rw [if_neg hsym]
    rcases hletter with hletter | hsame
    · rw [if_pos hletter]
      cases d.shift <;> cases d.caps <;> rfl
    · rw [hsame, ite_self, ite_self]

/-- A make code with characters. -/
theorem makeCode_char (h : Right s d) {k : Key} {l : UInt8 × UInt8} (hl : l ∈ k.chars) :
    s.makeCode k.scancode = { s with kbdBuf := putChar s.kbdBuf (d.character l) } := by
  obtain ⟨hknown, hcell, ⟨hfst, hsnd⟩, -⟩ := Key.chars_spec k hl
  have hchar := charAt_shiftFor h hl
  have hboth (b : Bool) : (if b then l.2 else l.1) ≠ 0 := by
    cases b with
    | false => exact hfst
    | true => exact hsnd
  have hne : charAt (k.scancode &&& 0x00ff) (s.shiftFor k.scancode) ≠ 0 := by
    rw [hchar]
    exact hboth _
  have hctrl := ne_zero_iff_of_flag h.ctrl
  rw [makeCode, if_pos (by exact hknown)]
  dsimp only
  rw [if_pos hne, hchar, Desk.character]
  simp only [hctrl]

/-- A make code without characters. -/
theorem makeCode_other {k : Key} (hk : k.chars = none) :
    s.makeCode k.scancode =
      { s with
        ctrlStatus := if k = .ctrlL ∨ k = .ctrlR then 1 else s.ctrlStatus
        shiftStatus := if k = .shiftL ∨ k = .shiftR then 1 else s.shiftStatus
        altStatus := if k = .altL ∨ k = .altR then 1 else s.altStatus
        capsLockStatus := if k = .capsLock then (if s.capsLockStatus = 0 then 1 else 0) else s.capsLockStatus } := by
  have hspec := Key.no_chars_spec k hk
  rw [makeCode]
  by_cases hknown : k.Known
  · rw [if_pos hknown] at hspec
    obtain ⟨hcell, hctrl, hshift, halt, hcaps⟩ := hspec
    rw [if_pos (by exact hknown)]
    simp only [charAt_modifier hcell, ne_eq, not_true_eq_false, if_false, hctrl, hshift, halt, hcaps]
    by_cases hk₁ : k = .ctrlL ∨ k = .ctrlR
    · rcases hk₁ with rfl | rfl <;> rfl
    · by_cases hk₂ : k = .shiftL ∨ k = .shiftR
      · rcases hk₂ with rfl | rfl <;> rfl
      · by_cases hk₃ : k = .altL ∨ k = .altR
        · rcases hk₃ with rfl | rfl <;> rfl
        · simp only [if_neg hk₁, if_neg hk₂, if_neg hk₃]
          split <;> rfl
  · rw [if_neg hknown] at hspec
    obtain ⟨hctrl, hshift, halt, hcaps⟩ := hspec
    rw [if_neg (by exact hknown), if_neg hctrl, if_neg hshift, if_neg halt, if_neg hcaps]

end State

/-! ## The queue -/

/-- The positions of the queue are inside of it. -/
def Fits (ioq : Ioqueue) : Prop := ioq.head < bufsize ∧ ioq.tail < bufsize

theorem nextPos_lt (pos : ℕ) : nextPos pos < bufsize := Nat.mod_lt _ (by decide)

theorem putChar_fits {ioq : Ioqueue} (h : Fits ioq) (c : UInt8) : Fits (putChar ioq c) := by
  unfold putChar
  split
  · exact h
  · exact ⟨nextPos_lt _, h.2⟩

theorem takeChar_fits {ioq : Ioqueue} (h : Fits ioq) : Fits (takeChar ioq) := by
  unfold takeChar
  split
  · exact h
  · exact ⟨h.1, nextPos_lt _⟩

theorem State.makeCode_steady {s : State} (h : Fits s.kbdBuf) (scancode : ℕ) :
    (s.makeCode scancode).extScancode = s.extScancode ∧ Fits (s.makeCode scancode).kbdBuf := by
  unfold State.makeCode
  dsimp only
  split_ifs
  · exact ⟨rfl, putChar_fits h _⟩
  · exact ⟨rfl, putChar_fits h _⟩
  all_goals exact ⟨rfl, h⟩

/-- A character that finds room comes last. -/
theorem putChar_content {ioq : Ioqueue} (h : Fits ioq) (c : UInt8) :
    (putChar ioq c).content = Desk.enqueue ioq.content c := by
  have hfull : ioqFull ioq = true ↔ ioq.content.length + 1 = bufsize := by
    rw [ioqFull, decide_eq_true_eq, Ioqueue.content, Ring.length_content, Ring.count_full h.2 h.1]
    rfl
  have hlt : ioq.content.length < bufsize := by
    rw [Ioqueue.content, Ring.length_content]
    exact Ring.count_lt h.2 h.1
  rw [putChar, Desk.enqueue]
  by_cases hc : ioqFull ioq = true
  · rw [if_pos hc, if_neg (by have := hfull.mp hc; omega)]
  · have hroom : nextPos ioq.head ≠ ioq.tail := by
      intro heq
      exact hc (by rw [ioqFull, heq, decide_eq_true rfl])
    rw [if_neg hc, if_pos (by have := mt hfull.mpr hc; omega)]
    exact Ring.content_push c h.2 h.1 hroom

/-- The first character is taken. -/
theorem takeChar_content {ioq : Ioqueue} (h : Fits ioq) : (takeChar ioq).content = ioq.content.drop 1 := by
  unfold takeChar
  split
  next hempty =>
    have hnone : ioq.content = [] := by
      rw [ioqEmpty, decide_eq_true_eq] at hempty
      rw [← List.length_eq_zero_iff, Ioqueue.content, Ring.length_content]
      exact (Ring.count_eq_zero h.2).mpr hempty
    rw [hnone, List.drop_nil]
  next hsome =>
    rw [ioqEmpty, decide_eq_true_eq] at hsome
    simp only [Ioqueue.content]
    rw [Ring.content_pop h.2 h.1 hsome]
    rfl

theorem takeChars_content {ioq : Ioqueue} (h : Fits ioq) (n : ℕ) :
    Fits (takeChar^[n] ioq) ∧ (takeChar^[n] ioq).content = ioq.content.drop n := by
  induction n with
  | zero => exact ⟨h, (List.drop_zero).symm⟩
  | succ n ih =>
      obtain ⟨hfits, hcontent⟩ := ih
      rw [Function.iterate_succ_apply']
      refine ⟨takeChar_fits hfits, ?_⟩
      rw [takeChar_content hfits, hcontent, List.drop_drop]

/-! ## Pairs of keys -/

/-- One of two keys is released while the other one is down. -/
def Lifts (f : Key → Bool) (k a b : Key) : Prop := (k = a ∧ f b = true) ∨ (k = b ∧ f a = true)

theorem lifts_iff (f : Key → Bool) (k : Key) :
    (∃ l ∈ k.partner, f l = true) ↔
      Lifts f k .ctrlL .ctrlR ∨ Lifts f k .shiftL .shiftR ∨ Lifts f k .altL .altR := by
  constructor
  · rintro ⟨l, hl, hdown⟩
    unfold Key.partner at hl
    split_ifs at hl with hk hk hk hk hk hk
    · exact .inl (.inl ⟨hk, Option.some.inj hl ▸ hdown⟩)
    · exact .inl (.inr ⟨hk, Option.some.inj hl ▸ hdown⟩)
    · exact .inr (.inl (.inl ⟨hk, Option.some.inj hl ▸ hdown⟩))
    · exact .inr (.inl (.inr ⟨hk, Option.some.inj hl ▸ hdown⟩))
    · exact .inr (.inr (.inl ⟨hk, Option.some.inj hl ▸ hdown⟩))
    · exact .inr (.inr (.inr ⟨hk, Option.some.inj hl ▸ hdown⟩))
    · cases hl
  · rintro ((⟨rfl, h⟩ | ⟨rfl, h⟩) | (⟨rfl, h⟩ | ⟨rfl, h⟩) | (⟨rfl, h⟩ | ⟨rfl, h⟩))
    all_goals exact ⟨_, rfl, h⟩

section Pair

variable {f : Key → Bool} {a b : Key} {status : ℕ}

/-- The flag of a pair after a key was pressed. -/
theorem flag_press (h : status = if f a || f b then 1 else 0) (k : Key) :
    (if k = a ∨ k = b then 1 else status) =
      if Function.update f k true a || Function.update f k true b then 1 else 0 := by
  by_cases ha : k = a
  · rw [if_pos (.inl ha), ha, Function.update_self, Bool.true_or, if_pos rfl]
  · by_cases hb : k = b
    · rw [if_pos (.inr hb), hb, Function.update_self, Bool.or_true, if_pos rfl]
    · rw [if_neg (not_or.mpr ⟨ha, hb⟩), Function.update_of_ne (Ne.symm ha), Function.update_of_ne (Ne.symm hb), h]

/-- The flag of a pair after a key was released. -/
theorem flag_release_iff (hab : a ≠ b) (h : status = if f a || f b then 1 else 0) (k : Key) :
    ((if k = a ∨ k = b then 0 else status) =
      if Function.update f k false a || Function.update f k false b then 1 else 0) ↔ ¬Lifts f k a b := by
  by_cases ha : k = a
  · subst ha
    rw [if_pos (.inl rfl), Function.update_self, Bool.false_or, Function.update_of_ne hab.symm, Lifts]
    cases hb : f b <;> simp [hab]
  · by_cases hb : k = b
    · subst hb
      rw [if_pos (.inr rfl), Function.update_self, Bool.or_false, Function.update_of_ne hab, Lifts]
      cases hfa : f a <;> simp [ha]
    · rw [if_neg (not_or.mpr ⟨ha, hb⟩), Function.update_of_ne (Ne.symm ha), Function.update_of_ne (Ne.symm hb), h]
      exact iff_of_true rfl (by rintro (⟨heq, -⟩ | ⟨heq, -⟩) <;> contradiction)

end Pair

/-! ## Events -/

section Step

variable {s : State} {d : Desk}

/-- The break code of a key is handled right, unless the other key of its pair is down. -/
theorem right_release_iff (h : Right s d) (k : Key) :
    Right (s.breakCode k.scancode) { d with down := Function.update d.down k false } ↔
      ¬∃ l ∈ k.partner, d.down l = true := by
  have hctrl := flag_release_iff (by decide) h.ctrl k
  have hshift := flag_release_iff (by decide) h.shift k
  have halt := flag_release_iff (by decide) h.alt k
  rw [State.breakCode_eq, lifts_iff, not_or, not_or, ← hctrl, ← hshift, ← halt]
  constructor
  · exact fun hnext => ⟨hnext.ctrl, hnext.shift, hnext.alt⟩
  · exact fun hnext => ⟨hnext.1, hnext.2.1, hnext.2.2, h.caps, h.queue⟩

/-- The make code of a key is always handled right. -/
theorem right_press (h : Right s d) (hfits : Fits s.kbdBuf) (k : Key) :
    Right (s.makeCode k.scancode)
      { down := Function.update d.down k true
        capsPresses := if k = .capsLock then d.capsPresses + 1 else d.capsPresses
        queue := match k.chars with
          | none => d.queue
          | some chars => Desk.enqueue d.queue (d.character chars) } := by
  have hctrl := flag_press h.ctrl k
  have hshift := flag_press h.shift k
  have halt := flag_press h.alt k
  cases hk : k.chars with
  | none =>
      rw [State.makeCode_other hk]
      refine ⟨hctrl, hshift, halt, ?_, h.queue⟩
      dsimp only
      rw [h.caps]
      split
      · rcases Nat.mod_two_eq_zero_or_one d.capsPresses with hmod | hmod <;> rw [hmod]
        · rw [if_pos rfl]
          omega
        · rw [if_neg one_ne_zero]
          omega
      · rfl
  | some l =>
      obtain ⟨-, -, -, -, hpartner, hcaps⟩ := Key.chars_spec k hk
      -- no flag is touched, and the key is not one of a pair
      have hpair (a b : Key) (ha : a.partner ≠ none) (hb : b.partner ≠ none) : ¬(k = a ∨ k = b) := by
        rintro (rfl | rfl)
        · exact ha hpartner
        · exact hb hpartner
      rw [if_neg (hpair _ _ (by decide) (by decide))] at hctrl hshift halt
      rw [State.makeCode_char h hk, if_neg hcaps]
      refine ⟨hctrl, hshift, halt, h.caps, ?_⟩
      dsimp only
      rw [putChar_content hfits, h.queue]

theorem right_taken (h : Right s d) (hfits : Fits s.kbdBuf) (n : ℕ) :
    Right (s.taken n) { d with queue := d.queue.drop n } :=
  ⟨h.ctrl, h.shift, h.alt, h.caps, by rw [State.taken, (takeChars_content hfits n).2, h.queue]⟩

/-- An event is handled right, if and only if it does not lift one key of a pair. -/
theorem right_event_iff (h : Right s d) (hext : s.extScancode = 0) (hfits : Fits s.kbdBuf) (e : Event) :
    Right (s.event e) (d.event e) ↔ ¬d.LiftsOne e := by
  have htaken := right_taken h hfits (e.takes + if e.key.prefixed then e.takes' else 0)
  have hfits' := (takeChars_content hfits (e.takes + if e.key.prefixed then e.takes' else 0)).1
  rw [State.event_eq _ _ hext, Desk.event, Desk.LiftsOne]
  cases hdown : e.down with
  | false =>
      simp only [Bool.false_eq_true, false_and, if_false, true_and]
      exact right_release_iff htaken e.key
  | true =>
      simp only [Bool.true_eq_false, false_and, not_false_eq_true, iff_true, if_true, true_and]
      exact right_press htaken hfits' e.key

/-- No event leaves a prefix behind or a queue that is no ring. -/
theorem event_steady (hext : s.extScancode = 0) (hfits : Fits s.kbdBuf) (e : Event) :
    (s.event e).extScancode = 0 ∧ Fits (s.event e).kbdBuf := by
  have hfits' := (takeChars_content hfits (e.takes + if e.key.prefixed then e.takes' else 0)).1
  rw [State.event_eq _ _ hext]
  cases e.down with
  | false =>
      dsimp only
      rw [if_neg Bool.false_ne_true, State.breakCode_eq]
      exact ⟨hext, hfits'⟩
  | true =>
      dsimp only
      rw [if_pos rfl]
      obtain ⟨hsame, hring⟩ := State.makeCode_steady (s := s.taken _) hfits' e.key.scancode
      exact ⟨hsame.trans hext, hring⟩

end Step

/-! ## All events -/

theorem run_snoc (buf : ℕ → UInt8) (es : List Event) (e : Event) : run buf (es ++ [e]) = (run buf es).event e := by
  rw [run, List.foldl_append]
  rfl

theorem Desk.after_snoc (es : List Event) (e : Event) : after (es ++ [e]) = (after es).event e := by
  rw [after, List.foldl_append]
  rfl

theorem run_steady (buf : ℕ → UInt8) (es : List Event) :
    (run buf es).extScancode = 0 ∧ Fits (run buf es).kbdBuf := by
  induction es using List.reverseRecOn with
  | nil => exact ⟨rfl, show 0 < bufsize by decide, show 0 < bufsize by decide⟩
  | append_singleton es e ih =>
      rw [run_snoc]
      exact event_steady ih.1 ih.2 e

/-- After every event the flags, caps lock and the queue are right, if and only if no key of a pair is
released while the other one is down. -/
theorem keyboard_right_iff (buf : ℕ → UInt8) (es : List Event) :
    (∀ u, u <+: es → Right (run buf u) (Desk.after u)) ↔
      ∀ u e v, es = u ++ e :: v → ¬(Desk.after u).LiftsOne e := by
  refine Runs.good_beginnings_iff ⟨rfl, rfl, rfl, rfl, rfl⟩ (fun u e h => ?_) es
  rw [run_snoc, Desk.after_snoc]
  exact right_event_iff h (run_steady buf u).1 (run_steady buf u).2 e

/-- Both ctrl keys go down, then the left one comes up. -/
theorem not_always_right : ¬∀ buf es, Right (run buf es) (Desk.after es) := by
  intro h
  have hctrl := (h (fun _ => 0) [⟨.ctrlL, true, 0, 0⟩, ⟨.ctrlR, true, 0, 0⟩, ⟨.ctrlL, false, 0, 0⟩]).ctrl
  exact absurd hctrl (by decide)

end BochsOs.Keyboard
