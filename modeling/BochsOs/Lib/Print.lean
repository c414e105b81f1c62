import BochsOs.Library.Bytes
import BochsOs.Library.Runs

/-!
# The text screen

`put_char` and `cls_screen` of `lib/kernel/print.S`.  The text page has 80 columns and 25 lines, a byte
for the character and one for its colours in every cell; `bx` has 16 bits and is compared as a signed
number.  Addresses are offsets in the page, and every byte that is read or written is put down in
`touched`.

What the screen is for is a `Paper` that goes on for ever, of which the last 25 lines are in sight.
`Shows` relates the two, and every character keeps it (`putChar_shows`), with one exception.  The cell
in front of the first one is at `0xffff`: a backspace at the first cell writes behind the page, and the
cursor leaves the screen.  Without one everything comes out as it should (`console_right_iff`).
-/

namespace BochsOs.Console

open ByteMemory

/-! ## The code -/

/-- The bytes of video memory, the cursor registers, and, to be watched, the offsets accessed. -/
structure Screen where
  vram : Bytes
  cursor : ℕ
  touched : List ℕ

/-- A 16-bit register as a signed number. -/
def signed16 (x : ℕ) : ℤ := if x < 2 ^ 15 then x else x - 2 ^ 16

namespace Screen

/-- `mov byte [gs: a], v`. -/
def poke (s : Screen) (a : ℕ) (v : UInt8) : Screen :=
  { s with vram := Function.update s.vram a v, touched := a :: s.touched }

/-- `movsd`. -/
def moveDword (s : Screen) (esi edi : ℕ) : Screen :=
  { s with
    vram := copy s.vram edi s.vram esi 4
    touched := [esi, esi + 1, esi + 2, esi + 3, edi, edi + 1, edi + 2, edi + 3] ++ s.touched }

/-- `rep movsd`. -/
def repMovsd : (ecx : ℕ) → Screen → (esi edi : ℕ) → Screen
  | 0, s, _, _ => s
  | ecx + 1, s, esi, edi => repMovsd ecx (s.moveDword esi edi) (esi + 4) (edi + 4)

/-- The loop `.cls`: the word `0x0720`, a blank, again and again. -/
def cls : (ecx : ℕ) → Screen → (ebx : ℕ) → Screen
  | 0, s, _ => s
  | ecx + 1, s, ebx => cls ecx ((s.poke ebx 32).poke (ebx + 1) 7) (ebx + 2)

/-- `.set_cursor`. -/
def setCursor (s : Screen) (bx : ℕ) : Screen := { s with cursor := bx }

/-- `.roll_screen`. -/
def rollScreen (s : Screen) : Screen := (cls 80 (repMovsd 960 s 160 0) 3840).setCursor 1920

/-- From `.is_carriage_return` on. -/
def lineFeed (s : Screen) (bx : ℕ) : Screen :=
  let dx := bx % 80
  let bx := bx - dx
  let bx := (bx + 80) % 2 ^ 16
  if signed16 bx < 2000 then s.setCursor bx else s.rollScreen

/-- `.is_backsapce`. -/
def backSpace (s : Screen) (bx : ℕ) : Screen :=
  let bx := (bx + (2 ^ 16 - 1)) % 2 ^ 16
  let bx := bx * 2 % 2 ^ 16
  let s := s.poke bx 32
  let bx := (bx + 1) % 2 ^ 16
  let s := s.poke bx 7
  s.setCursor (bx / 2)

/-- `.put_other`. -/
def putOther (s : Screen) (bx : ℕ) (cl : UInt8) : Screen :=
  let bx := bx * 2 % 2 ^ 16
  let s := s.poke bx cl
  let bx := (bx + 1) % 2 ^ 16
  let s := s.poke bx 7
  let bx := bx / 2
  let bx := (bx + 1) % 2 ^ 16
  if signed16 bx < 2000 then s.setCursor bx else s.lineFeed bx

/-- `put_char`. -/
def putChar (s : Screen) (cl : UInt8) : Screen :=
  let bx := s.cursor
  if cl = 0x0d then s.lineFeed bx
  else if cl = 0x0a then s.lineFeed bx
  else if cl = 0x08 then s.backSpace bx
  else s.putOther bx cl

/-- `cls_screen`. -/
def clsScreen (s : Screen) : Screen := (cls 2000 s 0).setCursor 0

end Screen

/-- The characters one after the other, on a cleared screen that held `vram`. -/
def display (vram : Bytes) (cs : List UInt8) : Screen :=
  cs.foldl Screen.putChar (Screen.clsScreen ⟨vram, 0, []⟩)

/-! ## The paper -/

/-- The characters in the cells, line by line, the next cell, and the last line begun. -/
structure Paper where
  cell : ℕ → UInt8
  pos : ℕ
  last : ℕ

namespace Paper

/-- A blank sheet. -/
def blank : Paper := ⟨fun _ => 32, 0, 0⟩

/-- The first of the 25 lines in sight. -/
def top (p : Paper) : ℕ := p.last - 24

/-- The next cell is at `pos`; lines up to there have begun. -/
def moveTo (p : Paper) (pos : ℕ) : Paper := { p with pos := pos, last := max p.last (pos / 80) }

/-- One more character: CR and LF start a new line, a backspace blanks the previous cell and moves there,
everything else is printed. -/
def type (p : Paper) (c : UInt8) : Paper :=
  if c = 0x0d ∨ c = 0x0a then p.moveTo (80 * (p.pos / 80 + 1))
  else if c = 0x08 then { p with cell := Function.update p.cell (p.pos - 1) 32, pos := p.pos - 1 }
  else { p with cell := Function.update p.cell p.pos c }.moveTo (p.pos + 1)

/-- The paper after some characters. -/
def after (cs : List UInt8) : Paper := cs.foldl type blank

/-- The next cell is the first one in sight. -/
def AtTop (p : Paper) : Prop := p.pos = 80 * p.top

/-- Behind the last line everything is blank. -/
structure Proper (p : Paper) : Prop where
  pos : p.pos < 80 * (p.last + 1)
  blank : ∀ q, 80 * (p.last + 1) ≤ q → p.cell q = 32

theorem Proper.type {p : Paper} (h : p.Proper) (c : UInt8) : (p.type c).Proper := by
  have hpos := h.pos
  rw [Paper.type]
  split_ifs
  · refine ⟨?_, fun q hq => h.blank q ?_⟩
    · show 80 * (p.pos / 80 + 1) < 80 * (max p.last (80 * (p.pos / 80 + 1) / 80) + 1)
      omega
    · have hq : 80 * (max p.last (80 * (p.pos / 80 + 1) / 80) + 1) ≤ q := hq
      omega
  · refine ⟨?_, fun q hq => ?_⟩
    · show p.pos - 1 < 80 * (p.last + 1)
      omega
    · have hq : 80 * (p.last + 1) ≤ q := hq
      exact (Function.update_of_ne (by omega) _ _).trans (h.blank q hq)
  · refine ⟨?_, fun q hq => ?_⟩
    · show p.pos + 1 < 80 * (max p.last ((p.pos + 1) / 80) + 1)
      omega
    · have hq : 80 * (max p.last ((p.pos + 1) / 80) + 1) ≤ q := hq
      exact (Function.update_of_ne (by omega) _ _).trans (h.blank q (by omega))

theorem proper_after (cs : List UInt8) : (after cs).Proper := by
  induction cs using List.reverseRecOn with
  | nil => exact ⟨by decide, fun _ _ => rfl⟩
  | append_singleton cs c ih =>
      rw [after, List.foldl_append]
      exact ih.type c

end Paper

/-- The screen shows the last 25 lines of the paper, and nothing outside of the page was touched. -/
structure Shows (s : Screen) (p : Paper) : Prop where
  cursor : s.cursor + 80 * p.top = p.pos
  bound : s.cursor < 2000
  cells : ∀ i < 2000, s.vram (2 * i) = p.cell (80 * p.top + i) ∧ s.vram (2 * i + 1) = 7
  inside : ∀ a ∈ s.touched, a < 4000

@[simp] theorem setCursor_vram (s : Screen) (bx : ℕ) : (s.setCursor bx).vram = s.vram := rfl

@[simp] theorem setCursor_touched (s : Screen) (bx : ℕ) : (s.setCursor bx).touched = s.touched := rfl

/-! ## The loops -/

section Loops

variable {s : Screen} {n e x a : ℕ}

/-- The copy runs ahead of itself, so every byte comes from where it was. -/
theorem repMovsd_vram : (Screen.repMovsd n s (e + 160) e).vram x =
    if e ≤ x ∧ x < e + 4 * n then s.vram (x + 160) else s.vram x := by
  induction n generalizing s e with
  | zero =>
      rw [if_neg (by omega)]
      rfl
  | succ n ih =>
      have hmove : ∀ y, (s.moveDword (e + 160) e).vram y =
          if e ≤ y ∧ y < e + 4 then s.vram (e + 160 + (y - e)) else s.vram y := fun y => rfl
      rw [Screen.repMovsd, show e + 160 + 4 = e + 4 + 160 by omega, ih]
      by_cases hlater : e + 4 ≤ x ∧ x < e + 4 + 4 * n
      · rw [if_pos hlater, hmove, if_neg (by omega), if_pos (by omega)]
      · rw [if_neg hlater, hmove]
        by_cases hnow : e ≤ x ∧ x < e + 4
        · rw [if_pos hnow, if_pos (by omega)]
          congr 1
          omega
        · rw [if_neg hnow, if_neg (by omega)]

theorem repMovsd_touched (ha : a ∈ (Screen.repMovsd n s (e + 160) e).touched) :
    a ∈ s.touched ∨ a < e + 160 + 4 * n := by
  induction n generalizing s e with
  | zero => exact Or.inl ha
  | succ n ih =>
      rw [Screen.repMovsd, show e + 160 + 4 = e + 4 + 160 by omega] at ha
      rcases ih ha with hmem | hlt
      · rcases List.mem_append.mp hmem with hnew | hold
        · right
          simp only [List.mem_cons, List.not_mem_nil, or_false] at hnew
          omega
        · exact Or.inl hold
      · right
        omega

theorem cls_vram : (Screen.cls n s e).vram x =
    if e ≤ x ∧ x < e + 2 * n then (if (x - e) % 2 = 0 then 32 else 7) else s.vram x := by
  induction n generalizing s e with
  | zero =>
      rw [if_neg (by omega)]
      rfl
  | succ n ih =>
      have hpoke : ((s.poke e 32).poke (e + 1) 7).vram x =
          if x = e + 1 then 7 else if x = e then 32 else s.vram x := by
        show Function.update (Function.update s.vram e 32) (e + 1) 7 x = _
        rw [Function.update_apply, Function.update_apply]
      rw [Screen.cls, ih]
      by_cases hlater : e + 2 ≤ x ∧ x < e + 2 + 2 * n
      · have hall : e ≤ x ∧ x < e + 2 * (n + 1) := by omega
        rw [if_pos hlater, if_pos hall, show x - e = x - (e + 2) + 2 by omega, Nat.add_mod_right]
      · rw [if_neg hlater, hpoke]
        split_ifs <;> first | rfl | omega

theorem cls_touched (ha : a ∈ (Screen.cls n s e).touched) : a ∈ s.touched ∨ a < e + 2 * n := by
  induction n generalizing s e with
  | zero => exact Or.inl ha
  | succ n ih =>
      rw [Screen.cls] at ha
      rcases ih ha with hmem | hlt
      · rcases List.mem_cons.mp hmem with rfl | hmem
        · right
          omega
        · rcases List.mem_cons.mp hmem with rfl | hmem
          · right
            omega
          · exact Or.inl hmem
      · right
        omega

end Loops

/-! ## One character -/

section Step

variable {s : Screen} {p p' : Paper} {bx a : ℕ} {c : UInt8}

/-- The cells in sight have their characters, and nothing outside of the page was touched. -/
structure Drawn (s : Screen) (p : Paper) : Prop where
  cells : ∀ i < 2000, s.vram (2 * i) = p.cell (80 * p.top + i) ∧ s.vram (2 * i + 1) = 7
  inside : ∀ a ∈ s.touched, a < 4000

theorem Shows.drawn (h : Shows s p) : Drawn s p := ⟨h.cells, h.inside⟩

theorem Drawn.setCursor (h : Drawn s p) (hbx : bx < 2000) (hpos : bx + 80 * p'.top = p'.pos)
    (hcell : p'.cell = p.cell) (htop : p'.top = p.top) : Shows (s.setCursor bx) p' := by
  refine ⟨hpos, hbx, fun i hi => ?_, h.inside⟩
  rw [hcell, htop]
  exact h.cells i hi

theorem rollScreen_vram (s : Screen) (x : ℕ) : s.rollScreen.vram x =
    if x < 3840 then s.vram (x + 160) else if x < 4000 then (if x % 2 = 0 then 32 else 7) else s.vram x := by
  rw [Screen.rollScreen, setCursor_vram, cls_vram, show 160 = 0 + 160 from rfl, repMovsd_vram]
  split_ifs <;> first | rfl | omega

theorem rollScreen_touched (ha : a ∈ s.rollScreen.touched) : a ∈ s.touched ∨ a < 4000 := by
  rw [Screen.rollScreen, setCursor_touched, show 160 = 0 + 160 from rfl] at ha
  rcases cls_touched ha with hmem | hlt
  · rcases repMovsd_touched hmem with hmem | hlt
    · exact Or.inl hmem
    · exact Or.inr (by omega)
  · exact Or.inr (by omega)

/-- The 25th line is blank after scrolling, as it is on the paper. -/
theorem Drawn.roll (h : Drawn s p) (hcell : p'.cell = p.cell) (htop : p'.top = p.top + 1)
    (hpos : p'.pos = 80 * p'.top + 1920) (hblank : ∀ q, 80 * p'.top + 1920 ≤ q → p.cell q = 32) :
    Shows s.rollScreen p' := by
  refine ⟨?_, ?_, fun i hi => ?_, fun a ha => (rollScreen_touched ha).elim (h.inside a) id⟩
  · rw [hpos, Nat.add_comm]
    rfl
  · show 1920 < 2000
    omega
  · rw [rollScreen_vram, rollScreen_vram, hcell]
    by_cases hlow : i < 1920
    · obtain ⟨hchar, hattr⟩ := h.cells (i + 80) (by omega)
      rw [if_pos (by omega), if_pos (by omega), show 2 * i + 160 = 2 * (i + 80) by omega,
        show 2 * i + 1 + 160 = 2 * (i + 80) + 1 by omega, hchar, hattr]
      refine ⟨?_, rfl⟩
      congr 1
      omega
    · rw [if_neg (by omega), if_pos (by omega), if_pos (by omega), if_neg (by omega), if_pos (by omega),
        if_neg (by omega), hblank _ (by omega)]
      exact ⟨rfl, rfl⟩

theorem signed16_lt_iff (hbx : bx < 2 ^ 15) : signed16 bx < 2000 ↔ bx < 2000 := by
  rw [signed16, if_pos hbx]
  omega

/-- A new line below the one that `bx` is on. -/
theorem Drawn.lineFeed (h : Drawn s p) (hbx : bx < 2000) (hcell : p'.cell = p.cell)
    (hpos : p'.pos = 80 * (p.top + bx / 80 + 1)) (htop : p'.top = if bx / 80 < 24 then p.top else p.top + 1)
    (hblank : ∀ q, 80 * (p.top + 25) ≤ q → p.cell q = 32) : Shows (s.lineFeed bx) p' := by
  have hnext : (bx - bx % 80 + 80) % 2 ^ 16 = 80 * (bx / 80 + 1) := by omega
  rw [Screen.lineFeed, hnext]
  by_cases hin : bx / 80 < 24
  · rw [if_pos hin] at htop
    rw [if_pos ((signed16_lt_iff (by omega)).mpr (by omega))]
    exact h.setCursor (by omega) (by rw [htop, hpos]; omega) hcell htop
  · rw [if_neg hin] at htop
    rw [if_neg (fun hlt => absurd ((signed16_lt_iff (by omega)).mp hlt) (by omega))]
    refine h.roll hcell htop ?_ fun q hq => hblank q ?_
    · rw [hpos, htop]
      omega
    · rw [htop] at hq
      omega

/-- Behind the last cell there is no line left. -/
theorem lineFeed_end (s : Screen) : s.lineFeed 2000 = s.rollScreen := by
  rw [Screen.lineFeed]
  exact if_neg (by decide)

/-- The top line moves when the position leaves the last line in sight. -/
theorem top_moveTo (cell : ℕ → UInt8) (pos : ℕ) (hproper : p.Proper) (hlow : 80 * p.top ≤ p.pos)
    (hpos : pos ≤ 80 * (p.top + 25)) :
    (Paper.moveTo { p with cell := cell } pos).top = if pos / 80 < p.top + 25 then p.top else p.top + 1 := by
  have hlast := hproper.pos
  have htop : p.top = p.last - 24 := rfl
  show max p.last (pos / 80) - 24 = _
  split_ifs <;> omega

/-- The paper is blank behind the lines in sight. -/
theorem blank_below (hproper : p.Proper) : ∀ q, 80 * (p.top + 25) ≤ q → p.cell q = 32 := by
  have htop : p.top = p.last - 24 := rfl
  exact fun q hq => hproper.blank q (by omega)

/-- A cell in sight is written, the character and its colours. -/
theorem Shows.write {i : ℕ} (h : Shows s p) (hi : i < 2000) :
    Drawn ((s.poke (2 * i) c).poke (2 * i + 1) 7)
      { p with cell := Function.update p.cell (80 * p.top + i) c } := by
  refine ⟨fun j hj => ?_, fun a ha => ?_⟩
  · obtain ⟨hchar, hattr⟩ := h.cells j hj
    show Function.update (Function.update s.vram (2 * i) c) (2 * i + 1) 7 (2 * j) =
        Function.update p.cell (80 * p.top + i) c (80 * p.top + j) ∧
      Function.update (Function.update s.vram (2 * i) c) (2 * i + 1) 7 (2 * j + 1) = 7
    rw [Function.update_of_ne (by omega)]
    by_cases hji : j = i
    · rw [hji, Function.update_self, Function.update_self, Function.update_self]
      exact ⟨rfl, rfl⟩
    · rw [Function.update_of_ne (by omega), Function.update_of_ne (by omega),
        Function.update_of_ne (by omega), Function.update_of_ne (by omega), hchar, hattr]
      exact ⟨rfl, rfl⟩
  · rcases List.mem_cons.mp ha with rfl | ha
    · omega
    · rcases List.mem_cons.mp ha with rfl | ha
      · omega
      · exact h.inside a ha

theorem putOther_shows (h : Shows s p) (hproper : p.Proper) :
    Shows (s.putOther s.cursor c) (Paper.moveTo { p with cell := Function.update p.cell p.pos c } (p.pos + 1)) := by
  have hcursor := h.cursor
  have hbound := h.bound
  have hbyte : s.cursor * 2 % 2 ^ 16 = 2 * s.cursor := by omega
  have hattr : (2 * s.cursor + 1) % 2 ^ 16 = 2 * s.cursor + 1 := by omega
  have hnext : ((2 * s.cursor + 1) / 2 + 1) % 2 ^ 16 = s.cursor + 1 := by omega
  have hwrite := h.write (c := c) hbound
  rw [show 80 * p.top + s.cursor = p.pos by omega] at hwrite
  have htop := top_moveTo (Function.update p.cell p.pos c) (p.pos + 1) hproper
    (by omega) (by omega)
  rw [Screen.putOther, hbyte, hattr, hnext]
  by_cases hin : s.cursor + 1 < 2000
  · rw [if_pos (by omega)] at htop
    rw [if_pos ((signed16_lt_iff (by omega)).mpr hin)]
    refine hwrite.setCursor hin ?_ rfl htop
    rw [htop]
    show s.cursor + 1 + 80 * p.top = p.pos + 1
    omega
  · rw [if_neg (by omega)] at htop
    have hend : s.cursor + 1 = 2000 := by omega
    rw [if_neg (fun hlt => hin ((signed16_lt_iff (by omega)).mp hlt)), hend, lineFeed_end]
    refine hwrite.roll rfl htop ?_ fun q hq => ?_
    · rw [htop]
      show p.pos + 1 = _
      omega
    · rw [htop] at hq
      exact (Function.update_of_ne (by omega) _ _).trans (blank_below hproper q (by omega))

theorem lineFeed_shows (h : Shows s p) (hproper : p.Proper) :
    Shows (s.lineFeed s.cursor) (p.moveTo (80 * (p.pos / 80 + 1))) := by
  have hcursor := h.cursor
  have hbound := h.bound
  have htop := top_moveTo p.cell (80 * (p.pos / 80 + 1)) hproper (by omega)
    (by omega)
  refine h.drawn.lineFeed hbound rfl ?_ ?_ (blank_below hproper)
  · show 80 * (p.pos / 80 + 1) = _
    omega
  · refine htop.trans (if_congr ?_ rfl rfl)
    omega

/-- Not at the first cell in sight, the previous cell is on the screen. -/
theorem backSpace_shows (h : Shows s p) (hback : ¬p.AtTop) :
    Shows (s.backSpace s.cursor)
      { p with cell := Function.update p.cell (p.pos - 1) 32, pos := p.pos - 1 } := by
  have hcursor := h.cursor
  have hbound := h.bound
  have hpos : s.cursor ≠ 0 := by
    intro hzero
    rw [hzero, Nat.zero_add] at hcursor
    exact hback hcursor.symm
  have hdec : (s.cursor + (2 ^ 16 - 1)) % 2 ^ 16 = s.cursor - 1 := by omega
  have hbyte : (s.cursor - 1) * 2 % 2 ^ 16 = 2 * (s.cursor - 1) := by omega
  have hattr : (2 * (s.cursor - 1) + 1) % 2 ^ 16 = 2 * (s.cursor - 1) + 1 := by omega
  have hwrite := h.write (c := 32) (i := s.cursor - 1) (by omega)
  rw [show 80 * p.top + (s.cursor - 1) = p.pos - 1 by omega] at hwrite
  rw [Screen.backSpace, hdec, hbyte, hattr]
  refine hwrite.setCursor (by omega) ?_ rfl rfl
  show (2 * (s.cursor - 1) + 1) / 2 + 80 * p.top = p.pos - 1
  omega

/-- Every character but a backspace at the first cell in sight. -/
theorem putChar_shows (h : Shows s p) (hproper : p.Proper) (hback : c = 0x08 → ¬p.AtTop) :
    Shows (s.putChar c) (p.type c) := by
  rw [Screen.putChar, Paper.type]
  by_cases hcr : c = 0x0d
  · rw [if_pos hcr, if_pos (Or.inl hcr)]
    exact lineFeed_shows h hproper
  · rw [if_neg hcr]
    by_cases hlf : c = 0x0a
    · rw [if_pos hlf, if_pos (Or.inr hlf)]
      exact lineFeed_shows h hproper
    · rw [if_neg hlf, if_neg (not_or.mpr ⟨hcr, hlf⟩)]
      by_cases hbs : c = 0x08
      · rw [if_pos hbs, if_pos hbs]
        exact backSpace_shows h (hback hbs)
      · rw [if_neg hbs, if_neg hbs]
        exact putOther_shows h hproper

theorem clsScreen_shows (vram : Bytes) : Shows (Screen.clsScreen ⟨vram, 0, []⟩) Paper.blank := by
  refine ⟨rfl, show 0 < 2000 by omega, fun i hi => ?_, fun a ha => ?_⟩
  · rw [Screen.clsScreen, setCursor_vram, cls_vram, cls_vram, if_pos (by omega), if_pos (by omega), if_pos (by omega),
      if_neg (by omega)]
    exact ⟨rfl, rfl⟩
  · rw [Screen.clsScreen, setCursor_touched] at ha
    rcases cls_touched ha with hmem | hlt
    · cases hmem
    · omega

/-- The cell in front of the first one is outside of the page. -/
theorem backSpace_start (h : s.cursor = 0) : 65534 ∈ (s.putChar 0x08).touched := by
  have hback : s.putChar 0x08 = s.backSpace 0 := by rw [← h]; rfl
  rw [hback]
  exact List.mem_cons_of_mem _ List.mem_cons_self

end Step

/-! ## All characters -/

theorem display_snoc (vram : Bytes) (cs : List UInt8) (c : UInt8) :
    display vram (cs ++ [c]) = (display vram cs).putChar c := by
  rw [display, List.foldl_append]
  rfl

theorem after_snoc (cs : List UInt8) (c : UInt8) : Paper.after (cs ++ [c]) = (Paper.after cs).type c := by
  rw [Paper.after, List.foldl_append]
  rfl

theorem not_shows_of_atTop {vram : Bytes} {cs : List UInt8} (h : Shows (display vram cs) (Paper.after cs))
    (htop : (Paper.after cs).AtTop) :
    ¬Shows (display vram (cs ++ [0x08])) (Paper.after (cs ++ [0x08])) := by
  intro hnext
  have hcursor := h.cursor
  rw [show (Paper.after cs).pos = 80 * (Paper.after cs).top from htop] at hcursor
  rw [display_snoc] at hnext
  exact absurd (hnext.inside _ (backSpace_start (by omega))) (by decide)

/-- After every character of a text the screen shows the last 25 lines, with the cursor on it and all
accesses inside of the page, if and only if no backspace comes at the first cell in sight. -/
theorem console_right_iff (vram : Bytes) (cs : List UInt8) :
    (∀ u, u <+: cs → Shows (display vram u) (Paper.after u)) ↔
      ∀ u v, cs = u ++ 0x08 :: v → ¬(Paper.after u).AtTop := by
  have hstep (u : List UInt8) (c : UInt8) (h : Shows (display vram u) (Paper.after u)) :
      Shows (display vram (u ++ [c])) (Paper.after (u ++ [c])) ↔ ¬(c = 0x08 ∧ (Paper.after u).AtTop) := by
    constructor
    · rintro hnext ⟨rfl, htop⟩
      exact not_shows_of_atTop h htop hnext
    · intro hback
      rw [display_snoc, after_snoc]
      exact putChar_shows h (Paper.proper_after u) fun hc htop => hback ⟨hc, htop⟩
  refine (Runs.good_beginnings_iff (clsScreen_shows vram) hstep cs).trans ?_
  constructor
  · exact fun h u v hu htop => h u 0x08 v hu ⟨rfl, htop⟩
  · rintro h u c v hu ⟨rfl, htop⟩
    exact h u v hu htop

/-- A backspace on the cleared screen. -/
theorem not_always_shows : ¬∀ vram cs, Shows (display vram cs) (Paper.after cs) :=
  fun h => not_shows_of_atTop (show Shows (display (fun _ => 0) []) (Paper.after []) from h _ _) rfl
    (h (fun _ => 0) [0x08])

end BochsOs.Console
