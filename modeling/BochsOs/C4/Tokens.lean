import BochsOs.C4.Compiler
import BochsOs.C4.Syntax

/-!
# What `next` leaves behind it

`Follows` collects what one call of `next` keeps and uses up: the symbol table only grows, by names
that stand for nothing (`grows`), so that all names stand for the same things (`scope`), and a token
that is not the end takes a byte of the source at least (`left`).  `Reads` says that the tokens from
the current one on are those of a list.
-/

namespace BochsOs.C4

namespace Lexer

/-- What the names stand for. -/
def scope (l : Lexer) : Scope := fun i => (l.sym.getD i default).binding

/-- What is left of the source, with the current token. -/
def left (l : Lexer) : ℕ := l.p.length + if l.tk = 0 then 0 else 1

/-- The symbol table of `l'` is that of `l` with more names, which stand for nothing. -/
def Grows (l l' : Lexer) : Prop :=
  ∃ ds, l'.sym = l.sym ++ ds ∧ ∀ d ∈ ds, d.binding = (default : Ident).binding

/-- `l'` comes after `l` in a source. -/
structure Follows (l l' : Lexer) : Prop where
  grows : Grows l l'
  left : l'.left ≤ l.p.length

variable {l l' l'' : Lexer} {c quote : UInt8} {p : List UInt8} {n t u v : ℕ}

theorem left_le : l.left ≤ l.p.length + 1 := by
  unfold left
  split
  · omega
  · exact le_rfl

theorem length_le_left : l.p.length ≤ l.left := Nat.le_add_right _ _

/-! ## The symbol table -/

theorem Grows.of_sym (hsym : l'.sym = l.sym) : Grows l l' :=
  ⟨[], by rw [hsym, List.append_nil], fun _ hd => absurd hd List.not_mem_nil⟩

theorem Grows.append {d : Ident} (hsym : l'.sym = l.sym ++ [d])
    (hd : d.binding = (default : Ident).binding) : Grows l l' := by
  refine ⟨[d], hsym, fun x hx => ?_⟩
  rw [List.mem_singleton.mp hx]
  exact hd

theorem Grows.trans (h : Grows l l') (h' : Grows l' l'') : Grows l l'' := by
  obtain ⟨ds, hsym, hds⟩ := h
  obtain ⟨ds', hsym', hds'⟩ := h'
  refine ⟨ds ++ ds', by rw [hsym', hsym, List.append_assoc], fun d hd => ?_⟩
  obtain hd | hd := List.mem_append.mp hd
  · exact hds d hd
  · exact hds' d hd

/-- An entry stays as it is, or it is a new one. -/
theorem Grows.entry (h : Grows l l') (i : ℕ) : l'.sym.getD i default = l.sym.getD i default ∨
    l.sym.getD i default = default ∧ (l'.sym.getD i default).binding = (default : Ident).binding := by
  obtain ⟨ds, hsym, hds⟩ := h
  rw [hsym, List.getD_eq_getElem?_getD, List.getD_eq_getElem?_getD]
  obtain hlt | hge := lt_or_ge i l.sym.length
  · rw [List.getElem?_append_left hlt]
    exact Or.inl rfl
  · right
    rw [List.getElem?_eq_none hge, List.getElem?_append_right hge]
    refine ⟨rfl, ?_⟩
    cases hd : ds[i - l.sym.length]? with
    | none => rfl
    | some d => exact hds d (List.mem_of_getElem? hd)

theorem Grows.scope (h : Grows l l') : l'.scope = l.scope := by
  funext i
  obtain hsame | ⟨hnone, hnew⟩ := h.entry i
  · exact congrArg Ident.binding hsame
  · exact hnew.trans (congrArg Ident.binding hnone.symm)

theorem Follows.scope (h : Follows l l') : l'.scope = l.scope := h.grows.scope

/-! ## The branches -/

/-- A token that leaves the symbol table alone. -/
theorem Follows.of_sym (hsym : l'.sym = l.sym) (hleft : l'.left ≤ l.p.length) : Follows l l' where
  grows := .of_sym hsym
  left := hleft

theorem left_le_cons (hl : l.p = c :: p) (hp : l'.p.length ≤ p.length) : l'.left ≤ l.p.length := by
  rw [hl, List.length_cons]
  exact left_le.trans (Nat.succ_le_succ hp)

theorem follows_single (hl : l.p = c :: p) : Follows l (l.single t p) :=
  .of_sym rfl (left_le_cons hl le_rfl)

theorem follows_operator (hl : l.p = c :: p) : Follows l (l.operator n t u p) := by
  unfold operator
  cases p with
  | nil => exact .of_sym rfl (left_le_cons hl le_rfl)
  | cons x p =>
      dsimp only
      split
      · exact .of_sym rfl (left_le_cons hl (Nat.le_succ _))
      · exact .of_sym rfl (left_le_cons hl le_rfl)

theorem follows_operator₂ {n' t' : ℕ} (hl : l.p = c :: p) :
    Follows l (l.operator₂ n t n' t' u p) := by
  unfold operator₂
  cases p with
  | nil => exact .of_sym rfl (left_le_cons hl le_rfl)
  | cons x p =>
      dsimp only
      split
      · exact .of_sym rfl (left_le_cons hl (Nat.le_succ _))
      split
      · exact .of_sym rfl (left_le_cons hl (Nat.le_succ _))
      · exact .of_sym rfl (left_le_cons hl le_rfl)

theorem follows_number (hl : l.p = c :: p) : Follows l (l.number c p) := by
  have hdrop : ∀ f : UInt8 → Bool, (p.dropWhile f).length ≤ p.length := fun f =>
    (List.dropWhile_sublist f).length_le
  unfold number
  split
  · exact .of_sym rfl (left_le_cons hl (hdrop _))
  · cases p with
    | nil => exact .of_sym rfl (left_le_cons hl le_rfl)
    | cons x p =>
        dsimp only
        split
        · refine .of_sym rfl (left_le_cons hl ?_)
          exact (List.dropWhile_sublist _).length_le.trans (Nat.le_succ _)
        · exact .of_sym rfl (left_le_cons hl (hdrop _))

theorem follows_ident (hl : l.p = c :: p) (h : l.ident c p = .ok l') : Follows l l' := by
  have hdrop := (List.dropWhile_sublist (l := p) fun c => isLetter c || isDigit c).length_le
  unfold ident at h
  dsimp only at h
  split at h
  · cases h
    exact .of_sym rfl (left_le_cons hl hdrop)
  · split at h
    · cases h
      exact ⟨.append rfl rfl, left_le_cons hl hdrop⟩
    · cases h

/-! ## Literals -/

theorem putChar_sym {w : Word} : (l.putChar quote w p).sym = l.sym := by
  unfold putChar
  split
  · rfl
  · rfl

theorem putChar_p {w : Word} : (l.putChar quote w p).p = p := by
  unfold putChar
  split
  · rfl
  · rfl

theorem literalLoop_keeps (h : literalLoop quote n l = .ok l') :
    l'.sym = l.sym ∧ l'.p.length ≤ l.p.length := by
  induction n generalizing l with
  | zero => cases h
  | succ n ih =>
      rw [literalLoop] at h
      split at h
      next => cases h
      next c p hp =>
        split at h
        · cases h
          refine ⟨rfl, ?_⟩
          rw [hp]
          exact Nat.le_succ _
        split at h
        · split at h
          next => cases h
          next x p' =>
            obtain ⟨hsym, hlength⟩ := ih h
            rw [putChar_sym] at hsym
            rw [putChar_p] at hlength
            refine ⟨hsym, ?_⟩
            rw [hp, List.length_cons, List.length_cons]
            omega
        · obtain ⟨hsym, hlength⟩ := ih h
          rw [putChar_sym] at hsym
          rw [putChar_p] at hlength
          refine ⟨hsym, ?_⟩
          rw [hp, List.length_cons]
          omega

theorem follows_literal (hl : l.p = c :: p) (h : l.literal c p = .ok l') : Follows l l' := by
  unfold literal at h
  split at h
  next => cases h
  next l₁ h₁ =>
    obtain ⟨hsym, hlength⟩ := literalLoop_keeps h₁
    split at h
    · cases h
      exact .of_sym hsym (left_le_cons hl hlength)
    · cases h
      exact .of_sym hsym (left_le_cons hl hlength)

/-! ## `next` -/

theorem skipLine_length : (skipLine p).length ≤ p.length := (List.dropWhile_sublist _).length_le

/-- Some bytes are skipped. -/
theorem Follows.skip {l₁ : Lexer} (hsym : l₁.sym = l.sym) (hp : l₁.p.length ≤ l.p.length)
    (h : Follows l₁ l') : Follows l l' where
  grows := Grows.trans (.of_sym hsym) h.grows
  left := h.left.trans hp

theorem of_ite {α : Type*} {C Q : Prop} [Decidable C] {a b r : α} (h : (if C then a else b) = r)
    (ha : a = r → Q) (hb : b = r → Q) : Q := by
  split at h
  · exact ha h
  · exact hb h

theorem of_ok {l₁ : Lexer} {Q : Lexer → Prop} (hl : Q l₁) (h : Except.ok l₁ = (.ok l' : Except Failure Lexer)) :
    Q l' := by
  cases h
  exact hl

theorem follows_nextLoop (h : nextLoop n l = .ok l') : Follows l l' := by
  have hend : Follows l { l with tk := 0 } := .of_sym rfl le_rfl
  induction n generalizing l with
  | zero =>
      cases h
      exact hend
  | succ n ih =>
      rw [nextLoop] at h
      split at h
      next =>
        cases h
        exact hend
      next c p hp =>
        have hskip : ∀ {l₁ : Lexer}, nextLoop n l₁ = .ok l' → l₁.sym = l.sym →
            l₁.p.length ≤ p.length → Follows l l' := by
          intro l₁ h₁ hsym hlength
          refine (ih h₁ (.of_sym rfl le_rfl)).skip hsym ?_
          rw [hp, List.length_cons]
          omega
        refine of_ite h (fun h => ?_) fun h => ?_
        · cases h
          exact hend
        refine of_ite h (fun h => hskip h rfl le_rfl) fun h => ?_
        refine of_ite h (fun h => hskip h rfl skipLine_length) fun h => ?_
        refine of_ite h (follows_ident hp) fun h => ?_
        refine of_ite h (of_ok (follows_number hp)) fun h => ?_
        refine of_ite h (fun h => ?_) fun h => ?_
        · split at h
          next x p' =>
            refine of_ite h (fun h => hskip h rfl (skipLine_length.trans (Nat.le_succ _))) ?_
            exact of_ok (follows_single hp)
          next => exact of_ok (follows_single hp) h
        refine of_ite h (follows_literal hp) fun h => ?_
        iterate 4 refine of_ite h (of_ok (follows_operator hp)) fun h => ?_
        iterate 2 refine of_ite h (of_ok (follows_operator₂ hp)) fun h => ?_
        iterate 2 refine of_ite h (of_ok (follows_operator hp)) fun h => ?_
        iterate 6 refine of_ite h (of_ok (follows_single hp)) fun h => ?_
        exact hskip h rfl le_rfl

theorem follows_next (h : l.next = .ok l') : Follows l l' := follows_nextLoop h

end Lexer

/-! ## Lists of tokens -/

/-- A token with its value. -/
inductive Token where
  | sym (t : ℕ)
  | num (v : Word)
  | name (i : ℕ)
  /-- String literals that make one string. -/
  | str (v : Word)

namespace Lexer

/-- The string literals from `l` on, up to the first other token. -/
inductive Strings : Lexer → Lexer → Prop where
  | last {l l' : Lexer} (htk : l.tk = Tok.quote) (hnext : l.next = .ok l') (hother : l'.tk ≠ Tok.quote) :
      Strings l l'
  | more {l l₁ l' : Lexer} (htk : l.tk = Tok.quote) (hnext : l.next = .ok l₁)
      (hmore : Strings l₁ l') : Strings l l'

/-- The data area goes on behind the string and at a multiple of four. -/
def align (l : Lexer) : Lexer := { l with data := l.data + 4 &&& -4 }

/-- The current token of `l` is this one, and `l'` is behind it. -/
inductive Takes : Token → Lexer → Lexer → Prop where
  | sym {t : ℕ} {l l' : Lexer} (ht : t ≠ 0) (htk : l.tk = t) (hnext : l.next = .ok l') :
      Takes (.sym t) l l'
  | num {v : Word} {l l' : Lexer} (htk : l.tk = Tok.num) (hval : l.ival = v)
      (hnext : l.next = .ok l') : Takes (.num v) l l'
  | name {i : ℕ} {l l' : Lexer} (htk : l.tk = Tok.id) (hid : l.id = i) (hnext : l.next = .ok l') :
      Takes (.name i) l l'
  | str {v : Word} {l l' : Lexer} (hval : l.ival = v) (hstr : Strings l l') :
      Takes (.str v) l l'.align

/-- The tokens from the current one of `l` on, up to that of `l'`, are those of the list. -/
def Reads : List Token → Lexer → Lexer → Prop
  | [], l, l' => l = l'
  | t :: ts, l, l' => ∃ l₁, Takes t l l₁ ∧ Reads ts l₁ l'

variable {l l' : Lexer} {t : Token} {ts us : List Token}

/-- A token has been used up. -/
structure Before (l l' : Lexer) : Prop where
  grows : Grows l l'
  left : l'.left < l.left

theorem Before.scope (h : Before l l') : l'.scope = l.scope := h.grows.scope

theorem Follows.before (h : Follows l l') (htk : l.tk ≠ 0) : Before l l' where
  grows := h.grows
  left := by
    have := h.left
    rw [Lexer.left.eq_def l, if_neg htk]
    omega

theorem Before.trans {l'' : Lexer} (h : Before l l') (h' : Before l' l'') : Before l l'' where
  grows := h.grows.trans h'.grows
  left := h'.left.trans h.left

theorem Strings.tk (h : Strings l l') : l.tk = Tok.quote := by
  cases h with
  | last htk _ _ => exact htk
  | more htk _ _ => exact htk

theorem Strings.before (h : Strings l l') : Before l l' := by
  induction h with
  | last htk hnext _ => exact (follows_next hnext).before (by rw [htk]; decide)
  | more htk hnext _ ih => exact ((follows_next hnext).before (by rw [htk]; decide)).trans ih

theorem Takes.before (h : Takes t l l') : Before l l' := by
  cases h with
  | sym ht htk hnext => exact (follows_next hnext).before (htk ▸ ht)
  | num htk _ hnext => exact (follows_next hnext).before (by rw [htk]; decide)
  | name htk _ hnext => exact (follows_next hnext).before (by rw [htk]; decide)
  | str _ hstr => exact ⟨hstr.before.grows, hstr.before.left⟩

theorem reads_cons : Reads (t :: ts) l l' ↔ ∃ l₁, Takes t l l₁ ∧ Reads ts l₁ l' := Iff.rfl

theorem reads_append : Reads (ts ++ us) l l' ↔ ∃ l₁, Reads ts l l₁ ∧ Reads us l₁ l' := by
  induction ts generalizing l with
  | nil =>
      constructor
      · intro h
        exact ⟨l, rfl, h⟩
      · rintro ⟨l₁, rfl, h⟩
        exact h
  | cons t ts ih =>
      rw [List.cons_append, reads_cons]
      constructor
      · rintro ⟨l₁, ht, h⟩
        obtain ⟨l₂, hts, hus⟩ := ih.mp h
        exact ⟨l₂, ⟨l₁, ht, hts⟩, hus⟩
      · rintro ⟨l₂, ⟨l₁, ht, hts⟩, hus⟩
        exact ⟨l₁, ht, ih.mpr ⟨l₂, hts, hus⟩⟩

theorem Reads.grows (h : Reads ts l l') : Grows l l' := by
  induction ts generalizing l with
  | nil =>
      cases h
      exact .of_sym rfl
  | cons t ts ih =>
      obtain ⟨l₁, ht, h⟩ := h
      exact ht.before.grows.trans (ih h)

theorem Reads.scope (h : Reads ts l l') : l'.scope = l.scope := h.grows.scope

theorem Reads.left (h : Reads ts l l') : l'.left ≤ l.left := by
  induction ts generalizing l with
  | nil =>
      cases h
      exact le_rfl
  | cons t ts ih =>
      obtain ⟨l₁, ht, h⟩ := h
      exact (ih h).trans ht.before.left.le

theorem Reads.before (h : Reads ts l l') (hts : ts ≠ []) : Before l l' := by
  cases ts with
  | nil => exact absurd rfl hts
  | cons t ts =>
      obtain ⟨l₁, ht, h⟩ := h
      exact ⟨ht.before.grows.trans h.grows, h.left.trans_lt ht.before.left⟩

end Lexer

end BochsOs.C4
