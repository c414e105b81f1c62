import BochsOs.C4.Vm

/-!
# The tokens of `c4`

`next` of `user/c4.c`.  The source text is the list of its bytes up to the `0` that `main` puts
behind it.  A literal that is not closed makes `next` step over this `0` and go on in whatever the
memory holds there; this is `Failure.overrun`, and so is a name for which the symbol area of 256 KiB
has no room, for which `c4` does not look.

What is left out is the listing that `-s` asks for, and the ends of the areas of 256 KiB for the code
and the data: what is said of a source holds as long as its code and its data lie within them.
-/

namespace BochsOs.C4

open ByteMemory

/-! ## Tokens and identifiers -/

namespace Tok

/-! The tokens that are not characters, in the order of the source: the operators last and in the
order of precedence. -/

abbrev num : ℕ := 128
abbrev id : ℕ := 133
abbrev char : ℕ := 134
abbrev «else» : ℕ := 135
abbrev «enum» : ℕ := 136
abbrev «if» : ℕ := 137
abbrev int : ℕ := 138
abbrev «return» : ℕ := 139
abbrev sizeof : ℕ := 140
abbrev «while» : ℕ := 141
abbrev assign : ℕ := 142
abbrev cond : ℕ := 143
abbrev lor : ℕ := 144
abbrev lan : ℕ := 145
abbrev or : ℕ := 146
abbrev xor : ℕ := 147
abbrev and : ℕ := 148
abbrev eq : ℕ := 149
abbrev ne : ℕ := 150
abbrev lt : ℕ := 151
abbrev gt : ℕ := 152
abbrev le : ℕ := 153
abbrev ge : ℕ := 154
abbrev shl : ℕ := 155
abbrev shr : ℕ := 156
abbrev add : ℕ := 157
abbrev sub : ℕ := 158
abbrev mul : ℕ := 159
abbrev div : ℕ := 160
abbrev mod : ℕ := 161
abbrev inc : ℕ := 162
abbrev dec : ℕ := 163
abbrev brak : ℕ := 164

/-! The characters. -/

abbrev newline : ℕ := 10
abbrev bang : ℕ := 33
abbrev quote : ℕ := 34
abbrev hash : ℕ := 35
abbrev percent : ℕ := 37
abbrev ampersand : ℕ := 38
abbrev apostrophe : ℕ := 39
abbrev lparen : ℕ := 40
abbrev rparen : ℕ := 41
abbrev star : ℕ := 42
abbrev plus : ℕ := 43
abbrev comma : ℕ := 44
abbrev minus : ℕ := 45
abbrev slash : ℕ := 47
abbrev colon : ℕ := 58
abbrev semi : ℕ := 59
abbrev less : ℕ := 60
abbrev equals : ℕ := 61
abbrev greater : ℕ := 62
abbrev question : ℕ := 63
abbrev lbrack : ℕ := 91
abbrev backslash : ℕ := 92
abbrev rbrack : ℕ := 93
abbrev caret : ℕ := 94
abbrev underscore : ℕ := 95
abbrev lbrace : ℕ := 123
abbrev bar : ℕ := 124
abbrev rbrace : ℕ := 125
abbrev tilde : ℕ := 126

end Tok

/-- `id[Class]`; a new identifier has none. -/
inductive Class where
  | none | num | «fun» | sys | glo | loc
  deriving DecidableEq

/-- An entry of the symbol table. -/
structure Ident where
  tk : ℕ
  hash : Word
  /-- The source text from the name on. -/
  name : List UInt8
  cls : Class := .none
  type : ℕ := 0
  val : Word := 0
  hCls : Class := .none
  hType : ℕ := 0
  hVal : Word := 0

instance : Inhabited Ident := ⟨{ tk := 0, hash := 0, name := [] }⟩

/-- Why there is no code. -/
inductive Failure where
  /-- `printf` of the message with the line, and `exit(-1)` or `return -1`. -/
  | error (line : ℕ) (message : String)
  /-- The source text is read behind its end, or a name put behind the end of the symbol area. -/
  | overrun
  /-- The bound on the rounds of the loops is too low; this is not a failure of `c4`. -/
  | fuel
  deriving DecidableEq

/-- What `next` reads and writes. -/
structure Lexer where
  /-- The source text from `p` on. -/
  p : List UInt8
  line : ℕ
  sym : List Ident
  /-- The next free byte of the data area. -/
  data : Word
  mem : Bytes
  tk : ℕ
  ival : Word
  /-- The entry that `id` points to. -/
  id : ℕ

/-! ## Characters -/

/-- A letter or `_`. -/
def isLetter (c : UInt8) : Bool :=
  (97 ≤ c && c ≤ 122) || (65 ≤ c && c ≤ 90) || c.toNat = Tok.underscore

/-- A decimal digit. -/
def isDigit (c : UInt8) : Bool := 48 ≤ c && c ≤ 57

/-- A hexadecimal digit. -/
def isHex (c : UInt8) : Bool := isDigit c || (97 ≤ c && c ≤ 102) || (65 ≤ c && c ≤ 70)

/-- An octal digit. -/
def isOctal (c : UInt8) : Bool := 48 ≤ c && c ≤ 55

/-- The rest of the line is skipped. -/
def skipLine (p : List UInt8) : List UInt8 := p.dropWhile fun c => c ≠ 0 && c.toNat ≠ Tok.newline

namespace Lexer

variable (l : Lexer)

/-! ## The branches of `next` -/

/-- The hash of an identifier with the first character `c`, followed by `cs`. -/
def identHash (c : UInt8) (cs : List UInt8) : Word :=
  (cs.foldl (fun tk c => tk * 147 + ofChar c) (ofChar c)) <<< 6 + BitVec.ofNat 32 (cs.length + 1)

/-- An entry is that of the name of this hash and length at the beginning of `pp`. -/
def Ident.Matches (d : Ident) (hash : Word) (pp : List UInt8) (len : ℕ) : Prop :=
  hash = d.hash ∧ d.name.take len = pp.take len

instance (d : Ident) (hash : Word) (pp : List UInt8) (len : ℕ) : Decidable (Ident.Matches d hash pp len) :=
  inferInstanceAs (Decidable (_ ∧ _))

/-- The entries of nine cells that fit in the symbol area, `poolsz / (Idsz * sizeof(int))`. -/
abbrev maxIdents : ℕ := 256 * 1024 / (9 * 4)

/-- An identifier that starts with `c`; `p` follows. -/
def ident (c : UInt8) (p : List UInt8) : Except Failure Lexer :=
  let cs := p.takeWhile fun c => isLetter c || isDigit c
  let rest := p.dropWhile fun c => isLetter c || isDigit c
  let hash := identHash c cs
  match l.sym.findIdx? fun d => Ident.Matches d hash (c :: p) (cs.length + 1) with
  | some i => .ok { l with p := rest, id := i, tk := (l.sym.getD i default).tk }
  | none =>
      if l.sym.length < maxIdents then
        .ok { l with
          p := rest
          id := l.sym.length
          sym := l.sym ++ [{ tk := Tok.id, hash := hash, name := c :: p }]
          tk := Tok.id }
      else .error .overrun

/-- The value of a digit. -/
def digitVal (c : UInt8) : Word := ofChar c - 48

/-- The value of a hexadecimal digit. -/
def hexVal (c : UInt8) : Word := (ofChar c &&& 15) + if 65 ≤ c then 9 else 0

/-- The value of digits to a base, after `v`. -/
def numeral (base : Word) (val : UInt8 → Word) (v : Word) (cs : List UInt8) : Word :=
  cs.foldl (fun v c => v * base + val c) v

/-- A number that starts with `c`; `p` follows. -/
def number (c : UInt8) (p : List UInt8) : Lexer :=
  if digitVal c ≠ 0 then
    { l with
      ival := numeral 10 digitVal (digitVal c) (p.takeWhile isDigit)
      p := p.dropWhile isDigit
      tk := Tok.num }
  else
    match p with
    | x :: p' =>
        if x = 120 ∨ x = 88 then
          { l with ival := numeral 16 hexVal 0 (p'.takeWhile isHex), p := p'.dropWhile isHex, tk := Tok.num }
        else
          { l with ival := numeral 8 digitVal 0 (p.takeWhile isOctal), p := p.dropWhile isOctal, tk := Tok.num }
    | [] => { l with ival := 0, p := [], tk := Tok.num }

/-- One character of a literal is taken. -/
def putChar (quote : UInt8) (v : Word) (p : List UInt8) : Lexer :=
  if quote.toNat = Tok.quote then
    { l with ival := v, p := p, mem := storeChar l.mem l.data v, data := l.data + 1 }
  else { l with ival := v, p := p }

/-- The loop over the characters of a literal, up to the closing `quote`, and the step over this. -/
def literalLoop (quote : UInt8) : (left : ℕ) → Lexer → Except Failure Lexer
  | 0, _ => .error .overrun
  | left + 1, l =>
      match l.p with
      | [] => .error .overrun
      | c :: p =>
          if c = 0 ∨ c = quote then .ok { l with p := p }
          else if c.toNat = Tok.backslash then
            match p with
            | [] => .error .overrun
            | c :: p =>
                literalLoop quote left (l.putChar quote (if c = 110 then 10 else ofChar c) p)
          else literalLoop quote left (l.putChar quote (ofChar c) p)

/-- A literal in `quote`; `p` follows. -/
def literal (quote : UInt8) (p : List UInt8) : Except Failure Lexer :=
  match literalLoop quote (p.length + 1) { l with p := p } with
  | .error e => .error e
  | .ok l' =>
      if quote.toNat = Tok.quote then .ok { l' with ival := l.data, tk := Tok.quote }
      else .ok { l' with tk := Tok.num }

/-- An operator of one character or two: the token `two` if `c` follows, else `one`. -/
def operator (c : ℕ) (two one : ℕ) (p : List UInt8) : Lexer :=
  match p with
  | x :: p' => if x.toNat = c then { l with p := p', tk := two } else { l with p := p, tk := one }
  | [] => { l with p := [], tk := one }

/-- An operator of one character, or of two, of which there are two kinds. -/
def operator₂ (c two c' two' one : ℕ) (p : List UInt8) : Lexer :=
  match p with
  | x :: p' =>
      if x.toNat = c then { l with p := p', tk := two }
      else if x.toNat = c' then { l with p := p', tk := two' }
      else { l with p := p, tk := one }
  | [] => { l with p := [], tk := one }

/-- A token of one character. -/
def single (tk : ℕ) (p : List UInt8) : Lexer := { l with p := p, tk := tk }

/-! ## `next` -/

/-- The loop of `next`. -/
def nextLoop : (left : ℕ) → Lexer → Except Failure Lexer
  | 0, l => .ok { l with tk := 0 }
  | left + 1, l =>
      match l.p with
      | [] => .ok { l with tk := 0 }
      | c :: p =>
          let tk := c.toNat
          if tk = 0 then .ok { l with tk := 0 }
          else if tk = Tok.newline then nextLoop left { l with p := p, line := l.line + 1 }
          else if tk = Tok.hash then nextLoop left { l with p := skipLine p }
          else if isLetter c then l.ident c p
          else if isDigit c then .ok (l.number c p)
          else if tk = Tok.slash then
            match p with
            | x :: p' =>
                if x.toNat = Tok.slash then nextLoop left { l with p := skipLine p' }
                else .ok (l.single Tok.div p)
            | [] => .ok (l.single Tok.div p)
          else if tk = Tok.apostrophe ∨ tk = Tok.quote then l.literal c p
          else if tk = Tok.equals then .ok (l.operator Tok.equals Tok.eq Tok.assign p)
          else if tk = Tok.plus then .ok (l.operator Tok.plus Tok.inc Tok.add p)
          else if tk = Tok.minus then .ok (l.operator Tok.minus Tok.dec Tok.sub p)
          else if tk = Tok.bang then .ok (l.operator Tok.equals Tok.ne Tok.bang p)
          else if tk = Tok.less then .ok (l.operator₂ Tok.equals Tok.le Tok.less Tok.shl Tok.lt p)
          else if tk = Tok.greater then .ok (l.operator₂ Tok.equals Tok.ge Tok.greater Tok.shr Tok.gt p)
          else if tk = Tok.bar then .ok (l.operator Tok.bar Tok.lor Tok.or p)
          else if tk = Tok.ampersand then .ok (l.operator Tok.ampersand Tok.lan Tok.and p)
          else if tk = Tok.caret then .ok (l.single Tok.xor p)
          else if tk = Tok.percent then .ok (l.single Tok.mod p)
          else if tk = Tok.star then .ok (l.single Tok.mul p)
          else if tk = Tok.lbrack then .ok (l.single Tok.brak p)
          else if tk = Tok.question then .ok (l.single Tok.cond p)
          else if tk = Tok.tilde ∨ tk = Tok.semi ∨ tk = Tok.lbrace ∨ tk = Tok.rbrace ∨
              tk = Tok.lparen ∨ tk = Tok.rparen ∨ tk = Tok.rbrack ∨ tk = Tok.comma ∨ tk = Tok.colon then
            .ok (l.single tk p)
          else nextLoop left { l with p := p }

/-- `next`. -/
def next : Except Failure Lexer := nextLoop l.p.length l

end Lexer

end BochsOs.C4
