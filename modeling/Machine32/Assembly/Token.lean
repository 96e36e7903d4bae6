import Machine32.Ascii
import Machine32.Numeral

/-!
# Tokens

Text is read from the left as a sequence of *pieces*, each the longest one
possible where the piece before it ends:

* a *blank* piece: a run of spaces, tabs, carriage returns and form feeds, or
  a comment, from a semicolon up to the end of the line;
* a token: a directive, an identifier, a number, or one of `,`, `=` and `&`;
* a *stray* piece: a number beyond 64 bits, or a single character at which no
  other piece begins.

No character is left out (`pieces_flatMap`) and no piece is empty. The lexemes
of a text are its pieces without the blank ones, each with its place. Places
are counted in bytes of the UTF-8 encoding.
-/

namespace Machine32

/-- A token of assembly text. -/
inductive Token where
  /-- A dot and a name. -/
  | directive (name : String)
  /-- A name. -/
  | identifier (name : String)
  /-- A decimal number. -/
  | number (value : Int)
  /-- A hexadecimal number. -/
  | hex (value : Int)
  | comma
  | equals
  | ampersand
  deriving DecidableEq, Inhabited

namespace Token

/-- What a piece of text is read as. -/
inductive Reading where
  | blank
  | token (t : Token)
  | stray
  deriving DecidableEq, Inhabited

/-- A blank within a line. -/
def isBlank (c : Char) : Bool :=
  c == ' ' || c == '\t' || c == '\r' || c == '\x0c'

/-- Whether a number is in the range of 64-bit two's complement. -/
def Fits64 (n : Int) : Prop :=
  -0x8000000000000000 ≤ n ∧ n < 0x8000000000000000

instance (n : Int) : Decidable (Fits64 n) :=
  inferInstanceAs (Decidable (_ ∧ _))

/-- A numeral of value `n`, which is stray text if `n` is out of range. -/
def numeral (token : Int → Token) (n : Int) : Reading :=
  if Fits64 n then .token (token n) else .stray

/-- What a dot with the text `cs` behind it is read as, and how many characters
    of `cs` belong to it. -/
def readDirective (cs : List Char) : Reading × Nat :=
  match cs with
  | [] => (.stray, 0)
  | d :: ds =>
    if Ascii.isNameStart d then
      let name := d :: ds.takeWhile Ascii.isNameChar
      (.token (.directive (String.ofList name)), name.length)
    else (.stray, 0)

/-- What a minus sign with the text `cs` behind it is read as, and how many
    characters of `cs` belong to it. -/
def readNegative (cs : List Char) : Reading × Nat :=
  let digits := cs.takeWhile Char.isDigit
  if digits.isEmpty then (.stray, 0)
  else (numeral .number (-(Numeral.value 10 digits : Int)), digits.length)

/-- The hexadecimal digits behind an `x` at the front of `cs`. -/
def hexDigitsBehindX (cs : List Char) : List Char :=
  match cs with
  | [] => []
  | x :: ds => if x = 'x' ∨ x = 'X' then ds.takeWhile Char.isHexDigit else []

/-- What a digit `c` with the text `cs` behind it is read as, and how many
    characters of `cs` belong to it. After a zero, an `x` with hexadecimal digits
    makes a longer piece than decimal digits could. -/
def readNumber (c : Char) (cs : List Char) : Reading × Nat :=
  let hexDigits := hexDigitsBehindX cs
  if c = '0' ∧ hexDigits ≠ [] then
    (numeral .hex (Numeral.value 16 hexDigits), hexDigits.length + 1)
  else
    let digits := cs.takeWhile Char.isDigit
    (numeral .number (Numeral.value 10 (c :: digits)), digits.length)

/-- What the first piece of the text `c :: cs` is read as, and how many
    characters of `cs` belong to it. -/
def readFirst (c : Char) (cs : List Char) : Reading × Nat :=
  if isBlank c then (.blank, (cs.takeWhile isBlank).length)
  else if c = ';' then (.blank, (cs.takeWhile (· ≠ '\n')).length)
  else if c = ',' then (.token .comma, 0)
  else if c = '=' then (.token .equals, 0)
  else if c = '&' then (.token .ampersand, 0)
  else if Ascii.isNameStart c then
    let rest := cs.takeWhile Ascii.isNameChar
    (.token (.identifier (String.ofList (c :: rest))), rest.length)
  else if c = '.' then readDirective cs
  else if c = '-' then readNegative cs
  else if c.isDigit then readNumber c cs
  else (.stray, 0)

/-- The pieces of a text, with what they are read as. -/
def pieces : List Char → List (Reading × List Char)
  | [] => []
  | c :: cs =>
    ((readFirst c cs).1, c :: cs.take (readFirst c cs).2) :: pieces (cs.drop (readFirst c cs).2)
termination_by cs => cs.length

/-- The pieces of a text make up the text. -/
theorem pieces_flatMap (cs : List Char) : (pieces cs).flatMap (·.2) = cs := by
  fun_induction pieces cs with
  | case1 => rfl
  | case2 c cs ih =>
    rw [List.flatMap_cons, ih]
    simp

end Token

/-- A piece of text that is not blank. -/
structure Lexeme where
  /-- The token it is, none for stray text. -/
  token : Option Token
  /-- The place of its first byte. -/
  start : Nat
  /-- The piece itself. -/
  text : List Char
  deriving DecidableEq, Inhabited

/-- The length of a text in bytes. -/
def utf8Length : List Char → Nat
  | [] => 0
  | c :: cs => c.utf8Size + utf8Length cs

namespace Lexeme

/-- The place behind the last byte of a lexeme. -/
def stop (x : Lexeme) : Nat :=
  x.start + utf8Length x.text

/-- The lexemes among `pieces`, of which the first one is at the place `start`. -/
def ofPieces (start : Nat) : List (Token.Reading × List Char) → List Lexeme
  | [] => []
  | (.blank, cs) :: ps => ofPieces (start + utf8Length cs) ps
  | (.token t, cs) :: ps => ⟨some t, start, cs⟩ :: ofPieces (start + utf8Length cs) ps
  | (.stray, cs) :: ps => ⟨none, start, cs⟩ :: ofPieces (start + utf8Length cs) ps

/-- The lexemes of a text. -/
def scan (text : String) : List Lexeme :=
  ofPieces 0 (Token.pieces text.toList)

end Lexeme

end Machine32
