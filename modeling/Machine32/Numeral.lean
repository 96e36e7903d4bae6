/-!
# Numerals

Numbers as text, to the bases ten and sixteen. Writing puts the most
significant digit first and fills up with zeros on the left; reading takes
digits of either letter case and any number of leading zeros.

* `decimal`, `signed`: natural numbers and integers to the base ten;
* `hex`: to the base sixteen, with at least a given number of digits;
* `value`: the number a run of digits denotes.
-/

namespace Machine32.Numeral

/-- The case of the digits above nine of a hexadecimal numeral. -/
inductive LetterCase where
  | lower
  | upper

/-- The hexadecimal digits of `n`, a single `0` for zero. -/
def hexDigits (letters : LetterCase) (n : Nat) : List Char :=
  match letters with
  | .lower => Nat.toDigits 16 n
  | .upper => (Nat.toDigits 16 n).map Char.toUpper

/-- The number `n` to the base sixteen, with at least `width` digits. -/
def hex (letters : LetterCase) (width n : Nat) : String :=
  String.ofList ((hexDigits letters n).leftpad width '0')

/-- The number `n` to the base ten. -/
def decimal (n : Nat) : String :=
  String.ofList (Nat.toDigits 10 n)

/-- The number `n` to the base ten, with a minus sign in front of a negative number. -/
def signed (n : Int) : String :=
  if n < 0 then "-" ++ decimal n.natAbs else decimal n.natAbs

/-- The value of a digit. Above nine, the letters of both cases are digits. -/
def digitValue (c : Char) : Nat :=
  if c.isDigit then c.toNat - '0'.toNat
  else if c.isLower then c.toNat - 'a'.toNat + 10
  else c.toNat - 'A'.toNat + 10

/-- The number the digits `ds` denote to the base `base`, read from the left. -/
def value (base : Nat) (ds : List Char) : Nat :=
  ds.foldl (fun n c => base * n + digitValue c) 0

end Machine32.Numeral
