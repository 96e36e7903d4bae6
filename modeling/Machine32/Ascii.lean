/-!
# Letters and names

Names, mnemonics and directives are words over the ASCII letters, the digits
and the underscore. Where the case of letters does not matter, words are
compared after folding the ASCII letters; all other characters stay as they
are.
-/

namespace Machine32.Ascii

/-- The text `s` with its ASCII letters in upper case. -/
def upper (s : String) : String :=
  String.ofList (s.toList.map Char.toUpper)

/-- The text `s` with its ASCII letters in lower case. -/
def lower (s : String) : String :=
  String.ofList (s.toList.map Char.toLower)

/-- A character a name may begin with. -/
def isNameStart (c : Char) : Bool :=
  c.isAlpha || c == '_'

/-- A character a name may go on with. -/
def isNameChar (c : Char) : Bool :=
  c.isAlphanum || c == '_'

end Machine32.Ascii
