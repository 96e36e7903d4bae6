import Machine32.Numeral

/-!
# JSON text

The values a report consists of, and their text: a member or an item to a
line, two blanks deeper than the brackets around it.
-/

namespace Machine32

/-- A value of a report. -/
inductive Json where
  | null
  | bool (b : Bool)
  | number (n : Int)
  | string (s : String)
  | array (items : List Json)
  /-- Members in the order in which they are shown. -/
  | object (members : List (String × Json))

namespace Json

/-- A character within a string. -/
def escape (c : Char) : String :=
  if c = '"' then "\\\""
  else if c = '\\' then "\\\\"
  else if c = '\x08' then "\\b"
  else if c = '\x0c' then "\\f"
  else if c = '\n' then "\\n"
  else if c = '\r' then "\\r"
  else if c = '\t' then "\\t"
  else if c.toNat < 0x20 then "\\u" ++ Numeral.hex .lower 4 c.toNat
  else String.singleton c

/-- A string in quotation marks. -/
def quoted (s : String) : String :=
  "\"" ++ String.join (s.toList.map escape) ++ "\""

/-- The start of a line at a depth of `depth` brackets. -/
def newLine (depth : Nat) : String :=
  "\n" ++ String.ofList (List.replicate (2 * depth) ' ')

mutual

/-- The text of a value within `depth` brackets. -/
def render (depth : Nat) : Json → String
  | null => "null"
  | bool b => if b then "true" else "false"
  | number n => Numeral.signed n
  | string s => quoted s
  | array [] => "[]"
  | array (item :: items) =>
    "[" ++ newLine (depth + 1) ++ render (depth + 1) item ++ renderItems (depth + 1) items
      ++ newLine depth ++ "]"
  | object [] => "\x7b\x7d"
  | object ((name, value) :: members) =>
    "\x7b" ++ newLine (depth + 1) ++ quoted name ++ ": " ++ render (depth + 1) value
      ++ renderMembers (depth + 1) members ++ newLine depth ++ "\x7d"

/-- The text of the items behind the first one. -/
def renderItems (depth : Nat) : List Json → String
  | [] => ""
  | item :: items => "," ++ newLine depth ++ render depth item ++ renderItems depth items

/-- The text of the members behind the first one. -/
def renderMembers (depth : Nat) : List (String × Json) → String
  | [] => ""
  | (name, value) :: members =>
    "," ++ newLine depth ++ quoted name ++ ": " ++ render depth value
      ++ renderMembers depth members

end

/-- The text of a value. -/
def text (value : Json) : String :=
  value.render 0

end Json

end Machine32
