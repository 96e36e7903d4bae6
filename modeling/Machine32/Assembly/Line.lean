import Machine32.Assembly.Token
import Machine32.Assembly.Fault

/-!
# Lines

A line of assembly text is a directive, the assignment of a number to a name,
or a statement: a mnemonic with operands. Commas separate nothing and may stand
anywhere. Reading a line does not look at the meaning of its names.
-/

namespace Machine32

/-- An operand of a statement. -/
inductive Operand where
  /-- A number. -/
  | number (value : Int)
  /-- A register, a constant or a label. -/
  | symbol (name : String)
  /-- The address of a constant. -/
  | addressOf (name : String)
  deriving DecidableEq, Inhabited

/-- A line that is not blank. -/
inductive Line where
  /-- Opens a section. -/
  | directive (name : String)
  /-- Gives a name to a word of data. -/
  | assignment (name : String) (value : Int)
  /-- An instruction. -/
  | statement (mnemonic : String) (operands : List Operand)
  deriving DecidableEq, Inhabited

namespace Operand

/-- The operands the tokens of a line consist of. -/
def ofTokens : List Token → Except Fault (List Operand)
  | [] => .ok []
  | .number n :: ts | .hex n :: ts => return number n :: (← ofTokens ts)
  | .identifier name :: ts => return symbol name :: (← ofTokens ts)
  | .ampersand :: .identifier name :: ts => return addressOf name :: (← ofTokens ts)
  | .ampersand :: _ => .error (.malformed .ampersandAlone)
  | .directive name :: _ => .error (.malformed (.directiveOperand name))
  | .equals :: _ => .error (.malformed .equalsOperand)
  | .comma :: ts => ofTokens ts

end Operand

namespace Line

/-- The assignment to `name` whose tokens behind the name are `ts`. -/
def assignmentOfTokens (name : String) (ts : List Token) : Except Fault Line :=
  match ts with
  | [.equals, .number n] | [.equals, .hex n] => .ok (assignment name n)
  | _ => .error (.invalidData (.notAssignment name))

/-- The line that tokens other than commas make up, none if there are none. -/
def ofTokens (ts : List Token) : Except Fault (Option Line) :=
  match ts with
  | [] => .ok none
  | [.directive name] => .ok (some (directive name))
  | .directive _ :: _ => .error (.malformed .directiveNotAlone)
  | .identifier name :: ts =>
    if .equals ∈ ts then return some (← assignmentOfTokens name ts)
    else return some (statement name (← Operand.ofTokens ts))
  | _ => .error (.malformed .noBeginning)

/-- The tokens of the lexemes of a line, unless one of them is stray text. -/
def tokens : List Lexeme → Except Fault (List Token)
  | [] => .ok []
  | x :: xs =>
    match x.token with
    | none => .error (.malformed (.strayText (x.start + 1) (String.ofList x.text)))
    | some t => return t :: (← tokens xs)

/-- The line a text consists of, none if it is blank. -/
def parse (text : String) : Except Fault (Option Line) := do
  let ts ← tokens (Lexeme.scan text)
  ofTokens (ts.filter (· ≠ .comma))

end Line

end Machine32
