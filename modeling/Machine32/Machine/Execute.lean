import Machine32.Machine.State
import Machine32.Isa.Instruction

/-!
# Executing an instruction

An instruction is executed at the address in the instruction pointer. Unless it
is a jump that is taken, or a return, it then moves the instruction pointer
ahead by its length, also after writing to it. A taken jump pushes its own
address before it goes to its target, and a return goes behind the jump whose
address it pops.
-/

namespace Machine32

/-- The result of an operation on `a` and `b`, none for a division by zero.
    Division is that of the signed readings, toward zero. -/
def AluOp.eval? (op : AluOp) (a b : Word) : Option Word :=
  match op with
  | add => some (a + b)
  | sub => some (a - b)
  | mul => some (a * b)
  | div => if b = 0 then none else some (Word.ofInt ((Word.toSigned a).tdiv (Word.toSigned b)))
  | and => some (a &&& b)
  | or => some (a ||| b)
  | xor => some (a ^^^ b)

/-- Whether a jump is taken. -/
def JumpOp.taken (op : JumpOp) (zeroFlag : Bool) : Bool :=
  match op with
  | jmp | call => true
  | jz => zeroFlag
  | jnz => !zeroFlag

namespace State

variable (s : State)

/-- The state `s` with the instruction pointer at `a`. -/
def goto (a : Address) : State :=
  s.write .ip a

/-- The state `s` with the instruction pointer ahead by `n`. -/
def advance (n : Nat) : State :=
  s.goto (s.registers.ip + UInt32.ofNat n)

/-- The state `s` with `r` set to the result `w` of an operation. -/
def writeResult (op : AluOp) (r : Register) (w : Word) : State :=
  let s := s.write r w
  if op.setsZeroFlag then { s with registers.zeroFlag := w == 0 } else s

/-- Executes an instruction. -/
def execute (i : Instruction) : Except Stop State :=
  match i with
  | .mov dst src => .ok ((s.write dst (s.read src)).advance i.length)
  | .movImm dst imm => .ok ((s.write dst imm).advance i.length)
  | .load reg address =>
    let (w, s) := s.load address
    .ok ((s.write reg w).advance i.length)
  | .store address reg => .ok ((s.store address (s.read reg)).advance i.length)
  | .alu op dst src₁ src₂ =>
    match op.eval? (s.read src₁) (s.read src₂) with
    | none => .error ⟨.divisionByZero s.registers.ip, s⟩
    | some w => .ok ((s.writeResult op dst w).advance i.length)
  | .unary .not reg => .ok ((s.write reg (~~~(s.read reg))).advance i.length)
  | .unary .push reg => return (← s.push (s.read reg)).advance i.length
  | .unary .pop reg => do
    let (w, s) ← s.pop
    return (s.write reg w).advance i.length
  | .jump op address =>
    if op.taken s.registers.zeroFlag then return (← s.push s.registers.ip).goto address
    else .ok (s.advance i.length)
  | .ret => do
    let (origin, s) ← s.pop
    return s.goto (origin + UInt32.ofNat Shape.jump.length)

/-- Whether the machine is in its program. -/
def running : Bool :=
  s.registers.ip < s.memory.programEnd

/-- The instruction at the instruction pointer. -/
def fetch : Except Trap Instruction :=
  let ip := s.registers.ip
  (Instruction.decode (s.memory.window ip Instruction.maxLength)).mapError (.ofDecodeError ip)

/-- Executes the instruction at the instruction pointer. -/
def step : Except Stop (Instruction × State) :=
  match s.fetch with
  | .error trap => .error ⟨trap, s⟩
  | .ok i => do
    let s ← s.execute i
    return (i, { s with cycles := s.cycles + 1 })

end State

end Machine32
