/-!
# Words

The machine computes on 32-bit words, which are also its addresses. In memory
a word takes four bytes, the least significant one first.

* `Word.toBytes` and `Word.ofBytes` are inverse to each other;
* `Word.ofInt_eq_iff`: which word is congruent to an integer.
-/

namespace Machine32

/-- A 32-bit word. -/
abbrev Word := UInt32

/-- The address of a byte in memory. -/
abbrev Address := UInt32

namespace Word

/-- The size of a word in bytes. -/
def size : Nat := 4

/-- The byte number `i`, from the least significant one. -/
def byte (w : Word) (i : Nat) : UInt8 :=
  UInt8.ofNat (w.toNat >>> (8 * i))

/-- The bytes of a word, least significant first. -/
def toBytes (w : Word) : List UInt8 :=
  [byte w 0, byte w 1, byte w 2, byte w 3]

/-- The word with the bytes `b₀`, `b₁`, `b₂`, `b₃`, least significant first. -/
def ofBytes (b₀ b₁ b₂ b₃ : UInt8) : Word :=
  UInt32.ofNat (b₀.toNat + 0x100 * b₁.toNat + 0x10000 * b₂.toNat + 0x1000000 * b₃.toNat)

/-- The two's complement reading of a word. -/
def toSigned (w : Word) : Int :=
  w.toInt32.toInt

/-- Whether an integer is the signed or the unsigned reading of a word. -/
def Fits (n : Int) : Prop :=
  -0x80000000 ≤ n ∧ n < 0x100000000

instance (n : Int) : Decidable (Fits n) :=
  inferInstanceAs (Decidable (_ ∧ _))

/-- The word congruent to an integer modulo `2 ^ 32`. -/
def ofInt (n : Int) : Word :=
  UInt32.ofInt n

theorem toSigned_eq (w : Word) :
    toSigned w = if 2 * w.toNat < 0x100000000 then (w.toNat : Int) else w.toNat - 0x100000000 :=
  BitVec.toInt_eq_toNat_cond w.toBitVec

/-- A word is that of the integers that are congruent to it. -/
theorem ofInt_eq_iff {n : Int} {w : Word} : ofInt n = w ↔ n % 0x100000000 = w.toNat := by
  change UInt32.ofNat (n % 0x100000000).toNat = w ↔ _
  have hlt := w.toNat_lt
  rw [← UInt32.toNat_inj, UInt32.toNat_ofNat']
  omega

@[simp] theorem length_toBytes (w : Word) : (toBytes w).length = size := rfl

/-- A word is put together again from its bytes. -/
theorem ofBytes_toBytes (w : Word) :
    ofBytes (byte w 0) (byte w 1) (byte w 2) (byte w 3) = w := by
  apply UInt32.toNat_inj.mp
  have h := w.toNat_lt
  simp only [ofBytes, byte, UInt32.toNat_ofNat', UInt8.toNat_ofNat']
  omega

theorem toBytes_ofBytes (b₀ b₁ b₂ b₃ : UInt8) :
    toBytes (ofBytes b₀ b₁ b₂ b₃) = [b₀, b₁, b₂, b₃] := by
  have h₀ := b₀.toNat_lt
  have h₁ := b₁.toNat_lt
  have h₂ := b₂.toNat_lt
  have h₃ := b₃.toNat_lt
  simp only [toBytes, byte, ofBytes, List.cons.injEq, and_true]
  refine ⟨?_, ?_, ?_, ?_⟩ <;> apply UInt8.toNat_inj.mp <;>
    simp only [UInt32.toNat_ofNat', UInt8.toNat_ofNat'] <;> omega

end Word

end Machine32
