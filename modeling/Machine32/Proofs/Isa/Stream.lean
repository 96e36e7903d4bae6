import Machine32.Isa.Encoding
import Machine32.Proofs.Result

/-!
# Instruction streams

The code of a program is a stream: its instructions one behind the other. An
instruction is *located* at the sum of the lengths before it, and the
*boundaries* of a stream are the addresses of its instructions and its end.

* `decode_encode`: decoding reads back the first instruction of a stream,
  whatever comes behind it;
* `decode_drop`: and so it does at every located instruction;
* `boundary_next`: behind an instruction there is a boundary again.
-/

namespace Machine32.Instruction

@[simp] theorem decodeRegister_id (op : UInt8) (r : Register) :
    decodeRegister op r.id = .ok r := by
  rw [decodeRegister, Register.ofId?_id]

/-- Decoding undoes encoding, whatever comes behind the instruction. -/
theorem decode_encode (i : Instruction) (bytes : List UInt8) :
    decode (i.encode ++ bytes) = .ok i := by
  cases i <;>
    simp [encode, decode, opcode, Word.toBytes, Word.ofBytes_toBytes, Except.bind_eq_ok_iff]

/-- The number of bytes of a stream. -/
def totalLength : List Instruction → Nat
  | [] => 0
  | i :: is => i.length + totalLength is

@[simp] theorem totalLength_nil : totalLength [] = 0 := rfl

@[simp] theorem totalLength_cons (i : Instruction) (is : List Instruction) :
    totalLength (i :: is) = i.length + totalLength is := rfl

@[simp] theorem totalLength_append (is js : List Instruction) :
    totalLength (is ++ js) = totalLength is + totalLength js := by
  induction is with
  | nil => rw [List.nil_append, totalLength_nil, Nat.zero_add]
  | cons i is ih => rw [List.cons_append, totalLength_cons, ih, totalLength_cons, Nat.add_assoc]

theorem totalLength_concat (is : List Instruction) (i : Instruction) :
    totalLength (is ++ [i]) = totalLength is + i.length :=
  totalLength_append is [i]

@[simp] theorem length_flatMap_encode (is : List Instruction) :
    (is.flatMap encode).length = totalLength is := by
  induction is with
  | nil => rfl
  | cons i is ih => rw [List.flatMap_cons, List.length_append, length_encode, ih, totalLength_cons]

/-- The instructions of a stream that begins at the address `a`, each with its
    own address. -/
def located (a : Nat) : List Instruction → List (Nat × Instruction)
  | [] => []
  | i :: is => (a, i) :: located (a + i.length) is

theorem located_append (a : Nat) (is js : List Instruction) :
    located a (is ++ js) = located a is ++ located (a + totalLength is) js := by
  induction is generalizing a with
  | nil => rfl
  | cons i is ih => rw [List.cons_append, located, ih, located, totalLength_cons, ← Nat.add_assoc,
      List.cons_append]

/-- An instruction is located behind those before it in the stream. -/
theorem mem_located_iff {a n : Nat} {i : Instruction} {is : List Instruction} :
    (n, i) ∈ located a is ↔ ∃ pre post, is = pre ++ i :: post ∧ n = a + totalLength pre := by
  constructor
  · intro h
    induction is generalizing a with
    | nil => exact absurd h List.not_mem_nil
    | cons j is ih =>
      rcases List.mem_cons.1 h with h | h
      · obtain ⟨rfl, rfl⟩ := Prod.mk.inj h
        exact ⟨[], is, rfl, rfl⟩
      · obtain ⟨pre, post, rfl, rfl⟩ := ih h
        exact ⟨j :: pre, post, rfl, by rw [totalLength_cons, Nat.add_assoc]⟩
  · rintro ⟨pre, post, rfl, rfl⟩
    rw [located_append]
    exact List.mem_append_right _ List.mem_cons_self

theorem le_of_mem_located {a n : Nat} {i : Instruction} {is : List Instruction}
    (h : (n, i) ∈ located a is) : a ≤ n ∧ n + i.length ≤ a + totalLength is := by
  obtain ⟨pre, post, rfl, rfl⟩ := mem_located_iff.1 h
  rw [totalLength_append, totalLength_cons]
  omega

/-- There is one instruction at an address. -/
theorem located_unique {a n : Nat} {i j : Instruction} {is : List Instruction}
    (hi : (n, i) ∈ located a is) (hj : (n, j) ∈ located a is) : i = j := by
  induction is generalizing a with
  | nil => exact absurd hi List.not_mem_nil
  | cons k is ih =>
    have hk := k.length_pos
    rcases List.mem_cons.1 hi with hi | hi <;> rcases List.mem_cons.1 hj with hj | hj
    · exact (Prod.mk.inj hi).2.trans (Prod.mk.inj hj).2.symm
    · have := (Prod.mk.inj hi).1
      have := (le_of_mem_located hj).1
      omega
    · have := (Prod.mk.inj hj).1
      have := (le_of_mem_located hi).1
      omega
    · exact ih hi hj

/-- At every located instruction the code of a stream decodes to it. -/
theorem decode_drop {n : Nat} {i : Instruction} {is : List Instruction}
    (h : (n, i) ∈ located 0 is) : decode ((is.flatMap encode).drop n) = .ok i := by
  obtain ⟨pre, post, rfl, rfl⟩ := mem_located_iff.1 h
  rw [List.flatMap_append, Nat.zero_add, ← length_flatMap_encode, List.drop_left,
    List.flatMap_cons, decode_encode]

/-- The address of an instruction of a stream that begins at `a`, or its end. -/
def Boundary (a : Nat) (is : List Instruction) (n : Nat) : Prop :=
  (∃ i, (n, i) ∈ located a is) ∨ n = a + totalLength is

theorem boundary_start (a : Nat) (is : List Instruction) : Boundary a is a := by
  cases is with
  | nil => exact .inr rfl
  | cons i is => exact .inl ⟨i, List.mem_cons_self⟩

/-- A boundary divides the stream. -/
theorem boundary_iff {a n : Nat} {is : List Instruction} :
    Boundary a is n ↔ ∃ pre post, is = pre ++ post ∧ n = a + totalLength pre := by
  constructor
  · rintro (⟨i, h⟩ | rfl)
    · obtain ⟨pre, post, h⟩ := mem_located_iff.1 h
      exact ⟨pre, i :: post, h⟩
    · exact ⟨is, [], (List.append_nil _).symm, rfl⟩
  · rintro ⟨pre, post, rfl, rfl⟩
    cases post with
    | nil => exact .inr (by rw [List.append_nil])
    | cons i post => exact .inl ⟨i, mem_located_iff.2 ⟨pre, post, rfl, rfl⟩⟩

/-- The boundaries of a stream stay boundaries when it grows. -/
theorem Boundary.append {a n : Nat} {is : List Instruction} (h : Boundary a is n)
    (js : List Instruction) : Boundary a (is ++ js) n := by
  obtain ⟨pre, post, rfl, rfl⟩ := boundary_iff.1 h
  exact boundary_iff.2 ⟨pre, post ++ js, List.append_assoc .., rfl⟩

/-- No boundary is inside an instruction. -/
theorem Boundary.le_or_le {a n : Nat} {pre post : List Instruction} {i : Instruction}
    (h : Boundary a (pre ++ i :: post) n) :
    n ≤ a + totalLength pre ∨ a + totalLength pre + i.length ≤ n := by
  obtain ⟨pre', post', heq, rfl⟩ := boundary_iff.1 h
  rcases List.append_eq_append_iff.1 heq with ⟨mid, rfl, hmid⟩ | ⟨mid, rfl, -⟩
  · cases mid with
    | nil => exact .inl (Nat.le_of_eq (by rw [List.append_nil]))
    | cons j mid =>
      obtain ⟨rfl, -⟩ := List.cons.inj hmid
      rw [totalLength_append, totalLength_cons]
      exact .inr (by omega)
  · rw [totalLength_append]
    exact .inl (by omega)

/-- Behind an instruction there is a boundary. -/
theorem boundary_next {a n : Nat} {i : Instruction} {is : List Instruction}
    (h : (n, i) ∈ located a is) : Boundary a is (n + i.length) := by
  obtain ⟨pre, post, rfl, rfl⟩ := mem_located_iff.1 h
  exact boundary_iff.2 ⟨pre ++ [i], post, by simp, by rw [totalLength_concat, Nat.add_assoc]⟩

end Machine32.Instruction
