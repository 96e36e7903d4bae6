import Machine32.Proofs.Isa.Stream

/-!
# Instructions as codewords

The bytes of an instruction say where they end, so that a stream can be read in
one way only, whatever comes behind it.

* `decodeFront` decodes a number of instructions one behind the other;
* `decodeFront_append`: it goes through a stream, and on behind it as if the
  bytes there stood alone;
* `eq_of_encode_prefix`: the bytes of an instruction begin with those of no
  other one.
-/

namespace Machine32.Instruction

/-- The first `n` instructions of `bytes`, decoded one behind the other, and the
    bytes behind them. -/
def decodeFront : (n : Nat) → (bytes : List UInt8) →
    Except DecodeError (List Instruction × List UInt8)
  | 0, bytes => .ok ([], bytes)
  | n + 1, bytes => do
    let i ← decode bytes
    let (is, rest) ← decodeFront n (bytes.drop i.length)
    return (i :: is, rest)

theorem drop_encode_append (i : Instruction) (bytes : List UInt8) :
    (i.encode ++ bytes).drop i.length = bytes := by
  rw [← length_encode, List.drop_left]

/-- Decoding goes through a stream and then on with what is behind it. -/
theorem decodeFront_append (is : List Instruction) (n : Nat) (bytes : List UInt8) :
    decodeFront (is.length + n) (is.flatMap encode ++ bytes) =
      (fun x => (is ++ x.1, x.2)) <$> decodeFront n bytes := by
  induction is with
  | nil =>
    rw [List.length_nil, Nat.zero_add]
    exact (id_map (decodeFront n bytes)).symm
  | cons i is ih =>
    rw [List.length_cons, Nat.add_right_comm, List.flatMap_cons, List.append_assoc, decodeFront,
      decode_encode]
    simp only [bind, Except.bind, drop_encode_append, ih]
    cases decodeFront n bytes <;> rfl

/-- The front of a stream decodes to the stream. -/
theorem decodeFront_stream (is : List Instruction) (bytes : List UInt8) :
    decodeFront is.length (is.flatMap encode ++ bytes) = .ok (is, bytes) := by
  have h := decodeFront_append is 0 bytes
  rw [Nat.add_zero] at h
  refine h.trans ?_
  simp only [decodeFront, Functor.map, Except.map, List.append_nil]

/-- The bytes of an instruction begin with those of no other one. -/
theorem eq_of_encode_prefix {i j : Instruction} (h : i.encode <+: j.encode) : i = j := by
  obtain ⟨bytes, hbytes⟩ := h
  have hi := decode_encode i bytes
  have hj := decode_encode j []
  rw [hbytes] at hi
  rw [List.append_nil] at hj
  exact Except.ok.inj (hi.symm.trans hj)

theorem encode_injective : Function.Injective encode :=
  fun _ _ h => eq_of_encode_prefix (h ▸ List.prefix_rfl)

/-- The front of a stream decodes to the stream, and what is behind it is left.
    This is so because an instruction has as many bytes as its opcode says, and
    these begin with the bytes of no other instruction. In a buffer they come
    behind what is there. -/
theorem decode_stream :
    (∀ (is : List Instruction) (bytes : List UInt8),
        decodeFront is.length (is.flatMap encode ++ bytes) = .ok (is, bytes)) ∧
      (∀ i : Instruction, i.encode.length = i.length) ∧
      Function.Injective encode ∧
      (∀ i j : Instruction, i.encode <+: j.encode → i = j) ∧
      ∀ (i : Instruction) (out : Array UInt8),
        (encodeInto out i).toList = out.toList ++ i.encode :=
  ⟨decodeFront_stream, length_encode, encode_injective, fun _ _ => eq_of_encode_prefix,
    fun i out => toList_encodeInto out i⟩

/-- A stream in front of bytes that are cut off within an instruction. -/
theorem decode_stream_sample :
    decodeFront 3 [0x31, 0, 0, 0, 255, 255, 255, 255, 0x01, 9, 8, 0, 0x22, 6, 9, 8, 0x33, 0] =
        .ok ([.jump .jz 0xFFFFFFFF, .mov .zf .ip, .alu .xor .ip .esp .zf], [0x33, 0]) ∧
      (mov .zf .ip).encode <+: [0x01, 9, 8, 0] ∧
      ∀ i : Instruction, i.encode <+: [0x01, 9, 8, 0] → i = mov .zf .ip :=
  ⟨decode_stream.1 [.jump .jz 0xFFFFFFFF, .mov .zf .ip, .alu .xor .ip .esp .zf] [0x33, 0],
    List.prefix_rfl, fun i h => decode_stream.2.2.2.1 i (mov .zf .ip) h⟩

end Machine32.Instruction
