import Machine32.Proofs.Memory.Accesses
import Machine32.Proofs.Memory.Segments

/-!
# The segments of a layout

A layout is made of three sizes exactly if each is a positive number of words, the program
segment holds the entry call, and their sum is a word. This is all that is needed for its
segments to lie behind each other without a gap, from address `0` to the end of memory: no
sum of sizes wraps around, and every address of memory is in one region.

* `Layout.ofSizes_eq_ok_iff`: which sizes make a layout;
* `Layout.Tiles`: how the segments of a layout lie in memory;
* `ofSizes_tiles`: the layouts that are made tile their memory.
-/

namespace Machine32.Layout

/-- The sizes make a layout. -/
structure Accepts (program data stack : UInt32) : Prop where
  words : ∀ size ∈ [program, data, stack], size ≠ 0 ∧ 4 ∣ size.toNat
  entry : 8 ≤ program.toNat
  total : program.toNat + data.toNat + stack.toNat < 0x100000000

/-- The segments of a layout lie behind each other, from the start of memory to its end:
    their ends are the sums of the sizes as numbers, and an address is in the segment of
    one region if it is in memory, and in none otherwise. -/
structure Tiles (l : Layout) : Prop where
  programStart : (l.segment .program).start = 0
  dataStart : (l.segment .data).start = (l.segment .program).stop
  stackStart : (l.segment .stack).start = (l.segment .data).stop
  stackStop : (l.segment .stack).stop = l.total
  toNat_programStop : (l.segment .program).stop.toNat = l.programSize.toNat
  toNat_dataStop : (l.segment .data).stop.toNat = l.programSize.toNat + l.dataSize.toNat
  toNat_total : l.total.toNat = l.programSize.toNat + l.dataSize.toNat + l.stackSize.toNat
  existsUnique : ∀ a, a < l.total → ∃! r, (l.segment r).contains a = true
  region?_eq_some_iff : ∀ a r, l.region? a = some r ↔ (l.segment r).contains a = true
  region?_eq_none_iff : ∀ a, l.region? a = none ↔ l.total ≤ a

variable {l : Layout} {program data stack : UInt32} {a : Address} {r : Region}

/-- Sizes are accepted if nothing is found wrong with them. -/
theorem fault?_eq_none_iff_accepts :
    fault? program data stack = none ↔ Accepts program data stack := by
  have hsize (size : UInt32) :
      size ≠ 0 ∧ 4 ∣ size.toNat ↔ 0 < size.toNat ∧ size.toNat % Word.size = 0 := by
    rw [ne_eq, ← UInt32.toNat_inj, Nat.pos_iff_ne_zero, Nat.dvd_iff_mod_eq_zero]
    rfl
  have hwords : (∀ size ∈ [program, data, stack], size ≠ 0 ∧ 4 ∣ size.toNat) ↔
      (0 < program.toNat ∧ program.toNat % Word.size = 0) ∧
      (0 < data.toNat ∧ data.toNat % Word.size = 0) ∧
      (0 < stack.toNat ∧ stack.toNat % Word.size = 0) := by
    simp only [List.forall_mem_cons, hsize, List.not_mem_nil, false_imp_iff, implies_true, and_true]
  rw [fault?_eq_none_iff, entryLength]
  constructor
  · rintro ⟨⟨hp, hd, hs⟩, ⟨hentry, hdata, hstack⟩, htotal⟩
    exact ⟨hwords.2 ⟨⟨by omega, hp⟩, ⟨hdata, hd⟩, hstack, hs⟩, hentry, htotal⟩
  · rintro ⟨hsizes, hentry, htotal⟩
    obtain ⟨⟨-, hp⟩, ⟨hdata, hd⟩, hstack, hs⟩ := hwords.1 hsizes
    exact ⟨⟨hp, hd, hs⟩, ⟨hentry, hdata, hstack⟩, htotal⟩

/-- Sizes make a layout if they are accepted, and the layout has these sizes. -/
theorem ofSizes_eq_ok_iff : ofSizes program data stack = .ok l ↔
    Accepts program data stack ∧ l.programSize = program ∧ l.dataSize = data ∧
      l.stackSize = stack := by
  rw [ofSizes, ← fault?_eq_none_iff_accepts]
  split
  · next e h => simp [h]
  · next h =>
    rw [Except.ok.injEq]
    constructor
    · rintro rfl
      exact ⟨h, rfl, rfl, rfl⟩
    · rintro ⟨-, rfl, rfl, rfl⟩
      rfl

/-- The segments leave no gap. -/
theorem exists_contains (h : a < l.total) : ∃ r, (l.segment r).contains a = true := by
  rw [UInt32.lt_iff_toNat_lt, toNat_total] at h
  simp only [Segment.contains_iff]
  rcases Nat.lt_or_ge a.toNat l.programSize.toNat with hp | hp
  · exact ⟨.program, Nat.zero_le _, hp⟩
  rcases Nat.lt_or_ge a.toNat l.stackStart.toNat with hd | hd
  · exact ⟨.data, hp, hd⟩
  · exact ⟨.stack, hd, l.toNat_total ▸ h⟩

theorem lt_total_of_contains (h : (l.segment r).contains a = true) : a < l.total :=
  UInt32.lt_iff_toNat_lt.2
    (Nat.lt_of_lt_of_le (Segment.contains_iff.1 h).2 (l.stop_le_total r))

/-- The region of an address is the one whose segment the address is in. -/
theorem region?_eq_some_iff : l.region? a = some r ↔ (l.segment r).contains a = true := by
  have hfound {r'} (h' : l.region? a = some r') : (l.segment r').contains a = true :=
    List.find?_some (p := fun r => (l.segment r).contains a) h'
  refine ⟨hfound, fun h => ?_⟩
  obtain ⟨r', hr'⟩ : ∃ r', l.region? a = some r' := by
    refine Option.isSome_iff_exists.1 (List.find?_isSome.2 ⟨r, ?_, h⟩)
    cases r <;> decide
  rw [hr', contains_unique (hfound hr') h]

theorem region?_eq_none_iff : l.region? a = none ↔ l.total ≤ a := by
  rw [← UInt32.not_lt, Option.eq_none_iff_forall_ne_some]
  constructor
  · intro h hlt
    obtain ⟨r, hr⟩ := exists_contains hlt
    exact h r (region?_eq_some_iff.2 hr)
  · exact fun h r hr => h (lt_total_of_contains (region?_eq_some_iff.1 hr))

/-- The segments of every layout tile its memory. -/
theorem tiles (l : Layout) : l.Tiles where
  programStart := rfl
  dataStart := rfl
  stackStart := rfl
  stackStop := rfl
  toNat_programStop := rfl
  toNat_dataStop := l.toNat_stackStart
  toNat_total := l.toNat_total
  existsUnique a h := by
    obtain ⟨r, hr⟩ := exists_contains h
    exact ⟨r, hr, fun r' hr' => contains_unique hr' hr⟩
  region?_eq_some_iff _ _ := region?_eq_some_iff
  region?_eq_none_iff _ := region?_eq_none_iff

/-- Which sizes make a layout, and that its segments tile the memory that has it: there is no
    byte just at the addresses that are in no region. -/
theorem ofSizes_tiles (program data stack : UInt32) :
    ((∃ l, ofSizes program data stack = .ok l) ↔ Accepts program data stack) ∧
      ∀ l, ofSizes program data stack = .ok l →
        l.programSize = program ∧ l.dataSize = data ∧ l.stackSize = stack ∧ l.Tiles ∧
        ∀ m : Memory, m.layout = l → m.size = l.total ∧
          ∀ a, m.byte? a = none ↔ m.layout.region? a = none := by
  constructor
  · constructor
    · rintro ⟨l, hl⟩
      exact (ofSizes_eq_ok_iff.1 hl).1
    · intro h
      obtain ⟨haligned, hnonempty, htotal⟩ :=
        fault?_eq_none_iff.1 (fault?_eq_none_iff_accepts.2 h)
      exact ⟨⟨program, data, stack, haligned, hnonempty, htotal⟩,
        ofSizes_eq_ok_iff.2 ⟨h, rfl, rfl, rfl⟩⟩
  · intro l hl
    obtain ⟨-, hp, hd, hs⟩ := ofSizes_eq_ok_iff.1 hl
    refine ⟨hp, hd, hs, l.tiles, ?_⟩
    rintro m rfl
    refine ⟨rfl, fun a => ?_⟩
    rw [Memory.byte?_eq_none_iff, region?_eq_none_iff, Memory.size]

/-- The largest memory there is, and sizes that are one word too many. -/
theorem ofSizes_tiles_sample :
    (∃ l, ofSizes 0x80000000 0x7FFFFFF8 4 = .ok l ∧ l.Tiles ∧
      l.region? 0xFFFFFFFB = some .stack ∧ l.region? 0xFFFFFFFC = none) ∧
      ¬∃ l, ofSizes 0x80000000 0x7FFFFFF8 8 = .ok l := by
  have haccepts : Accepts 0x80000000 0x7FFFFFF8 4 := by
    refine ⟨?_, by decide, by decide⟩
    rw [List.forall_mem_cons, List.forall_mem_cons, List.forall_mem_singleton]
    decide
  obtain ⟨l, hl⟩ := (ofSizes_tiles ..).1.2 haccepts
  obtain ⟨hp, hd, hs, htiles, -⟩ := (ofSizes_tiles ..).2 l hl
  have htotal : l.total = 0xFFFFFFFC := by
    rw [total, hp, hd, hs]
    rfl
  refine ⟨⟨l, hl, htiles, (htiles.region?_eq_some_iff _ _).2 ?_,
    (htiles.region?_eq_none_iff _).2 (htotal ▸ UInt32.le_refl _)⟩, fun h => ?_⟩
  · rw [segment, htotal, stackStart, hp, hd]
    rfl
  · have htotal := ((ofSizes_tiles ..).1.1 h).total
    simp at htotal

end Machine32.Layout
