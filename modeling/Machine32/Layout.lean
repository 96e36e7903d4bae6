import Machine32.Numeral
import Machine32.Word

/-!
# Memory layout

Memory is divided into three segments, in the order of their addresses: the
program at address `0`, the data, and the stack, which grows downward from the
end of memory. A layout gives the sizes of the segments. It is valid if they
are positive multiples of the word size, the program segment has room for the
call that enters a program, and all addresses of memory, its end included, are
words.

* `Layout.ofSizes` builds the layout with given sizes, or says what is wrong
  with them;
* `Layout.segment` and `Layout.region?` go from a region to its addresses and
  back.
-/

namespace Machine32

/-- A part of memory. -/
inductive Region where
  | program
  | data
  | stack
  deriving DecidableEq, Inhabited

namespace Region

/-- All regions, in the order of their addresses. -/
def all : List Region :=
  [program, data, stack]

/-- The name of a region. -/
def name : Region → String
  | program => "program"
  | data => "data"
  | stack => "stack"

end Region

/-- The addresses from `start` up to, but not including, `stop`. -/
structure Segment where
  /-- The first address. -/
  start : Address
  /-- The address behind the last one. -/
  stop : Address
  deriving DecidableEq, Inhabited

namespace Segment

/-- Whether an address is in the segment. -/
def contains (s : Segment) (a : Address) : Bool :=
  s.start ≤ a && a < s.stop

/-- The number of addresses in the segment. -/
def size (s : Segment) : UInt32 :=
  s.stop - s.start

/-- Whether the `n` bytes from `a` on are in the segment. -/
def fits (s : Segment) (a n : UInt32) : Bool :=
  s.start ≤ a && a.toNat + n.toNat ≤ s.stop.toNat

/-- A segment as text: a half-open interval. -/
def text (s : Segment) : String :=
  "[0x" ++ Numeral.hex .lower 4 s.start.toNat ++ ", 0x" ++ Numeral.hex .lower 4 s.stop.toNat ++ ")"

end Segment

/-- The length of the call at the front of a program, which enters it. -/
def entryLength : Nat := 8

/-- Why segment sizes make no layout. -/
inductive LayoutError where
  | emptySegment (region : Region)
  | unalignedSegment (region : Region) (size : UInt32)
  /-- The program segment has no room for the entry call. -/
  | programTooSmall (size : UInt32)
  /-- Memory does not end at a 32-bit address. -/
  | tooLarge (total : Nat)
  deriving DecidableEq

/-- The text of a layout error. -/
def LayoutError.message : LayoutError → String
  | emptySegment region => region.name ++ " segment must not be empty"
  | unalignedSegment region size =>
    region.name ++ " segment size " ++ Numeral.decimal size.toNat ++ " is not a multiple of 4"
  | programTooSmall size =>
    "program segment of " ++ Numeral.decimal size.toNat
      ++ " bytes cannot hold the entry call (8 bytes)"
  | tooLarge total =>
    "total memory size " ++ Numeral.decimal total ++ " exceeds the 32-bit address space"

/-- The text of a layout error where a memory was asked for. -/
def LayoutError.memoryMessage (e : LayoutError) : String :=
  "Invalid memory layout: " ++ e.message

/-- The sizes of the segments of a memory. -/
structure Layout where
  programSize : UInt32
  dataSize : UInt32
  stackSize : UInt32
  /-- The segments consist of whole words. -/
  aligned : programSize.toNat % Word.size = 0 ∧ dataSize.toNat % Word.size = 0 ∧
    stackSize.toNat % Word.size = 0
  /-- The program segment holds the entry call, the others hold a word. -/
  nonempty : entryLength ≤ programSize.toNat ∧ 0 < dataSize.toNat ∧ 0 < stackSize.toNat
  /-- The end of memory is a 32-bit address. -/
  total_lt : programSize.toNat + dataSize.toNat + stackSize.toNat < 0x100000000
  deriving DecidableEq

namespace Layout

/-- What is wrong with the size of a single segment, if anything. -/
def sizeFault? (region : Region) (size : UInt32) : Option LayoutError :=
  if size = 0 then some (.emptySegment region)
  else if size.toNat % Word.size ≠ 0 then some (.unalignedSegment region size)
  else none

/-- What is wrong with the sizes of the segments, if anything: first each of
    them alone, in the order of the segments, then the room for the entry call,
    then the end of memory. -/
def fault? (program data stack : UInt32) : Option LayoutError :=
  sizeFault? .program program
    |>.or (sizeFault? .data data)
    |>.or (sizeFault? .stack stack)
    |>.or (if program.toNat < entryLength then some (.programTooSmall program) else none)
    |>.or (if 0x100000000 ≤ program.toNat + data.toNat + stack.toNat then
        some (.tooLarge (program.toNat + data.toNat + stack.toNat)) else none)

theorem sizeFault?_eq_none_iff {region : Region} {size : UInt32} :
    sizeFault? region size = none ↔ 0 < size.toNat ∧ size.toNat % Word.size = 0 := by
  have hpos : size = 0 ↔ size.toNat = 0 := by
    rw [← UInt32.toNat_inj]
    rfl
  by_cases h : size = 0
  · have h' := hpos.mp h
    simp [sizeFault?, h]
  · have h' : 0 < size.toNat := Nat.pos_of_ne_zero (mt hpos.mpr h)
    simp [sizeFault?, h, h']

theorem fault?_eq_none_iff {program data stack : UInt32} :
    fault? program data stack = none ↔
      (program.toNat % Word.size = 0 ∧ data.toNat % Word.size = 0 ∧
        stack.toNat % Word.size = 0) ∧
      (entryLength ≤ program.toNat ∧ 0 < data.toNat ∧ 0 < stack.toNat) ∧
      program.toNat + data.toNat + stack.toNat < 0x100000000 := by
  simp only [fault?, Option.or_eq_none_iff, sizeFault?_eq_none_iff, ite_eq_right_iff,
    reduceCtorEq, imp_false]
  simp only [entryLength, Word.size]
  omega

/-- The layout with the given segment sizes. -/
def ofSizes (program data stack : UInt32) : Except LayoutError Layout :=
  match h : fault? program data stack with
  | some e => .error e
  | none =>
    have h := fault?_eq_none_iff.mp h
    .ok ⟨program, data, stack, h.1, h.2.1, h.2.2⟩

/-- The size of a segment unless another one is asked for. -/
def standardSize : UInt32 := 1024

/-- Three segments of the standard size. -/
def standard : Layout where
  programSize := standardSize
  dataSize := standardSize
  stackSize := standardSize
  aligned := by decide
  nonempty := by decide
  total_lt := by decide

instance : Inhabited Layout :=
  ⟨standard⟩

variable (l : Layout)

/-- The first address of the stack segment. -/
def stackStart : Address :=
  l.programSize + l.dataSize

/-- The size of memory, which is also its end. -/
def total : UInt32 :=
  l.programSize + l.dataSize + l.stackSize

/-- The addresses of a region. -/
def segment : Region → Segment
  | .program => ⟨0, l.programSize⟩
  | .data => ⟨l.programSize, l.stackStart⟩
  | .stack => ⟨l.stackStart, l.total⟩

/-- The region an address is in, if it is in memory. -/
def region? (a : Address) : Option Region :=
  Region.all.find? fun r => (l.segment r).contains a

@[simp] theorem toNat_stackStart :
    l.stackStart.toNat = l.programSize.toNat + l.dataSize.toNat := by
  have h := l.total_lt
  rw [stackStart, UInt32.toNat_add]
  omega

@[simp] theorem toNat_total :
    l.total.toNat = l.programSize.toNat + l.dataSize.toNat + l.stackSize.toNat := by
  have h := l.total_lt
  rw [total, UInt32.toNat_add, UInt32.toNat_add]
  omega

end Layout

end Machine32
