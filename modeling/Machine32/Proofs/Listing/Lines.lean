import Machine32.Lister
import Machine32.Proofs.Assembly.SourceText

/-!
# The lines of a listing

If no name has a line feed in it, the lines of a listing are those it was put together
from (`Program.textLines_listing`), as there is none in the numbers and words around
the names (`OneLine`). A number in a line can be read back if no digit stands behind it
(`Numeral.hex_append_inj`).
-/

namespace Machine32

/-- The text is on one line. -/
def OneLine (s : String) : Prop :=
  '\n' ∉ s.toList

instance (s : String) : Decidable (OneLine s) :=
  inferInstanceAs (Decidable (_ ∉ _))

namespace OneLine

variable {s t : String}

/-- Two texts on one line are on one line together. -/
theorem append (hs : OneLine s) (ht : OneLine t) : OneLine (s ++ t) := by
  rw [OneLine, String.toList_append, List.mem_append]
  exact not_or.2 ⟨hs, ht⟩

/-- A text over a class of characters is on one line if the line feed is not in it. -/
theorem ofList {p : Char → Bool} {cs : List Char} (hp : p '\n' = false)
    (h : ∀ c ∈ cs, p c = true) : OneLine (String.ofList cs) := by
  rw [OneLine, String.toList_ofList]
  exact Token.newline_not_mem hp h

/-- Texts with a separator between them are on one line if all of them are. -/
theorem intercalate {sep : String} (hsep : OneLine sep) {texts : List String}
    (h : ∀ t ∈ texts, OneLine t) : OneLine (sep.intercalate texts) := by
  induction texts with
  | nil => exact List.not_mem_nil
  | cons t texts ih =>
    obtain ⟨ht, htexts⟩ := List.forall_mem_cons.1 h
    cases texts with
    | nil => rwa [String.intercalate_singleton]
    | cons u texts =>
      rw [String.intercalate_cons_cons]
      exact (ht.append hsep).append (ih htexts)

theorem decimal (n : Nat) : OneLine (Numeral.decimal n) :=
  ofList (p := Char.isDigit) (by decide) fun _ hc =>
    Nat.isDigit_of_mem_toDigits (by decide) (by decide) hc

/-- A sign does not end the line. -/
theorem signed (n : Int) : OneLine (Numeral.signed n) := by
  rw [Numeral.signed]
  split
  · exact append (by decide) (decimal _)
  · exact decimal _

/-- Digits do not end the line, whatever the number. -/
theorem hex (letters : Numeral.LetterCase) (width n : Nat) :
    OneLine (Numeral.hex letters width n) :=
  ofList (p := Char.isHexDigit) (by decide) fun _ hc => Numeral.isHexDigit_of_mem_hexDigits hc

theorem address (a : Address) : OneLine (Address.text a) :=
  append (by decide) (hex _ _ _)

theorem bytesText (bytes : List UInt8) : OneLine (Chunk.bytesText bytes) := by
  refine intercalate (by decide) fun t ht => ?_
  obtain ⟨b, -, rfl⟩ := List.mem_map.1 ht
  exact hex _ _ _

theorem padRight (width : Nat) (h : OneLine s) : OneLine (Chunk.padRight width s) :=
  h.append (ofList (p := (· == ' ')) (by decide) fun c hc => by
    rw [List.eq_of_mem_replicate hc]
    rfl)

/-- The text of an error has nothing but numbers put into it. -/
theorem message (e : DecodeError) : OneLine e.message := by
  cases e with
  | unknownOpcode byte => exact append (by decide) (hex _ _ _)
  | invalidRegister opcode id =>
    have hid : OneLine ("Invalid register 0x" ++ Numeral.hex .upper 2 id.toNat) :=
      append (by decide) (hex _ _ _)
    exact ((hid.append (by decide)).append (hex _ _ _)).append (by decide)
  | truncated opcode needed available =>
    have hopcode : OneLine ("Truncated instruction 0x" ++ Numeral.hex .lower 2 opcode.toNat) :=
      append (by decide) (hex _ _ _)
    have hneeded := (hopcode.append (t := ": needs ") (by decide)).append (decimal needed)
    exact ((hneeded.append (by decide)).append (decimal _)).append (by decide)

end OneLine

/-- A text that is not empty decides what a longer one begins with. -/
theorem head?_append {s : String} {c : Char} (h : s.toList.head? = some c) (t : String) :
    (s ++ t).toList.head? = some c := by
  rw [String.toList_append, List.head?_append, h, Option.some_or]

/-- There is no digit at the front of a text that begins with something else. -/
theorem not_isHexDigit_head {s : String} {c : Char} (h : s.toList.head? = some c)
    (hc : c.isHexDigit = false) (t : String) :
    ∀ d ∈ (s ++ t).toList.head?, d.isHexDigit = false := by
  rw [head?_append h]
  rintro d ⟨⟩
  exact hc

/-- A number and what stands behind it can be told apart, unless the text goes on with
    a digit. -/
theorem Numeral.hex_append_inj {letters : LetterCase} {width m n : Nat} {s t : String}
    (hs : ∀ c ∈ s.toList.head?, c.isHexDigit = false)
    (ht : ∀ c ∈ t.toList.head?, c.isHexDigit = false)
    (h : hex letters width m ++ s = hex letters width n ++ t) : m = n ∧ s = t := by
  have hdigits {k : Nat} {u : String} (hu : ∀ c ∈ u.toList.head?, c.isHexDigit = false) :
      (hex letters width k ++ u).toList.takeWhile Char.isHexDigit =
        (hexDigits letters k).leftpad width '0' := by
    rw [String.toList_append, hex, String.toList_ofList]
    exact Token.takeWhile_append_eq_left (fun c hc => isHexDigit_of_mem_hexDigits hc) hu
  have hvalue := congrArg (value 16) ((hdigits hs).symm.trans ((h ▸ hdigits ht :)))
  rw [value_hexDigits, value_hexDigits] at hvalue
  obtain rfl := hvalue
  exact ⟨rfl, (String.append_right_inj _).1 h⟩

namespace Program

variable {p : Program}

/-- The names of a program are each on one line. -/
structure OneLineNames (p : Program) : Prop where
  labels : ∀ e ∈ p.labels.entries, OneLine e.1
  constants : ∀ e ∈ p.constants.entries, OneLine e.1

/-- The labels at an address are names of the program. -/
theorem OneLineNames.labelsAt (h : p.OneLineNames) (x : Address) :
    ∀ name ∈ p.labelsAt x, OneLine name := by
  intro name hname
  obtain ⟨e, he, rfl⟩ := List.mem_map.1 hname
  exact h.labels e (List.mem_of_mem_filter he)

/-- A remark names the labels at the target of a jump. -/
theorem OneLineNames.remark (h : p.OneLineNames) (i : Instruction) : OneLine (p.remark i) := by
  rw [Program.remark]
  split
  · decide
  dsimp only
  split
  · decide
  · exact OneLine.append (by decide) (OneLine.intercalate (by decide) (h.labelsAt _))

/-- The lines of a listing that show a chunk. -/
def chunkLines (p : Program) (c : Chunk) : List String :=
  (p.labelsAt c.address).map ("." ++ ·) ++ [p.chunkLine c]

/-- The lines that show a chunk are lines: its labels and its instruction or error. -/
theorem OneLineNames.chunkLines (h : p.OneLineNames) (c : Chunk) :
    ∀ line ∈ p.chunkLines c, OneLine line := by
  intro line hline
  rcases List.mem_append.1 hline with hline | hline
  · obtain ⟨name, hname, rfl⟩ := List.mem_map.1 hline
    exact OneLine.append (by decide) (h.labelsAt _ name hname)
  · rw [List.mem_singleton.1 hline, chunkLine]
    refine (((OneLine.address _).append (by decide)).append
      (OneLine.padRight _ (OneLine.bytesText _))).append (by decide) |>.append ?_
    split
    · exact OneLine.append (Instruction.newline_not_mem_text _) (h.remark _)
    · exact OneLine.append (by decide) (OneLine.message _)

theorem OneLineNames.constantLines (h : p.OneLineNames) :
    ∀ line ∈ p.constantLines, OneLine line := by
  intro line hline
  rw [Program.constantLines] at hline
  split at hline
  · exact absurd hline List.not_mem_nil
  simp only [List.mem_cons, List.mem_map, List.mem_mergeSort] at hline
  rcases hline with rfl | rfl | ⟨⟨name, c⟩, he, rfl⟩
  · decide
  · decide
  · exact ((((h.constants _ he).append (by decide)).append (OneLine.signed _)).append
      (by decide)).append (OneLine.address _)

/-- What stands before the code is lines: the numbers of the program and its constants. -/
theorem OneLineNames.frontLines (h : p.OneLineNames) : ∀ line ∈ p.frontLines, OneLine line := by
  intro line hline
  simp only [Program.frontLines, List.mem_append, List.mem_cons, List.not_mem_nil,
    or_false] at hline
  rcases hline with ((rfl | rfl | rfl) | hline) | rfl
  · decide
  · exact OneLine.append (by decide) (OneLine.address _)
  · exact ((OneLine.append (by decide) (OneLine.decimal _)).append (by decide)).append
      (OneLine.decimal _) |>.append (by decide)
  · exact h.constantLines line hline
  · decide

/-- The lines of a listing are those before the code, and then for each chunk the labels
    at its address and the line that shows it. -/
theorem textLines_listing (h : p.OneLineNames) :
    textLines p.listing = p.frontLines ++ (Chunk.split 0 p.code).flatMap p.chunkLines := by
  refine textLines_join fun line hline => ?_
  rcases List.mem_append.1 hline with hline | hline
  · exact h.frontLines line hline
  · obtain ⟨c, -, hline⟩ := List.mem_flatMap.1 hline
    exact h.chunkLines c line hline

end Program

end Machine32
