import Machine32.Proofs.Assembly.Spacing
import Machine32.Proofs.Assembly.SourceText
import Machine32.Proofs.Assembly.FirstFault

/-!
# Blank lines

A line of blanks and commas, with or without a comment behind them, is no line of
the language (`Line.parse_of_isTail`): the assembler goes on behind it as it is. But
it counts, so that the lines behind it have greater numbers.

* `Source.Inserts`: a text has the lines of another one and a line in between;
* `AssemblyError.movedDown`: the error with the number its line has then;
* `assemble_insert_blank`: if the line is blank, this is all that changes.
-/

namespace Machine32

/-- Blanks and commas with a comment behind them are no line. -/
theorem Line.parse_of_isTail {text : String} (h : Token.IsTail text.toList) :
    parse text = .ok none := by
  have hbare : Token.bare text.toList = ([] : List Token).map .token := h.bare_eq
  obtain ⟨us, hus, hcommas⟩ := Token.exists_lexed_of_bare hbare
  rw [parse_of_lexed hus, hcommas]
  rfl

/-- The error with its line one further down, if it is line `k` or behind it. -/
def AssemblyError.movedDown (k : Nat) : AssemblyError → AssemblyError
  | atLine line fault => atLine (if k ≤ line then line + 1 else line) fault
  | missingEntryPoint => missingEntryPoint
  | layout error => layout error

namespace Assembler

variable {a : Assembler} {k n : Nat}

/-- The lines from `k` on are taken in as before, under greater numbers. -/
theorem feedLines_succ (h : k ≤ n) (texts : List String) :
    a.feedLines (n + 1) texts = (a.feedLines n texts).mapError (.movedDown k) := by
  induction texts generalizing a n with
  | nil => rfl
  | cons text texts ih =>
    rw [feedLines, feedLines, feedLine, feedLine]
    cases a.feed text with
    | error fault =>
      change Except.error _ = Except.error _
      rw [AssemblyError.movedDown, if_pos h]
    | ok b => exact ih (Nat.le_succ_of_le h)

/-- The lines before `k` are taken in as before. -/
theorem mapError_feedLines (texts : List String) (h : n + texts.length ≤ k) :
    (a.feedLines n texts).mapError (.movedDown k) = a.feedLines n texts := by
  induction texts generalizing a n with
  | nil => rfl
  | cons text texts ih =>
    rw [List.length_cons] at h
    rw [feedLines, feedLine]
    cases a.feed text with
    | error fault =>
      change Except.error _ = Except.error _
      rw [AssemblyError.movedDown, if_neg (by omega)]
    | ok b => exact ih (by omega)

theorem mapError_finish (a : Assembler) (k : Nat) :
    a.finish.mapError (.movedDown k) = a.finish := by
  rw [finish]
  cases a.symbols.labels.get? startLabel <;> rfl

/-- A blank line is passed over. -/
theorem feedLines_cons_of_isTail {line : String} (h : Token.IsTail line.toList)
    (texts : List String) : a.feedLines n (line :: texts) = a.feedLines (n + 1) texts := by
  rw [feedLines, feedLine, feed, Line.parse_of_isTail h]
  rfl

end Assembler

/-! ## Texts -/

theorem Token.IsTail.newline_not_mem {tail : List Char} (h : IsTail tail) : '\n' ∉ tail := by
  have hgap {gap : List Char} (hgap : IsGap gap) : '\n' ∉ gap := fun hmem =>
    absurd (hgap _ hmem) (by decide)
  cases h with
  | gap h => exact hgap h
  | comment h hcomment => simp [hgap h, hcomment]

theorem newline_not_mem_of_mem_splitLines {cs line : List Char} (h : line ∈ splitLines cs) :
    '\n' ∉ line := by
  induction cs generalizing line with
  | nil => exact absurd h List.not_mem_nil
  | cons c cs ih =>
    rw [splitLines, List.foldr_cons, ← splitLines] at h
    unfold consLines at h
    split at h
    · rcases List.mem_cons.1 h with rfl | h
      · exact List.not_mem_nil
      · exact ih h
    next hc =>
    -- The character goes in front of the first line, if there is one.
    cases hlines : splitLines cs with
    | nil =>
      rw [hlines] at h
      rw [List.mem_singleton.1 h, List.mem_singleton]
      exact Ne.symm hc
    | cons first lines =>
      rw [hlines] at h ih
      rcases List.mem_cons.1 h with rfl | h
      · rw [List.mem_cons]
        rintro (heq | hmem)
        · exact hc heq.symm
        · exact ih List.mem_cons_self hmem
      · exact ih (List.mem_cons_of_mem _ h)

theorem newline_not_mem_of_mem_textLines {source line : String} (h : line ∈ textLines source) :
    '\n' ∉ line.toList := by
  obtain ⟨cs, hcs, rfl⟩ := List.mem_map.1 h
  rw [String.toList_ofList]
  exact newline_not_mem_of_mem_splitLines hcs

/-- The text `other` has the lines of `source` with `line` inserted before line `k`,
    or behind the last line if `k` is the number that comes next. -/
def Source.Inserts (source : String) (k : Nat) (line other : String) : Prop :=
  ∃ before after, textLines source = before ++ after ∧ k = before.length + 1 ∧
    textLines other = before ++ line :: after

/-- A line can be inserted anywhere. -/
theorem Source.exists_inserts {source line : String} {k : Nat} (hpos : 0 < k)
    (hle : k ≤ (textLines source).length + 1) (hline : '\n' ∉ line.toList) :
    ∃ other, Inserts source k line other := by
  refine ⟨_, (textLines source).take (k - 1), (textLines source).drop (k - 1),
    (List.take_append_drop _ _).symm, ?_, textLines_join ?_⟩
  · rw [List.length_take]
    omega
  · intro text htext
    rcases List.mem_append.1 htext with h | h
    · exact newline_not_mem_of_mem_textLines (List.mem_of_mem_take h)
    rcases List.mem_cons.1 h with rfl | h
    · exact hline
    · exact newline_not_mem_of_mem_textLines (List.mem_of_mem_drop h)

open Assembler

/-- With a blank line inserted before line `k`, a text is the same program, or it has
    the same error, which is one line further down from line `k` on. -/
theorem assemble_inserts {source line other : String} {k : Nat} (hline : Token.IsTail line.toList)
    (h : Source.Inserts source k line other) (l : Layout) :
    assemble l other = (assemble l source).mapError (.movedDown k) := by
  obtain ⟨before, after, hsource, rfl, hother⟩ := h
  rw [textLines] at hsource hother
  have hbefore := mapError_feedLines (a := initial l) (k := before.length + 1) before
    (Nat.le_of_eq (Nat.add_comm 1 before.length))
  have hafter (b : Assembler) : b.feedLines (1 + before.length) (line :: after) =
      (b.feedLines (1 + before.length) after).mapError (.movedDown (before.length + 1)) := by
    rw [feedLines_cons_of_isTail hline]
    exact feedLines_succ (Nat.le_of_eq (Nat.add_comm before.length 1)) after
  rw [assemble, assemble, hsource, hother, feedLines_append, feedLines_append,
    Except.mapError_bind, Except.mapError_bind, hbefore, funext hafter]
  exact congrArg _ (funext fun b => (mapError_finish b _).symm)

/-- Before every line of a text and behind the last one a blank line can be inserted,
    with which the text is the same program, or it has the same error: one line further
    down if it is on line `k` or behind it, and as it is if it is on no line. This is so
    for all sizes of the segments, those of no layout among them. -/
theorem assemble_insert_blank {source line : String} {k : Nat} (hpos : 0 < k)
    (hle : k ≤ (textLines source).length + 1) (hline : Token.IsTail line.toList) :
    (∃ other, Source.Inserts source k line other) ∧
      ∀ other, Source.Inserts source k line other →
        (∀ l, assemble l other = (assemble l source).mapError (.movedDown k)) ∧
        ∀ program data stack, assembleForSizes program data stack other =
          (assembleForSizes program data stack source).mapError (.movedDown k) := by
  refine ⟨Source.exists_inserts hpos hle hline.newline_not_mem, fun other h => ?_⟩
  refine ⟨assemble_inserts hline h, fun program data stack => ?_⟩
  rw [assembleForSizes, assembleForSizes, Except.mapError_bind,
    funext (assemble_inserts hline h)]
  cases Layout.ofSizes program data stack <;> rfl

/-- A comment with a directive and stray text in it, before the second of three lines, of
    which the last one is no instruction. -/
theorem assemble_insert_blank_sample :
    let source := ".start\nMOV EAX, 1\nHALT"
    let line := "\t, ;.data $"
    let other := ".start\n\t, ;.data $\nMOV EAX, 1\nHALT\n"
    Token.IsTail line.toList ∧ Source.Inserts source 2 line other ∧
      assemble Source.sampleLayout source = .error (.atLine 3 (.unknownInstruction "HALT")) ∧
      assemble Source.sampleLayout other = .error (.atLine 4 (.unknownInstruction "HALT")) := by
  intro source line other
  have hgap : Token.IsGap ['\t', ',', ' '] := by decide
  have hcomment : '\n' ∉ ".data $".toList := by decide
  have heq : line.toList = ['\t', ',', ' '] ++ ';' :: ".data $".toList := by decide +kernel
  have hline : Token.IsTail line.toList := heq ▸ .comment hgap hcomment
  have hinserts : Source.Inserts source 2 line other :=
    ⟨[".start"], ["MOV EAX, 1", "HALT"], by decide +kernel, rfl, by decide +kernel⟩
  have hsource : assemble Source.sampleLayout source =
      .error (.atLine 3 (.unknownInstruction "HALT")) := by decide +kernel
  have hlines : 2 ≤ (textLines source).length + 1 := by decide +kernel
  obtain ⟨-, hother⟩ := assemble_insert_blank (by decide) hlines hline
  refine ⟨hline, hinserts, hsource, ?_⟩
  rw [(hother other hinserts).1, hsource]
  rfl

end Machine32
