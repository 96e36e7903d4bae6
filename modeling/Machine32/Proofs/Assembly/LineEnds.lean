import Machine32.Proofs.Assembly.Feeding
import Machine32.Proofs.Assembly.Lexing

/-!
# Line ends

A line ends with a line feed, or with a carriage return and a line feed, and its
text is what stands before that (`Source.lineTexts`). The assembler splits at line
feeds only, and has the carriage return as the last character of the line. As no
piece of a text goes on with a carriage return but a blank one
(`Token.readFirst_append_return`), it reads the same line without it
(`Line.parse_append_return`), and so it takes in the lines of the text
(`assemble_eq_lineTexts`).
-/

namespace Machine32

namespace Source

/-- A text without the carriage returns that belong to the end of a line. -/
def withoutReturns : List Char → List Char
  | [] => []
  | c :: cs =>
    if c = '\r' ∧ cs.head? = some '\n' then withoutReturns cs else c :: withoutReturns cs

/-- The texts of the lines of a text, without the characters that end them. -/
def lineTexts (source : String) : List String :=
  (splitLines (withoutReturns source.toList)).map String.ofList

/-- A line with or without the carriage return at its end. -/
def SameLine (cs ds : List Char) : Prop :=
  cs = ds ∨ cs = ds ++ ['\r']

theorem forall₂_consLines {ls ms : List (List Char)} (h : List.Forall₂ SameLine ls ms) (c : Char) :
    List.Forall₂ SameLine (consLines c ls) (consLines c ms) := by
  unfold consLines
  split
  · exact .cons (.inl rfl) h
  · cases h with
    | nil => exact .cons (.inl rfl) .nil
    | cons hl h => exact .cons (hl.imp (congrArg _) (congrArg _)) h

/-- Split at line feeds only, a text has its lines, up to the carriage returns. -/
theorem forall₂_splitLines (cs : List Char) :
    List.Forall₂ SameLine (splitLines cs) (splitLines (withoutReturns cs)) := by
  induction cs with
  | nil => exact .nil
  | cons c cs ih =>
    rw [withoutReturns]
    split
    · next h =>
      -- Only the line that begins here is not the same: it is empty without `c`.
      obtain ⟨rfl, hhead⟩ := h
      obtain ⟨ds, rfl⟩ := List.head?_eq_some_iff.1 hhead
      obtain _ | ⟨-, ih⟩ := ih
      exact .cons (.inr rfl) ih
    · exact forall₂_consLines ih c

end Source

/-! ## Carriage returns -/

namespace Token

theorem takeWhile_append_return {p : Char → Bool} (hp : p '\r' = false) (cs : List Char) :
    (cs ++ ['\r']).takeWhile p = cs.takeWhile p := by
  induction cs with
  | nil => exact List.takeWhile_cons_of_neg (by simp [hp])
  | cons c cs ih => rw [List.cons_append, List.takeWhile_cons, List.takeWhile_cons, ih]

theorem readDirective_append_return (cs : List Char) :
    readDirective (cs ++ ['\r']) = readDirective cs := by
  cases cs with
  | nil => rfl
  | cons c cs =>
    rw [List.cons_append, readDirective, readDirective, takeWhile_append_return (by decide)]

theorem readNegative_append_return (cs : List Char) :
    readNegative (cs ++ ['\r']) = readNegative cs := by
  rw [readNegative, readNegative, takeWhile_append_return (by decide)]

theorem hexDigitsBehindX_append_return (cs : List Char) :
    hexDigitsBehindX (cs ++ ['\r']) = hexDigitsBehindX cs := by
  cases cs with
  | nil => rfl
  | cons c cs =>
    rw [List.cons_append, hexDigitsBehindX, hexDigitsBehindX, takeWhile_append_return (by decide)]

theorem readNumber_append_return (c : Char) (cs : List Char) :
    readNumber c (cs ++ ['\r']) = readNumber c cs := by
  rw [readNumber, readNumber, hexDigitsBehindX_append_return,
    takeWhile_append_return (by decide)]

/-- A run of characters ends where it did, or it goes up to the carriage return and
    takes it along. -/
theorem takeWhile_append_return_cases {p : Char → Bool} (hp : p '\r' = true) (cs : List Char) :
    (cs ++ ['\r']).takeWhile p = cs.takeWhile p ∨
      cs.takeWhile p = cs ∧ (cs ++ ['\r']).takeWhile p = cs ++ ['\r'] := by
  rw [List.takeWhile_append]
  split
  · next h =>
    refine .inr ⟨(List.takeWhile_prefix p).eq_of_length h, ?_⟩
    rw [List.takeWhile_cons_of_pos hp, List.takeWhile_nil]
  · exact .inl rfl

/-- The first piece ends before a carriage return, or else it is blank. -/
theorem readFirst_append_return (c : Char) (cs : List Char) :
    readFirst c (cs ++ ['\r']) = readFirst c cs ∨
      readFirst c cs = (.blank, cs.length) ∧
        readFirst c (cs ++ ['\r']) = (.blank, (cs ++ ['\r']).length) := by
  have hrun {p : Char → Bool} (hp : p '\r' = true) :
      (Reading.blank, ((cs ++ ['\r']).takeWhile p).length) =
          (.blank, (cs.takeWhile p).length) ∨
        (Reading.blank, (cs.takeWhile p).length) = (.blank, cs.length) ∧
          (Reading.blank, ((cs ++ ['\r']).takeWhile p).length) =
            (.blank, (cs ++ ['\r']).length) := by
    rcases takeWhile_append_return_cases hp cs with h | ⟨h, h'⟩
    · exact .inl (by rw [h])
    · exact .inr ⟨by rw [h], by rw [h']⟩
  by_cases hblank : isBlank c = true
  · simp only [readFirst, if_pos hblank]
    exact hrun (by decide)
  by_cases hcomment : c = ';'
  · simp only [readFirst, if_neg hblank, if_pos hcomment]
    exact hrun (by decide)
  · refine .inl ?_
    simp only [readFirst, if_neg hblank, if_neg hcomment, readDirective_append_return,
      readNegative_append_return, readNumber_append_return,
      takeWhile_append_return (p := Ascii.isNameChar) (by decide)]

theorem length_takeWhile_le (p : Char → Bool) (cs : List Char) :
    (cs.takeWhile p).length ≤ cs.length :=
  (List.takeWhile_prefix p).length_le

theorem length_hexDigitsBehindX_le {cs : List Char} (h : hexDigitsBehindX cs ≠ []) :
    (hexDigitsBehindX cs).length + 1 ≤ cs.length := by
  unfold hexDigitsBehindX at h ⊢
  split at h
  · exact absurd rfl h
  split at h
  · next hx =>
    rw [if_pos hx]
    exact Nat.succ_le_succ (length_takeWhile_le _ _)
  · exact absurd rfl h

/-- The first piece is no longer than the text. -/
theorem readFirst_le (c : Char) (cs : List Char) : (readFirst c cs).2 ≤ cs.length := by
  have hdirective : (readDirective cs).2 ≤ cs.length := by
    unfold readDirective
    split
    · exact Nat.zero_le _
    split
    · exact Nat.succ_le_succ (length_takeWhile_le _ _)
    · exact Nat.zero_le _
  have hnegative : (readNegative cs).2 ≤ cs.length := by
    simp only [readNegative]
    split
    · exact Nat.zero_le _
    · exact length_takeWhile_le _ _
  have hnumber : (readNumber c cs).2 ≤ cs.length := by
    simp only [readNumber]
    split
    · next h => exact length_hexDigitsBehindX_le h.2
    · exact length_takeWhile_le _ _
  simp only [readFirst]
  -- In the order of the alternatives.
  split_ifs
  · exact length_takeWhile_le _ _
  · exact length_takeWhile_le _ _
  · exact Nat.zero_le _
  · exact Nat.zero_le _
  · exact Nat.zero_le _
  · exact length_takeWhile_le _ _
  · exact hdirective
  · exact hnegative
  · exact hnumber
  · exact Nat.zero_le _

end Token

/-- A text has the same lexemes with a carriage return behind it. -/
theorem Lexeme.ofPieces_append_return (n : Nat) (cs : List Char) :
    ofPieces n (Token.pieces (cs ++ ['\r'])) = ofPieces n (Token.pieces cs) := by
  fun_induction Token.pieces cs generalizing n with
  | case1 =>
    rw [List.nil_append, Token.pieces, List.drop_nil, Token.pieces]
    rfl
  | case2 c cs ih =>
    rw [List.cons_append, Token.pieces]
    rcases Token.readFirst_append_return c cs with h | ⟨h, h'⟩
    · rw [h, List.take_append_of_le_length (Token.readFirst_le c cs),
        List.drop_append_of_le_length (Token.readFirst_le c cs)]
      -- What is made of the first piece does not depend on those behind it.
      cases (Token.readFirst c cs).1 with
      | blank => exact ih _
      | token t => exact congrArg (List.cons _) (ih _)
      | stray => exact congrArg (List.cons _) (ih _)
    · -- One blank piece, with or without the carriage return.
      rw [h, h', List.drop_length, List.drop_length, Token.pieces]
      rfl

/-- A line is the same with a carriage return at its end. -/
theorem Line.parse_append_return (cs : List Char) :
    parse (String.ofList (cs ++ ['\r'])) = parse (String.ofList cs) := by
  rw [parse, parse, Lexeme.scan, Lexeme.scan, String.toList_ofList, String.toList_ofList,
    Lexeme.ofPieces_append_return]

/-! ## The assembler -/

/-- The assembler does the same with lines that read the same. -/
theorem Assembler.feedLines_congr {texts texts' : List String}
    (h : List.Forall₂ (fun x y => Line.parse x = Line.parse y) texts texts') (a : Assembler)
    (n : Nat) : a.feedLines n texts = a.feedLines n texts' := by
  induction h generalizing a n with
  | nil => rfl
  | cons hline _ ih =>
    rw [feedLines, feedLines, feedLine, feedLine, feed, feed, hline]
    exact congrArg _ (funext fun b => ih b (n + 1))

/-- The assembler takes in the lines of the text. -/
theorem assemble_eq_lineTexts (l : Layout) (source : String) :
    assemble l source =
      (do
        let a ← (Assembler.initial l).feedLines 1 (Source.lineTexts source)
        a.finish) := by
  have hlines : List.Forall₂ (fun x y => Line.parse x = Line.parse y)
      ((splitLines source.toList).map String.ofList) (Source.lineTexts source) := by
    rw [Source.lineTexts, List.forall₂_map_left_iff, List.forall₂_map_right_iff]
    refine (Source.forall₂_splitLines source.toList).imp fun cs ds h => ?_
    rcases h with rfl | rfl
    · rfl
    · exact Line.parse_append_return ds
  rw [assemble, Assembler.feedLines_congr hlines]

end Machine32
