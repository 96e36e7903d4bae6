import Machine32.Assembly.Line

/-!
# Reading a line in place

A line is read by going through its text: the piece at the place that is reached, what it
is read as, and on to the place behind it. Places count the bytes of the text. Pieces are
cut out of the text by their places, and one that is not there, or that is within a
character, would break this off:

* `textBetween?` is the text between two places;
* `Line.readTokens` goes through a text from a place on;
* `Line.readText` reads the line that a text consists of.
-/

namespace Machine32

/-- The text from the place `start` up to `stop`, if these places are there and none of them
    is within a character. -/
def textBetween? (text : String) (start stop : Nat) : Option String :=
  if start ≤ stop ∧ String.Pos.Raw.isValid text ⟨start⟩ ∧ String.Pos.Raw.isValid text ⟨stop⟩ then
    some (String.Pos.Raw.extract text ⟨start⟩ ⟨stop⟩)
  else none

theorem lt_of_textBetween?_eq_some {text s : String} {start stop : Nat}
    (h : textBetween? text start stop = some s) (hne : s ≠ "") : start < stop := by
  rw [textBetween?] at h
  split at h
  · refine Nat.lt_of_not_ge fun hge => hne ?_
    have hempty : String.Pos.Raw.extract text ⟨start⟩ ⟨stop⟩ = "" := if_pos hge
    rw [← Option.some.inj h, hempty]
  · cases h

theorem utf8Length_cons_pos (c : Char) (cs : List Char) : 0 < utf8Length (c :: cs) :=
  Nat.add_pos_left c.utf8Size_pos _

namespace Line

/-- The tokens of a text from the place `start` on, put behind the tokens `ts`. Commas are
    left out, and stray text ends the reading. -/
def readTokens (text : String) (start : Nat) (ts : List Token) :
    Option (Except Fault (List Token)) :=
  match _ : textBetween? text start text.utf8ByteSize with
  | none => none
  | some left =>
    match _ : left.toList with
    | [] => some (.ok ts)
    | c :: cs =>
      let stop := start + utf8Length (c :: cs.take (Token.readFirst c cs).2)
      match (Token.readFirst c cs).1 with
      | .blank | .token .comma => readTokens text stop ts
      | .token t => readTokens text stop (ts ++ [t])
      | .stray => do
        let piece ← textBetween? text start stop
        return .error (.malformed (.strayText (start + 1) piece))
termination_by text.utf8ByteSize - start
decreasing_by
  -- The next place is behind this one, which is not the end of the text.
  all_goals
    have hne : left ≠ "" := by
      rintro rfl
      exact nomatch ‹"".toList = c :: cs›
    have hlt := lt_of_textBetween?_eq_some ‹textBetween? _ _ _ = some left› hne
    have hpos := utf8Length_cons_pos c (cs.take (Token.readFirst c cs).2)
    omega

/-- The line a text consists of, none if it is blank. -/
def readText (text : String) : Option (Except Fault (Option Line)) := do
  match ← readTokens text 0 [] with
  | .ok ts => return ofTokens ts
  | .error fault => return .error fault

end Line

end Machine32
