import Mathlib.Data.String.Basic
import Machine32.Assembly.Cursor
import Machine32.Proofs.Assembly.Comments
import Machine32.Proofs.Assembly.Literals

/-!
# Spans of lexemes

The lexemes of a text are parts of it, one behind the other, and what is between them is
blank or in a comment. Each one is the longest match of a pattern at its place, or one
character where no pattern matches, and a literal is its integer, or stray text if that is
out of range.

* `Lexeme.mem_ofPieces_iff`: a lexeme is a piece, at the place where those before it end;
* `Line.readText_eq`: a line that is read in place is never cut out of its text between
  the bytes of a character;
* `Lexeme.Spans`: how lexemes lie in a text;
* `Lexeme.scan_spans`: a text has one way to be divided up to its end, and its lexemes
  lie in it like this.
-/

namespace Machine32

/-! ## Parts of a text -/

theorem utf8Length_toList (text : String) : utf8Length text.toList = text.utf8ByteSize := by
  rw [utf8Length_eq, String.ofList_toList]

theorem isValid_utf8Length {text : String} {before after : List Char}
    (h : text.toList = before ++ after) : String.Pos.Raw.IsValid text ⟨utf8Length before⟩ := by
  rw [String.Pos.Raw.isValid_iff_exists_append, utf8Length_eq]
  refine ⟨String.ofList before, String.ofList after, ?_, rfl⟩
  rw [← String.ofList_append, ← h, String.ofList_toList]

/-- The text between two places is the part that has the text up to the first one in
    front. -/
theorem textBetween?_eq_some {text : String} {before part after : List Char}
    (h : text.toList = before ++ part ++ after) :
    textBetween? text (utf8Length before) (utf8Length (before ++ part)) =
      some (String.ofList part) := by
  have hle : utf8Length before ≤ utf8Length (before ++ part) :=
    utf8Length_append before part ▸ Nat.le_add_right ..
  have hstart := isValid_utf8Length (h.trans (List.append_assoc ..))
  have hstop := isValid_utf8Length h
  have hutf8Len (cs : List Char) : utf8Length cs = String.utf8Len cs := by
    rw [utf8Length_eq, String.utf8ByteSize_ofList]
  rw [textBetween?, if_pos ⟨hle, String.Pos.Raw.isValid_eq_true_iff.2 hstart,
    String.Pos.Raw.isValid_eq_true_iff.2 hstop⟩, ← String.ofList_toList (s := text), h,
    utf8Length_append, hutf8Len, hutf8Len, String.extract_of_valid]

theorem textBetween?_utf8ByteSize {text : String} {before after : List Char}
    (h : text.toList = before ++ after) :
    textBetween? text (utf8Length before) text.utf8ByteSize = some (String.ofList after) := by
  rw [← utf8Length_toList, h]
  exact textBetween?_eq_some (by rw [h, List.append_nil])

/-! ## Lexemes and pieces -/

namespace Lexeme

open Token (Reading Next Cuts pieces)

variable {x : Lexeme} {n i : Nat} {ps : List (Reading × List Char)} {text : String}

/-- What the piece that a lexeme is made of is read as. -/
def reading (x : Lexeme) : Reading :=
  match x.token with
  | none => .stray
  | some t => .token t

theorem reading_of_token {t : Token} (h : x.token = some t) : x.reading = .token t := by
  rw [reading, h]

theorem reading_of_none (h : x.token = none) : x.reading = .stray := by
  rw [reading, h]

theorem reading_ne_blank (x : Lexeme) : x.reading ≠ .blank := by
  cases h : x.token with
  | none => exact reading_of_none h ▸ nofun
  | some t => exact reading_of_token h ▸ nofun

/-- What a lexeme is, if the piece it is made of is read as a literal. -/
theorem token_of_reading_eq_numeral {f : Int → Token} {n : Int}
    (h : x.reading = Token.numeral f n) :
    x.token = if Token.Fits64 n then some (f n) else none := by
  cases hx : x.token with
  | none =>
    rw [if_neg (Token.numeral_eq_stray_iff.1 (h.symm.trans (reading_of_none hx)))]
  | some t =>
    obtain ⟨hn, rfl⟩ := Token.numeral_eq_token_iff.1 (h.symm.trans (reading_of_token hx))
    rw [if_pos hn]

theorem ofPieces_append (n : Nat) (ps qs : List (Reading × List Char)) :
    ofPieces n (ps ++ qs) = ofPieces n ps ++ ofPieces (n + utf8Length (ps.flatMap (·.2))) qs := by
  induction ps generalizing n with
  | nil => rfl
  | cons p ps ih =>
    obtain ⟨r, w⟩ := p
    rw [List.flatMap_cons, utf8Length_append, ← Nat.add_assoc]
    cases r with
    | blank => exact ih _
    | token t => exact congrArg (List.cons _) (ih _)
    | stray => exact congrArg (List.cons _) (ih _)

/-- A lexeme is a piece that is not blank, at the place where the pieces before it end. -/
theorem mem_ofPieces_iff : x ∈ ofPieces n ps ↔
    ∃ before after, ps = before ++ (x.reading, x.text) :: after ∧
      x.start = n + utf8Length (before.flatMap (·.2)) := by
  constructor
  · intro h
    induction ps generalizing n with
    | nil => exact absurd h List.not_mem_nil
    | cons p ps ih =>
      obtain ⟨r, w⟩ := p
      have hbehind (h : x ∈ ofPieces (n + utf8Length w) ps) :
          ∃ before after, (r, w) :: ps = before ++ (x.reading, x.text) :: after ∧
            x.start = n + utf8Length (before.flatMap (·.2)) := by
        obtain ⟨before, after, rfl, hstart⟩ := ih h
        refine ⟨(r, w) :: before, after, rfl, ?_⟩
        rw [hstart, List.flatMap_cons, utf8Length_append, Nat.add_assoc]
      cases r with
      | blank => exact hbehind h
      | token t | stray =>
        rcases List.mem_cons.1 h with rfl | h
        · exact ⟨[], ps, rfl, rfl⟩
        · exact hbehind h
  · rintro ⟨before, after, rfl, hstart⟩
    rw [ofPieces_append, ← hstart]
    refine List.mem_append_right _ ?_
    obtain ⟨_ | t, start, w⟩ := x
    · exact List.mem_cons_self
    · exact List.mem_cons_self

/-- The lexemes lie one behind the other. -/
theorem pairwise_ofPieces (n : Nat) (ps : List (Reading × List Char)) :
    (ofPieces n ps).Pairwise fun x y => x.stop ≤ y.start := by
  induction ps generalizing n with
  | nil => exact .nil
  | cons p ps ih =>
    obtain ⟨r, w⟩ := p
    have hstart : ∀ y ∈ ofPieces (n + utf8Length w) ps, n + utf8Length w ≤ y.start := by
      intro y hy
      obtain ⟨before, after, -, hstart⟩ := mem_ofPieces_iff.1 hy
      exact hstart ▸ Nat.le_add_right ..
    cases r with
    | blank => exact ih _
    | token t => exact .cons hstart (ih _)
    | stray => exact .cons hstart (ih _)

/-- A byte of a text is one of a piece. -/
theorem exists_piece_of_byteOf {front : List Char}
    (h : Source.ByteOf front (ps.flatMap (·.2)) i) :
    ∃ before r w after, ps = before ++ (r, w) :: after ∧
      Source.ByteOf (front ++ before.flatMap (·.2)) w i := by
  induction ps generalizing front with
  | nil => exact absurd h.2 (Nat.not_lt.2 h.1)
  | cons p ps ih =>
    obtain ⟨r, w⟩ := p
    rw [List.flatMap_cons] at h
    rcases Nat.lt_or_ge i (utf8Length front + utf8Length w) with hi | hi
    · refine ⟨[], r, w, ps, rfl, ?_⟩
      rw [List.flatMap_nil, List.append_nil]
      exact ⟨h.1, hi⟩
    · have hbehind : Source.ByteOf (front ++ w) (ps.flatMap (·.2)) i := by
        obtain ⟨-, hlt⟩ := h
        rw [utf8Length_append, ← Nat.add_assoc, ← utf8Length_append] at hlt
        exact ⟨utf8Length_append front w ▸ hi, hlt⟩
      obtain ⟨before, r', w', after, rfl, hbyte⟩ := ih hbehind
      refine ⟨(r, w) :: before, r', w', after, rfl, ?_⟩
      rwa [List.flatMap_cons, ← List.append_assoc]

end Lexeme

/-! ## Reading in place -/

namespace Line

open Token (pieces readFirst)

variable {text : String} {before rest cs : List Char} {c : Char} {start : Nat} {ts : List Token}

theorem readTokens_of_end (h : textBetween? text start text.utf8ByteSize = some "") :
    readTokens text start ts = some (.ok ts) := by
  rw [readTokens]
  split
  · next hnone => cases h.symm.trans hnone
  · next left hleft =>
    obtain rfl := Option.some.inj (h.symm.trans hleft)
    rfl

theorem readTokens_of_cons
    (h : textBetween? text start text.utf8ByteSize = some (String.ofList (c :: cs))) :
    readTokens text start ts =
      let stop := start + utf8Length (c :: cs.take (readFirst c cs).2)
      match (readFirst c cs).1 with
      | .blank | .token .comma => readTokens text stop ts
      | .token t => readTokens text stop (ts ++ [t])
      | .stray => do
        let piece ← textBetween? text start stop
        return .error (.malformed (.strayText (start + 1) piece)) := by
  rw [readTokens]
  split
  · next hnone => cases h.symm.trans hnone
  · next left hleft =>
    obtain rfl := Option.some.inj (h.symm.trans hleft)
    split
    · next hnil => cases hnil.symm.trans String.toList_ofList
    · next d ds hcons =>
      obtain ⟨rfl, rfl⟩ := List.cons.inj (hcons.symm.trans String.toList_ofList)
      rfl

/-- The tokens of a text are read behind those that are there. -/
theorem readTokens_eq (h : text.toList = before ++ rest) (ts : List Token) :
    readTokens text (utf8Length before) ts =
      some ((fun us => ts ++ us.filter (· ≠ .comma)) <$>
        tokens (Lexeme.ofPieces (utf8Length before) (pieces rest))) := by
  have hrest := textBetween?_utf8ByteSize h
  fun_induction pieces rest generalizing before ts with
  | case1 =>
    rw [readTokens_of_end hrest]
    exact congrArg (fun us => some (Except.ok us)) (List.append_nil ts).symm
  | case2 c cs ih =>
    have hpiece : text.toList =
        before ++ c :: cs.take (readFirst c cs).2 ++ cs.drop (readFirst c cs).2 := by
      rw [h, List.append_assoc, List.cons_append, List.take_append_drop]
    have hbehind := fun ts => ih hpiece ts (textBetween?_utf8ByteSize hpiece)
    have hslice := textBetween?_eq_some hpiece
    rw [utf8Length_append] at hbehind hslice
    rw [readTokens_of_cons hrest]
    cases hread : (readFirst c cs).1 with
    | blank => exact hbehind ts
    | token t =>
      rw [Lexeme.ofPieces, tokens]
      dsimp only
      generalize tokens (Lexeme.ofPieces _ _) = result at hbehind ⊢
      cases t with
      | comma =>
        refine (hbehind ts).trans ?_
        cases result <;> rfl
      | _ =>
        refine (hbehind (ts ++ [_])).trans ?_
        cases result with
        | error fault => rfl
        | ok us => exact congrArg (fun us => some (Except.ok us)) (List.append_assoc ..)
    | stray =>
      dsimp only
      rw [hslice]
      rfl

/-- A line that is read in place is the line that a text consists of. -/
theorem readText_eq (text : String) : readText text = some (parse text) := by
  have hnil : text.toList = [] ++ text.toList := rfl
  have htokens := readTokens_eq hnil []
  rw [readText, parse, Lexeme.scan]
  simp only [utf8Length] at htokens
  rw [htokens]
  generalize tokens (Lexeme.ofPieces _ _) = result
  cases result <;> rfl

end Line

/-! ## Spans -/

namespace Lexeme

open Token (Reading Next Cuts Literal Fits64 pieces)
open Source (ByteOf InBlanks InComment OpensComment)

variable {x : Lexeme} {i : Nat} {text : String}

/-- How lexemes lie in a text. -/
structure Spans (text : String) (xs : List Lexeme) : Prop where
  /-- They are not empty, and end where the text ends or before. -/
  inside : ∀ x ∈ xs, x.start < x.stop ∧ x.stop ≤ text.utf8ByteSize
  /-- They lie one behind the other. -/
  ordered : xs.Pairwise fun x y => x.stop ≤ y.start
  /-- They begin and end between characters. -/
  boundaries : ∀ x ∈ xs, String.Pos.Raw.IsValid text ⟨x.start⟩ ∧
    String.Pos.Raw.IsValid text ⟨x.stop⟩
  /-- The text between their places is their own. -/
  textBetween?_eq : ∀ x ∈ xs, textBetween? text x.start x.stop = some (String.ofList x.text)
  /-- The bytes that are in none of them are those of blanks and comments. -/
  between : ∀ i < text.utf8ByteSize, (∀ x ∈ xs, ¬(x.start ≤ i ∧ i < x.stop)) ↔
    InBlanks text.toList i ∨ InComment text.toList i
  /-- None of them begins in a comment. -/
  not_inComment : ∀ x ∈ xs, ¬InComment text.toList x.start
  /-- Each one is the next piece of the text where it begins. -/
  next : ∀ x ∈ xs, ∃ before rest, text.toList = before ++ (x.text ++ rest) ∧
    x.start = utf8Length before ∧ Next (x.text ++ rest) (x.reading, x.text) rest
  /-- Tokens of numbers are literals of these numbers. -/
  number : ∀ x ∈ xs, ∀ n, x.token = some (.number n) → Literal x.text .number n
  hex : ∀ x ∈ xs, ∀ n, x.token = some (.hex n) → Literal x.text .hex n
  /-- Literals are tokens of the numbers that they denote, unless these are out of range. -/
  literal : ∀ x ∈ xs, ∀ f n, Literal x.text f n →
    x.token = if Fits64 n then some (f n) else none
  /-- Stray text is a literal of a number out of range, or one character. -/
  stray : ∀ x ∈ xs, x.token = none →
    (∃ f n, Literal x.text f n ∧ ¬Fits64 n) ∨ ∃ c, x.text = [c]

/-- No comment goes on where a text begins. -/
theorem not_opensComment_nil : ¬OpensComment [] := by
  rintro ⟨before, comment, h, -⟩
  exact List.append_ne_nil_of_right_ne_nil _ (List.cons_ne_nil _ _) h.symm

/-- A lexeme is the next piece of the text where it begins, and no comment goes on there. -/
theorem exists_next_of_mem_scan (h : x ∈ scan text) :
    ∃ before rest, text.toList = before ++ (x.text ++ rest) ∧ x.start = utf8Length before ∧
      Next (x.text ++ rest) (x.reading, x.text) rest ∧
      (OpensComment before → ∀ c ∈ (x.text ++ rest).head?, c = '\n') := by
  obtain ⟨before, after, hpieces, hstart⟩ := mem_ofPieces_iff.1 h
  obtain ⟨behind, rest, htext, hnext, hbehind⟩ :=
    (Token.cuts_iff.2 hpieces).split_closed fun hnil => absurd hnil not_opensComment_nil
  obtain rfl := hnext.text_eq
  exact ⟨_, rest, htext, hstart.trans (Nat.zero_add _), hnext, hbehind⟩

/-- The bytes of a lexeme are neither blank nor in a comment. -/
theorem not_between_of_mem_scan (h : x ∈ scan text) (hi : x.start ≤ i ∧ i < x.stop) :
    ¬(InBlanks text.toList i ∨ InComment text.toList i) := by
  obtain ⟨before, rest, htext, hstart, hnext, hopen⟩ := exists_next_of_mem_scan h
  rw [← List.append_assoc] at htext
  have hbyte : ByteOf before x.text i := by
    rwa [stop, hstart] at hi
  rintro (⟨before', run, after, htext', hrun, hbyte'⟩ |
    ⟨before', comment, after, htext', hline, -, hbyte'⟩)
  · obtain ⟨left, left', c, hleft, hleft', -⟩ :=
      hbyte.exists_common hbyte' (htext.symm.trans htext')
    have hblank : Token.isBlank c = true :=
      Pattern.mem_blankChars_iff.1 (hrun c (hleft'.mem List.mem_concat_self))
    have hnot := hnext.not_blank x.reading_ne_blank c (hleft.mem List.mem_concat_self)
    exact Bool.eq_false_iff.1 hnot.1 hblank
  · obtain ⟨left, left', c, hleft, hleft', heq⟩ :=
      hbyte.exists_common hbyte' (htext.symm.trans htext')
    refine hnext.not_opensComment x.reading_ne_blank hopen hleft ?_
    -- Up to this character, the text ends with the front of a comment.
    obtain ⟨d, ds, hd⟩ := List.exists_cons_of_ne_nil (List.concat_ne_nil c left')
    rw [hd] at hleft'
    obtain ⟨rfl, hds⟩ := List.cons_prefix_cons.1 hleft'
    refine ⟨before', ds, ?_, fun hmem => hline (hds.mem hmem)⟩
    rw [← List.append_assoc, heq, List.append_assoc, hd]

/-- A byte of a text that is in no lexeme is blank or in a comment. -/
theorem between_of_forall_not (hi : i < text.utf8ByteSize)
    (h : ∀ x ∈ scan text, ¬(x.start ≤ i ∧ i < x.stop)) :
    InBlanks text.toList i ∨ InComment text.toList i := by
  have hbyte : ByteOf [] ((pieces text.toList).flatMap (·.2)) i := by
    rw [Token.pieces_flatMap]
    refine ⟨Nat.zero_le i, ?_⟩
    rwa [utf8Length, Nat.zero_add, utf8Length_toList]
  obtain ⟨before, r, w, after, hpieces, hbyte⟩ := exists_piece_of_byteOf hbyte
  rw [List.nil_append] at hbyte
  obtain ⟨behind, rest, htext, hnext, -⟩ :=
    (Token.cuts_iff.2 hpieces).split_closed fun hnil => absurd hnil not_opensComment_nil
  obtain rfl := hnext.text_eq
  rw [← List.append_assoc] at htext
  have hlexeme (t : Option Token) (hr : r = reading ⟨t, utf8Length (before.flatMap (·.2)), w⟩) :
      InBlanks text.toList i ∨ InComment text.toList i := by
    subst hr
    exact absurd hbyte (h _ (mem_ofPieces_iff.2 ⟨before, after, hpieces, (Nat.zero_add _).symm⟩))
  cases r with
  | token t => exact hlexeme (some t) rfl
  | stray => exact hlexeme none rfl
  | blank =>
    rcases hnext.blank_cases with hblanks | ⟨comment, rfl, hline, hend⟩
    · exact .inl ⟨_, w, rest, htext,
        fun c hc => Pattern.mem_blankChars_iff.2 (hblanks c hc), hbyte⟩
    · exact .inr ⟨_, comment, rest, htext, hline, hend, hbyte⟩

/-- A lexeme is the part of the text that its place tells. -/
theorem exists_place_of_mem_scan (h : x ∈ scan text) :
    ∃ before rest, text.toList = before ++ x.text ++ rest ∧ x.start = utf8Length before ∧
      x.stop = utf8Length (before ++ x.text) := by
  obtain ⟨before, rest, htext, hstart, -⟩ := exists_next_of_mem_scan h
  rw [← List.append_assoc] at htext
  exact ⟨before, rest, htext, hstart, by rw [stop, hstart, utf8Length_append]⟩

theorem start_lt_stop_of_mem_scan (h : x ∈ scan text) : x.start < x.stop := by
  obtain ⟨_, _, -, -, hnext, -⟩ := exists_next_of_mem_scan h
  obtain ⟨c, cs, hcs⟩ := List.exists_cons_of_ne_nil hnext.ne_nil
  rw [stop, show x.text = c :: cs from hcs]
  exact Nat.lt_add_of_pos_right (utf8Length_cons_pos c cs)

theorem stop_le_of_mem_scan (h : x ∈ scan text) : x.stop ≤ text.utf8ByteSize := by
  obtain ⟨before, rest, htext, -, hstop⟩ := exists_place_of_mem_scan h
  rw [hstop, ← utf8Length_toList, htext, utf8Length_append (before ++ x.text)]
  exact Nat.le_add_right ..

theorem boundaries_of_mem_scan (h : x ∈ scan text) :
    String.Pos.Raw.IsValid text ⟨x.start⟩ ∧ String.Pos.Raw.IsValid text ⟨x.stop⟩ := by
  obtain ⟨before, rest, htext, hstart, hstop⟩ := exists_place_of_mem_scan h
  rw [hstart, hstop]
  exact ⟨isValid_utf8Length (htext.trans (List.append_assoc ..)), isValid_utf8Length htext⟩

theorem textBetween?_of_mem_scan (h : x ∈ scan text) :
    textBetween? text x.start x.stop = some (String.ofList x.text) := by
  obtain ⟨before, rest, htext, hstart, hstop⟩ := exists_place_of_mem_scan h
  rw [hstart, hstop, textBetween?_eq_some htext]

/-- The lexemes of a text lie in it as they should. -/
theorem spans_scan (text : String) : Spans text (scan text) where
  inside _ hx := ⟨start_lt_stop_of_mem_scan hx, stop_le_of_mem_scan hx⟩
  ordered := pairwise_ofPieces 0 _
  boundaries _ := boundaries_of_mem_scan
  textBetween?_eq _ := textBetween?_of_mem_scan
  between _ hi := ⟨between_of_forall_not hi, fun h _ hx hxi => not_between_of_mem_scan hx hxi h⟩
  not_inComment _ hx h :=
    not_between_of_mem_scan hx ⟨Nat.le_refl _, start_lt_stop_of_mem_scan hx⟩ (.inr h)
  next x hx := by
    obtain ⟨before, rest, htext, hstart, hnext, -⟩ := exists_next_of_mem_scan hx
    exact ⟨before, rest, htext, hstart, hnext⟩
  number x hx n hn := by
    obtain ⟨_, _, -, -, hnext, -⟩ := exists_next_of_mem_scan hx
    exact Next.literal_of_number (reading_of_token hn ▸ hnext)
  hex x hx n hn := by
    obtain ⟨_, _, -, -, hnext, -⟩ := exists_next_of_mem_scan hx
    exact Next.literal_of_hex (reading_of_token hn ▸ hnext)
  literal x hx f n hliteral := by
    obtain ⟨_, _, -, -, hnext, -⟩ := exists_next_of_mem_scan hx
    exact token_of_reading_eq_numeral (hnext.eq_of_literal hliteral)
  stray x hx hnone := by
    obtain ⟨_, _, -, -, hnext, -⟩ := exists_next_of_mem_scan hx
    rcases Next.stray_cases (reading_of_none hnone ▸ hnext) with hliteral | ⟨c, hc, -⟩
    · exact .inl hliteral
    · exact .inr ⟨c, hc⟩

/-- Every text is divided up to its end, in one way only, and reading it comes to an end.
    Its lexemes are the pieces that are neither blanks nor comments, nothing else is left
    out, and a text that is read in place has the same tokens. -/
theorem scan_spans (text : String) :
    (∃! ps, Cuts text.toList ps) ∧
    (∀ ps, Cuts text.toList ps →
      ps.length ≤ text.toList.length ∧ ofPieces 0 ps = scan text) ∧
    Acc (fun rest cs => ∃ piece, Next cs piece rest) text.toList ∧
    Spans text (scan text) ∧
    Line.readText text = some (Line.parse text) := by
  refine ⟨⟨pieces text.toList, Token.cuts_iff.2 rfl, fun ps h => ?_⟩, fun ps h => ⟨h.length_le, ?_⟩,
    Token.wellFounded_next.apply _, spans_scan text, Line.readText_eq text⟩
  · exact (Token.cuts_iff.1 h).symm
  · rw [scan, Token.cuts_iff.1 h]

example : (scan "-é0xg\t.;é\n0xfL").map (fun x => (x.token, x.start, x.stop)) =
    [(none, 0, 1), (none, 1, 3), (some (.number 0), 3, 4), (some (.identifier "xg"), 4, 6),
      (none, 7, 8), (none, 11, 12), (some (.hex 15), 12, 15),
      (some (.identifier "L"), 15, 16)] := by
  cbv

end Lexeme

end Machine32
