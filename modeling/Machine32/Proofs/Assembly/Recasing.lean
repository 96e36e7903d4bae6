import Machine32.Proofs.NameTables
import Machine32.Proofs.Assembly.Feeding
import Machine32.Proofs.Assembly.LetterCase
import Machine32.Proofs.Assembly.LineGrammar
import Machine32.Proofs.Assembly.Placement

/-!
# Words of the language in other letter case

The mnemonics, the names of registers and the directives of data and of the entry
point are the words of the language itself. A text with some of them in other letter
case is the same program, and has the same errors up to the case of the words they
quote.

* `Source.Recased`: a text is another one with own words in other case;
* `Token.folded`, `Line.folded` and `Fault.folded` put these words in lower case, and
  in lower case the two texts agree (`Line.folded_parse_of_recased`);
* to the assembler a line in lower case is the line (`Assembler.mapError_feedParsed`),
  and so the texts are the same to it (`Assembler.mapError_feedLines_of_recased`).
-/

namespace Machine32

/-! ## Names -/

namespace Ascii

/-- The texts are the same but for the case of letters. -/
def SameLetters (cs ds : List Char) : Prop :=
  cs.map Char.toLower = ds.map Char.toLower

instance (cs ds : List Char) : Decidable (SameLetters cs ds) :=
  inferInstanceAs (Decidable (_ = _))

theorem lower_lower (s : String) : lower (lower s) = lower s := by
  rw [lower, lower, String.toList_ofList, List.map_map]
  exact congrArg _ (List.map_congr_left fun c _ => toLower_toLower c)

theorem upper_lower (s : String) : upper (lower s) = upper s := by
  rw [upper, upper, lower, String.toList_ofList, List.map_map]
  exact congrArg _ (List.map_congr_left fun c _ => toUpper_toLower c)

theorem lower_append (s t : String) : lower (s ++ t) = lower s ++ lower t := by
  rw [lower, lower, lower, String.toList_append, List.map_append, String.ofList_append]

end Ascii

/-- A register is found by its name in either letter case. -/
theorem Register.ofName?_lower (name : String) : ofName? (Ascii.lower name) = ofName? name := by
  rw [ofName?, ofName?, Ascii.upper_lower]

/-- A mnemonic is found in either letter case. -/
theorem Opcode.ofMnemonic?_lower (name : String) :
    ofMnemonic? (Ascii.lower name) = ofMnemonic? name := by
  rw [ofMnemonic?, ofMnemonic?, Ascii.upper_lower]

namespace Token

/-- The words of the language itself: the directives of data and of the entry point,
    the mnemonic at the front of a line that assigns nothing, and behind it the names
    of registers. -/
def OwnWord (assigns front : Bool) : Token → Prop
  | directive name => Ascii.lower name = "data" ∨ Ascii.lower name = Assembler.startLabel
  | identifier name =>
    if front = true then assigns = false else (Register.ofName? name).isSome = true
  | _ => False

instance (assigns front : Bool) : (t : Token) → Decidable (t.OwnWord assigns front)
  | directive _ => inferInstanceAs (Decidable (_ ∨ _))
  | identifier _ => inferInstanceAs (Decidable (ite _ _ _))
  | number _ | hex _ | comma | equals | ampersand => inferInstanceAs (Decidable False)

/-- A line is still at its front behind blanks and commas. -/
def Reading.keepsFront : Reading → Bool
  | blank | token comma => true
  | _ => false

/-- A piece of the text `w` can be written as `v`, in other letter case only if it is an
    own word. -/
def Reading.Recased (assigns front : Bool) (r : Reading) (w v : List Char) : Prop :=
  match r with
  | token t => w = v ∨ t.OwnWord assigns front ∧ Ascii.SameLetters w v
  | _ => w = v

instance (assigns front : Bool) (w v : List Char) :
    (r : Reading) → Decidable (r.Recased assigns front w v)
  | .token _ => inferInstanceAs (Decidable (_ ∨ _ ∧ _))
  | .blank | .stray => inferInstanceAs (Decidable (w = v))

/-- The pieces can be written as the text `cs`, with own words in other letter case. -/
def Recases (assigns : Bool) : Bool → List (Reading × List Char) → List Char → Prop
  | _, [], cs => cs = []
  | front, (r, w) :: ps, cs =>
    r.Recased assigns front w (cs.take w.length) ∧
      Recases assigns (front && r.keepsFront) ps (cs.drop w.length)

instance decidableRecases (assigns : Bool) : (front : Bool) → (ps : List (Reading × List Char)) →
    (cs : List Char) → Decidable (Recases assigns front ps cs)
  | _, [], cs => inferInstanceAs (Decidable (cs = []))
  | front, (r, w) :: ps, cs =>
    have := decidableRecases assigns (front && r.keepsFront) ps (cs.drop w.length)
    inferInstanceAs (Decidable (r.Recased assigns front w (cs.take w.length) ∧ _))

end Token

/-- The line `other` is the line `text` with own words in other letter case. -/
def Line.Recased (text other : String) : Prop :=
  Token.Recases (decide (.equals ∈ bareTokens text)) true (Token.pieces text.toList) other.toList

instance (text other : String) : Decidable (Line.Recased text other) :=
  inferInstanceAs (Decidable (Token.Recases _ _ _ _))

/-- The text `other` has the lines of `source` with own words in other letter case. -/
def Source.Recased (source other : String) : Prop :=
  List.Forall₂ Line.Recased (textLines source) (textLines other)

instance (source other : String) : Decidable (Source.Recased source other) :=
  inferInstanceAs (Decidable (List.Forall₂ ..))

namespace Token

variable {assigns front : Bool}

/-- The token with its name in lower case if it is an own word. -/
def folded (assigns front : Bool) (t : Token) : Token :=
  if t.OwnWord assigns front then t.lower else t

/-- Tokens of a line with the own words in lower case. -/
def foldTokens (assigns : Bool) : Bool → List Token → List Token
  | _, [] => []
  | front, t :: ts =>
    t.folded assigns front :: foldTokens assigns (front && (Reading.token t).keepsFront) ts

/-- Whether a token is a word of the language does not depend on its letter case. -/
theorem ownWord_lower_iff {t : Token} :
    t.lower.OwnWord assigns front ↔ t.OwnWord assigns front := by
  cases t with
  | directive name => simp only [lower, OwnWord, Ascii.lower_lower]
  | identifier name => simp only [lower, OwnWord, Register.ofName?_lower]
  | _ => exact Iff.rfl

theorem folded_of_ownWord {t u : Token} (ht : t.OwnWord assigns front) (h : u.lower = t.lower) :
    u.folded assigns front = t.folded assigns front := by
  have hu : u.OwnWord assigns front := by rwa [← ownWord_lower_iff, h, ownWord_lower_iff]
  rw [folded, folded, if_pos ht, if_pos hu, h]

/-! ## Lines read alike -/

theorem keepsFront_lower (r : Reading) : r.lower.keepsFront = r.keepsFront := by
  cases r with
  | token t => cases t <;> rfl
  | _ => rfl

/-- A piece that is written in other case has the same letters. -/
theorem Reading.Recased.sameLetters {r : Reading} {w v : List Char}
    (h : r.Recased assigns front w v) : Ascii.SameLetters w v := by
  cases r with
  | token t =>
    rcases h with rfl | ⟨-, h⟩
    · rfl
    · exact h
  | _ => exact congrArg _ h

/-- The text has the letters of the pieces that it is written in place of. -/
theorem Recases.map_toLower {ps : List (Reading × List Char)} {cs : List Char}
    (h : Recases assigns front ps cs) :
    cs.map Char.toLower = (ps.flatMap (·.2)).map Char.toLower := by
  induction ps generalizing front cs with
  | nil => rw [show cs = [] from h, List.flatMap_nil]
  | cons p ps ih =>
    obtain ⟨hfirst, hrest⟩ := h
    rw [List.flatMap_cons, List.map_append, hfirst.sameLetters, ← ih hrest, ← List.map_append,
      List.take_append_drop]

theorem utf8Length_map_toLower (cs : List Char) :
    utf8Length (cs.map Char.toLower) = utf8Length cs := by
  induction cs with
  | nil => rfl
  | cons c cs ih => rw [List.map_cons, utf8Length, utf8Length, ih, Ascii.utf8Size_toLower]

theorem utf8Length_eq_of_sameLetters {cs ds : List Char} (h : Ascii.SameLetters cs ds) :
    utf8Length cs = utf8Length ds := by
  rw [← utf8Length_map_toLower, h, utf8Length_map_toLower]

theorem fold_tokens_token (t : Token) (w : List Char) (ps : List (Reading × List Char)) (n : Nat) :
    foldTokens assigns front <$> Line.tokens (Lexeme.ofPieces n ((.token t, w) :: ps)) =
      (t.folded assigns front :: ·) <$>
        foldTokens assigns (front && (Reading.token t).keepsFront) <$>
          Line.tokens (Lexeme.ofPieces (n + utf8Length w) ps) := by
  rw [Lexeme.ofPieces, Line.tokens]
  cases Line.tokens (Lexeme.ofPieces (n + utf8Length w) ps) <;> rfl

/-- Pieces with the letters of others are read as the same tokens in lower case, if their
    text is that of the others with own words in other case. -/
theorem Recases.folded_tokens {ps qs : List (Reading × List Char)}
    (h : Recases assigns front ps (qs.flatMap (·.2)))
    (hlower : qs.map lowerPiece = ps.map lowerPiece)
    (hps : ∀ t w, (.token t, w) ∈ ps → t.SpelledBy w)
    (hqs : ∀ t w, (.token t, w) ∈ qs → t.SpelledBy w) (n : Nat) :
    foldTokens assigns front <$> Line.tokens (Lexeme.ofPieces n qs) =
      foldTokens assigns front <$> Line.tokens (Lexeme.ofPieces n ps) := by
  induction ps generalizing front qs n with
  | nil => rw [List.map_eq_nil_iff.1 hlower]
  | cons p ps ih =>
    obtain ⟨r, w⟩ := p
    obtain ⟨⟨s, v⟩, rest, rfl, hpiece, hlower⟩ := List.map_eq_cons_iff.1 hlower
    obtain ⟨hread, htext⟩ := Prod.mk.inj hpiece
    obtain ⟨hfirst, hrest⟩ := h
    have hlength : v.length = w.length := by simpa using congrArg List.length htext
    rw [List.flatMap_cons, ← hlength, List.take_left] at hfirst
    rw [List.flatMap_cons, ← hlength, List.drop_left] at hrest
    have ih := ih hrest hlower (fun t w hmem => hps t w (List.mem_cons_of_mem _ hmem))
      (fun t w hmem => hqs t w (List.mem_cons_of_mem _ hmem)) (n + utf8Length w)
    have hplace : utf8Length v = utf8Length w := utf8Length_eq_of_sameLetters htext
    cases r with
    | blank =>
      cases s with
      | blank =>
        rw [Reading.keepsFront, Bool.and_true] at ih
        rw [Lexeme.ofPieces, Lexeme.ofPieces, hplace, ih]
      | _ => cases hread
    | stray =>
      cases s with
      | stray => rw [Lexeme.ofPieces, Lexeme.ofPieces, show w = v from hfirst]; rfl
      | _ => cases hread
    | token t =>
      cases s with
      | token u =>
        have hname : u.lower = t.lower := Reading.token.inj hread
        have hfolded : u.folded assigns front = t.folded assigns front := by
          rcases hfirst with rfl | ⟨hown, -⟩
          · rw [eq_of_lower_eq (hqs u w List.mem_cons_self) (hps t w List.mem_cons_self) hname]
          · exact folded_of_ownWord hown hname
        have hkeeps : (Reading.token u).keepsFront = (Reading.token t).keepsFront := by
          rw [← keepsFront_lower, hread, keepsFront_lower]
        rw [fold_tokens_token, fold_tokens_token, hfolded, hkeeps, hplace, ih]
      | _ => cases hread

/-! ## Tokens in lower case -/

theorem folded_eq_iff {t u : Token} (hdirective : ∀ name, u ≠ .directive name)
    (hidentifier : ∀ name, u ≠ .identifier name) : t.folded assigns front = u ↔ t = u := by
  rw [folded]
  split
  · cases t with
    | directive name => exact iff_of_false (hdirective _).symm (hdirective _).symm
    | identifier name => exact iff_of_false (hidentifier _).symm (hidentifier _).symm
    | _ => exact Iff.rfl
  · exact Iff.rfl

theorem foldTokens_behind (ts : List Token) :
    foldTokens assigns false ts = ts.map (folded assigns false) := by
  induction ts with
  | nil => rfl
  | cons t ts ih => rw [foldTokens, Bool.false_and, ih, List.map_cons]

theorem foldTokens_front {t : Token} (h : t ≠ .comma) (ts : List Token) :
    foldTokens assigns true (t :: ts) = t.folded assigns true :: ts.map (folded assigns false) := by
  have hkeeps : (Reading.token t).keepsFront = false := by
    cases t with
    | comma => exact absurd rfl h
    | _ => rfl
  rw [foldTokens, hkeeps, Bool.and_false, foldTokens_behind]

theorem filter_foldTokens (front : Bool) (ts : List Token) :
    (foldTokens assigns front ts).filter (· ≠ .comma) =
      foldTokens assigns front (ts.filter (· ≠ .comma)) := by
  induction ts generalizing front with
  | nil => rfl
  | cons t ts ih =>
    have hfolded : t.folded assigns front = .comma ↔ t = .comma := folded_eq_iff nofun nofun
    by_cases h : t = .comma
    · rw [foldTokens, List.filter_cons_of_neg (by simpa using hfolded.2 h),
        List.filter_cons_of_neg (by simpa using h), h, Reading.keepsFront, Bool.and_true, ih]
    · rw [foldTokens, List.filter_cons_of_pos (by simpa [hfolded] using h),
        List.filter_cons_of_pos (by simpa using h), foldTokens, ih]

/-- No token becomes an equals sign, and none is lost. -/
theorem equals_mem_foldTokens_iff {ts : List Token} :
    .equals ∈ foldTokens assigns front ts ↔ .equals ∈ ts := by
  induction ts generalizing front with
  | nil => exact Iff.rfl
  | cons t ts ih =>
    have hfolded : t.folded assigns front = .equals ↔ t = .equals := folded_eq_iff nofun nofun
    rw [foldTokens, List.mem_cons, List.mem_cons, ih, eq_comm, hfolded, eq_comm]

end Token

/-! ## Lines in lower case -/

/-- The name in lower case if it is the one of a register. -/
def foldRegister (name : String) : String :=
  if (Register.ofName? name).isSome = true then Ascii.lower name else name

/-- The name of a directive in lower case if it is one of the language itself. -/
def foldDirective (name : String) : String :=
  if Ascii.lower name = "data" ∨ Ascii.lower name = Assembler.startLabel then Ascii.lower name
  else name

/-- The operand with the name of a register in lower case. -/
def Operand.folded : Operand → Operand
  | symbol name => symbol (foldRegister name)
  | addressOf name => addressOf (foldRegister name)
  | number n => number n

/-- The line with its own words in lower case. -/
def Line.folded : Line → Line
  | directive name => directive (foldDirective name)
  | assignment name n => assignment name n
  | statement mnemonic os => statement (Ascii.lower mnemonic) (os.map Operand.folded)

/-- The fault with the words it quotes in lower case, where they may be own words. -/
def Fault.folded : Fault → Fault
  | malformed (.directiveOperand name) => malformed (.directiveOperand (Ascii.lower name))
  | unknownInstruction mnemonic => unknownInstruction (Ascii.lower mnemonic)
  | invalidData (.statementInData mnemonic) =>
    invalidData (.statementInData (Ascii.lower mnemonic))
  | undefinedSymbol name => undefinedSymbol (Ascii.lower name)
  | fault => fault

/-- The error with the words it quotes in lower case, where they may be own words. -/
def AssemblyError.folded : AssemblyError → AssemblyError
  | atLine line fault => atLine line fault.folded
  | missingEntryPoint => missingEntryPoint
  | layout error => layout error

theorem Token.folded_identifier (assigns : Bool) (name : String) :
    (identifier name).folded assigns false = identifier (foldRegister name) := by
  rw [folded, foldRegister]
  exact (apply_ite identifier _ _ _).symm

theorem Token.folded_directive (assigns front : Bool) (name : String) :
    (directive name).folded assigns front = directive (foldDirective name) := by
  rw [folded, foldDirective]
  exact (apply_ite directive _ _ _).symm

/-- The directive is the same in lower case. -/
theorem lower_foldDirective (name : String) :
    Ascii.lower (foldDirective name) = Ascii.lower name := by
  rw [foldDirective]
  split
  · exact Ascii.lower_lower name
  · rfl

/-- Operands in lower case are read from the tokens in lower case. -/
theorem Operand.ofTokens_map_folded (assigns : Bool) (ts : List Token) :
    (ofTokens (ts.map (Token.folded assigns false))).mapError Fault.folded =
      (List.map Operand.folded <$> ofTokens ts).mapError Fault.folded := by
  have hcons {o : Operand} {ts us : List Token}
      (h : (ofTokens us).mapError Fault.folded =
        (List.map Operand.folded <$> ofTokens ts).mapError Fault.folded) :
      ((o.folded :: ·) <$> ofTokens us).mapError Fault.folded =
        (List.map Operand.folded <$> ((o :: ·) <$> ofTokens ts)).mapError Fault.folded := by
    simp only [Except.mapError_map] at h ⊢
    rw [h, ← comp_map, ← comp_map]
    rfl
  induction ts using ofTokens.induct with
  | case1 => rfl
  | case2 n ts ih => exact hcons (o := .number n) ih
  | case3 n ts ih => exact hcons (o := .number n) ih
  | case4 name ts ih =>
    rw [List.map_cons, Token.folded_identifier]
    exact hcons (o := .symbol name) ih
  | case5 name ts ih =>
    rw [List.map_cons, List.map_cons, Token.folded_identifier]
    exact hcons (o := .addressOf name) ih
  | case6 ts hnot =>
    cases ts with
    | nil => rfl
    | cons t ts =>
      cases t with
      | identifier name => exact (hnot name ts rfl).elim
      | directive name =>
        rw [List.map_cons, List.map_cons, Token.folded_directive]
        rfl
      | _ => rfl
  | case7 name ts =>
    rw [List.map_cons, Token.folded_directive]
    change Except.error _ = Except.error _
    rw [Fault.folded, Fault.folded, lower_foldDirective]
  | case8 ts => rfl
  | case9 ts ih => exact ih

namespace Line

/-- Tokens are an assignment if they are one in lower case. -/
theorem assignmentOfTokens_map_folded (name : String) (assigns : Bool) (ts : List Token) :
    assignmentOfTokens name (ts.map (Token.folded assigns false)) = assignmentOfTokens name ts := by
  have hpair {t : Token} (hdirective : ∀ name, t ≠ .directive name)
      (hidentifier : ∀ name, t ≠ .identifier name) :
      ts.map (Token.folded assigns false) = [.equals, t] ↔ ts = [.equals, t] := by
    rcases ts with _ | ⟨u, _ | ⟨v, _ | ⟨w, ts⟩⟩⟩ <;>
      simp [Token.folded_eq_iff hdirective hidentifier, Token.folded_eq_iff (u := .equals)]
  by_cases h : ∃ n, ts = [.equals, .number n] ∨ ts = [.equals, .hex n]
  · obtain ⟨n, rfl | rfl⟩ := h
    · rfl
    · rfl
  · have hnot (n : Int) : ts ≠ [.equals, .number n] ∧ ts ≠ [.equals, .hex n] :=
      not_or.1 fun hn => h ⟨n, hn⟩
    rw [assignmentOfTokens_eq_error_iff.2 ⟨hnot, rfl⟩]
    refine assignmentOfTokens_eq_error_iff.2 ⟨fun n => ?_, rfl⟩
    exact (hnot n).imp (mt (hpair (t := .number n) nofun nofun).1)
      (mt (hpair (t := .hex n) nofun nofun).1)

/-- A line in lower case is read from the tokens in lower case. -/
theorem ofTokens_foldTokens {ts : List Token} (hcomma : .comma ∉ ts) :
    (ofTokens (Token.foldTokens (decide (.equals ∈ ts)) true ts)).mapError Fault.folded =
      (Option.map folded <$> ofTokens ts).mapError Fault.folded := by
  cases ts with
  | nil => rfl
  | cons t ts =>
    have ht : t ≠ .comma := fun h => hcomma (h ▸ List.mem_cons_self)
    generalize hassigns : decide (.equals ∈ t :: ts) = assigns
    rw [Token.foldTokens_front ht]
    cases t with
    | directive name =>
      rw [Token.folded_directive]
      cases ts <;> rfl
    | identifier name =>
      have hmem : .equals ∈ ts.map (Token.folded assigns false) ↔ .equals ∈ ts := by
        rw [List.mem_map]
        simp [Token.folded_eq_iff]
      by_cases hequals : .equals ∈ ts
      · obtain rfl : assigns = true := by simpa [hequals] using hassigns.symm
        have hname : (Token.identifier name).folded true true = .identifier name := rfl
        rw [hname, ofTokens_identifier_of_mem hequals, ofTokens_identifier_of_mem (hmem.2 hequals),
          assignmentOfTokens_map_folded]
        unfold assignmentOfTokens
        split <;> rfl
      · obtain rfl : assigns = false := by simpa [hequals] using hassigns.symm
        have hname : (Token.identifier name).folded false true = .identifier (Ascii.lower name) :=
          rfl
        have hoperands := Operand.ofTokens_map_folded false ts
        rw [hname, ofTokens_identifier_of_not_mem hequals,
          ofTokens_identifier_of_not_mem (mt hmem.1 hequals), Except.mapError_map, hoperands]
        simp only [Except.mapError_map, ← comp_map]
        rfl
    | _ => rfl

theorem bareTokens_eq {text : String} {ts : List Token} (h : tokens (Lexeme.scan text) = .ok ts) :
    bareTokens text = ts.filter (· ≠ .comma) := by
  cases hfind : (Lexeme.scan text).find? (·.token.isNone) with
  | some x => exact nomatch h.symm.trans (tokens_of_find? hfind)
  | none =>
    have hall : ∀ x ∈ Lexeme.scan text, x.token ≠ none := by simpa using hfind
    rw [bareTokens, Except.ok.inj (h.symm.trans (tokens_of_forall hall))]

/-- In lower case a line with own words in other case is read as the line is. -/
theorem folded_parse_of_recased {text other : String} (h : Recased text other) :
    (Option.map folded <$> parse other).mapError Fault.folded =
      (Option.map folded <$> parse text).mapError Fault.folded := by
  have hlower : (Token.pieces other.toList).map Token.lowerPiece =
      (Token.pieces text.toList).map Token.lowerPiece := by
    rw [← Token.pieces_map_toLower, h.map_toLower, Token.pieces_flatMap, Token.pieces_map_toLower]
  have hspelled (cs : List Char) (t : Token) (w : List Char)
      (hmem : (.token t, w) ∈ Token.pieces cs) : t.SpelledBy w := Token.spelledBy_of_mem_pieces hmem
  have hrecases := h
  rw [Recased, ← Token.pieces_flatMap other.toList] at hrecases
  have htokens := hrecases.folded_tokens hlower (hspelled _) (hspelled _) 0
  rw [← Lexeme.scan, ← Lexeme.scan] at htokens
  rw [parse, parse]
  cases htext : tokens (Lexeme.scan text) with
  | error fault =>
    rw [htext] at htokens
    rw [Except.map_eq_error_iff.1 htokens]
  | ok ts =>
    rw [htext] at htokens
    obtain ⟨us, hother, hfolded⟩ := Except.map_eq_ok_iff.1 htokens
    -- The two lines have the same tokens in lower case, with the same commas among them.
    have hbare := congrArg (List.filter (· ≠ .comma)) hfolded
    rw [Token.filter_foldTokens, Token.filter_foldTokens, bareTokens_eq htext] at hbare
    have hequals : (.equals ∈ us.filter (· ≠ .comma)) = (.equals ∈ ts.filter (· ≠ .comma)) := by
      simpa only [Token.equals_mem_foldTokens_iff] using congrArg (.equals ∈ ·) hbare.symm
    have hcomma (vs : List Token) : .comma ∉ vs.filter (· ≠ .comma) := by simp
    rw [hother]
    change (Option.map folded <$> ofTokens (us.filter (· ≠ .comma))).mapError Fault.folded =
      (Option.map folded <$> ofTokens (ts.filter (· ≠ .comma))).mapError Fault.folded
    rw [← ofTokens_foldTokens (hcomma us), ← ofTokens_foldTokens (hcomma ts),
      decide_eq_decide.2 (iff_of_eq hequals), hbare]

end Line

namespace SymbolTable

variable {t : SymbolTable}

/-- No constant has the name of a register. -/
def Unreserved (t : SymbolTable) : Prop :=
  ∀ name, (Register.ofName? name).isSome = true → t.constants.get? name = none

theorem resolveName_foldRegister (name : String) :
    t.resolveName (foldRegister name) = t.resolveName name := by
  rw [foldRegister]
  split
  · next h =>
    obtain ⟨r, hr⟩ := Option.isSome_iff_exists.1 h
    rw [resolveName, resolveName, Register.ofName?_lower, hr]
  · rfl

/-- An operand denotes the same in other case, or the same is wrong with it. -/
theorem mapError_resolve (h : t.Unreserved) (o : Operand) :
    (t.resolve o.folded).mapError Fault.folded = (t.resolve o).mapError Fault.folded := by
  cases o with
  | number n => rw [Operand.folded]
  | symbol name => rw [Operand.folded, resolve, resolve, resolveName_foldRegister]
  | addressOf name =>
    rw [Operand.folded, foldRegister]
    split
    · next hr =>
      have hr' : (Register.ofName? (Ascii.lower name)).isSome = true := by
        rwa [Register.ofName?_lower]
      rw [resolve, resolve, h _ hr, h _ hr']
      change Except.error _ = Except.error _
      rw [Fault.folded, Fault.folded, Ascii.lower_append, Ascii.lower_append, Ascii.lower_lower]
    · rfl

theorem mapError_mapM_resolve (h : t.Unreserved) (os : List Operand) :
    ((os.map Operand.folded).mapM t.resolve).mapError Fault.folded =
      (os.mapM t.resolve).mapError Fault.folded := by
  induction os with
  | nil => rfl
  | cons o os ih =>
    simp only [List.map_cons, List.mapM_cons, Except.mapError_bind, mapError_resolve h, ih]

end SymbolTable

/-- A mnemonic in lower case makes up the same instruction. -/
theorem Instruction.mapError_ofStatement (mnemonic : String) (values : List Value) :
    (ofStatement (Ascii.lower mnemonic) values).mapError Fault.folded =
      (ofStatement mnemonic values).mapError Fault.folded := by
  rw [ofStatement, ofStatement, Opcode.ofMnemonic?_lower]
  split
  · change Except.error _ = Except.error _
    rw [Fault.folded, Fault.folded, Ascii.lower_lower]
  · rfl

namespace Assembler

variable {a b : Assembler}

theorem openSection_foldDirective (name : String) :
    a.openSection (foldDirective name) = a.openSection name := by
  rw [openSection, openSection, lower_foldDirective]
  split_ifs with hdata hstart
  · rfl
  · rfl
  · rw [foldDirective, if_neg (not_or.2 ⟨hdata, hstart⟩)]

/-- To the assembler a line in lower case is the line. -/
theorem mapError_feedParsed (h : a.symbols.Unreserved) (line : Line) :
    (a.feedParsed line.folded).mapError Fault.folded =
      (a.feedParsed line).mapError Fault.folded := by
  cases line with
  | directive name => exact congrArg _ (openSection_foldDirective name)
  | assignment name n => rfl
  | statement mnemonic os =>
    cases hc : a.current with
    | outside => simp only [Line.folded, feedParsed, hc]
    | data =>
      simp only [Line.folded, feedParsed, hc]
      change Except.error _ = Except.error _
      rw [Fault.folded, Fault.folded, Ascii.lower_lower]
    | code =>
      rw [Line.folded, feedParsed_statement hc, feedParsed_statement hc]
      simp only [Except.mapError_bind, SymbolTable.mapError_mapM_resolve h,
        Instruction.mapError_ofStatement]

/-- A line that is accepted binds no register. -/
theorem Step.unreserved {line : Line} (h : a.Step line b) (ha : a.symbols.Unreserved) :
    b.symbols.Unreserved := by
  cases h with
  | data | label | statement => exact ha
  | @constant name _ _ _ _ hr =>
    intro other hother
    have hne : other ≠ name := by
      rintro rfl
      rw [hr] at hother
      exact nomatch hother
    exact (NameTable.get?_insert_of_ne hne _).trans (ha other hother)

/-- What the assembler does with a line, it does with the line in lower case. -/
theorem mapError_feed (h : a.symbols.Unreserved) (text : String) :
    (a.feed text).mapError Fault.folded =
      (do
        match ← (Option.map Line.folded <$> Line.parse text).mapError Fault.folded with
        | none => return a
        | some line => (a.feedParsed line).mapError Fault.folded) := by
  rw [feed]
  cases Line.parse text with
  | error fault => rfl
  | ok parsed =>
    cases parsed with
    | none => rfl
    | some line => exact (mapError_feedParsed h line).symm

/-- The assembler does the same with lines with own words in other case. -/
theorem mapError_feedLines_of_recased (ha : a.symbols.Unreserved) {texts others : List String}
    (h : List.Forall₂ Line.Recased texts others) (n : Nat) :
    (a.feedLines n others).mapError AssemblyError.folded =
      (a.feedLines n texts).mapError AssemblyError.folded := by
  induction h generalizing a n with
  | nil => rfl
  | @cons text other texts others hline _ ih =>
    have hfeed : (a.feed other).mapError Fault.folded = (a.feed text).mapError Fault.folded := by
      rw [mapError_feed ha, mapError_feed ha, Line.folded_parse_of_recased hline]
    rw [feedLines, feedLines, feedLine, feedLine]
    cases htext : a.feed text with
    | error g =>
      rw [htext] at hfeed
      obtain ⟨f, hf, heq⟩ := Except.mapError_eq_error_iff.1 hfeed
      rw [hf]
      exact congrArg (fun f => Except.error (AssemblyError.atLine n f)) heq.symm
    | ok b =>
      rw [htext] at hfeed
      rw [Except.mapError_eq_ok_iff.1 hfeed]
      have hb : b.symbols.Unreserved := by
        rcases feed_cases htext with rfl | ⟨line, hs⟩
        · exact ha
        · exact hs.unreserved ha
      exact ih hb (n + 1)

end Assembler

open Assembler

/-! ## Texts -/

/-- The errors are of the same kind, as are the faults if they are those of lines. -/
def AssemblyError.SameVariant : AssemblyError → AssemblyError → Prop
  | atLine _ f, atLine _ g => f.ctorIdx = g.ctorIdx
  | e, e' => e = e'

/-- The same program comes of both, or errors of the same kind on the same line, with
    the same words in them but for the case of letters. -/
def SameOutcome : Except AssemblyError Program → Except AssemblyError Program → Prop
  | .ok p, .ok q => p = q
  | .error e, .error e' => e.line? = e'.line? ∧ e.SameVariant e' ∧ e.folded = e'.folded
  | _, _ => False

theorem Fault.ctorIdx_folded (f : Fault) : f.folded.ctorIdx = f.ctorIdx := by
  cases f with
  | malformed f => cases f <;> rfl
  | invalidData f => cases f <;> rfl
  | _ => rfl

theorem AssemblyError.line?_folded (e : AssemblyError) : e.folded.line? = e.line? := by
  cases e <;> rfl

/-- Errors that are the same in lower case are of one variant. -/
theorem AssemblyError.sameVariant_of_folded {e e' : AssemblyError} (h : e.folded = e'.folded) :
    e.SameVariant e' := by
  cases e with
  | atLine k f =>
    cases e' with
    | atLine k' f' =>
      obtain ⟨-, hf⟩ := AssemblyError.atLine.inj h
      change f.ctorIdx = f'.ctorIdx
      rw [← f.ctorIdx_folded, hf, f'.ctorIdx_folded]
    | _ => exact nomatch h
  | missingEntryPoint | layout => cases e' <;> first | exact h | exact nomatch h

theorem sameOutcome_of_folded {x y : Except AssemblyError Program}
    (h : x.mapError AssemblyError.folded = y.mapError AssemblyError.folded) : SameOutcome x y := by
  cases x with
  | ok p =>
    cases y with
    | ok q => exact Except.ok.inj h
    | error e => exact nomatch h
  | error e =>
    cases y with
    | ok q => exact nomatch h
    | error e' =>
      have heq : e.folded = e'.folded := Except.error.inj h
      refine ⟨?_, AssemblyError.sameVariant_of_folded heq, heq⟩
      rw [← e.line?_folded, heq, e'.line?_folded]

/-- A text in other case has the same program, or the same error in lower case. -/
theorem mapError_assemble_of_recased {source other : String} (h : Source.Recased source other)
    (l : Layout) :
    (assemble l source).mapError AssemblyError.folded =
      (assemble l other).mapError AssemblyError.folded := by
  have hempty : (initial l).symbols.Unreserved := fun _ _ => rfl
  rw [assemble, assemble, Except.mapError_bind, Except.mapError_bind]
  exact congrArg (· >>= _) (mapError_feedLines_of_recased hempty h 1).symm

/-- A text with mnemonics, names of registers and the directives of data and of the
    entry point in other letter case is the same program, or has an error of the same
    kind on the same line. This is so for all sizes of the segments, those of no layout
    among them. -/
theorem assemble_recased {source other : String} (h : Source.Recased source other) :
    (∀ l, SameOutcome (assemble l source) (assemble l other)) ∧
      ∀ program data stack, SameOutcome (assembleForSizes program data stack source)
        (assembleForSizes program data stack other) := by
  refine ⟨fun l => sameOutcome_of_folded (mapError_assemble_of_recased h l), ?_⟩
  intro program data stack
  refine sameOutcome_of_folded ?_
  rw [assembleForSizes, assembleForSizes, Except.mapError_bind, Except.mapError_bind,
    funext (mapError_assemble_of_recased h)]

/-- A directive, a register that is moved to itself, and a word that is no mnemonic. -/
theorem assemble_recased_sample :
    let source := ".Start\nMov EAX, Eax\nHALT"
    let other := ".start\nMOV eax, EAX\nHalt\n"
    Source.Recased source other ∧
      assemble Source.sampleLayout source = .error (.atLine 3 (.unknownInstruction "HALT")) ∧
      ∃ e, assemble Source.sampleLayout other = .error e ∧ e.line? = some 3 := by
  intro source other
  have h : Source.Recased source other := by decide +kernel
  have herror : assemble Source.sampleLayout source =
      .error (.atLine 3 (.unknownInstruction "HALT")) := by decide +kernel
  have houtcome := (assemble_recased h).1 Source.sampleLayout
  rw [herror] at houtcome
  refine ⟨h, herror, ?_⟩
  cases hother : assemble Source.sampleLayout other with
  | ok p =>
    rw [hother] at houtcome
    exact houtcome.elim
  | error e =>
    rw [hother] at houtcome
    exact ⟨e, rfl, houtcome.1.symm⟩

end Machine32
