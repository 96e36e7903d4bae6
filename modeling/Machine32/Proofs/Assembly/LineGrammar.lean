import Machine32.Assembly.Line
import Machine32.Proofs.Result

/-!
# The grammar of lines

Which lines there are, in terms of their tokens without the commas, and what is
wrong with all other ones:

* `Operand.HaveTokens` and `Line.HasTokens` are the grammar, `Operand.Breaks` and
  `Line.Malformed` what does not go by it;
* `Line.ofTokens_eq_ok_iff` and `Line.ofTokens_eq_error_iff`: the tokens of a line
  make up this line, and others are refused for what is wrong with them;
* `Line.parse_grammar`: so it is for a text, unless there is stray text in it.
-/

namespace Machine32

/-! ## Operands -/

namespace Operand

/-- The tokens of an operand. -/
inductive HasTokens : Operand → List Token → Prop
  | number {n : Int} : HasTokens (.number n) [.number n]
  | hex {n : Int} : HasTokens (.number n) [.hex n]
  | symbol {name : String} : HasTokens (.symbol name) [.identifier name]
  | addressOf {name : String} : HasTokens (.addressOf name) [.ampersand, .identifier name]

/-- The tokens of operands in a row. -/
def HaveTokens (os : List Operand) (ts : List Token) : Prop :=
  ∃ groups, List.Forall₂ HasTokens os groups ∧ ts = groups.flatten

/-- What is wrong with tokens other than commas that do not begin with an
    operand. -/
inductive Breaks : List Token → LineFault → Prop
  | ampersand {ts : List Token} : (∀ name, ts.head? ≠ some (.identifier name)) →
      Breaks (.ampersand :: ts) .ampersandAlone
  | directive {name : String} {ts : List Token} :
      Breaks (.directive name :: ts) (.directiveOperand name)
  | equals {ts : List Token} : Breaks (.equals :: ts) .equalsOperand

variable {o : Operand} {os : List Operand} {g ts rest : List Token} {f : LineFault}

theorem haveTokens_nil : HaveTokens [] [] :=
  ⟨[], .nil, rfl⟩

theorem HaveTokens.cons (ho : o.HasTokens g) (hos : HaveTokens os ts) :
    HaveTokens (o :: os) (g ++ ts) := by
  obtain ⟨groups, h, rfl⟩ := hos
  exact ⟨g :: groups, .cons ho h, rfl⟩

/-- There is no assignment among operands. -/
theorem HaveTokens.equals_not_mem (h : HaveTokens os ts) : .equals ∉ ts := by
  obtain ⟨groups, h, rfl⟩ := h
  induction h with
  | nil => exact List.not_mem_nil
  | cons ho _ ih =>
    rw [List.flatten_cons, List.mem_append]
    rintro (h | h)
    · cases ho <;> simp at h
    · exact ih h

/-- An operand is read from its tokens, whatever tokens follow. -/
theorem HasTokens.ofTokens_append (h : o.HasTokens g) (rest : List Token) :
    ofTokens (g ++ rest) = (o :: ·) <$> ofTokens rest := by
  cases h <;> rfl

/-- So are operands in a row. -/
theorem HaveTokens.ofTokens_append (h : HaveTokens os ts) (rest : List Token) :
    ofTokens (ts ++ rest) = (os ++ ·) <$> ofTokens rest := by
  obtain ⟨groups, h, rfl⟩ := h
  induction h with
  | nil => exact (id_map _).symm
  | cons ho _ ih =>
    rw [List.flatten_cons, List.append_assoc, ho.ofTokens_append, ih, ← comp_map]
    rfl

theorem HaveTokens.ofTokens_eq (h : HaveTokens os ts) : ofTokens ts = .ok os := by
  have happend := h.ofTokens_append []
  rw [List.append_nil] at happend
  rw [happend, ofTokens, ← List.append_nil os]
  simp [Functor.map, Except.map]

theorem Breaks.ofTokens_eq (h : Breaks ts f) : ofTokens ts = .error (.malformed f) := by
  cases h with
  | @ampersand ts hhead =>
    cases ts with
    | nil => rfl
    | cons t ts =>
      cases t with
      | identifier name => exact absurd rfl (hhead name)
      | _ => rfl
  | directive => rfl
  | equals => rfl

/-- Tokens are those of operands, up to their end or to what is wrong with them. -/
theorem exists_haveTokens (ts : List Token) (hcomma : .comma ∉ ts) :
    ∃ os row rest, HaveTokens os row ∧ ts = row ++ rest ∧ (rest = [] ∨ ∃ f, Breaks rest f) := by
  have hcons {o : Operand} {g ts : List Token} (ho : o.HasTokens g)
      (h : ∃ os row rest, HaveTokens os row ∧ ts = row ++ rest ∧
        (rest = [] ∨ ∃ f, Breaks rest f)) :
      ∃ os row rest, HaveTokens os row ∧ g ++ ts = row ++ rest ∧
        (rest = [] ∨ ∃ f, Breaks rest f) := by
    obtain ⟨os, row, rest, hos, rfl, hrest⟩ := h
    exact ⟨o :: os, g ++ row, rest, hos.cons ho, (List.append_assoc ..).symm, hrest⟩
  have hbreaks {f : LineFault} {ts : List Token} (h : Breaks ts f) :
      ∃ os row rest, HaveTokens os row ∧ ts = row ++ rest ∧ (rest = [] ∨ ∃ f, Breaks rest f) :=
    ⟨[], [], ts, haveTokens_nil, rfl, .inr ⟨f, h⟩⟩
  -- In the order in which operands are read, one or two tokens at a time.
  induction ts using ofTokens.induct with
  | case1 => exact ⟨[], [], [], haveTokens_nil, rfl, .inl rfl⟩
  | case2 n ts ih => exact hcons .number (ih (hcomma ∘ List.mem_cons_of_mem _))
  | case3 n ts ih => exact hcons .hex (ih (hcomma ∘ List.mem_cons_of_mem _))
  | case4 name ts ih => exact hcons .symbol (ih (hcomma ∘ List.mem_cons_of_mem _))
  | case5 name ts ih =>
    exact hcons .addressOf (ih (hcomma ∘ List.mem_cons_of_mem _ ∘ List.mem_cons_of_mem _))
  | case6 ts hnot =>
    refine hbreaks (.ampersand fun name hhead => ?_)
    obtain ⟨rest, rfl⟩ := List.head?_eq_some_iff.1 hhead
    exact hnot name rest rfl
  | case7 name ts => exact hbreaks .directive
  | case8 ts => exact hbreaks .equals
  | case9 ts ih => exact absurd List.mem_cons_self hcomma

/-- Tokens are read as the operands that have them. -/
theorem ofTokens_eq_ok_iff (hcomma : .comma ∉ ts) :
    ofTokens ts = .ok os ↔ HaveTokens os ts := by
  refine ⟨fun h => ?_, HaveTokens.ofTokens_eq⟩
  obtain ⟨os', row, rest, hos, rfl, rfl | ⟨f, hf⟩⟩ := exists_haveTokens ts hcomma
  · rw [List.append_nil] at h ⊢
    rwa [← Except.ok.inj (hos.ofTokens_eq.symm.trans h)]
  · rw [hos.ofTokens_append, hf.ofTokens_eq] at h
    exact nomatch h

/-- Tokens are refused for what stands behind the operands at their front. -/
theorem ofTokens_eq_error_iff (hcomma : .comma ∉ ts) {fault : Fault} :
    ofTokens ts = .error fault ↔ ∃ os row rest f, HaveTokens os row ∧ ts = row ++ rest ∧
      Breaks rest f ∧ fault = .malformed f := by
  constructor
  · intro h
    obtain ⟨os, row, rest, hos, rfl, rfl | ⟨f, hf⟩⟩ := exists_haveTokens ts hcomma
    · rw [List.append_nil, hos.ofTokens_eq] at h
      exact nomatch h
    · rw [hos.ofTokens_append, hf.ofTokens_eq] at h
      exact ⟨os, row, rest, f, hos, rfl, hf, (Except.error.inj h).symm⟩
  · rintro ⟨os, row, rest, f, hos, rfl, hf, rfl⟩
    rw [hos.ofTokens_append, hf.ofTokens_eq]
    rfl

end Operand

/-! ## Lines -/

namespace Line

/-- The tokens of a line. -/
inductive HasTokens : Line → List Token → Prop
  | directive {name : String} : HasTokens (.directive name) [.directive name]
  | assignment {name : String} {n : Int} :
      HasTokens (.assignment name n) [.identifier name, .equals, .number n]
  | assignmentHex {name : String} {n : Int} :
      HasTokens (.assignment name n) [.identifier name, .equals, .hex n]
  | statement {mnemonic : String} {os : List Operand} {ts : List Token} :
      Operand.HaveTokens os ts → HasTokens (.statement mnemonic os) (.identifier mnemonic :: ts)

/-- What is wrong with tokens that neither are a line nor look like an
    assignment. -/
inductive Malformed : List Token → LineFault → Prop
  | directive {name : String} {ts : List Token} : ts ≠ [] →
      Malformed (.directive name :: ts) .directiveNotAlone
  | beginning {t : Token} {ts : List Token} : (∀ name, t ≠ .directive name) →
      (∀ name, t ≠ .identifier name) → Malformed (t :: ts) .noBeginning
  | operands {mnemonic : String} {os : List Operand} {row rest : List Token} {f : LineFault} :
      .equals ∉ rest → Operand.HaveTokens os row → Operand.Breaks rest f →
      Malformed (.identifier mnemonic :: (row ++ rest)) f

variable {line : Line} {ts : List Token} {fault : Fault}

theorem hasTokens_directive_iff {name : String} :
    (directive name).HasTokens ts ↔ ts = [.directive name] := by
  constructor
  · rintro ⟨⟩
    rfl
  · rintro rfl
    exact .directive

theorem hasTokens_assignment_iff {name : String} {n : Int} :
    (assignment name n).HasTokens ts ↔
      ts = [.identifier name, .equals, .number n] ∨ ts = [.identifier name, .equals, .hex n] := by
  constructor
  · rintro (_ | _ | _)
    · exact .inl rfl
    · exact .inr rfl
  · rintro (rfl | rfl)
    · exact .assignment
    · exact .assignmentHex

theorem hasTokens_statement_iff {mnemonic : String} {os : List Operand} :
    (statement mnemonic os).HasTokens ts ↔
      ∃ groups, List.Forall₂ Operand.HasTokens os groups ∧
        ts = .identifier mnemonic :: groups.flatten := by
  constructor
  · rintro (_ | _ | _ | ⟨groups, h, rfl⟩)
    exact ⟨groups, h, rfl⟩
  · rintro ⟨groups, h, rfl⟩
    exact .statement ⟨groups, h, rfl⟩

/-- Only stray text has a column. -/
theorem Malformed.column_eq {f : LineFault} (h : Malformed ts f) : f.column = 0 := by
  rcases h with _ | _ | ⟨_, _, _ | _ | _⟩ <;> rfl

theorem assignmentOfTokens_eq_ok_iff {name : String} :
    assignmentOfTokens name ts = .ok line ↔
      ∃ n, (ts = [.equals, .number n] ∨ ts = [.equals, .hex n]) ∧ line = .assignment name n := by
  unfold assignmentOfTokens
  split
  · simp [eq_comm]
  · simp [eq_comm]
  · next hnumber hhex =>
    have hnot (n : Int) : ¬(ts = [.equals, .number n] ∨ ts = [.equals, .hex n]) :=
      not_or.2 ⟨hnumber n, hhex n⟩
    simp [hnot]

theorem assignmentOfTokens_eq_error_iff {name : String} :
    assignmentOfTokens name ts = .error fault ↔
      (∀ n, ts ≠ [.equals, .number n] ∧ ts ≠ [.equals, .hex n]) ∧
        fault = .invalidData (.notAssignment name) := by
  unfold assignmentOfTokens
  split
  · simp
  · simp
  · next hnumber hhex =>
    have hnot (n : Int) : ts ≠ [.equals, .number n] ∧ ts ≠ [.equals, .hex n] :=
      ⟨hnumber n, hhex n⟩
    simp [hnot, eq_comm]

theorem ofTokens_identifier_of_mem {name : String} (h : .equals ∈ ts) :
    ofTokens (.identifier name :: ts) = some <$> assignmentOfTokens name ts := by
  rw [ofTokens, if_pos h]
  rfl

theorem ofTokens_identifier_of_not_mem {name : String} (h : .equals ∉ ts) :
    ofTokens (.identifier name :: ts) =
      (fun os => some (.statement name os)) <$> Operand.ofTokens ts := by
  rw [ofTokens, if_neg h]
  rfl

theorem ofTokens_eq_none_iff : ofTokens ts = .ok none ↔ ts = [] := by
  constructor
  · intro h
    unfold ofTokens at h
    split at h
    · rfl
    · exact nomatch h
    · exact nomatch h
    · split at h
      · obtain ⟨_, -, hline⟩ := Except.map_eq_ok_iff.1 h
        exact nomatch hline
      · obtain ⟨_, -, hline⟩ := Except.map_eq_ok_iff.1 h
        exact nomatch hline
    · exact nomatch h
  · rintro rfl
    rfl

/-- Tokens other than commas are read as the line that has them. -/
theorem ofTokens_eq_ok_iff (hcomma : .comma ∉ ts) :
    ofTokens ts = .ok (some line) ↔ line.HasTokens ts := by
  constructor
  · intro h
    cases ts with
    | nil => exact nomatch h
    | cons t ts =>
      cases t with
      | directive name =>
        cases ts with
        | nil =>
          obtain rfl := Option.some.inj (Except.ok.inj h)
          exact .directive
        | cons t ts => exact nomatch h
      | identifier name =>
        by_cases hequals : .equals ∈ ts
        · rw [ofTokens_identifier_of_mem hequals, Except.map_eq_ok_iff] at h
          obtain ⟨_, h, ⟨⟩⟩ := h
          obtain ⟨n, rfl | rfl, rfl⟩ := assignmentOfTokens_eq_ok_iff.1 h
          · exact .assignment
          · exact .assignmentHex
        · rw [ofTokens_identifier_of_not_mem hequals, Except.map_eq_ok_iff] at h
          obtain ⟨os, h, ⟨⟩⟩ := h
          have hcomma : .comma ∉ ts := hcomma ∘ List.mem_cons_of_mem _
          exact .statement ((Operand.ofTokens_eq_ok_iff hcomma).1 h)
      | _ => exact nomatch h
  · intro h
    cases h with
    | directive => rfl
    | assignment => rfl
    | assignmentHex => rfl
    | statement hos =>
      rw [ofTokens_identifier_of_not_mem hos.equals_not_mem, hos.ofTokens_eq]
      rfl

/-- Tokens other than commas are refused if they look like an assignment and are
    none, and if they are malformed. -/
theorem ofTokens_eq_error_iff (hcomma : .comma ∉ ts) :
    ofTokens ts = .error fault ↔
      (∃ name rest, ts = .identifier name :: rest ∧ .equals ∈ rest ∧
        (∀ n, rest ≠ [.equals, .number n] ∧ rest ≠ [.equals, .hex n]) ∧
        fault = .invalidData (.notAssignment name)) ∨
      ∃ f, Malformed ts f ∧ fault = .malformed f := by
  constructor
  · intro h
    cases ts with
    | nil => exact nomatch h
    | cons t ts =>
      cases t with
      | directive name =>
        cases ts with
        | nil => exact nomatch h
        | cons t ts =>
          exact .inr ⟨_, .directive (List.cons_ne_nil _ _), (Except.error.inj h).symm⟩
      | identifier name =>
        by_cases hequals : .equals ∈ ts
        · rw [ofTokens_identifier_of_mem hequals, Except.map_eq_error_iff,
            assignmentOfTokens_eq_error_iff] at h
          exact .inl ⟨name, ts, rfl, hequals, h⟩
        · rw [ofTokens_identifier_of_not_mem hequals, Except.map_eq_error_iff] at h
          have hcomma : .comma ∉ ts := hcomma ∘ List.mem_cons_of_mem _
          obtain ⟨os, row, rest, f, hos, rfl, hf, rfl⟩ :=
            (Operand.ofTokens_eq_error_iff hcomma).1 h
          exact .inr ⟨f, .operands (hequals ∘ List.mem_append_right _) hos hf, rfl⟩
      | _ => exact .inr ⟨_, .beginning nofun nofun, (Except.error.inj h).symm⟩
  · rintro (⟨name, rest, rfl, hequals, hnot, rfl⟩ | ⟨f, hf, rfl⟩)
    · rw [ofTokens_identifier_of_mem hequals, Except.map_eq_error_iff,
        assignmentOfTokens_eq_error_iff]
      exact ⟨hnot, rfl⟩
    · cases hf with
      | @directive name ts hne =>
        cases ts with
        | nil => exact absurd rfl hne
        | cons t ts => rfl
      | @beginning t ts hdirective hidentifier =>
        cases t with
        | directive name => exact absurd rfl (hdirective name)
        | identifier name => exact absurd rfl (hidentifier name)
        | _ => rfl
      | operands hrest hos hf =>
        have hequals := fun h => (List.mem_append.1 h).elim hos.equals_not_mem hrest
        rw [ofTokens_identifier_of_not_mem hequals, Except.map_eq_error_iff, hos.ofTokens_append,
          hf.ofTokens_eq]
        rfl

end Line

/-! ## Places -/

theorem utf8Length_eq (cs : List Char) : utf8Length cs = (String.ofList cs).utf8ByteSize := by
  induction cs with
  | nil => rfl
  | cons c cs ih =>
    rw [utf8Length, ih, String.ofList_cons, String.utf8ByteSize_append,
      String.utf8ByteSize_singleton]

theorem utf8Length_append (cs ds : List Char) :
    utf8Length (cs ++ ds) = utf8Length cs + utf8Length ds := by
  rw [utf8Length_eq, utf8Length_eq, utf8Length_eq, String.ofList_append,
    String.utf8ByteSize_append]

/-- The place of a lexeme is the number of bytes before it. -/
theorem Lexeme.exists_of_mem_ofPieces {ps : List (Token.Reading × List Char)} {n : Nat}
    {x : Lexeme} (h : x ∈ ofPieces n ps) :
    ∃ before after, ps.flatMap (·.2) = before ++ x.text ++ after ∧
      x.start = n + utf8Length before := by
  have hbehind {n : Nat} {cs : List Char} {ps : List (Token.Reading × List Char)}
      (h : ∃ before after, ps.flatMap (·.2) = before ++ x.text ++ after ∧
        x.start = n + utf8Length cs + utf8Length before) :
      ∃ before after, cs ++ ps.flatMap (·.2) = before ++ x.text ++ after ∧
        x.start = n + utf8Length before := by
    obtain ⟨before, after, htext, hstart⟩ := h
    refine ⟨cs ++ before, after, ?_, ?_⟩
    · rw [htext, List.append_assoc, List.append_assoc, List.append_assoc]
    · rw [hstart, utf8Length_append, Nat.add_assoc]
  induction ps generalizing n with
  | nil => exact absurd h List.not_mem_nil
  | cons p ps ih =>
    obtain ⟨r, cs⟩ := p
    rw [List.flatMap_cons]
    cases r with
    | blank => exact hbehind (ih h)
    | token t =>
      rcases List.mem_cons.1 h with rfl | h
      · exact ⟨[], ps.flatMap (·.2), rfl, rfl⟩
      · exact hbehind (ih h)
    | stray =>
      rcases List.mem_cons.1 h with rfl | h
      · exact ⟨[], ps.flatMap (·.2), rfl, rfl⟩
      · exact hbehind (ih h)

theorem Lexeme.exists_of_mem_scan {text : String} {x : Lexeme} (h : x ∈ scan text) :
    ∃ before after, text.toList = before ++ x.text ++ after ∧
      x.start = (String.ofList before).utf8ByteSize := by
  obtain ⟨before, after, htext, hstart⟩ := exists_of_mem_ofPieces h
  rw [Token.pieces_flatMap] at htext
  rw [Nat.zero_add, utf8Length_eq] at hstart
  exact ⟨before, after, htext, hstart⟩

/-! ## Texts -/

namespace Line

/-- The tokens of a text without the commas. -/
def bareTokens (text : String) : List Token :=
  ((Lexeme.scan text).filterMap (·.token)).filter (· ≠ .comma)

theorem tokens_of_find? {xs : List Lexeme} {x : Lexeme}
    (h : xs.find? (·.token.isNone) = some x) :
    tokens xs = .error (.malformed (.strayText (x.start + 1) (String.ofList x.text))) := by
  induction xs with
  | nil => exact nomatch h
  | cons y ys ih =>
    obtain ⟨_ | t, start, text⟩ := y
    · obtain rfl := Option.some.inj h
      rfl
    · exact Except.map_eq_error_iff.2 (ih h)

theorem tokens_of_forall {xs : List Lexeme} (h : ∀ x ∈ xs, x.token ≠ none) :
    tokens xs = .ok (xs.filterMap (·.token)) := by
  induction xs with
  | nil => rfl
  | cons y ys ih =>
    obtain ⟨hy, hys⟩ := List.forall_mem_cons.1 h
    obtain ⟨_ | t, start, text⟩ := y
    · exact absurd rfl hy
    · exact Except.map_eq_ok_iff.2 ⟨_, ih hys, rfl⟩

/-- A text without stray text is the line that its tokens make up. -/
theorem parse_of_forall {text : String} (h : ∀ x ∈ Lexeme.scan text, x.token ≠ none) :
    parse text = ofTokens (bareTokens text) := by
  rw [parse, tokens_of_forall h]
  rfl

theorem comma_not_mem_bareTokens (text : String) : .comma ∉ bareTokens text :=
  fun h => absurd rfl (of_decide_eq_true (List.mem_filter.1 h).2)

/-- A text with stray text in it is refused at the first such place. Otherwise it is
    the line that has its tokens, the commas left out, none if there are no tokens;
    and if there is no such line, it is refused either for looking like an assignment,
    that is for an equals sign behind an identifier at the front, or else for what is
    wrong with its tokens, without a column. -/
theorem parse_grammar (text : String) :
    (∀ x, (Lexeme.scan text).find? (·.token.isNone) = some x →
      parse text = .error (.malformed (.strayText (x.start + 1) (String.ofList x.text))) ∧
      ∃ before after, text.toList = before ++ x.text ++ after ∧
        x.start = (String.ofList before).utf8ByteSize) ∧
    ((∀ x ∈ Lexeme.scan text, x.token ≠ none) →
      let ts := bareTokens text
      (parse text = .ok none ↔ ts = []) ∧
      (∀ name, parse text = .ok (some (.directive name)) ↔ ts = [.directive name]) ∧
      (∀ name n, parse text = .ok (some (.assignment name n)) ↔
        ts = [.identifier name, .equals, .number n] ∨
          ts = [.identifier name, .equals, .hex n]) ∧
      (∀ mnemonic os, parse text = .ok (some (.statement mnemonic os)) ↔
        ∃ groups, List.Forall₂ Operand.HasTokens os groups ∧
          ts = .identifier mnemonic :: groups.flatten) ∧
      ∀ fault, parse text = .error fault ↔
        (∃ name rest, ts = .identifier name :: rest ∧ .equals ∈ rest ∧
          (∀ n, rest ≠ [.equals, .number n] ∧ rest ≠ [.equals, .hex n]) ∧
          fault = .invalidData (.notAssignment name)) ∨
        ∃ f, Malformed ts f ∧ f.column = 0 ∧ fault = .malformed f) := by
  constructor
  · intro x hx
    refine ⟨?_, Lexeme.exists_of_mem_scan (List.mem_of_find?_eq_some hx)⟩
    rw [parse, tokens_of_find? hx]
    rfl
  · intro htokens ts
    have hcomma : .comma ∉ ts := comma_not_mem_bareTokens text
    rw [parse_of_forall htokens]
    refine ⟨ofTokens_eq_none_iff, fun name => ?_, fun name n => ?_, fun mnemonic os => ?_,
      fun fault => ?_⟩
    · exact (ofTokens_eq_ok_iff hcomma).trans hasTokens_directive_iff
    · exact (ofTokens_eq_ok_iff hcomma).trans hasTokens_assignment_iff
    · exact (ofTokens_eq_ok_iff hcomma).trans hasTokens_statement_iff
    · refine (ofTokens_eq_error_iff hcomma).trans (or_congr_right (exists_congr fun f => ?_))
      exact and_congr_right fun hf => (and_iff_right hf.column_eq).symm

/-- Stray text behind an assignment, and a comma within an operand. -/
theorem parse_grammar_sample :
    (Lexeme.scan "x = 1 $").find? (·.token.isNone) = some ⟨none, 6, ['$']⟩ ∧
      parse "x = 1 $" = .error (.malformed (.strayText 7 "$")) ∧
      bareTokens "STORE &,x 0x10" = [.identifier "STORE", .ampersand, .identifier "x", .hex 16] ∧
      parse "STORE &,x 0x10" = .ok (some (.statement "STORE" [.addressOf "x", .number 16])) := by
  have hstray : (Lexeme.scan "x = 1 $").find? (·.token.isNone) = some ⟨none, 6, ['$']⟩ := by
    decide +kernel
  have htokens : ∀ x ∈ Lexeme.scan "STORE &,x 0x10", x.token ≠ none := by decide +kernel
  have hbare : bareTokens "STORE &,x 0x10" =
      [.identifier "STORE", .ampersand, .identifier "x", .hex 16] := by decide +kernel
  obtain ⟨-, -, -, hstatement, -⟩ := (parse_grammar "STORE &,x 0x10").2 htokens
  refine ⟨hstray, ((parse_grammar "x = 1 $").1 _ hstray).1, hbare, ?_⟩
  exact (hstatement _ _).2 ⟨_, .cons .addressOf (.cons .hex .nil), hbare⟩

end Line

end Machine32
