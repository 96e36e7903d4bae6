import Machine32.Proofs.Numerals
import Machine32.Proofs.Assembly.Lexing
import Machine32.Proofs.Assembly.LineGrammar

/-!
# Lines in any layout

A line can be written with any spelling of its numbers, with any blanks and
commas around its tokens, and with a comment behind them. Two tokens need at
least one of these in between, except for an ampersand and its name.

* `Token.bare` is what a text is read as, its blanks and commas left out: it can
  be computed from the left, one token or gap at a time;
* `Token.Spaced` is a row of tokens in such a layout, read as these tokens
  (`Spaced.bare_eq`);
* `Line.parse_written`: so a line is read back from every way to write it.
-/

namespace Machine32

namespace Token

/-! ## Spellings -/

/-- A decimal numeral is a spelling of its number. -/
theorem spells_signed {n : Int} (h : Fits64 n) : Spells (.number n) (Numeral.signed n).toList := by
  have hne : Nat.toDigits 10 n.natAbs ≠ [] := Nat.toDigits_ne_nil
  have hdigit : ∀ d ∈ Nat.toDigits 10 n.natAbs, d.isDigit = true := fun d hd =>
    Nat.isDigit_of_mem_toDigits (by decide) (by decide) hd
  have hvalue : Numeral.value 10 (Nat.toDigits 10 n.natAbs) = n.natAbs :=
    Numeral.value_toDigits (by decide) (by decide) _
  rw [Numeral.signed, Numeral.decimal]
  generalize Nat.toDigits 10 n.natAbs = ds at hne hdigit hvalue
  -- A negative number has a sign in front of its digits.
  split
  · next hneg =>
    obtain rfl : n = -(Numeral.value 10 ds : Int) := by omega
    rw [String.toList_append, String.toList_ofList, String.toList_ofList]
    exact .negative hne hdigit h
  · next hnonneg =>
    obtain rfl : n = (Numeral.value 10 ds : Int) := by omega
    rw [String.toList_ofList]
    exact .number hne hdigit h

/-- A name is a spelling of itself. -/
theorem spells_name {name : String} (h : IsName name.toList) :
    Spells (.identifier name) name.toList := by
  conv in Token.identifier _ => rw [← String.ofList_toList (s := name)]
  exact .identifier h

theorem spells_directive {name : String} (h : IsName name.toList) :
    Spells (.directive name) ('.' :: name.toList) := by
  conv in Token.directive _ => rw [← String.ofList_toList (s := name)]
  exact .directive h

/-! ## Layout -/

/-- What may stand between tokens: blanks and commas. -/
def IsGap (cs : List Char) : Prop :=
  ∀ c ∈ cs, isBlank c = true ∨ c = ','

instance (cs : List Char) : Decidable (IsGap cs) :=
  List.decidableBAll _ cs

/-- What may stand behind the last token: a gap, and a comment up to the end. -/
inductive IsTail : List Char → Prop
  | gap {gap : List Char} : IsGap gap → IsTail gap
  | comment {gap comment : List Char} : IsGap gap → '\n' ∉ comment →
      IsTail (gap ++ ';' :: comment)

/-- A way to write a token: a spelling of a word, or a sign. -/
inductive Writes : Token → List Char → Prop
  | word {t : Token} {w : List Char} : Spells t w → Writes t w
  | equals : Writes .equals ['=']
  | ampersand : Writes .ampersand ['&']

/-- Tokens in a row, from the first character of the first one up to the end of
    the line. -/
inductive Spaced : List Token → List Char → Prop
  | last {t : Token} {w tail : List Char} : Writes t w → IsTail tail → Spaced [t] (w ++ tail)
  | cons {t u : Token} {ts : List Token} {w gap cs : List Char} : Writes t w → IsGap gap →
      gap ≠ [] ∨ t = .ampersand → Spaced (u :: ts) cs → Spaced (t :: u :: ts) (w ++ gap ++ cs)

/-- A word makes up a line of its own. -/
theorem Spells.spaced {t : Token} {w : List Char} (h : Spells t w) : Spaced [t] w := by
  rw [← List.append_nil w]
  exact .last (.word h) (.gap nofun)

/-! ## Reading without blanks and commas -/

/-- What the pieces of a text are read as, without the blanks and the commas. -/
def bare (cs : List Char) : List Reading :=
  (lexed cs).filter (· ≠ .token .comma)

@[simp] theorem bare_nil : bare [] = [] := by
  rw [bare, lexed_nil]
  rfl

/-- Nothing is read of a gap. -/
theorem bare_gap {gap : List Char} (h : IsGap gap) (cs : List Char) :
    bare (gap ++ cs) = bare cs := by
  induction gap with
  | nil => rfl
  | cons c gap ih =>
    obtain ⟨hc, hgap⟩ := List.forall_mem_cons.1 h
    rw [← ih hgap, List.cons_append, bare, bare]
    rcases hc with hc | rfl
    · rw [lexed_blank hc]
    · rw [lexed_comma, List.filter_cons_of_neg (by simp)]

/-- Nothing is read of a comment. -/
theorem bare_comment {comment : List Char} (h : '\n' ∉ comment) : bare (';' :: comment) = [] := by
  have hall : ∀ c ∈ comment, decide (c ≠ '\n') = true := fun c hc =>
    decide_eq_true (ne_of_mem_of_not_mem hc h)
  have hread : readFirst ';' (comment ++ []) = (.blank, comment.length) := by
    change (Reading.blank, ((comment ++ []).takeWhile (· ≠ '\n')).length) = _
    rw [List.append_nil, List.takeWhile_eq_self_iff.2 hall]
  have hlexed := lexed_append hread
  rw [List.append_nil, lexed_nil] at hlexed
  rw [bare, hlexed]
  rfl

/-- Nothing is read of what ends a line. -/
theorem IsTail.bare_eq {tail : List Char} (h : IsTail tail) : bare tail = [] := by
  cases h with
  | gap hgap =>
    have h := bare_gap hgap []
    rwa [List.append_nil, bare_nil] at h
  | comment hgap hcomment => rw [bare_gap hgap, bare_comment hcomment]

/-- No word goes on into a gap. -/
theorem IsGap.detached {gap : List Char} (h : IsGap gap) {cs : List Char}
    (hcs : gap = [] → Detached cs) : Detached (gap ++ cs) := by
  cases gap with
  | nil => exact hcs rfl
  | cons c gap =>
    refine detached_cons (Bool.eq_false_iff.2 fun hname => ?_)
    rcases h c List.mem_cons_self with hblank | rfl
    · exact nomatch hblank.symm.trans (isBlank_eq_false hname (by decide))
    · exact nomatch hname

theorem IsTail.detached {tail : List Char} (h : IsTail tail) : Detached tail := by
  cases h with
  | gap hgap =>
    rw [← List.append_nil tail]
    exact hgap.detached fun _ => detached_nil
  | comment hgap _ => exact hgap.detached fun _ => detached_cons (by decide)

/-- A token is read back, if it is not a word that goes on behind it. -/
theorem Writes.bare_append {t : Token} {w cs : List Char} (h : Writes t w)
    (hcs : Detached cs ∨ t = .ampersand) : bare (w ++ cs) = .token t :: bare cs := by
  have hcons {t : Token} (ht : t ≠ .comma) (rs : List Reading) :
      (Reading.token t :: rs).filter (· ≠ .token .comma) =
        .token t :: rs.filter (· ≠ .token .comma) :=
    List.filter_cons_of_pos (by simpa using ht)
  cases h with
  | word hw =>
    have hcomma : t ≠ .comma := by
      rintro rfl
      cases hw
    have hdetached : Detached cs := by
      refine hcs.resolve_right ?_
      rintro rfl
      cases hw
    rw [bare, lexed_spells hw hdetached, hcons hcomma]
    rfl
  | equals =>
    rw [List.singleton_append, bare, lexed_equals, hcons (by decide)]
    rfl
  | ampersand =>
    rw [List.singleton_append, bare, lexed_separator rfl, hcons (by decide)]
    rfl

/-- Tokens in a row are read back. -/
theorem Spaced.bare_eq {ts : List Token} {cs : List Char} (h : Spaced ts cs) :
    bare cs = ts.map .token := by
  induction h with
  | last hw htail =>
    rw [hw.bare_append (.inl htail.detached), htail.bare_eq]
    rfl
  | cons hw hgap hsep _ ih =>
    rw [List.append_assoc, hw.bare_append (hsep.imp_left fun hne => ?_), bare_gap hgap, ih]
    · rfl
    · exact hgap.detached fun heq => absurd heq hne

/-- A text without stray text is read as tokens, with the commas. -/
theorem exists_lexed_of_bare {cs : List Char} {ts : List Token} (h : bare cs = ts.map .token) :
    ∃ us : List Token, lexed cs = us.map .token ∧ us.filter (· ≠ .comma) = ts := by
  rw [bare] at h
  generalize lexed cs = rs at h
  induction rs generalizing ts with
  | nil => exact ⟨[], rfl, (List.map_eq_nil_iff.1 h.symm).symm⟩
  | cons r rs ih =>
    by_cases hr : r = .token .comma
    · subst hr
      obtain ⟨us, rfl, hus⟩ := ih h
      exact ⟨.comma :: us, rfl, hus⟩
    · rw [List.filter_cons_of_pos (by simpa using hr)] at h
      obtain ⟨t, ts, rfl, rfl, hts⟩ := List.map_eq_cons_iff.1 h.symm
      obtain ⟨us, rfl, hus⟩ := ih hts.symm
      refine ⟨t :: us, rfl, ?_⟩
      rw [List.filter_cons_of_pos (by simpa using hr), hus]

/-- Tokens that can be written can be written in a row. -/
theorem exists_spaced {ts : List Token} (hne : ts ≠ []) (h : ∀ t ∈ ts, ∃ w, Writes t w) :
    ∃ cs, Spaced ts cs := by
  have hblank : IsGap [' '] := by decide
  induction ts with
  | nil => exact absurd rfl hne
  | cons t ts ih =>
    obtain ⟨⟨w, hw⟩, hts⟩ := List.forall_mem_cons.1 h
    cases ts with
    | nil => exact ⟨w ++ [], .last hw (.gap nofun)⟩
    | cons u ts =>
      obtain ⟨cs, hcs⟩ := ih (List.cons_ne_nil u ts) hts
      exact ⟨w ++ [' '] ++ cs, .cons hw hblank (.inl (List.cons_ne_nil _ _)) hcs⟩

theorem exists_writes_number {n : Int} (h : Fits64 n) : ∃ w, Writes (.number n) w :=
  ⟨_, .word (spells_signed h)⟩

theorem exists_writes_identifier {name : String} (h : IsName name.toList) :
    ∃ w, Writes (.identifier name) w :=
  ⟨_, .word (spells_name h)⟩

theorem exists_writes_directive {name : String} (h : IsName name.toList) :
    ∃ w, Writes (.directive name) w :=
  ⟨_, .word (spells_directive h)⟩

end Token

/-! ## Lines -/

/-- The name of an operand is spelled as a name, and its number is in range. -/
def Operand.Writable : Operand → Prop
  | number n => Token.Fits64 n
  | symbol name | addressOf name => IsName name.toList

instance (o : Operand) : Decidable o.Writable :=
  match o with
  | .number n => inferInstanceAs (Decidable (Token.Fits64 n))
  | .symbol name | .addressOf name => inferInstanceAs (Decidable (IsName name.toList))

namespace Line

open Token

/-- The names of a line are spelled as names, and its numbers are in range. -/
def Writable : Line → Prop
  | directive name => IsName name.toList
  | assignment name n => IsName name.toList ∧ Fits64 n
  | statement mnemonic os => IsName mnemonic.toList ∧ ∀ o ∈ os, o.Writable

instance (line : Line) : Decidable line.Writable :=
  match line with
  | directive name => inferInstanceAs (Decidable (IsName name.toList))
  | assignment name n => inferInstanceAs (Decidable (IsName name.toList ∧ Fits64 n))
  | statement mnemonic os =>
    inferInstanceAs (Decidable (IsName mnemonic.toList ∧ ∀ o ∈ os, o.Writable))

/-- The text is a way to write the line: its tokens in a row, with a gap in front. -/
def Written (line : Line) (text : String) : Prop :=
  ∃ ts gap cs, line.HasTokens ts ∧ IsGap gap ∧ Spaced ts cs ∧ text.toList = gap ++ cs

variable {line : Line}

theorem written_of_spaced {ts : List Token} {text : String} (h : line.HasTokens ts)
    (hspaced : Spaced ts text.toList) : line.Written text :=
  ⟨ts, [], text.toList, h, nofun, hspaced, rfl⟩

/-- A line is read back from every way to write it. -/
theorem parse_of_written {text : String} (h : line.Written text) :
    parse text = .ok (some line) := by
  obtain ⟨ts, gap, cs, hts, hgap, hcs, htext⟩ := h
  have hbare : bare text.toList = ts.map .token := by
    rw [htext, bare_gap hgap, hcs.bare_eq]
  obtain ⟨us, hus, hfilter⟩ := exists_lexed_of_bare hbare
  have hcomma : .comma ∉ ts := by
    rw [← hfilter]
    exact fun hmem => absurd rfl (of_decide_eq_true (List.mem_filter.1 hmem).2)
  rw [parse_of_lexed hus, hfilter, ofTokens_eq_ok_iff hcomma]
  exact hts

/-- Operands whose names and numbers can be written have tokens that can be. -/
theorem exists_haveTokens_of_writable {os : List Operand} (h : ∀ o ∈ os, o.Writable) :
    ∃ ts, Operand.HaveTokens os ts ∧ ∀ t ∈ ts, ∃ w, Writes t w := by
  induction os with
  | nil => exact ⟨[], Operand.haveTokens_nil, fun _ ht => absurd ht List.not_mem_nil⟩
  | cons o os ih =>
    obtain ⟨ho, hos⟩ := List.forall_mem_cons.1 h
    obtain ⟨ts, hts, hwrites⟩ := ih hos
    cases o with
    | number n =>
      exact ⟨_, hts.cons .number, List.forall_mem_cons.2 ⟨exists_writes_number ho, hwrites⟩⟩
    | symbol name =>
      exact ⟨_, hts.cons .symbol, List.forall_mem_cons.2 ⟨exists_writes_identifier ho, hwrites⟩⟩
    | addressOf name =>
      exact ⟨_, hts.cons .addressOf, List.forall_mem_cons.2 ⟨⟨_, .ampersand⟩,
        List.forall_mem_cons.2 ⟨exists_writes_identifier ho, hwrites⟩⟩⟩

theorem exists_hasTokens_of_writable (h : line.Writable) :
    ∃ ts, line.HasTokens ts ∧ ts ≠ [] ∧ ∀ t ∈ ts, ∃ w, Writes t w := by
  cases line with
  | directive name =>
    exact ⟨_, .directive, List.cons_ne_nil _ _,
      List.forall_mem_singleton.2 (exists_writes_directive h)⟩
  | assignment name n =>
    exact ⟨_, .assignment, List.cons_ne_nil _ _, List.forall_mem_cons.2
      ⟨exists_writes_identifier h.1, List.forall_mem_cons.2
        ⟨⟨_, .equals⟩, List.forall_mem_singleton.2 (exists_writes_number h.2)⟩⟩⟩
  | statement mnemonic os =>
    obtain ⟨ts, hts, hwrites⟩ := exists_haveTokens_of_writable h.2
    exact ⟨_, .statement hts, List.cons_ne_nil _ _,
      List.forall_mem_cons.2 ⟨exists_writes_identifier h.1, hwrites⟩⟩

/-- A line can be written whose names are spelled as names and whose numbers are in
    range, and it is read back from every way to write it. -/
theorem parse_written {line : Line} (h : line.Writable) :
    (∃ text, line.Written text) ∧
      ∀ text, line.Written text → parse text = .ok (some line) := by
  refine ⟨?_, fun text => parse_of_written⟩
  obtain ⟨ts, hts, hne, hwrites⟩ := exists_hasTokens_of_writable h
  obtain ⟨cs, hcs⟩ := exists_spaced hne hwrites
  exact ⟨String.ofList cs, written_of_spaced hts (String.toList_ofList.symm ▸ hcs)⟩

/-- The least number, a number with zeros in front, and no blank behind the ampersand. -/
theorem parse_written_sample :
    let line : Line := .statement "STORE" [.addressOf "x1", .number (-9223372036854775808),
      .number 255]
    let text := "\t,STORE\x0c&x1, , -9223372036854775808\r0X00fF;=.data"
    line.Writable ∧ line.Written text ∧ parse text = .ok (some line) := by
  intro line text
  have hwritable : line.Writable := by decide
  have hleast : Spells (.number (-9223372036854775808)) "-9223372036854775808".toList :=
    spells_signed (by decide)
  have hhex : Spells (.hex 255) ['0', 'X', '0', '0', 'f', 'F'] :=
    .hex (.inr rfl) (List.cons_ne_nil '0' ['0', 'f', 'F']) (List.all_eq_true.1 rfl) (by decide)
  have hspaced : Spaced [.identifier "STORE", .ampersand, .identifier "x1",
      .number (-9223372036854775808), .hex 255]
      ("STORE".toList ++ ['\x0c'] ++ (['&'] ++ [] ++ ("x1".toList ++ [',', ' ', ',', ' '] ++
        ("-9223372036854775808".toList ++ ['\r'] ++
          (['0', 'X', '0', '0', 'f', 'F'] ++ ([] ++ ';' :: "=.data".toList)))))) :=
    .cons (.word (spells_name (by decide))) (by decide) (.inl nofun)
      (.cons .ampersand (by decide) (.inr rfl)
        (.cons (.word (spells_name (by decide))) (by decide) (.inl nofun)
          (.cons (.word hleast) (by decide) (.inl nofun)
            (.last (.word hhex) (.comment nofun (by decide))))))
  have hwritten : line.Written text :=
    ⟨_, ['\t', ','], _, .statement ⟨_, .cons .addressOf (.cons .number (.cons .hex .nil)), rfl⟩,
      by decide, hspaced, by decide +kernel⟩
  exact ⟨hwritable, hwritten, (parse_written hwritable).2 text hwritten⟩

end Line

end Machine32
