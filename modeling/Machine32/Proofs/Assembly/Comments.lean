import Machine32.Proofs.Assembly.LineGrammar
import Machine32.Proofs.Assembly.LongestMatch

/-!
# Blanks and comments

A comment is a semicolon and the rest of its line. Where a piece of a text begins, a
comment is open only at the end of the line: the piece that the semicolon is in takes all
of the comment along. So no other piece is in a comment, and none has a blank in it.

* `Source.InBlanks`, `Source.InComment`: the bytes of a text that are blank, and those that
  are in a comment;
* `Source.ByteOf.exists_common`: two parts of a text with a byte in common have the
  character of this byte in common;
* `Token.Next.blank_cases`: a blank piece is a run of blanks or a whole comment;
* `Token.Cuts.split_closed`: where a piece begins, no comment goes on.
-/

namespace Machine32

/-! ## Bytes of a text -/

namespace Source

variable {text before after behind left right part : List Char} {c d : Char} {i : Nat}

/-- The byte number `i` of a text is one of the part with the text `before` in front. -/
def ByteOf (before part : List Char) (i : Nat) : Prop :=
  utf8Length before ≤ i ∧ i < utf8Length before + utf8Length part

/-- The byte number `i` of a text is in a run of blanks. -/
def InBlanks (text : List Char) (i : Nat) : Prop :=
  ∃ before run after, text = before ++ run ++ after ∧
    (∀ c ∈ run, c ∈ Pattern.blankChars) ∧ ByteOf before run i

/-- The byte number `i` of a text is in a comment, which goes on up to a line feed or to
    the end of the text. -/
def InComment (text : List Char) (i : Nat) : Prop :=
  ∃ before comment after, text = before ++ ';' :: comment ++ after ∧ '\n' ∉ comment ∧
    (∀ c ∈ after.head?, c = '\n') ∧ ByteOf before (';' :: comment) i

/-- The last line of a text has a semicolon in it. -/
def OpensComment (text : List Char) : Prop :=
  ∃ before comment, text = before ++ ';' :: comment ∧ '\n' ∉ comment

/-- A byte of a part is one of a character of the part. -/
theorem ByteOf.exists_char (h : ByteOf before part i) :
    ∃ left c right, part = left ++ c :: right ∧ ByteOf (before ++ left) [c] i := by
  obtain ⟨hle, hlt⟩ := h
  induction part generalizing before with
  | nil => exact absurd hlt (Nat.not_lt.2 hle)
  | cons c part ih =>
    rw [utf8Length] at hlt
    rcases Nat.lt_or_ge i (utf8Length before + c.utf8Size) with hi | hi
    · exact ⟨[], c, part, rfl, by rw [ByteOf, List.append_nil]; exact ⟨hle, hi⟩⟩
    · have hbefore : utf8Length (before ++ [c]) = utf8Length before + c.utf8Size :=
        utf8Length_append before [c]
      have hle : utf8Length (before ++ [c]) ≤ i := hbefore ▸ hi
      obtain ⟨left, d, right, rfl, hd⟩ := ih hle (by omega)
      rw [List.append_assoc] at hd
      exact ⟨c :: left, d, right, rfl, hd⟩

/-- The character of a byte does not begin behind another one with this byte. -/
theorem ByteOf.eq_nil {as : List Char} (h : ByteOf before [c] i)
    (h' : ByteOf (before ++ as) [d] i) (heq : c :: left = as ++ d :: right) : as = [] := by
  cases as with
  | nil => rfl
  | cons a as =>
    obtain ⟨rfl, -⟩ := List.cons.inj (heq.trans (List.cons_append ..))
    have hlt := h.2
    have hle := h'.1
    simp only [utf8Length_append, utf8Length] at hlt hle
    omega

/-- A byte of a text is one of one character. -/
theorem ByteOf.unique (h : ByteOf before [c] i) (h' : ByteOf behind [d] i)
    (heq : before ++ c :: left = behind ++ d :: right) : before = behind ∧ c = d := by
  rcases List.append_eq_append_iff.1 heq with ⟨as, rfl, has⟩ | ⟨bs, rfl, hbs⟩
  · obtain rfl := h.eq_nil h' has
    exact ⟨(List.append_nil before).symm, (List.cons.inj has).1⟩
  · obtain rfl := h'.eq_nil h hbs
    exact ⟨List.append_nil behind, (List.cons.inj hbs).1.symm⟩

/-- Two parts of a text that have a byte in common have the character of this byte in
    common, and the text up to it. -/
theorem ByteOf.exists_common {part' after' before' : List Char} (h : ByteOf before part i)
    (h' : ByteOf before' part' i) (heq : before ++ part ++ after = before' ++ part' ++ after') :
    ∃ left left' c, left ++ [c] <+: part ∧ left' ++ [c] <+: part' ∧
      before ++ left = before' ++ left' := by
  obtain ⟨left, c, right, rfl, hc⟩ := h.exists_char
  obtain ⟨left', d, right', rfl, hd⟩ := h'.exists_char
  simp only [List.append_assoc, List.cons_append] at heq
  rw [← List.append_assoc, ← List.append_assoc before'] at heq
  obtain ⟨hleft, rfl⟩ := hc.unique hd heq
  exact ⟨left, left', c, ⟨right, List.append_assoc ..⟩, ⟨right', List.append_assoc ..⟩, hleft⟩

/-- A comment that is open behind a part of a text begins in this part, or it is open
    before and goes on through the part. -/
theorem opensComment_append_cases (h : OpensComment (before ++ part)) :
    ';' ∈ part ∨ OpensComment before ∧ '\n' ∉ part := by
  obtain ⟨start, comment, heq, hcomment⟩ := h
  rcases List.append_eq_append_iff.1 heq with ⟨as, -, rfl⟩ | ⟨bs, rfl, hbs⟩
  · exact .inl (List.mem_append_right _ List.mem_cons_self)
  · cases bs with
    | nil =>
      rw [List.nil_append] at hbs
      exact .inl (hbs ▸ List.mem_cons_self)
    | cons b bs =>
      rw [List.cons_append] at hbs
      obtain ⟨rfl, rfl⟩ := List.cons.inj hbs
      rw [List.mem_append, not_or] at hcomment
      exact .inr ⟨⟨start, bs, rfl, hcomment.1⟩, hcomment.2⟩

end Source

namespace Token

open Source (OpensComment)

variable {cs text w front rest : List Char} {c : Char} {p : Pattern} {r : Reading}
  {before after : List (Reading × List Char)} {piece : Reading × List Char}

theorem isNameChar_of_isName (h : IsName w) : ∀ c ∈ w, Ascii.isNameChar c = true := by
  cases w with
  | nil => exact h.elim
  | cons c cs =>
    refine List.forall_mem_cons.2 ⟨?_, h.2⟩
    exact Pattern.within_nameChars_iff.1
      (Pattern.within_append_iff.2 (.inl (Pattern.within_letters_iff.2 h.1)))

/-- The characters of a match that is not blank. -/
theorem chars_of_mem_language (h : w ∈ p.language) (hblanks : p ≠ .blanks)
    (hcomment : p ≠ .comment) :
    ∀ c ∈ w, Ascii.isNameChar c = true ∨ c ∈ ['.', '-', ',', '=', '&'] := by
  cases w with
  | nil => exact absurd h p.nil_not_mem_language
  | cons c cs =>
    cases p with
    | blanks => exact absurd rfl hblanks
    | comment => exact absurd rfl hcomment
    | directive =>
      obtain ⟨rfl, hname⟩ := Pattern.cons_mem_directive_iff.1 h
      exact List.forall_mem_cons.2 ⟨.inr (by decide), fun d hd =>
        .inl (isNameChar_of_isName hname d hd)⟩
    | identifier =>
      have hname := Pattern.mem_identifier_iff.1 h
      exact fun d hd => .inl (isNameChar_of_isName hname d hd)
    | number =>
      rcases Pattern.cons_mem_number_iff.1 h with hdigits | ⟨rfl, -, hdigits⟩
      · exact fun d hd => .inl (isNameChar_of_isDigit (hdigits d hd))
      · exact List.forall_mem_cons.2 ⟨.inr (by decide), fun d hd =>
          .inl (isNameChar_of_isDigit (hdigits d hd))⟩
    | hex =>
      obtain ⟨rfl, x, ds, rfl, hx, -, hdigits⟩ := Pattern.cons_mem_hex_iff.1 h
      refine List.forall_mem_cons.2 ⟨.inl (by decide), List.forall_mem_cons.2 ⟨.inl ?_, fun d hd =>
        .inl (isNameChar_of_isHexDigit (hdigits d hd))⟩⟩
      rcases hx with rfl | rfl <;> decide
    | comma | equals | ampersand =>
      obtain ⟨rfl, rfl⟩ := Pattern.cons_mem_one_iff.1 h
      exact List.forall_mem_singleton.2 (.inr (by decide))

/-- There are neither blanks nor semicolons in a piece that is not blank. -/
theorem Next.not_blank (h : Next cs (r, w) rest) (hr : r ≠ .blank) :
    ∀ c ∈ w, isBlank c = false ∧ c ≠ ';' := by
  rcases h.longest_or_stray with ⟨p, hp, rfl⟩ | ⟨-, c, rfl, hunmatched⟩
  · have hblanks : p ≠ .blanks := by
      rintro rfl
      exact hr rfl
    have hcomment : p ≠ .comment := by
      rintro rfl
      exact hr rfl
    have hsigns : ∀ c ∈ ['.', '-', ',', '=', '&'], isBlank c = false ∧ c ≠ ';' := by
      simp [isBlank]
    intro c hc
    rcases chars_of_mem_language hp.mem hblanks hcomment c hc with hname | hsign
    · exact ⟨isBlank_eq_false hname (by decide), ne_of_class hname (by decide)⟩
    · exact hsigns c hsign
  · have hfront : [c] <+: cs := ⟨rest, h.text_eq.symm⟩
    refine List.forall_mem_singleton.2 ⟨Bool.eq_false_iff.2 fun hblank => ?_, ?_⟩
    · exact hunmatched .blanks [c] (Pattern.mem_blanks_iff.2
        ⟨List.cons_ne_nil c [], List.forall_mem_singleton.2 hblank⟩) hfront
    · rintro rfl
      exact hunmatched .comment [';']
        (Pattern.cons_mem_comment_iff.2 ⟨rfl, List.not_mem_nil⟩) hfront

theorem numeral_ne_blank (f : Int → Token) (n : Int) : numeral f n ≠ .blank := by
  intro h
  rw [numeral] at h
  split at h <;> cases h

/-- A blank piece is a run of blanks, or a comment up to the end of its line. -/
theorem Next.blank_cases (h : Next cs (.blank, w) rest) :
    (∀ c ∈ w, isBlank c = true) ∨
      ∃ comment, w = ';' :: comment ∧ '\n' ∉ comment ∧ ∀ c ∈ rest.head?, c = '\n' := by
  rcases h.longest_or_stray with ⟨p, hp, hread⟩ | ⟨⟨⟩, -⟩
  cases p with
  | blanks => exact .inl (Pattern.mem_blanks_iff.1 hp.mem).2
  | comment =>
    cases w with
    | nil => exact absurd hp.mem (Pattern.nil_not_mem_language _)
    | cons c comment =>
      obtain ⟨rfl, hcomment⟩ := Pattern.cons_mem_comment_iff.1 hp.mem
      refine .inr ⟨comment, rfl, hcomment, fun d hd => ?_⟩
      -- The comment would be a longer match with any other character behind it.
      by_contra hne
      obtain ⟨rest, rfl⟩ := List.head?_eq_some_iff.1 hd
      have hlonger : ';' :: (comment ++ [d]) ∈ Pattern.comment.language := by
        refine Pattern.cons_mem_comment_iff.2 ⟨rfl, fun hmem => ?_⟩
        rcases List.mem_append.1 hmem with hmem | hmem
        · exact hcomment hmem
        · exact hne (List.mem_singleton.1 hmem).symm
      have hfront : ';' :: (comment ++ [d]) <+: cs := ⟨rest, by simp [h.text_eq]⟩
      have hle := hp.length_le _ _ hlonger hfront
      rw [List.length_cons, List.length_cons, List.length_append, List.length_singleton] at hle
      omega
  | number | hex => exact absurd hread.symm (numeral_ne_blank _ _)
  | _ => exact nomatch hread

/-- No comment goes on behind a piece, if none does before it. -/
theorem Next.closed (h : Next cs (r, w) rest)
    (htext : OpensComment text → ∀ c ∈ cs.head?, c = '\n') :
    OpensComment (text ++ w) → ∀ c ∈ rest.head?, c = '\n' := by
  intro hopen
  rcases Source.opensComment_append_cases hopen with hsemicolon | ⟨htext', hline⟩
  · have hr : r = .blank := by
      by_contra hr
      exact (h.not_blank hr _ hsemicolon).2 rfl
    subst hr
    rcases h.blank_cases with hblanks | ⟨_, -, -, hend⟩
    · exact nomatch hblanks _ hsemicolon
    · exact hend
  · obtain ⟨c, ds, rfl⟩ := List.exists_cons_of_ne_nil h.ne_nil
    obtain rfl := htext htext' c (by rw [h.text_eq]; rfl)
    exact absurd List.mem_cons_self hline

/-- No part of a piece is in a comment, if the piece is not blank. -/
theorem Next.not_opensComment (h : Next cs (r, w) rest) (hr : r ≠ .blank)
    (htext : OpensComment text → ∀ c ∈ cs.head?, c = '\n') (hfront : front ++ [c] <+: w) :
    ¬OpensComment (text ++ (front ++ [c])) := by
  intro hopen
  obtain ⟨back, rfl⟩ := hfront
  rcases Source.opensComment_append_cases hopen with hsemicolon | ⟨htext', hline⟩
  · exact (h.not_blank hr _ (List.mem_append_left back hsemicolon)).2 rfl
  · obtain ⟨d, ds, hd⟩ := List.exists_cons_of_ne_nil (List.concat_ne_nil c front)
    rw [hd] at hline
    obtain rfl := htext htext' d (by rw [h.text_eq, hd]; rfl)
    exact hline List.mem_cons_self

/-- A piece is the next one where those before it end, and no comment goes on there. -/
theorem Cuts.split_closed (h : Cuts cs (before ++ piece :: after))
    (htext : OpensComment text → ∀ c ∈ cs.head?, c = '\n') :
    ∃ behind rest, cs = before.flatMap (·.2) ++ behind ∧ Next behind piece rest ∧
      (OpensComment (text ++ before.flatMap (·.2)) → ∀ c ∈ behind.head?, c = '\n') := by
  induction before generalizing cs text with
  | nil =>
    obtain _ | ⟨hnext, -⟩ := h
    refine ⟨cs, _, rfl, hnext, ?_⟩
    rwa [List.flatMap_nil, List.append_nil]
  | cons first before ih =>
    obtain ⟨r, w⟩ := first
    obtain _ | ⟨hnext, hcuts⟩ := h
    obtain ⟨behind, rest, rfl, hpiece, hbehind⟩ := ih hcuts (hnext.closed htext)
    refine ⟨behind, rest, ?_, hpiece, ?_⟩
    · rw [hnext.text_eq, List.flatMap_cons, List.append_assoc]
    · rwa [List.flatMap_cons, ← List.append_assoc]

end Token

end Machine32
