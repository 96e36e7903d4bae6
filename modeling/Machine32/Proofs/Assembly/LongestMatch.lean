import Machine32.Proofs.Assembly.Patterns

/-!
# Longest matches

The next piece of a text is the longest match of a pattern at its front, or one character
where no pattern matches. This tells what every piece is, and every text is divided in one
way only, from its first character to its last.

* `Token.Next`: the next piece of a text, and what is left behind it;
* `Token.exists_begins_of_mem`: no pattern has a longer match than the piece that is read;
* `Token.next_readFirst`, `Token.Next.eq_readFirst`: the piece that is read is the next one,
  and there is no other;
* `Token.Cuts` and `Token.cuts_iff`: a text is divided into its pieces.
-/

namespace Machine32.Token

variable {p q : Pattern} {c : Char} {cs ds w rest : List Char}
  {piece : Reading × List Char} {ps : List (Reading × List Char)}

/-! ## Specification -/

/-- The word `w` is a match of the pattern `p` at the front of a text, and no match of a
    pattern at its front is longer. -/
structure Longest (p : Pattern) (w cs : List Char) : Prop where
  mem : w ∈ p.language
  front : w <+: cs
  length_le : ∀ (q : Pattern) (v : List Char), v ∈ q.language → v <+: cs → v.length ≤ w.length

/-- No pattern matches at the front of a text. -/
def Unmatched (cs : List Char) : Prop :=
  ∀ (p : Pattern) (w : List Char), w ∈ p.language → ¬w <+: cs

/-- The next piece of a text with what it is read as, and what is left of the text. -/
inductive Next : List Char → Reading × List Char → List Char → Prop
  | longest {p : Pattern} {w rest : List Char} : Longest p w (w ++ rest) →
      Next (w ++ rest) (p.read w, w) rest
  | stray {c : Char} {rest : List Char} : Unmatched (c :: rest) →
      Next (c :: rest) (.stray, [c]) rest

/-- A text is divided into pieces, one behind the other up to its end. -/
inductive Cuts : List Char → List (Reading × List Char) → Prop
  | nil : Cuts [] []
  | cons {cs rest : List Char} {piece : Reading × List Char} {ps : List (Reading × List Char)} :
      Next cs piece rest → Cuts rest ps → Cuts cs (piece :: ps)

/-! ## The first piece -/

/-- The first piece of the text `c :: cs` is the match `c :: w` of the pattern `p`. -/
structure Begins (p : Pattern) (c : Char) (cs w : List Char) : Prop where
  readFirst_eq : readFirst c cs = (p.read (c :: w), w.length)
  front : w <+: cs
  mem : c :: w ∈ p.language

/-- A blank begins a run of blanks. -/
theorem begins_blanks (h : isBlank c = true) (cs : List Char) :
    Begins .blanks c cs (cs.takeWhile isBlank) where
  readFirst_eq := by
    rw [readFirst, if_pos h]
    rfl
  front := List.takeWhile_prefix _
  mem := Pattern.mem_blanks_iff.2 ⟨List.cons_ne_nil _ _,
    List.forall_mem_cons.2 ⟨h, fun _ => List.mem_takeWhile_imp⟩⟩

/-- A semicolon begins a comment. -/
theorem begins_comment (cs : List Char) :
    Begins .comment ';' cs (cs.takeWhile (· ≠ '\n')) where
  readFirst_eq := rfl
  front := List.takeWhile_prefix _
  mem := Pattern.cons_mem_comment_iff.2 ⟨rfl, fun h => absurd rfl
    (of_decide_eq_true (List.mem_takeWhile_imp (p := fun d => decide (d ≠ '\n')) h))⟩

/-- A dot begins a directive if a name is behind it. -/
theorem begins_directive (h : Ascii.isNameStart c = true) (cs : List Char) :
    Begins .directive '.' (c :: cs) (c :: cs.takeWhile Ascii.isNameChar) where
  readFirst_eq := by
    rw [readFirst_dot, readDirective, if_pos h]
    rfl
  front := List.cons_prefix_cons.2 ⟨rfl, List.takeWhile_prefix _⟩
  mem := Pattern.cons_mem_directive_iff.2 ⟨rfl, h, fun _ => List.mem_takeWhile_imp⟩

/-- A letter or an underscore begins a name. -/
theorem begins_identifier (h : Ascii.isNameStart c = true) (cs : List Char) :
    Begins .identifier c cs (cs.takeWhile Ascii.isNameChar) where
  readFirst_eq := readFirst_of_isNameStart h cs
  front := List.takeWhile_prefix _
  mem := Pattern.mem_identifier_iff.2 ⟨h, fun _ => List.mem_takeWhile_imp⟩

/-- A minus sign begins a number if digits are behind it. -/
theorem begins_negative (h : cs.takeWhile Char.isDigit ≠ []) :
    Begins .number '-' cs (cs.takeWhile Char.isDigit) where
  readFirst_eq := by
    rw [readFirst_minus, readNegative]
    simp [h]
    rfl
  front := List.takeWhile_prefix _
  mem := Pattern.cons_mem_number_iff.2 (.inr ⟨rfl, h, fun _ => List.mem_takeWhile_imp⟩)

/-- A digit begins a number, unless it is the zero of a hexadecimal one. -/
theorem begins_number (h : c.isDigit = true) (hx : ¬(c = '0' ∧ hexDigitsBehindX cs ≠ [])) :
    Begins .number c cs (cs.takeWhile Char.isDigit) where
  readFirst_eq := by
    rw [readFirst_of_isDigit h, readNumber, if_neg hx, Pattern.read,
      Pattern.decimalValue_of_isDigit h]
  front := List.takeWhile_prefix _
  mem := Pattern.cons_mem_number_iff.2
    (.inl (List.forall_mem_cons.2 ⟨h, fun _ => List.mem_takeWhile_imp⟩))

/-- A zero begins a hexadecimal number if an `x` and digits are behind it. -/
theorem begins_hex {x : Char} (hx : x = 'x' ∨ x = 'X') (h : ds.takeWhile Char.isHexDigit ≠ []) :
    Begins .hex '0' (x :: ds) (x :: ds.takeWhile Char.isHexDigit) where
  readFirst_eq := by
    have hdigits : hexDigitsBehindX (x :: ds) = ds.takeWhile Char.isHexDigit := if_pos hx
    rw [readFirst_of_isDigit (by decide), readNumber, hdigits, if_pos ⟨rfl, h⟩]
    rfl
  front := List.cons_prefix_cons.2 ⟨rfl, List.takeWhile_prefix _⟩
  mem := Pattern.cons_mem_hex_iff.2 ⟨rfl, x, _, rfl, hx, h, fun _ => List.mem_takeWhile_imp⟩

/-- A comma, an equals sign and an ampersand are pieces by themselves. -/
theorem begins_sign (h : readFirst c cs = (p.read [c], 0)) (hmem : [c] ∈ p.language) :
    Begins p c cs [] :=
  ⟨h, List.nil_prefix, hmem⟩

theorem exists_of_hexDigitsBehindX (h : hexDigitsBehindX cs ≠ []) :
    ∃ x es, cs = x :: es ∧ (x = 'x' ∨ x = 'X') ∧ es.takeWhile Char.isHexDigit ≠ [] := by
  unfold hexDigitsBehindX at h
  split at h
  · exact absurd rfl h
  split at h
  · next hx => exact ⟨_, _, rfl, hx, h⟩
  · exact absurd rfl h

/-! ## The first piece is the longest match -/

/-- Characters of a class at the front of a text are among those that are taken. -/
theorem length_le_takeWhile {f : Char → Bool} (h : ds <+: cs) (hds : ∀ d ∈ ds, f d = true) :
    ds.length ≤ (cs.takeWhile f).length := by
  obtain ⟨es, rfl⟩ := h
  rw [List.takeWhile_append_of_pos hds, List.length_append]
  exact Nat.le_add_right ..

theorem takeWhile_ne_nil {f : Char → Bool} (h : ds <+: cs) (hne : ds ≠ [])
    (hds : ∀ d ∈ ds, f d = true) : cs.takeWhile f ≠ [] :=
  List.ne_nil_of_length_pos
    (Nat.lt_of_lt_of_le (List.length_pos_of_ne_nil hne) (length_le_takeWhile h hds))

/-- If a pattern matches at the front of a text, its first piece is a match that is as long
    at least, and one of the same pattern if it is as long. -/
theorem exists_begins_of_mem (h : c :: ds ∈ q.language) (hds : ds <+: cs) :
    ∃ p w, Begins p c cs w ∧ ds.length ≤ w.length ∧ (ds.length = w.length → p = q) := by
  cases q with
  | blanks =>
    obtain ⟨hc, hrun⟩ := List.forall_mem_cons.1 (Pattern.mem_blanks_iff.1 h).2
    exact ⟨_, _, begins_blanks hc cs, length_le_takeWhile hds hrun, fun _ => rfl⟩
  | comment =>
    obtain ⟨rfl, hline⟩ := Pattern.cons_mem_comment_iff.1 h
    have hrun : ∀ d ∈ ds, decide (d ≠ '\n') = true := fun d hd =>
      decide_eq_true (ne_of_mem_of_not_mem hd hline)
    exact ⟨_, _, begins_comment cs, length_le_takeWhile hds hrun, fun _ => rfl⟩
  | directive =>
    obtain ⟨rfl, hname⟩ := Pattern.cons_mem_directive_iff.1 h
    cases ds with
    | nil => exact hname.elim
    | cons d ds =>
      obtain ⟨cs, rfl⟩ := hds
      exact ⟨_, _, begins_directive hname.1 (ds ++ cs), Nat.succ_le_succ
        (length_le_takeWhile (List.prefix_append ds cs) hname.2), fun _ => rfl⟩
  | identifier =>
    have hname := Pattern.mem_identifier_iff.1 h
    exact ⟨_, _, begins_identifier hname.1 cs, length_le_takeWhile hds hname.2, fun _ => rfl⟩
  | number =>
    rcases Pattern.cons_mem_number_iff.1 h with hall | ⟨rfl, hne, hrun⟩
    · obtain ⟨hc, hrun⟩ := List.forall_mem_cons.1 hall
      by_cases hx : c = '0' ∧ hexDigitsBehindX cs ≠ []
      · obtain ⟨rfl, hx⟩ := hx
        obtain ⟨x, es, rfl, hx, hne⟩ := exists_of_hexDigitsBehindX hx
        -- The digits end before the `x`, and the hexadecimal number is longer.
        cases ds with
        | nil => exact ⟨_, _, begins_hex hx hne, Nat.zero_le _, nofun⟩
        | cons d ds =>
          obtain ⟨rfl, -⟩ := List.cons_prefix_cons.1 hds
          have hd := hrun d List.mem_cons_self
          rcases hx with rfl | rfl <;> exact nomatch hd
      · exact ⟨_, _, begins_number hc hx, length_le_takeWhile hds hrun, fun _ => rfl⟩
    · exact ⟨_, _, begins_negative (takeWhile_ne_nil hds hne hrun),
        length_le_takeWhile hds hrun, fun _ => rfl⟩
  | hex =>
    obtain ⟨rfl, x, es, rfl, hx, hne, hrun⟩ := Pattern.cons_mem_hex_iff.1 h
    obtain ⟨cs, rfl⟩ := hds
    have hfront : es <+: es ++ cs := List.prefix_append es cs
    exact ⟨_, _, begins_hex hx (takeWhile_ne_nil hfront hne hrun),
      Nat.succ_le_succ (length_le_takeWhile hfront hrun), fun _ => rfl⟩
  | comma | equals | ampersand =>
    obtain ⟨rfl, rfl⟩ := Pattern.cons_mem_one_iff.1 h
    exact ⟨_, [], begins_sign rfl h, Nat.le_refl 0, fun _ => rfl⟩

/-- One character that is no digit is no match if it is stray, as only a number can be too
    large. -/
theorem not_begins_of_stray (hc : c.isDigit ≠ true) (h : readFirst c cs = (.stray, 0)) :
    ¬Begins p c cs w := by
  rintro ⟨hread, -, hmem⟩
  obtain ⟨hstray, hlength⟩ := Prod.mk.inj (h.symm.trans hread)
  obtain rfl := List.eq_nil_of_length_eq_zero hlength.symm
  cases p with
  | number =>
    rcases Pattern.cons_mem_number_iff.1 hmem with hall | ⟨-, hne, -⟩
    · exact hc (hall c List.mem_cons_self)
    · exact hne rfl
  | hex =>
    obtain ⟨-, _, _, ⟨⟩, -⟩ := Pattern.cons_mem_hex_iff.1 hmem
  | _ => exact nomatch hstray

/-- No pattern matches at such a character. -/
theorem unmatched_of_stray (hc : c.isDigit ≠ true) (h : readFirst c cs = (.stray, 0)) :
    Unmatched (c :: cs) := by
  intro p w hw hfront
  cases w with
  | nil => exact p.nil_not_mem_language hw
  | cons d ds =>
    obtain ⟨rfl, hds⟩ := List.cons_prefix_cons.1 hfront
    obtain ⟨q, v, hbegins, -⟩ := exists_begins_of_mem hw hds
    exact not_begins_of_stray hc h hbegins

/-! What a dot, a minus sign and a digit begin. -/

theorem begins_or_stray_dot (cs : List Char) :
    (∃ p w, Begins p '.' cs w) ∨ readFirst '.' cs = (.stray, 0) := by
  cases cs with
  | nil => exact .inr rfl
  | cons d ds =>
    by_cases hd : Ascii.isNameStart d = true
    · exact .inl ⟨_, _, begins_directive hd ds⟩
    · refine .inr ?_
      rw [readFirst_dot, readDirective, if_neg hd]

theorem begins_or_stray_minus (cs : List Char) :
    (∃ p w, Begins p '-' cs w) ∨ readFirst '-' cs = (.stray, 0) := by
  by_cases hdigits : cs.takeWhile Char.isDigit = []
  · refine .inr ?_
    rw [readFirst_minus, readNegative]
    simp [hdigits]
  · exact .inl ⟨_, _, begins_negative hdigits⟩

theorem exists_begins_of_isDigit (h : c.isDigit = true) (cs : List Char) :
    ∃ p w, Begins p c cs w := by
  by_cases hx : c = '0' ∧ hexDigitsBehindX cs ≠ []
  · obtain ⟨rfl, hx⟩ := hx
    obtain ⟨x, es, rfl, hx, hne⟩ := exists_of_hexDigitsBehindX hx
    exact ⟨_, _, begins_hex hx hne⟩
  · exact ⟨_, _, begins_number h hx⟩

/-- The first piece is a match of a pattern, or else it is one character, and no pattern
    matches there. -/
theorem begins_or_stray (c : Char) (cs : List Char) :
    (∃ p w, Begins p c cs w) ∨ readFirst c cs = (.stray, 0) ∧ Unmatched (c :: cs) := by
  by_cases hdigit : c.isDigit = true
  · exact .inl (exists_begins_of_isDigit hdigit cs)
  suffices (∃ p w, Begins p c cs w) ∨ readFirst c cs = (.stray, 0) from
    this.imp_right fun h => ⟨h, unmatched_of_stray hdigit h⟩
  -- In the order of the alternatives.
  by_cases hblank : isBlank c = true
  · exact .inl ⟨_, _, begins_blanks hblank cs⟩
  by_cases hcomment : c = ';'
  · subst hcomment
    exact .inl ⟨_, _, begins_comment cs⟩
  by_cases hcomma : c = ','
  · subst hcomma
    exact .inl ⟨.comma, [], begins_sign rfl (Pattern.cons_mem_one_iff.2 ⟨rfl, rfl⟩)⟩
  by_cases hequals : c = '='
  · subst hequals
    exact .inl ⟨.equals, [], begins_sign rfl (Pattern.cons_mem_one_iff.2 ⟨rfl, rfl⟩)⟩
  by_cases hampersand : c = '&'
  · subst hampersand
    exact .inl ⟨.ampersand, [], begins_sign rfl (Pattern.cons_mem_one_iff.2 ⟨rfl, rfl⟩)⟩
  by_cases hname : Ascii.isNameStart c = true
  · exact .inl ⟨_, _, begins_identifier hname cs⟩
  by_cases hdot : c = '.'
  · subst hdot
    exact begins_or_stray_dot cs
  by_cases hminus : c = '-'
  · subst hminus
    exact begins_or_stray_minus cs
  refine .inr ?_
  simp [readFirst, hblank, hcomment, hcomma, hequals, hampersand, hname, hdot, hminus, hdigit]

/-- The first piece is the longest match, if it is a match. -/
theorem Begins.longest (h : Begins p c cs w) : Longest p (c :: w) (c :: cs) where
  mem := h.mem
  front := List.cons_prefix_cons.2 ⟨rfl, h.front⟩
  length_le q v hv hfront := by
    cases v with
    | nil => exact Nat.zero_le _
    | cons d ds =>
      obtain ⟨rfl, hds⟩ := List.cons_prefix_cons.1 hfront
      obtain ⟨_, v, hbegins, hle, -⟩ := exists_begins_of_mem hv hds
      have hlength : v.length = w.length :=
        (Prod.mk.inj (hbegins.readFirst_eq.symm.trans h.readFirst_eq)).2
      exact Nat.succ_le_succ (hlength ▸ hle)

/-- The longest match is the first piece, and of the pattern that it is read by. -/
theorem Longest.begins (h : Longest p (c :: w) (c :: cs)) : Begins p c cs w := by
  obtain ⟨-, hfront⟩ := List.cons_prefix_cons.1 h.front
  obtain ⟨q, v, hbegins, hle, heq⟩ := exists_begins_of_mem h.mem hfront
  have hge : v.length ≤ w.length :=
    Nat.le_of_succ_le_succ (h.length_le q (c :: v) hbegins.mem hbegins.longest.front)
  have hlength := Nat.le_antisymm hle hge
  obtain rfl := heq hlength
  rwa [(List.prefix_of_prefix_length_le hfront hbegins.front hle).eq_of_length hlength]

/-! ## Pieces -/

/-- The piece that is read is the next one. -/
theorem next_readFirst (c : Char) (cs : List Char) :
    Next (c :: cs) ((readFirst c cs).1, c :: cs.take (readFirst c cs).2)
      (cs.drop (readFirst c cs).2) := by
  rcases begins_or_stray c cs with ⟨p, w, h⟩ | ⟨hread, h⟩
  · obtain ⟨rest, rfl⟩ := h.front
    rw [h.readFirst_eq, List.take_left, List.drop_left]
    exact .longest h.longest
  · rw [hread]
    exact .stray h

/-- The next piece is the one that is read. -/
theorem Next.eq_readFirst (h : Next (c :: cs) piece rest) :
    piece = ((readFirst c cs).1, c :: cs.take (readFirst c cs).2) ∧
      rest = cs.drop (readFirst c cs).2 := by
  generalize htext : c :: cs = text at h
  cases h with
  | @longest p w rest h =>
    cases w with
    | nil => exact absurd h.mem p.nil_not_mem_language
    | cons d ds =>
      rw [List.cons_append] at htext h
      obtain ⟨rfl, rfl⟩ := List.cons.inj htext
      rw [h.begins.readFirst_eq, List.take_left, List.drop_left]
      exact ⟨rfl, rfl⟩
  | stray h =>
    obtain ⟨rfl, rfl⟩ := List.cons.inj htext
    rcases begins_or_stray c cs with ⟨p, w, hbegins⟩ | ⟨hread, -⟩
    · exact absurd hbegins.longest.front (h p _ hbegins.mem)
    · rw [hread]
      exact ⟨rfl, rfl⟩

/-- A piece and what is left make up the text. -/
theorem Next.text_eq (h : Next cs piece rest) : cs = piece.2 ++ rest := by
  cases h <;> rfl

theorem Next.ne_nil (h : Next cs piece rest) : piece.2 ≠ [] := by
  cases h with
  | @longest p w rest h => exact fun hw => p.nil_not_mem_language (hw ▸ h.mem)
  | stray => exact List.cons_ne_nil _ _

theorem not_next_nil : ¬Next [] piece rest := fun h =>
  h.ne_nil (List.append_eq_nil_iff.1 h.text_eq.symm).1

/-- The next piece is the longest match of a pattern, or one character. -/
theorem Next.longest_or_stray {r : Reading} (h : Next cs (r, w) rest) :
    (∃ p, Longest p w cs ∧ r = p.read w) ∨ r = .stray ∧ ∃ c, w = [c] ∧ Unmatched cs := by
  generalize hpiece : (r, w) = piece at h
  cases h with
  | longest h =>
    obtain ⟨rfl, rfl⟩ := Prod.mk.inj hpiece
    exact .inl ⟨_, h, rfl⟩
  | stray h =>
    obtain ⟨rfl, rfl⟩ := Prod.mk.inj hpiece
    exact .inr ⟨rfl, _, rfl, h⟩

/-- Patterns that have the longest match in common read it the same. -/
theorem Longest.read_eq (h : Longest p w cs) (hq : w ∈ q.language) : p.read w = q.read w := by
  have h' : Longest q w cs := ⟨hq, h.front, h.length_le⟩
  cases w with
  | nil => exact absurd hq q.nil_not_mem_language
  | cons c ds =>
    obtain ⟨rest, rfl⟩ := h.front
    rw [List.cons_append] at h h'
    exact (Prod.mk.inj (h.begins.readFirst_eq.symm.trans h'.begins.readFirst_eq)).1

/-- The next piece is read by the pattern that it matches. -/
theorem Next.read_eq {r : Reading} (h : Next cs (r, w) rest) (hq : w ∈ q.language) :
    r = q.read w := by
  rcases h.longest_or_stray with ⟨p, hp, rfl⟩ | ⟨-, c, rfl, hunmatched⟩
  · exact hp.read_eq hq
  · exact absurd ⟨rest, h.text_eq.symm⟩ (hunmatched q _ hq)

/-- Something is taken off the text with each piece. -/
theorem Next.length_lt (h : Next cs piece rest) : rest.length < cs.length := by
  rw [h.text_eq, List.length_append]
  exact Nat.lt_add_of_pos_left (List.length_pos_of_ne_nil h.ne_nil)

/-- No text has one piece behind the other without end. -/
theorem wellFounded_next : WellFounded fun rest cs => ∃ piece, Next cs piece rest :=
  Subrelation.wf (fun ⟨_, h⟩ => h.length_lt) (measure List.length).wf

/-- A text is divided into its pieces, and in no other way. -/
theorem cuts_iff : Cuts cs ps ↔ pieces cs = ps := by
  constructor
  · intro h
    induction h with
    | nil => rw [pieces]
    | @cons cs rest piece ps hnext _ ih =>
      cases cs with
      | nil => exact absurd hnext not_next_nil
      | cons c cs =>
        obtain ⟨rfl, rfl⟩ := hnext.eq_readFirst
        rw [pieces, ih]
  · rintro rfl
    fun_induction pieces cs with
    | case1 => exact .nil
    | case2 c cs ih => exact .cons (next_readFirst c cs) ih

/-- There are no more pieces than characters. -/
theorem Cuts.length_le (h : Cuts cs ps) : ps.length ≤ cs.length := by
  induction h with
  | nil => exact Nat.le_refl 0
  | cons hnext _ ih => exact Nat.lt_of_le_of_lt ih hnext.length_lt

end Machine32.Token
