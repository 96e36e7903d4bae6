import Mathlib.Data.List.TakeWhile
import Machine32.Assembly.Line
import Machine32.Proofs.Result

/-!
# Reading tokens back

A token is read back from any of its spellings, whatever text comes behind it,
as long as that text does not go on with a character of a name: a longer piece
could begin there then.

* `lexed` is what a text is read as, its blanks left out: it can be computed
  from the left, one word, blank or separator at a time;
* `Line.parse_of_lexed`: a line depends on nothing else;
* `Line.named_of_parse`: the names of a line are spelled as names.
-/

namespace Machine32

/-- The spelling of a name. -/
def IsName : List Char → Prop
  | [] => False
  | c :: cs => Ascii.isNameStart c = true ∧ ∀ d ∈ cs, Ascii.isNameChar d = true

instance (cs : List Char) : Decidable (IsName cs) :=
  match cs with
  | [] => inferInstanceAs (Decidable False)
  | c :: cs =>
    decidable_of_iff (Ascii.isNameStart c = true ∧ cs.all Ascii.isNameChar = true)
      (and_congr_right' List.all_eq_true)

namespace Token

/-! ## Characters -/

theorem isNameChar_of_isDigit {c : Char} (h : c.isDigit = true) : Ascii.isNameChar c = true := by
  simp [Ascii.isNameChar, Char.isAlphanum, h]

theorem isNameChar_of_isHexDigit {c : Char} (h : c.isHexDigit = true) :
    Ascii.isNameChar c = true := by
  have halpha : c.isDigit = true ∨ c.isAlpha = true := by
    delta Char.isHexDigit at h
    delta Char.isAlpha Char.isUpper Char.isLower
    simp only [Bool.or_eq_true, Bool.and_eq_true, decide_eq_true_eq] at h ⊢
    grind
  rcases halpha with h | h <;> simp [Ascii.isNameChar, Char.isAlphanum, h]

/-- The text behind a word does not go on with it. -/
def Detached (rest : List Char) : Prop :=
  ∀ c ∈ rest.head?, Ascii.isNameChar c = false

theorem detached_nil : Detached [] := by
  rintro c ⟨⟩

theorem detached_cons {c : Char} {cs : List Char} (h : Ascii.isNameChar c = false) :
    Detached (c :: cs) := by
  rintro d ⟨⟩
  exact h

/-- A word ends where the text behind it does not go on with its class. -/
theorem takeWhile_append_eq_left {p : Char → Bool} {cs rest : List Char} (hcs : ∀ c ∈ cs, p c)
    (hrest : ∀ c ∈ rest.head?, p c = false) : (cs ++ rest).takeWhile p = cs := by
  rw [List.takeWhile_append_of_pos hcs]
  cases rest with
  | nil => exact List.append_nil cs
  | cons c rest => rw [List.takeWhile_cons_of_neg (by simp [hrest c rfl]), List.append_nil]

theorem Detached.not_isDigit {rest : List Char} (h : Detached rest) :
    ∀ c ∈ rest.head?, c.isDigit = false := fun c hc =>
  Bool.eq_false_iff.2 fun hd => Bool.eq_false_iff.1 (h c hc) (isNameChar_of_isDigit hd)

theorem Detached.not_isHexDigit {rest : List Char} (h : Detached rest) :
    ∀ c ∈ rest.head?, c.isHexDigit = false := fun c hc =>
  Bool.eq_false_iff.2 fun hd => Bool.eq_false_iff.1 (h c hc) (isNameChar_of_isHexDigit hd)

/-! ## Spellings -/

/-- A spelling of a token that is a word. -/
inductive Spells : Token → List Char → Prop
  | directive {name : List Char} : IsName name →
      Spells (.directive (String.ofList name)) ('.' :: name)
  | identifier {name : List Char} : IsName name → Spells (.identifier (String.ofList name)) name
  | number {ds : List Char} : ds ≠ [] → (∀ d ∈ ds, d.isDigit = true) →
      Fits64 (Numeral.value 10 ds) → Spells (.number (Numeral.value 10 ds)) ds
  | negative {ds : List Char} : ds ≠ [] → (∀ d ∈ ds, d.isDigit = true) →
      Fits64 (-(Numeral.value 10 ds : Int)) →
      Spells (.number (-(Numeral.value 10 ds : Int))) ('-' :: ds)
  | hex {x : Char} {ds : List Char} : x = 'x' ∨ x = 'X' → ds ≠ [] →
      (∀ d ∈ ds, d.isHexDigit = true) → Fits64 (Numeral.value 16 ds) →
      Spells (.hex (Numeral.value 16 ds)) ('0' :: x :: ds)

/-- A character of a class is none that is not in it. -/
theorem ne_of_class {p : Char → Bool} {c d : Char} (hc : p c = true) (hd : p d = false) :
    c ≠ d := by
  rintro rfl
  exact nomatch hc.symm.trans hd

theorem ne_of_mem {p : Char → Bool} {c : Char} {ds : List Char} (hc : p c = true)
    (hds : ds.any p = false) : ∀ d ∈ ds, c ≠ d := fun d hd =>
  ne_of_class hc (Bool.eq_false_iff.2 (List.any_eq_false.1 hds d hd))

theorem isBlank_eq_false {p : Char → Bool} {c : Char} (hc : p c = true)
    (hblanks : [' ', '\t', '\r', '\x0c'].any p = false) : isBlank c = false := by
  simp [isBlank, ne_of_mem hc hblanks]

/-- A character that begins a name begins nothing else. -/
theorem readFirst_of_isNameStart {c : Char} (h : Ascii.isNameStart c = true) (cs : List Char) :
    readFirst c cs = (.token (.identifier (String.ofList (c :: cs.takeWhile Ascii.isNameChar))),
      (cs.takeWhile Ascii.isNameChar).length) := by
  have hblank : isBlank c = false := isBlank_eq_false h (by decide)
  have hne : ∀ d ∈ [';', ',', '=', '&'], c ≠ d := ne_of_mem h (by decide)
  simp [readFirst, hblank, h, hne]

/-- A digit begins nothing but a number. -/
theorem readFirst_of_isDigit {c : Char} (h : c.isDigit = true) (cs : List Char) :
    readFirst c cs = readNumber c cs := by
  have hblank : isBlank c = false := isBlank_eq_false h (by decide)
  have hne : ∀ d ∈ [';', ',', '=', '&', '_', '.', '-'], c ≠ d := ne_of_mem h (by decide)
  have halpha : c.isAlpha = false := by
    delta Char.isDigit at h
    delta Char.isAlpha Char.isUpper Char.isLower
    simp only [Bool.or_eq_false_iff, Bool.and_eq_true, Bool.and_eq_false_iff, decide_eq_true_eq,
      decide_eq_false_iff_not] at h ⊢
    grind
  have hstart : Ascii.isNameStart c = false := by
    simp [Ascii.isNameStart, halpha, hne]
  simp [readFirst, hblank, hstart, h, hne]

theorem readFirst_dot (cs : List Char) : readFirst '.' cs = readDirective cs := rfl

theorem readFirst_minus (cs : List Char) : readFirst '-' cs = readNegative cs := rfl

/-- No `x` with digits behind it continues a zero. -/
theorem hexDigitsBehindX_append {cs rest : List Char} (hcs : ∀ c ∈ cs, c.isDigit = true)
    (hrest : Detached rest) : hexDigitsBehindX (cs ++ rest) = [] := by
  have hx {x : Char} (hx : x ≠ 'x' ∧ x ≠ 'X') (ds : List Char) :
      hexDigitsBehindX (x :: ds) = [] := by
    simp [hexDigitsBehindX, hx]
  cases cs with
  | cons c cs =>
    have hc := hcs c List.mem_cons_self
    exact hx ⟨ne_of_class hc (by decide), ne_of_class hc (by decide)⟩ _
  | nil =>
    cases rest with
    | nil => rfl
    | cons c rest =>
      have hc : (!Ascii.isNameChar c) = true := by rw [hrest c rfl]; rfl
      exact hx ⟨ne_of_class (p := fun c => !Ascii.isNameChar c) hc (by decide),
        ne_of_class (p := fun c => !Ascii.isNameChar c) hc (by decide)⟩ _

/-- The first piece of a text that begins with a spelled token is the token. -/
theorem Spells.readFirst {t : Token} {c : Char} {cs rest : List Char} (h : Spells t (c :: cs))
    (hrest : Detached rest) : readFirst c (cs ++ rest) = (.token t, cs.length) := by
  have hdigits {ds : List Char} (hds : ∀ d ∈ ds, d.isDigit = true) :
      (ds ++ rest).takeWhile Char.isDigit = ds :=
    takeWhile_append_eq_left hds hrest.not_isDigit
  generalize hw : c :: cs = w at h
  -- The first character tells which alternative reads the text.
  cases h with
  | directive hn =>
    obtain ⟨rfl, rfl⟩ := List.cons.inj hw
    cases cs with
    | nil => exact hn.elim
    | cons d ds =>
      rw [readFirst_dot, List.cons_append, readDirective, if_pos hn.1,
        takeWhile_append_eq_left hn.2 hrest]
  | identifier hn =>
    subst hw
    rw [readFirst_of_isNameStart hn.1, takeWhile_append_eq_left hn.2 hrest]
  | number hne hds hfit =>
    subst hw
    have hcs : ∀ d ∈ cs, d.isDigit = true := fun d hd => hds d (List.mem_cons_of_mem _ hd)
    rw [readFirst_of_isDigit (hds c List.mem_cons_self), readNumber,
      hexDigitsBehindX_append hcs hrest, hdigits hcs]
    simp [numeral, hfit]
  | negative hne hds hfit =>
    obtain ⟨rfl, rfl⟩ := List.cons.inj hw
    rw [readFirst_minus, readNegative, hdigits hds]
    simp [numeral, hfit, hne]
  | hex hx hne hds hfit =>
    obtain ⟨rfl, rfl⟩ := List.cons.inj hw
    have hdigits := takeWhile_append_eq_left hds hrest.not_isHexDigit
    rw [readFirst_of_isDigit (by decide), readNumber, List.cons_append, hexDigitsBehindX,
      if_pos hx, hdigits]
    simp [numeral, hfit, hne]

/-- A token is not spelled by the empty text. -/
theorem Spells.ne_nil {t : Token} {w : List Char} (h : Spells t w) : w ≠ [] := by
  cases h with
  | directive | negative | hex => exact List.cons_ne_nil _ _
  | identifier hn =>
    rintro rfl
    exact hn
  | number hne => exact hne

/-! ## What a text is read as -/

/-- What the pieces of a text are read as, without the blanks. -/
def lexed (cs : List Char) : List Reading :=
  ((pieces cs).map (·.1)).filter (· ≠ .blank)

@[simp] theorem lexed_nil : lexed [] = [] := by
  rw [lexed, pieces]
  rfl

/-- The first piece of a text, and what is read behind it. -/
theorem lexed_append {c : Char} {cs rest : List Char} {r : Reading}
    (h : readFirst c (cs ++ rest) = (r, cs.length)) :
    lexed (c :: cs ++ rest) = [r].filter (· ≠ .blank) ++ lexed rest := by
  rw [lexed, List.cons_append, pieces, h, List.map_cons, List.drop_left]
  exact List.filter_append [r] _

/-- A spelled token is read as the token. -/
theorem lexed_spells {t : Token} {w rest : List Char} (h : Spells t w) (hrest : Detached rest) :
    lexed (w ++ rest) = .token t :: lexed rest := by
  cases w with
  | nil => exact absurd rfl h.ne_nil
  | cons c cs => rw [lexed_append (h.readFirst hrest)]; rfl

/-- A separator is read by itself. -/
theorem lexed_separator {c : Char} {t : Token} {cs : List Char}
    (h : readFirst c cs = (.token t, 0)) : lexed (c :: cs) = .token t :: lexed cs := by
  have h' : readFirst c ([] ++ cs) = (.token t, ([] : List Char).length) := h
  exact lexed_append h'

theorem lexed_comma (cs : List Char) : lexed (',' :: cs) = .token .comma :: lexed cs :=
  lexed_separator rfl

theorem lexed_equals (cs : List Char) : lexed ('=' :: cs) = .token .equals :: lexed cs :=
  lexed_separator rfl

/-- Nothing is read of a blank, which takes the blanks behind it along. -/
theorem lexed_blank {c : Char} (h : isBlank c = true) (cs : List Char) :
    lexed (c :: cs) = lexed cs := by
  -- A run of blanks is one piece, and what is left begins behind it.
  have hrun {d : Char} (hd : isBlank d = true) (ds : List Char) :
      lexed (d :: ds) = lexed (ds.dropWhile isBlank) := by
    have hread : readFirst d (ds.takeWhile isBlank ++ ds.dropWhile isBlank) =
        (.blank, (ds.takeWhile isBlank).length) := by
      rw [List.takeWhile_append_dropWhile, readFirst, if_pos hd]
    have h := lexed_append hread
    rwa [List.cons_append, List.takeWhile_append_dropWhile] at h
  rw [hrun h]
  cases cs with
  | nil => rfl
  | cons d ds =>
    by_cases hd : isBlank d = true
    · rw [hrun hd, List.dropWhile_cons_of_pos hd]
    · rw [List.dropWhile_cons_of_neg hd]

end Token

namespace Line

open Token

/-- A text that is read as tokens alone has these tokens. -/
theorem tokens_ofPieces {ps : List (Reading × List Char)} {ts : List Token} (n : Nat)
    (h : (ps.map (·.1)).filter (· ≠ .blank) = ts.map .token) :
    tokens (Lexeme.ofPieces n ps) = .ok ts := by
  induction ps generalizing n ts with
  | nil =>
    rw [List.map_eq_nil_iff.1 h.symm]
    rfl
  | cons p ps ih =>
    obtain ⟨r, cs⟩ := p
    cases r with
    | blank => exact ih _ h
    | stray =>
      cases ts with
      | nil => exact nomatch h
      | cons t ts => exact nomatch (List.cons.inj h).1
    | token t =>
      cases ts with
      | nil => exact nomatch h
      | cons u us =>
        obtain ⟨hu, hus⟩ := List.cons.inj h
        rw [Lexeme.ofPieces, tokens, ih _ hus, ← Reading.token.inj hu]
        rfl

/-- A line that is read as tokens alone is what they make up, the commas left
    out. -/
theorem parse_of_lexed {text : String} {ts : List Token}
    (h : lexed text.toList = ts.map .token) : parse text = ofTokens (ts.filter (· ≠ .comma)) := by
  rw [parse, Lexeme.scan, tokens_ofPieces 0 h]
  rfl

end Line

/-! ## Names -/

namespace Token

/-- The name of a token, if it has one, is spelled as a name. -/
def Named : Token → Prop
  | .directive name | .identifier name => IsName name.toList
  | _ => True

theorem named_of_numeral {f : Int → Token} (hf : ∀ n, (f n).Named) {n : Int} {t : Token}
    (h : numeral f n = .token t) : t.Named := by
  rw [numeral] at h
  split at h
  · obtain rfl := Reading.token.inj h
    exact hf n
  · exact nomatch h

theorem isName_takeWhile {c : Char} (h : Ascii.isNameStart c = true) (cs : List Char) :
    IsName (String.ofList (c :: cs.takeWhile Ascii.isNameChar)).toList := by
  rw [String.toList_ofList]
  exact ⟨h, fun d hd => List.mem_takeWhile_imp hd⟩

/-- A name that is read begins as a name does, and ends where its characters do. -/
theorem named_of_readFirst {c : Char} {cs : List Char} {t : Token}
    (h : (readFirst c cs).1 = .token t) : t.Named := by
  simp only [readFirst] at h
  -- In the order of the alternatives: only names, directives and numbers carry data.
  split at h
  · cases h
  split at h
  · cases h
  split at h
  · obtain rfl := Reading.token.inj h; trivial
  split at h
  · obtain rfl := Reading.token.inj h; trivial
  split at h
  · obtain rfl := Reading.token.inj h; trivial
  split at h
  · next hstart =>
    obtain rfl := Reading.token.inj h
    exact isName_takeWhile hstart cs
  split at h
  · cases cs with
    | nil => cases h
    | cons d ds =>
      rw [readDirective] at h
      split at h
      · next hstart =>
        obtain rfl := Reading.token.inj h
        exact isName_takeWhile hstart ds
      · cases h
  split at h
  · rw [readNegative] at h
    split at h
    · cases h
    · exact named_of_numeral (f := .number) (fun _ => True.intro) h
  split at h
  · simp only [readNumber] at h
    split at h
    · dsimp only at h
      exact named_of_numeral (f := .hex) (fun _ => True.intro) h
    · dsimp only at h
      exact named_of_numeral (f := .number) (fun _ => True.intro) h
  · cases h

theorem named_of_mem_pieces {t : Token} {w cs : List Char} (h : (.token t, w) ∈ pieces cs) :
    t.Named := by
  fun_induction pieces cs with
  | case1 => exact absurd h List.not_mem_nil
  | case2 c cs ih =>
    rcases List.mem_cons.1 h with h | h
    · exact named_of_readFirst (Prod.mk.inj h).1.symm
    · exact ih h

end Token

namespace Line

open Token

/-- The tokens of a line are pieces of its text. -/
theorem mem_pieces_of_tokens {ps : List (Reading × List Char)} {n : Nat} {ts : List Token}
    (h : tokens (Lexeme.ofPieces n ps) = .ok ts) {t : Token} (ht : t ∈ ts) :
    ∃ w, (.token t, w) ∈ ps := by
  induction ps generalizing n ts with
  | nil =>
    obtain rfl := Except.ok.inj h
    exact absurd ht List.not_mem_nil
  | cons p ps ih =>
    obtain ⟨r, cs⟩ := p
    cases r with
    | blank =>
      obtain ⟨w, hw⟩ := ih h ht
      exact ⟨w, List.mem_cons_of_mem _ hw⟩
    | stray => exact nomatch h
    | token u =>
      simp only [Lexeme.ofPieces, tokens, Except.bind_eq_ok_iff, Except.pure_eq_ok_iff] at h
      obtain ⟨us, hus, rfl⟩ := h
      rcases List.mem_cons.1 ht with rfl | ht
      · exact ⟨cs, List.mem_cons_self⟩
      · obtain ⟨w, hw⟩ := ih hus ht
        exact ⟨w, List.mem_cons_of_mem _ hw⟩

/-- The name that a line defines, if it defines one, is spelled as a name. -/
def Named : Line → Prop
  | directive name | assignment name _ => IsName name.toList
  | statement .. => True

/-- The names of a line are names of its tokens. -/
theorem named_of_ofTokens {ts : List Token} {line : Line} (hts : ∀ t ∈ ts, t.Named)
    (h : ofTokens ts = .ok (some line)) : line.Named := by
  unfold ofTokens at h
  split at h
  · exact nomatch h
  · obtain rfl := Option.some.inj (Except.ok.inj h)
    exact hts _ List.mem_cons_self
  · exact nomatch h
  · next name ts =>
    -- An assignment has its name in front, a statement defines none.
    split at h
    · obtain ⟨_, ha, hline⟩ := Except.map_eq_ok_iff.1 h
      obtain rfl := Option.some.inj hline
      unfold assignmentOfTokens at ha
      split at ha
      · obtain rfl := Except.ok.inj ha
        exact hts _ List.mem_cons_self
      · obtain rfl := Except.ok.inj ha
        exact hts _ List.mem_cons_self
      · exact nomatch ha
    · obtain ⟨_, _, hline⟩ := Except.map_eq_ok_iff.1 h
      obtain rfl := Option.some.inj hline
      trivial
  · exact nomatch h

/-- The names of a line are spelled as names. -/
theorem named_of_parse {text : String} {line : Line} (h : parse text = .ok (some line)) :
    line.Named := by
  simp only [parse, Except.bind_eq_ok_iff] at h
  obtain ⟨ts, hts, h⟩ := h
  refine named_of_ofTokens (fun t ht => ?_) h
  obtain ⟨w, hw⟩ := mem_pieces_of_tokens hts (List.mem_filter.1 ht).1
  exact named_of_mem_pieces hw

end Line

end Machine32
