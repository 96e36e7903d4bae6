import Machine32.Proofs.Numerals
import Machine32.Proofs.Assembly.Lexing

/-!
# Letter case

Where a text is divided into pieces does not depend on the case of its letters, as a
capital is in the same classes of characters as the small letter, and is a digit of
the same value.

* `Ascii.apply_toLower` is how this is shown of a class;
* `Token.pieces_map_toLower`: the pieces of a text in lower case are those of the
  text, with the names in lower case;
* `Token.eq_of_lower_eq`: what a piece is read as depends on the case of its own
  letters only.
-/

namespace Machine32

namespace Ascii

/-- The capital letter with the number `n`, from zero on. -/
def capital (n : Nat) : Char :=
  Char.ofNat ('A'.toNat + n)

/-- The capital letters are numbered without a gap. -/
theorem exists_capital {c : Char} (h : c.isUpper = true) : ∃ n < 26, c = capital n := by
  obtain ⟨hle, hge⟩ : 'A'.toNat ≤ c.toNat ∧ c.toNat ≤ 'Z'.toNat := of_decide_eq_true h
  have hlast : 'Z'.toNat = 'A'.toNat + 25 := rfl
  refine ⟨c.toNat - 'A'.toNat, by omega, ?_⟩
  rw [capital, Nat.add_sub_cancel' hle, Char.ofNat_toNat]

/-- Nothing but a capital letter is changed. -/
theorem toLower_of_not_isUpper {c : Char} (h : c.isUpper ≠ true) : c.toLower = c :=
  dif_neg fun hc => h (decide_eq_true hc)

/-- What holds the same of each capital and its small letter does not depend on the case
    of letters. -/
theorem apply_toLower {α : Type} {f : Char → α}
    (h : ∀ n < 26, f (capital n).toLower = f (capital n)) (c : Char) : f c.toLower = f c := by
  by_cases hc : c.isUpper = true
  · obtain ⟨n, hn, rfl⟩ := exists_capital hc
    exact h n hn
  · rw [toLower_of_not_isUpper hc]

/-- The capital of a letter does not depend on its case. -/
theorem toUpper_toLower (c : Char) : c.toLower.toUpper = c.toUpper :=
  apply_toLower (f := Char.toUpper) (by decide) c

theorem toLower_toLower (c : Char) : c.toLower.toLower = c.toLower :=
  apply_toLower (f := Char.toLower) (by decide) c

/-- A letter has the same size in both cases. -/
theorem utf8Size_toLower (c : Char) : c.toLower.utf8Size = c.utf8Size :=
  apply_toLower (f := Char.utf8Size) (by decide) c

end Ascii

namespace Token

/-! ## Readings in lower case -/

/-- The token with its name in lower case, if it has one. -/
def lower : Token → Token
  | directive name => directive (Ascii.lower name)
  | identifier name => identifier (Ascii.lower name)
  | t => t

/-- What a piece is read as, with a name in lower case. -/
def Reading.lower : Reading → Reading
  | token t => token t.lower
  | r => r

/-- Characters that are in the class `p` in both letter cases or in none. -/
def IgnoresCase (p : Char → Bool) : Prop :=
  ∀ c, p c.toLower = p c

theorem ignoresCase_isBlank : IgnoresCase isBlank :=
  Ascii.apply_toLower (by decide)

/-- A capital may begin a name if the small letter may. -/
theorem ignoresCase_isNameStart : IgnoresCase Ascii.isNameStart :=
  Ascii.apply_toLower (by decide)

theorem ignoresCase_isNameChar : IgnoresCase Ascii.isNameChar :=
  Ascii.apply_toLower (by decide)

theorem ignoresCase_isDigit : IgnoresCase Char.isDigit :=
  Ascii.apply_toLower (by decide)

theorem ignoresCase_ne_newline : IgnoresCase (· ≠ '\n') :=
  Ascii.apply_toLower (f := fun c => decide (c ≠ '\n')) (by decide)

/-- A capital is a digit if the small letter is. -/
theorem ignoresCase_isHexDigit : IgnoresCase Char.isHexDigit :=
  Ascii.apply_toLower (by decide)

/-- A sign is no letter in either case. -/
theorem toLower_eq_iff {d : Char}
    (hd : ∀ n < 26, Ascii.capital n ≠ d ∧ (Ascii.capital n).toLower ≠ d) (c : Char) :
    c.toLower = d ↔ c = d := by
  by_cases hc : c.isUpper = true
  · obtain ⟨n, hn, rfl⟩ := Ascii.exists_capital hc
    obtain ⟨hne, hne'⟩ := hd n hn
    exact iff_of_false hne' hne
  · rw [Ascii.toLower_of_not_isUpper hc]

/-- What a text begins with in a class is there in lower case too. -/
theorem takeWhile_map_toLower {p : Char → Bool} (hp : IgnoresCase p) (cs : List Char) :
    (cs.map Char.toLower).takeWhile p = (cs.takeWhile p).map Char.toLower := by
  rw [List.takeWhile_map]
  exact congrArg (fun q => (cs.takeWhile q).map Char.toLower) (funext hp)

/-- Digits have the same value in lower case. -/
theorem value_map_toLower (base : Nat) (ds : List Char) :
    Numeral.value base (ds.map Char.toLower) = Numeral.value base ds :=
  Numeral.value_map fun c _ => Ascii.apply_toLower (f := Numeral.digitValue) (by decide) c

/-- A number has no name that could change. -/
theorem lower_numeral {f : Int → Token} (hf : ∀ n, (f n).lower = f n) (n : Int) :
    (numeral f n).lower = numeral f n := by
  rw [numeral]
  split
  · exact congrArg _ (hf n)
  · rfl

theorem ofList_map_toLower (cs : List Char) :
    String.ofList (cs.map Char.toLower) = Ascii.lower (String.ofList cs) := by
  rw [Ascii.lower, String.toList_ofList]

/-- A directive ends at the same place in lower case, and only its name changes. -/
theorem readDirective_map_toLower (cs : List Char) :
    readDirective (cs.map Char.toLower) = ((readDirective cs).1.lower, (readDirective cs).2) := by
  cases cs with
  | nil => rfl
  | cons d ds =>
    simp only [List.map_cons, readDirective, ignoresCase_isNameStart d,
      takeWhile_map_toLower ignoresCase_isNameChar]
    split
    · rw [← List.map_cons, ofList_map_toLower, List.length_map]
      rfl
    · rfl

theorem readNegative_map_toLower (cs : List Char) :
    readNegative (cs.map Char.toLower) = ((readNegative cs).1.lower, (readNegative cs).2) := by
  simp only [readNegative, takeWhile_map_toLower ignoresCase_isDigit, value_map_toLower,
    List.length_map, List.isEmpty_map]
  split
  · rfl
  · rw [lower_numeral fun _ => rfl]

theorem hexDigitsBehindX_map_toLower (cs : List Char) :
    hexDigitsBehindX (cs.map Char.toLower) = (hexDigitsBehindX cs).map Char.toLower := by
  cases cs with
  | nil => rfl
  | cons x ds =>
    have hx := Ascii.apply_toLower (f := fun x => decide (x = 'x' ∨ x = 'X')) (by decide) x
    rw [decide_eq_decide] at hx
    simp only [List.map_cons, hexDigitsBehindX, hx, takeWhile_map_toLower ignoresCase_isHexDigit]
    split <;> rfl

/-- A number is the same in lower case, with the `x` and the digits behind it in either case. -/
theorem readNumber_map_toLower (c : Char) (cs : List Char) :
    readNumber c.toLower (cs.map Char.toLower) =
      ((readNumber c cs).1.lower, (readNumber c cs).2) := by
  have hzero : c.toLower = '0' ↔ c = '0' := toLower_eq_iff (by decide) c
  simp only [readNumber, hexDigitsBehindX_map_toLower, hzero, ne_eq, List.map_eq_nil_iff,
    takeWhile_map_toLower ignoresCase_isDigit, List.length_map]
  split
  · rw [value_map_toLower, lower_numeral fun _ => rfl]
  · rw [← List.map_cons, value_map_toLower, lower_numeral fun _ => rfl]

/-- The first piece ends at the same place in lower case. -/
theorem readFirst_map_toLower (c : Char) (cs : List Char) :
    readFirst c.toLower (cs.map Char.toLower) = ((readFirst c cs).1.lower, (readFirst c cs).2) := by
  have hsign {d : Char} (hd : ∀ n < 26, Ascii.capital n ≠ d ∧ (Ascii.capital n).toLower ≠ d) :
      (c.toLower = d) = (c = d) := propext (toLower_eq_iff hd c)
  simp only [readFirst, ignoresCase_isBlank c, ignoresCase_isNameStart c, ignoresCase_isDigit c,
    hsign (d := ';') (by decide), hsign (d := ',') (by decide), hsign (d := '=') (by decide),
    hsign (d := '&') (by decide), hsign (d := '.') (by decide), hsign (d := '-') (by decide)]
  -- In the order of the alternatives.
  split_ifs
  · rw [takeWhile_map_toLower ignoresCase_isBlank, List.length_map]
    rfl
  · rw [takeWhile_map_toLower ignoresCase_ne_newline, List.length_map]
    rfl
  · rfl
  · rfl
  · rfl
  · rw [takeWhile_map_toLower ignoresCase_isNameChar, List.length_map, ← List.map_cons,
      ofList_map_toLower]
    rfl
  · exact readDirective_map_toLower cs
  · exact readNegative_map_toLower cs
  · exact readNumber_map_toLower c cs
  · rfl

/-- A piece with its text and its name in lower case. -/
def lowerPiece (p : Reading × List Char) : Reading × List Char :=
  (p.1.lower, p.2.map Char.toLower)

/-- The pieces of a text in lower case are those of the text. -/
theorem pieces_map_toLower (cs : List Char) :
    pieces (cs.map Char.toLower) = (pieces cs).map lowerPiece := by
  fun_induction pieces cs with
  | case1 => rw [List.map_nil, pieces, List.map_nil]
  | case2 c cs ih =>
    rw [List.map_cons, pieces, readFirst_map_toLower, List.map_cons, ← ih, List.map_drop,
      lowerPiece, List.map_cons, List.map_take]

/-! ## Names as they are spelled -/

/-- The name of a token, if it has one, is the one that `cs` spells. -/
def SpelledBy (cs : List Char) : Token → Prop
  | directive name => cs = '.' :: name.toList
  | identifier name => cs = name.toList
  | _ => True

/-- A number spells no name. -/
theorem spelledBy_of_numeral {f : Int → Token} {cs : List Char} (hf : ∀ n, (f n).SpelledBy cs)
    {n : Int} {t : Token} (h : numeral f n = .token t) : t.SpelledBy cs := by
  rw [numeral] at h
  split at h
  · obtain rfl := Reading.token.inj h
    exact hf n
  · cases h

theorem take_length_takeWhile (p : Char → Bool) (cs : List Char) :
    cs.take (cs.takeWhile p).length = cs.takeWhile p :=
  (List.prefix_iff_eq_take.1 (List.takeWhile_prefix p)).symm

/-- The name of a token is spelled by the piece that is read as the token. -/
theorem spelledBy_of_readFirst {c : Char} {cs : List Char} {t : Token} {n : Nat}
    (h : readFirst c cs = (.token t, n)) : t.SpelledBy (c :: cs.take n) := by
  simp only [readFirst] at h
  -- In the order of the alternatives: a name ends where the piece ends.
  split at h
  · cases h
  split at h
  · cases h
  split at h
  · cases h; trivial
  split at h
  · cases h; trivial
  split at h
  · cases h; trivial
  split at h
  · cases h
    rw [take_length_takeWhile]
    exact String.toList_ofList.symm
  split at h
  · next hdot =>
    cases cs with
    | nil => cases h
    | cons d ds =>
      simp only [readDirective] at h
      split at h
      · cases h
        rw [hdot, List.length_cons, List.take_succ_cons, take_length_takeWhile]
        exact congrArg _ String.toList_ofList.symm
      · cases h
  split at h
  · rw [readNegative] at h
    split at h
    · cases h
    · exact spelledBy_of_numeral (f := .number) (fun _ => True.intro) (Prod.mk.inj h).1
  split at h
  · simp only [readNumber] at h
    split at h
    · exact spelledBy_of_numeral (f := .hex) (fun _ => True.intro) (Prod.mk.inj h).1
    · exact spelledBy_of_numeral (f := .number) (fun _ => True.intro) (Prod.mk.inj h).1
  · cases h

/-- So it is for all pieces of a text. -/
theorem spelledBy_of_mem_pieces {t : Token} {w cs : List Char} (h : (.token t, w) ∈ pieces cs) :
    t.SpelledBy w := by
  fun_induction pieces cs with
  | case1 => exact absurd h List.not_mem_nil
  | case2 c cs ih =>
    rcases List.mem_cons.1 h with h | h
    · obtain ⟨hr, rfl⟩ := Prod.mk.inj h
      exact spelledBy_of_readFirst (Prod.ext hr.symm rfl)
    · exact ih h

/-- Tokens of one spelling are the same if they are in lower case. -/
theorem eq_of_lower_eq {t u : Token} {w : List Char} (ht : t.SpelledBy w) (hu : u.SpelledBy w)
    (h : t.lower = u.lower) : t = u := by
  cases t <;> cases u <;> simp_all [lower, SpelledBy, String.toList_inj]

end Token

end Machine32
