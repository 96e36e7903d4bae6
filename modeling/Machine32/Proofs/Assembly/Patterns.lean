import Mathlib.Computability.Language
import Machine32.Proofs.Assembly.Lexing

/-!
# The patterns of pieces

A piece of a text that is not stray is a match of one of nine patterns. Each pattern is a
regular language, put together from classes of characters, and says what its matches are
read as:

* `Pattern.language`: the words that match a pattern;
* `Pattern.read`: what a match is read as;
* `mem_blanks_iff`, `cons_mem_number_iff` and so on: what the matches look like, from
  their first character on.
-/

namespace Machine32

open Computability

/-- The patterns of the pieces of a text. -/
inductive Pattern where
  /-- Blanks in a row. -/
  | blanks
  /-- A semicolon and the rest of the line. -/
  | comment
  /-- A dot and a name. -/
  | directive
  /-- A name. -/
  | identifier
  /-- A decimal number. -/
  | number
  /-- A hexadecimal number. -/
  | hex
  | comma
  | equals
  | ampersand
  deriving DecidableEq

namespace Pattern

/-! ## Languages -/

/-- The words of a single character of the class `p`. -/
def one (p : Char → Prop) : Language Char :=
  {w | ∃ c, p c ∧ w = [c]}

/-- The words of at least one character, all of them of the class `p`. -/
def run (p : Char → Prop) : Language Char :=
  one p * (one p)∗

/-- The characters in some ranges, both ends of which are included. -/
def Within (ranges : List (Char × Char)) (c : Char) : Prop :=
  ∃ r ∈ ranges, r.1 ≤ c ∧ c ≤ r.2

/-- The blanks within a line. -/
def blankChars : List Char :=
  [' ', '\t', '\r', '\x0c']

/-- The digits of decimal numbers. -/
def digits : List (Char × Char) :=
  [('0', '9')]

/-- The digits of hexadecimal numbers. -/
def hexDigits : List (Char × Char) :=
  [('0', '9'), ('a', 'f'), ('A', 'F')]

/-- The characters that a name begins with. -/
def letters : List (Char × Char) :=
  [('a', 'z'), ('A', 'Z'), ('_', '_')]

/-- The words that are names. -/
def names : Language Char :=
  one (Within letters) * (one (Within (letters ++ digits)))∗

/-- The words that match a pattern. -/
def language : Pattern → Language Char
  | blanks => run (· ∈ blankChars)
  | comment => one (· = ';') * (one (· ≠ '\n'))∗
  | directive => one (· = '.') * names
  | identifier => names
  | number => (1 + one (· = '-')) * run (Within digits)
  | hex => one (· = '0') * (one (· ∈ ['x', 'X']) * run (Within hexDigits))
  | comma => one (· = ',')
  | equals => one (· = '=')
  | ampersand => one (· = '&')

/-- The number that digits denote, behind a minus sign or without one. -/
def decimalValue : List Char → Int
  | '-' :: ds => -(Numeral.value 10 ds : Int)
  | ds => Numeral.value 10 ds

/-- What a match of a pattern is read as. -/
def read (p : Pattern) (w : List Char) : Token.Reading :=
  match p with
  | blanks | comment => .blank
  | directive => .token (.directive (String.ofList w.tail))
  | identifier => .token (.identifier (String.ofList w))
  | number => Token.numeral .number (decimalValue w)
  | hex => Token.numeral .hex (Numeral.value 16 (w.drop 2))
  | comma => .token .comma
  | equals => .token .equals
  | ampersand => .token .ampersand

variable {p : Char → Prop} {c : Char} {cs w : List Char} {l : Language Char}

theorem cons_mem_one_iff : c :: cs ∈ one p ↔ p c ∧ cs = [] := by
  constructor
  · rintro ⟨_, hc, ⟨⟩⟩
    exact ⟨hc, rfl⟩
  · rintro ⟨hc, rfl⟩
    exact ⟨c, hc, rfl⟩

theorem nil_not_mem_one : [] ∉ one p := by
  rintro ⟨c, -, ⟨⟩⟩

/-- The first character of a word is in the class, and what is behind it is in the language. -/
theorem cons_mem_one_mul_iff : c :: cs ∈ one p * l ↔ p c ∧ cs ∈ l := by
  rw [Language.mem_mul]
  constructor
  · rintro ⟨_, ⟨d, hd, rfl⟩, ds, hds, ⟨⟩⟩
    exact ⟨hd, hds⟩
  · rintro ⟨hc, hcs⟩
    exact ⟨[c], ⟨c, hc, rfl⟩, cs, hcs, rfl⟩

theorem nil_not_mem_one_mul : [] ∉ one p * l := by
  rw [Language.mem_mul]
  rintro ⟨_, ⟨d, -, rfl⟩, _, -, ⟨⟩⟩

/-- The words over a class have all their characters in it. -/
theorem mem_one_kstar_iff : w ∈ (one p)∗ ↔ ∀ c ∈ w, p c := by
  constructor
  · intro h c hc
    obtain ⟨ws, rfl, hws⟩ := Language.mem_kstar.1 h
    obtain ⟨v, hv, hcv⟩ := List.mem_flatten.1 hc
    obtain ⟨d, hd, rfl⟩ := hws v hv
    rwa [List.mem_singleton.1 hcv]
  · intro h
    rw [Language.mem_kstar]
    refine ⟨w.map fun c => [c], by simp [← List.flatMap_def], fun v hv => ?_⟩
    obtain ⟨c, hc, rfl⟩ := List.mem_map.1 hv
    exact ⟨c, h c hc, rfl⟩

theorem mem_run_iff : w ∈ run p ↔ w ≠ [] ∧ ∀ c ∈ w, p c := by
  cases w with
  | nil => exact iff_of_false nil_not_mem_one_mul fun h => h.1 rfl
  | cons c cs =>
    rw [run, cons_mem_one_mul_iff, mem_one_kstar_iff, List.forall_mem_cons]
    exact (and_iff_right (List.cons_ne_nil c cs)).symm

/-! ## Classes of characters -/

theorem within_append_iff {rs ss : List (Char × Char)} :
    Within (rs ++ ss) c ↔ Within rs c ∨ Within ss c := by
  simp only [Within, List.mem_append, or_and_right, exists_or]

/-- The characters in the range of digits are the digits. -/
theorem within_digits_iff : Within digits c ↔ c.isDigit = true := by
  delta Char.isDigit
  simp [Within, digits, Char.le_def]

/-- The ranges of the hexadecimal digits hold them in both letter cases. -/
theorem within_hexDigits_iff : Within hexDigits c ↔ c.isHexDigit = true := by
  delta Char.isHexDigit Char.isDigit
  simp [Within, hexDigits, Char.le_def, or_assoc]

/-- A name begins with a letter or an underscore. -/
theorem within_letters_iff : Within letters c ↔ Ascii.isNameStart c = true := by
  have hunderscore : '_' ≤ c ∧ c ≤ '_' ↔ c = '_' :=
    ⟨fun h => Char.le_antisymm h.2 h.1, fun h => h ▸ ⟨Char.le_refl _, Char.le_refl _⟩⟩
  have hletter : c.isAlpha = true ↔ ('a' ≤ c ∧ c ≤ 'z') ∨ ('A' ≤ c ∧ c ≤ 'Z') := by
    delta Char.isAlpha Char.isUpper Char.isLower
    simp [Char.le_def, or_comm]
  simp [Within, letters, Ascii.isNameStart, hunderscore, hletter, or_assoc]

/-- A name goes on with letters, digits and underscores. -/
theorem within_nameChars_iff : Within (letters ++ digits) c ↔ Ascii.isNameChar c = true := by
  rw [within_append_iff, within_letters_iff, within_digits_iff]
  simp only [Ascii.isNameStart, Ascii.isNameChar, Char.isAlphanum, Bool.or_eq_true]
  exact or_right_comm

theorem mem_blankChars_iff : c ∈ blankChars ↔ Token.isBlank c = true := by
  simp [blankChars, Token.isBlank, or_assoc]

/-! ## Matches -/

/-- Blanks in a row match, and nothing else. -/
theorem mem_blanks_iff : w ∈ blanks.language ↔ w ≠ [] ∧ ∀ c ∈ w, Token.isBlank c = true := by
  simp only [language, mem_run_iff, mem_blankChars_iff]

/-- A comment has a semicolon at the front, and no line feed. -/
theorem cons_mem_comment_iff : c :: cs ∈ comment.language ↔ c = ';' ∧ '\n' ∉ cs := by
  rw [language, cons_mem_one_mul_iff, mem_one_kstar_iff]
  refine and_congr_right fun _ => ⟨fun h hmem => h _ hmem rfl, fun h d hd => ?_⟩
  exact ne_of_mem_of_not_mem hd h

/-- The language of names has their spellings. -/
theorem mem_names_iff : w ∈ names ↔ IsName w := by
  cases w with
  | nil => exact iff_of_false nil_not_mem_one_mul id
  | cons c cs =>
    rw [names, cons_mem_one_mul_iff, mem_one_kstar_iff, within_letters_iff]
    simp only [within_nameChars_iff]
    rfl

/-- A directive is a dot with a name behind it. -/
theorem cons_mem_directive_iff : c :: cs ∈ directive.language ↔ c = '.' ∧ IsName cs := by
  rw [language, cons_mem_one_mul_iff, mem_names_iff]

theorem mem_identifier_iff : w ∈ identifier.language ↔ IsName w :=
  mem_names_iff

/-- A number is digits, or a minus sign with digits behind it. -/
theorem cons_mem_number_iff : c :: cs ∈ number.language ↔
    (∀ d ∈ c :: cs, d.isDigit = true) ∨ c = '-' ∧ cs ≠ [] ∧ ∀ d ∈ cs, d.isDigit = true := by
  rw [language, add_mul, one_mul, Language.mem_add, cons_mem_one_mul_iff, mem_run_iff, mem_run_iff]
  simp only [within_digits_iff]
  exact or_congr_left (and_iff_right (List.cons_ne_nil c cs))

/-- Digits without a sign denote their value. -/
theorem decimalValue_of_isDigit (h : c.isDigit = true) (ds : List Char) :
    decimalValue (c :: ds) = Numeral.value 10 (c :: ds) := by
  unfold decimalValue
  split
  · next heq =>
    obtain ⟨rfl, rfl⟩ := List.cons.inj heq
    exact nomatch h
  · rfl

/-- A hexadecimal number is a zero and an `x` in either letter case, with digits behind them. -/
theorem cons_mem_hex_iff : c :: cs ∈ hex.language ↔
    c = '0' ∧ ∃ x ds, cs = x :: ds ∧ (x = 'x' ∨ x = 'X') ∧ ds ≠ [] ∧
      ∀ d ∈ ds, d.isHexDigit = true := by
  rw [language, cons_mem_one_mul_iff]
  refine and_congr_right fun _ => ?_
  cases cs with
  | nil => exact iff_of_false nil_not_mem_one_mul (by rintro ⟨_, _, ⟨⟩, -⟩)
  | cons x ds =>
    rw [cons_mem_one_mul_iff, mem_run_iff]
    simp [within_hexDigits_iff]

/-- No pattern matches the empty text. -/
theorem nil_not_mem_language (p : Pattern) : [] ∉ p.language := by
  cases p with
  | comma | equals | ampersand => exact nil_not_mem_one
  | number =>
    rw [language, add_mul, one_mul, Language.mem_add]
    exact not_or.2 ⟨nil_not_mem_one_mul, nil_not_mem_one_mul⟩
  | _ => exact nil_not_mem_one_mul

end Pattern

end Machine32
