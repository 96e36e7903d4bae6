import Mathlib.Data.Nat.Digits.Defs
import Machine32.Proofs.Numerals
import Machine32.Proofs.Assembly.LongestMatch

/-!
# Literals

A literal denotes an integer: the sum of the values of its digits times the powers of the
base, behind a minus sign its negative. Every match of the patterns for numbers is a
literal, and it is read as the integer that it denotes, or as stray text if that integer
is out of range.

* `Numeral.Denotes`: the number that digits denote, and `Numeral.denotes_iff`;
* `Token.Literal`: the literals, and `Token.Literal.exists_pattern`: they are matches;
* `Token.Next.eq_of_literal`: what a literal is read as;
* `Token.Next.literal_of_number`, `Token.Next.literal_of_hex`, `Token.Next.stray_cases`: what
  is read as a number is a literal, and stray text is one character or a literal.
-/

namespace Machine32

/-! ## Digits -/

namespace Numeral

variable {base d n : Nat} {c : Char} {cs : List Char}

/-- The digit of the value `d` to the base `base`, in either letter case. -/
def IsDigit (base d : Nat) (c : Char) : Prop :=
  d < base ∧ (c = d.digitChar ∨ c = d.digitChar.toUpper)

/-- The digits `cs` denote the number `n` to the base `base`, the last one counting ones. -/
def Denotes (base : Nat) (cs : List Char) (n : Nat) : Prop :=
  ∃ ds, List.Forall₂ (IsDigit base) ds cs ∧ n = Nat.ofDigits base ds.reverse

/-- The value is the sum over the digits, from the last one on. -/
theorem value_eq_ofDigits (base : Nat) (cs : List Char) :
    value base cs = Nat.ofDigits base (cs.map digitValue).reverse := by
  induction cs using List.reverseRecOn with
  | nil => rfl
  | append_singleton cs c ih =>
    rw [value_concat, ih, List.map_append, List.reverse_append, List.map_singleton,
      List.reverse_singleton, List.singleton_append, Nat.ofDigits_cons, Nat.add_comm]

/-- A digit has its value in both letter cases. -/
theorem IsDigit.digitValue_eq (h : IsDigit base d c) (hbase : base ≤ 16) : digitValue c = d := by
  obtain ⟨hd, rfl | rfl⟩ := h
  · exact digitValue_digitChar d (by omega)
  · exact digitValue_toUpper_digitChar d (by omega)

/-- Digits denote their value, and characters that are no digits denote nothing. -/
theorem denotes_iff (hbase : base ≤ 16) :
    Denotes base cs n ↔ (∀ c ∈ cs, ∃ d, IsDigit base d c) ∧ n = value base cs := by
  constructor
  · rintro ⟨ds, hds, rfl⟩
    have hvalues : cs.map digitValue = ds := by
      induction hds with
      | nil => rfl
      | cons h _ ih => rw [List.map_cons, h.digitValue_eq hbase, ih]
    refine ⟨fun c hc => ?_, by rw [value_eq_ofDigits, hvalues]⟩
    obtain ⟨d, -, hd⟩ := hds.flip.exists_mem hc
    exact ⟨d, hd⟩
  · rintro ⟨hcs, rfl⟩
    refine ⟨cs.map digitValue, ?_, value_eq_ofDigits base cs⟩
    rw [List.forall₂_map_left_iff, List.forall₂_same]
    intro c hc
    obtain ⟨d, hd⟩ := hcs c hc
    rwa [hd.digitValue_eq hbase]

/-- The characters of a range are counted from its first one. -/
theorem exists_ofNat_of_le {first last : Char} (hle : first ≤ c) (hge : c ≤ last) :
    ∃ i ≤ last.toNat - first.toNat, c = Char.ofNat (first.toNat + i) := by
  have hle : first.toNat ≤ c.toNat := hle
  have hge : c.toNat ≤ last.toNat := hge
  refine ⟨c.toNat - first.toNat, by omega, ?_⟩
  rw [Nat.add_sub_cancel' hle, Char.ofNat_toNat]

theorem exists_isDigit_ten_iff : (∃ d, IsDigit 10 d c) ↔ c.isDigit = true := by
  constructor
  · have h : ∀ d < 10, d.digitChar.isDigit = true ∧ d.digitChar.toUpper.isDigit = true := by
      decide
    rintro ⟨d, hd, rfl | rfl⟩
    · exact (h d hd).1
    · exact (h d hd).2
  · have hdecimal : ∀ i ≤ 9, Char.ofNat ('0'.toNat + i) = i.digitChar := by decide
    intro h
    obtain ⟨r, hr, hle, hge⟩ := Pattern.within_digits_iff.2 h
    obtain rfl := List.mem_singleton.1 hr
    obtain ⟨i, hi, rfl⟩ := exists_ofNat_of_le hle hge
    exact ⟨i, Nat.lt_succ_of_le hi, .inl (hdecimal i hi)⟩

theorem exists_isDigit_sixteen_iff : (∃ d, IsDigit 16 d c) ↔ c.isHexDigit = true := by
  constructor
  · rintro ⟨d, hd, rfl | rfl⟩
    · exact isHexDigit_digitChar d hd
    · exact isHexDigit_toUpper_digitChar d hd
  · have hdecimal : ∀ i ≤ 9, Char.ofNat ('0'.toNat + i) = i.digitChar := by decide
    have hlower : ∀ i ≤ 5, Char.ofNat ('a'.toNat + i) = (10 + i).digitChar := by decide
    have hupper : ∀ i ≤ 5, Char.ofNat ('A'.toNat + i) = (10 + i).digitChar.toUpper := by decide
    intro h
    obtain ⟨r, hr, hle, hge⟩ := Pattern.within_hexDigits_iff.2 h
    rw [Pattern.hexDigits, List.mem_cons, List.mem_cons, List.mem_singleton] at hr
    -- One range for the digits up to nine, and one for the others in each letter case.
    rcases hr with rfl | rfl | rfl
    · obtain ⟨i, hi, rfl⟩ := exists_ofNat_of_le hle hge
      exact ⟨i, Nat.lt_of_le_of_lt hi (by decide), .inl (hdecimal i hi)⟩
    · obtain ⟨i, hi, rfl⟩ := exists_ofNat_of_le hle hge
      exact ⟨10 + i, Nat.add_lt_add_left (Nat.lt_succ_of_le hi) 10, .inl (hlower i hi)⟩
    · obtain ⟨i, hi, rfl⟩ := exists_ofNat_of_le hle hge
      exact ⟨10 + i, Nat.add_lt_add_left (Nat.lt_succ_of_le hi) 10, .inr (hupper i hi)⟩

theorem denotes_ten_iff :
    Denotes 10 cs n ↔ (∀ c ∈ cs, c.isDigit = true) ∧ n = value 10 cs := by
  simp only [denotes_iff (show 10 ≤ 16 by decide), exists_isDigit_ten_iff]

theorem denotes_sixteen_iff :
    Denotes 16 cs n ↔ (∀ c ∈ cs, c.isHexDigit = true) ∧ n = value 16 cs := by
  simp only [denotes_iff (Nat.le_refl 16), exists_isDigit_sixteen_iff]

end Numeral

/-! ## Literals -/

namespace Token

/-- A literal, the token of the integers that literals of its kind denote, and the integer
    that it denotes. -/
inductive Literal : List Char → (Int → Token) → Int → Prop
  | decimal {ds : List Char} {n : Nat} : ds ≠ [] → Numeral.Denotes 10 ds n →
      Literal ds .number n
  | negative {ds : List Char} {n : Nat} : ds ≠ [] → Numeral.Denotes 10 ds n →
      Literal ('-' :: ds) .number (-n)
  | hex {x : Char} {ds : List Char} {n : Nat} : x = 'x' ∨ x = 'X' → ds ≠ [] →
      Numeral.Denotes 16 ds n → Literal ('0' :: x :: ds) .hex n

variable {cs w rest : List Char} {f : Int → Token} {n : Int} {r : Reading} {t : Token}

/-- A literal is a match of the pattern for its kind, and read as what it denotes. -/
theorem Literal.exists_pattern (h : Literal w f n) :
    ∃ p : Pattern, w ∈ p.language ∧ p.read w = numeral f n := by
  cases h with
  | decimal hne hds =>
    obtain ⟨hdigits, rfl⟩ := Numeral.denotes_ten_iff.1 hds
    obtain ⟨d, ds, rfl⟩ := List.exists_cons_of_ne_nil hne
    refine ⟨.number, Pattern.cons_mem_number_iff.2 (.inl hdigits), ?_⟩
    rw [Pattern.read, Pattern.decimalValue_of_isDigit (hdigits d List.mem_cons_self)]
  | negative hne hds =>
    obtain ⟨hdigits, rfl⟩ := Numeral.denotes_ten_iff.1 hds
    exact ⟨.number, Pattern.cons_mem_number_iff.2 (.inr ⟨rfl, hne, hdigits⟩), rfl⟩
  | hex hx hne hds =>
    obtain ⟨hdigits, rfl⟩ := Numeral.denotes_sixteen_iff.1 hds
    exact ⟨.hex, Pattern.cons_mem_hex_iff.2 ⟨rfl, _, _, rfl, hx, hne, hdigits⟩, rfl⟩

/-- Every match of the patterns for numbers is a literal. -/
theorem exists_literal_of_number (h : w ∈ Pattern.number.language) :
    ∃ n, Literal w .number n := by
  cases w with
  | nil => exact absurd h (Pattern.nil_not_mem_language _)
  | cons c cs =>
    rcases Pattern.cons_mem_number_iff.1 h with hdigits | ⟨rfl, hne, hdigits⟩
    · exact ⟨_, .decimal (List.cons_ne_nil c cs) (Numeral.denotes_ten_iff.2 ⟨hdigits, rfl⟩)⟩
    · exact ⟨_, .negative hne (Numeral.denotes_ten_iff.2 ⟨hdigits, rfl⟩)⟩

theorem exists_literal_of_hex (h : w ∈ Pattern.hex.language) :
    ∃ n, Literal w .hex n := by
  cases w with
  | nil => exact absurd h (Pattern.nil_not_mem_language _)
  | cons c cs =>
    obtain ⟨rfl, x, ds, rfl, hx, hne, hdigits⟩ := Pattern.cons_mem_hex_iff.1 h
    exact ⟨_, .hex hx hne (Numeral.denotes_sixteen_iff.2 ⟨hdigits, rfl⟩)⟩

theorem numeral_eq_token_iff : numeral f n = .token t ↔ Fits64 n ∧ t = f n := by
  rw [numeral]
  split
  · next h => simp [h, eq_comm]
  · next h => simp [h]

theorem numeral_eq_stray_iff : numeral f n = .stray ↔ ¬Fits64 n := by
  rw [numeral]
  split
  · next h => simp [h]
  · next h => simp [h]

/-- A literal that is the next piece is the token of its integer, or stray text if that is
    out of range. -/
theorem Next.eq_of_literal (h : Next cs (r, w) rest) (hw : Literal w f n) : r = numeral f n := by
  obtain ⟨p, hp, hread⟩ := hw.exists_pattern
  rw [h.read_eq hp, hread]

/-- A token of a number is a literal of this number. -/
theorem Next.literal_of_number (h : Next cs (.token (.number n), w) rest) :
    Literal w .number n := by
  rcases h.longest_or_stray with ⟨p, hp, hread⟩ | ⟨⟨⟩, -⟩
  cases p with
  | number =>
    obtain ⟨m, hm⟩ := exists_literal_of_number hp.mem
    obtain ⟨-, hn⟩ := numeral_eq_token_iff.1 (h.eq_of_literal hm).symm
    rwa [Token.number.inj hn]
  | hex =>
    obtain ⟨-, hn⟩ := numeral_eq_token_iff.1 hread.symm
    exact nomatch hn
  | _ => exact nomatch hread

/-- So is one of a hexadecimal number. -/
theorem Next.literal_of_hex (h : Next cs (.token (.hex n), w) rest) : Literal w .hex n := by
  rcases h.longest_or_stray with ⟨p, hp, hread⟩ | ⟨⟨⟩, -⟩
  cases p with
  | number =>
    obtain ⟨-, hn⟩ := numeral_eq_token_iff.1 hread.symm
    exact nomatch hn
  | hex =>
    obtain ⟨m, hm⟩ := exists_literal_of_hex hp.mem
    obtain ⟨-, hn⟩ := numeral_eq_token_iff.1 (h.eq_of_literal hm).symm
    rwa [Token.hex.inj hn]
  | _ => exact nomatch hread

/-- Stray text is a literal of an integer out of range, or one character. -/
theorem Next.stray_cases (h : Next cs (.stray, w) rest) :
    (∃ f n, Literal w f n ∧ ¬Fits64 n) ∨ ∃ c, w = [c] ∧ Unmatched cs := by
  rcases h.longest_or_stray with ⟨p, hp, hread⟩ | ⟨-, hunmatched⟩
  · left
    cases p with
    | number =>
      obtain ⟨n, hn⟩ := exists_literal_of_number hp.mem
      exact ⟨_, n, hn, numeral_eq_stray_iff.1 (h.eq_of_literal hn).symm⟩
    | hex =>
      obtain ⟨n, hn⟩ := exists_literal_of_hex hp.mem
      exact ⟨_, n, hn, numeral_eq_stray_iff.1 (h.eq_of_literal hn).symm⟩
    | _ => exact nomatch hread
  · exact .inr hunmatched

end Token

end Machine32
