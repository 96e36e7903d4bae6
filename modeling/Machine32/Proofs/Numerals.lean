import Mathlib.Data.Nat.Init
import Mathlib.Data.List.Basic
import Machine32.Numeral

/-!
# Numerals read back

The digits that a number is written with denote that number, to both bases, in
either letter case and with any number of zeros in front.
-/

namespace Machine32.Numeral

/-- A digit behind the others counts ones, and the others count times the base. -/
theorem value_concat (base : Nat) (ds : List Char) (d : Char) :
    value base (ds ++ [d]) = base * value base ds + digitValue d := by
  rw [value, List.foldl_append]
  rfl

/-- The digits have their values. -/
theorem digitValue_digitChar : ∀ n < 16, digitValue n.digitChar = n := by decide

theorem digitValue_toUpper_digitChar : ∀ n < 16, digitValue n.digitChar.toUpper = n := by decide

theorem isHexDigit_digitChar : ∀ n < 16, n.digitChar.isHexDigit = true := by decide

theorem isHexDigit_toUpper_digitChar : ∀ n < 16, n.digitChar.toUpper.isHexDigit = true := by
  decide

/-- The digits of a number are digits below its base. -/
theorem mem_toDigits {base n : Nat} {c : Char} (hbase : 1 < base) (h : c ∈ Nat.toDigits base n) :
    ∃ d < base, c = d.digitChar := by
  induction n using Nat.strongRecOn with
  | ind n ih =>
    rw [Nat.toDigits_eq_if hbase] at h
    split at h
    · next hlt => exact ⟨n, hlt, List.mem_singleton.1 h⟩
    · next hle =>
      rcases List.mem_append.1 h with h | h
      · exact ih (n / base) (Nat.div_lt_self (by omega) hbase) h
      · exact ⟨n % base, Nat.mod_lt n (by omega), List.mem_singleton.1 h⟩

/-- The digits of a number have its value. -/
theorem value_toDigits {base : Nat} (hbase : 1 < base) (hle : base ≤ 16) (n : Nat) :
    value base (Nat.toDigits base n) = n := by
  induction n using Nat.strongRecOn with
  | ind n ih =>
    rw [Nat.toDigits_eq_if hbase]
    split
    · next hlt =>
      rw [value, List.foldl_cons, List.foldl_nil, digitValue_digitChar n (by omega), Nat.mul_zero,
        Nat.zero_add]
    · next hlt =>
      have hmod := Nat.mod_lt n (show base > 0 by omega)
      rw [value_concat, ih (n / base) (Nat.div_lt_self (by omega) hbase),
        digitValue_digitChar _ (by omega), Nat.div_add_mod]

theorem value_map {base : Nat} {f : Char → Char} {ds : List Char}
    (h : ∀ c ∈ ds, digitValue (f c) = digitValue c) : value base (ds.map f) = value base ds := by
  rw [value, List.foldl_map]
  exact List.foldl_ext _ _ _ fun n c hc => by rw [h c hc]

/-- The letter case of digits does not matter. -/
theorem value_map_toUpper {base : Nat} (hbase : 1 < base) (hle : base ≤ 16) (n : Nat) :
    value base ((Nat.toDigits base n).map Char.toUpper) = n := by
  rw [value_map, value_toDigits hbase hle]
  intro c hc
  obtain ⟨d, hd, rfl⟩ := mem_toDigits hbase hc
  rw [digitValue_toUpper_digitChar d (by omega), digitValue_digitChar d (by omega)]

/-- Zeros in front do not matter. -/
theorem value_leftpad (base width : Nat) (ds : List Char) :
    value base (ds.leftpad width '0') = value base ds := by
  rw [List.leftpad]
  induction width - ds.length with
  | zero => rfl
  | succ k ih =>
    rw [List.replicate_succ, List.cons_append]
    exact ih

/-- A number is read back from its hexadecimal digits, in either letter case and with zeros in
    front. -/
theorem value_hexDigits (letters : LetterCase) (width n : Nat) :
    value 16 ((hexDigits letters n).leftpad width '0') = n := by
  rw [value_leftpad]
  cases letters with
  | lower => exact value_toDigits (by decide) (by decide) n
  | upper => exact value_map_toUpper (by decide) (by decide) n

theorem hexDigits_leftpad_ne_nil (letters : LetterCase) (width n : Nat) :
    (hexDigits letters n).leftpad width '0' ≠ [] := by
  rw [List.leftpad]
  cases letters <;> simp [hexDigits]

theorem isHexDigit_of_mem_hexDigits {letters : LetterCase} {width n : Nat} {c : Char}
    (h : c ∈ (hexDigits letters n).leftpad width '0') : c.isHexDigit = true := by
  rw [List.leftpad] at h
  rcases List.mem_append.1 h with h | h
  · rw [List.eq_of_mem_replicate h]
    rfl
  cases letters with
  | lower =>
    obtain ⟨d, hd, rfl⟩ := mem_toDigits (by decide) h
    exact isHexDigit_digitChar d hd
  | upper =>
    obtain ⟨c, hc, rfl⟩ := List.mem_map.1 h
    obtain ⟨d, hd, rfl⟩ := mem_toDigits (by decide) hc
    exact isHexDigit_toUpper_digitChar d hd

end Machine32.Numeral
