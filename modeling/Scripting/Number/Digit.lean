/-!
# Decimal digits

The ASCII digits, which alone spell numbers in programs and settings, with the number that a row of
them spells; and the decimal digits of all scripts, which make an argument look like a number. A
script has its ten digits in a row, so the table holds the zeros.
-/

namespace Scripting

/-- The ASCII digits. -/
def isDigit (c : Char) : Bool :=
  '0' ≤ c && c ≤ '9'

/-- The number that ASCII digits spell. -/
def numberOfDigits (digits : List Char) : Nat :=
  digits.foldl (fun n c => 10 * n + (c.toNat - '0'.toNat)) 0

theorem numberOfDigits_append_singleton (digits : List Char) (c : Char) :
    numberOfDigits (digits ++ [c]) = 10 * numberOfDigits digits + (c.toNat - '0'.toNat) := by
  simp [numberOfDigits]

/-- The characters of value zero in the Unicode category `Nd`. -/
def decimalZeros : List Nat :=
  [0x30, 0x660, 0x6F0, 0x7C0, 0x966, 0x9E6, 0xA66, 0xAE6, 0xB66, 0xBE6, 0xC66, 0xCE6, 0xD66,
    0xDE6, 0xE50, 0xED0, 0xF20, 0x1040, 0x1090, 0x17E0, 0x1810, 0x1946, 0x19D0, 0x1A80, 0x1A90,
    0x1B50, 0x1BB0, 0x1C40, 0x1C50, 0xA620, 0xA8D0, 0xA900, 0xA9D0, 0xA9F0, 0xAA50, 0xABF0,
    0xFF10, 0x104A0, 0x10D30, 0x11066, 0x110F0, 0x11136, 0x111D0, 0x112F0, 0x11450, 0x114D0,
    0x11650, 0x116C0, 0x11730, 0x118E0, 0x11950, 0x11C50, 0x11D50, 0x11DA0, 0x16A60, 0x16AC0,
    0x16B50, 0x1D7CE, 0x1D7D8, 0x1D7E2, 0x1D7EC, 0x1D7F6, 0x1E140, 0x1E2F0, 0x1E950, 0x1FBF0]

/-- The decimal digits of all scripts. -/
def isDecimalDigit (c : Char) : Bool :=
  decimalZeros.any fun z => z ≤ c.toNat && c.toNat < z + 10

theorem isDecimalDigit_of_isDigit {c : Char} (h : isDigit c = true) : isDecimalDigit c = true := by
  simp only [isDigit, Bool.and_eq_true, decide_eq_true_eq, Char.le_def, UInt32.le_iff_toNat_le] at h
  have hlow : 48 ≤ c.toNat := h.1
  have hhigh : c.toNat ≤ 57 := h.2
  simp only [isDecimalDigit, List.any_eq_true]
  exact ⟨0x30, by simp [decimalZeros], by simp; omega⟩

end Scripting
