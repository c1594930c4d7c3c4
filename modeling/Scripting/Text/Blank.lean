/-!
# Blank characters

Two classes of blank characters, and trimming by a class. `isSpace` is the Unicode property
`White_Space`; `isBlank` adds the four information separators, which are what an interactive
line or a named mode may be padded with.
-/

namespace Scripting.Text

/-- The characters of the Unicode property `White_Space`. -/
def isSpace (c : Char) : Bool :=
  let n := c.toNat
  (9 ≤ n && n ≤ 13) || n == 0x20 || n == 0x85 || n == 0xA0 || n == 0x1680 ||
    (0x2000 ≤ n && n ≤ 0x200A) || n == 0x2028 || n == 0x2029 || n == 0x202F ||
    n == 0x205F || n == 0x3000

/-- White space and the information separators U+001C to U+001F. -/
def isBlank (c : Char) : Bool :=
  isSpace c || (0x1C ≤ c.toNat && c.toNat ≤ 0x1F)

/-- A list without the characters of a class at its two ends. -/
def trim (p : Char → Bool) (cs : List Char) : List Char :=
  ((cs.dropWhile p).reverse.dropWhile p).reverse

/-- A text without blank characters at its two ends. -/
def strip (s : String) : String :=
  String.ofList (trim isBlank s.toList)

theorem isBlank_of_isSpace {c : Char} (h : isSpace c = true) : isBlank c = true := by
  simp [isBlank, h]

@[simp] theorem trim_nil (p : Char → Bool) : trim p [] = [] := rfl

end Scripting.Text
