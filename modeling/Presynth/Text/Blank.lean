/-!
# Blank characters

A character is blank if it has the Unicode property `White_Space`. The property is a closed list of
25 characters. Texts are trimmed and cut into words at blanks.
-/

namespace Presynth.Text

/-- Does the character have the property `White_Space`? -/
def isBlank (c : Char) : Bool :=
  let n := c.toNat
  (0x09 ≤ n && n ≤ 0x0d) || n == 0x20 || n == 0x85 || n == 0xa0 || n == 0x1680 ||
    (0x2000 ≤ n && n ≤ 0x200a) || n == 0x2028 || n == 0x2029 || n == 0x202f || n == 0x205f ||
    n == 0x3000

/-- Drops leading blanks. -/
def trimLeft (text : List Char) : List Char := text.dropWhile isBlank

/-- Drops trailing blanks. -/
def trimRight (text : List Char) : List Char := (text.reverse.dropWhile isBlank).reverse

/-- Drops leading and trailing blanks. -/
def trim (text : List Char) : List Char := trimRight (trimLeft text)

/-- The maximal runs of characters that are not blank. -/
def words : List Char → List (List Char)
  | [] => []
  | c :: rest =>
    if isBlank c then words rest
    else
      match rest, words rest with
      | [], _ => [[c]]
      | d :: _, found =>
        if isBlank d then [c] :: found
        else
          match found with
          | [] => [[c]]
          | w :: more => (c :: w) :: more

end Presynth.Text
