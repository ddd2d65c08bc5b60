/-!
# Lines of a text

Lines end with a line feed, which may follow a carriage return; the ends belong to no line. Text
after the last line feed is a line of its own, unless it is empty. Words are looked for anywhere in
a line.
-/

namespace Presynth.Text

/-- The lines of a text without their ends. -/
def lines : List Char → List (List Char)
  | [] => []
  | '\n' :: rest => [] :: lines rest
  | '\r' :: '\n' :: rest => [] :: lines rest
  | c :: rest =>
    match lines rest with
    | [] => [[c]]
    | line :: more => (c :: line) :: more

/-- Does `word` stand at the front of a text? -/
def startsWith : List Char → List Char → Bool
  | [], _ => true
  | _ :: _, [] => false
  | c :: word, d :: text => c == d && startsWith word text

/-- Does `word` occur in a text? -/
def occursIn (word : List Char) : List Char → Bool
  | [] => word.isEmpty
  | c :: rest => startsWith word (c :: rest) || occursIn word rest

end Presynth.Text
