import Presynth.Toml.Scalar
/-!
# Reading TOML

A reader of version 1.0 of the format, arrays of tables excepted. Every reading function returns
what it read and the text after it. Values that are nested too deeply and keys of too many parts are
refused.
-/

namespace Presynth.Toml

/-! ### Blanks and line ends -/

/-- Drops blanks within a line. -/
def skipBlanks (text : List Char) : List Char := text.dropWhile fun c => c == ' ' || c == '\t'

/-- May a character stand in a comment? -/
def isCommentChar (c : Char) : Bool := c == '\t' || (0x20 ≤ c.toNat && c.toNat != 0x7f)

/-- Drops the comment at the front of a text, if there is one. -/
def skipComment : List Char → List Char
  | '#' :: rest => rest.dropWhile isCommentChar
  | text => text

/-- The text after a line end. -/
def afterLineEnd? : List Char → Option (List Char)
  | '\n' :: rest => some rest
  | '\r' :: '\n' :: rest => some rest
  | _ => none

/-- What may follow a statement: a comment, then a line end or nothing. -/
def endOfLine? (text : List Char) : Option (List Char) :=
  match skipComment (skipBlanks text) with
  | [] => some []
  | rest => afterLineEnd? rest

/-- Drops blanks, comments and line ends, for at most `fuel` lines. -/
def skipLines : Nat → List Char → List Char
  | 0, text => text
  | fuel + 1, text =>
    let rest := skipComment (skipBlanks text)
    match afterLineEnd? rest with
    | some rest => skipLines fuel rest
    | none => rest

/-! ### Strings -/

/-- The character of an escape with `k` hexadecimal digits, and the text after it. -/
def hexEscape? (k : Nat) (text : List Char) : Option (Char × List Char) :=
  let digits := text.take k
  if digits.length = k ∧ digits.all fun c => (Text.hexValue? c).isSome then
    let n := Scalar.ofBase 16 digits
    if h : n.isValidChar then some (Char.ofNatAux n h, text.drop k) else none
  else none

/-- The character of an escape after its backslash, and the text after it. -/
def escape? : List Char → Option (Char × List Char)
  | 'b' :: rest => some ('\x08', rest)
  | 't' :: rest => some ('\t', rest)
  | 'n' :: rest => some ('\n', rest)
  | 'f' :: rest => some ('\x0c', rest)
  | 'r' :: rest => some ('\r', rest)
  | '"' :: rest => some ('"', rest)
  | '\\' :: rest => some ('\\', rest)
  | 'u' :: rest => hexEscape? 4 rest
  | 'U' :: rest => hexEscape? 8 rest
  | _ => none

/-- Drops blanks and line ends after a backslash that ends a line; there must be a line end. -/
def skipContinuation? (fuel : Nat) (text : List Char) : Option (List Char) :=
  let rec skip : Nat → List Char → List Char
    | 0, text => text
    | fuel + 1, text =>
      match afterLineEnd? (skipBlanks text) with
      | some rest => skip fuel rest
      | none => skipBlanks text
  (afterLineEnd? (skipBlanks text)).map (skip fuel)

/-- A string with escapes up to its closing quote, for at most `fuel` characters. -/
def basicBody : Nat → List Char → Option (List Char × List Char)
  | 0, _ => none
  | _ + 1, [] => none
  | _ + 1, '"' :: rest => some ([], rest)
  | fuel + 1, '\\' :: rest => do
    let (c, rest) ← escape? rest
    let (more, rest) ← basicBody fuel rest
    return (c :: more, rest)
  | fuel + 1, c :: rest =>
    if isCommentChar c then (basicBody fuel rest).map fun (more, rest) => (c :: more, rest)
    else none

/-- A string without escapes up to its closing quote. -/
def literalBody (text : List Char) : Option (List Char × List Char) :=
  let body := text.takeWhile fun c => c != '\'' && isCommentChar c
  match text.drop body.length with
  | '\'' :: rest => some (body, rest)
  | _ => none

/-- Takes the closing quotes of a string of several lines off: three, and up to two more that belong
to the string. -/
def closing? (quote : Char) (text : List Char) : Option (List Char × List Char) :=
  let quotes := text.takeWhile (· == quote)
  if quotes.length < 3 then none
  else
    let kept := min (quotes.length - 3) 2
    some (List.replicate kept quote, text.drop (kept + 3))

/-- A string of several lines up to its closing quotes, for at most `fuel` characters. -/
def multiBody (quote : Char) : Nat → List Char → Option (List Char × List Char)
  | 0, _ => none
  | _ + 1, [] => none
  | fuel + 1, c :: rest =>
    match closing? quote (c :: rest) with
    | some found => some found
    | none =>
      match afterLineEnd? (c :: rest) with
      | some rest => (multiBody quote fuel rest).map fun (more, rest) => ('\n' :: more, rest)
      | none =>
        if c = '\\' ∧ quote = '"' then
          match skipContinuation? fuel rest with
          | some rest => multiBody quote fuel rest
          | none => do
            let (c, rest) ← escape? rest
            let (more, rest) ← multiBody quote fuel rest
            return (c :: more, rest)
        else if isCommentChar c then
          (multiBody quote fuel rest).map fun (more, rest) => (c :: more, rest)
        else none

/-- A string of several lines after its opening quotes; a line end right after them is dropped. -/
def multiString (quote : Char) (text : List Char) : Option (List Char × List Char) :=
  let text := (afterLineEnd? text).getD text
  multiBody quote (text.length + 1) text

/-- A quoted string of one line. -/
def quoted? : List Char → Option (List Char × List Char)
  | '"' :: rest => basicBody (rest.length + 1) rest
  | '\'' :: rest => literalBody rest
  | _ => none

/-- A string of any kind. -/
def string? : List Char → Option (List Char × List Char)
  | '"' :: '"' :: '"' :: rest => multiString '"' rest
  | '\'' :: '\'' :: '\'' :: rest => multiString '\'' rest
  | text => quoted? text

/-! ### Keys -/

/-- May a character stand in a key without quotes? -/
def isBareChar (c : Char) : Bool := c.isAlphanum || c == '_' || c == '-'

/-- One part of a key. -/
def simpleKey? (text : List Char) : Option (String × List Char) :=
  match text with
  | '"' :: _ => (quoted? text).map fun (key, rest) => (String.ofList key, rest)
  | '\'' :: _ => (quoted? text).map fun (key, rest) => (String.ofList key, rest)
  | _ =>
    let key := text.takeWhile isBareChar
    if key.isEmpty then none else some (String.ofList key, text.drop key.length)

/-- The number of parts that a dotted key may have. -/
def maxParts : Nat := 79

/-- A dotted key of at most `room` parts, with blanks around its dots and its ends. -/
def keyParts? : Nat → List Char → Option (List String × List Char)
  | 0, _ => none
  | room + 1, text => do
    let (first, rest) ← simpleKey? (skipBlanks text)
    match skipBlanks rest with
    | '.' :: rest =>
      let (more, rest) ← keyParts? room rest
      return (first :: more, rest)
    | rest => return ([first], rest)

/-- A dotted key. -/
def key? : List Char → Option (List String × List Char) := keyParts? maxParts

/-! ### Values -/

/-- The number of arrays and table values that may stand in each other. -/
def maxNesting : Nat := 79

mutual

/-- One value, with at most `depth` arrays and table values in each other. `fuel` bounds the nesting
of the calls. -/
def value? : Nat → Nat → List Char → Option (Toml × List Char)
  | 0, _, _ => none
  | fuel + 1, depth, text =>
    match text, depth with
    | '"' :: _, _ => (string? text).map fun (s, rest) => (string (String.ofList s), rest)
    | '\'' :: _, _ => (string? text).map fun (s, rest) => (string (String.ofList s), rest)
    | '[' :: rest, depth + 1 =>
      (items? fuel depth rest).map fun (found, rest) => (array found, rest)
    | '{' :: rest, depth + 1 =>
      match skipBlanks rest with
      | '}' :: rest => some (table .value [], rest)
      | rest =>
        (pairs? fuel depth rest []).map fun (entries, rest) => (table .value entries, rest)
    | _, _ =>
      -- no token starts with a bracket or a brace
      let (token, rest) := Scalar.splitToken text
      (Scalar.ofToken? token).map fun v => (v, rest)

/-- The items of an array up to its closing bracket; a comma may follow the last. -/
def items? : Nat → Nat → List Char → Option (List Toml × List Char)
  | 0, _, _ => none
  | fuel + 1, depth, text =>
    match skipLines fuel text with
    | ']' :: rest => some ([], rest)
    | text => do
      let (first, rest) ← value? fuel depth text
      match skipLines fuel rest with
      | ']' :: rest => return ([first], rest)
      | ',' :: rest =>
        let (more, rest) ← items? fuel depth rest
        return (first :: more, rest)
      | _ => none

/-- The assignments of a table value up to its closing brace, added to `entries`; at least one. -/
def pairs? : Nat → Nat → List Char → Entries → Option (Entries × List Char)
  | 0, _, _, _ => none
  | fuel + 1, depth, text, entries => do
    let (keys, rest) ← key? text
    match rest with
    | '=' :: rest =>
      let (v, rest) ← value? fuel depth (skipBlanks rest)
      let entries ← assign v keys .header entries
      match skipBlanks rest with
      | '}' :: rest => return (entries, rest)
      | ',' :: rest => pairs? fuel depth rest entries
      | _ => none
    | _ => none

end

/-! ### Documents -/

/-- One statement with the end of its line. -/
def statement? (fuel : Nat) (text : List Char) : Option (Statement × List Char) :=
  match text with
  | '[' :: rest => do
    let (path, rest) ← key? rest
    match rest with
    | ']' :: rest =>
      let rest ← endOfLine? rest
      return (.header path, rest)
    | _ => none
  | _ => do
    let (keys, rest) ← key? text
    match rest with
    | '=' :: rest =>
      let (v, rest) ← value? fuel maxNesting (skipBlanks rest)
      let rest ← endOfLine? rest
      return (.assignment keys v, rest)
    | _ => none

/-- The statements of a text, of which each takes at least one character. -/
def statements? : Nat → List Char → Option (List Statement)
  | 0, _ => none
  | fuel + 1, text =>
    -- a line that is skipped takes a character too
    match skipLines (fuel + 1) text with
    | [] => some []
    | text => do
      let (first, rest) ← statement? (text.length + 1) text
      let more ← statements? fuel rest
      return first :: more

/-- Reads a whole text as a document. A byte order mark at the front is dropped. -/
def parse? (text : String) : Option Entries := do
  let chars := match text.toList with
    | '\ufeff' :: rest => rest
    | chars => chars
  let found ← statements? (chars.length + 1) chars
  build found [] []

end Presynth.Toml
