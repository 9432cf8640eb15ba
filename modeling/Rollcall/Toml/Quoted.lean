/-!
Quoted texts and blanks in TOML. Basic texts know escapes, literal ones do not;
both may go over several lines between triple quotes, with up to two more quotes
right before the closing ones. A line break right after the opening quotes does
not count.
-/

namespace Rollcall.Toml

def isBlank (c : Char) : Bool := c = ' ' || c = '\t'

def skipBlanks (cs : List Char) : List Char := cs.dropWhile isBlank

/-- Control characters other than the tab stand nowhere. -/
def isPlain (c : Char) : Bool := c = '\t' || (0x20 ≤ c.toNat && c.toNat ≠ 0x7F)

/-- What follows a line break, if there is one here. -/
def lineBreak? : List Char → Option (List Char)
  | '\n' :: rest => some rest
  | '\r' :: '\n' :: rest => some rest
  | _ => none

/-- Skips a comment, if there is one; it goes to the end of the line. -/
def skipComment (cs : List Char) : Option (List Char) :=
  match cs with
  | '#' :: cs =>
      match cs.dropWhile isPlain with
      | [] => some []
      | rest => if (lineBreak? rest).isSome then some rest else none
  | cs => some cs

/-- The rest of a line must be blank. -/
def endLine (cs : List Char) : Option (List Char) := do
  match ← skipComment (skipBlanks cs) with
  | [] => some []
  | rest => lineBreak? rest

/-- Skips blanks, comments and line breaks. -/
def skipFiller : Nat → List Char → Option (List Char)
  | 0, _ => none
  | fuel + 1, cs => do
      let rest ← skipComment (skipBlanks cs)
      match lineBreak? rest with
      | some rest => skipFiller fuel rest
      | none => some rest

def hexValue? (c : Char) : Option Nat :=
  if c.isDigit then some (c.toNat - '0'.toNat)
  else if 'a' ≤ c ∧ c ≤ 'f' then some (c.toNat - 'a'.toNat + 10)
  else if 'A' ≤ c ∧ c ≤ 'F' then some (c.toNat - 'A'.toNat + 10)
  else none

/-- A character by the hexadecimal digits of its code point. -/
def codePoint? (ds : List Char) : Option Char := do
  let values ← ds.mapM hexValue?
  let n := values.foldl (fun n d => 16 * n + d) 0
  if h : n.isValidChar then some (Char.ofNatAux n h) else none

def shortEscape? : Char → Option Char
  | 'b' => some '\x08'
  | 'e' => some '\x1b'
  | 'f' => some '\x0c'
  | 'n' => some '\n'
  | 'r' => some '\r'
  | 't' => some '\t'
  | '"' => some '"'
  | '\\' => some '\\'
  | _ => none

/-- How many digits a letter announces. -/
def escapeLength? : Char → Option Nat
  | 'x' => some 2
  | 'u' => some 4
  | 'U' => some 8
  | _ => none

/-- The character that an escape stands for; its backslash has been read. -/
def escape? : List Char → Option (Char × List Char)
  | [] => none
  | c :: rest =>
      match escapeLength? c with
      | some n =>
          if rest.length < n then none
          else (codePoint? (rest.take n)).map (fun c => (c, rest.drop n))
      | none => (shortEscape? c).map (fun c => (c, rest))

/-- A basic text on one line, after its opening quote. -/
def readBasic : Nat → List Char → Option (List Char × List Char)
  | 0, _ => none
  | _ + 1, [] => none
  | _ + 1, '"' :: rest => some ([], rest)
  | fuel + 1, '\\' :: rest => do
      let (c, rest) ← escape? rest
      let (cs, rest) ← readBasic fuel rest
      return (c :: cs, rest)
  | fuel + 1, c :: rest =>
      if isPlain c then (readBasic fuel rest).map (fun r => (c :: r.1, r.2)) else none

/-- A literal text on one line, after its opening quote. -/
def readLiteral : List Char → Option (List Char × List Char)
  | [] => none
  | '\'' :: rest => some ([], rest)
  | c :: rest =>
      if isPlain c then (readLiteral rest).map (fun r => (c :: r.1, r.2)) else none

def skipFirstBreak (cs : List Char) : List Char := (lineBreak? cs).getD cs

/-- The quotes right before the closing ones, and what follows these. -/
def closing? (quote : Char) (cs : List Char) : Option (List Char × List Char) :=
  let quotes := (cs.take 5).takeWhile (· = quote)
  if quotes.length < 3 then none else some (quotes.drop 3, cs.drop quotes.length)

/-- Skips a line break that a backslash takes out of a text, and all blanks and
line breaks that follow it. -/
def skipGap (cs : List Char) : Option (List Char) := do
  let rest ← lineBreak? (skipBlanks cs)
  return rest.dropWhile (fun c => isBlank c || c = '\n' || c = '\r')

/-- A carriage return stands only before a line feed. -/
def isSoundBreak (c : Char) (rest : List Char) : Bool :=
  c = '\n' || (c = '\r' && rest.head? = some '\n')

/-- A basic text over several lines. -/
def readBasicLines : Nat → List Char → Option (List Char × List Char)
  | 0, _ => none
  | _ + 1, [] => none
  | fuel + 1, c :: rest =>
      match closing? '"' (c :: rest) with
      | some found => some found
      | none =>
          if c = '\\' then
            match skipGap rest with
            | some rest => readBasicLines fuel rest
            | none => do
                let (c, rest) ← escape? rest
                let (cs, rest) ← readBasicLines fuel rest
                return (c :: cs, rest)
          else if isPlain c || isSoundBreak c rest then
            (readBasicLines fuel rest).map (fun r => (c :: r.1, r.2))
          else none

/-- A literal text over several lines. -/
def readLiteralLines : List Char → Option (List Char × List Char)
  | [] => none
  | c :: rest =>
      match closing? '\'' (c :: rest) with
      | some found => some found
      | none =>
          if isPlain c || isSoundBreak c rest then
            (readLiteralLines rest).map (fun r => (c :: r.1, r.2))
          else none

/-- Any quoted text, if there is one here. -/
def readQuoted (cs : List Char) : Option (List Char × List Char) :=
  let fuel := cs.length + 1
  match cs with
  | '"' :: '"' :: '"' :: rest => readBasicLines fuel (skipFirstBreak rest)
  | '\'' :: '\'' :: '\'' :: rest => readLiteralLines (skipFirstBreak rest)
  | '"' :: rest => readBasic fuel rest
  | '\'' :: rest => readLiteral rest
  | _ => none

def isBareKeyChar (c : Char) : Bool := c.isAlphanum || c = '_' || c = '-'

/-- A key is bare or quoted on one line. -/
def readKey (cs : List Char) : Option (String × List Char) :=
  match cs with
  | '"' :: rest => (readBasic (cs.length + 1) rest).map (fun r => (String.ofList r.1, r.2))
  | '\'' :: rest => (readLiteral rest).map (fun r => (String.ofList r.1, r.2))
  | cs =>
      match cs.takeWhile isBareKeyChar with
      | [] => none
      | key => some (String.ofList key, cs.dropWhile isBareKeyChar)

/-- Keys joined by dots, with blanks around them: those on the way, the last one,
and what follows. -/
def readPath : Nat → List Char → Option (List String × String × List Char)
  | 0, _ => none
  | fuel + 1, cs => do
      let (key, rest) ← readKey (skipBlanks cs)
      match skipBlanks rest with
      | '.' :: rest =>
          let (path, last, rest) ← readPath fuel rest
          return (key :: path, last, rest)
      | rest => some ([], key, rest)

end Rollcall.Toml
