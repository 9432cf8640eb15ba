import Rollcall.Error
import Rollcall.Target

/-!
Addresses as endpoints: a scheme, an authority, and what follows them. An address
that names no scheme is taken for one of plain HTTP. Only the length, the characters and
the outline of the authority are checked, not the host and not the number after it.
-/

namespace Rollcall

structure Endpoint where
  scheme : String
  authority : String
  path : String
  query : Option String
deriving DecidableEq, Repr

namespace Endpoint

def startsWithIgnoringCase (lower cs : List Char) : Bool :=
  (cs.take lower.length).map Char.toLower = lower

def isSchemeChar (c : Char) : Bool :=
  c.isAlphanum || c = '+' || c = '-' || c = '.' || c = '~'

def schemeLimit : Nat := 64

/-- The scheme of a text, and what follows its two slashes. The two schemes of
HTTP may be written in either case, any other stays as it is. -/
def splitScheme (cs : List Char) : Option (List Char × List Char) :=
  if startsWithIgnoringCase "http://".toList cs then some ("http".toList, cs.drop 7)
  else if startsWithIgnoringCase "https://".toList cs then some ("https".toList, cs.drop 8)
  else
    match splitFirst ':' cs with
    | some (scheme, '/' :: '/' :: rest) =>
        if scheme.all isSchemeChar && scheme.length ≤ schemeLimit && cs.length > 3 then
          some (scheme, rest)
        else none
    | _ => none

def endsAuthority (c : Char) : Bool := c = '/' || c = '?' || c = '#'

def isAuthorityChar (c : Char) : Bool :=
  c.isAlphanum || "!$&'()*+,-.;=_~".toList.contains c

/-- What has been seen of an authority: colons and percent signs since its last
`@` or closing bracket, its brackets, and whether `@` came last. -/
structure Outline where
  colons : Nat
  percent : Bool
  opened : Bool
  closed : Bool
  endsInAt : Bool

namespace Outline

def empty : Outline := ⟨0, false, false, false, false⟩

def colonLimit : Nat := 8

def add (o : Outline) (c : Char) : Option Outline :=
  let o := { o with endsInAt := false }
  match c with
  | ':' => if o.colons < colonLimit then some { o with colons := o.colons + 1 } else none
  | '[' => if o.percent || o.opened then none else some { o with opened := true }
  | ']' =>
      if !o.opened || o.closed then none
      else some { o with closed := true, colons := 0, percent := false }
  | '@' => some { o with colons := 0, percent := false, endsInAt := true }
  | '%' => some { o with percent := true }
  | c => if isAuthorityChar c then some o else none

def isSound (o : Outline) : Bool :=
  o.opened == o.closed && o.colons ≤ 1 && !o.endsInAt && !o.percent

end Outline

def isAuthority (cs : List Char) : Bool :=
  !cs.isEmpty &&
    match cs.foldlM Outline.add Outline.empty with
    | some o => o.isSound
    | none => false

/-- Blanks, control characters and `<`, `>`, the back quote stand in no path. -/
def isPathChar (c : Char) : Bool :=
  0x20 < c.toNat && c ≠ '<' && c ≠ '>' && c ≠ '\x60'

/-- In a query the back quote may stand, but no `"`. -/
def isQueryChar (c : Char) : Bool :=
  0x20 < c.toNat && c ≠ '"' && c ≠ '<' && c ≠ '>'

/-- The path and the query; what follows `#` is no part of either. -/
def splitPath (cs : List Char) : List Char × Option (List Char) :=
  let cs := cs.takeWhile (· ≠ '#')
  match splitFirst '?' cs with
  | some (path, query) => (path, some query)
  | none => (cs, none)

/-- An empty path stands for the root. -/
def ofParts (scheme authority path : List Char) (query : Option (List Char)) : Endpoint :=
  ⟨String.ofList scheme, String.ofList authority,
    String.ofList (if path.isEmpty then ['/'] else path), query.map String.ofList⟩

/-- The most bytes that the whole of an endpoint may have. -/
def lengthLimit : Nat := 65534

def readChars (cs : List Char) : Option Endpoint :=
  match splitScheme cs with
  | none => none
  | some (scheme, rest) =>
      let authority := rest.takeWhile (fun c => !endsAuthority c)
      let (path, query) := splitPath (rest.dropWhile (fun c => !endsAuthority c))
      if (String.ofList cs).utf8ByteSize ≤ lengthLimit && isAuthority authority &&
          path.all isPathChar && (query.getD []).all isQueryChar then
        some (ofParts scheme authority path query)
      else none

/-- Does `"://"` occur? -/
def namesScheme : List Char → Bool
  | [] => false
  | c :: rest => ['/', '/'].isPrefixOf rest && c = ':' || namesScheme rest

/-- The endpoint of an address, if it is well formed. -/
def ofAddress? (address : String) : Option Endpoint :=
  let cs := address.toList
  readChars (if namesScheme cs then cs else "http://".toList ++ cs)

def toString (e : Endpoint) : String :=
  e.scheme ++ "://" ++ e.authority ++ e.path ++ ((e.query.map ("?" ++ ·)).getD "")

/-- A dial target must be the address of an endpoint. -/
def validate (target : String) : Except Error Unit :=
  match ofAddress? target with
  | some _ => .ok ()
  | none => .error (.invalidTarget target "Invalid address: invalid URI")

end Endpoint

end Rollcall
