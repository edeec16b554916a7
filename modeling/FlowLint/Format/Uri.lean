import FlowLint.Format.Host
import FlowLint.Text.Blank

/-!
Absolute URIs as browsers accept them. Only whether a text is one is decided. Path, query and
fragment can hold anything, so all that can go wrong stands before them: the scheme, the host and
the port.
-/

namespace FlowLint.Format.Uri

/-- How a scheme's name is followed. -/
inductive SchemeKind where
  | network | file | other
  deriving DecidableEq, Repr

/-- The kind of a scheme, whose name is in lower case. -/
def SchemeKind.ofName (name : String) : SchemeKind :=
  if name ∈ ["http", "https", "ws", "wss", "ftp"] then .network
  else if name = "file" then .file
  else .other

/-- A character of a scheme after its first, which is a letter. -/
def isSchemeChar (c : Char) : Bool := c.isAlphanum || c == '+' || c == '-' || c == '.'

/-- The scheme and what follows its colon. -/
def scheme? (cs : List Char) : Option (SchemeKind × List Char) :=
  match cs.takeWhile isSchemeChar, cs.dropWhile isSchemeChar with
  | c :: name, ':' :: rest =>
    if c.isAlpha then some (.ofName (String.ofList ((c :: name).map Char.toLower)), rest) else none
  | _,         _           => none

/-- Both slashes, where they mean the same. -/
def isSlash (c : Char) : Bool := c == '/' || c == '\\'

/-- What ends an authority. -/
def endsAuthority (kind : SchemeKind) (c : Char) : Bool :=
  c == '/' || c == '?' || c == '#' || (c == '\\' && kind != .other)

/-- The host up to a colon that is outside brackets, and what follows it. -/
def cutHost (inside : Bool) : List Char → List Char × List Char
  | []      => ([], [])
  | c :: cs =>
    if c = ':' ∧ !inside then ([], c :: cs)
    else
      let (host, rest) := cutHost (if c = '[' then true else if c = ']' then false else inside) cs
      (c :: host, rest)

/-- A port after its colon: digits up to a backslash or the end, of a value up to 65535. -/
def isPort (cs : List Char) : Bool :=
  let ds := cs.takeWhile (· != '\\')
  ds.all Char.isDigit && Decimal.digitsValue ds ≤ 65535

/-- A host and an optional port; `named` tells that a user stands before them. -/
def isHostAndPort (kind : SchemeKind) (named : Bool) (cs : List Char) : Bool :=
  let (host, rest) := cutHost false cs
  let hostFits :=
    if kind != .other then !host.isEmpty && Host.isNetworkHost host
    else if host.isEmpty then !named && rest.isEmpty
    else Host.isOpaqueHost host
  let portFits :=
    match rest with
    | ':' :: port => isPort port
    | _           => true
  hostFits && portFits

/-- An authority and all that follows it. Up to the last `@` it names a user, who may be left out,
    but not together with the host. -/
def isAuthority (kind : SchemeKind) (cs : List Char) : Bool :=
  let authority := cs.takeWhile (!endsAuthority kind ·)
  let last := (cs.dropWhile (!endsAuthority kind ·)).isEmpty
  match Text.cutAtLast? '@' authority with
  | none              => isHostAndPort kind false authority
  | some ([], host)   => (last || !host.isEmpty) && isHostAndPort kind false host
  | some (user, host) => isHostAndPort kind (user != [':']) host

/-- What follows the two slashes of a file: nothing, a drive letter or a host. -/
def isFileHost (cs : List Char) : Bool :=
  match cs.takeWhile fun c => !isSlash c && c != '?' && c != '#' with
  | []   => true
  | host =>
    match host with
    | [c, d] => (c.isAlpha && (d == ':' || d == '|')) || Host.isNetworkHost host
    | _      => Host.isNetworkHost host

/-- What follows the scheme. -/
def isTail : SchemeKind → List Char → Bool
  | .network, cs               => isAuthority .network (cs.dropWhile isSlash)
  | .file,    a :: b :: cs     => !(isSlash a && isSlash b) || isFileHost cs
  | .file,    _                => true
  | .other,   '/' :: '/' :: cs => isAuthority .other cs
  | .other,   _                => true

/-- The text is an absolute URI. Blanks and control characters around it do not count, nor do tabs
    and line ends within. -/
def isValid (s : String) : Bool :=
  let cs := Text.trim (·.toNat ≤ 0x20) s.toList
  match scheme? (cs.filter fun c => c != '\t' && c != '\n' && c != '\r') with
  | some (kind, tail) => isTail kind tail
  | none              => false

end FlowLint.Format.Uri
