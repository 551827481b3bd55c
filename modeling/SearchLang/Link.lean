import SearchLang.Node.Basic
import SearchLang.Text.Punycode
import SearchLang.Text.Space

/-!
# Links

The scheme, the host and the port of a link, as browsers read them. Schemes of
the web have a host and a default port; in other links a host stands after two
slashes.
-/

namespace SearchLang

/-- The parts of a link that tell where it leads. -/
structure Link where
  scheme : Text
  host : Option Text
  /-- The port, unless it is the default of the scheme. -/
  port : Option Nat
  deriving DecidableEq, Repr

namespace Link

/-! ## Schemes -/

/-- The schemes of the web and their default ports. -/
def webSchemes : List (Text × Nat) :=
  [("http".toList, 80), ("https".toList, 443), ("ws".toList, 80), ("wss".toList, 443),
    ("ftp".toList, 21)]

/-- A character that a scheme may go on with. -/
def isSchemeRest (c : Char) : Bool :=
  c.isAlphanum || c == '+' || c == '-' || c == '.'

/-- The scheme in lower case, and what follows its colon. -/
def takeScheme? (s : Text) : Option (Text × Text) :=
  match s with
  | c :: rest =>
    let name := rest.takeWhile isSchemeRest
    match rest.drop name.length with
    | ':' :: after => if c.isAlpha then some (Text.toLowerAscii (c :: name), after) else none
    | _ => none
  | [] => none

/-! ## Hosts -/

/-- A character that no host may hold. -/
def isForbidden (c : Char) : Bool :=
  ['\x00', '\t', '\n', '\r', ' ', '#', '/', ':', '<', '>', '?', '@', '[', '\\', ']', '^', '|'].contains c

/-- A character that no host name may hold. -/
def isForbiddenInName (c : Char) : Bool :=
  isForbidden c || c == '%' || c.toNat < 32 || c.toNat == 127

/-- A label of a host name in ASCII. -/
def asciiLabel (label : Text) : Text :=
  if label.all fun c => c.toNat < 128 then label
  else "xn--".toList ++ Punycode.encode label

/-- The parts of a text between dots. -/
def labels (s : Text) : List Text :=
  s.splitOn '.'

/-- The number that a text of digits writes in a base. -/
def ofDigits? (base : Nat) (s : Text) : Option Nat :=
  s.foldlM (fun n c =>
    let value? :=
      if c.isDigit then some (c.toNat - '0'.toNat)
      else if 'a' ≤ c ∧ c ≤ 'f' then some (c.toNat - 'a'.toNat + 10)
      else none
    value?.bind fun v => if v < base then some (n * base + v) else none) 0

/-- A part of a numeric address: decimal, octal after `0`, or base sixteen after `0x`. -/
def addressPart? : Text → Option Nat
  | [] => none
  | ['0'] => some 0
  | '0' :: 'x' :: rest => ofDigits? 16 rest
  | '0' :: rest => ofDigits? 8 rest
  | s => ofDigits? 10 s

/-- The labels of a name without an empty one at the end. -/
def addressLabels (name : Text) : List Text :=
  let parts := labels name
  if parts.getLast? = some [] ∧ 1 < parts.length then parts.dropLast else parts

/-- Whether a host name is a numeric address: its last label is a number. -/
def endsInNumber (name : Text) : Bool :=
  match (addressLabels name).getLast? with
  | some last => (!last.isEmpty && last.all Char.isDigit) ||
      (last.take 2 == ['0', 'x'] && (addressPart? last).isSome)
  | none => false

/-- The four bytes of an address with dots between them. -/
def renderAddress (n : Nat) : Text :=
  let bytes := [n / 256 / 256 / 256, n / 256 / 256 % 256, n / 256 % 256, n % 256]
  Text.join ['.'] (bytes.map Decimal.digits)

/-- The address that the parts of a numeric host write: one byte each, the last one fills up. -/
def address? (name : Text) : Option Text :=
  match (addressLabels name).mapM addressPart? with
  | none => none
  | some parts =>
    let leading := parts.dropLast
    let last := parts.getLastD 0
    if 4 < parts.length || leading.any fun p => 255 < p then none
    else if Nat.pow 256 (5 - parts.length) ≤ last then none
    else
      let high := leading.foldl (fun n p => n * 256 + p) 0
      some (renderAddress (high * Nat.pow 256 (5 - parts.length) + last))

/-- Undoes percent escapes of ASCII characters. -/
def unescape : Text → Text
  | '%' :: a :: b :: rest =>
    match ofDigits? 16 (Text.toLowerAscii [a, b]) with
    | some n => if n < 128 then Char.ofNat n :: unescape rest else '%' :: a :: b :: unescape rest
    | none => '%' :: unescape (a :: b :: rest)
  | c :: rest => c :: unescape rest
  | [] => []

/-- The host of a link of the web: a name in ASCII lower case, a numeric address, or an address
in brackets. -/
def webHost? (s : Text) : Option Text :=
  match s with
  | '[' :: rest =>
    if rest.getLast? = some ']' ∧ rest.length ≥ 3 ∧
        (rest.dropLast.all fun c => c.isDigit || c == ':' || c == '.' ||
          ('a' ≤ c.toLower ∧ c.toLower ≤ 'f')) then
      some (Text.toLowerAscii s)
    else none
  | _ =>
    let name := Text.join ['.'] ((labels (Text.toLowerAscii (unescape s))).map asciiLabel)
    if name.isEmpty || name.any isForbiddenInName then none
    else if endsInNumber name then address? name
    else some name

/-- The host of any other link, which is kept as it is; an empty one is none. -/
def otherHost? (s : Text) : Option (Option Text) :=
  if s.isEmpty then some none
  else match s with
  | '[' :: _ => (webHost? s).map some
  | _ => if s.any isForbidden then none else some (some s)

/-! ## Authorities -/

/-- A port after its colon; an empty one is none. Outer `none` is a malformed port. -/
def port? (digits : Text) : Option (Option Nat) :=
  if !digits.all Char.isDigit then none
  else
    let n := Decimal.ofDigits digits
    if 65535 < n then none else some (if digits.isEmpty then none else some n)

/-- The part of an authority after the last `@`. -/
def dropUser (s : Text) : Text :=
  (s.reverse.takeWhile (· != '@')).reverse

/-- The host of an authority, and the port text after its colon if there is a colon. -/
def splitPort (s : Text) : Text × Option Text :=
  let host :=
    if s.head? = some '[' then
      let inside := s.takeWhile (· != ']')
      inside ++ ((s.drop inside.length).takeWhile (· != ':'))
    else s.takeWhile (· != ':')
  match s.drop host.length with
  | ':' :: port => (host, some port)
  | _ => (host, none)

/-- The end of an authority. -/
def endsAuthority (isWeb : Bool) (c : Char) : Bool :=
  c == '/' || c == '?' || c == '#' || (isWeb && c == '\\')

/-- The link with a scheme and an authority. -/
def ofAuthority? (scheme : Text) (defaultPort : Option Nat) (s : Text) : Option Link :=
  let authority := s.takeWhile fun c => !endsAuthority defaultPort.isSome c
  let (host, port) := splitPort (dropUser authority)
  match (if defaultPort.isSome then (webHost? host).map some else otherHost? host),
    port?  (port.getD []) with
  | some host, some number =>
    if host.isNone && (port.isSome || authority.contains '@') then none
    else some ⟨scheme, host, if number = defaultPort then none else number⟩
  | _, _ => none

/-- The link to a file. Only a name after two slashes is a host. -/
def ofFile? (s : Text) : Option Link :=
  match s with
  | a :: b :: rest =>
    if (a == '/' || a == '\\') && (b == '/' || b == '\\') then
      let host := rest.takeWhile fun c => !endsAuthority true c
      if host.isEmpty then some ⟨"file".toList, none, none⟩
      else (webHost? host).map fun h =>
        ⟨"file".toList, if h = "localhost".toList then none else some h, none⟩
    else some ⟨"file".toList, none, none⟩
  | _ => some ⟨"file".toList, none, none⟩

/-- Reads a link. Control characters and spaces around it do not count, nor do tabs and line
breaks in it. -/
def read? (s : Text) : Option Link :=
  let s := (Text.trim (fun c => c.toNat ≤ 32) s).filter fun c =>
    c != '\t' && c != '\n' && c != '\r'
  match takeScheme? s with
  | none => none
  | some (scheme, rest) =>
    if scheme = "file".toList then ofFile? rest
    else match webSchemes.lookup scheme with
    | some port =>
      ofAuthority? scheme (some port) (rest.dropWhile fun c => c == '/' || c == '\\')
    | none =>
      match rest with
      | '/' :: '/' :: authority => ofAuthority? scheme none authority
      | _ => some ⟨scheme, none, none⟩

end Link

/-- Where a link leaf leads. -/
def Node.link? : Node → Option Link
  | .leaf (.text .url value) _ => Link.read? value
  | _ => none

end SearchLang
