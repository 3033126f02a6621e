import PgRelay.PyText.Str

/-!
# URLs

`urllib.parse.urlparse`, as far as the scheme and the hostname go. A `ValueError` is `none`: it is raised for
brackets in the network location that do not pair or do not hold an IPv6 address, and for characters that
compatibility normalization turns into a separator.

The Unicode tables and the syntax of IPv6 addresses are parameters.
-/

namespace PyText

/-- What `urlparse` takes from the rest of the library: `str.lower`, `unicodedata.normalize("NFKC", _)`,
whether `ipaddress.ip_address` finds an IPv6 address, and the text of the `ValueError`. -/
structure UrlTables where
  lower : StrLower
  nfkc : PyStr → PyStr
  isIpv6 : PyStr → Bool
  errorText : PyStr → PyStr

/-- The code point of a character. -/
def char (c : Char) : CodePoint := codePoint c.toNat

/-- What holds of the characters of a text holds of its code points. -/
theorem forall_mem_ofString {s : String} {P : CodePoint → Prop} [DecidablePred P]
    (h : (s.toList.all fun c => decide (P (char c))) = true) : ∀ c ∈ ofString s, P c := by
  intro c hc
  obtain ⟨d, hd, rfl⟩ := List.mem_map.mp hc
  exact of_decide_eq_true (List.all_eq_true.mp h d hd)

/-- `s.partition(c)`: the part before the first occurrence, whether there is one, and the part after it. -/
def partition (c : CodePoint) (s : PyStr) : PyStr × Bool × PyStr :=
  (s.takeWhile (· ≠ c), decide (c ∈ s), (s.dropWhile (· ≠ c)).tail)

/-- `s.rpartition(c)[2]`. -/
def afterLast (c : CodePoint) (s : PyStr) : PyStr := s.rtakeWhile (· ≠ c)

/-- `_WHATWG_C0_CONTROL_OR_SPACE`. -/
def isControlOrSpace (c : CodePoint) : Bool := c.val ≤ 32

/-- `_UNSAFE_URL_BYTES_TO_REMOVE`. -/
def unsafeUrlBytes : PyStr := [char '\t', char '\r', char '\n']

/-- An ASCII letter. -/
def isAsciiLetter (c : CodePoint) : Bool := 65 ≤ c.val && c.val ≤ 90 || 97 ≤ c.val && c.val ≤ 122

/-- An ASCII digit. -/
def isAsciiDigit (c : CodePoint) : Bool := 48 ≤ c.val && c.val ≤ 57

/-- `scheme_chars`. -/
def isSchemeChar (c : CodePoint) : Bool :=
  isAsciiLetter c || isAsciiDigit c || decide (c ∈ ofString "+-.")

/-- A hexadecimal digit. -/
def isHexDigit (c : CodePoint) : Bool :=
  isAsciiDigit c || 65 ≤ c.val && c.val ≤ 70 || 97 ≤ c.val && c.val ≤ 102

/-- `re.match(r"\Av[a-fA-F0-9]+\..+\Z", hostname)` for a hostname that starts with `v`. -/
def isIpvFuture (hostname : PyStr) : Bool :=
  let version := hostname.tail.takeWhile isHexDigit
  let rest := hostname.tail.dropWhile isHexDigit
  decide (version ≠ []) && decide (rest.head? = some (char '.')) && decide (rest.tail ≠ []) &&
    decide (char '\n' ∉ rest.tail)

section Urlparse

variable (tables : UrlTables)

/-- `_check_bracketed_host` does not raise. -/
def checkBracketedHost (hostname : PyStr) : Bool :=
  if hostname.head? = some (char 'v') then isIpvFuture hostname else tables.isIpv6 hostname

/-- `_check_bracketed_netloc` does not raise. -/
def checkBracketedNetloc (netloc : PyStr) : Bool :=
  let hostnameAndPort := afterLast (char '@') netloc
  let (beforeBracket, haveOpenBr, bracketed) := partition (char '[') hostnameAndPort
  if haveOpenBr then
    let (hostname, _, port) := partition (char ']') bracketed
    decide (beforeBracket = []) && (decide (port = []) || decide (port.head? = some (char ':'))) &&
      checkBracketedHost tables hostname
  else checkBracketedHost tables (partition (char ':') hostnameAndPort).1

/-- `_checknetloc` does not raise. -/
def checkNetloc (netloc : PyStr) : Bool :=
  if netloc = [] ∨ IsAscii netloc then true
  else
    let n := netloc.filter fun c => c ∉ ofString "@:#?"
    let netloc2 := tables.nfkc n
    decide (n = netloc2) || netloc2.all fun c => decide (c ∉ ofString "/?#@:")

/-- The parts of a `SplitResult` that are used. -/
structure SplitResult where
  scheme : PyStr
  netloc : PyStr

/-- The scheme of a URL and what follows it. -/
def splitScheme (url : PyStr) : PyStr × PyStr :=
  let (scheme, found, rest) := partition (char ':') url
  if found && (scheme.head?.any isAsciiLetter && scheme.all isSchemeChar) then (tables.lower.lower scheme, rest)
  else ([], url)

/-- `urlparse`. -/
def urlparse (url : PyStr) : Option SplitResult :=
  let url := (url.dropWhile isControlOrSpace).filter fun c => c ∉ unsafeUrlBytes
  let (scheme, url) := splitScheme tables url
  let netloc := if url.take 2 = ofString "//" then (url.drop 2).takeWhile fun c => c ∉ ofString "/?#" else []
  let opens := decide (char '[' ∈ netloc)
  let closes := decide (char ']' ∈ netloc)
  if opens ≠ closes then none
  else if opens && !checkBracketedNetloc tables netloc then none
  else if checkNetloc tables netloc then some ⟨scheme, netloc⟩
  else none

/-- `SplitResult.hostname`. -/
def SplitResult.hostname (parsed : SplitResult) : Option PyStr :=
  let hostinfo := afterLast (char '@') parsed.netloc
  let (_, haveOpenBr, bracketed) := partition (char '[') hostinfo
  let hostname := if haveOpenBr then (partition (char ']') bracketed).1 else (partition (char ':') hostinfo).1
  if hostname = [] then none
  else
    let (name, percent, zone) := partition (char '%') hostname
    some (tables.lower.lower name ++ if percent then char '%' :: zone else [])

end Urlparse

/-- Tables on which nothing depends that stays within ASCII and has no bracket. -/
def UrlTables.asciiOnly : UrlTables where
  lower := .asciiOnly
  nfkc s := s
  isIpv6 _ := false
  errorText _ := ofString "Invalid IPv6 URL"

example : ((urlparse .asciiOnly (ofString "HTTPS://me@Example.org:443/a?b")).bind
    (SplitResult.hostname .asciiOnly)) = some (ofString "example.org") := by
  decide +kernel

end PyText
