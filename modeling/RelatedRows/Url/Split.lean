import RelatedRows.Text.Quoted
import RelatedRows.Url.Host

/-!
# Parts of a URL

A URL is cut into scheme, authority, path, query and fragment; control characters and blanks in front of it and tabs and
line ends wherever they stand are left out.

* `Url.split`: the parts of a text.  Square brackets in an authority stand around a host, which has to be an address
  then, and no character in it may stand for a delimiter in another form.
* `Url.join`: the text of five parts.  A scheme that needs an authority gets an empty one.
-/

namespace RelatedRows

open Text (Letter)

structure Url where
  scheme : List Letter
  authority : List Letter
  path : List Letter
  query : List Letter
  fragment : List Letter
deriving DecidableEq, Repr

inductive UrlError where
  | badBrackets
  | badFutureAddress
  /-- An address of version 4 stands without brackets. -/
  | bracketedAddress4
  | notAnAddress (host : String)
  /-- A character of the authority has a delimiter in its compatibility form. -/
  | hiddenDelimiter (authority : String)
deriving DecidableEq, Repr

def UrlError.message : UrlError → String
  | .badBrackets => "Invalid IPv6 URL"
  | .badFutureAddress => "IPvFuture address is invalid"
  | .bracketedAddress4 => "An IPv4 address cannot be in brackets"
  | .notAnAddress host => s!"{Text.quoted host} does not appear to be an IPv4 or IPv6 address"
  | .hiddenDelimiter a => s!"netloc '{a}' contains invalid characters under NFKC normalization"

namespace Url

/-- Left out in front of a URL. -/
def isControlOrBlank (l : Letter) : Bool :=
  l.is (· ≤ ' ')

/-- Left out everywhere in a URL. -/
def isDropped (l : Letter) : Bool :=
  l = .char '\t' || l = .char '\r' || l = .char '\n'

def isSchemeChar (c : Char) : Bool :=
  c.isAlphanum || c = '+' || c = '-' || c = '.'

def isScheme : List Letter → Bool
  | [] => false
  | l :: ls => l.is Char.isAlpha && ls.all (·.is isSchemeChar)

/-- The scheme in small letters, if there is one, and the rest. -/
def splitScheme (ls : List Letter) : List Letter × List Letter :=
  match Text.cut (.char ':') ls with
  | some (s, rest) => if isScheme s then (s.map Letter.toLower, rest) else ([], ls)
  | none => ([], ls)

def endsAuthority (l : Letter) : Bool :=
  l = .char '/' || l = .char '?' || l = .char '#'

/-- The authority behind two slashes, and the rest. -/
def splitAuthority : List Letter → List Letter × List Letter
  | .char '/' :: .char '/' :: ls => (ls.takeWhile (!endsAuthority ·), ls.dropWhile (!endsAuthority ·))
  | ls => ([], ls)

/-- The characters outside ASCII whose compatibility form holds one of `/ ? # @ :`. -/
def hiddenDelimiters : List Nat :=
  [0x2047, 0x2048, 0x2049, 0x2100, 0x2101, 0x2105, 0x2106, 0x2a74, 0xfe13, 0xfe16, 0xfe55, 0xfe56, 0xfe5f, 0xfe6b,
    0xff03, 0xff0f, 0xff1a, 0xff1f, 0xff20]

/-- The host of an authority with brackets in it.  Nothing stands between the user and a bracket or between a bracket
and the port. -/
def bracketedHost (a : List Letter) : Except UrlError (List Letter) :=
  let hostPort := Text.behindLast (.char '@') a
  match Text.cut (.char '[') hostPort with
  | none => .ok (Text.splitAtFirst (.char ':') hostPort).1
  | some (before, rest) =>
    let (host, port) := Text.splitAtFirst (.char ']') rest
    if before ≠ [] || port ≠ [] && port.head? ≠ some (.char ':') then .error .badBrackets else .ok host

def checkHost (host : List Letter) : Except UrlError Unit :=
  if host.head? = some (.char 'v') then
    if isFutureAddress host then .ok () else .error .badFutureAddress
  else if isAddress4 host then .error .bracketedAddress4
  else if isAddress6 host then .ok ()
  else .error (.notAnAddress (Text.ofLetters host))

def checkBrackets (a : List Letter) : Except UrlError Unit :=
  if a.contains (.char '[') ≠ a.contains (.char ']') then .error .badBrackets
  else if a.contains (.char '[') then bracketedHost a >>= checkHost
  else .ok ()

def checkAuthority (a : List Letter) : Except UrlError Unit := do
  checkBrackets a
  if a.any (fun l => hiddenDelimiters.contains l.code) then throw (.hiddenDelimiter (Text.ofLetters a))

def split (text : List Letter) : Except UrlError Url := do
  let (scheme, rest) := splitScheme ((text.dropWhile isControlOrBlank).filter (!isDropped ·))
  let (authority, rest) := splitAuthority rest
  checkAuthority authority
  let (rest, fragment) := Text.splitAtFirst (.char '#') rest
  let (path, query) := Text.splitAtFirst (.char '?') rest
  return ⟨scheme, authority, path, query, fragment⟩

/-- The schemes that are written with an authority even if it is empty. -/
def authoritySchemes : List String :=
  ["ftp", "http", "gopher", "nntp", "telnet", "imap", "wais", "file", "mms", "https", "shttp", "snews", "prospero",
    "rtsp", "rtspu", "rsync", "svn", "svn+ssh", "sftp", "nfs", "git", "git+ssh", "ws", "wss"]

def startsWithTwoSlashes : List Letter → Bool
  | .char '/' :: .char '/' :: _ => true
  | _ => false

def showsAuthority (u : Url) : Bool :=
  !u.authority.isEmpty ||
    (authoritySchemes.contains (Text.ofLetters u.scheme) && !startsWithTwoSlashes u.path)

/-- The path behind an authority starts with a slash, unless it is empty. -/
def rooted : List Letter → List Letter
  | [] => []
  | l :: ls => if l = .char '/' then l :: ls else .char '/' :: l :: ls

def join (u : Url) : List Letter :=
  (if u.scheme.isEmpty then [] else u.scheme ++ [.char ':']) ++
  (if u.showsAuthority then .char '/' :: .char '/' :: u.authority ++ rooted u.path else u.path) ++
  (if u.query.isEmpty then [] else .char '?' :: u.query) ++
  (if u.fragment.isEmpty then [] else .char '#' :: u.fragment)

end Url

end RelatedRows
