import Hyperstory.Text.Blank
import Hyperstory.Text.Caseless
import Hyperstory.Url.Percent
import Hyperstory.Url.Punycode

/-! Destinations of links and images: taken apart, put together, encoded and decoded. -/
namespace Hyperstory

structure Url where
  protocol : Option (List Char) := none
  slashes : Bool := false
  auth : List Char := []
  hostname : List Char := []
  portDigits : List Char := []
  path : List Char := []
  search : List Char := []
  fragment : List Char := []
  deriving DecidableEq, Repr

namespace Url

/-- The parts one after the other, each as `write` gives it. A host with a colon in it stands in
square brackets, which are written as they are. -/
def format (write : List Char → List Char) (u : Url) : List Char :=
  let host := write u.hostname
  write (u.protocol.getD []) ++ (if u.slashes then "//".toList else []) ++
  (if u.auth.isEmpty then [] else write u.auth ++ ['@']) ++
  (if u.hostname.contains ':' then '[' :: host ++ [']'] else host) ++
  (if u.portDigits.isEmpty then [] else ':' :: u.portDigits) ++
  write (u.path ++ u.search ++ u.fragment)

def isProtocolChar (c : Char) : Bool :=
  let c := Text.foldToAscii c
  c.isAlphanum || c == '.' || c == '+' || c == '-'

def protocol? (cs : List Char) : Option (List Char) :=
  let name := cs.takeWhile isProtocolChar
  if !name.isEmpty && (cs.drop name.length).head? == some ':' then some (name ++ [':']) else none

/-- Protocols that always have two slashes before the host. -/
def isSlashed (protocol : List Char) : Bool :=
  ["http:", "https:", "ftp:", "gopher:", "file:"].contains (String.ofList protocol)

def isHostless (protocol : List Char) : Bool := String.ofList protocol == "javascript:"

/-- Characters that end a host and what may stand before it. -/
def endsHost (c : Char) : Bool := c == '/' || c == '?' || c == '#'

def notInHost (c : Char) : Bool := "%/?;#'\x7b\x7d|\\^\x60<>\" \r\n\t".toList.contains c

/-- Splits at the last `@`: what stands before it, and the rest. -/
def splitAuth (cs : List Char) : List Char × List Char :=
  let region := cs.takeWhile (!endsHost ·)
  let tail := (region.reverse.takeWhile (· != '@')).reverse
  if tail.length = region.length then ([], cs)
  else
    let auth := region.take (region.length - tail.length - 1)
    (auth, cs.drop (auth.length + 1))

/-- Splits a host into its name and the digits behind its last colon. -/
def splitPort (host : List Char) : List Char × List Char :=
  let digits := (host.reverse.takeWhile Char.isDigit).reverse
  let before := host.take (host.length - digits.length)
  if before.getLast? == some ':' then (before.dropLast, digits) else (host, [])

def isLabelChar (c : Char) : Bool := c.isAlphanum || c == '+' || c == '_' || c == '-'

/-- A label has at most 63 characters; letters outside ASCII are taken as they are. -/
def isLabel (cs : List Char) : Bool :=
  cs.length ≤ 63 && cs.all fun c => isLabelChar c || 127 < c.toNat

/-- Cuts a text at every point of a host name. -/
def labels (isPoint : Char → Bool) (cs : List Char) : List (List Char) := cs.splitOnP isPoint

def joinLabels (ls : List (List Char)) : List Char := ['.'].intercalate ls

/-- The longest host name at the beginning, and what is no part of it. -/
def splitHostname (before : List (List Char)) : List (List Char) → List Char × List Char
  | [] => (joinLabels before, [])
  | l :: ls =>
    if isLabel l then splitHostname (before ++ [l]) ls
    else
      let good := (l.takeWhile isLabelChar).take 63
      (joinLabels (before ++ [good]), joinLabels (l.drop good.length :: ls))

/-- Reads the host at the beginning of a text: the parts it gives, and the rest. -/
def readHost (u : Url) (cs : List Char) : Url × List Char :=
  let (auth, cs) := splitAuth cs
  let host := cs.takeWhile (!notInHost ·)
  let host := if host.getLast? == some ':' then host.dropLast else host
  let rest := cs.drop host.length
  let (name, digits) := splitPort host
  let bracketed := name.head? == some '[' && name.getLast? == some ']'
  let (name, extra) := if bracketed then (name, []) else splitHostname [] (labels (· == '.') name)
  let name := if name.length > 255 then [] else name
  let name := if bracketed then (name.take (name.length - 1)).drop 1 else name
  ({ u with auth := auth, hostname := name, portDigits := digits }, extra ++ rest)

def readPath (u : Url) (cs : List Char) : Url :=
  let front := cs.takeWhile (· != '#')
  let path := front.takeWhile (· != '?')
  { u with path, search := front.drop path.length, fragment := cs.drop front.length }

/-- Takes a destination apart; two slashes at the beginning announce a host. -/
def parse (cs : List Char) : Url :=
  let cs := Text.strip cs
  let protocol := protocol? cs
  let name := protocol.getD []
  let cs := cs.drop name.length
  let slashes := "//".toList.isPrefixOf cs && !isHostless name
  let u : Url := { protocol, slashes }
  let cs := if slashes then cs.drop 2 else cs
  if !isHostless name && (slashes || (protocol.isSome && !isSlashed name)) then
    let (u, cs) := readHost u cs
    readPath u cs
  else readPath u cs

def isPoint (c : Char) : Bool := ".。．｡".toList.contains c

/-- The host with each label changed, for destinations whose host is known to be one. -/
def mapHost (f : List Char → Option (List Char)) (u : Url) : Url :=
  let known := match u.protocol with
    | none => true
    | some p => ["http:", "https:", "mailto:"].contains (String.ofList p)
  if u.hostname.isEmpty || !known then u
  else
    match (labels isPoint u.hostname).mapM f with
    | some ls => { u with hostname := joinLabels ls }
    | none => u

def labelToAscii (l : List Char) : Option (List Char) :=
  if l.any (126 < ·.toNat) then some ("xn--".toList ++ Punycode.encode l) else some l

def labelToText (l : List Char) : Option (List Char) :=
  if "xn--".toList.isPrefixOf l then Punycode.decode? ((l.drop 4).map Char.toLower) else some l

/-- The form in which a document keeps a destination. -/
def normalize (cs : List Char) : List Char := format encode (mapHost labelToAscii (parse cs))

/-- The form in which a destination is read. -/
def readable (cs : List Char) : List Char := decode (format id (mapHost labelToText (parse cs)))

/-- The destination as its author wrote it. -/
def decodeDestination (url : String) : String :=
  if url.isEmpty then "" else String.ofList (readable url.toList)

def beginsWith (words : List String) (cs : List Char) : Bool :=
  words.any fun w => w.toList.isPrefixOf cs

/-- Destinations that run a program or read a file are refused; of data, images are accepted. -/
def isAllowed (cs : List Char) : Bool :=
  let cs := (Text.strip cs).map Char.toLower
  if beginsWith ["vbscript:", "javascript:", "file:", "data:"] cs then
    beginsWith ["data:image/gif;", "data:image/png;", "data:image/jpeg;", "data:image/webp;"] cs
  else true

end Url

end Hyperstory
