import Hyperstory.Yaml.Scanner
import Hyperstory.Yaml.Tag

/-! The nodes of a YAML document. An alias is another way to the node it names, so nodes are kept in
a table and may hold themselves. -/
namespace Hyperstory.Yaml

abbrev NodeId := Nat

inductive Content where
  | scalar (text : List Char)
  | sequence (items : List NodeId)
  | mapping (entries : List (NodeId × NodeId))
  deriving Repr, Inhabited

structure Node where
  tag : Tag
  content : Content
  deriving Repr, Inhabited

structure Graph where
  nodes : Array Node := #[]
  anchors : List (String × NodeId) := []

namespace Graph

def node (g : Graph) (i : NodeId) : Node := g.nodes.getD i default

def modify (g : Graph) (i : NodeId) (f : Node → Node) : Graph :=
  { g with nodes := g.nodes.modify i f }

/-- Adds a node; two nodes cannot have the same name. -/
def add (g : Graph) (anchor : Option String) (n : Node) : Read (Graph × NodeId) :=
  let i := g.nodes.size
  let nodes := g.nodes.push n
  match anchor with
  | none => .ok ({ g with nodes }, i)
  | some a =>
    if (g.anchors.lookup a).isSome then .error .malformed
    else .ok ({ nodes, anchors := (a, i) :: g.anchors }, i)

end Graph

structure Properties where
  anchor : Option String := none
  /-- The tag in full; `!` leaves the kind open. -/
  tag : Option String := none

namespace Properties

def isEmpty (p : Properties) : Bool := p.anchor.isNone && p.tag.isNone

def collectionTag (p : Properties) (default : Tag) : Tag :=
  match p.tag with
  | none => default
  | some t => if t == "!" then default else Tag.ofName t

/-- The tag of a scalar. One that is plain, or whose tag leaves the kind open, shows its kind. -/
def scalarTag (p : Properties) (text : List Char) (plain : Bool) : Tag :=
  match p.tag with
  | none => if plain then Tag.ofPlain text else .str
  | some t => if t == "!" then Tag.ofPlain text else Tag.ofName t

end Properties

/-- What handles of tags stand for. -/
abbrev Handles := List (String × String)

def Handles.default : Handles := [("!", "!"), ("!!", Tag.space)]

def Handles.expand (hs : Handles) (handle : Option String) (suffix : String) : Read String :=
  match handle with
  | none => .ok suffix
  | some h =>
    match hs.lookup h with
    | some target => .ok (target ++ suffix)
    | none => .error .malformed

def unexpected {α : Type} : List Token → Read α
  | .broken d :: _ => .error d
  | _ => .error .malformed

/-- Reads the properties before a node: an anchor and a tag in any order. -/
def properties (hs : Handles) (ts : List Token) : Read (Properties × List Token) :=
  match ts with
  | .anchor _ :: .broken d :: _ | .tag _ _ :: .broken d :: _ => .error d
  | .anchor a :: .tag h s :: rest => do
    let t ← hs.expand h s
    .ok ({ anchor := some a, tag := some t }, rest)
  | .tag h s :: .anchor a :: rest => do
    let t ← hs.expand h s
    .ok ({ anchor := some a, tag := some t }, rest)
  | .anchor a :: rest => .ok ({ anchor := some a }, rest)
  | .tag h s :: rest => do
    let t ← hs.expand h s
    .ok ({ tag := some t }, rest)
  | _ => .ok ({}, ts)

structure Parsed (α : Type) where
  graph : Graph
  result : α
  rest : List Token

/-- The empty scalar where nothing is written. -/
def emptyNode (g : Graph) (ts : List Token) : Read (Parsed NodeId) := do
  let (g, i) ← g.add none { tag := .null, content := .scalar [] }
  .ok ⟨g, i, ts⟩

def comes (next : List Token) (ts : List Token) : Bool :=
  match ts with
  | [] => false
  | t :: _ => next.contains t

mutual

/-- Reads a node. In a block it may be a block itself; a sequence that is the value of a key need not
be indented. -/
def node (hs : Handles) (block loose : Bool) : Nat → Graph → List Token → Read (Parsed NodeId)
  | 0, _, _ => .error .malformed
  | n + 1, g, ts =>
    match ts with
    | .broken d :: _ => .error d
    | .alias a :: rest =>
      match g.anchors.lookup a with
      | some i => .ok ⟨g, i, rest⟩
      | none => .error .malformed
    | _ => do
      let (p, ts) ← properties hs ts
      let sequence (g : Graph) (read : Graph → Read (Parsed (List NodeId))) :
          Read (Parsed NodeId) := do
        let (g, i) ← g.add p.anchor { tag := p.collectionTag .seq, content := .sequence [] }
        let r ← read g
        .ok ⟨r.graph.modify i fun m => { m with content := .sequence r.result }, i, r.rest⟩
      let mapping (g : Graph) (read : Graph → Read (Parsed (List (NodeId × NodeId)))) :
          Read (Parsed NodeId) := do
        let (g, i) ← g.add p.anchor { tag := p.collectionTag .map, content := .mapping [] }
        let r ← read g
        .ok ⟨r.graph.modify i fun m => { m with content := .mapping r.result }, i, r.rest⟩
      let scalar (text : List Char) (plain : Bool) (rest : List Token) : Read (Parsed NodeId) := do
        let (g, i) ← g.add p.anchor { tag := p.scalarTag text plain, content := .scalar text }
        .ok ⟨g, i, rest⟩
      match ts with
      | .broken d :: _ => .error d
      | .scalar text plain :: rest => scalar text plain rest
      | .listOpen :: rest => sequence g fun g => listItems hs true n g rest
      | .mapOpen :: rest => mapping g fun g => mapEntries hs true n g rest
      | .sequenceStart :: rest =>
        if block then sequence g fun g => blockItems hs n g rest
        else if p.isEmpty then .error .malformed else scalar [] true ts
      | .mappingStart :: rest =>
        if block then mapping g fun g => blockEntries hs n g rest
        else if p.isEmpty then .error .malformed else scalar [] true ts
      | .entry :: _ =>
        if loose then sequence g fun g => looseItems hs n g ts
        else if p.isEmpty then .error .malformed else scalar [] true ts
      | _ => if p.isEmpty then .error .malformed else scalar [] true ts

/-- Reads a node, or nothing if one of `next` comes. -/
def nodeUnless (hs : Handles) (block loose : Bool) (next : List Token) :
    Nat → Graph → List Token → Read (Parsed NodeId)
  | 0, _, _ => .error .malformed
  | n + 1, g, ts => if comes next ts then emptyNode g ts else node hs block loose n g ts

def blockItems (hs : Handles) : Nat → Graph → List Token → Read (Parsed (List NodeId))
  | 0, _, _ => .error .malformed
  | n + 1, g, ts =>
    match ts with
    | .entry :: rest => do
      let r ← nodeUnless hs true false [.entry, .blockEnd] n g rest
      let more ← blockItems hs n r.graph r.rest
      .ok { more with result := r.result :: more.result }
    | .blockEnd :: rest => .ok ⟨g, [], rest⟩
    | _ => unexpected ts

def looseItems (hs : Handles) : Nat → Graph → List Token → Read (Parsed (List NodeId))
  | 0, _, _ => .error .malformed
  | n + 1, g, ts =>
    match ts with
    | .entry :: rest => do
      let r ← nodeUnless hs true false [.entry, .key, .value, .blockEnd] n g rest
      let more ← looseItems hs n r.graph r.rest
      .ok { more with result := r.result :: more.result }
    | .broken d :: _ => .error d
    | _ => .ok ⟨g, [], ts⟩

def entryValue (hs : Handles) (block : Bool) (next : List Token) :
    Nat → Graph → List Token → Read (Parsed NodeId)
  | 0, _, _ => .error .malformed
  | n + 1, g, ts =>
    match ts with
    | .value :: rest => nodeUnless hs block block next n g rest
    | .broken d :: _ => .error d
    | _ => emptyNode g ts

def blockEntries (hs : Handles) : Nat → Graph → List Token → Read (Parsed (List (NodeId × NodeId)))
  | 0, _, _ => .error .malformed
  | n + 1, g, ts =>
    match ts with
    | .key :: rest => do
      let k ← nodeUnless hs true true [.key, .value, .blockEnd] n g rest
      let v ← entryValue hs true [.key, .value, .blockEnd] n k.graph k.rest
      let more ← blockEntries hs n v.graph v.rest
      .ok { more with result := (k.result, v.result) :: more.result }
    | .blockEnd :: rest => .ok ⟨g, [], rest⟩
    | _ => unexpected ts

/-- The items of a list in brackets; a comma must come before any but the first. -/
def listItems (hs : Handles) (first : Bool) : Nat → Graph → List Token → Read (Parsed (List NodeId))
  | 0, _, _ => .error .malformed
  | n + 1, g, ts =>
    match ts with
    | .listClose :: rest => .ok ⟨g, [], rest⟩
    | _ =>
      let ts' := match first, ts with
        | true, ts => some ts
        | false, .comma :: rest => some rest
        | false, _ => none
      match ts' with
      | none => unexpected ts
      | some (.listClose :: rest) => .ok ⟨g, [], rest⟩
      | some (.key :: rest) => do
        let (g, i) ← g.add none { tag := .map, content := .mapping [] }
        let k ← nodeUnless hs false false [.value, .comma, .listClose] n g rest
        let v ← entryValue hs false [.comma, .listClose] n k.graph k.rest
        let g := v.graph.modify i fun m => { m with content := .mapping [(k.result, v.result)] }
        let more ← listItems hs false n g v.rest
        .ok { more with result := i :: more.result }
      | some ts => do
        let r ← node hs false false n g ts
        let more ← listItems hs false n r.graph r.rest
        .ok { more with result := r.result :: more.result }

def mapEntries (hs : Handles) (first : Bool) :
    Nat → Graph → List Token → Read (Parsed (List (NodeId × NodeId)))
  | 0, _, _ => .error .malformed
  | n + 1, g, ts =>
    match ts with
    | .mapClose :: rest => .ok ⟨g, [], rest⟩
    | _ =>
      let ts' := match first, ts with
        | true, ts => some ts
        | false, .comma :: rest => some rest
        | false, _ => none
      match ts' with
      | none => unexpected ts
      | some (.mapClose :: rest) => .ok ⟨g, [], rest⟩
      | some (.key :: rest) => do
        let k ← nodeUnless hs false false [.value, .comma, .mapClose] n g rest
        let v ← entryValue hs false [.comma, .mapClose] n k.graph k.rest
        let more ← mapEntries hs false n v.graph v.rest
        .ok { more with result := (k.result, v.result) :: more.result }
      | some ts => do
        let k ← node hs false false n g ts
        let v ← emptyNode k.graph k.rest
        let more ← mapEntries hs false n v.graph v.rest
        .ok { more with result := (k.result, v.result) :: more.result }

end

/-- The handles that directives declare before a document, and what follows the directives. -/
def directives : Option Nat → Handles → List Token → Read (Handles × List Token)
  | version, hs, .version major :: rest =>
    if version.isSome || major ≠ 1 then .error .malformed else directives (some major) hs rest
  | version, hs, .handle h target :: rest =>
    if (hs.lookup h).isSome then .error .malformed else directives version ((h, target) :: hs) rest
  | version, hs, .otherDirective :: rest => directives version hs rest
  | _, hs, ts => .ok (hs ++ Handles.default, ts)

def isDirective : Token → Bool
  | .version _ | .handle _ _ | .otherDirective => true
  | _ => false

/-- The root of the only document of a text; an empty text has none. -/
def document (ts : List Token) : Read (Option (Graph × NodeId)) := do
  let fuel := 6 * ts.length + 6
  let r ← match ts with
    | [] => .ok none
    | t :: _ =>
      if t = .documentStart || isDirective t then do
        let (hs, ts) ← directives none [] ts
        match ts with
        | .documentStart :: ts =>
          let bare : Bool := match ts with
            | [] => true
            | t :: _ => t = .documentStart || t = .documentEnd || isDirective t
          let r ← if bare then emptyNode {} ts else node hs true false fuel {} ts
          .ok (some r)
        | _ => unexpected ts
      else do
        let r ← node Handles.default true false fuel {} ts
        .ok (some r)
  match r with
  | none => .ok none
  | some r =>
    match r.rest.dropWhile (· = .documentEnd) with
    | [] => .ok (some (r.graph, r.result))
    | rest => do
      let (_, rest) ← directives none [] rest
      unexpected rest

end Hyperstory.Yaml
