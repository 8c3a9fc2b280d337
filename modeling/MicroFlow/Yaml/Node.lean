import MicroFlow.Yaml.Scalar
import MicroFlow.Yaml.Token

/-!
# YAML documents

The nodes of a document are scalars, lists and maps, each with the line on which it
starts and its tag.  A node can have an anchor, and a reference stands for the last node
before it with that anchor.  A list or map that a reference inside it stands for contains
itself; such a reference goes by a number, and the document tells what it stands for.

Only the first document of a text is read.
-/

namespace MicroFlow.Yaml

/-- A node of a document. -/
inductive Node where
  | scalar (line : Nat) (tag text : String)
  | list (line : Nat) (tag : String) (items : List Node)
  | map (line : Nat) (tag : String) (entries : List (Node × Node))
  /-- A reference to a node. -/
  | reference (line : Nat) (name : String) (target : Node)
  /-- A reference to a list or map around it, by its number. -/
  | within (line : Nat) (name : String) (number : Nat) (isMap : Bool)
deriving Repr, Inhabited

namespace Node

/-- The kinds of nodes, as far as keys are compared. -/
inductive Kind where
  | scalar
  | list
  | map
  | reference
deriving DecidableEq, Repr

def kind : Node → Kind
  | scalar .. => .scalar
  | list .. => .list
  | map .. => .map
  | reference .. | within .. => .reference

def line : Node → Nat
  | scalar line .. | list line .. | map line .. | reference line .. | within line .. => line

/-- The text by which a node is known: that of a scalar, or the name of a reference. -/
def label : Node → String
  | scalar _ _ text => text
  | reference _ name _ | within _ name .. => name
  | _ => ""

end Node

/-- Tags in this name space are written with two marks. -/
def standardTags : String := "tag:yaml.org,2002:"

/-- The short form of a tag. -/
def shortTag (tag : String) : String :=
  if standardTags.toList.isPrefixOf tag.toList then
    "!!" ++ String.ofList (tag.toList.drop standardTags.length)
  else tag

/-- A tag that was given, or the one that a node has otherwise. -/
def tagOr (given : String) (otherwise : String) : String :=
  if given == "" || given == "!" then otherwise else shortTag given

def scalarTag (given text : String) (quoting : Quoting) : String :=
  tagOr given (
    if quoting == .quoted then "!!str"
    else if text == "<<" then "!!merge"
    else (resolve true text).tag)

/-- A document: its node, and the lists and maps with an anchor by their numbers. -/
structure Document where
  root : Node
  numbered : List (Nat × Node) := []

/-- A node with an anchor: it may still be open. -/
inductive Anchored where
  | closed (node : Node)
  | opened (number : Nat) (isMap : Bool)

/-- What is left of the tokens, and the anchors so far. -/
structure Composing where
  rest : List Token
  /-- The text was read to its end. -/
  complete : Bool
  anchors : List (String × Anchored) := []
  /-- The lists and maps with an anchor that have ended. -/
  numbered : List (Nat × Node) := []
  /-- The number of lists and maps with an anchor that have begun. -/
  begun : Nat := 0
  handles : List (String × String) := []

/-- Reading nodes from tokens; it can fail. -/
abbrev Compose := StateT Composing Option

namespace Compose

/-- The next token, which may be missing only if the text could not be read. -/
def peek : Compose Token := do
  match (← get).rest with
  | t :: _ => return t
  | [] => failure

/-- Passes over the next token. -/
def skip : Compose Unit := modify fun s => { s with rest := s.rest.drop 1 }

/-- The kind of the next token. -/
def peekKind : Compose TokenKind := return (← peek).kind

/-- Passes over the next token if it is of a kind. -/
def accept (kind : TokenKind) : Compose Bool := do
  if (← peekKind) == kind then
    skip
    return true
  else return false

/-- The next token is one of these. -/
def peekIn (kinds : List TokenKind) : Compose Bool := return kinds.contains (← peekKind)

/-- A node without any text. -/
def emptyNode (line : Nat) : Node := .scalar line "!!null" ""

/-- Remembers what an anchor stands for. -/
def remember (anchor : String) (a : Anchored) : Compose Unit :=
  if anchor == "" then return () else modify fun s => { s with anchors := (anchor, a) :: s.anchors }

/-- The node that a reference stands for. -/
def dereference (line : Nat) (name : String) : Compose Node := do
  match (← get).anchors.lookup name with
  | some (.closed node) => return .reference line name node
  | some (.opened number isMap) => return .within line name number isMap
  | none => failure

/-- The full form of a tag. -/
def fullTag (handle suffix : String) : Compose String := do
  if handle == "" then return suffix
  else
    match (← get).handles.lookup handle with
    | some address => return address ++ suffix
    | none => failure

/-- What can stand in front of a node. -/
structure Properties where
  anchor : String := ""
  tag : String := ""
  /-- The line of the first of them. -/
  line : Option Nat := none

/-- Reads an anchor if there is one. -/
def readAnchor (p : Properties) : Compose Properties := do
  let t ← peek
  match t.kind with
  | .anchor name =>
    skip
    return { p with anchor := name, line := some (p.line.getD t.line) }
  | _ => return p

/-- Reads a tag if there is one. -/
def readTagOf (p : Properties) : Compose Properties := do
  let t ← peek
  match t.kind with
  | .tag handle suffix =>
    skip
    return { p with tag := ← fullTag handle suffix, line := some (p.line.getD t.line) }
  | _ => return p

/-- Reads an anchor and a tag, in either order. -/
def readProperties : Compose Properties := do
  let p ← readAnchor {}
  let p ← readTagOf p
  if p.anchor == "" then readAnchor p else return p

/-- Runs the reading of a list or map while its anchor is open, and closes it. -/
def anchored (p : Properties) (isMap : Bool) (read : Compose Node) : Compose Node := do
  let number := (← get).begun
  remember p.anchor (.opened number isMap)
  modify fun s => { s with begun := number + 1 }
  let node ← read
  remember p.anchor (.closed node)
  if p.anchor != "" then modify fun s => { s with numbered := (number, node) :: s.numbered }
  return node

mutual

/--
Reads a node.  `block` tells whether it may be a block, `dashes` whether it may be a list
without further indentation; `fuel` bounds the number of tokens.
-/
def readNode (block dashes : Bool) : Nat → Compose Node
  | 0 => failure
  | fuel + 1 => do
    let first ← peek
    match first.kind with
    | .reference name =>
      skip
      dereference first.line name
    | _ =>
      let p ← readProperties
      let t ← peek
      let line := p.line.getD t.line
      let listTag := tagOr p.tag "!!seq"
      let mapTag := tagOr p.tag "!!map"
      match t.kind with
      | .dash =>
        if dashes then
          anchored p false do return .list line listTag (← readDashed fuel)
        else emptyOr p line
      | .scalar text quoting =>
        skip
        let node := Node.scalar line (scalarTag p.tag text quoting) text
        remember p.anchor (.closed node)
        return node
      | .flowSequenceStart =>
        skip
        anchored p false do return .list line listTag (← readFlowItems true fuel)
      | .flowMappingStart =>
        skip
        anchored p true do return .map line mapTag (← readFlowEntries true fuel)
      | .sequenceStart =>
        if block then
          skip
          anchored p false do return .list line listTag (← readItems fuel)
        else emptyOr p line
      | .mappingStart =>
        if block then
          skip
          anchored p true do return .map line mapTag (← readEntries fuel)
        else emptyOr p line
      | _ => emptyOr p line

/-- A node of which only an anchor or a tag is there. -/
def emptyOr (p : Properties) (line : Nat) : Compose Node := do
  if p.anchor == "" && p.tag == "" then failure
  else
    let node := Node.scalar line (scalarTag p.tag "" .plain) ""
    remember p.anchor (.closed node)
    return node

/-- Reads a node, or the empty node before certain tokens. -/
def readNodeBefore (block dashes : Bool) (ends : List TokenKind) (line : Nat) : Nat → Compose Node
  | 0 => failure
  | fuel + 1 => do
    if ← peekIn ends then return emptyNode line else readNode block dashes fuel

/-- Reads the items of a block list. -/
def readItems : Nat → Compose (List Node)
  | 0 => failure
  | fuel + 1 => do
    let t ← peek
    if ← accept .dash then
      let item ← readNodeBefore true false [.dash, .blockEnd] t.line fuel
      return item :: (← readItems fuel)
    else if ← accept .blockEnd then return []
    else failure

/-- Reads the items of a list that is not indented further. -/
def readDashed : Nat → Compose (List Node)
  | 0 => failure
  | fuel + 1 => do
    let t ← peek
    if ← accept .dash then
      let item ← readNodeBefore true false [.dash, .key, .value, .blockEnd] t.line fuel
      return item :: (← readDashed fuel)
    else return []

/-- Reads the entries of a block map. -/
def readEntries : Nat → Compose (List (Node × Node))
  | 0 => failure
  | fuel + 1 => do
    let t ← peek
    if ← accept .key then
      let key ← readNodeBefore true true [.key, .value, .blockEnd] t.line fuel
      let v ← peek
      let value ←
        if ← accept .value then readNodeBefore true true [.key, .value, .blockEnd] v.line fuel
        else pure (emptyNode v.line)
      return (key, value) :: (← readEntries fuel)
    else if ← accept .blockEnd then return []
    else failure

/-- Reads the items of a list in brackets. -/
def readFlowItems (first : Bool) : Nat → Compose (List Node)
  | 0 => failure
  | fuel + 1 => do
    if ← accept .flowSequenceEnd then return []
    else
      if !first then
        if !(← accept .comma) then failure
      let t ← peek
      if ← accept .flowSequenceEnd then return []
      else if ← accept .key then
        let k ← peek
        let key ←
          if ← peekIn [.value, .comma, .flowSequenceEnd] then do
            skip
            pure (emptyNode k.line)
          else readNode false false fuel
        let v ← peek
        let value ←
          if ← accept .value then readNodeBefore false false [.comma, .flowSequenceEnd] v.line fuel
          else pure (emptyNode v.line)
        return .map t.line "!!map" [(key, value)] :: (← readFlowItems false fuel)
      else
        let item ← readNode false false fuel
        return item :: (← readFlowItems false fuel)

/-- Reads the entries of a map in brackets. -/
def readFlowEntries (first : Bool) : Nat → Compose (List (Node × Node))
  | 0 => failure
  | fuel + 1 => do
    if ← accept .flowMappingEnd then return []
    else
      if !first then
        if !(← accept .comma) then failure
      let t ← peek
      if ← accept .flowMappingEnd then return []
      else if ← accept .key then
        let key ← readNodeBefore false false [.value, .comma, .flowMappingEnd] t.line fuel
        let v ← peek
        let value ←
          if ← accept .value then readNodeBefore false false [.comma, .flowMappingEnd] v.line fuel
          else pure (emptyNode v.line)
        return (key, value) :: (← readFlowEntries false fuel)
      else
        let key ← readNode false false fuel
        return (key, emptyNode key.line) :: (← readFlowEntries false fuel)

end

/-! ## Documents -/

/-- The handles that every document knows. -/
def standardHandles : List (String × String) := [("!", "!"), ("!!", standardTags)]

/-- Reads the directives in front of a document. -/
def readDirectives (version : Bool) (handles : List (String × String)) : Nat → Compose Unit
  | 0 => failure
  | fuel + 1 => do
    match ← peekKind with
    | .version major minor =>
      if version || major != 1 || minor != 1 then failure
      else
        skip
        readDirectives true handles fuel
    | .tagPrefix handle address =>
      if (handles.lookup handle).isSome then failure
      else
        skip
        readDirectives version ((handle, address) :: handles) fuel
    | _ => modify fun s => { s with handles := handles ++ standardHandles }

/-- The tokens that end a document before it has begun. -/
def isDocumentEnd : TokenKind → Bool
  | .version .. | .tagPrefix .. | .documentStart | .documentEnd | .streamEnd => true
  | _ => false

/-- Reads the first document; a text without any has none. -/
def readDocument (fuel : Nat) : Compose (Option Node) := do
  match ← peekKind with
  | .streamEnd => return none
  | .version .. | .tagPrefix .. | .documentStart =>
    readDirectives false [] fuel
    let t ← peek
    if !(← accept .documentStart) then failure
    else if isDocumentEnd (← peekKind) then return some (emptyNode t.line)
    else return some (← readNode true false fuel)
  | _ =>
    modify fun s => { s with handles := standardHandles }
    return some (← readNode true false fuel)

/-- The token behind a document and the two after it have to be readable. -/
def checkEnd : Compose Unit := do
  let s ← get
  if s.complete || 3 ≤ s.rest.length then return () else failure

end Compose

/-- The first document of a text, if it has one; nothing at all if it cannot be read. -/
def Document.ofBytes (bytes : Text.Bytes) : Option (Option Document) := do
  let (tokens, complete) := Tokens.ofText (← charsOf bytes)
  let read : Compose (Option Document) := do
    let root ← Compose.readDocument (3 * tokens.size + 10)
    Compose.checkEnd
    let s ← get
    return root.map fun root => { root, numbered := s.numbered }
  (read.run { rest := tokens.toList, complete := complete }).map Prod.fst

end MicroFlow.Yaml
