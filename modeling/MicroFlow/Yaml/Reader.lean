import MicroFlow.Data.Decoder
import MicroFlow.Text.Quoted
import MicroFlow.Yaml.Node

/-!
# Filling records from YAML

A document fits a record if it is a map: entries with unknown names are passed over, an
entry without a value leaves its field as it is, and a name must not occur twice.  The
entry `<<` brings in the entries of other maps, which do not replace those of the map
itself.

What does not fit is noted with its line, and reading goes on; what cannot be understood
at all ends it.
-/

namespace MicroFlow.Yaml

/-- Why a text does not fill a record. -/
inductive ReadError where
  /-- The text cannot be read. -/
  | malformed
  /-- Values that do not fit their fields. -/
  | misfits (problems : List String)
deriving DecidableEq, Repr

/-- The message for values that do not fit; what cannot be read has none. -/
def ReadError.message? : ReadError → Option String
  | .malformed => none
  | .misfits problems => some ("yaml: unmarshal errors:\n  " ++ "\n  ".intercalate problems)

/-- Reading knows the numbered nodes, notes what does not fit and can fail. -/
abbrev Fill := ReaderT (List (Nat × Node)) (StateT (List String) Option)

/-- The outcome of a reading from a document, and what does not fit. -/
def Fill.outcome {α : Type} (f : Fill α) (numbered : List (Nat × Node)) :
    Option (α × List String) :=
  (f.run numbered).run []

def note (problem : String) : Fill Unit := modify (· ++ [problem])

/-- At most ten bytes of a text; of a longer one the first seven. -/
def excerpt (s : String) : String :=
  let bytes := Text.toBytes s
  if 10 < bytes.length then Text.ofBytes (bytes.take 7) ++ "..." else s

/-- Notes that a value does not fit a type; with the tag of a list or map its text follows bare. -/
def noteMisfit (line : Nat) (tag text type : String) : Fill Unit :=
  let value := if tag == "!!seq" || tag == "!!map" then text else " \x60" ++ excerpt text ++ "\x60"
  note ("line " ++ toString line ++ ": cannot unmarshal " ++ tag ++ value ++ " into " ++ type)

/-! ## Scalars -/

/-- The value of a digit in base 64. -/
def sextet? (c : Char) : Option Nat :=
  if 'A' ≤ c ∧ c ≤ 'Z' then some (c.toNat - 'A'.toNat)
  else if 'a' ≤ c ∧ c ≤ 'z' then some (c.toNat - 'a'.toNat + 26)
  else if c.isDigit then some (c.toNat - '0'.toNat + 52)
  else if c == '+' then some 62
  else if c == '/' then some 63
  else none

/-- The bytes of a text in base 64, in groups of four that the last one fills up with `=`. -/
def ofBase64? : List Char → Option Text.Bytes
  | [] => some []
  | a :: b :: c :: d :: rest => do
    let x ← sextet? a
    let y ← sextet? b
    let first := UInt8.ofNat (x * 4 + y / 16)
    if c == '=' then
      if d == '=' && rest.isEmpty then some [first] else none
    else
      let z ← sextet? c
      let second := UInt8.ofNat (y % 16 * 16 + z / 4)
      if d == '=' then
        if rest.isEmpty then some [first, second] else none
      else
        let w ← sextet? d
        return first :: second :: UInt8.ofNat (z % 4 * 64 + w) :: (← ofBase64? rest)
  | _ => none

/-- What a scalar with a tag says. -/
inductive Meaning where
  | scalar (s : Scalar)
  /-- A text, which may differ from what is written. -/
  | text (s : String)

/-- What a scalar with a tag says; a standard tag has to be right. -/
def meaning? (tag text : String) : Option Meaning :=
  if tag == "!!str" then some (.text text)
  else if tag == "!!binary" then do
    let bytes ← ofBase64? (text.toList.filter fun c => c != '\n' && c != '\r')
    return .text (Text.ofBytes bytes)
  else if ["!!bool", "!!int", "!!float", "!!null", "!!timestamp"].contains tag then
    let s := resolve (tag == "!!timestamp") text
    if s.tag == tag then some (.scalar s)
    else
      match s with
      | .int n =>
        if tag == "!!float" && Text.minInt ≤ n && n ≤ Text.maxInt then
          (roundedWhole? n.natAbs 1).map fun whole =>
            .scalar (.real (.finite (decide (n < 0)) whole))
        else none
      | _ => none
  else some (.text text)

/-- The scalar, list or map that a node or a reference to it stands for. -/
inductive Value where
  | scalar (line : Nat) (tag text : String)
  | list (line : Nat) (tag : String) (items : List Node)
  | map (line : Nat) (tag : String) (entries : List (Node × Node))

/-- Follows references, given the numbered nodes. -/
def Node.value? (numbered : List (Nat × Node)) : Node → Option Value
  | .scalar line tag text => some (.scalar line tag text)
  | .list line tag items => some (.list line tag items)
  | .map line tag entries => some (.map line tag entries)
  | .reference _ _ target => target.value? numbered
  | .within _ _ number _ =>
    match numbered.lookup number with
    | some (.list line tag items) => some (.list line tag items)
    | some (.map line tag entries) => some (.map line tag entries)
    | _ => none

/-- What a node stands for. -/
def valueOf (n : Node) : Fill Value := do
  match n.value? (← read) with
  | some v => return v
  | none => failure

/-- The names that occur more than once among the keys of a map, each with both lines. -/
def repeatedKeys : List (Node × Node) → List String
  | [] => []
  | (k, _) :: rest =>
    let again := rest.filter fun (k', _) => decide (k.kind = k'.kind) && k.label == k'.label
    again.map (fun (k', _) => "line " ++ toString k'.line ++ ": mapping key " ++
      Text.quote k'.label ++
      " already defined at line " ++ toString k.line) ++ repeatedKeys rest

/-- Notes repeated keys; the answer tells whether there are none. -/
def uniqueKeys (entries : List (Node × Node)) : Fill Bool := do
  let problems := repeatedKeys entries
  modify (· ++ problems)
  return problems.isEmpty

/-- Reads a scalar; a list or a map does not fit. -/
def scalarOr (type : String) (n : Node) {α : Type}
    (read : Nat → String → String → Fill (Option α)) :
    Fill (Option α) := do
  match ← valueOf n with
  | .scalar line tag text => read line tag text
  | .list line tag _ =>
    noteMisfit line tag "" type
    return none
  | .map line tag entries =>
    if ← uniqueKeys entries then noteMisfit line tag "" type
    return none

/-- Fills a text; nothing leaves it as it is. -/
def fillText (n : Node) : Fill (Option String) :=
  scalarOr "string" n fun _ tag text => do
    match meaning? tag text with
    | none => failure
    | some (.scalar .null) => return none
    | some (.scalar _) => return some text
    | some (.text s) => return some s

/-- Fills a whole number. -/
def fillInt (n : Node) : Fill (Option Int) :=
  scalarOr "int" n fun line tag text => do
    match meaning? tag text with
    | none => failure
    | some (.scalar .null) => return none
    | some (.scalar (.int n)) =>
      if n ≤ Text.maxInt then return some n
      else
        noteMisfit line tag text "int"
        return none
    | some (.scalar (.real r)) =>
      match r.toInt? with
      | some n => return some n
      | none =>
        noteMisfit line tag text "int"
        return none
    | some _ =>
      noteMisfit line tag text "int"
      return none

/-- Fills a truth value. -/
def fillBool (n : Node) : Fill (Option Bool) :=
  scalarOr "bool" n fun line tag text => do
    match meaning? tag text with
    | none => failure
    | some (.scalar .null) => return none
    | some (.scalar (.bool b)) => return some b
    | some (.text s) =>
      match wordBool? s with
      | some b => return some b
      | none =>
        noteMisfit line tag text "bool"
        return none
    | some (.scalar _) =>
      noteMisfit line tag text "bool"
      return none

/-! ## Records -/

/-- A key that brings in other maps. -/
def isMerge : Node → Bool
  | .scalar _ tag text => text == "<<" && tag == "!!merge"
  | _ => false

/-- The maps that the value of a merging key brings in. -/
def mergedMaps (n : Node) : Option (List Node) :=
  let isMap : Node → Bool
    | .map .. => true
    | .reference _ _ (.map ..) => true
    | .within _ _ _ isMap => isMap
    | _ => false
  if isMap n then some [n]
  else
    match n with
    | .list _ _ items => if items.all isMap then some items else none
    | _ => none

/-- The names of the keys of a map that are texts. -/
def keyTexts (entries : List (Node × Node)) : Fill (List String) := do
  let numbered ← read
  return entries.filterMap fun (k, _) =>
    match k.value? numbered with
    | some (.scalar _ tag text) =>
      match meaning? tag text with
      | some (.text s) => some s
      | _ => none
    | _ => none

/--
Fills a record of a type from a node; `set` fills one field.  `taken` holds the names that
maps around it have set, if it is brought in by one of them; `fuel` bounds the nesting of
such maps.
-/
def fillFrom {R : Type} (type : String) (names : List String) (set : R → String → Node → Fill R) :
    Nat → Option (List String) → Node → R → Fill (R × Option (List String))
  | 0, _, _, _ => failure
  | fuel + 1, taken, n, r => do
    match ← valueOf n with
    | .scalar line tag text =>
      match meaning? tag text with
      | none => failure
      | some (.scalar .null) => return (r, taken)
      | some _ =>
        noteMisfit line tag text type
        return (r, taken)
    | .list line tag _ =>
      noteMisfit line tag "" type
      return (r, taken)
    | .map _ _ entries =>
      if !(← uniqueKeys entries) then return (r, taken)
      else
        let step (state : R × List String × Option (List String)) (entry : Node × Node) :
            Fill (R × List String × Option (List String)) := do
          let (r, done, taken) := state
          let (k, v) := entry
          if isMerge k then return state
          else
            match ← fillText k with
            | none => return state
            | some name =>
              if taken.any (·.contains name) then return state
              else
                let taken := taken.map (name :: ·)
                if !names.contains name then return (r, done, taken)
                else if done.contains name then
                  note ("line " ++ toString k.line ++ ": field " ++ name ++
                    " already set in type " ++ type)
                  return (r, done, taken)
                else return (← set r name v, name :: done, taken)
        let (r, _, taken') ← entries.foldlM step (r, [], taken)
        match (entries.filter fun (k, _) => isMerge k).getLast? with
        | none => return (r, taken')
        | some (_, source) =>
          match mergedMaps source with
          | none => failure
          | some maps =>
            let known ← keyTexts entries
            let bring (state : R × Option (List String)) (m : Node) :
              Fill (R × Option (List String)) :=
              fillFrom type names set fuel state.2 m state.1
            let (r, after) ← maps.foldlM bring (r, some (taken'.getD known))
            return (r, if taken'.isSome then after else none)

/-- Fills a record of a type from a node; `set` fills one field. -/
def fillRecord {R : Type} (type : String) (names : List String) (set : R → String → Node → Fill R)
    (n : Node) (r : R) : Fill R := do
  return (← fillFrom type names set 1000 none n r).1

/-! ## Records of any kind -/

/-- What a reading without problems yields. -/
def Fill.clean {α : Type} (numbered : List (Nat × Node)) (f : Fill α) : Option α :=
  match f.outcome numbered with
  | some (a, []) => some a
  | _ => none

/-- The items of a list without those that stand for nothing. -/
def presentItems (numbered : List (Nat × Node)) (items : List Node) : Option (List Node) :=
  items.filterM fun n =>
    match n.value? numbered with
    | some (.scalar _ "!!null" text) => (meaning? "!!null" text).map fun _ => false
    | _ => some true

/-- How a document fills records. -/
def decoder (numbered : List (Nat × Node)) : Decoder Node where
  int n old := ((fillInt n).clean numbered).map (·.getD old)
  text n old := ((fillText n).clean numbered).map (·.getD old)
  flag n old := ((fillBool n).clean numbered).map (·.getD old)
  record names n :=
    let collect (fields : List (String × Node)) (name : String) (v : Node) :
      Fill (List (String × Node)) :=
      return fields ++ [(name, v)]
    ((fillRecord "" names collect n []).clean numbered).map .fields
  list n := do
    match ← n.value? numbered with
    | .list _ _ items => return .items (← presentItems numbered items)
    | .scalar _ tag text =>
      match meaning? tag text with
      | some (.scalar .null) => return .absent
      | _ => none
    | _ => none
  refills := false

end MicroFlow.Yaml
