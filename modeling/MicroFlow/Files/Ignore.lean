import MicroFlow.Files.Glob

/-!
# Rules for files to be ignored

A rule is a pattern for paths.  It is anchored if it has a slash before its end: then it is
matched against the whole path, otherwise against the last name.  `**` stands for any
number of names, a slash at the end restricts the rule to directories, and `!` in front
takes back what earlier rules ignore.

Rules apply below the directory of the file in which they stand.  The last one that
matches decides.
-/

namespace MicroFlow

open MicroFlow.Text (Bytes)

structure IgnoreRule where
  /-- The rule as it was written. -/
  text : Bytes
  negated : Bool
  directoryOnly : Bool
  anchored : Bool
  segments : List Bytes
  /-- The directory of the file in which it stands; nothing is the root. -/
  base : Bytes := []
deriving DecidableEq, Repr

namespace IgnoreRule

def exclamation : UInt8 := '!'.toUInt8

/-- The segment that stands for any number of names. -/
def anyNames : Bytes := [Glob.asterisk, Glob.asterisk]

/-- Reads a rule. -/
def ofLine (line : Bytes) : IgnoreRule :=
  let negated := line.head? == some exclamation
  let rest := if negated then line.drop 1 else line
  let directoryOnly := rest.getLast? == some Path.slash
  let rest := if directoryOnly then rest.dropLast else rest
  let rooted := rest.head? == some Path.slash
  let rest := if rooted then rest.drop 1 else rest
  { text := line
    negated := negated
    directoryOnly := directoryOnly
    anchored := rooted || rest.contains Path.slash
    segments := Path.split rest }

/-- Whether segments match the names of a path. -/
def matchNames : List Bytes → List Bytes → Bool
  | [], names => names.isEmpty
  | segment :: segments, names =>
    if segment == anyNames then
      (List.range (names.length + 1)).any fun i => matchNames segments (names.drop i)
    else
      match names with
      | [] => false
      | name :: rest => Glob.isMatch segment name && matchNames segments rest

/-- The part of a path below a directory. -/
def below? (base path : Bytes) : Option Bytes :=
  if base == [] then some path
  else
    let start := base ++ [Path.slash]
    if start.isPrefixOf path then some (path.drop start.length) else none

/-- Whether a rule matches a path below the root. -/
def isMatch (r : IgnoreRule) (path : Bytes) (directory : Bool) : Bool :=
  if r.directoryOnly && !directory then false
  else
    match below? r.base path with
    | none => false
    | some rest =>
      let names := Path.split rest
      if r.anchored then matchNames r.segments names
      else matchNames r.segments (names.drop (names.length - 1))

/-- Whether rules ignore a path: the last one that matches decides. -/
def ignores (rules : List IgnoreRule) (path : Bytes) (directory : Bool) : Bool :=
  rules.foldl (fun ignored r => if r.isMatch path directory then !r.negated else ignored) false

end IgnoreRule

end MicroFlow
