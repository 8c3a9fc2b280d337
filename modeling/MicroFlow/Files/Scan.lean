import MicroFlow.Files.Ignore
import MicroFlow.Files.Tree
import MicroFlow.Text.Blank
import MicroFlow.Text.Case

/-!
# Finding source files

A scan goes through the directories below a root and collects the source files, those
with one of certain extensions.  It passes over hidden names, over directories with
certain names, and over what the rules of ignore files exclude.  Links to files are
followed on demand, if they stay below the root.

The files come in the order of their paths.
-/

namespace MicroFlow

open MicroFlow.Text (Bytes)

/-- What a scan looks for. -/
structure ScanOptions where
  skipHidden : Bool := true
  followLinks : Bool := false
  excludes : List String := [".git", ".hg", ".svn", ".mca", "node_modules", "vendor", "build",
    "dist"]
  /-- The name of ignore files; without one there are none. -/
  ignoreFile : Bytes := ".mcaignore"
  extensions : List String := [".mc", ".microc"]

structure SourceFile where
  /-- Its path below the root. -/
  path : Bytes
  fullPath : Bytes
  size : Nat
deriving DecidableEq, Repr

/-- Why a scan fails. -/
inductive ScanError where
  | unreadableRoot (e : FileError)
  | notDirectory (root : Bytes)
  | ignoreFile (e : FileError)
  /-- A line of an ignore file is too long. -/
  | longLine
deriving DecidableEq, Repr

def ScanError.message : ScanError → String
  | unreadableRoot e => e.message
  | notDirectory root => Text.ofBytes root ++ " is not a directory"
  | ignoreFile e => "walking directory: loading ignore patterns: " ++ e.message
  | longLine => "walking directory: loading ignore patterns: bufio.Scanner: token too long"

namespace Scan

/-- The length of a line that is too long for an ignore file. -/
def lineLimit : Nat := 65536

def lineFeed : UInt8 := '\n'.toUInt8
def numberSign : UInt8 := '#'.toUInt8

/-- Puts a byte in front of lines; a line feed starts a new one. -/
def addByte (b : UInt8) : List Bytes → List Bytes
  | [] => [[b]]
  | line :: rest => if b == lineFeed then [] :: line :: rest else (b :: line) :: rest

def lines (contents : Bytes) : List Bytes := contents.foldr addByte [[]]

/-- The rule on a line; a blank line or a comment has none. -/
def ruleOf? (base line : Bytes) : Option IgnoreRule :=
  if line == [] || line.head? == some numberSign then none
  else some { IgnoreRule.ofLine line with base := base }

/-- The rules in an ignore file of a directory. -/
def rulesOf (contents dir : Bytes) : Except ScanError (List IgnoreRule) :=
  let found := lines contents
  if found.any (lineLimit ≤ ·.length) then .error .longLine
  else
    .ok (found.filterMap fun line =>
      ruleOf? (if dir == Path.here then [] else dir) (Text.trimBytes line))

/-- The rules of a directory; a missing ignore file has none. -/
def loadRules (opts : ScanOptions) (fs : Files) (fullPath dir : Bytes) :
    Except ScanError (List IgnoreRule) :=
  if opts.ignoreFile == [] then .ok []
  else
    match fs.read (Path.append fullPath opts.ignoreFile) with
    | .ok contents => rulesOf contents dir
    | .error e => if e.fault == .missing then .ok [] else .error (.ignoreFile e)

/-- Whether a name is hidden. -/
def isHidden (name : Bytes) : Bool := name.head? == some Path.point

/-- Whether a name has one of the extensions. -/
def isSource (opts : ScanOptions) (name : Bytes) : Bool :=
  opts.extensions.contains (Text.toLower (Text.ofBytes (Path.extension name)))

/-- Whether a directory is passed over for its name. -/
def isExcluded (opts : ScanOptions) (name : Bytes) : Bool :=
  (opts.skipHidden && isHidden name) || opts.excludes.any (Text.equalFold (Text.ofBytes name) ·)

/-- The contents behind a link, if it leads to a file below the root. -/
def linked? (opts : ScanOptions) (fs : Files) (root fullPath : Bytes) : Option Bytes :=
  if !opts.followLinks then none
  else
    match fs.locate true fullPath with
    | .ok (.found names) =>
      if (root ++ [Path.slash]).isPrefixOf (Path.slash :: Path.join names) then
        match fs.root.get? names with
        | some (.file contents) => some contents
        | _ => none
      else none
    | _ => none

/-- The path of a name below a directory, which may be the root. -/
def pathBelow (dir name : Bytes) : Bytes :=
  if dir == Path.here then name else dir ++ Path.slash :: name

/-- What a scan has collected: the rules so far and the files. -/
structure Found where
  rules : List IgnoreRule := []
  files : List SourceFile := []

/-- Adds a file, unless it is passed over. -/
def Found.add (found : Found) (opts : ScanOptions) (root dir name : Bytes)
    (contents : Option Bytes) : Found :=
  let path := pathBelow dir name
  if (opts.skipHidden && isHidden name) || !isSource opts name ||
      IgnoreRule.ignores found.rules path false then
    found
  else
    match contents with
    | some contents =>
      { found with files := found.files ++ [⟨path, root ++ Path.slash :: path, contents.length⟩] }
    | none => found

mutual

/-- Goes through an entry at a path. -/
def visit (opts : ScanOptions) (fs : Files) (root dir name : Bytes) (found : Found) :
    Entry → Except ScanError Found
  | .directory entries =>
    let path := pathBelow dir name
    if isExcluded opts name || IgnoreRule.ignores found.rules path true then .ok found
    else do
      let rules ← loadRules opts fs (root ++ Path.slash :: path) path
      visitAll opts fs root path { found with rules := found.rules ++ rules } entries
  | .file contents => .ok (found.add opts root dir name (some contents))
  | .link _ =>
    .ok (found.add opts root dir name (linked? opts fs root
      (root ++ Path.slash :: pathBelow dir name)))

/-- Goes through the entries of a directory. -/
def visitAll (opts : ScanOptions) (fs : Files) (root dir : Bytes) (found : Found) :
    List (Bytes × Entry) → Except ScanError Found
  | [] => .ok found
  | (name, e) :: rest => do
    let found ← visit opts fs root dir name found e
    visitAll opts fs root dir found rest

end

end Scan

def Files.absolute (fs : Files) (path : Bytes) : Bytes :=
  if Path.isAbsolute path then Path.clean path
  else Path.append (Path.slash :: Path.join fs.work) path

/-- The source files below a root, by their paths. -/
def scan (opts : ScanOptions) (fs : Files) (root : Bytes) : Except ScanError (List SourceFile) := do
  let full := fs.absolute root
  match fs.stat full with
  | .error e => .error (.unreadableRoot e)
  | .ok e =>
    if !e.isDirectory then .error (.notDirectory root)
    else
      match fs.entryAt false full with
      | .ok (.directory entries) =>
        let rules ← Scan.loadRules opts fs full Path.here
        let found ← Scan.visitAll opts fs (if full == [Path.slash] then [] else full) Path.here
          { rules := rules } entries
        return found.files.mergeSort fun a b => a.path ≤ b.path
      | _ => return []

end MicroFlow
