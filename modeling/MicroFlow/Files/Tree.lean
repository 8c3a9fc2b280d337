import MicroFlow.Files.Path

/-!
# Files

A tree of directories, files and symbolic links is a value, and so is every change of
it.  `locate` follows a path through the tree: a link is replaced by its target, at most
forty times; what is missing at the end of a path can be created there.

The operations are those that a program needs: to look at a place, to read and write a
file, and to make directories.  Each says in words why it failed.
-/

namespace MicroFlow

open MicroFlow.Text (Bytes)

/-- What stands at a place. -/
inductive Entry where
  | file (contents : Bytes)
  | directory (entries : List (Bytes × Entry))
  | link (target : Bytes)
deriving Inhabited

/-- Why a place cannot be used. -/
inductive PathFault where
  | missing
  | notDirectory
  | isDirectory
  | occupied
  | tooManyLinks
deriving DecidableEq, Repr

def PathFault.text : PathFault → String
  | missing => "no such file or directory"
  | notDirectory => "not a directory"
  | isDirectory => "is a directory"
  | occupied => "file exists"
  | tooManyLinks => "too many levels of symbolic links"

/-- An operation that failed at a path. -/
structure FileError where
  operation : String
  path : Bytes
  fault : PathFault
deriving DecidableEq, Repr

def FileError.message (e : FileError) : String :=
  e.operation ++ " " ++ Text.ofBytes e.path ++ ": " ++ e.fault.text

/-- A tree of files, and the place from which relative paths start. -/
structure Files where
  root : Entry := .directory []
  work : List Bytes := []
deriving Inhabited

namespace Entry

def isDirectory : Entry → Bool
  | directory _ => true
  | _ => false

/-- The entry of a name in a directory. -/
def child? (name : Bytes) : Entry → Option Entry
  | directory entries => entries.lookup name
  | _ => none

/-- The entry at the end of names; links are not followed. -/
def get? : List Bytes → Entry → Option Entry
  | [], e => some e
  | name :: rest, e => (e.child? name).bind (get? rest)

/-- Puts an entry under a name; names stay in order. -/
def insertNamed (name : Bytes) (e : Entry) : List (Bytes × Entry) → List (Bytes × Entry)
  | [] => [(name, e)]
  | (n, old) :: rest =>
    if n = name then (name, e) :: rest
    else if name < n then (name, e) :: (n, old) :: rest
    else (n, old) :: insertNamed name e rest

/-- Puts an entry at the end of names; directories on the way are made if they are missing. -/
def put (e : Entry) : List Bytes → Entry → Entry
  | [], new => new
  | name :: rest, new =>
    let entries := match e with
      | directory entries => entries
      | _ => []
    let below := (entries.lookup name).getD (directory [])
    directory (insertNamed name (put below rest new) entries)

end Entry

/-- Where a path leads. -/
inductive Location where
  /-- To an entry. -/
  | found (names : List Bytes)
  /-- To a name that is free in a directory. -/
  | free (names : List Bytes) (name : Bytes)
deriving Repr

namespace Files

/-- The number of links that are followed. -/
def maxLinks : Nat := 40

/-- How far the parts of a path lead before a link is followed. -/
inductive Reached where
  | location (l : Location)
  /-- To a link in a directory, with parts behind it. -/
  | link (here : List Bytes) (target : Bytes) (rest : List Bytes)

/--
Follows the parts of a path from a place up to the first link.  `follow` tells whether a link at
the end is followed too.
-/
def walk (root : Entry) (follow : Bool) (here : List Bytes) : List Bytes → Except PathFault Reached
  | [] => .ok (.location (.found here))
  | part :: rest =>
    match root.get? here with
    | some (.directory entries) =>
      if part == [] || part == Path.here then walk root follow here rest
      else if part == Path.up then walk root follow here.dropLast rest
      else
        match entries.lookup part with
        | none => if rest.isEmpty then .ok (.location (.free here part)) else .error .missing
        | some (.link target) =>
          if rest.isEmpty && !follow then .ok (.location (.found (here ++ [part])))
          else .ok (.link here target rest)
        | some _ => walk root follow (here ++ [part]) rest
    | _ => .error .notDirectory

/-- Follows the parts of a path from a place, and at most so many links. -/
def locateFrom (root : Entry) (follow : Bool) (links : Nat) (here parts : List Bytes) :
    Except PathFault Location :=
  match walk root follow here parts with
  | .error fault => .error fault
  | .ok (.location l) => .ok l
  | .ok (.link here target rest) =>
    match links with
    | 0 => .error .tooManyLinks
    | links + 1 =>
      locateFrom root follow links (if Path.isAbsolute target then [] else here)
        (Path.split target ++ rest)

/-- Where a path leads. -/
def locate (fs : Files) (follow : Bool) (path : Bytes) : Except PathFault Location :=
  if path == [] then .error .missing
  else
    locateFrom fs.root follow maxLinks (if Path.isAbsolute path then [] else fs.work)
      (Path.split path)

def entryAt (fs : Files) (follow : Bool) (path : Bytes) : Except PathFault Entry :=
  match fs.locate follow path with
  | .error e => .error e
  | .ok (.free _ _) => .error .missing
  | .ok (.found names) =>
    match fs.root.get? names with
    | some e => .ok e
    | none => .error .missing

/-- A fault as the failure of an operation. -/
def failing {α : Type} (operation : String) (path : Bytes) : Except PathFault α → Except FileError α
  | .ok a => .ok a
  | .error fault => .error ⟨operation, path, fault⟩

/-- The entry at a path, links followed. -/
def stat (fs : Files) (path : Bytes) : Except FileError Entry :=
  failing "stat" path (fs.entryAt true path)

/-- There is a directory at a path. -/
def isDirectory (fs : Files) (path : Bytes) : Bool :=
  match fs.entryAt true path with
  | .ok e => e.isDirectory
  | .error _ => false

/-- The contents of a file; a directory can be opened but not read. -/
def read (fs : Files) (path : Bytes) : Except FileError Bytes :=
  match fs.entryAt true path with
  | .error fault => .error ⟨"open", path, fault⟩
  | .ok (.file contents) => .ok contents
  | .ok _ => .error ⟨"read", path, .isDirectory⟩

/-- Writes a file, which is made if it is missing. -/
def write (fs : Files) (path : Bytes) (contents : Bytes) : Except FileError Files :=
  match fs.locate true path with
  | .error fault => .error ⟨"open", path, fault⟩
  | .ok (.free names name) => .ok { fs with root := fs.root.put (names ++ [name]) (.file contents) }
  | .ok (.found names) =>
    match fs.root.get? names with
    | some (.file _) => .ok { fs with root := fs.root.put names (.file contents) }
    | _ => .error ⟨"open", path, .isDirectory⟩

/-- Makes one directory.  A slash at the end of its path does not matter. -/
def makeDirectory (fs : Files) (path : Bytes) : Except FileError Files :=
  let trimmed := (path.reverse.dropWhile (· == Path.slash)).reverse
  match fs.locate false (if trimmed == [] then path else trimmed) with
  | .error fault => .error ⟨"mkdir", path, fault⟩
  | .ok (.free names name) => .ok { fs with root := fs.root.put (names ++ [name]) (.directory []) }
  | .ok (.found _) => .error ⟨"mkdir", path, .occupied⟩

/-- The paths of the directories above a path, the nearest first, each with a slash at its end. -/
def parentsOf (path : Bytes) : List Bytes :=
  let parts := (path.reverse.dropWhile (· == Path.slash)).reverse
  let ends := (List.range parts.length).filter fun i =>
    parts[i]? == some Path.slash && parts[i + 1]? != some Path.slash
  (ends.map fun i => parts.take (i + 1)).reverse

/-- Makes a directory if nothing is there. -/
def ensureDirectory (fs : Files) (path : Bytes) : Except FileError Files :=
  match fs.entryAt true path with
  | .ok e => if e.isDirectory then .ok fs else .error ⟨"mkdir", path, .notDirectory⟩
  | .error _ =>
    match fs.makeDirectory path with
    | .ok fs => .ok fs
    | .error e =>
      match fs.entryAt false path with
      | .ok (.directory _) => .ok fs
      | _ => .error e

/-- The directories that have to be made before a path, up to the first that is there. -/
def missingAbove (fs : Files) : List Bytes → List Bytes
  | [] => []
  | path :: rest =>
    match fs.entryAt true path with
    | .ok _ => [path]
    | .error _ => missingAbove fs rest ++ [path]

/-- Makes a directory and those above it. -/
def makeDirectories (fs : Files) (path : Bytes) : Except FileError Files :=
  match fs.entryAt true path with
  | .ok _ => fs.ensureDirectory path
  | .error _ => (fs.missingAbove (parentsOf path) ++ [path]).foldlM ensureDirectory fs

end Files

end MicroFlow
