import MicroFlow.Text.Utf8

/-!
# Paths

A path is a byte string of names divided by slashes.  One that starts with a slash is
absolute, any other is relative to the working directory.
-/

namespace MicroFlow.Path

open MicroFlow.Text (Bytes)

def slash : UInt8 := '/'.toUInt8
def point : UInt8 := '.'.toUInt8

/-- The part that stands for the directory itself. -/
def here : Bytes := [point]

/-- The part that stands for the directory above. -/
def up : Bytes := [point, point]

/-- The parts of a path between slashes, which may be empty. -/
def split : Bytes → List Bytes
  | [] => [[]]
  | b :: rest =>
    match split rest with
    | [] => [[b]]
    | part :: parts => if b == slash then [] :: part :: parts else (b :: part) :: parts

/-- A path with these parts. -/
def join (parts : List Bytes) : Bytes := [slash].intercalate parts

/-- The path starts with a slash. -/
def isAbsolute (path : Bytes) : Bool := path.head? == some slash

/--
Adds a part to the names of a path, the last one first: `.` and nothing add none, `..` takes
one away.  Above the root there is nothing; in front of a relative path `..` is kept.
-/
def step (absolute : Bool) (names : List Bytes) (part : Bytes) : List Bytes :=
  if part == [] || part == here then names
  else if part == up then
    match names with
    | [] => if absolute then [] else [up]
    | name :: rest => if name == up then up :: names else rest
  else part :: names

/-- The names of a path without superfluous parts. -/
def names (path : Bytes) : List Bytes :=
  ((split path).foldl (step (isAbsolute path)) []).reverse

/-- The shortest path with the same meaning. -/
def clean (path : Bytes) : Bytes :=
  match names path with
  | [] => if isAbsolute path then [slash] else here
  | parts => (if isAbsolute path then [slash] else []) ++ join parts

/-- A name or path below a directory. -/
def append (dir path : Bytes) : Bytes :=
  if dir == [] then (if path == [] then [] else clean path) else clean (dir ++ slash :: path)

/-- The directory of a path. -/
def parent (path : Bytes) : Bytes :=
  match (split path).dropLast with
  | [] => here
  | parts => if parts.all (· == []) then [slash] else clean (join parts)

/-- The last name of a path. -/
def base (path : Bytes) : Bytes :=
  if path == [] then here else (((split path).filter (· != [])).getLast?).getD [slash]

/-- The part of a name from its last point on. -/
def extensionOfName (name : Bytes) : Bytes :=
  if name.contains point then point :: (name.reverse.takeWhile (· != point)).reverse else []

/-- The extension of the last name of a path, with its point. -/
def extension (path : Bytes) : Bytes := extensionOfName (((split path).getLast?).getD [])

end MicroFlow.Path
