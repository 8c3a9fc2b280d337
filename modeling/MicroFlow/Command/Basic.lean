import MicroFlow.Command.Flag
import MicroFlow.Text.Case

/-!
# Commands

The commands form a tree: the program itself, its commands, and the commands of these.  A
command is found by the words of the command line that are no flags, where a flag that
is not known to be a switch is taken to have a value.

A name that no command has gets those with a similar name as a suggestion.
-/

namespace MicroFlow

inductive Command where
  | program
  | analyze
  | graph
  | compare
  | slice
  | cache
  | cacheStats
  | cacheClear
  | init
  | doctor
  | help
  | completion
deriving DecidableEq, Repr

/-- How many words a command takes. -/
inductive Arity where
  | any
  | none
  | one
deriving DecidableEq, Repr

/-- Why a command line asks for nothing that can be done. -/
inductive CommandError where
  | unknown (name : String) (suggestions : List String)
  | flag (e : FlagError)
  | extraWord (word : String) (path : String)
  | wordCount (n : Nat)
deriving DecidableEq, Repr

def CommandError.message : CommandError → String
  | unknown name suggestions =>
    "unknown command " ++ Text.quote name ++ " for \"mca\"" ++
      (if suggestions.isEmpty then ""
        else "\n\nDid you mean this?\n" ++ String.join (suggestions.map fun s => "\t" ++ s ++ "\n"))
  | flag e => e.message
  | extraWord word path => "unknown command " ++ Text.quote word ++ " for " ++ Text.quote path
  | wordCount n => "accepts 1 arg(s), received " ++ toString n

namespace Command

/-- The path of a command from the program on. -/
def path : Command → String
  | program => "mca"
  | analyze => "mca analyze"
  | graph => "mca graph"
  | compare => "mca compare"
  | slice => "mca slice"
  | cache => "mca cache"
  | cacheStats => "mca cache stats"
  | cacheClear => "mca cache clear"
  | init => "mca init"
  | doctor => "mca doctor"
  | help => "mca help"
  | completion => "mca completion"

/-- The commands below a command, by name. -/
def children : Command → List (String × Command)
  | program =>
    [("analyze", analyze), ("graph", graph), ("compare", compare), ("slice", slice),
      ("cache", cache),
      ("init", init), ("doctor", doctor), ("help", help), ("completion", completion)]
  | cache => [("stats", cacheStats), ("clear", cacheClear)]
  | _ => []

/-- The flags that every command knows. -/
def commonFlags : List Flag :=
  [⟨"config", none, .text⟩, ⟨"verbose", none, .switch⟩, ⟨"log-json", none, .switch⟩]

def ownFlags : Command → List Flag
  | analyze =>
    [⟨"analysis", some 'a', .text⟩, ⟨"solver", some 's', .text⟩, ⟨"format", some 'f', .text⟩,
      ⟨"json", some 'j', .switch⟩, ⟨"output", some 'o', .text⟩, ⟨"no-cache", none, .switch⟩,
      ⟨"workers", some 'w', .number⟩]
  | graph => [⟨"dot", none, .switch⟩, ⟨"json", some 'j', .switch⟩]
  | compare => [⟨"analysis", some 'a', .text⟩, ⟨"json", some 'j', .switch⟩]
  | slice =>
    [⟨"edge", some 'e', .number⟩, ⟨"backward", none, .switch⟩, ⟨"forward", none, .switch⟩,
      ⟨"var", none, .text⟩, ⟨"json", some 'j', .switch⟩]
  | init => [⟨"global", none, .switch⟩, ⟨"yes", some 'y', .switch⟩]
  | _ => []

/-- The flags by which a command is looked for. -/
def knownFlags (c : Command) : List Flag := c.ownFlags ++ commonFlags

def flags (c : Command) : List Flag := c.knownFlags ++ [⟨"help", some 'h', .switch⟩]

def arity : Command → Arity
  | analyze | graph | compare | slice => .one
  | cacheStats | cacheClear | init | doctor => .none
  | _ => .any

/-- A command that does something; the others only tell how they are used. -/
def isAction : Command → Bool
  | program | cache | help | completion => false
  | _ => true

/-! ## Finding a command -/

/-- A flag that is no switch, so that the next word is its value. -/
def takesNext (c : Command) (word : String) : Bool :=
  match word.toList with
  | '-' :: '-' :: body =>
    !body.contains '=' && !c.knownFlags.any fun f =>
      f.kind == .switch && f.name == String.ofList body
  | ['-', letter] =>
    letter != '=' && letter.utf8Size == 1 && !c.knownFlags.any fun f =>
      f.kind == .switch && f.letter == some letter
  | _ => false

/-- The words that are neither flags nor values of flags. -/
def plainWords (c : Command) : List String → List String
  | [] => []
  | word :: rest =>
    if word == "--" then []
    else if c.takesNext word then
      match rest with
      | _ :: next :: more => plainWords c (next :: more)
      | _ => []
    else if word == "" || word.toList.head? == some '-' then plainWords c rest
    else word :: plainWords c rest

/-- Takes the first plain word with a name out of the words. -/
def without (c : Command) (name : String) : List String → List String
  | [] => []
  | word :: rest =>
    if word == "--" then word :: rest
    else if c.takesNext word then
      match rest with
      | [] => [word]
      | value :: more => word :: value :: without c name more
    else if word == name && word.toList.head? != some '-' then rest
    else word :: without c name rest

/-- Goes down to the command that the first plain word names, if it names one. -/
def descend (place : Command × List String) : Command × List String :=
  let (c, words) := place
  match c.plainWords words with
  | [] => (c, words)
  | name :: _ =>
    match c.children.lookup name with
    | some child => (child, c.without name words)
    | none => (c, words)

/-- The command that words name and the words that are left; the tree is two levels deep. -/
def locate (words : List String) : Command × List String := descend (descend (program, words))

/-! ## Suggestions -/

/-- The next row of the table of distances, from the one before. -/
def distanceRow (b : UInt8) : List UInt8 → Nat → List Nat → List Nat
  | t :: ts, left, above :: next :: row =>
    let d := if b == t then above else 1 + min (min next left) above
    d :: distanceRow b ts d (next :: row)
  | _, _, _ => []

/-- The number of bytes to insert, delete or replace between two texts. -/
def distance (s t : Text.Bytes) : Nat :=
  let first := List.range (t.length + 1)
  let last := s.foldl (fun row b =>
    let start := row.headD 0 + 1
    start :: distanceRow b t start row) first
  last.getLast?.getD 0

def isSimilar (typed name : String) : Bool :=
  let typed := Text.toLower typed
  distance (Text.toBytes typed) (Text.toBytes name) ≤ 2 || typed.toList.isPrefixOf name.toList

/-- The commands with a name similar to one that no command has. -/
def suggestions (typed : String) : List String :=
  ((program.children.filter (·.2 != help)).map (·.1)).filter (isSimilar typed)

/-! ## Understanding a command line -/

/-- Checks the number of words. -/
def checkWords (c : Command) (words : List String) : Except CommandError Unit :=
  match c.arity, words with
  | .none, word :: _ => .error (.extraWord word c.path)
  | .one, [_] => .ok ()
  | .one, words => .error (.wordCount words.length)
  | _, _ => .ok ()

/-- What a command line asks for. -/
inductive Intent where
  /-- To do something. -/
  | action (c : Command) (a : Arguments)
  /-- To tell how a command is used. -/
  | usage (c : Command)
deriving Repr

/-- The meaning of the words of a command line. -/
def parse (words : List String) : Except CommandError Intent := do
  let (c, rest) := locate words
  match c, c.plainWords rest with
  | program, name :: _ => .error (.unknown name (suggestions name))
  | _, _ =>
    match Flag.readAll c.flags rest {} with
    | .error e => .error (.flag e)
    | .ok a =>
      if a.isOn "help" || !c.isAction then return .usage c
      else do
        c.checkWords a.words
        return .action c a

end Command

end MicroFlow
