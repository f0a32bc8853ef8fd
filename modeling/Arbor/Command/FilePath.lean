/-!
# File paths

Paths with slashes, kept in a normal form: no empty parts and no parts that name the current
directory.  Parts that name the parent directory stay, since a link may be on the way.
-/

namespace Arbor

/-- A path: the slashes in front, and its parts. -/
structure FilePath where
  root : String
  parts : List String
deriving DecidableEq

namespace FilePath

/-- How many slashes a text begins with. -/
def leadingSlashes (text : List Char) : Nat :=
  (text.takeWhile (· == '/')).length

/-- The path written in a text.  Two slashes in front mean something else than one, more do
not. -/
def ofText (text : String) : FilePath where
  root :=
    match leadingSlashes text.toList with
    | 0 => ""
    | 2 => "//"
    | _ => "/"
  parts := (text.splitOn "/").filter fun part => part != "" && part != "."

/-- The text of a path. -/
def text (p : FilePath) : String :=
  if p.root = "" ∧ p.parts = [] then "." else p.root ++ "/".intercalate p.parts

/-- The path with something added to its last part. -/
def addToName (p : FilePath) (suffix : String) : FilePath :=
  match p.parts.reverse with
  | [] => p
  | name :: before => { p with parts := ((name ++ suffix) :: before).reverse }

/-- The parts without those that are taken back by a parent part, in reverse. -/
def collapse : List String → List String → List String
  | [], before => before
  | part :: rest, before =>
    if part = ".." then
      match before with
      | [] => collapse rest [part]
      | last :: earlier =>
        if last = ".." then collapse rest (part :: before) else collapse rest earlier
    else collapse rest (part :: before)

/-- The path of the same file when no link is on the way. -/
def direct (p : FilePath) : FilePath :=
  { p with parts := (collapse p.parts []).reverse }

end FilePath
end Arbor
