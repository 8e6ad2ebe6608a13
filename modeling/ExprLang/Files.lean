import ExprLang.Path

/-!
# Files

What can be read at a path, and why it cannot. A file tree holds files in memory.
-/

namespace ExprLang

/-- Why a file cannot be read. -/
inductive FileError where
  | missing
  /-- A name on the way is not a directory. -/
  | notDirectory
  | isDirectory
  deriving DecidableEq, Repr

/-- The text of an error at a path. -/
def FileError.message (path : String) : FileError → String
  | .missing => "open " ++ path ++ ": no such file or directory"
  | .notDirectory => "open " ++ path ++ ": not a directory"
  | .isDirectory => "read " ++ path ++ ": is a directory"

/-- Reads files by their paths. -/
abbrev FileReader := String → Except FileError (List UInt8)

/-- Files and directories by the names of their paths from the root; a directory has no content. The
    directories on the way to an entry need no entry of their own. -/
structure FileTree where
  entries : List (List String × Option (List UInt8)) := []

namespace FileTree

/-- Whether a path leads to a directory. -/
def hasDirectory (tree : FileTree) (names : List String) : Bool :=
  names.isEmpty || tree.entries.any fun (path, content) =>
    if path = names then content.isNone else names.isPrefixOf path

/-- The content of a file. -/
def content? (tree : FileTree) (names : List String) : Option (List UInt8) :=
  (tree.entries.lookup names).bind id

/-- Follows the names of a path from a place, which is given last name first. -/
def follow (tree : FileTree) (place : List String) : List String → Except FileError (List String)
  | [] => .ok place
  | name :: rest =>
    if tree.hasDirectory place.reverse then
      if name = "" ∨ name = "." then tree.follow place rest
      else if name = ".." then tree.follow place.tail rest
      else
        let next := name :: place
        if tree.hasDirectory next.reverse ∨ (tree.content? next.reverse).isSome then
          tree.follow next rest
        else .error .missing
    else .error .notDirectory

/-- Reads the file at a path; paths that do not begin at the root are seen from the working
    directory. -/
def read (tree : FileTree) (directory : String) : FileReader := fun path =>
  let start := if Path.isAbsolute path then [] else Path.reduced true [] (Path.names directory)
  match tree.follow start (Path.names path) with
  | .error e => .error e
  | .ok place =>
    match tree.content? place.reverse with
    | some bytes => .ok bytes
    | none => .error .isDirectory

end FileTree

end ExprLang
