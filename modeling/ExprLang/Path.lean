import ExprLang.Text.LowerCase

/-!
# Paths

Paths are names with slashes between them. They are looked at as texts here: no file has to exist.
-/

namespace ExprLang.Path

/-- The names of a path; slashes next to each other have an empty name between them. -/
def names (path : String) : List String := path.splitOn "/"

/-- Whether a path begins at the root. -/
def isAbsolute (path : String) : Bool := path.startsWith "/"

/-- The names of a path, last first, without those that change nothing: empty ones, single points,
    and names that two points take back. -/
def reduced (rooted : Bool) (done : List String) : List String → List String
  | [] => done
  | name :: rest =>
    if name = "" ∨ name = "." then reduced rooted done rest
    else if name = ".." then
      match done with
      | [] => reduced rooted (if rooted then [] else [".."]) rest
      | last :: before =>
        if last = ".." then reduced rooted (".." :: done) rest else reduced rooted before rest
    else reduced rooted (name :: done) rest

/-- The shortest path that leads to the same place. -/
def clean (path : String) : String :=
  let rooted := isAbsolute path
  let inner := "/".intercalate (reduced rooted [] (names path)).reverse
  if rooted then "/" ++ inner else if inner = "" then "." else inner

/-- A path seen from a directory. -/
def join (directory path : String) : String :=
  if directory = "" then (if path = "" then "" else clean path)
  else clean (directory ++ "/" ++ path)

/-- A path that begins at the root; other paths are seen from the working directory. -/
def absolute (directory path : String) : String :=
  if isAbsolute path then clean path else join directory path

/-- A path in which a leading `~/` stands for the home directory. -/
def expandHome (home path : String) : String :=
  match path.toList with
  | '~' :: '/' :: rest => join home (String.ofList rest)
  | _ => path

/-- The ending of the last name, with its point, in small letters. -/
def ending (path : String) : String :=
  let last := path.toList.reverse.takeWhile (· ≠ '/')
  if last.contains '.' then
    Text.lower (String.ofList ('.' :: (last.takeWhile (· ≠ '.')).reverse))
  else ""

end ExprLang.Path
