/-
  Paths as texts: parts between slashes, of which empty ones and single dots count for nothing,
  except that a path may start with a dot or with the root.
-/
import HackVM.Text.Line

namespace HackVM.Project.Path

/-- The texts between the slashes. An absolute path has an empty first part. -/
def parts (path : String) : List String := path.splitOn "/"

/-- An empty part or a single dot. -/
def isVoid (part : String) : Bool := part.isEmpty || part == "."

/-- `parts` without the void ones at the end. -/
def dropVoid (parts : List String) : List String := (parts.reverse.dropWhile isVoid).reverse

/-- The parts of a path up to its last component. The first part of a path that is not empty always
counts: it is the root, a dot or a name. -/
def components (path : String) : List String :=
  match parts path with
  | [] | [""] => []
  | first :: rest => first :: dropVoid rest

/-- `parts` joined by slashes; the root alone is `/`. -/
def ofParts (parts : List String) : String :=
  if parts = [""] then "/" else String.intercalate "/" parts

/-- The last component, if it is a name. -/
def fileName? (path : String) : Option String :=
  (components path).getLast?.filter fun name => !isVoid name && name != ".."

/-- The part of a file name before its last dot, and the part behind it. A dot at the start does
not count. -/
def splitExtension (name : String) : String × Option String :=
  let chars := name.toList.reverse
  match chars.dropWhile (· != '.') with
  | [] | ['.'] => (name, none)
  | _ :: stem =>
    (String.ofList stem.reverse, some (String.ofList (chars.takeWhile (· != '.')).reverse))

/-- The last component without its extension. -/
def stem? (path : String) : Option String :=
  (fileName? path).map fun name => (splitExtension name).1

/-- The extension of the last component. -/
def extension? (path : String) : Option String :=
  (fileName? path).bind fun name => (splitExtension name).2

/-- A path without as many characters at its end as its extension has. The dot stays. -/
def dropExtension (path : String) : String :=
  match extension? path with
  | none => path
  | some extension => String.ofList (path.toList.take (path.length - extension.length))

/-- A path with another extension. The old one goes first, and a path that has no file name by then
stays as it is: `..vm` becomes the parent `..`. -/
def withExtension (path extension : String) : String :=
  let bare := dropExtension path
  match stem? bare with
  | none => bare
  | some stem => ofParts ((components bare).dropLast ++ [stem ++ "." ++ extension])

/-- The path of what holds the last component. The empty path and the root have none. -/
def parent? (path : String) : Option String :=
  match components path with
  | [] | [""] => none
  | [_] => some ""
  | first :: rest => some (ofParts (first :: dropVoid rest.dropLast))

/-- The path of a name inside a directory. -/
def join (directory name : String) : String :=
  if directory.isEmpty then name
  else if directory.toList.getLast? = some '/' then directory ++ name
  else directory ++ "/" ++ name

end HackVM.Project.Path
