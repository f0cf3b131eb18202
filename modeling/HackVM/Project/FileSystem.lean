/-
  What a project needs of a file system, and why that may fail.
-/

namespace HackVM.Project

/-- The reasons why a file operation fails. -/
inductive FileError where
  | notFound
  | notADirectory
  | isADirectory
  | busy
  | nameTooLong
  | nulInPath
  | notUtf8
  | other (message : String)

/-- The text of the error. -/
def FileError.message : FileError → String
  | .notFound => "No such file or directory (os error 2)"
  | .notADirectory => "Not a directory (os error 20)"
  | .isADirectory => "Is a directory (os error 21)"
  | .busy => "Device or resource busy (os error 16)"
  | .nameTooLong => "File name too long (os error 36)"
  | .nulInPath => "file name contained an unexpected NUL byte"
  | .notUtf8 => "stream did not contain valid UTF-8"
  | .other message => message

/-- The file operations of a project, on paths. -/
class FileSystem (m : Type → Type) where
  isDirectory : (path : String) → m Bool
  isFile : (path : String) → m Bool
  /-- The names in a directory, in any order. -/
  names : (path : String) → m (List String)
  /-- The name under which a directory stands in the one that holds it. -/
  directoryName : (path : String) → m (Option String)
  read : (path : String) → m (Except FileError String)
  /-- Creates a file, or replaces what it holds. -/
  write : (path text : String) → m (Except FileError Unit)
  /-- Moves a file, perhaps over another. -/
  move : (source target : String) → m (Except FileError Unit)

end HackVM.Project
