/-
  A file system in memory: directories and files below one root, and a current directory.
-/
import HackVM.Project.FileSystem
import HackVM.Project.Path

namespace HackVM.Project

/-- A file with its bytes, or a directory. -/
inductive Node where
  | file (bytes : ByteArray)
  | directory

def Node.isFile : Node → Bool
  | .file _ => true
  | .directory => false

def Node.isDirectory : Node → Bool
  | .file _ => false
  | .directory => true

/-- Entries by the names that lead to them from the root, which is always there, and the current
directory. -/
structure FileTree where
  entries : List (List String × Node) := []
  current : List String := []

namespace FileTree

/-- The entry at `place`. -/
def entry? (tree : FileTree) (place : List String) : Option Node :=
  if place.isEmpty then some .directory else tree.entries.lookup place

/-- Puts `entry` at `place`. -/
def insert (tree : FileTree) (place : List String) (entry : Node) : FileTree :=
  { tree with entries := tree.entries.filter (·.1 != place) ++ [(place, entry)] }

def erase (tree : FileTree) (place : List String) : FileTree :=
  { tree with entries := tree.entries.filter (·.1 != place) }

/-- Adds the directories on the way to `place`. -/
def ensureDirectories (tree : FileTree) (place : List String) : FileTree :=
  (List.range (place.length + 1)).foldl (fun tree length =>
    let place := place.take length
    if (tree.entry? place).isSome then tree else tree.insert place .directory) tree

/-- Adds a file at `place`, with `ensureDirectories`. -/
def addFile (tree : FileTree) (place : List String) (bytes : ByteArray) : FileTree :=
  (tree.ensureDirectories place.dropLast).insert place (.file bytes)

/-- The greatest number of bytes in a name. -/
def maxNameSize : Nat := 255

/-- The greatest number of bytes in a path. -/
def maxPathSize : Nat := 4095

/-- Rejects paths with NUL, empty paths, and paths above `maxPathSize`. -/
def checkPath (path : String) : Except FileError Unit :=
  if path.toList.contains '\x00' then .error .nulInPath
  else if path.isEmpty then .error .notFound
  else if maxPathSize < path.utf8ByteSize then .error .nameTooLong
  else .ok ()

/-- Follows the parts of a path from `place`. -/
def walk (tree : FileTree) (place : List String) : List String → Except FileError (List String)
  | [] => .ok place
  | part :: rest =>
    match tree.entry? place with
    | none => .error .notFound
    | some (.file _) => .error .notADirectory
    | some .directory =>
      if Path.isVoid part then walk tree place rest
      else if part = ".." then walk tree place.dropLast rest
      else if maxNameSize < part.utf8ByteSize then .error .nameTooLong
      else if (tree.entry? (place ++ [part])).isSome then walk tree (place ++ [part]) rest
      else .error .notFound

/-- The root for an absolute path, else the current directory. -/
def start (tree : FileTree) (path : String) : List String :=
  if path.toList.head? = some '/' then [] else tree.current

/-- The place of `path`, which must exist. -/
def locate (tree : FileTree) (path : String) : Except FileError (List String) := do
  checkPath path
  tree.walk (tree.start path) (Path.parts path)

/-- The entry at `path`. -/
def find? (tree : FileTree) (path : String) : Option Node :=
  match tree.locate path with
  | .ok place => tree.entry? place
  | .error _ => none

/-- The names in the directory at `place`. -/
def names (tree : FileTree) (place : List String) : List String :=
  tree.entries.filterMap fun (other, _) =>
    match other.getLast? with
    | some name => if other.dropLast = place then some name else none
    | none => none

/-- The place of a file to be created: its directory must exist. -/
def newPlace (tree : FileTree) (path : String) (parts : List String) :
    Except FileError (List String) := do
  let place ← tree.walk (tree.start path) parts.dropLast
  match tree.entry? place, parts.getLast? with
  | some .directory, some name =>
    if maxNameSize < name.utf8ByteSize then .error .nameTooLong else .ok (place ++ [name])
  | some (.file _), _ => .error .notADirectory
  | _, _ => .error .notFound

def read (tree : FileTree) (path : String) : Except FileError String := do
  match tree.entry? (← tree.locate path) with
  | some (.file bytes) =>
    match String.fromUTF8? bytes with
    | some text => .ok text
    | none => .error .notUtf8
  | some .directory => .error .isADirectory
  | none => .error .notFound

def write (tree : FileTree) (path text : String) : Except FileError FileTree := do
  checkPath path
  let place ← tree.newPlace path (Path.parts path)
  match tree.entry? place with
  | some .directory => .error .isADirectory
  | _ => .ok (tree.insert place (.file text.toUTF8))

/-- Moves a file. The target is no directory: neither an existing one, nor by a trailing slash, nor
by dots. -/
def move (tree : FileTree) (source target : String) : Except FileError FileTree := do
  let place ← tree.locate source
  checkPath target
  let parts := Path.parts target
  let named := (parts.reverse.dropWhile String.isEmpty).reverse
  match named.getLast? with
  | none => .error .busy
  | some name =>
    let targetPlace ← tree.newPlace target named
    if name = "." || name = ".." then throw .busy
    if named.length < parts.length then throw .notADirectory
    match tree.entry? place, tree.entry? targetPlace with
    | some entry, some (.file _) | some entry, none =>
      .ok ((tree.erase place).insert targetPlace entry)
    | some _, some .directory => .error .isADirectory
    | none, _ => .error .notFound

/-- Runs `operation` on the tree; on an error the tree is left as it was. -/
def update (operation : FileTree → Except FileError FileTree) :
    StateM FileTree (Except FileError Unit) := fun tree =>
  match operation tree with
  | .ok tree => (.ok (), tree)
  | .error error => (.error error, tree)

instance : FileSystem (StateM FileTree) where
  isDirectory path := return ((← get).find? path).any Node.isDirectory
  isFile path := return ((← get).find? path).any Node.isFile
  names path := do
    let tree ← get
    match tree.locate path with
    | .ok place => return tree.names place
    | .error _ => return []
  directoryName path := do
    match (← get).locate path with
    | .ok place => return place.getLast?
    | .error _ => return none
  read path := return (← get).read path
  write path text := update (·.write path text)
  move source target := update (·.move source target)

/-- The files below the current directory, with their relative paths. -/
def files (tree : FileTree) : List (String × ByteArray) :=
  tree.entries.filterMap fun (place, entry) =>
    match entry with
    | .file bytes =>
      if place.take tree.current.length = tree.current then
        some (String.intercalate "/" (place.drop tree.current.length), bytes)
      else none
    | .directory => none

end FileTree

end HackVM.Project
