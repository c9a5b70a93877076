import ApiTypes.Entries
import ApiTypes.Files.Path

/-!
  Files and directories.

  `Files` is what a program sees of them: what is at each path. A tree of directories in memory is
  one way to give it; `lookup` follows a path through such a tree, and `write` changes it.

  * A path that goes on after a file leads nowhere, even with `..` or `.`.
  * Above the directory where a path starts there is nothing but directories.
-/

namespace ApiTypes

/-- What is at a path. The entries of a directory are sorted by name. -/
inductive FileEntry where
  | text (content : String)
  /-- A file that cannot be read, and why. -/
  | unreadable (reason : String)
  | directory (entries : List (String × FileEntry))
  deriving Inhabited

/-- What is at each path. -/
abbrev Files := String → Option FileEntry

/-- Why a file is not there or cannot be written. -/
inductive FileFault where
  | missing
  | notDirectory
  | isDirectory
  deriving DecidableEq, Repr

/-- The wording of a fault. -/
def FileFault.message : FileFault → String
  | .missing => "No such file or directory (os error 2)"
  | .notDirectory => "Not a directory (os error 20)"
  | .isDirectory => "Is a directory (os error 21)"

namespace FileEntry

/-- Whether this is a directory. -/
def isDirectory : FileEntry → Bool
  | .directory _ => true
  | _ => false

/-- The entries of a directory. -/
def entries : FileEntry → List (String × FileEntry)
  | .directory entries => entries
  | _ => []

/-! ## 1. Following a path -/

/-- A place in a tree: the names and entries passed on the way, the last first. Without any it
    lies above the tree. -/
abbrev Trail := List (String × FileEntry)

/-- The entry at a place. -/
def Trail.here (trail : Trail) : FileEntry := (trail.head?.map (·.2)).getD (.directory [])

/-- Follows the pieces of a path. -/
def follow : List String → Trail → Except FileFault Trail
  | [], trail => .ok trail
  | piece :: rest, trail =>
    match Trail.here trail with
    | .directory entries =>
      if Path.isBlank piece then follow rest trail
      else if piece = ".." then follow rest (trail.drop 1)
      else
        match Entries.get? piece entries with
        | some entry => follow rest ((piece, entry) :: trail)
        | none => .error .missing
    | _ => .error .notDirectory

/-- Where a path starts in a tree. -/
def startOf (root : FileEntry) (path : String) : Trail :=
  if (Path.split path).start = ["/"] then [] else [("", root)]

/-- What is at a path in a tree. -/
def lookup (root : FileEntry) (path : String) : Option FileEntry :=
  if path = "" then none
  else
    match follow (Path.split path).body (startOf root path) with
    | .ok trail => some (Trail.here trail)
    | .error _ => none

/-! ## 2. Writing -/

/-- Puts a file at the end of a list of names. Directories on the way are made. -/
def put (content : String) : List String → FileEntry → FileEntry
  | [], _ => .text content
  | name :: names, entry =>
    let inner := (Entries.get? name entry.entries).getD (.directory [])
    .directory (Entries.insertSorted name (put content names inner) entry.entries)

/-- A tree of files given by their paths. -/
def ofList (files : List (String × String)) : FileEntry :=
  files.foldl (fun root file => put file.2 (Path.components file.1) root) (.directory [])

/-- Writes a file in a directory that is there. -/
def write (root : FileEntry) (path content : String) : Except FileFault FileEntry := do
  let body := (Path.split path).body
  if path = "" then throw .missing
  let trail ← follow body.dropLast (startOf root path)
  let name := body.getLast?.getD ""
  if !(Trail.here trail).isDirectory then throw .notDirectory
  if Path.isBlank name || name = ".." then throw .isDirectory
  if (Entries.get? name (Trail.here trail).entries).any isDirectory then throw .isDirectory
  match trail with
  | [] => return root
  | _ :: _ =>
    let names := (trail.map (·.1)).reverse.drop 1
    return put content (names ++ [name]) root

end FileEntry

end ApiTypes
