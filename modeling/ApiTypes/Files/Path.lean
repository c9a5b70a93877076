import ApiTypes.Text.Basic

/-!
  Paths of files.

  A path is cut at its slashes into pieces. Empty pieces and `.` stand for nothing, except that a
  slash at the start means the root and `.` at the start means the working directory.
-/

namespace ApiTypes.Path

/-! ## 1. Components -/

/-- The pieces of a path between its slashes. -/
def pieces (path : String) : List String := (path.toList.splitOn '/').map String.ofList

/-- Whether a piece stands for nothing. -/
def isBlank (piece : String) : Bool := piece = "" || piece = "."

/-- Where a path starts, and the pieces that lead on from there. -/
structure Split where
  /-- `/` for the root, `.` for the working directory if it is named, else nothing. -/
  start : List String
  body : List String
  deriving DecidableEq, Repr

/-- Cuts a path after its start. -/
def split (path : String) : Split :=
  match pieces path with
  | "" :: piece :: rest => ⟨["/"], piece :: rest⟩
  | "." :: rest => ⟨["."], rest⟩
  | body => ⟨[], body⟩

/-- The components of a path: its start and its pieces that stand for something. -/
def components (path : String) : List String :=
  (split path).start ++ (split path).body.filter (!isBlank ·)

/-! ## 2. Extensions -/

/-- What follows the last dot of a file name, unless that is where the name starts. -/
def extensionOf (name : String) : Option String :=
  let reversed := name.toList.reverse
  let ending := reversed.takeWhile (· ≠ '.')
  let stem := (reversed.drop ending.length).drop 1
  if stem.isEmpty then none else some (String.ofList ending.reverse)

/-- The name of the file at the end of a path. -/
def fileName? (path : String) : Option String :=
  (components path).getLast?.filter fun name => name ≠ ".." && name ≠ "." && name ≠ "/"

/-- The extension of the file at the end of a path. -/
def extension? (path : String) : Option String := (fileName? path).bind extensionOf

/-! ## 3. Joining and cutting -/

/-- The path of an entry of a directory. -/
def join (directory name : String) : String :=
  if Text.endsWith "/" directory then directory ++ name else directory ++ "/" ++ name

/-- Pieces without those at the end that stand for nothing. -/
def trimEnd (pieces : List String) : List String := (pieces.reverse.dropWhile isBlank).reverse

/-- Pieces after so many that stand for something. -/
def after : Nat → List String → List String
  | 0, pieces => pieces.dropWhile isBlank
  | _ + 1, [] => []
  | n + 1, piece :: rest => if isBlank piece then after (n + 1) rest else after n rest

/-- A path as seen from a directory that it starts with; the path itself when it does not. -/
def relativeTo (base path : String) : String :=
  let start := components base
  if start = [] then
    let parts := split path
    let body := trimEnd parts.body
    "/".intercalate (parts.start.map (fun piece => if piece = "/" then "" else piece) ++
      (if parts.start = ["/"] && body = [] then [""] else body))
  else if start.isPrefixOf (components path) then
    let parts := split path
    "/".intercalate (trimEnd (after (start.length - parts.start.length) parts.body))
  else path

end ApiTypes.Path
