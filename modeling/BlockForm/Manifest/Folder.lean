import BlockForm.Manifest.Basic
import BlockForm.Text.Cut

/-!
# BlockForm.Manifest.Folder — manifests in a tree of folders

A manifest is looked for in a folder and then in the folders around it, up to the root of the tree.  Going up
follows the text of the path; whether a file is there follows the tree.
-/

namespace BlockForm

/-- Folders and files below a root, by the names that lead to them. -/
structure FileTree where
  folders : List (List String)
  files : List (List String × String)

/-- The names in a path. -/
def pathNames (path : String) : List String := (Text.pieces '/' path.toList).map String.ofList

/-- The text can be a path: it holds no NUL and is shorter than 4096 bytes, and no name in it is longer than
255 bytes. -/
def isPath (path : String) : Bool :=
  !path.toList.contains '\x00' && path.utf8ByteSize < 4096 &&
    (pathNames path).all fun name => name.utf8ByteSize ≤ 255

/-- The name stays in the folder it is in. -/
def staysPut (name : String) : Bool := name == "" || name == "."

namespace FileTree

/-- The root alone. -/
def empty : FileTree := ⟨[], []⟩

/-- There is a folder at a place. -/
def isFolder (t : FileTree) (place : List String) : Bool := place.isEmpty || t.folders.contains place

/-- Where names lead from a folder, if there is a folder on each step of the way. -/
def follow (t : FileTree) : (place : List String) → List String → Option (List String)
  | place, [] => some place
  | place, name :: names =>
    if t.isFolder place then
      if staysPut name then t.follow place names
      else if name = ".." then if place.isEmpty then none else t.follow place.dropLast names
      else t.follow (place ++ [name]) names
    else none

/-- Where a path leads. -/
def resolve (t : FileTree) (path : String) : Option (List String) :=
  if isPath path then t.follow [] (pathNames path) else none

/-- The file at the end of a path. -/
def read? (t : FileTree) (path : String) : Option String := do
  let place ← t.resolve path
  t.files.lookup place

/-- There is something at the end of a path. -/
def contains (t : FileTree) (path : String) : Bool :=
  match t.resolve path with
  | some place => t.isFolder place || (t.files.lookup place).isSome
  | none => false

/-- Writes the file at the end of a path, in a folder that is there. -/
def write? (t : FileTree) (path content : String) : Option FileTree := do
  let place ← t.resolve path
  if t.isFolder place || !t.isFolder place.dropLast then none
  else some { t with files := (place, content) :: t.files.filter fun f => f.1 != place }

/-- Makes the folders on the way along names. -/
def makeFolders (t : FileTree) : (place : List String) → List String → FileTree
  | _, [] => t
  | place, name :: names =>
    if staysPut name then t.makeFolders place names
    else if name = ".." then t.makeFolders place.dropLast names
    else
      let next := place ++ [name]
      let t := if t.isFolder next then t else { t with folders := t.folders ++ [next] }
      t.makeFolders next names

end FileTree

/-- Why a manifest cannot be had. -/
inductive ManifestError where
  | unreadable (path : String)
  | malformed (path : String)
  | unwritable (path : String)
  | missing
  deriving DecidableEq

/-- The wording of an error. -/
def ManifestError.message : ManifestError → String
  | unreadable path => "Failed to read " ++ path
  | malformed path => "Failed to parse " ++ path
  | unwritable path => "Failed to write " ++ path
  | missing =>
    "Could not find " ++ Manifest.fileName ++ " in the directory or any parent directory"

namespace Manifest

/-- The manifest in a file. -/
def load (t : FileTree) (path : String) : Except ManifestError Manifest :=
  match t.read? path with
  | none => .error (.unreadable path)
  | some text =>
    match parse? text with
    | some m => .ok m
    | none => .error (.malformed path)

/-- Writes a manifest to a file. -/
def save (m : Manifest) (t : FileTree) (path : String) : Except ManifestError FileTree :=
  match t.write? path m.render with
  | some t => .ok t
  | none => .error (.unwritable path)

/-- A path from its names, the last one first. -/
def pathOf (reversed : List String) : String := "/".intercalate reversed.reverse

/-- The path of the manifest file in a folder. -/
def fileIn (reversed : List String) : String :=
  match reversed with
  | [] => fileName
  | [""] => fileName
  | "" :: _ => pathOf reversed ++ fileName
  | _ => pathOf reversed ++ "/" ++ fileName

/-- A folder and the folders around it, names last to first. -/
def around : (reversed : List String) → List (List String)
  | [] => [[]]
  | name :: names => if staysPut name then around names else (name :: names) :: around names

/-- The path of a folder without names that stay put at its ends. -/
def tidyPath (reversed : List String) : String :=
  pathOf (((reversed.dropWhile staysPut).reverse.dropWhile staysPut).reverse)

/-- The manifest of the first folder that has one, with the path of the folder. -/
def findAmong (t : FileTree) : List (List String) → Except ManifestError (Manifest × String)
  | [] => .error .missing
  | folder :: folders =>
    if t.contains (fileIn folder) then do
      let m ← load t (fileIn folder)
      return (m, tidyPath folder)
    else findAmong t folders

/-- The manifest of a folder or the closest one around it. -/
def findFrom (t : FileTree) (path : String) : Except ManifestError (Manifest × String) :=
  let start := (pathNames path).reverse
  findAmong t (start :: (around start).tail)

/-- The manifest for work in a folder, which must be there. -/
def findAt (t : FileTree) (path : String) : Except ManifestError (Manifest × String) :=
  match t.resolve path with
  | some place => findAmong t (around place.reverse)
  | none => .error .missing

end Manifest

end BlockForm
