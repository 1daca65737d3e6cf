import BlockForm.Code.Unit
import BlockForm.Manifest.Quoting
import BlockForm.Manifest.Reader

/-!
# BlockForm.Manifest.Basic — the configuration of a project

A manifest names the package and holds the options of lowering.  Name and version must be given, all else has a
default; keys the manifest does not know are ignored.
-/

namespace BlockForm

/-- The package of a project. -/
structure Package where
  name : String
  version : String
  edition : String := "2026"
  deriving DecidableEq

/-- The configuration of a project. -/
structure Manifest where
  package : Package
  lowering : Options := {}
  deriving DecidableEq

namespace Manifest

/-- The name of the file a manifest is kept in. -/
def fileName : String := "tern.toml"

/-- The manifest of a new project. -/
def new (name : String) : Manifest := ⟨⟨name, "0.1.0", "2026"⟩, {}⟩

/-- A string. -/
def readText : DocumentValue → Option String
  | .text s => some s
  | _ => none

/-- A truth value. -/
def readBool : DocumentValue → Option Bool
  | .bool b => some b
  | _ => none

/-- A value that may be missing, and must be of the right kind if it is there. -/
def readOr {α : Type} (read : DocumentValue → Option α) (default : α) : Option DocumentValue → Option α
  | some v => read v
  | none => some default

/-- The package from the values of its fields. -/
def packageOf (name version edition : Option DocumentValue) : Option Package := do
  return ⟨← readText (← name), ← readText (← version), ← readOr readText "2026" edition⟩

/-- The options from the values of their fields. -/
def optionsOf (stem verify : Option DocumentValue) : Option Options := do
  let defaults : Options := {}
  return ⟨← readOr readText defaults.literalStem stem, ← readOr readBool defaults.verify verify⟩

/-- A package, given as a table or as the list of its fields. -/
def readPackage : DocumentValue → Option Package
  | .table _ es => packageOf (es.lookup "name") (es.lookup "version") (es.lookup "edition")
  | .array items => packageOf items[0]? items[1]? items[2]?
  | _ => none

/-- Options, given as a table or as the list of their fields; a date counts as a table without known keys. -/
def readOptions : DocumentValue → Option Options
  | .table _ es => optionsOf (es.lookup "literal_prefix") (es.lookup "verify")
  | .array items => optionsOf items[0]? items[1]?
  | .date => some {}
  | _ => none

/-- The manifest a document describes. -/
def ofEntries? (es : DocumentEntries) : Option Manifest := do
  let package ← readPackage (← es.lookup "package")
  let lowering ← readOr readOptions {} (es.lookup "lowering")
  return ⟨package, lowering⟩

/-- The manifest a text describes. -/
def parse? (text : String) : Option Manifest := (Document.parse? text).bind ofEntries?

/-- A key with a string. -/
def textLine (key value : String) : String := key ++ " = " ++ DocumentText.render value ++ "\n"

/-- A key with a truth value. -/
def boolLine (key : String) (value : Bool) : String :=
  key ++ " = " ++ (if value then "true" else "false") ++ "\n"

/-- The text of a manifest. -/
def render (m : Manifest) : String :=
  "[package]\n" ++ textLine "name" m.package.name ++ textLine "version" m.package.version ++
    textLine "edition" m.package.edition ++ "\n[lowering]\n" ++
    textLine "literal_prefix" m.lowering.literalStem ++ boolLine "verify" m.lowering.verify

end Manifest

end BlockForm
