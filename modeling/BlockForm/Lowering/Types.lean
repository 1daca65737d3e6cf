import BlockForm.Code.Interning
import BlockForm.Type.Key

/-!
# BlockForm.Lowering.Types — from surface types to typedefs

Elementary types lower to themselves.  A composite type lowers to a typedef, made on first use after the
typedefs of its members and found again by the key of the type.
-/

namespace BlockForm

/-- The name of the typedef of a type: that of a definition, else one made from the key. -/
def Ty.typedefName (ty : Ty) (key : String) : String :=
  match ty.stripLeaf with
  | .defined name _ => name
  | _ => "anon_" ++ (Text.fingerprint key).toNat.repr

namespace CompilationUnit

/-- The lowered form of a surface type; function types have none. -/
def lowerType (ty : Ty) : Interning LoweredType := do
  match ty.elementary? with
  | some e => return .elementary e
  | none =>
    let key := ty.stripLeaf.key
    if ty.isComposite then
      let u ← Action.get
      match u.typedefForKey? key with
      | some id => return .composite id
      | none =>
        let members ← ty.members.attach.mapM fun ⟨member, _⟩ => do
          let lowered ← lowerType member
          return ⟨member.leafName?, lowered⟩
        let id ← addTypeDef key ⟨ty.typedefName key, ty.isSum, members⟩
        return .composite id
    else Action.fault (.notAValueType key)
termination_by ty.height
decreasing_by exact Ty.height_lt_of_mem_members ‹_›

end CompilationUnit

end BlockForm
