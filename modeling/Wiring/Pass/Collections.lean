import Wiring.Tag.Index

/-!
Collections: an argument that asks for all services with a tag becomes the list of references to
them, in the order of the tag index. No service receives itself.
-/

namespace Wiring.Pass

/-- The rule that bakes collections into the arguments of `consumer`. -/
def collectionRule (index : TagIndex) (consumer : String) : Rule
  | .tagged tag =>
    .ok (.collection tag
      (((index.taggedIds tag).filter fun id => id != consumer).map fun id => ⟨id, false, false⟩))
  | a => .ok a

/-- Bakes all collections. -/
def bakeCollections : Build Unit := do
  let index ← TagIndex.rebuild {}
  Build.changeOrFail fun g => g.reviseAll fun d => collectionRule index d.id

end Wiring.Pass
