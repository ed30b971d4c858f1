import PropertyGraph.Json
import PropertyGraph.Selector

/-! Names and selectors as JSON documents. -/
namespace PropertyGraph

def PropertyName.ofDocument? : Json → Option PropertyName
  | .str text => (ofText text).toOption
  | _ => none

namespace Selector

def ofDocument? : Json → Option Selector
  | .str "All" => some .all
  | .obj members =>
    match members.toList with
    | [("All", .null)] => some .all
    | [("Named", .arr names)] => (.named ∘ .ofList) <$> names.mapM PropertyName.ofDocument?
    | _ => none
  | _ => none

def toDocument : Selector → Json
  | .all => .str "All"
  | .named names =>
    .obj (OrderedMap.ofList [("Named", .arr (names.keys.map fun name => .str name.text))])

end Selector

end PropertyGraph
