import PropertyGraph.PropertyName

/-! Which properties a read or a removal is about. -/
namespace PropertyGraph

inductive Selector
  | all
  | named (names : OrderedSet PropertyName)
  deriving DecidableEq

/-- Fails on the first name that is none. -/
def Selector.ofNames (names : List String) : Except RequestError Selector :=
  (.named ∘ .ofList) <$> names.mapM PropertyName.ofText

end PropertyGraph
