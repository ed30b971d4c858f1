/-! The tokens of a YAML text. -/
namespace PropertyGraph.Yaml

inductive Token
  | version
  /-- A directive that declares a handle. -/
  | declaration (handle : String)
  | documentStart
  | documentEnd
  | textEnd
  | blockSequence
  | blockMapping
  | blockEnd
  | blockEntry
  | flowSequence
  | flowSequenceEnd
  | flowMapping
  | flowMappingEnd
  | flowEntry
  | key
  | value
  | alias (name : String)
  | anchor (name : String)
  /-- A tag, with its handle if that has to be declared. -/
  | tag (handle : Option String)
  | plain (text : String)
  | quoted (text : String)
  deriving DecidableEq

/-- Anchors and tags stand before the node they belong to. -/
def Token.isProperty : Token → Bool
  | anchor _ | tag _ => true
  | _ => false

end PropertyGraph.Yaml
