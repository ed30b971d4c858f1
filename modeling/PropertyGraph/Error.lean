import PropertyGraph.Json.Fault

/-! What can go wrong, and how it is told. -/
namespace PropertyGraph

inductive Endpoint
  | src
  | dest
  deriving DecidableEq

def Endpoint.name : Endpoint → String
  | .src => "src"
  | .dest => "dest"

/-- A fault of a request, found before any storage is asked. -/
inductive RequestError
  | nameLength
  | name (text : String)
  | nodeId (text : String)
  | missingEndpoint (endpoint : Endpoint)
  | updateOnSearch
  | pathConflict (path : String)
  | condition (reason : String)
  deriving DecidableEq

def RequestError.message : RequestError → String
  | nameLength => "property name has invalid length"
  | name text => s!"property name '{text}' is invalid"
  | nodeId text => s!"'{text}' is not a valid node id"
  | missingEndpoint endpoint => "single-edge operation requires " ++ endpoint.name
  | updateOnSearch => "searches across edges cannot modify properties"
  | pathConflict path => s!"property path {path} conflicts with an existing non-map value"
  | condition reason => s!"invalid match expression: {reason}"

/-- A fault met while a request is carried out. Of one that comes from a library or from the disk
only the kind may be known. -/
inductive StoreError
  | storage (text : Option String)
  | serialization (text : String)
  | deserialization (text : Option String)
  | notRunning (text : String)
  | config (text : String)
  | duplicateKey (key : String)
  | invalidData (text : String)
  | internal (text : String)
  | io (text : Option String)
  | request (fault : RequestError)
  deriving DecidableEq

namespace StoreError

/-- A text that is not known is left out. -/
def message : StoreError → String
  | storage text => "Storage error: " ++ text.getD ""
  | serialization text => s!"Serialization error: {text}"
  | deserialization text => "Deserialization error: " ++ text.getD ""
  | notRunning text => s!"Storage engine is not running: {text}"
  | config text => s!"Configuration error: {text}"
  | duplicateKey key => s!"Duplicate key: {key}"
  | invalidData text => s!"Invalid data provided: {text}"
  | internal text => s!"An internal error occurred: {text}"
  | io text => text.getD ""
  | request fault => fault.message

def isRequestFault : StoreError → Bool
  | request _ => true
  | _ => false

/-- A fault in a JSON document. -/
def ofJson (fault : Json.Fault) : StoreError :=
  serialization ("JSON processing error: " ++ fault.text)

/-- An edge that cannot be written as bytes. -/
def ofEncoding (text : String) : StoreError := serialization ("MessagePack encode error: " ++ text)

/-- Bytes that hold no edge. -/
def ofDecoding (text : String) : StoreError :=
  deserialization (some ("MessagePack decode error: " ++ text))

/-- A fault with the contexts it passed through, the last one told first. -/
def ofContexts (contexts : List String) (text : String) : StoreError :=
  storage (some ("Underlying storage operation failed: "
    ++ ": ".intercalate (contexts.reverse ++ [text])))

end StoreError

end PropertyGraph
