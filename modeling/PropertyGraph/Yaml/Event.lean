import PropertyGraph.Yaml.Token

/-! The events of a YAML document: its scalars, and where its collections start and end. They are
taken from the tokens one by one, as far as somebody asks. -/
namespace PropertyGraph.Yaml

inductive Event
  | plain (text : String)
  | quoted (text : String)
  /-- A node that stands elsewhere. -/
  | alias
  | listStart
  | listEnd
  | mappingStart
  | mappingEnd
  deriving DecidableEq

namespace Event

/-- A node that is left out. -/
def missing : Event := plain "~"

/-- What is read next. The first entry of a collection is read together with its opening token. -/
inductive Place
  | document
  | blockEntry (first : Bool)
  /-- An entry of a list that is as far out as the key it belongs to. -/
  | outdentedEntry
  | blockKey (first : Bool)
  | blockValue
  | flowEntry (first : Bool)
  /-- The parts of a mapping of one entry without marks of its own. -/
  | pairKey
  | pairValue
  | pairEnd
  | flowKey (first : Bool)
  | flowValue
  /-- The value of a key without a mark and a colon. -/
  | noValue
  | done
  deriving DecidableEq

/-- A document of which some events are taken. -/
structure Source where
  place : Place := .document
  /-- The places behind the nodes that are open, the innermost first. -/
  outer : List Place := []
  tokens : List Token
  /-- The handles of tags that are declared. -/
  handles : List String := []
  /-- The anchors met. -/
  anchors : List String := []

/-- A reading may fail, and the tokens taken until then stay taken. -/
abbrev Reading := OptionT (StateM Source)

namespace Reading

def peek : Reading Token := do
  match (← get).tokens with
  | t :: _ => pure t
  | [] => failure

def skip : Reading Unit := modify fun s => { s with tokens := s.tokens.drop 1 }

def goTo (place : Place) : Reading Unit := modify ({ · with place })

/-- Remembers a place for after the next node. -/
def later (place : Place) : Reading Unit := modify fun s => { s with outer := place :: s.outer }

/-- Goes on behind a node. -/
def leave : Reading Unit := modify fun s =>
  match s.outer with
  | place :: outer => { s with place, outer }
  | [] => { s with place := .done }

/-- Ends a node with the token that is next. -/
def finish (e : Event) : Reading Event := do
  skip
  leave
  pure e

def anchor (name : String) : Reading Unit := do
  skip
  modify fun s => { s with anchors := name :: s.anchors }

def tag (handle : Option String) : Reading Unit := do
  skip
  if !handle.all (← get).handles.contains then failure

/-- Whether an anchor or a tag stands before a node. -/
def properties : Reading Bool := do
  match ← peek with
  | .anchor name =>
    anchor name
    if let .tag handle ← peek then tag handle
    pure true
  | .tag handle =>
    tag handle
    if let .anchor name ← peek then anchor name
    pure true
  | _ => pure false

/-- A node. Block collections stand in blocks only, and a list may be as far out as the key that
it belongs to. -/
def node (block outdented : Bool) : Reading Event := do
  if let .alias name ← peek then
    leave
    skip
    if (← get).anchors.contains name then pure Event.alias else failure
  else
    let marked ← properties
    match ← peek with
    | .plain text => finish (.plain text)
    | .quoted text => finish (.quoted text)
    | .flowSequence => do goTo (.flowEntry true); pure listStart
    | .flowMapping => do goTo (.flowKey true); pure mappingStart
    | t =>
      if outdented && t == .blockEntry then do goTo .outdentedEntry; pure listStart
      else if block && t == .blockSequence then do goTo (.blockEntry true); pure listStart
      else if block && t == .blockMapping then do goTo (.blockKey true); pure mappingStart
      else if marked then do leave; pure (.plain "")
      else failure

/-- A node, or nothing where `absent` holds, and then what is read at a place. -/
def optional (absent : Token → Bool) (place : Place) (block outdented : Bool) :
    Reading Event := do
  if absent (← peek) then
    goTo place
    pure missing
  else
    later place
    node block outdented

def endsDocument : Token → Bool
  | .documentStart | .documentEnd | .textEnd | .version | .declaration _ => true
  | _ => false

def endsBlockEntry : Token → Bool
  | .blockEntry | .blockEnd => true
  | _ => false

def endsOutdented : Token → Bool
  | .blockEntry | .key | .value | .blockEnd => true
  | _ => false

def endsBlockPart : Token → Bool
  | .key | .value | .blockEnd => true
  | _ => false

def endsFlowKey : Token → Bool
  | .value | .flowEntry | .flowMappingEnd => true
  | _ => false

def endsFlowValue : Token → Bool
  | .flowEntry | .flowMappingEnd => true
  | _ => false

def endsPairKey : Token → Bool
  | .value | .flowEntry | .flowSequenceEnd => true
  | _ => false

def endsPairValue : Token → Bool
  | .flowEntry | .flowSequenceEnd => true
  | _ => false

/-- Behind the opening token of a flow collection, or behind the comma that a further entry
needs. -/
def separator (first : Bool) (ending : Token) : Reading Unit := do
  if first then skip
  else
    let t ← peek
    if t == .flowEntry then skip
    else if t != ending then failure

/-- The event at a place. -/
def event : Place → Reading Event
  | .document => do
    if endsDocument (← peek) then do leave; pure missing
    else node true false
  | .blockEntry first => do
    if first then skip
    match ← peek with
    | .blockEntry => do skip; optional endsBlockEntry (.blockEntry false) true false
    | .blockEnd => finish listEnd
    | _ => failure
  | .outdentedEntry => do
    match ← peek with
    | .blockEntry => do skip; optional endsOutdented .outdentedEntry true false
    | _ => do leave; pure listEnd
  | .blockKey first => do
    if first then skip
    match ← peek with
    | .key => do skip; optional endsBlockPart .blockValue true true
    | .value => do goTo .blockValue; pure missing
    | .blockEnd => finish mappingEnd
    | _ => failure
  | .blockValue => do
    match ← peek with
    | .value => do skip; optional endsBlockPart (.blockKey false) true true
    | _ => do goTo (.blockKey false); pure missing
  | .flowEntry first => do
    separator first .flowSequenceEnd
    match ← peek with
    | .flowSequenceEnd => finish listEnd
    | .key => do skip; goTo .pairKey; pure mappingStart
    | _ => do later (.flowEntry false); node false false
  | .pairKey => do
    if endsPairKey (← peek) then do skip; goTo .pairValue; pure missing
    else do later .pairValue; node false false
  | .pairValue => do
    match ← peek with
    | .value => do skip; optional endsPairValue .pairEnd false false
    | _ => do goTo .pairEnd; pure missing
  | .pairEnd => do goTo (.flowEntry false); pure mappingEnd
  | .flowKey first => do
    separator first .flowMappingEnd
    match ← peek with
    | .flowMappingEnd => finish mappingEnd
    | .key => do skip; optional endsFlowKey .flowValue false false
    | .value => do goTo .flowValue; pure missing
    | _ => do later .noValue; node false false
  | .flowValue => do
    match ← peek with
    | .value => do skip; optional endsFlowValue (.flowKey false) false false
    | _ => do goTo (.flowKey false); pure missing
  | .noValue => do goTo (.flowKey false); pure missing
  | .done => failure

end Reading

/-- The next event, or none at a fault, and what is left either way. -/
def Source.next (s : Source) : Option Event × Source := (Reading.event s.place).run.run s

end Event

end PropertyGraph.Yaml
