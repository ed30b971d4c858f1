import PropertyGraph.Yaml
import PropertyGraph.Yaml.Event
import PropertyGraph.Yaml.Token.Scanner

/-! Reading YAML: trees from events. Only the first document of a text is read, and of what is
behind its tree only the tokens that end it. -/
namespace PropertyGraph.Yaml.Reader
open Event

/-- The first event of an entry, or none at the end of the collection. Where it is asked whether
there is a further entry, one fault is passed over, but then there has to be one. -/
def entry? (ending : Event) (s : Source) : Option (Option Event × Source) :=
  match s.next with
  | (some e, s) => some (if e = ending then none else some e, s)
  | (none, s) =>
    match s.next with
    | (some e, s) => some (some e, s)
    | (none, _) => none

mutual

/-- The tree that starts with an event. Aliases are not followed. -/
def tree? : Nat → Event → Source → Option (Yaml × Source)
  | _, .plain text, s => some (plain text, s)
  | _, .quoted text, s => some (quoted text, s)
  | fuel + 1, .listStart, s => list? fuel [] s
  | fuel + 1, .mappingStart, s => mapping? fuel [] s
  | _, _, _ => none

def list? : Nat → List Yaml → Source → Option (Yaml × Source)
  | 0, _, _ => none
  | fuel + 1, acc, s => do
    match ← entry? .listEnd s with
    | (none, s) => some (seq acc.reverse, s)
    | (some e, s) => do
      let (y, s) ← tree? fuel e s
      list? fuel (y :: acc) s

def mapping? : Nat → List (Yaml × Yaml) → Source → Option (Yaml × Source)
  | 0, _, _ => none
  | fuel + 1, acc, s => do
    match ← entry? .mappingEnd s with
    | (none, s) => some (mapping acc.reverse, s)
    | (some e, s) => do
      let (k, s) ← tree? fuel e s
      let (e, s) := s.next
      let (y, s) ← tree? fuel (← e) s
      mapping? fuel ((k, y) :: acc) s

end

/-- Directives before a document, with the handle that the last of them declares. The version is
told once at most. -/
def directives? (versioned : Bool) (handles : List String) :
    List Token → Option (List String × List Token)
  | .version :: ts => if versioned then none else directives? true [] ts
  | .declaration handle :: ts => directives? versioned [handle] ts
  | ts => some (handles, ts)

/-- The tree of the first document. Directives need the start of a document behind them. No token
makes more than a few events. -/
def document? (ts : List Token) : Option Yaml := do
  let ts := ts.dropWhile (· == .documentEnd)
  let (handles, behind) ← directives? false [] ts
  let tokens ← match behind with
    | .documentStart :: ts => some ts
    | behind => if behind.length < ts.length then none else some behind
  let (e, s) := Source.next { tokens, handles }
  let (y, _) ← tree? (8 * tokens.length + 16) (← e) s
  some y

end Reader

def parse? (text : String) : Option Yaml := Reader.document? (Token.ofText text)

end PropertyGraph.Yaml
