import PropertyGraph.MessagePack

/-! Reading MessagePack trees, in whichever of their forms they were written. -/
namespace PropertyGraph.MessagePack

/-- The first `n` bytes and what is behind them. -/
def splitBytes : Nat → List UInt8 → Option (List UInt8 × List UInt8)
  | 0, bs => some ([], bs)
  | _ + 1, [] => none
  | n + 1, b :: bs => do
    let (front, rest) ← splitBytes n bs
    some (b :: front, rest)

def readNat (width : Nat) (bs : List UInt8) : Option (Nat × List UInt8) := do
  let (front, rest) ← splitBytes width bs
  some (BigEndian.toNat front, rest)

/-- What the first bytes announce: a whole tree, or the size of what follows. -/
inductive Header
  | leaf (tree : MessagePack)
  | str (size : Nat)
  | bin (size : Nat)
  | ext (size : Nat)
  | arr (size : Nat)
  | map (size : Nat)

namespace Header

def sized (make : Nat → Header) (width : Nat) (bs : List UInt8) : Option (Header × List UInt8) := do
  let (n, rest) ← readNat width bs
  some (make n, rest)

def uint (n : Nat) : Header := leaf (.uint (.ofNat n))

/-- The number whose lowest bytes are these, negative from half their range on. -/
def sint (width : Nat) (n : Nat) : Header :=
  leaf (.sint (.ofInt ((n : Int).bmod (BigEndian.range width))))

/-- The marker `0xc1` announces nothing. -/
def read? : List UInt8 → Option (Header × List UInt8)
  | [] => none
  | b :: bs =>
    let n := b.toNat
    if n < 0x80 then some (uint n, bs)
    else if n < 0x90 then some (map (n - 0x80), bs)
    else if n < 0xa0 then some (arr (n - 0x90), bs)
    else if n < 0xc0 then some (str (n - 0xa0), bs)
    else if 0xe0 ≤ n then some (sint 1 n, bs)
    else match n with
      | 0xc0 => some (leaf .nil, bs)
      | 0xc2 => some (leaf (.bool false), bs)
      | 0xc3 => some (leaf (.bool true), bs)
      | 0xc4 => sized bin 1 bs
      | 0xc5 => sized bin 2 bs
      | 0xc6 => sized bin 4 bs
      | 0xc7 => sized ext 1 bs
      | 0xc8 => sized ext 2 bs
      | 0xc9 => sized ext 4 bs
      | 0xca => sized (fun n => leaf (.float (.widen (.ofNat n)))) 4 bs
      | 0xcb => sized (fun n => leaf (.float ⟨.ofNat n⟩)) 8 bs
      | 0xcc => sized uint 1 bs
      | 0xcd => sized uint 2 bs
      | 0xce => sized uint 4 bs
      | 0xcf => sized uint 8 bs
      | 0xd0 => sized (sint 1) 1 bs
      | 0xd1 => sized (sint 2) 2 bs
      | 0xd2 => sized (sint 4) 4 bs
      | 0xd3 => sized (sint 8) 8 bs
      | 0xd4 => some (ext 1, bs)
      | 0xd5 => some (ext 2, bs)
      | 0xd6 => some (ext 4, bs)
      | 0xd7 => some (ext 8, bs)
      | 0xd8 => some (ext 16, bs)
      | 0xd9 => sized str 1 bs
      | 0xda => sized str 2 bs
      | 0xdb => sized str 4 bs
      | 0xdc => sized arr 2 bs
      | 0xdd => sized arr 4 bs
      | 0xde => sized map 2 bs
      | 0xdf => sized map 4 bs
      | _ => none

end Header

/-- A number of things, one behind the other. -/
def readMany {α : Type} (step : List UInt8 → Option (α × List UInt8)) :
    Nat → List UInt8 → Option (List α × List UInt8)
  | 0, bs => some ([], bs)
  | n + 1, bs => do
    let (x, bs) ← step bs
    let (xs, bs) ← readMany step n bs
    some (x :: xs, bs)

/-- One key and its value. -/
def readEntry (step : List UInt8 → Option (MessagePack × List UInt8)) (bs : List UInt8) :
    Option ((MessagePack × MessagePack) × List UInt8) := do
  let (k, bs) ← step bs
  let (v, bs) ← step bs
  some ((k, v), bs)

/-- What a header announces. The parts of a collection are read by `step`, which is absent where no
collection may be opened any more. Extensions count as collections. -/
def readBody (step : Option (List UInt8 → Option (MessagePack × List UInt8))) (header : Header)
    (bs : List UInt8) : Option (MessagePack × List UInt8) :=
  match header, step with
  | .leaf tree, _ => some (tree, bs)
  | .str n, _ => (splitBytes n bs).map fun (text, rest) => (.str text, rest)
  | .bin n, _ => (splitBytes n bs).map fun (data, rest) => (.bin data, rest)
  | .arr n, some step => (readMany step n bs).map fun (items, rest) => (.arr items, rest)
  | .map n, some step =>
    (readMany (readEntry step) n bs).map fun (entries, rest) => (.map entries, rest)
  | .ext n, some _ =>
    match splitBytes (n + 1) bs with
    | some (kind :: data, rest) => some (.ext kind data, rest)
    | _ => none
  | _, none => none

/-- A tree of at most `depth` collections one inside the other, and the bytes behind it. -/
def readWithin : Nat → List UInt8 → Option (MessagePack × List UInt8)
  | 0, bs => do
    let (header, bs) ← Header.read? bs
    readBody none header bs
  | depth + 1, bs => do
    let (header, bs) ← Header.read? bs
    readBody (some (readWithin depth)) header bs

/-- The most collections one inside the other that are read. -/
def maxDepth : Nat := 1023

def read? (bs : List UInt8) : Option (MessagePack × List UInt8) := readWithin maxDepth bs

end PropertyGraph.MessagePack
