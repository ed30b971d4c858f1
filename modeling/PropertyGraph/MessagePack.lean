import PropertyGraph.BigEndian
import PropertyGraph.Binary64

/-! MessagePack trees and their shortest bytes. -/
namespace PropertyGraph

/-- What a sequence of bytes holds. Integers with signed and unsigned markers are kept apart, and
texts are any bytes. -/
inductive MessagePack
  | nil
  | bool (value : Bool)
  | uint (value : UInt64)
  | sint (value : Int64)
  | float (value : Binary64)
  | str (bytes : List UInt8)
  | bin (bytes : List UInt8)
  | ext (kind : UInt8) (bytes : List UInt8)
  | arr (items : List MessagePack)
  | map (entries : List (MessagePack × MessagePack))

namespace MessagePack

instance : Inhabited MessagePack := ⟨nil⟩

def uintBytes (n : Nat) : List UInt8 :=
  if n < 0x80 then [.ofNat n]
  else if n < 0x100 then 0xcc :: BigEndian.ofNat 1 n
  else if n < 0x10000 then 0xcd :: BigEndian.ofNat 2 n
  else if n < 0x100000000 then 0xce :: BigEndian.ofNat 4 n
  else 0xcf :: BigEndian.ofNat 8 n

def sintBytes (i : Int) : List UInt8 :=
  let wrapped (width : Nat) := BigEndian.ofNat width (i % BigEndian.range width).toNat
  if -0x20 ≤ i ∧ i < 0 then wrapped 1
  else if -0x80 ≤ i ∧ i < 0x80 then 0xd0 :: wrapped 1
  else if -0x8000 ≤ i ∧ i < 0x8000 then 0xd1 :: wrapped 2
  else if -0x80000000 ≤ i ∧ i < 0x80000000 then 0xd2 :: wrapped 4
  else 0xd3 :: wrapped 8

def strHeader (n : Nat) : List UInt8 :=
  if n < 0x20 then [.ofNat (0xa0 + n)]
  else if n < 0x100 then 0xd9 :: BigEndian.ofNat 1 n
  else if n < 0x10000 then 0xda :: BigEndian.ofNat 2 n
  else 0xdb :: BigEndian.ofNat 4 n

def binHeader (n : Nat) : List UInt8 :=
  if n < 0x100 then 0xc4 :: BigEndian.ofNat 1 n
  else if n < 0x10000 then 0xc5 :: BigEndian.ofNat 2 n
  else 0xc6 :: BigEndian.ofNat 4 n

def extHeader (n : Nat) : List UInt8 :=
  if n < 0x100 then 0xc7 :: BigEndian.ofNat 1 n
  else if n < 0x10000 then 0xc8 :: BigEndian.ofNat 2 n
  else 0xc9 :: BigEndian.ofNat 4 n

def arrHeader (n : Nat) : List UInt8 :=
  if n < 0x10 then [.ofNat (0x90 + n)]
  else if n < 0x10000 then 0xdc :: BigEndian.ofNat 2 n
  else 0xdd :: BigEndian.ofNat 4 n

def mapHeader (n : Nat) : List UInt8 :=
  if n < 0x10 then [.ofNat (0x80 + n)]
  else if n < 0x10000 then 0xde :: BigEndian.ofNat 2 n
  else 0xdf :: BigEndian.ofNat 4 n

mutual

/-- The shortest bytes for a tree; floats always take eight. -/
def bytes : MessagePack → List UInt8
  | nil => [0xc0]
  | bool false => [0xc2]
  | bool true => [0xc3]
  | uint n => uintBytes n.toNat
  | sint i => sintBytes i.toInt
  | float x => 0xcb :: BigEndian.ofNat 8 x.bits.toNat
  | str bs => strHeader bs.length ++ bs
  | bin bs => binHeader bs.length ++ bs
  | ext kind bs => extHeader bs.length ++ kind :: bs
  | arr items => arrHeader items.length ++ itemsBytes items
  | map entries => mapHeader entries.length ++ entriesBytes entries

def itemsBytes : List MessagePack → List UInt8
  | [] => []
  | m :: ms => m.bytes ++ itemsBytes ms

def entriesBytes : List (MessagePack × MessagePack) → List UInt8
  | [] => []
  | (k, v) :: rest => k.bytes ++ (v.bytes ++ entriesBytes rest)

end

end MessagePack

end PropertyGraph
