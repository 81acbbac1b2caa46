import Mathpad.Binary.Basic
import Mathpad.Item.Basic

/-
Rows of items in bytes.

A row is the count of its items and then the items. A token is one byte with the highest bit set, and
for a variable the name behind it, in which every character is a byte. Other items have a tag and
then their rows; a call has the code of the function and the number of its arguments in between.
-/
set_option autoImplicit false

namespace Mathpad

namespace Token

/-- The code of a digit zero; the other digits follow it. -/
def zeroCode : Nat := 5

/-- The code of a variable, whose name comes behind it. -/
def varCode : Nat := 16

/-- The tokens with a code and nothing else. -/
def plainCodes : List (Nat × Token) :=
  [(1, .add), (2, .subtract), (3, .multiply), (4, .divide), (15, .point)]

/-- The bytes of a name. -/
def nameBytes (name : String) : Outcome Bytes :=
  name.toList.mapM fun c =>
    if c.toNat < 256 then .ok (UInt8.ofNat c.toNat) else .error (.mishap .notLatin1)

/-- The first byte of a token and the bytes behind it. -/
def encode : Token → Outcome (UInt8 × Bytes)
  | add => .ok (1, [])
  | subtract => .ok (2, [])
  | multiply => .ok (3, [])
  | divide => .ok (4, [])
  | point => .ok (15, [])
  | digit value => do return (← Bytes.single (zeroCode + value), [])
  | var name => do return (UInt8.ofNat varCode, ← nameBytes name)

/-- The bytes of a token by itself. -/
def toBytes (t : Token) : Outcome Bytes := do
  let (first, more) ← t.encode
  return first :: more

/-- The token that begins with a given code. -/
def decode (code : Nat) : Reader Token := do
  match plainCodes.lookup code with
  | some t => return t
  | none =>
    if zeroCode ≤ code ∧ code < zeroCode + 10 then return .digit (code - zeroCode)
    else if code = varCode then
      return .var (String.singleton (Char.ofNat (← Bytes.next).toNat))
    else failure

/-- The next token. -/
def take : Reader Token := do decode (← Bytes.next).toNat

end Token

namespace Item

/-- The bit that marks a token. -/
def tokenFlag : UInt8 := 128

/-- The bytes of a list, given the bytes of its members. -/
def counted {α : Type} (members : List α) (bytes : Bytes) : Bytes :=
  Bytes.ofCount members.length ++ bytes

mutual

/-- The bytes of an item, those of its rows included. -/
def toBytes : Item → Outcome Bytes
  | token t => do
    let (first, more) ← t.encode
    return (first ||| tokenFlag) :: more
  | sqrt inner => do return 1 :: counted inner (← itemsBytes inner)
  | fraction top bottom => do
    let numerator ← itemsBytes top
    return 2 :: (counted top numerator ++ counted bottom (← itemsBytes bottom))
  | parentheses inner => do return 3 :: counted inner (← itemsBytes inner)
  | power exponent => do return 4 :: counted exponent (← itemsBytes exponent)
  | call f args => do
    let count ← Bytes.single args.length
    return 5 :: UInt8.ofNat f.code :: count :: (← argsBytes args)

/-- The bytes of items, one after the other. -/
def itemsBytes : List Item → Outcome Bytes
  | [] => .ok []
  | item :: items => do
    let bytes ← item.toBytes
    return bytes ++ (← itemsBytes items)

/-- The bytes of rows, one after the other. -/
def argsBytes : List (List Item) → Outcome Bytes
  | [] => .ok []
  | row :: rows => do
    let bytes ← itemsBytes row
    return counted row bytes ++ (← argsBytes rows)

end

/-- Reads a row, given a way to read an item. -/
def takeRowBy (item : Reader Item) : Reader Row := do Bytes.takeMany item (← Bytes.takeCount)

/-- The next item, with no more than the given number of items around each other. -/
def takeNested : Nat → Reader Item
  | 0 => failure
  | depth + 1 => do
    let tag := (← Bytes.next).toNat
    if 128 ≤ tag then return .token (← Token.decode (tag - 128))
    else
      let row := takeRowBy (takeNested depth)
      match tag with
      | 1 => return .sqrt (← row)
      | 2 =>
        let top ← row
        return .fraction top (← row)
      | 3 => return .parentheses (← row)
      | 4 => return .power (← row)
      | 5 =>
        let code := (← Bytes.next).toNat
        match NamedFunction.ofCode? code with
        | none => failure
        | some f => return .call f (← Bytes.takeMany row (← Bytes.next).toNat)
      | _ => failure

/-- The next item. Every item takes a byte at least, so there cannot be more of them around each other
than there are bytes. -/
def take : Reader Item := fun bytes => takeNested bytes.length bytes

end Item

namespace Row

/-- The bytes of a row. -/
def toBytes (row : Row) : Outcome Bytes := do return Item.counted row (← Item.itemsBytes row)

/-- The next row. -/
def take : Reader Row := fun bytes => Item.takeRowBy (Item.takeNested bytes.length) bytes

/-- The row at the front of some bytes; what follows it does not matter. -/
def ofBytes? (bytes : Bytes) : Option Row := (take bytes).map (·.1)

end Row
end Mathpad
