import BtreeRedis.Page
import BtreeRedis.Lib.Decimal

/-!
# RESP values and their serializer

The values of the protocol as the server holds them. Strings are behind shared
pointers, which may be null: `some s` points to `s`. The serializer writes a
type byte, the line-terminated or length-prefixed text, and the elements of arrays
one after another; following a null string pointer is undefined.
-/

namespace BtreeRedis

open Decimal

def ascii (c : Char) : Byte := Fin.ofNat 256 c.toNat

def bytes (s : String) : Bytes := s.toList.map ascii

@[simp] def int64Max : ℕ := 2 ^ 63 - 1

@[simp] def cr : Byte := 13
@[simp] def lf : Byte := 10

def crlf : Bytes := [cr, lf]

namespace RespType

@[simp] def string : Byte := 43
@[simp] def err : Byte := 45
@[simp] def integer : Byte := 58
@[simp] def bulkString : Byte := 36
@[simp] def array : Byte := 42

end RespType

/-- How a command ends that does not return: at a null string pointer, at an overflow of
`int64_t`, or with the fault of a call into the tree. -/
inductive ServerFault
  | nullString
  | overflow
  | tree (fault : Fault)
  deriving DecidableEq, Repr

inductive RespValue
  | integer (value : ℤ)
  | simpleString (value : Option Bytes)
  | error (message : Option Bytes)
  | bulkString (value : Option Bytes)
  | nullBulkString
  | array (value : List RespValue)

/-- `*pointer` -/
def deref (pointer : Option Bytes) : Except ServerFault Bytes :=
  match pointer with
  | some s => .ok s
  | none => .error .nullString

theorem deref_eq_ok {pointer : Option Bytes} {s : Bytes} : deref pointer = .ok s ↔ pointer = some s := by
  cases pointer <;> simp [deref]

namespace RespValue

def getAsString : RespValue → Option Bytes
  | simpleString value => value
  | bulkString value => value
  | error message => message
  | _ => none

def writeLine (type : Byte) (text : Bytes) : Bytes := type :: text ++ crlf

def writeInteger (value : ℤ) : Bytes := writeLine RespType.integer (signedText value)

def writeSimpleString (str : Bytes) : Bytes := writeLine RespType.string str

def writeError (str : Bytes) : Bytes := writeLine RespType.err str

def writeBulkString (str : Bytes) : Bytes :=
  writeLine RespType.bulkString (text str.length) ++ str ++ crlf

def writeNullBulkString : Bytes := writeLine RespType.bulkString (signedText (-1))

mutual

def writeValue : RespValue → Except ServerFault Bytes
  | integer value => pure (writeInteger value)
  | simpleString value => do pure (writeSimpleString (← deref value))
  | error message => do pure (writeError (← deref message))
  | bulkString value => do pure (writeBulkString (← deref value))
  | nullBulkString => pure writeNullBulkString
  | array value => do
    let items ← writeItems value
    pure (writeLine RespType.array (text value.length) ++ items)

/-- The loop of `writeArray`. -/
def writeItems : List RespValue → Except ServerFault Bytes
  | [] => pure []
  | item :: items => do
    let first ← writeValue item
    let rest ← writeItems items
    pure (first ++ rest)

end

end RespValue

end BtreeRedis
