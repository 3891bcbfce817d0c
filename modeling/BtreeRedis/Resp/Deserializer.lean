import BtreeRedis.Resp.Connection

/-!
# The deserializer

The recursive parser of RESP values. Integers may have digits and signs in any order,
their value is accumulated without a check for overflow, and the lengths of bulk
strings and arrays are used as they come. Whether a `reserve` succeeds is up to the
allocator.
-/

namespace BtreeRedis

open Decimal Reader Connection

/-- The sizes for which `reserve` returns. -/
structure Allocator where
  string : ℕ → Bool
  vector : ℕ → Bool

@[simp] def plus : Byte := 43
@[simp] def minus : Byte := 45

/-- The conversion of `int64_t` to `std::size_t`. -/
def toSize (n : ℤ) : ℕ := (n % 2 ^ 64).toNat

def check (p : Prop) [Decidable p] (e : ReadFault) : ConnM Unit :=
  if p then pure () else throw e

/-- The loop of `readInteger` over the buffered bytes, up to the carriage return. -/
def integerLoop : Bytes → ℕ → Bool → Except ReadFault ((ℕ × Bool) × Bytes)
  | [], _, _ => .error .starved
  | byte :: buf, value, negative =>
    if isDigit byte then
      if value * 10 + digit byte ≤ int64Max then
        integerLoop buf (value * 10 + digit byte) negative
      else .error .overflow
    else if byte = cr then .ok ((value, negative), buf)
    else if byte = plus then integerLoop buf value negative
    else if byte = minus then integerLoop buf value true
    else .error .runtimeError

def scanDigits : ConnM (ℕ × Bool) := fun c =>
  (integerLoop c.readBuf 0 false).map fun r => (r.1, { c with readBuf := r.2 })

def readDigits : ConnM (ℕ × Bool) := do
  requireDataUntil cr
  scanDigits

def readLine : ConnM Bytes := do
  requireDataUntil cr
  getline cr

def readByte : ConnM Byte := do
  requireData 1
  Connection.get

def expect (byte : Byte) : ConnM Unit := do
  let b ← readByte
  check (b = byte) .runtimeError

def readInteger : ConnM ℤ := do
  let (value, negative) ← readDigits
  expect lf
  pure (if negative then -(value : ℤ) else value)

/-- Also `readError`, which has the same body. -/
def readSimpleString : ConnM Bytes := do
  let str ← readLine
  expect lf
  pure str

/-- The bytes of a bulk string. The iterator leaves the last one, which `get` takes. -/
def readBulk (alloc : Allocator) (length : ℤ) : ConnM Bytes := do
  check (length + 2 ≤ int64Max) .overflow
  requireData (toSize (length + 2))
  check (0 ≤ length ∧ alloc.string length.toNat = true) .allocation
  let str ← copyN length.toNat
  if length ≠ 0 then
    let _ ← Connection.get
    pure str
  else pure str

def readBulkString (alloc : Allocator) : ConnM Bytes := do
  let length ← readInteger
  let str ← readBulk alloc length
  expect cr
  expect lf
  pure str

/-- The loop of `readArray`. -/
def readItems (read : ConnM RespValue) : ℕ → ConnM (List RespValue)
  | 0 => pure []
  | count + 1 => do
    let item ← read
    let items ← readItems read count
    pure (item :: items)

def readArray (alloc : Allocator) (read : ConnM RespValue) : ConnM (List RespValue) := do
  let length ← readInteger
  check (0 ≤ length ∧ alloc.vector length.toNat = true) .allocation
  readItems read length.toNat

/-- `readValue` to a depth of nested arrays below `fuel`. -/
def readNested (alloc : Allocator) : ℕ → ConnM RespValue
  | 0 => throw .outOfFuel
  | fuel + 1 => do
    let valueType ← readByte
    if valueType = RespType.integer then .integer <$> readInteger
    else if valueType = RespType.string then (.simpleString ∘ some) <$> readSimpleString
    else if valueType = RespType.err then (.error ∘ some) <$> readSimpleString
    else if valueType = RespType.bulkString then (.bulkString ∘ some) <$> readBulkString alloc
    else if valueType = RespType.array then .array <$> readArray alloc (readNested alloc fuel)
    else throw .runtimeError

/-- Every nested value takes a byte of the stream, so its length bounds the depth. -/
def readValue (alloc : Allocator) : ConnM RespValue := fun c =>
  readNested alloc (c.stream.length + 1) c

section Primitives
variable {s rest : Bytes} {b : Byte}

theorem reads_check {p : Prop} [Decidable p] (h : p) (e : ReadFault) (s : Bytes) :
    CReads (check p e) s () s := by
  rw [check, if_pos h]
  exact reads_pure () s

theorem fails_check {p : Prop} [Decidable p] (h : ¬ p) (e : ReadFault) (s : Bytes) :
    CFails (check p e) s e := by
  rw [check, if_neg h]
  exact fails_throw e s

theorem readByte_cons (b : Byte) (rest : Bytes) : CReads readByte (b :: rest) b rest := by
  refine CReads.require (by simp) fun c hc he => ?_
  cases hb : c.readBuf with
  | nil => simp [hb] at he
  | cons b' buf =>
    rw [stream, hb, List.cons_append, List.cons.injEq] at hc
    obtain ⟨rfl, hr⟩ := hc
    exact ⟨{ c with readBuf := buf }, by simp only [Connection.get, hb], hr⟩

theorem readByte_nil : CFails readByte [] .connectionClosed :=
  CFails.require (length_mono 1) (by simp)

theorem expect_cons (b : Byte) (rest : Bytes) : CReads (expect b) (b :: rest) () rest :=
  (readByte_cons b rest).bind (reads_check rfl _ _)

theorem expect_nil : CFails (expect b) [] .connectionClosed := readByte_nil.bind

theorem expect_ne {b' : Byte} (h : b' ≠ b) : CFails (expect b) (b' :: rest) .runtimeError :=
  (readByte_cons b' rest).bind_fails (fails_check h _ _)

end Primitives

end BtreeRedis
