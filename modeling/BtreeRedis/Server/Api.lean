import BtreeRedis.Resp.Value
import BtreeRedis.Tree.Remove
import BtreeRedis.Tree.Scan

/-!
# The operations behind the commands

The server keeps one tree, and a static buffer for the keys that scans emit. A write
removes the key first and then inserts it; nothing checks the size of an entry
before that. Integers are `int64_t`: an overflow is undefined. What the pages hold where
nothing has been written is given from outside, anew whenever the tree has changed.
-/

namespace BtreeRedis

open Decimal

structure Server where
  btree : BTree
  keyOut : Bytes
  free : Stream' FreeBytes

@[simp] def keyOutSize : ℕ := 256

def Server.start : Server := ⟨BTree.empty, List.replicate keyOutSize 0, Stream'.const fun _ _ => 0⟩

abbrev Api := StateT Server (Except ServerFault)

def tree {α : Type} : Except Fault α → Except ServerFault α
  | .ok a => .ok a
  | .error f => .error (.tree f)

/-- The result of `int64_t` arithmetic. -/
def checked (z : ℤ) : Except ServerFault ℤ :=
  if -(2 ^ 63) ≤ z ∧ z ≤ int64Max then .ok z else .error .overflow

namespace ArgParsing

/-- The loop of `parseIntStrict`; `first` tells whether it is at the start of the buffer. -/
def parseLoop : Bytes → Bool → ℕ → Except ServerFault (Option ℕ)
  | [], _, val => .ok (some val)
  | byte :: buf, first, val =>
    if isDigit byte then
      if val * 10 + digit byte ≤ int64Max then parseLoop buf false (val * 10 + digit byte)
      else .error .overflow
    else if byte = 45 ∧ first then parseLoop buf false val
    else .ok none

def parseIntStrict (buf : Bytes) : Except ServerFault (Option ℤ) :=
  if buf = [] then .ok none
  else do
    let val ← parseLoop buf true 0
    pure (val.map fun val => if buf.head? = some 45 then -(val : ℤ) else val)

end ArgParsing

namespace AnyNode

def nodeCount : (h : ℕ) → AnyNode h → ℕ
  | 0, _ => 1
  | h + 1, p => 1 + ((InnerNode.children p).map (nodeCount h)).sum

end AnyNode

/-- `sizeof(BTree)` and a page for every node. -/
def BTree.approximateMemoryUsage (t : BTree) : ℕ :=
  pointerSize + pageSize * AnyNode.nodeCount t.height t.root

namespace ApiImpl

variable (fuel : ℕ)

def get (key : Bytes) : Api (Option Bytes) := fun s => do
  let res ← tree (s.btree.lookupImpl key)
  pure (res, s)

def removeImpl (key : Bytes) : Api Bool := fun s => do
  let (removed, btree) ← tree (s.btree.removeImpl key)
  pure (removed, { s with btree, free := if removed then s.free.tail else s.free })

def insertImpl (key payload : Bytes) : Api Unit := fun s => do
  let btree ← tree (BTree.insertImpl true key payload fuel s.btree)
  pure ((), { s with btree, free := s.free.tail })

def set (key val : Bytes) : Api Unit := do
  let _ ← removeImpl key
  insertImpl fuel key val

def del (key : Bytes) : Api Bool := removeImpl key

/-- `exists`, which calls `removeImpl` as `del` does. -/
def existsKey (key : Bytes) : Api Bool := removeImpl key

def increment (key : Bytes) (amount : ℤ) : Api (Option ℤ) := do
  let res ← get key
  let intVal ← match res with
    | none => pure (some 0)
    | some val => ArgParsing.parseIntStrict val
  match intVal with
  | none => pure none
  | some intVal => do
    let intVal ← checked (intVal + amount)
    let _ ← removeImpl key
    insertImpl fuel key (signedText intVal)
    pure (some intVal)

def mget : List RespValue → Api (List (Option Bytes))
  | [] => pure []
  | key :: keys => do
    let key ← deref key.getAsString
    let val ← get key
    let vals ← mget keys
    pure (val :: vals)

def mset : List RespValue → Api Unit
  | [] => pure ()
  | [key] => do
    let _ ← deref key.getAsString
    pure ()
  | key :: val :: kvPairs => do
    let key ← deref key.getAsString
    let val ← deref val.getAsString
    set fuel key val
    mset kvPairs

/-- The loop of `zadd`; `false` is the early return at a score other than 0. -/
def zaddLoop : List RespValue → Api Bool
  | [] => pure true
  | [score] => do
    let score ← deref score.getAsString
    pure (decide (score = bytes "0"))
  | score :: val :: scorePairs => do
    let score ← deref score.getAsString
    if score ≠ bytes "0" then pure false
    else do
      let val ← deref val.getAsString
      let _ ← removeImpl val
      insertImpl fuel val []
      zaddLoop scorePairs

def zadd (scorePairs : List RespValue) : Api ℤ := do
  if ← zaddLoop fuel scorePairs then pure (scorePairs.length / 2 : ℕ) else pure (-1)

/-- The callback of `zrange`, on the keys found so far. -/
def collect (limit : ℕ) : Callback (List Bytes) := fun keys key _ =>
  (keys ++ [key], decide ((keys ++ [key]).length < limit))

/-- `limit` is converted to `uint64_t` by the caller. -/
def zrange (min : Bytes) (limit : ℕ) : Api (List Bytes) :=
  if limit = 0 then pure []
  else fun s => do
    let (keyOut, keys) ← tree (s.btree.rangeLookupImpl (collect limit) s.free.head fuel min s.keyOut [])
    pure (keys, { s with keyOut })

def flushAll : Api Unit := fun s => pure ((), { s with btree := BTree.empty, free := s.free.tail })

def getMemory : Api ℕ := fun s => pure (s.btree.approximateMemoryUsage, s)

end ApiImpl

end BtreeRedis
