import BtreeRedis.Head.Convert

/-!
# Inner nodes of three kinds

An inner node is a slotted one or a head node with heads of four or eight bytes. A node that is
asked for space for a separator takes the shape that the separator needs, in place: the heads
are widened, narrowed or written out, and a full slotted node with short separators becomes a
head node. A split shifts the heads by what its halves gain in prefix.
-/

namespace BtreeRedis

open LexOrder SortedAssoc BigEndian

inductive AnyInner (γ : Type)
  | inner (node : InnerNode γ)
  | head4 (node : HeadNode .uint32 γ)
  | head8 (node : HeadNode .uint64 γ)

def AnyInner.ofHead {γ : Type} : {T : HeadType} → HeadNode T γ → AnyInner γ
  | .uint32, n => .head4 n
  | .uint64, n => .head8 n

/-- `(keys & ~255) << 32 | keys & 255` in eight bytes -/
def widenHead (head : ℕ) : ℕ := (head - head % 256) * 2 ^ 32 ||| head % 256

/-- `keys >> 32 | keys & 255` in four bytes -/
def narrowHead (head : ℕ) : ℕ := head / 2 ^ 32 ||| head % 256

/-- `((keys & ~255) << (diff * 8)) | (keyLength - diff)` in the width of the heads -/
def shiftHead (T : HeadType) (diff head : ℕ) : ℕ :=
  (head - head % 256) * 2 ^ (diff * 8) % 2 ^ (T.size * 8) ||| (head % 256 - diff)

namespace HeadNode
variable {T : HeadType} {γ : Type} [ChildPointer γ]

def convertToHead8WithSpace (n : HeadNode T γ) : Except Fault (Option (HeadNode .uint64 γ)) := do
  ensure (T.size = 4) .assertion
  let newKeyCapacity := (n.fencesOffset - HeadType.paddedHeadSize .uint64 - pointerSize) / (8 + pointerSize)
  if newKeyCapacity < n.count + 1 then pure none
  else do
    let tmp : HeadNode .uint64 γ ← HeadNode.init n.lowerFence n.upperFence
    ensure (tmp.keyCapacity = newKeyCapacity) .assertion
    pure (some { tmp with keys := n.keys.map widenHead, children := n.children.take (n.count + 1) }.makeHint)

/-- The capacity is not looked at. -/
def convertToHead4WithSpace (n : HeadNode T γ) : Except Fault (Option (HeadNode .uint32 γ)) := do
  ensure (T.size = 8) .assertion
  if (List.range n.count).any fun i => 4 ≤ n.getKeyLength i then pure none
  else do
    let tmp : HeadNode .uint32 γ ← HeadNode.init n.lowerFence n.upperFence
    pure (some { tmp with keys := n.keys.map narrowHead, children := n.children.take (n.count + 1) }.makeHint)

def requestBasic (n : HeadNode T γ) (keyLen : ℕ) : Except Fault (Bool × AnyInner γ) := do
  match ← n.convertToBasicWithSpace keyLen with
  | some p => pure (true, .inner p)
  | none => pure (false, .ofHead n)

def requestSpaceFor (n : HeadNode T γ) (keyLen : ℕ) : Except Fault (Bool × AnyInner γ) := do
  ensure (n.prefixLength ≤ keyLen) .undefined
  let keyLen := keyLen - n.prefixLength
  if T.size ≤ keyLen then
    if T.size = 4 ∧ keyLen < 8 then do
      match ← n.convertToHead8WithSpace with
      | some m => pure (true, .head8 m)
      | none => n.requestBasic keyLen
    else n.requestBasic keyLen
  else if n.count < n.keyCapacity then pure (true, .ofHead n)
  else if T.size = 8 ∧ keyLen < 4 then do
    match ← n.convertToHead4WithSpace with
    | some m => pure (true, .head4 m)
    | none => pure (false, .ofHead n)
  else pure (false, .ofHead n)

def clone_from_basic (T : HeadType) (src : InnerNode γ) : Except Fault (HeadNode T γ) := do
  let n : HeadNode T γ ← HeadNode.init src.node.getLowerFence src.node.getUpperFence
  ensure (src.node.count ≤ n.keyCapacity) .assertion
  let keys ← src.node.slots.mapM fun s => do
    match makeSepHead T s.key with
    | some head => pure head
    | none => .error .assertion
  pure { n with keys, children := src.children }.makeHint

/-- Appends a range of keys with the children left of them. With the same prefix the source copies eight bytes a
key, also for heads of four; the children are written later, and over what that is too much. -/
def copyKeyValueRange (n dst : HeadNode T γ) (srcSlot srcCount : ℕ) : Except Fault (HeadNode T γ) := do
  ensure (n.prefixLength ≤ dst.prefixLength) .abort
  let diff := dst.prefixLength - n.prefixLength
  let keys := (n.keys.drop srcSlot).take srcCount
  ensure (diff = 0 ∨ diff < T.size ∧ ∀ head ∈ keys, diff ≤ head % 256) .undefined
  ensure (dst.count + srcCount ≤ dst.keyCapacity) .assertion
  pure { dst with
    keys := dst.keys ++ if diff = 0 then keys else keys.map (shiftHead T diff)
    children := dst.children ++ (n.children.drop srcSlot).take srcCount }

def splitNode (n : HeadNode T γ) (sepSlot : ℕ) (sepKey : Bytes) : Except Fault (HeadNode T γ × HeadNode T γ) := do
  ensure (0 < sepSlot) .assertion
  ensure (sepSlot < pageSize / pointerSize) .assertion
  let nodeLeft : HeadNode T γ ← HeadNode.init n.lowerFence sepKey
  let nodeRight : HeadNode T γ ← HeadNode.init sepKey n.upperFence
  let nodeLeft ← n.copyKeyValueRange nodeLeft 0 sepSlot
  let nodeRight ← n.copyKeyValueRange nodeRight (nodeLeft.count + 1) (n.count - nodeLeft.count - 1)
  match n.children[nodeLeft.count]?, n.children[n.count]? with
  | some left, some right =>
    pure ({ nodeLeft with children := nodeLeft.children ++ [left] }.makeHint,
      { nodeRight with children := nodeRight.children ++ [right] }.makeHint)
  | _, _ => .error .undefined

def findSeparator (n : HeadNode T γ) : Except Fault ℕ := do
  ensure (1 < n.count) .assertion
  pure (n.count / 2)

end HeadNode

namespace AnyInner
variable {γ : Type} [ChildPointer γ]

/-- A slotted node that is full becomes a head node if all separators are short. -/
def requestChildConvertFromBasic (p : InnerNode γ) (newKeyLength : ℕ) : Except Fault (Option (AnyInner γ)) := do
  ensure (p.node.prefixLength ≤ newKeyLength) .undefined
  let newKeyLength := newKeyLength - p.node.prefixLength
  if 8 ≤ newKeyLength then pure none
  else if p.node.slots.any fun s => 8 ≤ s.key.length then pure none
  else if newKeyLength < 4 ∧ p.node.slots.all fun s => s.key.length < 4 then do
    let n ← HeadNode.clone_from_basic .uint32 p
    ensure (n.count < n.keyCapacity) .assertion
    pure (some (.head4 n))
  else do
    let n ← HeadNode.clone_from_basic .uint64 p
    ensure (n.count < n.keyCapacity) .assertion
    pure (some (.head8 n))

def innerRequestSpaceFor (n : AnyInner γ) (keyLen : ℕ) : Except Fault (Bool × AnyInner γ) :=
  match n with
  | .inner p => do
    let (succ, p) ← p.innerRequestSpaceFor keyLen
    if succ then pure (true, .inner p)
    else do
      match ← requestChildConvertFromBasic p keyLen with
      | some n => pure (true, n)
      | none => pure (false, .inner p)
  | .head4 n => n.requestSpaceFor keyLen
  | .head8 n => n.requestSpaceFor keyLen

def insertChild (n : AnyInner γ) (key : Bytes) (child : γ) : Except Fault (AnyInner γ) :=
  match n with
  | .inner p => do
    let p ← p.insertChild key child
    pure (.inner p)
  | .head4 n => do
    let n ← n.insertChild key child
    pure (.head4 n)
  | .head8 n => do
    let n ← n.insertChild key child
    pure (.head8 n)

def innerRemoveSlot (n : AnyInner γ) (slotId : ℕ) : Except Fault (AnyInner γ) :=
  match n with
  | .inner p => .ok (.inner { p with node := p.node.removeSlot slotId })
  | .head4 n => do
    let n ← n.removeSlot slotId
    pure (.head4 n)
  | .head8 n => do
    let n ← n.removeSlot slotId
    pure (.head8 n)

/-- `splitNode` at a slot, with the separator that `getSep` yields for it. -/
def splitNode (n : AnyInner γ) (sepSlot : ℕ) : Except Fault (Bytes × AnyInner γ × AnyInner γ) :=
  match n with
  | .inner p => do
    let key ← p.node.getKey sepSlot
    let sepKey ← p.node.getSep ⟨p.node.prefixLength + key.length, sepSlot, false⟩
    let (left, child, right) ← p.node.splitInner sepSlot sepKey
    pure (sepKey, .inner ⟨left, child⟩, .inner ⟨right, p.upper⟩)
  | .head4 n => do
    let sepKey := n.restoreKey (n.prefixLength + n.getKeyLength sepSlot) sepSlot
    let (left, right) ← n.splitNode sepSlot sepKey
    pure (sepKey, .head4 left, .head4 right)
  | .head8 n => do
    let sepKey := n.restoreKey (n.prefixLength + n.getKeyLength sepSlot) sepSlot
    let (left, right) ← n.splitNode sepSlot sepKey
    pure (sepKey, .head8 left, .head8 right)

end AnyInner

end BtreeRedis
