import BtreeRedis.Dense2.Node
import BtreeRedis.Node.Update

/-!
# Inserts into a dense leaf with records

A full basic leaf becomes a dense one with records if its keys have one length. An insert first
gives up the record that it overwrites, and then asks for space. The compaction forgets to raise
`dataOffset`, so that the insert behind it fails, and the way back to a basic leaf reads the mask
and the value length of the other kind of dense leaf.
-/

namespace BtreeRedis

open LexOrder SortedAssoc BigEndian Memory

inductive Dense2Leaf
  | basic (node : BTreeNode Bytes)
  | dense2 (node : Dense2Node)

namespace Dense2Node

/-- Bit `i` of the mask, which begins at the second slot. -/
def maskBit (d : Dense2Node) (i : ℕ) : Bool :=
  let slot := 1 + i / 16
  (if slot < d.slotCount then d.slotAt slot else load16 d.page (recordSlotsOffset + 2 * slot)).testBit (i % 16)

/-- One round of the loop in `copyKeyValueRangeToBasic`, which announces a payload of `valLen` bytes and copies the
record of the slot. Without a record the header is copied; of a shorter payload the end is not written, and a longer
one overwrites its neighbour. -/
def copyRecord (d : Dense2Node) (dst : BTreeNode Bytes) (i : ℕ) : Except Fault (BTreeNode Bytes) := do
  let valLen := d.spaceUsed
  ensure (d.slotAt i ≠ 0 ∧ d.slotValLen i = valLen) .undefined
  let key := d.array.truncatedKey dst.prefixLength i
  let payload := record d.page (d.slotAt i)
  let space := d.fullKeyLen - dst.prefixLength + valLen
  ensure (space ≤ dst.dataOffset) .pageOverflow
  let offset := dst.dataOffset - space
  let head := BtreeRedis.head ((key ++ payload).take (d.fullKeyLen - d.prefixLength))
  pure { dst with
    dataOffset := offset
    spaceUsed := dst.spaceUsed + space
    slots := dst.slots ++ [{ offset, key, payload, head }] }

def copyKeyValueRangeToBasic (d : Dense2Node) (dst : BTreeNode Bytes) (srcStart srcEnd : ℕ) :
    Except Fault (BTreeNode Bytes) := do
  ensure (d.prefixLength ≤ dst.prefixLength) .assertion
  ensure (dst.count = 0) .assertion
  let dst ← ((List.range' srcStart (srcEnd - srcStart)).filter d.maskBit).foldlM d.copyRecord dst
  ensure (slotsOffset + slotSize * dst.count ≤ dst.dataOffset) .pageOverflow
  pure dst

def convertToBasic (d : Dense2Node) : Except Fault (BTreeNode Bytes) := do
  let tmp ← (BTreeNode.init true).setFences d.lowerFence d.upperFence
  let tmp ← d.copyKeyValueRangeToBasic tmp 0 d.slotCount
  pure tmp.makeHint

def clearSlot (d : Dense2Node) (i : ℕ) : Dense2Node :=
  if d.slotAt i = 0 then d
  else { d with
    spaceUsed := sub16 d.spaceUsed (d.slotValLen i + 2)
    slots := d.slots.set i 0
    occupiedCount := sub16 d.occupiedCount 1 }

/-- `insert` of a key of the leaf's own length. -/
def insertMatching (d : Dense2Node) (key payload : Bytes) : Except Fault (Bool × Dense2Node) := do
  match ← d.keyToIndex key with
  | .index i => do
    let (space, d) := (d.clearSlot i).requestSpaceFor payload.length
    if space then do
      let d ← d.insertSlotWithSpace i payload
      pure (true, { d with occupiedCount := (d.occupiedCount + 1) % 2 ^ 16 })
    else pure (false, d)
  | .wrongLen => .error .assertion
  | _ => pure (false, d)

def upperOutsideRange (n : BTreeNode Bytes) (keyLen : ℕ) : Bool :=
  let stop := min n.getUpperFence.length (keyLen - maxNumericPartLen)
  (n.getUpperFence.take stop).drop n.prefixLength ≠ (n.getLowerFence.take stop).drop n.prefixLength

/-- The loop body of `densify2`. -/
def fillSlot (prefixNumericPart : ℕ) (d : Dense2Node) (s : Slot Bytes) : Except Fault Dense2Node :=
  let keyNumericPart := getNumericPart s.key (d.fullKeyLen - d.prefixLength)
  d.insertSlotWithSpace (arrayIndex prefixNumericPart keyNumericPart d.arrayStart) s.payload

/-- The leaf is made in a page with any contents. -/
def densify2 (n : BTreeNode Bytes) (page : ℕ → Byte) : Except Fault (Option Dense2Node) :=
  match n.slots with
  | [] => .error .assertion
  | s :: ss =>
    let keyLen := s.key.length + n.prefixLength
    if n.getLowerFence.length + maxNumericPartLen < keyLen then .ok none
    else if n.getUpperFence.length = 0 then .ok none
    else if upperOutsideRange n keyLen then .ok none
    else do
      let arrayStart ← leastGreaterKey n.getLowerFence keyLen
      let arrayEnd ← leastGreaterKey n.getUpperFence keyLen
      ensure (arrayStart < arrayEnd) .assertion
      if pageSize / 2 ≤ arrayEnd - arrayStart then pure none
      else if ss.any fun t => t.key.length ≠ s.key.length then pure none
      else
        let out := blank n.getLowerFence n.getUpperFence n.prefixLength keyLen arrayStart (arrayEnd - arrayStart) page
        -- the sum only grows, so that it is too large in some round if it is in the last one
        let totalPayloadSize := (n.slots.map fun t => t.payload.length).sum
        if out.dataOffset < out.slotEndOffset + totalPayloadSize + 2 * n.count then pure none
        else do
          let out ← n.slots.foldlM (fillSlot (getNumericPart n.getPrefix keyLen)) out
          pure (some { out with occupiedCount := n.count })

end Dense2Node

/-- The case of `insert` on a basic leaf that has found no space, in a build for leaves with records. -/
def BTreeNode.insertDensified2 (n : BTreeNode Bytes) (key payload : Bytes) (page : ℕ → Byte) :
    Except Fault (Bool × Dense2Leaf) :=
  match n.slots with
  | [] => .error .undefined
  | s :: _ =>
    if key.length - n.prefixLength = s.key.length then do
      match ← Dense2Node.densify2 n page with
      | some d => do
        let (inserted, d) ← d.insertMatching key payload
        pure (inserted, .dense2 d)
      | none => pure (false, .basic n)
    else .ok (false, .basic n)

def BTreeNode.insert2 (n : BTreeNode Bytes) (key payload : Bytes) (page : ℕ → Byte) :
    Except Fault (Bool × Dense2Leaf) := do
  let needed ← n.spaceNeeded key.length payload.length
  let (space, n) ← n.requestSpaceFor needed
  if space then do
    let n ← n.insertSlot key payload
    pure (true, .basic n)
  else n.insertDensified2 key payload page

namespace Dense2Node

def convertible (d : Dense2Node) : Prop :=
  d.occupiedCount * (d.fullKeyLen - d.prefixLength + slotSize - 2) + d.spaceUsed + d.lowerFence.length +
    d.upperFence.length + headerSize ≤ pageSize

instance (d : Dense2Node) : Decidable d.convertible := inferInstanceAs (Decidable (_ ≤ _))

def insert (d : Dense2Node) (key payload : Bytes) (page : ℕ → Byte) : Except Fault (Bool × Dense2Leaf) := do
  ensure (d.prefixLength ≤ key.length) .assertion
  if key.length ≠ d.fullKeyLen then
    if d.convertible then do
      let n ← d.convertToBasic
      n.insert2 key payload page
    else pure (false, .dense2 d)
  else do
    let (inserted, d) ← d.insertMatching key payload
    pure (inserted, .dense2 d)

end Dense2Node

end BtreeRedis
