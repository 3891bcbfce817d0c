import BtreeRedis.Node.Accounting

/-!
# Hash leaves

A hash leaf appends its slots in the order of insertion and keeps one hash byte for each
beside them; only the first `sortedCount` slots are in order. The hash array lies below
the heap with room for `hashCapacity` bytes. Keys are truncated by the common prefix of the
fences as in a basic leaf. The function behind `compute_hash` is a parameter.
-/

namespace BtreeRedis

open LexOrder SortedAssoc

structure Config where
  enableHash : Bool
  enableHashAdapt : Bool
  enableAdaptOp : Bool
  hash_of_adapt : enableHashAdapt = true → enableHash = true
  adapt_of_op : enableAdaptOp = true → enableHashAdapt = true

abbrev Draws := Stream' ℕ

structure RangeOpCounter where
  count : ℕ

namespace RangeOpCounter

@[simp] def maxCount : ℕ := 3
/-- `(rng.max() + 1) * 0.15` and `(rng.max() + 1) * 0.05` for `std::minstd_rand` -/
@[simp] def rangeThreshold : ℕ := 322122547
@[simp] def pointThreshold : ℕ := 107374182

def fresh : RangeOpCounter := ⟨maxCount / 2⟩

def setGoodHeads (c : Config) (r : RangeOpCounter) : RangeOpCounter :=
  if c.enableAdaptOp then ⟨255⟩ else r

def setBadHeads (c : Config) (r : RangeOpCounter) (previous : ℕ) : RangeOpCounter :=
  if c.enableAdaptOp then (if previous = 255 then ⟨maxCount / 2⟩ else ⟨previous⟩) else r

def rangeOp (c : Config) (r : RangeOpCounter) (draws : Draws) : Bool × RangeOpCounter × Draws :=
  if c.enableAdaptOp ∧ r.count < maxCount then
    let count := r.count + if draws.head < rangeThreshold then 1 else 0
    (decide (count = maxCount), ⟨count⟩, draws.tail)
  else (false, r, draws)

/-- The counter is compared as a signed byte. -/
def pointOp (c : Config) (r : RangeOpCounter) (draws : Draws) : Bool × RangeOpCounter × Draws :=
  if c.enableAdaptOp ∧ 0 < r.count ∧ r.count < 128 then
    let count := r.count - if draws.head < pointThreshold then 1 else 0
    (decide (count = 0), ⟨count⟩, draws.tail)
  else (false, r, draws)

def isLowRange (c : Config) (r : RangeOpCounter) : Bool :=
  !c.enableAdaptOp || decide (r.count ≤ maxCount / 2)

theorem rangeOp_config {c : Config} {r : RangeOpCounter} {draws : Draws}
    (h : (r.rangeOp c draws).1 = true) : c.enableHashAdapt = true := by
  by_cases hc : c.enableAdaptOp ∧ r.count < maxCount
  · exact c.adapt_of_op hc.1
  · rw [rangeOp, if_neg hc] at h
    cases h

theorem pointOp_config {c : Config} {r : RangeOpCounter} {draws : Draws}
    (h : (r.pointOp c draws).1 = true) : c.enableHashAdapt = true := by
  by_cases hc : c.enableAdaptOp ∧ 0 < r.count ∧ r.count < 128
  · exact c.adapt_of_op hc.1
  · rw [pointOp, if_neg hc] at h
    cases h

end RangeOpCounter

/-- `compute_hash` -/
class KeyHash where
  computeHash : Bytes → Byte

export KeyHash (computeHash)

@[simp] def hashHeaderSize : ℕ := 20
@[simp] def hashSlotSize : ℕ := 6

structure HashSlot where
  offset : ℕ
  key : Bytes
  payload : Bytes

def HashSlot.entry (s : HashSlot) : Bytes × Bytes := (s.key, s.payload)

structure HashNode where
  rangeOpCounter : RangeOpCounter
  sortedCount : ℕ
  spaceUsed : ℕ
  dataOffset : ℕ
  prefixLength : ℕ
  hashCapacity : ℕ
  hashOffset : ℕ
  lowerFence : Bytes
  upperFence : Bytes
  slots : List HashSlot
  hashes : List Byte

/-- Writes place `i`, which may be the one behind the last. -/
def put {α : Type} (l : List α) (i : ℕ) (a : α) : List α := l.take i ++ a :: l.drop (i + 1)

/-- The number of hash bytes that the page has room for if it goes on as it is filled. -/
def hashCapacityFor (lowerFence upperFence : Bytes) (spaceUsed count : ℕ) : Except Fault ℕ := do
  let available := pageSize - hashHeaderSize - upperFence.length - lowerFence.length
  let entrySpaceUse := spaceUsed - upperFence.length - lowerFence.length + count * hashSlotSize
  let capacity := if count = 0 then pageSize / 64 else available * count / (entrySpaceUse + count)
  ensure (count ≤ capacity) .assertion
  pure capacity

namespace HashNode

abbrev count (n : HashNode) : ℕ := n.slots.length

def getPrefix (n : HashNode) : Bytes := n.lowerFence.take n.prefixLength

def slotsEnd (n : HashNode) : ℕ := hashHeaderSize + hashSlotSize * n.count

def freeSpace (n : HashNode) : ℕ := n.dataOffset - n.slotsEnd

def freeSpaceAfterCompaction (n : HashNode) : ℕ := pageSize - n.slotsEnd - n.spaceUsed

def estimateCapacity (n : HashNode) : Except Fault ℕ :=
  hashCapacityFor n.lowerFence n.upperFence n.spaceUsed n.count

/-- A page with its fences and an empty hash array; the offset must not wrap. -/
def init (lowerFence upperFence : Bytes) (hashCapacity : ℕ) (roc : RangeOpCounter) : Except Fault HashNode := do
  let spaceUsed := upperFence.length + lowerFence.length
  ensure (spaceUsed + hashCapacity ≤ pageSize) .undefined
  let dataOffset := pageSize - spaceUsed - hashCapacity
  pure {
    rangeOpCounter := roc
    sortedCount := 0
    spaceUsed, dataOffset, hashCapacity, lowerFence, upperFence
    prefixLength := commonPrefixLength lowerFence upperFence
    hashOffset := dataOffset
    slots := []
    hashes := [] }

def content (n : HashNode) : List (Bytes × Bytes) := n.slots.map HashSlot.entry

def restored (n : HashNode) : List (Bytes × Bytes) := n.content.map fun e => (n.getPrefix ++ e.1, e.2)

def entries (n : HashNode) : List (Bytes × Bytes) := sortByKey n.restored

/-- Behind the common prefix the lower fence ends first or has the smaller byte. -/
def FencesAscend (n : HashNode) : Prop :=
  n.lowerFence.length = n.prefixLength ∧ n.prefixLength < n.upperFence.length ∨ n.upperFence.length = 0 ∨
    n.prefixLength < n.lowerFence.length ∧ n.prefixLength < n.upperFence.length ∧
      n.lowerFence.getD n.prefixLength 0 < n.upperFence.getD n.prefixLength 0

instance (n : HashNode) : Decidable n.FencesAscend := inferInstanceAs (Decidable (_ ∨ _))

variable [KeyHash]

/-- The checks of a debug build. -/
def validate (n : HashNode) : Except Fault Unit := do
  ensure (n.spaceUsed = n.upperFence.length + n.lowerFence.length + BTreeNode.entryBytes n.content) .assertion
  ensure n.FencesAscend .assertion
  ensure (((keys n.content).take n.sortedCount).IsChain (· < ·)) .assertion
  ensure (n.hashes = (keys n.content).map computeHash) .assertion

def storeKeyValue (n : HashNode) (slotId : ℕ) (key payload : Bytes) (hash : Byte) : Except Fault HashNode := do
  ensure (n.prefixLength ≤ key.length) .undefined
  let key := key.drop n.prefixLength
  let space := key.length + payload.length
  ensure (space ≤ n.dataOffset) .pageOverflow
  let offset := n.dataOffset - space
  ensure (hashHeaderSize + hashSlotSize * slotId ≤ offset) .pageOverflow
  ensure (slotId < n.hashCapacity) .undefined
  pure { n with
    dataOffset := offset
    spaceUsed := n.spaceUsed + space
    slots := put n.slots slotId { offset, key, payload }
    hashes := put n.hashes slotId hash }

def append (dst : HashNode) (key payload : Bytes) : Except Fault HashNode :=
  dst.storeKeyValue dst.count key payload (computeHash (key.drop dst.prefixLength))

def copyKeyValue (n dst : HashNode) (s : HashSlot) : Except Fault HashNode :=
  dst.append (n.getPrefix ++ s.key) s.payload

/-- The loop body of `copyKeyValueRange` for a prefix that grows by `diff` bytes. -/
def copyTruncated (diff : ℕ) (dst : HashNode) (s : HashSlot) : Except Fault HashNode := do
  ensure (diff ≤ s.key.length) .undefined
  let key := s.key.drop diff
  let space := key.length + s.payload.length
  ensure (space ≤ dst.dataOffset) .pageOverflow
  let offset := dst.dataOffset - space
  ensure (dst.count < dst.hashCapacity) .undefined
  pure { dst with
    dataOffset := offset
    spaceUsed := dst.spaceUsed + space
    slots := dst.slots ++ [{ offset, key, payload := s.payload }]
    hashes := dst.hashes ++ [computeHash key] }

def copySlots (n dst : HashNode) (src : List HashSlot) : Except Fault HashNode :=
  if n.prefixLength ≤ dst.prefixLength
  then src.foldlM (copyTruncated (dst.prefixLength - n.prefixLength)) dst
  else src.foldlM n.copyKeyValue dst

/-- Every caller passes `dst->count` as the destination slot. -/
def copyKeyValueRange (n dst : HashNode) (srcSlot srcCount : ℕ) : Except Fault HashNode := do
  let dst ← n.copySlots dst ((n.slots.drop srcSlot).take srcCount)
  ensure (dst.slotsEnd ≤ dst.dataOffset) .pageOverflow
  pure dst

end HashNode

end BtreeRedis
