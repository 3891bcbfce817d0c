import BtreeRedis.Page
import BtreeRedis.Lib.LexOrder
import BtreeRedis.Lib.SortedAssoc

/-!
# Basic nodes: slots, fences and the heap behind them

`BTreeNode` is a leaf (payloads are byte strings) or the slotted part of an inner
node (payloads are children). A slot keeps the bytes it addresses next to its
offset; `dataOffset` and `spaceUsed` are the counters of the source, and a write
that would reach the slot array or leave the page is a `Fault`. Keys in slots are
truncated by the common prefix of the two fences.
-/

namespace BtreeRedis

open LexOrder SortedAssoc

/-- The first four bytes as a big-endian number, short keys padded with zeros. -/
def head : Bytes → ℕ
  | [] => 0
  | [a] => a.val * 2 ^ 24
  | [a, b] => a.val * 2 ^ 24 + b.val * 2 ^ 16
  | [a, b, c] => a.val * 2 ^ 24 + b.val * 2 ^ 16 + c.val * 2 ^ 8
  | a :: b :: c :: d :: _ => a.val * 2 ^ 24 + b.val * 2 ^ 16 + c.val * 2 ^ 8 + d.val

theorem head_mono {s t : Bytes} (h : s ≤ t) : head s ≤ head t := by
  rcases h.eq_or_lt with rfl | h
  · exact le_rfl
  · rcases s with _ | ⟨a, _ | ⟨b, _ | ⟨c, _ | ⟨d, s⟩⟩⟩⟩ <;>
      rcases t with _ | ⟨a', _ | ⟨b', _ | ⟨c', _ | ⟨d', t⟩⟩⟩⟩ <;>
      simp only [cons_lt_cons, List.not_lt_nil, and_false, or_false, Fin.lt_def, Fin.ext_iff,
        head] at h ⊢ <;> omega

theorem lt_of_head_lt {s t : Bytes} (h : head s < head t) : s < t :=
  lt_of_not_ge fun hn => absurd (head_mono hn) (by omega)

structure Slot (π : Type) where
  offset : ℕ
  key : Bytes
  payload : π
  head : ℕ

structure FenceKeySlot where
  offset : ℕ
  key : Bytes

structure BTreeNode (π : Type) where
  isLeaf : Bool
  spaceUsed : ℕ
  dataOffset : ℕ
  lowerFence : FenceKeySlot
  upperFence : FenceKeySlot
  prefixLength : ℕ
  hint : List ℕ
  slots : List (Slot π)

/-- Where a key belongs: above the lower fence, up to the upper one. An empty fence is no bound. -/
def InFences (lower upper key : Bytes) : Prop :=
  (lower = [] ∨ lower < key) ∧ (upper = [] ∨ key ≤ upper)

def FencesOrdered (lower upper : Bytes) : Prop := upper = [] ∨ lower ≤ upper

instance (lower upper key : Bytes) : Decidable (InFences lower upper key) :=
  inferInstanceAs (Decidable (_ ∧ _))

theorem InFences.lower_le {lower upper key : Bytes} (h : InFences lower upper key) : lower ≤ key :=
  h.1.elim (fun e => e ▸ nil_le key) le_of_lt

theorem InFences.hasRoom {lower upper key : Bytes} (h : InFences lower upper key) : upper = [] ∨ lower < upper := by
  refine or_iff_not_imp_left.mpr fun hne => ?_
  have hle := h.2.resolve_left hne
  rcases h.1 with rfl | hlt
  · exact pos_of_ne_nil hne
  · exact hlt.trans_le hle

theorem FencesOrdered.eq_of_closed {lower upper : Bytes} (h : FencesOrdered lower upper)
    (hc : ¬ (upper = [] ∨ lower < upper)) : lower = upper := by
  rw [not_or] at hc
  exact le_antisymm (h.resolve_left hc.1) (not_lt.mp hc.2)

theorem InFences.mono {a b c d key : Bytes} (h : InFences b c key) (hab : a ≤ b)
    (hcd : d = [] ∨ c ≠ [] ∧ c ≤ d) : InFences a d key := by
  refine ⟨h.1.elim (fun e => Or.inl ?_) (fun hl => Or.inr (hab.trans_lt hl)), hcd.imp id fun hc => ?_⟩
  · exact le_antisymm (e ▸ hab) (nil_le a)
  · exact (h.2.resolve_left hc.1).trans hc.2

theorem InFences.isPrefix {lower upper key : Bytes} (h : InFences lower upper key) :
    lower.take (commonPrefixLength lower upper) <+: key := by
  rcases h.2 with rfl | hu
  · simp
  · exact prefix_of_between (List.take_prefix _ _) (take_commonPrefix_prefix_right _ _) h.lower_le hu

namespace Slot
variable {π : Type} [Payload π]

def entry (s : Slot π) : Bytes × π := (s.key, s.payload)

def size (s : Slot π) : ℕ := s.key.length + Payload.len s.payload

end Slot

namespace BTreeNode
variable {π : Type} [Payload π]

abbrev count (n : BTreeNode π) : ℕ := n.slots.length

def getLowerFence (n : BTreeNode π) : Bytes := n.lowerFence.key
def getUpperFence (n : BTreeNode π) : Bytes := n.upperFence.key
def getPrefix (n : BTreeNode π) : Bytes := n.getLowerFence.take n.prefixLength

def fullKey (n : BTreeNode π) (s : Slot π) : Bytes := n.getPrefix ++ s.key

def freeSpace (n : BTreeNode π) : ℕ := n.dataOffset - (slotsOffset + slotSize * n.count)

def freeSpaceAfterCompaction (n : BTreeNode π) : ℕ :=
  pageSize - (slotsOffset + slotSize * n.count) - n.spaceUsed

def init (isLeaf : Bool) : BTreeNode π where
  isLeaf := isLeaf
  spaceUsed := 0
  dataOffset := pageSize
  lowerFence := ⟨0, []⟩
  upperFence := ⟨0, []⟩
  prefixLength := 0
  hint := List.replicate hintCount 0
  slots := []

/-- `sizeof(Slot)` plus what is left of the key behind the prefix plus the payload. -/
def spaceNeeded (n : BTreeNode π) (keyLength payloadLength : ℕ) : Except Fault ℕ := do
  ensure (n.prefixLength ≤ keyLength) .assertion
  pure (slotSize + (keyLength - n.prefixLength) + payloadLength)

def headAt (n : BTreeNode π) (i : ℕ) : ℕ := (n.slots[i]?.map Slot.head).getD 0

def makeHint (n : BTreeNode π) : BTreeNode π :=
  let dist := n.count / (hintCount + 1)
  { n with hint := (List.range hintCount).map fun i => n.headAt (dist * (i + 1)) }

/-- The first hint that an insertion at `slotId` can change, as far as the source goes. -/
def hintStart (count slotId : ℕ) : ℕ :=
  let dist := count / (hintCount + 1)
  if hintCount * 2 + 1 < count ∧ (count - 1) / (hintCount + 1) = dist ∧ 1 < slotId / dist
  then slotId / dist - 1 else 0

def updateHint (n : BTreeNode π) (slotId : ℕ) : BTreeNode π :=
  let dist := n.count / (hintCount + 1)
  { n with hint := (List.range hintCount).map fun i =>
      if i < hintStart n.count slotId then n.hint.getD i 0 else n.headAt (dist * (i + 1)) }

def insertFence (n : BTreeNode π) (key : Bytes) : Except Fault (BTreeNode π × FenceKeySlot) := do
  ensure (key.length ≤ n.freeSpace) .pageOverflow
  let offset := n.dataOffset - key.length
  pure ({ n with dataOffset := offset, spaceUsed := n.spaceUsed + key.length }, ⟨offset, key⟩)

def setFences (n : BTreeNode π) (lowerKey upperKey : Bytes) : Except Fault (BTreeNode π) := do
  let (n, lower) ← n.insertFence lowerKey
  let (n, upper) ← n.insertFence upperKey
  pure { n with
    lowerFence := lower
    upperFence := upper
    prefixLength := commonPrefixLength lowerKey upperKey }

/-- Writes key and payload below the heap and fills the slot for them. The caller puts the slot
at `slotId`, behind the prefix has been cut off the key. -/
def storeKeyValue (n : BTreeNode π) (slotId : ℕ) (key : Bytes) (payload : π) :
    Except Fault (BTreeNode π × Slot π) := do
  ensure (n.prefixLength ≤ key.length) .undefined
  let key := key.drop n.prefixLength
  let space := key.length + Payload.len payload
  ensure (space ≤ n.dataOffset) .pageOverflow
  let offset := n.dataOffset - space
  ensure (slotsOffset + slotSize * (slotId + 1) ≤ offset) .pageOverflow
  pure ({ n with dataOffset := offset, spaceUsed := n.spaceUsed + space },
    { offset, key, payload, head := BtreeRedis.head key })

def copyKeyValue (n dst : BTreeNode π) (s : Slot π) : Except Fault (BTreeNode π) := do
  let (dst, t) ← dst.storeKeyValue dst.count (n.getPrefix ++ s.key) s.payload
  pure { dst with slots := dst.slots ++ [t] }

/-- The loop body of `copyKeyValueRange` for a prefix that grows by `diff` bytes. -/
def copyTruncated (diff : ℕ) (dst : BTreeNode π) (s : Slot π) : Except Fault (BTreeNode π) := do
  ensure (diff ≤ s.key.length) .undefined
  let key := s.key.drop diff
  let space := key.length + Payload.len s.payload
  ensure (space ≤ dst.dataOffset) .pageOverflow
  let offset := dst.dataOffset - space
  pure { dst with
    dataOffset := offset
    spaceUsed := dst.spaceUsed + space
    slots := dst.slots ++ [{ offset, key, payload := s.payload, head := BtreeRedis.head key }] }

def copySlots (n dst : BTreeNode π) (src : List (Slot π)) : Except Fault (BTreeNode π) :=
  if n.prefixLength ≤ dst.prefixLength
  then src.foldlM (copyTruncated (dst.prefixLength - n.prefixLength)) dst
  else src.foldlM n.copyKeyValue dst

/-- Appends `srcCount` slots from `srcSlot` on to `dst`; every caller passes `dst->count` as the
destination slot. -/
def copyKeyValueRange (n dst : BTreeNode π) (srcSlot srcCount : ℕ) : Except Fault (BTreeNode π) := do
  let dst ← n.copySlots dst ((n.slots.drop srcSlot).take srcCount)
  ensure (slotsOffset + slotSize * dst.count ≤ dst.dataOffset) .pageOverflow
  pure dst

def compactify (n : BTreeNode π) : Except Fault (BTreeNode π) := do
  let should := n.freeSpaceAfterCompaction
  let tmp ← (init n.isLeaf).setFences n.getLowerFence n.getUpperFence
  let tmp ← n.copyKeyValueRange tmp 0 n.count
  let tmp := tmp.makeHint
  ensure (tmp.freeSpace = should) .assertion
  pure tmp

def requestSpaceFor (n : BTreeNode π) (spaceNeeded : ℕ) : Except Fault (Bool × BTreeNode π) :=
  if spaceNeeded ≤ n.freeSpace then .ok (true, n)
  else if spaceNeeded ≤ n.freeSpaceAfterCompaction then do
    let n ← n.compactify
    pure (true, n)
  else .ok (false, n)

end BTreeNode

end BtreeRedis
