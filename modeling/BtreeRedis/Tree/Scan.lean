import BtreeRedis.Tree.BTree

/-!
# Ascending scans

`rangeLookupImpl` goes from leaf to leaf by looking up the key right behind the upper
fence, the fence with a zero byte appended. The buffer `keyOut` is the search key of
each descent and the key that the callback sees, and only what stands behind the
common prefix of a leaf is written to it. A dense leaf may be entered behind its mask, where
the bytes of the page are read as a word of it.
-/

namespace BtreeRedis

open LexOrder BigEndian

/-- `memcpy` to the buffer of the caller. -/
def blit (keyOut : Bytes) (offset : ℕ) (src : Bytes) : Except Fault Bytes := do
  ensure (offset + src.length ≤ keyOut.length) .undefined
  pure (keyOut.take offset ++ src ++ keyOut.drop (offset + src.length))

/-- `found_record_cb` sees the key in the buffer and the payload; the scan goes on if it says so. -/
abbrev Callback (σ : Type) := σ → Bytes → Bytes → σ × Bool

structure Scanned (σ : Type) where
  more : Bool
  keyOut : Bytes
  state : σ

/-- The bytes that the pages of dense leaves hold where nothing has been written. -/
abbrev FreeBytes := DenseNode → ℕ → Byte

section
variable {σ : Type} (found : Callback σ)

namespace BTreeNode

def scanSlots (prefixLength : ℕ) : List (Slot Bytes) → Bytes → σ → Except Fault (Scanned σ)
  | [], keyOut, state => .ok ⟨true, keyOut, state⟩
  | s :: slots, keyOut, state => do
    let keyOut ← blit keyOut prefixLength s.key
    match found state (keyOut.take (s.key.length + prefixLength)) s.payload with
    | (state, true) => scanSlots prefixLength slots keyOut state
    | (state, false) => pure ⟨false, keyOut, state⟩

def rangeLookup (n : BTreeNode Bytes) (key : Option Bytes) (keyOut : Bytes) (state : σ) :
    Except Fault (Scanned σ) := do
  let start ← match key with
    | some key => (n.lowerBound key).map Prod.fst
    | none => pure 0
  scanSlots found n.prefixLength (n.slots.drop start) keyOut state

end BTreeNode

namespace DenseNode

/-- The byte of the start key at `i`, padded with zeros. A start key of no address is read all the
same where its length says so. -/
def startByte (key : Option Bytes) (length i : ℕ) : Except Fault Byte :=
  if i < length then
    match key with
    | some key => pure (key.getD i 0)
    | none => .error .undefined
  else pure 0

/-- The loop of `isNumericRangeAnyLen` over the given positions. -/
def numericRangeLoop (d : DenseNode) (key : Option Bytes) (length : ℕ) : List ℕ → Except Fault Bool
  | [] => pure true
  | i :: is => do
    let byte ← startByte key length i
    match d.lowerFence[i]? with
    | none => .error .undefined
    | some b => if b ≠ byte then pure false else numericRangeLoop d key length is

def isNumericRangeAnyLen (d : DenseNode) (key : Option Bytes) (length : ℕ) : Except Fault Bool :=
  d.numericRangeLoop key length
    (List.range' d.prefixLength (computeNumericPrefixLength d.fullKeyLen - d.prefixLength))

/-- The array index to start from, in unsigned arithmetic. -/
def firstIndex (d : DenseNode) : Option Bytes → Except Fault ℕ
  | none => pure 0
  | some key => do
    let least ← leastGreaterKey key d.fullKeyLen
    pure ((least + 2 * numericRange - (if key.length = d.fullKeyLen then 1 else 0) - d.arrayStart) %
      numericRange)

/-- The byte at `offset` of the page behind the mask: part of a value, of a fence, or of neither. -/
def pageByte (d : DenseNode) (free : ℕ → Byte) (offset : ℕ) : Byte :=
  let lowerOffset := pageSize - d.lowerFence.length
  let valOffset := offset - (maskOffset + d.maskWordCount * maskBytesPerWord)
  let written :=
    if lowerOffset ≤ offset then d.lowerFence[offset - lowerOffset]?
    else if d.fencesOffset ≤ offset then d.upperFence[offset - d.fencesOffset]?
    else (d.vals.getD (valOffset / d.valLen) [])[valOffset % d.valLen]?
  written.getD (free offset)

/-- A word of the declared array `mask`, which takes up the page, behind the words of the mask. -/
def pageWord (d : DenseNode) (free : ℕ → Byte) (wordIndex : ℕ) : Except Fault Mask := do
  ensure (wordIndex < (pageSize - maskOffset) / maskBytesPerWord) .undefined
  let bytes := (List.range' (maskOffset + wordIndex * maskBytesPerWord) maskBytesPerWord).map (d.pageByte free)
  pure (.ofNat maskBitsPerWord (BigEndian.value bytes.reverse))

/-- The word at `wordIndex`, where `behind` gives the ones that the mask does not have. -/
def maskWord (d : DenseNode) (behind : ℕ → Except Fault Mask) (wordIndex : ℕ) : Except Fault Mask :=
  match d.mask[wordIndex]? with
  | some word => pure word
  | none => behind wordIndex

def noWord (_ : ℕ) : Except Fault Mask := .error .undefined

/-- `std::__countr_zero` -/
def countrZero (word : Mask) : ℕ := (List.range maskBitsPerWord).findIdx fun i => word.getLsbD i

def keyBytes (d : DenseNode) (i : ℕ) : Bytes :=
  digits (computeNumericPartLen d.fullKeyLen) ((d.arrayStart + i) % numericRange)

def maskLoop (d : DenseNode) : ℕ → ℕ → ℕ → Mask → Bytes → σ → Except Fault (Scanned σ)
  | 0, _, _, _, _, _ => .error .outOfFuel
  | fuel + 1, wordIndex, shift, word, keyOut, state =>
    let trailingZeros := countrZero word
    if trailingZeros = maskBitsPerWord then
      if d.maskWordCount ≤ wordIndex + 1 then .ok ⟨true, keyOut, state⟩
      else
        match d.mask[wordIndex + 1]? with
        | some word => maskLoop d fuel (wordIndex + 1) 0 word keyOut state
        | none => .error .undefined
    else
      let shift := shift + trailingZeros
      let word := word >>> trailingZeros
      let entryIndex := wordIndex * maskBitsPerWord + shift
      if d.slotCount < entryIndex then .ok ⟨true, keyOut, state⟩
      else do
        let keyOut ← blit keyOut (computeNumericPrefixLength d.fullKeyLen) (d.keyBytes entryIndex)
        let val ← d.getVal entryIndex
        match found state (keyOut.take d.fullKeyLen) val with
        | (state, true) => maskLoop d fuel wordIndex (shift + 1) (word >>> 1) keyOut state
        | (state, false) => pure ⟨false, keyOut, state⟩

/-- Each round of the loop moves past a bit or a word. -/
def scanFuel (d : DenseNode) : ℕ := (maskBitsPerWord + 1) * (d.maskWordCount + 1)

def rangeLookup1 (d : DenseNode) (behind : ℕ → Except Fault Mask) (key : Option Bytes) (keyLen : ℕ)
    (keyOut : Bytes) (state : σ) : Except Fault (Scanned σ) := do
  if ← d.isNumericRangeAnyLen key keyLen then
    let firstIndex ← d.firstIndex key
    let nprefLen := computeNumericPrefixLength d.fullKeyLen
    ensure (nprefLen ≤ d.lowerFence.length) .undefined
    let keyOut ← if d.prefixLength < nprefLen
      then blit keyOut d.prefixLength ((d.lowerFence.take nprefLen).drop d.prefixLength)
      else pure keyOut
    let word ← d.maskWord behind (firstIndex / maskBitsPerWord)
    let shift := firstIndex % maskBitsPerWord
    maskLoop found d d.scanFuel (firstIndex / maskBitsPerWord) shift (word >>> shift) keyOut state
  else pure ⟨true, keyOut, state⟩

end DenseNode

namespace LeafNode

def prefixLength : LeafNode → ℕ
  | .basic n => n.prefixLength
  | .dense d => d.prefixLength

def rangeLookup (free : FreeBytes) (l : LeafNode) (key : Option Bytes) (keyLen : ℕ) (keyOut : Bytes) (state : σ) :
    Except Fault (Scanned σ) :=
  match l with
  | .basic n => n.rangeLookup found key keyOut state
  | .dense d => d.rangeLookup1 found (d.pageWord (free d)) key keyLen keyOut state

end LeafNode

namespace BTree
variable (free : FreeBytes)

def rangeLoop (t : BTree) : ℕ → Option Bytes → ℕ → Bytes → σ → Except Fault (Bytes × σ)
  | 0, _, _, _, _ => .error .outOfFuel
  | fuel + 1, leafKey, keyLen, keyOut, state => do
    let leaf ← t.leafFor (keyOut.take keyLen)
    let scanned ← leaf.rangeLookup found free leafKey keyLen keyOut state
    if scanned.more then
      let keyOut ← blit scanned.keyOut leaf.prefixLength (leaf.upperFence.drop leaf.prefixLength)
      let keyOut ← blit keyOut leaf.upperFence.length [0]
      -- An empty upper fence: there is no leaf behind this one.
      if leaf.upperFence.length + 1 = 1 then pure (keyOut, scanned.state)
      else rangeLoop t fuel none (leaf.upperFence.length + 1) keyOut scanned.state
    else pure (scanned.keyOut, scanned.state)

def rangeLookupImpl (t : BTree) (fuel : ℕ) (startKey keyOut : Bytes) (state : σ) :
    Except Fault (Bytes × σ) := do
  let keyOut ← blit keyOut 0 startKey
  t.rangeLoop found free fuel (some startKey) startKey.length keyOut state

end BTree

end

end BtreeRedis
