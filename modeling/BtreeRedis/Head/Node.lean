import BtreeRedis.Lib.BigEndian
import BtreeRedis.Node.Search

/-!
# Head nodes

An inner node whose truncated separators are shorter than a machine word keeps each of them
as one number: its bytes, zeros and the length in the last byte. A search key is made into
a number of the same shape, so that routing compares words only. `HeadType` is the template
parameter; the slots `0..count` of `children` belong to the separators and the one behind
them to everything above.
-/

namespace BtreeRedis

open LexOrder SortedAssoc BigEndian

/-- `uint32_t` and `uint64_t` -/
inductive HeadType
  | uint32
  | uint64
  deriving DecidableEq, Repr

/-- `sizeof(T)` -/
def HeadType.size : HeadType → ℕ
  | uint32 => 4
  | uint64 => 8

/-- Where the keys start: the padded header and the hints. -/
def HeadType.paddedHeadSize : HeadType → ℕ
  | uint32 => 12 + 4 * hintCount
  | uint64 => 16 + 4 * hintCount

structure HeadNode (T : HeadType) (γ : Type) where
  keyCapacity : ℕ
  lowerFence : Bytes
  upperFence : Bytes
  prefixLength : ℕ
  hint : List ℕ
  keys : List ℕ
  children : List γ

/-- The number that a separator is stored as, if it is short enough. -/
def makeSepHead (T : HeadType) (key : Bytes) : Option ℕ :=
  if key.length < T.size
  then some (value (key ++ List.replicate (T.size - 1 - key.length) 0 ++ [Fin.ofNat 256 key.length]))
  else none

/-- The number that a search key is compared as; a long key is cut and gets the length `sizeof(T)`. -/
def makeNeedleHead (T : HeadType) (key : Bytes) : ℕ :=
  if key.length < T.size
  then value (key ++ List.replicate (T.size - 1 - key.length) 0 ++ [Fin.ofNat 256 key.length])
  else value (key.take (T.size - 1) ++ [Fin.ofNat 256 T.size])

/-- The upper four bytes of a head, which the hints sample. -/
def hintOf (T : HeadType) (head : ℕ) : ℕ := head / 2 ^ (T.size * 8 - 32)

namespace HeadNode
variable {T : HeadType} {γ : Type}

abbrev count (n : HeadNode T γ) : ℕ := n.keys.length

def getPrefix (n : HeadNode T γ) : Bytes := n.lowerFence.take n.prefixLength

def fencesOffset (n : HeadNode T γ) : ℕ := pageSize - n.lowerFence.length - n.upperFence.length

/-- A page with its fences; the caller fills in the children. -/
def init (lowerFence upperFence : Bytes) : Except Fault (HeadNode T γ) := do
  ensure (T.paddedHeadSize + pointerSize + lowerFence.length + upperFence.length ≤ pageSize) .undefined
  pure {
    keyCapacity := (pageSize - lowerFence.length - upperFence.length - T.paddedHeadSize - pointerSize) /
      (T.size + pointerSize)
    lowerFence, upperFence
    prefixLength := commonPrefixLength lowerFence upperFence
    hint := List.replicate hintCount 0
    keys := []
    children := [] }

/-- Reads behind the last key yield what an earlier node left there; no result depends on it. -/
def keyAt (n : HeadNode T γ) (i : ℕ) : ℕ := n.keys.getD i 0

def getKeyLength (n : HeadNode T γ) (i : ℕ) : ℕ := n.keyAt i % 256

def makeHint (n : HeadNode T γ) : HeadNode T γ :=
  let dist := n.count / (hintCount + 1)
  { n with hint := (List.range hintCount).map fun i => hintOf T (n.keyAt (dist * (i + 1))) }

def updateHint (n : HeadNode T γ) (slotId : ℕ) : HeadNode T γ :=
  let dist := n.count / (hintCount + 1)
  { n with hint := (List.range hintCount).map fun i =>
      if i < BTreeNode.hintStart n.count slotId then n.hint.getD i 0
      else hintOf T (n.keyAt (dist * (i + 1))) }

/-- The assertion at the start of a search. -/
def validateHint (n : HeadNode T γ) : Except Fault Unit :=
  ensure (0 < n.count → n.hint = n.makeHint.hint) .assertion

def searchHint (n : HeadNode T γ) (fullKeyHead lower upper : ℕ) : ℕ × ℕ :=
  let keyHead := hintOf T fullKeyHead
  if hintCount * 2 < n.count then
    let dist := upper / (hintCount + 1)
    let pos := n.hint.findIdx fun h => keyHead ≤ h
    let pos2 := pos + (n.hint.drop pos).findIdx fun h => h ≠ keyHead
    (pos * dist, if pos2 < hintCount then (pos2 + 1) * dist else upper)
  else (lower, upper)

/-- The bisection. The third branch of the source is never reached. -/
def searchLoop (n : HeadNode T γ) (head : ℕ) : ℕ → ℕ → ℕ → ℕ
  | 0, lower, _ => lower
  | fuel + 1, lower, upper =>
    if lower < upper then
      let mid := (upper - lower) / 2 + lower
      if head ≤ n.keyAt mid then n.searchLoop head fuel lower mid
      else n.searchLoop head fuel (mid + 1) upper
    else lower

/-- The slot and `foundOut`, which stays false. -/
def lowerBound (n : HeadNode T γ) (head : ℕ) : Except Fault (ℕ × Bool) := do
  n.validateHint
  let (lower, upper) := n.searchHint head 0 n.count
  ensure (0 < lower → n.keyAt lower < head) .assertion
  ensure (upper < n.count → head ≤ n.keyAt upper) .assertion
  pure (n.searchLoop head (upper - lower) lower upper, false)

def lookupInnerIndex (n : HeadNode T γ) (key : Bytes) : Except Fault ℕ := do
  ensure (n.prefixLength ≤ key.length) .undefined
  let (slotId, _) ← n.lowerBound (makeNeedleHead T (key.drop n.prefixLength))
  pure slotId

def lookupInner (n : HeadNode T γ) (key : Bytes) : Except Fault γ := do
  let index ← n.lookupInnerIndex key
  match n.children[index]? with
  | some child => pure child
  | none => .error .undefined

/-- The bytes of a head in memory order, cut to the length of the separator. -/
def restoreKey (n : HeadNode T γ) (len index : ℕ) : Bytes :=
  n.getPrefix ++ (digits T.size (n.keyAt index)).take (len - n.prefixLength)

def separators (n : HeadNode T γ) : List Bytes :=
  (List.range n.count).map fun i => n.restoreKey (n.prefixLength + n.getKeyLength i) i

def insertAt (n : HeadNode T γ) (index head : ℕ) (child : γ) : Except Fault (HeadNode T γ) := do
  ensure (n.count < n.keyCapacity) .assertion
  pure { n with keys := n.keys.insertIdx index head, children := n.children.insertIdx index child }

def insertChild (n : HeadNode T γ) (key : Bytes) (child : γ) : Except Fault (HeadNode T γ) := do
  ensure (n.prefixLength ≤ key.length) .undefined
  match makeSepHead T (key.drop n.prefixLength) with
  | some head =>
    let (index, found) ← n.lowerBound head
    ensure (found = false) .assertion
    let n ← n.insertAt index head child
    pure (n.updateHint index)
  | none => .error .assertion

def removeSlot (n : HeadNode T γ) (index : ℕ) : Except Fault (HeadNode T γ) := do
  ensure (0 < n.count) .assertion
  pure { n with keys := n.keys.eraseIdx index, children := n.children.eraseIdx index }.makeHint

end HeadNode

end BtreeRedis
