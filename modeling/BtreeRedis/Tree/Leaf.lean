import BtreeRedis.Node.Merge
import BtreeRedis.Dense.Densify

/-!
# Leaves

A leaf is basic or dense and may change its kind: a full basic leaf that rejects a key
is densified if it can be, a dense leaf that meets another key or payload length goes
back. `LeafNode.Inv` is what every leaf between two fences satisfies.
-/

namespace BtreeRedis

open LexOrder SortedAssoc

inductive LeafNode
  | basic (node : BTreeNode Bytes)
  | dense (node : DenseNode)

namespace BTreeNode

/-- The case of `insert` that has found no space. The lengths that `slot[0]` fixes are those of the
new entry, so that the dense leaf takes it by its array or not at all. -/
def insertDensified (enableDense : Bool) (n : BTreeNode Bytes) (key payload : Bytes) :
    Except Fault (Bool × LeafNode) :=
  match enableDense, n.slots with
  | false, _ => .ok (false, .basic n)
  | true, [] => .error .undefined
  | true, s :: _ =>
    if key.length - n.prefixLength = s.key.length ∧ payload.length = s.payload.length then do
      match ← DenseNode.densify1 n with
      | some d => do
        let (inserted, d) ← d.insertMatching key payload
        pure (inserted, .dense d)
      | none => pure (false, .basic n)
    else .ok (false, .basic n)

def insert (enableDense : Bool) (n : BTreeNode Bytes) (key payload : Bytes) :
    Except Fault (Bool × LeafNode) := do
  let needed ← n.spaceNeeded key.length payload.length
  let (space, n) ← n.requestSpaceFor needed
  if space then do
    let n ← n.insertSlot key payload
    pure (true, .basic n)
  else n.insertDensified enableDense key payload

def lookup (n : BTreeNode Bytes) (key : Bytes) : Except Fault (Option Bytes) := do
  let (pos, found) ← n.lowerBound key
  if found then
    match n.slots[pos]? with
    | some s => pure (some s.payload)
    | none => .error .assertion
  else pure none

end BTreeNode

namespace DenseNode

def insert (enableDense : Bool) (d : DenseNode) (key payload : Bytes) :
    Except Fault (Bool × LeafNode) := do
  ensure (d.prefixLength ≤ key.length) .assertion
  if payload.length ≠ d.valLen ∨ key.length ≠ d.fullKeyLen then
    let entrySize := d.occupiedCount * (d.fullKeyLen - d.prefixLength + payload.length + slotSize)
    if entrySize + d.lowerFence.length + d.upperFence.length + headerSize ≤ pageSize then do
      let n ← d.convertToBasic
      n.insert enableDense key payload
    else pure (false, .dense d)
  else do
    let (inserted, d) ← d.insertMatching key payload
    pure (inserted, .dense d)

/-- The last array index, `slotCount - 1` as an unsigned number. -/
def lastIndex (d : DenseNode) : ℕ := (d.slotCount + numericRange - 1) % numericRange

/-- The separator of `splitNode1`. -/
def fullBoundary (d : DenseNode) : Bytes := d.slotKey d.lastIndex

/-- `split_to_self`; it is read uninitialised where `key` has an array index. -/
def splitToSelf (d : DenseNode) (key : Bytes) : Except Fault Bool := do
  ensure (d.prefixLength ≤ key.length) .assertion
  match ← d.keyToIndex key with
  | .index _ => .error .undefined
  | .slightlyTooLarge => pure true
  | _ => pure false

def changeUpperFence (d : DenseNode) (fence : Bytes) : Except Fault DenseNode := do
  ensure (fence.length ≤ d.fullKeyLen) .assertion
  pure { d with
    upperFence := fence
    prefixLength := commonPrefixLength d.lowerFence fence }

def changeLowerFence (d : DenseNode) (lower upper : Bytes) : Except Fault DenseNode := do
  let slotCount ← computeSlotCount d.valLen (fencesStart lower.length upper.length d.fullKeyLen)
  ensure (computeNumericPrefixLength d.fullKeyLen ≤ lower.length) .assertion
  let arrayStart ← leastGreaterKey lower d.fullKeyLen
  pure (blank d.fullKeyLen arrayStart d.valLen slotCount lower upper (commonPrefixLength lower upper))

/-- The right leaf of `splitNode1`: it starts empty, dense again if the key that is waiting lies just
behind the array. -/
def splitRight (d : DenseNode) : Bool → Except Fault LeafNode
  | true => do
    let right ← d.changeLowerFence d.fullBoundary d.upperFence
    pure (.dense right)
  | false => do
    let right ← (BTreeNode.init true).setFences d.fullBoundary d.upperFence
    pure (.basic right)

/-- `splitNode1`; the caller puts the left leaf into the parent. -/
def splitNode1 (d : DenseNode) (key : Bytes) : Except Fault (DenseNode × LeafNode) := do
  let splitToSelf ← d.splitToSelf key
  let right ← d.splitRight splitToSelf
  let left ← d.changeUpperFence d.fullBoundary
  pure (left, right)

end DenseNode

namespace LeafNode

def lowerFence : LeafNode → Bytes
  | .basic n => n.getLowerFence
  | .dense d => d.lowerFence

def upperFence : LeafNode → Bytes
  | .basic n => n.getUpperFence
  | .dense d => d.upperFence

def entries : LeafNode → List (Bytes × Bytes)
  | .basic n => n.entries
  | .dense d => d.entries

def lookup : LeafNode → Bytes → Except Fault (Option Bytes)
  | .basic n => n.lookup
  | .dense d => d.lookup

def insert (enableDense : Bool) : LeafNode → Bytes → Bytes → Except Fault (Bool × LeafNode)
  | .basic n => n.insert enableDense
  | .dense d => d.insert enableDense

/-- The length of the separator, which the parent must have room for before the leaf is split. -/
def separatorLength : LeafNode → Except Fault ℕ
  | .basic n => do
    let info ← n.findSeparator
    pure info.length
  | .dense d => .ok d.fullKeyLen

/-- `splitNode` or `splitNode1`: the separator and the two leaves. -/
def split (key : Bytes) : LeafNode → Except Fault (Bytes × LeafNode × LeafNode)
  | .basic n => do
    let info ← n.findSeparator
    let sepKey ← n.getSep info
    let (left, right) ← n.splitLeaf info.slot sepKey
    pure (sepKey, .basic left, .basic right)
  | .dense d => do
    let (left, right) ← d.splitNode1 key
    pure (d.fullBoundary, .dense left, right)

def remove : LeafNode → Bytes → Except Fault (Bool × LeafNode)
  | .basic n, key => do
    let (found, n) ← n.remove key
    pure (found, .basic n)
  | .dense d, key => do
    let (found, d) ← d.remove key
    pure (found, .dense d)

/-- What a leaf between `lower` and `upper` satisfies. Without `enableDense` it is basic. -/
structure Inv (enableDense : Bool) (l : LeafNode) (lower upper : Bytes) : Prop where
  kind : match l with
    | .basic n => n.WF ∧ n.isLeaf = true
    | .dense d => d.WF ∧ 0 < d.slotCount ∧ d.fullKeyLen + d.valLen ≤ maxKVSize ∧ enableDense = true
  lowerFence : l.lowerFence = lower
  upperFence : l.upperFence = upper
  lower_len : lower.length ≤ maxKVSize
  upper_len : upper.length ≤ maxKVSize
  entry_len : ∀ e ∈ l.entries, e.1.length + e.2.length ≤ maxKVSize

variable {enableDense : Bool}

namespace Inv
variable {l : LeafNode} {lower upper : Bytes}

theorem sorted_entries (h : Inv enableDense l lower upper) : Ascending (keys l.entries) := by
  cases l with
  | basic n => exact h.kind.1.sorted_entries
  | dense d => exact DenseNode.sorted_entries h.kind.1.toFilled

theorem inFences (h : Inv enableDense l lower upper) {e : Bytes × Bytes} (he : e ∈ l.entries) :
    InFences lower upper e.1 := by
  rw [← h.lowerFence, ← h.upperFence]
  cases l with
  | basic n => exact h.kind.1.entries_inFences he
  | dense d =>
    obtain ⟨i, hp, rfl⟩ := (DenseNode.mem_entries h.kind.1.toFilled).mp he
    exact h.kind.1.inFences i hp

theorem fences (h : Inv enableDense l lower upper) : FencesOrdered lower upper := by
  rw [← h.lowerFence, ← h.upperFence]
  cases l with
  | basic n => exact h.kind.1.fences
  | dense d => exact h.kind.1.fences

theorem of_holds {n : BTreeNode Bytes} {es : List (Bytes × Bytes)}
    (h : BTreeNode.Holds n true lower upper es) (hl : lower.length ≤ maxKVSize)
    (hu : upper.length ≤ maxKVSize) (he : ∀ e ∈ es, e.1.length + e.2.length ≤ maxKVSize) :
    Inv enableDense (.basic n) lower upper :=
  ⟨⟨h.wf, h.isLeaf⟩, h.lower, h.upper, hl, hu, fun e hm => he e (h.entries ▸ hm)⟩

theorem pages_fit (h : Inv enableDense l lower upper) :
    slotsOffset + lower.length + upper.length + slotSize + maxKVSize ≤ pageSize := by
  have hl := h.lower_len
  have hu := h.upper_len
  simp only [maxKVSize, slotsOffset, slotSize, pageSize, headerSize] at hl hu ⊢
  omega

end Inv

end LeafNode

theorem BTreeNode.lookup_spec {n : BTreeNode Bytes} (h : n.WF) {key : Bytes}
    (hk : InFences n.getLowerFence n.getUpperFence key) : n.lookup key = .ok (n.entries.lookup key) := by
  rw [BTreeNode.lookup, BTreeNode.lowerBound_spec h hk, ok_bind]
  by_cases hm : key ∈ keys n.entries
  · obtain ⟨i, hi, hik⟩ := List.mem_iff_getElem.mp hm
    have hidx := (BTreeNode.lowerIndex_of_getElem_eq h.sorted_entries hi hik).1
    have hin : i < n.slots.length := by simpa [keys] using hi
    have hent : n.entries[i]? = some (key, n.slots[i].payload) := by
      have hg : getElem n.entries i (by simpa using hin) = (key, n.slots[i].payload) := by
        refine Prod.ext ?_ (by simp [BTreeNode.entries, BTreeNode.content, Slot.entry])
        rw [← hik]
        simp [keys]
      rw [List.getElem?_eq_getElem (by simpa using hin), hg]
    rw [(lookup_eq_some h.sorted_entries).mpr (List.mem_of_getElem? hent), ← hidx]
    simp only [decide_eq_true hm, if_true, List.getElem?_eq_getElem hin]
    rfl
  · rw [lookup_eq_none hm]
    simp only [decide_eq_false hm]
    rfl

theorem LeafNode.lookup_spec {enableDense : Bool} {l : LeafNode} {lower upper key : Bytes}
    (h : l.Inv enableDense lower upper) (hk : InFences lower upper key) :
    l.lookup key = .ok (l.entries.lookup key) := by
  rw [← h.lowerFence, ← h.upperFence] at hk
  cases l with
  | basic n => exact BTreeNode.lookup_spec h.kind.1 hk
  | dense d => exact DenseNode.lookup_spec h.kind.1.toFilled hk

theorem BTreeNode.requestSpaceFor_full {n : BTreeNode Bytes} (h : n.WF) {k : ℕ}
    (hk : n.freeSpaceAfterCompaction < k) : n.requestSpaceFor k = .ok (false, n) := by
  have hfits := h.fits
  have hle : n.freeSpace ≤ n.freeSpaceAfterCompaction := by
    simp only [BTreeNode.freeSpace, BTreeNode.freeSpaceAfterCompaction]
    omega
  rw [BTreeNode.requestSpaceFor, if_neg (by omega), if_neg (by omega)]

namespace LeafNode
variable {enableDense : Bool}

structure Inserting (enableDense : Bool) (l l' : LeafNode) (lower upper key payload : Bytes)
    (inserted : Bool) : Prop where
  inv : Inv enableDense l' lower upper
  done : inserted = true → Inserted key payload l.entries l'.entries
  refused : inserted = false → l'.entries = l.entries

theorem Inserting.of_entries {l m l' : LeafNode} {lower upper key payload : Bytes} {r : Bool}
    (h : Inserting enableDense m l' lower upper key payload r) (he : m.entries = l.entries) :
    Inserting enableDense l l' lower upper key payload r :=
  ⟨h.inv, fun hc => he ▸ h.done hc, fun hc => (h.refused hc).trans he⟩

theorem densified_inv {n : BTreeNode Bytes} {lower upper : Bytes} (h : Inv true (.basic n) lower upper)
    {s : Slot Bytes} {ss : List (Slot Bytes)} (hs : n.slots = s :: ss) {d : DenseNode}
    (hd : DenseNode.Densified n d) : Inv true (.dense d) lower upper := by
  have hmem : (n.getPrefix ++ s.key, s.payload) ∈ n.entries := by
    rw [BTreeNode.entries, BTreeNode.content, hs]
    simp [Slot.entry]
  have hlen := h.entry_len _ hmem
  rw [List.length_append, h.kind.1.length_getPrefix] at hlen
  obtain ⟨i, hp, -⟩ := (DenseNode.mem_entries hd.wf.toFilled).mp (hd.entries ▸ hmem)
  obtain ⟨hf, hv⟩ := hd.lengths s (hs ▸ List.mem_cons_self)
  refine ⟨⟨hd.wf, ?_, ?_⟩, ?_, ?_, h.lower_len, h.upper_len, fun e he => h.entry_len e ?_⟩
  · exact (Nat.zero_le i).trans_lt (hd.wf.present_lt i hp)
  · rw [hf, hv, Nat.add_comm s.key.length]
    exact ⟨hlen, rfl⟩
  · exact hd.lower.trans h.lowerFence
  · exact hd.upper.trans h.upperFence
  · change e ∈ d.entries at he
    rwa [hd.entries] at he

theorem first_key_pos {n : BTreeNode Bytes} {s : Slot Bytes} {ss : List (Slot Bytes)}
    (hs : n.slots = s :: ss) {key : Bytes} (hl : key.length - n.prefixLength = s.key.length)
    (hnew : key ∉ keys n.entries) : 0 < s.key.length + n.prefixLength := by
  by_contra hz
  have hp : n.prefixLength = 0 := by omega
  have hsk : s.key = [] := List.length_eq_zero_iff.mp (by omega)
  have hk : key = [] := List.length_eq_zero_iff.mp (by omega)
  refine hnew ?_
  rw [hk, keys, BTreeNode.entries, BTreeNode.content, hs]
  simp [Slot.entry, BTreeNode.getPrefix, hp, hsk]

theorem insertMatching_inserting {d : DenseNode} {lower upper : Bytes} (h : Inv enableDense (.dense d) lower upper)
    {key payload : Bytes} (hk : InFences lower upper key) (hkl : key.length = d.fullKeyLen)
    (hpl : payload.length = d.valLen) (hnew : key ∉ keys d.entries)
    (hlen : key.length + payload.length ≤ maxKVSize) :
    ∃ r d', d.insertMatching key payload = .ok (r, d') ∧
      Inserting enableDense (.dense d) (.dense d') lower upper key payload r := by
  have hk' : InFences d.lowerFence d.upperFence key := by
    rw [← h.lowerFence, ← h.upperFence] at hk
    exact hk
  rcases DenseNode.insertMatching_spec h.kind.1 hk' hkl hpl hnew with ⟨he, -⟩ | ⟨e, he, hw, hf, hins⟩
  · exact ⟨false, d, he, h, fun hc => absurd hc Bool.false_ne_true, fun _ => rfl⟩
  · refine ⟨true, e, he, ⟨⟨hw, ?_, ?_⟩, ?_, ?_, h.lower_len, h.upper_len, fun x hx => ?_⟩,
      fun _ => hins, fun hc => absurd hc.symm Bool.false_ne_true⟩
    · rw [hf.slotCount]
      exact h.kind.2.1
    · rw [hf.fullKeyLen, hf.valLen]
      exact h.kind.2.2
    · exact hf.lower.trans h.lowerFence
    · exact hf.upper.trans h.upperFence
    · rcases hins.mem_iff.mp hx with rfl | hx
      · exact hlen
      · exact h.entry_len x hx

theorem insertDensified_inserting {n : BTreeNode Bytes} {lower upper : Bytes}
    (h : Inv enableDense (.basic n) lower upper) {key payload : Bytes}
    (hk : InFences lower upper key) (hnew : key ∉ keys n.entries)
    (hlen : key.length + payload.length ≤ maxKVSize) {r : Bool} {l' : LeafNode}
    (hr : n.insertDensified enableDense key payload = .ok (r, l')) :
    Inserting enableDense (.basic n) l' lower upper key payload r := by
  have hrefused : Inserting enableDense (.basic n) (.basic n) lower upper key payload false :=
    ⟨h, fun hc => absurd hc Bool.false_ne_true, fun _ => rfl⟩
  unfold BTreeNode.insertDensified at hr
  split at hr
  · cases hr
    exact hrefused
  · cases hr
  · rename_i s ss hs
    split_ifs at hr with hl
    · simp only [bind_eq_ok] at hr
      obtain ⟨o, ho, hr⟩ := hr
      cases o with
      | none =>
        cases hr
        exact hrefused
      | some d =>
        have hpos := first_key_pos hs hl.1 hnew
        have hd := (DenseNode.densify1_spec h.kind.1 hs hpos).1 d ho
        have hinv := densified_inv h hs hd
        obtain ⟨hfl, hvl⟩ := hd.lengths s (hs ▸ List.mem_cons_self)
        have hpk : n.prefixLength ≤ key.length := h.kind.1.prefixLength_le_key (by
          have h₁ := h.lowerFence
          have h₂ := h.upperFence
          change n.getLowerFence = lower at h₁
          change n.getUpperFence = upper at h₂
          rwa [h₁, h₂])
        obtain ⟨r', d', hd', hins⟩ := insertMatching_inserting hinv hk (by omega) (by omega)
          (hd.entries.symm ▸ hnew) hlen
        simp only [hd', ok_bind, pure_eq_ok, Prod.mk.injEq] at hr
        obtain ⟨rfl, rfl⟩ := hr
        exact hins.of_entries hd.entries
    · cases hr
      exact hrefused

theorem basic_insert_room {n : BTreeNode Bytes} {lower upper : Bytes} (h : Inv enableDense (.basic n) lower upper)
    {key payload : Bytes} (hk : InFences lower upper key)
    (hnew : key ∉ keys n.entries) (hlen : key.length + payload.length ≤ maxKVSize)
    (hroom : slotSize + (key.length - n.prefixLength) + payload.length ≤ n.freeSpaceAfterCompaction) :
    ∃ m, n.insert enableDense key payload = .ok (true, .basic m) ∧
      Inserting enableDense (.basic n) (.basic m) lower upper key payload true := by
  have h₁ : n.getLowerFence = lower := h.lowerFence
  have h₂ : n.getUpperFence = upper := h.upperFence
  obtain ⟨m, hm, hw, hsame, hfree⟩ := BTreeNode.requestSpaceFor_spec h.kind.1
    (slotSize + (key.length - n.prefixLength) + payload.length)
  rw [decide_eq_true hroom] at hm
  have hkm : InFences m.getLowerFence m.getUpperFence key := by rwa [hsame.lower, hsame.upper, h₁, h₂]
  have hpk : n.prefixLength ≤ key.length := h.kind.1.prefixLength_le_key (by rwa [h₁, h₂])
  have hneed : slotSize + (key.length - m.prefixLength) + Payload.len payload ≤ m.freeSpace := by
    rw [hsame.prefixLength]
    exact hfree hroom
  obtain ⟨m', hm', hw', hl', hlow, hupp, -, hent⟩ :=
    BTreeNode.insertSlot_spec hw hkm (hsame.entries ▸ hnew) hneed
  have hins : Inserted key payload n.entries m'.entries := by
    rw [hent, hsame.entries]
    refine inserted_insertIdx ?_ _ _
    simpa [keys] using lowerIndex_le_length (keys n.entries) key
  refine ⟨m', ?_, ⟨⟨hw', ?_⟩, ?_, ?_, h.lower_len, h.upper_len, fun x hx => ?_⟩, fun _ => hins,
    fun hc => absurd hc.symm Bool.false_ne_true⟩
  · rw [BTreeNode.insert, BTreeNode.spaceNeeded, ensure_of hpk]
    simp only [ok_bind, pure_bind, hm, if_true, hm']
    rfl
  · rw [hl', hsame.isLeaf]
    exact h.kind.2
  · exact (hlow.trans hsame.lower).trans h₁
  · exact (hupp.trans hsame.upper).trans h₂
  · rcases hins.mem_iff.mp hx with rfl | hx
    · exact hlen
    · exact h.entry_len x hx

theorem basic_insert_full {n : BTreeNode Bytes} {lower upper : Bytes} (h : Inv enableDense (.basic n) lower upper)
    {key payload : Bytes} (hk : InFences lower upper key)
    (hroom : n.freeSpaceAfterCompaction < slotSize + (key.length - n.prefixLength) + payload.length) :
    n.insert enableDense key payload = n.insertDensified enableDense key payload := by
  have h₁ : n.getLowerFence = lower := h.lowerFence
  have h₂ : n.getUpperFence = upper := h.upperFence
  have hpk : n.prefixLength ≤ key.length := h.kind.1.prefixLength_le_key (by rwa [h₁, h₂])
  rw [BTreeNode.insert, BTreeNode.spaceNeeded, ensure_of hpk]
  simp only [ok_bind, pure_bind, BTreeNode.requestSpaceFor_full h.kind.1 hroom]
  rfl

theorem insert_inserting {l : LeafNode} {lower upper : Bytes} (h : Inv enableDense l lower upper)
    {key payload : Bytes} (hk : InFences lower upper key)
    (hnew : key ∉ keys l.entries) (hlen : key.length + payload.length ≤ maxKVSize) {r : Bool}
    {l' : LeafNode} (hr : l.insert enableDense key payload = .ok (r, l')) :
    Inserting enableDense l l' lower upper key payload r := by
  have hbasic : ∀ {n : BTreeNode Bytes}, Inv enableDense (.basic n) lower upper → key ∉ keys n.entries →
      n.insert enableDense key payload = .ok (r, l') →
      Inserting enableDense (.basic n) l' lower upper key payload r := by
    intro n h hnew hr
    rcases Nat.lt_or_ge n.freeSpaceAfterCompaction
      (slotSize + (key.length - n.prefixLength) + payload.length) with hroom | hroom
    · rw [basic_insert_full h hk hroom] at hr
      exact insertDensified_inserting h hk hnew hlen hr
    · obtain ⟨m, hm, hins⟩ := basic_insert_room h hk hnew hlen hroom
      rw [hm] at hr
      cases hr
      exact hins
  cases l with
  | basic n => exact hbasic h hnew hr
  | dense d =>
    simp only [insert, DenseNode.insert, bind_eq_ok, ensure_eq_ok, exists_const] at hr
    obtain ⟨-, hr⟩ := hr
    split_ifs at hr with hlens hsize
    · simp only [bind_eq_ok] at hr
      obtain ⟨n, hn, hr⟩ := hr
      have hh := DenseNode.convertToBasic_spec h.kind.1 hn
      have hinv : Inv enableDense (.basic n) lower upper := by
        refine Inv.of_holds ?_ h.lower_len h.upper_len h.entry_len
        have h₁ : d.lowerFence = lower := h.lowerFence
        have h₂ : d.upperFence = upper := h.upperFence
        exact h₁ ▸ h₂ ▸ hh
      have hins := hbasic hinv (hh.entries.symm ▸ hnew) hr
      exact hins.of_entries hh.entries
    · cases hr
      exact ⟨h, fun hc => absurd hc Bool.false_ne_true, fun _ => rfl⟩
    · simp only [not_or, not_not] at hlens
      obtain ⟨r', d', hd', hins⟩ := insertMatching_inserting h hk hlens.2 hlens.1 hnew hlen
      simp only [hd', ok_bind, pure_eq_ok, Prod.mk.injEq] at hr
      obtain ⟨rfl, rfl⟩ := hr
      exact hins

end LeafNode

end BtreeRedis
