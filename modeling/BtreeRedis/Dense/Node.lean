import BtreeRedis.Node.Layout
import BtreeRedis.Dense.Numeric

/-!
# Dense leaves

A dense leaf holds keys of one length and payloads of one length in an array that is
indexed by the numeric part of the key, counted from the first number above the lower
fence. A mask of 64-bit words tells which array slots are occupied; the value of a
slot that is not occupied means nothing.
-/

namespace BtreeRedis

open LexOrder SortedAssoc BigEndian

@[simp] def maskBitsPerWord : ℕ := 64
@[simp] def maskBytesPerWord : ℕ := 8
/-- `offsetof(DenseNode, mask)` -/
@[simp] def maskOffset : ℕ := 24

abbrev Mask := BitVec 64

inductive KeyIndex
  | index (i : ℕ)
  | wrongLen
  | notNumericRange
  | slightlyTooLarge
  | farTooLarge
  deriving DecidableEq, Repr

structure DenseNode where
  fullKeyLen : ℕ
  arrayStart : ℕ
  valLen : ℕ
  slotCount : ℕ
  occupiedCount : ℕ
  lowerFence : Bytes
  upperFence : Bytes
  prefixLength : ℕ
  mask : List Mask
  vals : List Bytes

def maskWords (slotCount : ℕ) : ℕ := (slotCount + maskBitsPerWord - 1) / maskBitsPerWord

/-- `fencesOffset` from the three lengths it depends on. -/
def fencesStart (lowerFenceLen upperFenceLen fullKeyLen : ℕ) : ℕ :=
  pageSize - lowerFenceLen - max upperFenceLen fullKeyLen

/-- The decrement loop; the counter would wrap below zero where it ends in `undefined`. -/
def slotCountLoop (valLen fencesStart : ℕ) : ℕ → Except Fault ℕ
  | 0 => if fencesStart < maskOffset then .error .undefined else .ok 0
  | count + 1 =>
    if fencesStart < maskOffset + maskWords (count + 1) * maskBytesPerWord + (count + 1) * valLen
    then slotCountLoop valLen fencesStart count
    else .ok (count + 1)

def computeSlotCount (valLen fencesStart : ℕ) : Except Fault ℕ :=
  slotCountLoop valLen fencesStart (fencesStart * 8 / (valLen * 8 + 1))

theorem slotCountLoop_spec {valLen start count c : ℕ} (h : slotCountLoop valLen start count = .ok c) :
    c ≤ count ∧ maskOffset + maskWords c * maskBytesPerWord + c * valLen ≤ start := by
  induction count with
  | zero =>
    unfold slotCountLoop at h
    split_ifs at h with hs
    obtain rfl : 0 = c := Except.ok.inj h
    exact ⟨le_rfl, by simpa [maskWords] using hs⟩
  | succ count ih =>
    unfold slotCountLoop at h
    split_ifs at h with hs
    · exact ⟨(ih h).1.trans (Nat.le_succ _), (ih h).2⟩
    · obtain rfl : count + 1 = c := Except.ok.inj h
      exact ⟨le_rfl, not_lt.mp hs⟩

theorem slotCountLoop_ok {valLen start : ℕ} (h : maskOffset ≤ start) (count : ℕ) :
    ∃ c, slotCountLoop valLen start count = .ok c := by
  induction count with
  | zero => exact ⟨0, if_neg (not_lt.mpr h)⟩
  | succ count ih =>
    unfold slotCountLoop
    split_ifs
    · exact ih
    · exact ⟨_, rfl⟩

theorem slotCountLoop_max {valLen start count c k : ℕ} (h : slotCountLoop valLen start count = .ok c)
    (hk : k ≤ count) (hfit : maskOffset + maskWords k * maskBytesPerWord + k * valLen ≤ start) :
    k ≤ c := by
  induction count with
  | zero => omega
  | succ count ih =>
    unfold slotCountLoop at h
    split_ifs at h with hs
    · rcases Nat.lt_or_ge count k with hc | hc
      · obtain rfl : k = count + 1 := by omega
        omega
      · exact ih h hc
    · obtain rfl : count + 1 = c := Except.ok.inj h
      exact hk

theorem fencesStart_le (lowerFenceLen upperFenceLen fullKeyLen : ℕ) :
    fencesStart lowerFenceLen upperFenceLen fullKeyLen ≤ pageSize := by
  rw [fencesStart, Nat.sub_sub]
  exact Nat.sub_le _ _

theorem computeSlotCount_lt {valLen start c : ℕ} (hs : start ≤ pageSize)
    (h : computeSlotCount valLen start = .ok c) : c < 2 ^ 16 := by
  have hc := (slotCountLoop_spec h).1
  have hd : start * 8 / (valLen * 8 + 1) ≤ start * 8 := Nat.div_le_self _ _
  simp only [pageSize] at hs
  omega

theorem computeSlotCount_pos {valLen start c : ℕ} (hs : maskOffset + maskBytesPerWord + valLen ≤ start)
    (h : computeSlotCount valLen start = .ok c) : 0 < c := by
  refine slotCountLoop_max h (k := 1) ?_ (by simpa [maskWords] using hs)
  simp only [maskOffset, maskBytesPerWord] at hs
  rw [Nat.le_div_iff_mul_le (by omega)]
  omega

theorem computeSlotCount_ok (valLen : ℕ) {start : ℕ} (h : maskOffset ≤ start) :
    ∃ c, computeSlotCount valLen start = .ok c := slotCountLoop_ok h _

namespace DenseNode

def maskWordCount (d : DenseNode) : ℕ := maskWords d.slotCount

def fencesOffset (d : DenseNode) : ℕ :=
  fencesStart d.lowerFence.length d.upperFence.length d.fullKeyLen

def present (d : DenseNode) (i : ℕ) : Bool :=
  match d.mask[i / maskBitsPerWord]? with
  | some word => word.getLsbD (i % maskBitsPerWord)
  | none => false

def isSlotPresent (d : DenseNode) (i : ℕ) : Except Fault Bool := do
  ensure (i < d.slotCount) .assertion
  pure (d.present i)

def setSlotPresent (d : DenseNode) (i : ℕ) : Except Fault DenseNode := do
  ensure (i < d.slotCount) .assertion
  pure { d with mask := d.mask.modify (i / maskBitsPerWord) (· ||| 1#64 <<< (i % maskBitsPerWord)) }

def unsetSlotPresent (d : DenseNode) (i : ℕ) : Except Fault DenseNode := do
  ensure (i < d.slotCount) .assertion
  pure { d with
    mask := d.mask.modify (i / maskBitsPerWord) (· &&& ~~~(1#64 <<< (i % maskBitsPerWord))) }

def getVal (d : DenseNode) (i : ℕ) : Except Fault Bytes := do
  ensure (i < d.slotCount) .assertion
  pure (d.vals.getD i [])

def slotKey (d : DenseNode) (i : ℕ) : Bytes :=
  BtreeRedis.restoreKey d.arrayStart d.fullKeyLen d.lowerFence i

/-- The bytes of a full key between the common prefix of the fences and the numeric part. -/
def numericRangeOf (d : DenseNode) (key : Bytes) : Bytes :=
  (key.drop d.prefixLength).take (d.fullKeyLen - maxNumericPartLen - d.prefixLength)

def keyToIndex (d : DenseNode) (key : Bytes) : Except Fault KeyIndex :=
  if key.length ≠ d.fullKeyLen then .ok .wrongLen
  else if d.prefixLength + maxNumericPartLen < d.fullKeyLen ∧
      d.numericRangeOf d.lowerFence ≠ d.numericRangeOf key then .ok .notNumericRange
  else do
    let numericPart := getNumericPart key d.fullKeyLen
    ensure (d.arrayStart ≤ numericPart) .assertion
    let index := numericPart - d.arrayStart
    pure (if index < d.slotCount then .index index
      else if index < d.slotCount + d.slotCount / 2 then .slightlyTooLarge
      else .farTooLarge)

def lookup (d : DenseNode) (key : Bytes) : Except Fault (Option Bytes) := do
  match ← d.keyToIndex key with
  | .index i => do
    let found ← d.isSlotPresent i
    let val ← d.getVal i
    pure (if found then some val else none)
  | _ => pure none

/-- `insert` of a key and a payload of the node's own lengths. -/
def insertMatching (d : DenseNode) (key payload : Bytes) : Except Fault (Bool × DenseNode) := do
  match ← d.keyToIndex key with
  | .index i => do
    let found ← d.isSlotPresent i
    let e ← d.setSlotPresent i
    pure (true, { e with
      occupiedCount := d.occupiedCount + if found then 0 else 1
      vals := d.vals.set i payload })
  | .wrongLen => .error .assertion
  | _ => pure (false, d)

def remove (d : DenseNode) (key : Bytes) : Except Fault (Bool × DenseNode) := do
  match ← d.keyToIndex key with
  | .index i => do
    let found ← d.isSlotPresent i
    let e ← d.unsetSlotPresent i
    pure (if found then (true, { e with occupiedCount := d.occupiedCount - 1 }) else (false, d))
  | _ => pure (false, d)

def isUnderfull (d : DenseNode) : Bool :=
  headerSize + (d.fullKeyLen - d.prefixLength + d.valLen + slotSize) * d.occupiedCount +
    d.lowerFence.length + d.upperFence.length < pageSize - underFullSize

def entryAt (d : DenseNode) (i : ℕ) : Option (Bytes × Bytes) :=
  if d.present i then some (d.slotKey i, d.vals.getD i []) else none

def entries (d : DenseNode) : List (Bytes × Bytes) := (List.range d.slotCount).filterMap d.entryAt

def InRange (d : DenseNode) (i : ℕ) : Prop :=
  d.arrayStart + i < 256 ^ computeNumericPartLen d.fullKeyLen

/-- Everything but the count of occupied slots, which `densify1` sets last. -/
structure Filled (d : DenseNode) : Prop where
  full_pos : 0 < d.fullKeyLen
  lower_len : d.fullKeyLen ≤ d.lowerFence.length + maxNumericPartLen
  start : leastGreaterKey d.lowerFence d.fullKeyLen = .ok d.arrayStart
  prefixLen : d.prefixLength = commonPrefixLength d.lowerFence d.upperFence
  prefix_le : d.prefixLength ≤ d.fullKeyLen
  fences : FencesOrdered d.lowerFence d.upperFence
  slots : d.slotCount < 2 ^ 16
  mask_len : d.mask.length = d.maskWordCount
  vals_len : d.vals.length = d.slotCount
  present_lt : ∀ i, d.present i → i < d.slotCount
  inRange : ∀ i, d.present i → d.InRange i
  inFences : ∀ i, d.present i → InFences d.lowerFence d.upperFence (d.slotKey i)
  val_len : ∀ i, d.present i → (d.vals.getD i []).length = d.valLen

structure WF (d : DenseNode) : Prop extends Filled d where
  occupied : d.occupiedCount = d.entries.length

/-- What the methods compute the header from, whatever the fences and the array hold. -/
structure Headed (d : DenseNode) : Prop where
  full_pos : 0 < d.fullKeyLen
  lower_len : d.fullKeyLen ≤ d.lowerFence.length + maxNumericPartLen
  start : leastGreaterKey d.lowerFence d.fullKeyLen = .ok d.arrayStart
  prefixLen : d.prefixLength = commonPrefixLength d.lowerFence d.upperFence
  mask_len : d.mask.length = d.maskWordCount
  vals_len : d.vals.length = d.slotCount

theorem Filled.headed {d : DenseNode} (h : Filled d) : Headed d :=
  ⟨h.full_pos, h.lower_len, h.start, h.prefixLen, h.mask_len, h.vals_len⟩

theorem slotKey_lt (d : DenseNode) {i j : ℕ} (hij : i < j) (hj : d.InRange j) :
    d.slotKey i < d.slotKey j := restoreKey_lt _ hij hj

theorem slotKey_inj (d : DenseNode) {i j : ℕ} (hi : d.InRange i) (hj : d.InRange j)
    (h : d.slotKey i = d.slotKey j) : i = j := by
  rcases Nat.lt_trichotomy i j with hij | hij | hij
  · exact absurd h (d.slotKey_lt hij hj).ne
  · exact hij
  · exact absurd h.symm (d.slotKey_lt hij hi).ne

theorem length_slotKey {d : DenseNode} (h : Filled d) (i : ℕ) : (d.slotKey i).length = d.fullKeyLen :=
  length_restoreKey h.lower_len i

theorem entryAt_eq_some {d : DenseNode} {i : ℕ} {e : Bytes × Bytes} :
    d.entryAt i = some e ↔ d.present i = true ∧ e = (d.slotKey i, d.vals.getD i []) := by
  unfold entryAt
  split_ifs with hp <;> simp [hp, eq_comm]

theorem mem_entries {d : DenseNode} (h : Filled d) {e : Bytes × Bytes} :
    e ∈ d.entries ↔ ∃ i, d.present i = true ∧ e = (d.slotKey i, d.vals.getD i []) := by
  rw [entries, List.mem_filterMap]
  constructor
  · rintro ⟨i, -, he⟩
    exact ⟨i, entryAt_eq_some.mp he⟩
  · rintro ⟨i, hp, he⟩
    exact ⟨i, List.mem_range.mpr (h.present_lt i hp), entryAt_eq_some.mpr ⟨hp, he⟩⟩

theorem mem_keys_entries {d : DenseNode} (h : Filled d) {key : Bytes} :
    key ∈ keys d.entries ↔ ∃ i, d.present i = true ∧ key = d.slotKey i := by
  rw [keys, List.mem_map]
  constructor
  · rintro ⟨e, he, rfl⟩
    obtain ⟨i, hp, rfl⟩ := (mem_entries h).mp he
    exact ⟨i, hp, rfl⟩
  · rintro ⟨i, hp, rfl⟩
    exact ⟨_, (mem_entries h).mpr ⟨i, hp, rfl⟩, rfl⟩

theorem sorted_entries {d : DenseNode} (h : Filled d) : Ascending (keys d.entries) := by
  rw [keys, Ascending, List.pairwise_map, entries, List.pairwise_filterMap]
  refine List.pairwise_lt_range.imp fun hij a ha b hb => ?_
  obtain ⟨-, rfl⟩ := entryAt_eq_some.mp ha
  obtain ⟨hp, rfl⟩ := entryAt_eq_some.mp hb
  exact d.slotKey_lt hij (h.inRange _ hp)

inductive IndexSpec (d : DenseNode) (key : Bytes) : KeyIndex → Prop
  | wrongLen (hl : key.length ≠ d.fullKeyLen) : IndexSpec d key .wrongLen
  | notNumericRange (hl : key.length = d.fullKeyLen)
      (hp : d.lowerFence.take (computeNumericPrefixLength d.fullKeyLen) ≠
        key.take (computeNumericPrefixLength d.fullKeyLen)) : IndexSpec d key .notNumericRange
  | index {i : ℕ} (hl : key.length = d.fullKeyLen) (hi : i < d.slotCount) (hr : d.InRange i)
      (hk : d.slotKey i = key) : IndexSpec d key (.index i)
  | slightlyTooLarge {i : ℕ} (hl : key.length = d.fullKeyLen) (hi : d.slotCount ≤ i)
      (hr : d.InRange i) (hk : d.slotKey i = key) : IndexSpec d key .slightlyTooLarge
  | farTooLarge {i : ℕ} (hl : key.length = d.fullKeyLen) (hi : d.slotCount ≤ i) (hr : d.InRange i)
      (hk : d.slotKey i = key) : IndexSpec d key .farTooLarge

theorem Headed.lower_lt {d : DenseNode} (h : Headed d) {key : Bytes}
    (hk : InFences d.lowerFence d.upperFence key) (hl : key.length = d.fullKeyLen) :
    d.lowerFence < key := by
  refine hk.1.elim (fun he => ?_) id
  rw [he]
  exact pos_of_ne_nil fun hn => by
    have := h.full_pos
    simp [hn] at hl
    omega

theorem Headed.prefixLength_le {d : DenseNode} (h : Headed d) {key : Bytes}
    (hk : InFences d.lowerFence d.upperFence key) : d.prefixLength ≤ key.length := by
  have hl := hk.isPrefix.length_le
  rwa [List.length_take, ← h.prefixLen,
    Nat.min_eq_left (h.prefixLen ▸ commonPrefixLength_le_left _ _)] at hl

theorem Headed.numericRangeOf_eq_iff {d : DenseNode} (h : Headed d) {key : Bytes}
    (hk : InFences d.lowerFence d.upperFence key) :
    d.lowerFence.take (computeNumericPrefixLength d.fullKeyLen) =
        key.take (computeNumericPrefixLength d.fullKeyLen) ↔
      ¬(d.prefixLength + maxNumericPartLen < d.fullKeyLen ∧
        d.numericRangeOf d.lowerFence ≠ d.numericRangeOf key) := by
  have hpre := hk.isPrefix
  rw [← h.prefixLen] at hpre
  have hlen : d.prefixLength ≤ d.lowerFence.length := by
    rw [h.prefixLen]
    exact commonPrefixLength_le_left _ _
  have htake : d.lowerFence.take d.prefixLength = key.take d.prefixLength := by
    have ht := List.prefix_iff_eq_take.mp hpre
    rwa [List.length_take, Nat.min_eq_left hlen] at ht
  rw [numericPrefixLength_eq, numericRangeOf, numericRangeOf]
  rcases Nat.lt_or_ge (d.prefixLength + maxNumericPartLen) d.fullKeyLen with hlt | hge
  · have hsplit : d.fullKeyLen - maxNumericPartLen =
        d.prefixLength + (d.fullKeyLen - maxNumericPartLen - d.prefixLength) := by omega
    rw [not_and_not_right]
    conv_lhs => rw [hsplit, List.take_add, List.take_add, htake, List.append_cancel_left_eq]
    exact ⟨fun he _ => he, fun he => he hlt⟩
  · have hle : d.fullKeyLen - maxNumericPartLen ≤ d.prefixLength := by omega
    have he := congrArg (List.take (d.fullKeyLen - maxNumericPartLen)) htake
    rw [List.take_take, List.take_take, Nat.min_eq_left hle] at he
    exact iff_of_true he fun hn => by omega

theorem Headed.keyToIndex_spec {d : DenseNode} (h : Headed d) {key : Bytes}
    (hk : InFences d.lowerFence d.upperFence key) :
    ∃ r, d.keyToIndex key = .ok r ∧ IndexSpec d key r := by
  have hcheck := h.numericRangeOf_eq_iff hk
  unfold keyToIndex
  split_ifs with hl hr
  · exact ⟨_, rfl, .wrongLen hl⟩
  · exact ⟨_, rfl, .notNumericRange (not_not.mp hl) fun he => hcheck.mp he hr⟩
  · have hl' := not_not.mp hl
    have hp := hcheck.mpr hr
    have hstart := h.start
    simp only [leastGreaterKey, bind_eq_ok, ensure_eq_ok, exists_const, pure_eq_ok] at hstart
    have hge := (lt_iff_leastGreaterKey h.lower_len hl' hp).mp (h.lower_lt hk hl')
    rw [hstart.2] at hge
    have hlt : getNumericPart key d.fullKeyLen < 256 ^ computeNumericPartLen d.fullKeyLen :=
      getNumericPart_lt (by omega)
    obtain ⟨i, hi⟩ := Nat.exists_eq_add_of_le hge
    have hrange : d.InRange i := by rwa [InRange, ← hi]
    have hkey : d.slotKey i = key := restoreKey_getNumericPart hl' hp hi
    dsimp only
    rw [ensure_of hge, ok_bind, hi, Nat.add_sub_cancel_left]
    refine ⟨_, rfl, ?_⟩
    split_ifs with h₁ h₂
    · exact .index hl' h₁ hrange hkey
    · exact .slightlyTooLarge hl' (not_lt.mp h₁) hrange hkey
    · exact .farTooLarge hl' (not_lt.mp h₁) hrange hkey

theorem keyToIndex_spec {d : DenseNode} (h : Filled d) {key : Bytes}
    (hk : InFences d.lowerFence d.upperFence key) :
    ∃ r, d.keyToIndex key = .ok r ∧ IndexSpec d key r := h.headed.keyToIndex_spec hk

theorem mem_keys_iff_present {d : DenseNode} (h : Filled d) {key : Bytes} {i : ℕ} (hr : d.InRange i)
    (hk : d.slotKey i = key) : key ∈ keys d.entries ↔ d.present i = true := by
  rw [mem_keys_entries h]
  constructor
  · rintro ⟨j, hp, hj⟩
    rwa [d.slotKey_inj hr (h.inRange j hp) (hk.trans hj)]
  · exact fun hp => ⟨i, hp, hk.symm⟩

theorem not_mem_of_slotCount_le {d : DenseNode} (h : Filled d) {key : Bytes} {i : ℕ} (hr : d.InRange i)
    (hk : d.slotKey i = key) (hi : d.slotCount ≤ i) : key ∉ keys d.entries := fun hm =>
  absurd (h.present_lt i ((mem_keys_iff_present h hr hk).mp hm)) (by omega)

theorem not_mem_of_notNumericRange {d : DenseNode} (h : Filled d) {key : Bytes}
    (hp : d.lowerFence.take (computeNumericPrefixLength d.fullKeyLen) ≠
      key.take (computeNumericPrefixLength d.fullKeyLen)) : key ∉ keys d.entries := by
  rintro hm
  obtain ⟨i, -, rfl⟩ := (mem_keys_entries h).mp hm
  exact hp (take_restoreKey h.lower_len i).symm

theorem not_mem_of_wrongLen {d : DenseNode} (h : Filled d) {key : Bytes}
    (hl : key.length ≠ d.fullKeyLen) : key ∉ keys d.entries := by
  rintro hm
  obtain ⟨i, -, rfl⟩ := (mem_keys_entries h).mp hm
  exact hl (length_slotKey h i)

theorem lookup_spec {d : DenseNode} (h : Filled d) {key : Bytes}
    (hk : InFences d.lowerFence d.upperFence key) : d.lookup key = .ok (d.entries.lookup key) := by
  obtain ⟨r, he, hs⟩ := keyToIndex_spec h hk
  rw [lookup, he, ok_bind]
  cases hs with
  | wrongLen hl => rw [lookup_eq_none (not_mem_of_wrongLen h hl)]; rfl
  | notNumericRange _ hp => rw [lookup_eq_none (not_mem_of_notNumericRange h hp)]; rfl
  | slightlyTooLarge _ hi hr hk => rw [lookup_eq_none (not_mem_of_slotCount_le h hr hk hi)]; rfl
  | farTooLarge _ hi hr hk => rw [lookup_eq_none (not_mem_of_slotCount_le h hr hk hi)]; rfl
  | @index i hl hi hr hk =>
    simp only [isSlotPresent, getVal, ensure_of hi, ok_bind, pure_bind]
    by_cases hp : d.present i = true
    · rw [hp, if_pos rfl, (lookup_eq_some (sorted_entries h)).mpr
        ((mem_entries h).mpr ⟨i, hp, by rw [← hk]⟩)]
      rfl
    · rw [if_neg hp, lookup_eq_none fun hm => hp ((mem_keys_iff_present h hr hk).mp hm)]
      rfl

end DenseNode

end BtreeRedis
