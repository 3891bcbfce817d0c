import BtreeRedis.Dense.Densify
import BtreeRedis.Lib.Memory
import BtreeRedis.Lib.Region

/-!
# Dense leaves with records

The second kind of dense leaf has a slot for every key of one length between its fences. A slot
is empty or holds the offset of a record, that is of a payload behind its length. Records are
written from the fences downwards, and an overwritten one leaves a hole.
-/

namespace BtreeRedis

open LexOrder SortedAssoc BigEndian Memory

/-- `offsetof(DenseNode, slots)` -/
@[simp] def recordSlotsOffset : ℕ := 22

/-- The subtraction of 16-bit fields. -/
def sub16 (a b : ℕ) : ℕ := (a + 2 ^ 16 - b % 2 ^ 16) % 2 ^ 16

/-- A dense leaf with the tag `Dense2`. The header, the slots and the fences have fields of their own; of `page`
the bytes between the slots and the fences count. -/
structure Dense2Node where
  fullKeyLen : ℕ
  arrayStart : ℕ
  spaceUsed : ℕ
  slotCount : ℕ
  occupiedCount : ℕ
  lowerFence : Bytes
  upperFence : Bytes
  prefixLength : ℕ
  dataOffset : ℕ
  slots : List ℕ
  page : ℕ → Byte

namespace Dense2Node

/-- The same header read as that of the other kind, where `valLen` shares its place with `spaceUsed`. -/
def array (d : Dense2Node) : DenseNode :=
  DenseNode.blank d.fullKeyLen d.arrayStart d.spaceUsed d.slotCount d.lowerFence d.upperFence d.prefixLength

def fencesOffset (d : Dense2Node) : ℕ := d.array.fencesOffset

def slotEndOffset (d : Dense2Node) : ℕ := recordSlotsOffset + 2 * d.slotCount

def slotKey (d : Dense2Node) (i : ℕ) : Bytes := d.array.slotKey i

def keyToIndex (d : Dense2Node) (key : Bytes) : Except Fault KeyIndex := d.array.keyToIndex key

def slotAt (d : Dense2Node) (i : ℕ) : ℕ := d.slots.getD i 0

def slotValLen (d : Dense2Node) (i : ℕ) : ℕ := load16 d.page (d.slotAt i)

def payloadAt (d : Dense2Node) (i : ℕ) : Option Bytes :=
  if d.slotAt i = 0 then none else some (record d.page (d.slotAt i))

def lookup (d : Dense2Node) (key : Bytes) : Except Fault (Option Bytes) := do
  match ← d.keyToIndex key with
  | .index i => pure (d.payloadAt i)
  | _ => pure none

def insertSlotWithSpace (d : Dense2Node) (i : ℕ) (payload : Bytes) : Except Fault Dense2Node := do
  -- below its start the page would be left
  ensure (payload.length + 2 ≤ d.dataOffset) .undefined
  let dataOffset := d.dataOffset - (payload.length + 2)
  ensure (d.slotEndOffset ≤ dataOffset) .assertion
  ensure (i < d.slotCount) .assertion
  pure { d with
    spaceUsed := d.spaceUsed + (payload.length + 2)
    dataOffset
    slots := d.slots.set i dataOffset
    page := putRecord d.page dataOffset payload }

/-- The compaction loop: the records of the slots are put one below the other into a buffer. -/
def compactSlots (d : Dense2Node) (buffer : ℕ → Byte) (bufferOffset : ℕ) :
    List ℕ → List ℕ × (ℕ → Byte) × ℕ
  | [] => ([], buffer, bufferOffset)
  | offset :: slots =>
    if offset = 0 then
      let (slots, rest) := compactSlots d buffer bufferOffset slots
      (0 :: slots, rest)
    else
      let len := 2 + load16 d.page offset
      let moved := bufferOffset - len
      let (slots, rest) := compactSlots d (store buffer moved (load d.page offset len)) moved slots
      (moved :: slots, rest)

/-- After a compaction `dataOffset` is what it was. -/
def requestSpaceFor (d : Dense2Node) (payloadLen : ℕ) : Bool × Dense2Node :=
  if payloadLen + 2 ≤ d.dataOffset - d.slotEndOffset then (true, d)
  else if d.slotEndOffset + d.spaceUsed + payloadLen + 2 ≤ d.fencesOffset then
    let (slots, buffer, bufferOffset) := d.compactSlots (fun _ => 0) d.fencesOffset d.slots
    (true, { d with
      slots
      page := store d.page bufferOffset (load buffer bufferOffset (d.fencesOffset - bufferOffset)) })
  else (false, d)

def blank (lower upper : Bytes) (prefixLength fullKeyLen arrayStart slotCount : ℕ) (page : ℕ → Byte) :
    Dense2Node where
  fullKeyLen := fullKeyLen
  arrayStart := arrayStart
  spaceUsed := 0
  slotCount := slotCount
  occupiedCount := 0
  lowerFence := lower
  upperFence := upper
  prefixLength := prefixLength
  dataOffset := fencesStart lower.length upper.length fullKeyLen
  slots := List.replicate slotCount 0
  page := page

def init2b (lower upper : Bytes) (fullKeyLen slotCount : ℕ) (page : ℕ → Byte) : Except Fault Dense2Node := do
  let arrayStart ← leastGreaterKey lower fullKeyLen
  ensure (computeNumericPrefixLength fullKeyLen ≤ lower.length) .assertion
  pure (blank lower upper (commonPrefixLength lower upper) fullKeyLen arrayStart slotCount page)

def entryAt (d : Dense2Node) (i : ℕ) : Option (Bytes × Bytes) := (d.payloadAt i).map fun val => (d.slotKey i, val)

def entries (d : Dense2Node) : List (Bytes × Bytes) := (List.range d.slotCount).filterMap d.entryAt

def live (d : Dense2Node) : List ℕ := d.slots.filter (· ≠ 0)

def regions (d : Dense2Node) : List Region := d.live.map fun o => ⟨o, load16 d.page o + 2⟩

/-- The slots are exactly the keys of full length between the fences. -/
structure Windowed (d : Dense2Node) : Prop where
  full_pos : 0 < d.fullKeyLen
  lower_len : d.fullKeyLen ≤ d.lowerFence.length + maxNumericPartLen
  upper_len : d.fullKeyLen ≤ d.upperFence.length + maxNumericPartLen
  start : leastGreaterKey d.lowerFence d.fullKeyLen = .ok d.arrayStart
  stop : leastGreaterKey d.upperFence d.fullKeyLen = .ok (d.arrayStart + d.slotCount)
  agree : d.lowerFence.take (computeNumericPrefixLength d.fullKeyLen) =
    d.upperFence.take (computeNumericPrefixLength d.fullKeyLen)
  prefixLen : d.prefixLength = commonPrefixLength d.lowerFence d.upperFence
  fences : d.lowerFence < d.upperFence

/-- The records lie apart from each other between the slots and the fences. -/
structure Recorded (d : Dense2Node) : Prop where
  slots_len : d.slots.length = d.slotCount
  slots_end : d.slotEndOffset ≤ d.dataOffset
  carved : Region.Carved d.regions d.dataOffset d.fencesOffset
  used : d.spaceUsed = (d.regions.map Region.length).sum
  room : d.dataOffset + d.spaceUsed ≤ d.fencesOffset

structure WF (d : Dense2Node) : Prop extends Windowed d, Recorded d where
  /-- With one slot less, the slots leave room for a lower fence of full length. -/
  slack : d.slotEndOffset + (d.fullKeyLen - d.lowerFence.length) ≤ d.fencesOffset + 2

variable {d : Dense2Node} {key : Bytes} {i j : ℕ}

theorem Windowed.headed (h : Windowed d) : d.array.Headed where
  full_pos := h.full_pos
  lower_len := h.lower_len
  start := h.start
  prefixLen := h.prefixLen
  mask_len := List.length_replicate
  vals_len := List.length_replicate

theorem Windowed.stop_le (h : Windowed d) :
    d.arrayStart + d.slotCount ≤ 256 ^ computeNumericPartLen d.fullKeyLen := by
  have hstop := h.stop
  simp only [leastGreaterKey, bind_eq_ok, ensure_eq_ok, exists_const, pure_eq_ok] at hstop
  have hlt := getNumericPart_lt h.upper_len
  rw [← hstop.2]
  split_ifs <;> omega

theorem Windowed.inRange (h : Windowed d) (hi : i < d.slotCount) : d.array.InRange i := by
  have hstop := h.stop_le
  exact Nat.lt_of_lt_of_le (Nat.add_lt_add_left hi d.arrayStart) hstop

theorem Windowed.length_slotKey (h : Windowed d) (i : ℕ) : (d.slotKey i).length = d.fullKeyLen :=
  length_restoreKey h.lower_len i

theorem Windowed.take_slotKey (h : Windowed d) (i : ℕ) :
    (d.slotKey i).take (computeNumericPrefixLength d.fullKeyLen) =
      d.lowerFence.take (computeNumericPrefixLength d.fullKeyLen) := take_restoreKey h.lower_len i

theorem Windowed.number_slotKey (h : Windowed d) (hi : i < d.slotCount) :
    getNumericPart (d.slotKey i) d.fullKeyLen = d.arrayStart + i :=
  getNumericPart_restoreKey h.lower_len (h.inRange hi)

theorem Windowed.slotKey_lt (h : Windowed d) (hij : i < j) (hj : j < d.slotCount) : d.slotKey i < d.slotKey j :=
  d.array.slotKey_lt hij (h.inRange hj)

theorem Windowed.slotKey_inj (h : Windowed d) (hi : i < d.slotCount) (hj : j < d.slotCount)
    (he : d.slotKey i = d.slotKey j) : i = j := d.array.slotKey_inj (h.inRange hi) (h.inRange hj) he

theorem Windowed.lower_lt (h : Windowed d) (hi : i < d.slotCount) : d.lowerFence < d.slotKey i := by
  have hstart := h.start
  simp only [leastGreaterKey, bind_eq_ok, ensure_eq_ok, exists_const, pure_eq_ok] at hstart
  rw [lt_iff_leastGreaterKey h.lower_len (h.length_slotKey i) (h.take_slotKey i).symm, hstart.2,
    h.number_slotKey hi]
  exact Nat.le_add_right _ _

theorem Windowed.le_upper_iff (h : Windowed d) (hl : key.length = d.fullKeyLen)
    (hp : key.take (computeNumericPrefixLength d.fullKeyLen) =
      d.lowerFence.take (computeNumericPrefixLength d.fullKeyLen)) :
    key ≤ d.upperFence ↔ getNumericPart key d.fullKeyLen < d.arrayStart + d.slotCount := by
  have hstop := h.stop
  simp only [leastGreaterKey, bind_eq_ok, ensure_eq_ok, exists_const, pure_eq_ok] at hstop
  rw [← not_lt, lt_iff_leastGreaterKey h.upper_len hl (h.agree.symm.trans hp.symm), hstop.2, not_le]

theorem Windowed.le_upper (h : Windowed d) (hi : i < d.slotCount) : d.slotKey i ≤ d.upperFence := by
  rw [h.le_upper_iff (h.length_slotKey i) (h.take_slotKey i), h.number_slotKey hi]
  exact Nat.add_lt_add_left hi _

theorem Windowed.inFences (h : Windowed d) (hi : i < d.slotCount) :
    InFences d.lowerFence d.upperFence (d.slotKey i) := ⟨Or.inr (h.lower_lt hi), Or.inr (h.le_upper hi)⟩

theorem Windowed.keyToIndex_of_inFences (h : Windowed d) (hk : InFences d.lowerFence d.upperFence key)
    (hl : key.length = d.fullKeyLen) :
    ∃ i, i < d.slotCount ∧ d.keyToIndex key = .ok (.index i) ∧ d.slotKey i = key := by
  have hne : d.upperFence ≠ [] := ne_nil_of_lt h.fences
  have hle : key ≤ d.upperFence := hk.2.resolve_left hne
  have hpre : d.lowerFence.take (computeNumericPrefixLength d.fullKeyLen) <+: key :=
    prefix_of_between (List.take_prefix _ _) (h.agree ▸ List.take_prefix _ _) hk.lower_le hle
  have hP := numericPrefixLength_eq d.fullKeyLen
  have hlow := h.lower_len
  have htake : d.lowerFence.take (computeNumericPrefixLength d.fullKeyLen) =
      key.take (computeNumericPrefixLength d.fullKeyLen) := by
    have ht := List.prefix_iff_eq_take.mp hpre
    rwa [List.length_take, Nat.min_eq_left (by omega)] at ht
  have hin : ∀ {i}, d.array.InRange i → d.array.slotKey i = key → i < d.slotCount := by
    intro i hr hkey
    have hnum := (h.le_upper_iff hl htake.symm).mp hle
    have hrestored : getNumericPart (d.array.slotKey i) d.fullKeyLen = d.arrayStart + i :=
      getNumericPart_restoreKey h.lower_len hr
    rw [← hkey, hrestored] at hnum
    omega
  obtain ⟨r, hr, hspec⟩ := h.headed.keyToIndex_spec hk
  cases hspec with
  | wrongLen hn => exact absurd hl hn
  | notNumericRange _ hn => exact absurd htake hn
  | index _ hi _ hkey => exact ⟨_, hi, hr, hkey⟩
  | slightlyTooLarge _ hi hrange hkey => exact absurd (hin hrange hkey) (Nat.not_lt.mpr hi)
  | farTooLarge _ hi hrange hkey => exact absurd (hin hrange hkey) (Nat.not_lt.mpr hi)

theorem Windowed.keyToIndex_slotKey (h : Windowed d) (hi : i < d.slotCount) :
    d.keyToIndex (d.slotKey i) = .ok (.index i) := by
  obtain ⟨j, hj, hindex, hkey⟩ := h.keyToIndex_of_inFences (h.inFences hi) (h.length_slotKey i)
  rw [hindex, h.slotKey_inj hj hi hkey]

theorem entryAt_eq_some {e : Bytes × Bytes} :
    d.entryAt i = some e ↔ d.payloadAt i = some e.2 ∧ d.slotKey i = e.1 := by
  rw [entryAt, Option.map_eq_some_iff]
  constructor
  · rintro ⟨val, hval, rfl⟩
    exact ⟨hval, rfl⟩
  · rintro ⟨hval, hkey⟩
    exact ⟨e.2, hval, by rw [hkey]⟩

theorem mem_entries {e : Bytes × Bytes} :
    e ∈ d.entries ↔ ∃ i, i < d.slotCount ∧ d.payloadAt i = some e.2 ∧ d.slotKey i = e.1 := by
  simp only [entries, List.mem_filterMap, List.mem_range, entryAt_eq_some]

theorem Windowed.sorted_entries (h : Windowed d) : Ascending (keys d.entries) := by
  rw [keys, Ascending, List.pairwise_map, entries, List.pairwise_filterMap, List.pairwise_iff_forall_sublist]
  intro i j hij a ha b hb
  have hlt : i < j := (List.pairwise_iff_forall_sublist.mp List.pairwise_lt_range) hij
  have hj : j < d.slotCount := List.mem_range.mp (hij.subset (by simp))
  rw [← (entryAt_eq_some.mp ha).2, ← (entryAt_eq_some.mp hb).2]
  exact h.slotKey_lt hlt hj

theorem Windowed.lookup_slotKey (h : Windowed d) (hi : i < d.slotCount) :
    d.entries.lookup (d.slotKey i) = d.payloadAt i := by
  cases hval : d.payloadAt i with
  | some val => exact (lookup_eq_some h.sorted_entries).mpr (mem_entries.mpr ⟨i, hi, hval, rfl⟩)
  | none =>
    apply lookup_eq_none
    intro hmem
    obtain ⟨e, he, hkey⟩ := List.mem_map.mp hmem
    obtain ⟨j, hj, hval', hkey'⟩ := mem_entries.mp he
    rw [h.slotKey_inj hi hj (hkey'.trans hkey).symm, hval'] at hval
    cases hval

theorem Windowed.lookup_spec (h : Windowed d) (hk : InFences d.lowerFence d.upperFence key)
    (hl : key.length = d.fullKeyLen) : d.lookup key = .ok (d.entries.lookup key) := by
  obtain ⟨i, hi, hindex, rfl⟩ := h.keyToIndex_of_inFences hk hl
  rw [lookup, hindex, h.lookup_slotKey hi]
  rfl

structure Framed (d e : Dense2Node) : Prop where
  fullKeyLen : e.fullKeyLen = d.fullKeyLen
  arrayStart : e.arrayStart = d.arrayStart
  slotCount : e.slotCount = d.slotCount
  lowerFence : e.lowerFence = d.lowerFence
  upperFence : e.upperFence = d.upperFence
  prefixLength : e.prefixLength = d.prefixLength

theorem Framed.refl (d : Dense2Node) : Framed d d := ⟨rfl, rfl, rfl, rfl, rfl, rfl⟩

section
variable {e f : Dense2Node} {payload : Bytes} {o : ℕ}

theorem Framed.trans (h : Framed d e) (h' : Framed e f) : Framed d f :=
  ⟨h'.fullKeyLen.trans h.fullKeyLen, h'.arrayStart.trans h.arrayStart, h'.slotCount.trans h.slotCount,
    h'.lowerFence.trans h.lowerFence, h'.upperFence.trans h.upperFence, h'.prefixLength.trans h.prefixLength⟩

theorem Framed.slotKey (h : Framed d e) (i : ℕ) : e.slotKey i = d.slotKey i := by
  change restoreKey e.arrayStart e.fullKeyLen e.lowerFence i = restoreKey d.arrayStart d.fullKeyLen d.lowerFence i
  rw [h.arrayStart, h.fullKeyLen, h.lowerFence]

theorem Framed.fencesOffset (h : Framed d e) : e.fencesOffset = d.fencesOffset := by
  change fencesStart e.lowerFence.length e.upperFence.length e.fullKeyLen =
    fencesStart d.lowerFence.length d.upperFence.length d.fullKeyLen
  rw [h.fullKeyLen, h.lowerFence, h.upperFence]

theorem Framed.slotEndOffset (h : Framed d e) : e.slotEndOffset = d.slotEndOffset := by
  rw [Dense2Node.slotEndOffset, h.slotCount, Dense2Node.slotEndOffset]

theorem Framed.windowed (h : Framed d e) (hd : Windowed d) : Windowed e := by
  obtain ⟨full, start, space, count, occupied, lower, upper, pre, offset, slots, page⟩ := e
  obtain ⟨rfl, rfl, rfl, rfl, rfl, rfl⟩ := h
  exact ⟨hd.full_pos, hd.lower_len, hd.upper_len, hd.start, hd.stop, hd.agree, hd.prefixLen, hd.fences⟩

theorem payloadAt_eq_none : d.payloadAt i = none ↔ d.slotAt i = 0 := by
  rw [payloadAt]
  split_ifs with h <;> simp [h]

theorem mem_live : o ∈ d.live ↔ o ∈ d.slots ∧ o ≠ 0 := by
  rw [live, List.mem_filter, decide_eq_true_iff]

theorem slotAt_mem_live (hi : d.slotAt i ≠ 0) : d.slotAt i ∈ d.live := by
  refine mem_live.mpr ⟨?_, hi⟩
  rw [slotAt, List.getD_eq_getElem?_getD] at hi ⊢
  cases hget : d.slots[i]? with
  | none =>
    rw [hget] at hi
    exact absurd rfl hi
  | some o => exact List.mem_of_getElem? hget

theorem fencesOffset_le (d : Dense2Node) : d.fencesOffset ≤ pageSize := by
  change fencesStart _ _ _ ≤ _
  rw [fencesStart]
  omega

theorem Recorded.inside (h : Recorded d) (ho : o ∈ d.live) :
    d.dataOffset ≤ o ∧ o + (load16 d.page o + 2) ≤ d.fencesOffset := by
  have hsub := h.carved.inside _ (List.mem_map_of_mem ho)
  rw [Region.bytes, Set.Ico_subset_Ico_iff (by simp)] at hsub
  exact hsub

theorem slotAt_blank {lower upper : Bytes} {pre full start count : ℕ} {page : ℕ → Byte} (i : ℕ) :
    (blank lower upper pre full start count page).slotAt i = 0 := by
  rw [slotAt, blank, List.getD_eq_getElem?_getD, List.getElem?_replicate]
  split_ifs <;> rfl

theorem blank_recorded {lower upper : Bytes} (pre : ℕ) {full : ℕ} (start : ℕ) {count : ℕ} (page : ℕ → Byte)
    (h : recordSlotsOffset + 2 * count ≤ fencesStart lower.length upper.length full) :
    Recorded (blank lower upper pre full start count page) := by
  have hlive : (blank lower upper pre full start count page).live = [] := by
    rw [live, List.filter_eq_nil_iff]
    intro o ho
    rw [List.eq_of_mem_replicate ho]
    simp
  have hregions : (blank lower upper pre full start count page).regions = [] := by rw [regions, hlive, List.map_nil]
  refine ⟨List.length_replicate, h, ?_, ?_, le_rfl⟩
  · rw [hregions]
    exact Region.Carved.nil _ _
  · rw [hregions]
    rfl

theorem filter_set {slots : List ℕ} (hi : i < slots.length) (hfree : slots.getD i 0 = 0) (ho : o ≠ 0) :
    ((slots.set i o).filter (· ≠ 0)).Perm (o :: slots.filter (· ≠ 0)) := by
  have hget : slots.getD i 0 = slots[i] := List.getD_eq_getElem _ _ hi
  have hslots : slots = slots.take i ++ 0 :: slots.drop (i + 1) := by
    rw [← hfree, hget, List.cons_getElem_drop_succ, List.take_append_drop]
  have hset : slots.set i o = slots.take i ++ o :: slots.drop (i + 1) := List.set_eq_take_cons_drop _ hi
  rw [hset]
  conv_rhs => rw [hslots]
  rw [List.filter_append, List.filter_append, List.filter_cons_of_pos (by simpa using ho),
    List.filter_cons_of_neg (by simp)]
  exact List.perm_middle

theorem slotAt_set {slots : List ℕ} (hi : i < slots.length) (j o : ℕ) :
    (slots.set i o).getD j 0 = if j = i then o else slots.getD j 0 := by
  rw [List.getD_eq_getElem?_getD, List.getD_eq_getElem?_getD, List.getElem?_set]
  by_cases hij : i = j
  · rw [if_pos hij, if_pos (hij ▸ hi), if_pos hij.symm, Option.getD_some]
  · rw [if_neg hij, if_neg fun h => hij h.symm]

structure Placed (d : Dense2Node) (i : ℕ) (payload : Bytes) (e : Dense2Node) : Prop where
  recorded : Recorded e
  framed : Framed d e
  payloadAt : ∀ j, e.payloadAt j = if j = i then some payload else d.payloadAt j
  spaceUsed : e.spaceUsed = d.spaceUsed + (payload.length + 2)
  dataOffset : e.dataOffset + (payload.length + 2) = d.dataOffset
  slotAt : e.slotAt i = e.dataOffset
  occupiedCount : e.occupiedCount = d.occupiedCount

theorem WF.placed (h : WF d) (hp : Placed d i payload e) : WF e := by
  refine ⟨hp.framed.windowed h.toWindowed, hp.recorded, ?_⟩
  rw [hp.framed.slotEndOffset, hp.framed.fullKeyLen, hp.framed.lowerFence, hp.framed.fencesOffset]
  exact h.slack

theorem insertSlotWithSpace_spec (h : Recorded d) (payload : Bytes) (hi : i < d.slotCount) (hfree : d.slotAt i = 0)
    (hroom : d.slotEndOffset + (payload.length + 2) ≤ d.dataOffset) :
    ∃ e, d.insertSlotWithSpace i payload = .ok e ∧ Placed d i payload e := by
  have hfences := fencesOffset_le d
  have hdata := h.room
  have hpage : pageSize = 4096 := rfl
  have hend : 22 ≤ d.slotEndOffset := Nat.le_add_right _ _
  set o := d.dataOffset - (payload.length + 2) with hoff
  have ho : o ≠ 0 := by omega
  have hlen : i < d.slots.length := by rw [h.slots_len]; exact hi
  have hsmall : payload.length < 2 ^ 16 := by omega
  set e : Dense2Node := { d with
    spaceUsed := d.spaceUsed + (payload.length + 2)
    dataOffset := o
    slots := d.slots.set i o
    page := putRecord d.page o payload } with he
  have hrun : d.insertSlotWithSpace i payload = .ok e := by
    rw [insertSlotWithSpace, ensure_of (by omega), ok_bind]
    dsimp only
    rw [ensure_of (by omega), ok_bind, ensure_of hi, ok_bind]
    rfl
  have hsame : ∀ low high, d.dataOffset ≤ low → SameOn d.page e.page low high := fun low high hlow =>
    putRecord_sameOn (Or.inr (by omega))
  have hlive : e.live.Perm (o :: d.live) := filter_set hlen hfree ho
  have hregions : e.regions.Perm (⟨o, payload.length + 2⟩ :: d.regions) := by
    have hnew : load16 e.page o = payload.length := load16_putRecord hsmall
    have hold : ∀ p ∈ d.live, load16 e.page p = load16 d.page p := fun p hp =>
      (hsame p (p + 2) (h.inside hp).1).load16
    refine (hlive.map _).trans ?_
    rw [List.map_cons, hnew]
    apply List.Perm.of_eq
    congr 1
    exact List.map_congr_left fun p hp => by rw [hold p hp]
  refine ⟨e, hrun, ?_, ⟨rfl, rfl, rfl, rfl, rfl, rfl⟩, ?_, rfl, ?_, ?_, rfl⟩
  · constructor
    · rw [he]
      exact (List.length_set ..).trans h.slots_len
    · change d.slotEndOffset ≤ o
      omega
    · refine Region.Carved.perm ?_ hregions.symm
      exact h.carved.push (by omega) (by omega)
    · rw [(hregions.map Region.length).sum_eq, List.map_cons, List.sum_cons, ← h.used]
      exact Nat.add_comm _ _
    · change o + (d.spaceUsed + (payload.length + 2)) ≤ d.fencesOffset
      omega
  · intro j
    have hat : e.slotAt j = if j = i then o else d.slotAt j := slotAt_set hlen j o
    rw [Dense2Node.payloadAt, hat]
    by_cases hj : j = i
    · rw [if_pos hj, if_neg ho, if_pos hj]
      exact congrArg some (record_putRecord hsmall)
    · rw [if_neg hj, if_neg hj, Dense2Node.payloadAt]
      by_cases hz : d.slotAt j = 0
      · rw [if_pos hz, if_pos hz]
      · rw [if_neg hz, if_neg hz]
        exact congrArg some (hsame _ _ (h.inside (slotAt_mem_live hz)).1).record
  · change o + (payload.length + 2) = d.dataOffset
    omega
  · exact (slotAt_set hlen i o).trans (if_pos rfl)

end

end Dense2Node

end BtreeRedis
