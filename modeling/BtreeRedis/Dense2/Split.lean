import BtreeRedis.Dense2.Node
import BtreeRedis.Tree.InnerSplit
import BtreeRedis.Lib.Outcome

/-!
# Splitting a dense leaf with records

`splitNode2` adds up the records slot by slot until half of the space is reached, and takes the
key of the slot behind as the separator. The slot that it counted last is thus not the last one
of the left half, and the right half is left without slots, or worse, if the last two slots hold
more than half of the space.
-/

namespace BtreeRedis

open LexOrder SortedAssoc BigEndian Memory

namespace Dense2Node

/-- What a slot with this offset counts for in the search. -/
def slotSpace (d : Dense2Node) (offset : ℕ) : ℕ := if offset = 0 then 0 else 2 + 2 + load16 d.page offset

def totalSpace (d : Dense2Node) : ℕ := d.occupiedCount * 2 + d.spaceUsed

def searchLoop (d : Dense2Node) (leftSpace splitSlot : ℕ) : List ℕ → Except Fault ℕ
  | [] => if leftSpace < d.totalSpace / 2 then .error .assertion else .ok splitSlot
  | offset :: slots =>
    if leftSpace < d.totalSpace / 2 then searchLoop d (leftSpace + d.slotSpace offset) (splitSlot + 1) slots
    else .ok splitSlot

def findSplitSlot (d : Dense2Node) : Except Fault ℕ := d.searchLoop 0 0 d.slots

def copySlots (d : Dense2Node) (first count : ℕ) (dst : Dense2Node) : Except Fault Dense2Node :=
  (List.range count).foldlM (fun dst i =>
    match d.payloadAt (first + i) with
    | none => pure dst
    | some payload => dst.insertSlotWithSpace i payload) dst

/-- The halves and the separator between them; the caller puts the left one into the parent. The halves are made in
pages with any contents. -/
def splitNode2 (d : Dense2Node) (key : Bytes) (leftPage rightPage : ℕ → Byte) :
    Except Fault (Bytes × Dense2Node × Dense2Node) := do
  ensure (d.prefixLength ≤ key.length) .assertion
  let splitSlot ← d.findSplitSlot
  let splitKey := d.slotKey splitSlot
  let left ← init2b d.lowerFence splitKey d.fullKeyLen (splitSlot + 1) leftPage
  let left ← d.copySlots 0 (splitSlot + 1) left
  -- otherwise the slot count of the right half wraps
  ensure (splitSlot < d.slotCount) .undefined
  let right ← init2b splitKey d.upperFence d.fullKeyLen (d.slotCount - splitSlot - 1) rightPage
  let right ← d.copySlots (splitSlot + 1) (d.slotCount - splitSlot - 1) right
  pure (splitKey, left, right)

variable {d : Dense2Node}

def spaceBefore (d : Dense2Node) (k : ℕ) : ℕ :=
  ((List.range k).map fun i => ((d.payloadAt i).map fun payload => 2 + 2 + payload.length).getD 0).sum

theorem spaceBefore_eq {k : ℕ} (hk : k ≤ d.slots.length) :
    d.spaceBefore k = ((d.slots.take k).map d.slotSpace).sum := by
  have hslots : (List.range k).map d.slotAt = d.slots.take k := by
    apply List.ext_getElem
    · rw [List.length_map, List.length_range, List.length_take, min_eq_left hk]
    · intro i hi hi'
      rw [List.length_map, List.length_range] at hi
      rw [List.getElem_map, List.getElem_range, List.getElem_take, slotAt, List.getD_eq_getElem _ _ (hi.trans_le hk)]
  rw [spaceBefore, ← hslots, List.map_map]
  congr 1
  refine List.map_congr_left fun i _ => ?_
  rw [Function.comp_apply, slotSpace, payloadAt]
  split_ifs
  · rfl
  · rw [Option.map_some, Option.getD_some, length_record]

theorem searchLoop_spec {slots : List ℕ} {leftSpace k r : ℕ} (h : d.searchLoop leftSpace k slots = .ok r) :
    ∃ j, j ≤ slots.length ∧ r = k + j ∧
      d.totalSpace / 2 ≤ leftSpace + ((slots.take j).map d.slotSpace).sum ∧
      ∀ i, i < j → leftSpace + ((slots.take i).map d.slotSpace).sum < d.totalSpace / 2 := by
  induction slots generalizing leftSpace k with
  | nil =>
    rw [searchLoop] at h
    split_ifs at h with hlt
    obtain rfl := Except.ok.inj h
    exact ⟨0, le_rfl, rfl, not_lt.mp hlt, fun i hi => absurd hi (Nat.not_lt_zero i)⟩
  | cons offset slots ih =>
    rw [searchLoop] at h
    split_ifs at h with hlt
    · obtain ⟨j, hj, rfl, hreach, hbefore⟩ := ih h
      refine ⟨j + 1, Nat.succ_le_succ hj, by omega, ?_, ?_⟩
      · rw [List.take_succ_cons, List.map_cons, List.sum_cons, ← Nat.add_assoc]
        exact hreach
      · intro i hi
        cases i with
        | zero => exact hlt
        | succ i =>
          rw [List.take_succ_cons, List.map_cons, List.sum_cons, ← Nat.add_assoc]
          exact hbefore i (Nat.lt_of_succ_lt_succ hi)
    · obtain rfl := Except.ok.inj h
      exact ⟨0, Nat.zero_le _, rfl, not_lt.mp hlt, fun i hi => absurd hi (Nat.not_lt_zero i)⟩

theorem searchLoop_ok {slots : List ℕ} {leftSpace : ℕ} (k : ℕ)
    (h : d.totalSpace / 2 ≤ leftSpace + (slots.map d.slotSpace).sum) :
    ∃ r, d.searchLoop leftSpace k slots = .ok r := by
  induction slots generalizing leftSpace k with
  | nil => exact ⟨k, if_neg (not_lt.mpr h)⟩
  | cons offset slots ih =>
    rw [searchLoop]
    split_ifs
    · apply ih
      rw [Nat.add_assoc, ← List.sum_cons, ← List.map_cons]
      exact h
    · exact ⟨k, rfl⟩

theorem spaceBefore_mono {j k : ℕ} (h : j ≤ k) : d.spaceBefore j ≤ d.spaceBefore k := by
  have hsub : (List.range j).Sublist (List.range k) := List.range_sublist.mpr h
  exact (hsub.map _).sum_le_sum fun _ _ => Nat.zero_le _

theorem findSplitSlot_le_iff {k : ℕ} (hk : k ≤ d.slots.length) :
    (∃ r, d.findSplitSlot = .ok r ∧ r ≤ k) ↔ d.totalSpace / 2 ≤ d.spaceBefore k := by
  constructor
  · rintro ⟨r, hr, hle⟩
    obtain ⟨j, hj, hrj, hreach, -⟩ := searchLoop_spec hr
    rw [Nat.zero_add] at hrj hreach
    rw [← spaceBefore_eq hj] at hreach
    rw [hrj] at hle
    exact hreach.trans (spaceBefore_mono hle)
  · intro h
    have hall : d.totalSpace / 2 ≤ 0 + (d.slots.map d.slotSpace).sum := by
      have hmono := h.trans (spaceBefore_mono hk)
      rw [spaceBefore_eq le_rfl, List.take_length] at hmono
      rwa [Nat.zero_add]
    obtain ⟨r, hr⟩ := searchLoop_ok 0 hall
    obtain ⟨j, hj, hrj, -, hbefore⟩ := searchLoop_spec hr
    refine ⟨r, hr, ?_⟩
    by_contra hlt
    have hless := hbefore k (by omega)
    rw [Nat.zero_add, ← spaceBefore_eq hk] at hless
    exact absurd h (not_le.mpr hless)

def recordSpace (d : Dense2Node) (i : ℕ) : ℕ := ((d.payloadAt i).map fun payload => payload.length + 2).getD 0

def rangeSpace (d : Dense2Node) (first count : ℕ) : ℕ :=
  ((List.range count).map fun i => d.recordSpace (first + i)).sum

theorem rangeSpace_succ (first count : ℕ) :
    d.rangeSpace first (count + 1) = d.rangeSpace first count + d.recordSpace (first + count) := by
  rw [rangeSpace, List.range_succ, List.map_append, List.sum_append, rangeSpace, List.map_singleton, List.sum_singleton]

theorem rangeSpace_add (first a b : ℕ) :
    d.rangeSpace first (a + b) = d.rangeSpace first a + d.rangeSpace (first + a) b := by
  induction b with
  | zero => rfl
  | succ b ih => rw [← Nat.add_assoc, rangeSpace_succ, ih, rangeSpace_succ, Nat.add_assoc, Nat.add_assoc]

theorem recordSpace_eq (i : ℕ) : d.recordSpace i = if d.slotAt i = 0 then 0 else load16 d.page (d.slotAt i) + 2 := by
  rw [recordSpace, payloadAt]
  split_ifs
  · rfl
  · rw [Option.map_some, Option.getD_some, length_record]

theorem Recorded.spaceUsed_eq (h : Recorded d) : d.spaceUsed = d.rangeSpace 0 d.slotCount := by
  have hfilter : ∀ slots : List ℕ, (((slots.filter (· ≠ 0)).map fun o => load16 d.page o + 2)).sum =
      (slots.map fun o => if o = 0 then 0 else load16 d.page o + 2).sum := by
    intro slots
    induction slots with
    | nil => rfl
    | cons o slots ih =>
      by_cases ho : o = 0
      · rw [List.filter_cons_of_neg (by simpa using ho), ih, List.map_cons, List.sum_cons, if_pos ho, Nat.zero_add]
      · rw [List.filter_cons_of_pos (by simpa using ho), List.map_cons, List.sum_cons, ih, List.map_cons,
          List.sum_cons, if_neg ho]
  have hslots : (List.range d.slotCount).map d.slotAt = d.slots := by
    apply List.ext_getElem
    · rw [List.length_map, List.length_range, h.slots_len]
    · intro i hi hi'
      rw [List.getElem_map, List.getElem_range, slotAt, List.getD_eq_getElem]
  have hregions : d.regions.map Region.length = (d.slots.filter (· ≠ 0)).map fun o => load16 d.page o + 2 := by
    rw [regions, List.map_map, live]
    rfl
  rw [h.used, hregions, hfilter]
  conv_lhs => rw [← hslots, List.map_map]
  rw [rangeSpace]
  congr 1
  exact List.map_congr_left fun i _ => by rw [Nat.zero_add, recordSpace_eq, Function.comp_apply]

structure Filled (d : Dense2Node) (first count : ℕ) (dst e : Dense2Node) : Prop where
  recorded : Recorded e
  framed : Framed dst e
  payloadAt : ∀ j, e.payloadAt j = if j < count then d.payloadAt (first + j) else none
  spaceUsed : e.spaceUsed = dst.spaceUsed + d.rangeSpace first count
  dataOffset : e.dataOffset + d.rangeSpace first count = dst.dataOffset

theorem copySlots_spec {dst : Dense2Node} (hdst : Recorded dst) (hempty : ∀ i, dst.slotAt i = 0) (first : ℕ)
    {count : ℕ} (hcount : count ≤ dst.slotCount)
    (hroom : dst.slotEndOffset + d.rangeSpace first count ≤ dst.dataOffset) :
    ∃ e, d.copySlots first count dst = .ok e ∧ Filled d first count dst e := by
  induction count with
  | zero =>
    refine ⟨dst, rfl, hdst, .refl dst, fun j => ?_, rfl, rfl⟩
    rw [if_neg (Nat.not_lt_zero j), payloadAt_eq_none]
    exact hempty j
  | succ count ih =>
    rw [rangeSpace_succ] at hroom
    obtain ⟨e, he, hfilled⟩ := ih (by omega) (by omega)
    have hrun : d.copySlots first (count + 1) dst =
        (match d.payloadAt (first + count) with
          | none => pure e
          | some payload => e.insertSlotWithSpace count payload) := by
      rw [copySlots] at he ⊢
      rw [List.range_succ, List.foldlM_append, he, ok_bind, List.foldlM_cons]
      cases d.payloadAt (first + count) with
      | none => rfl
      | some payload => exact bind_pure _
    have hend : e.slotEndOffset = dst.slotEndOffset := hfilled.framed.slotEndOffset
    have hoffset := hfilled.dataOffset
    have hspace := hfilled.spaceUsed
    cases hval : d.payloadAt (first + count) with
    | none =>
      have hzero : d.recordSpace (first + count) = 0 := by rw [recordSpace, hval, Option.map_none, Option.getD_none]
      rw [hval] at hrun
      refine ⟨e, hrun, hfilled.recorded, hfilled.framed, fun j => ?_, ?_, ?_⟩
      · rw [hfilled.payloadAt]
        rcases Nat.lt_trichotomy j count with hj | rfl | hj
        · rw [if_pos hj, if_pos (by omega)]
        · rw [if_neg (lt_irrefl j), if_pos (Nat.lt_succ_self j), hval]
        · rw [if_neg (by omega), if_neg (by omega)]
      · rw [rangeSpace_succ, hzero]
        exact hspace
      · rw [rangeSpace_succ, hzero]
        exact hoffset
    | some payload =>
      have hlen : d.recordSpace (first + count) = payload.length + 2 := by
        rw [recordSpace, hval, Option.map_some, Option.getD_some]
      have hfree : e.slotAt count = 0 := by
        rw [← payloadAt_eq_none, hfilled.payloadAt, if_neg (lt_irrefl count)]
      have hslot : count < e.slotCount := by rw [hfilled.framed.slotCount]; omega
      obtain ⟨f, hf, hplaced⟩ := insertSlotWithSpace_spec hfilled.recorded payload hslot hfree
        (show e.slotEndOffset + (payload.length + 2) ≤ e.dataOffset by omega)
      rw [hval] at hrun
      have hf' := hplaced.dataOffset
      have hs' := hplaced.spaceUsed
      refine ⟨f, hrun.trans hf, hplaced.recorded, hfilled.framed.trans hplaced.framed, fun j => ?_, ?_, ?_⟩
      · rw [hplaced.payloadAt, hfilled.payloadAt]
        rcases Nat.lt_trichotomy j count with hj | rfl | hj
        · rw [if_neg (by omega), if_pos hj, if_pos (by omega)]
        · rw [if_pos rfl, if_pos (Nat.lt_succ_self j), hval]
        · rw [if_neg (by omega), if_neg (by omega), if_neg (by omega)]
      · rw [rangeSpace_succ, hlen]
        omega
      · rw [rangeSpace_succ, hlen]
        omega

theorem init2b_eq {lower upper : Bytes} {full start : ℕ} (hstart : leastGreaterKey lower full = .ok start)
    (hlow : full ≤ lower.length + maxNumericPartLen) (count : ℕ) (page : ℕ → Byte) :
    init2b lower upper full count page =
      .ok (blank lower upper (commonPrefixLength lower upper) full start count page) := by
  have hP := numericPrefixLength_eq full
  rw [init2b, hstart, ok_bind, ensure_of (by omega)]
  rfl

section
variable {k : ℕ}

theorem Windowed.start_right (h : Windowed d) (hk : k + 1 < d.slotCount) :
    leastGreaterKey (d.slotKey k) d.fullKeyLen = .ok (d.arrayStart + k + 1) := by
  have hnum := h.number_slotKey (show k < d.slotCount by omega)
  have hstop := h.stop_le.trans (pow_numericPartLen_le _)
  simp only [numericRange] at hstop
  have hlt : getNumericPart (d.slotKey k) d.fullKeyLen < numericRange - 1 := by
    rw [hnum]
    simp only [numericRange]
    omega
  rw [leastGreaterKey, ensure_of hlt, ok_bind, hnum, if_pos (h.length_slotKey k).ge]
  rfl

theorem Windowed.left (h : Windowed d) (hk : k + 1 < d.slotCount) (page : ℕ → Byte) :
    Windowed (blank d.lowerFence (d.slotKey k) (commonPrefixLength d.lowerFence (d.slotKey k)) d.fullKeyLen d.arrayStart
      (k + 1) page) where
  full_pos := h.full_pos
  lower_len := h.lower_len
  upper_len := (h.length_slotKey k).ge.trans (Nat.le_add_right _ _)
  start := h.start
  stop := h.start_right hk
  agree := (h.take_slotKey k).symm
  prefixLen := rfl
  fences := h.lower_lt (by omega)

theorem Windowed.right (h : Windowed d) (hk : k + 1 < d.slotCount) (page : ℕ → Byte) :
    Windowed (blank (d.slotKey k) d.upperFence (commonPrefixLength (d.slotKey k) d.upperFence) d.fullKeyLen
      (d.arrayStart + k + 1) (d.slotCount - k - 1) page) where
  full_pos := h.full_pos
  lower_len := (h.length_slotKey k).ge.trans (Nat.le_add_right _ _)
  upper_len := h.upper_len
  start := h.start_right hk
  stop := by
    have hend : d.arrayStart + k + 1 + (d.slotCount - k - 1) = d.arrayStart + d.slotCount := by omega
    exact hend ▸ h.stop
  agree := (h.take_slotKey k).trans h.agree
  prefixLen := rfl
  fences := (h.slotKey_lt (Nat.lt_succ_self k) hk).trans_le (h.le_upper hk)

theorem slotKey_right (h : Windowed d) (pre : ℕ) (count i : ℕ) (page : ℕ → Byte) :
    (blank (d.slotKey k) d.upperFence pre d.fullKeyLen (d.arrayStart + k + 1) count page).slotKey i =
      d.slotKey (k + 1 + i) := by
  change restoreKey (d.arrayStart + k + 1) d.fullKeyLen (d.slotKey k) i =
    restoreKey d.arrayStart d.fullKeyLen d.lowerFence (k + 1 + i)
  rw [restoreKey_eq, restoreKey_eq, h.take_slotKey]
  congr 2
  omega

theorem WF.fences_halves (h : WF d) :
    d.fencesOffset ≤ fencesStart d.lowerFence.length (d.slotKey k).length d.fullKeyLen ∧
      d.fencesOffset ≤ fencesStart (d.slotKey k).length d.upperFence.length d.fullKeyLen +
        (d.fullKeyLen - d.lowerFence.length) := by
  have hoff : d.fencesOffset = pageSize - d.lowerFence.length - max d.upperFence.length d.fullKeyLen := rfl
  rw [h.length_slotKey, hoff, fencesStart, fencesStart]
  omega

theorem WF.space_right (h : WF d) (hfind : d.findSplitSlot = .ok k) (hk : k + 1 < d.slotCount) :
    recordSlotsOffset + 2 * (d.slotCount - k - 1) + d.rangeSpace (k + 1) (d.slotCount - k - 1) ≤
      fencesStart (d.slotKey k).length d.upperFence.length d.fullKeyLen := by
  have hfences := (h.fences_halves (k := k)).2
  have hsum := h.spaceUsed_eq
  have hcount : d.slotCount = k + 1 + (d.slotCount - k - 1) := by omega
  rw [hcount, rangeSpace_add, Nat.zero_add] at hsum
  have hroom := h.room
  have hend := h.slots_end
  have hslack := h.slack
  have hlow := h.lower_len
  have hfour : maxNumericPartLen = 4 := rfl
  have hslots : d.slotEndOffset = recordSlotsOffset + 2 * d.slotCount := rfl
  rcases Nat.eq_zero_or_pos k with rfl | hpos
  · -- Nothing was counted, and a record would have been more than nothing.
    obtain ⟨j, -, hj, hreach, -⟩ := searchLoop_spec hfind
    obtain rfl : j = 0 := by omega
    rw [List.take_zero, List.map_nil, List.sum_nil, totalSpace] at hreach
    have hsmall : d.rangeSpace (0 + 1) (d.slotCount - 0 - 1) < 2 := by omega
    have hzero : d.rangeSpace (0 + 1) (d.slotCount - 0 - 1) = 0 := by
      apply List.sum_eq_zero
      intro x hx
      have hle := List.single_le_sum (fun _ _ => Nat.zero_le _) x hx
      obtain ⟨i, -, rfl⟩ := List.mem_map.mp hx
      rw [recordSpace_eq] at hle ⊢
      split_ifs at hle ⊢
      · rfl
      · rw [rangeSpace] at hsmall
        omega
    omega
  · omega

end

structure HalfOf (lower upper : Bytes) (l : Dense2Node) : Prop where
  wf : WF l
  lowerFence : l.lowerFence = lower
  upperFence : l.upperFence = upper
  found : ∀ e ∈ l.entries, ∃ i, i < l.slotCount ∧ l.keyToIndex e.1 = .ok (.index i) ∧ l.payloadAt i = some e.2

def ParentGains (d : Dense2Node) (sep : Bytes) (left right : Dense2Node) : Prop :=
  ∀ (γ : Type) [ChildPointer γ] (child : Dense2Node → γ) (p : InnerNode γ) (lower upper : Bytes) (i : ℕ),
    p.Inv (fun _ _ _ => True) lower upper → i ≤ p.node.count → (lower :: p.separators)[i]? = some d.lowerFence →
    (p.separators ++ [upper])[i]? = some d.upperFence → d.fullKeyLen ≤ maxKVSize → p.Room d.fullKeyLen →
    ∃ q, p.splitChild i (.ok d.fullKeyLen) (.ok (sep, child left, child right)) = .ok (some q) ∧
      InnerNode.SplitBelow (fun _ _ _ => True) p q lower upper i sep (child left) (child right)

/-- The search stops before the last slot, and the two leaves on the sides of a separator between the fences
hold the entries. -/
def SplitsInTwo (d : Dense2Node) (key : Bytes) (leftPage rightPage : ℕ → Byte) : Prop :=
  ∃ splitSlot sep left right, d.findSplitSlot = .ok splitSlot ∧ splitSlot < d.slotCount - 1 ∧
    d.splitNode2 key leftPage rightPage = .ok (sep, left, right) ∧ d.lowerFence < sep ∧ sep < d.upperFence ∧
    HalfOf d.lowerFence sep left ∧ HalfOf sep d.upperFence right ∧
    left.entries ++ right.entries = d.entries ∧ d.ParentGains sep left right

/-- All but the last two slots hold half of the space. -/
def LightEnd (d : Dense2Node) : Prop := 2 ≤ d.slotCount ∧ d.totalSpace / 2 ≤ d.spaceBefore (d.slotCount - 2)

instance (d : Dense2Node) : Decidable d.LightEnd := inferInstanceAs (Decidable (_ ∧ _))

theorem WF.halfOf {l : Dense2Node} (h : WF l) : HalfOf l.lowerFence l.upperFence l := by
  refine ⟨h, rfl, rfl, fun e he => ?_⟩
  obtain ⟨i, hi, hval, hkey⟩ := mem_entries.mp he
  exact ⟨i, hi, hkey ▸ h.keyToIndex_slotKey hi, hval⟩

theorem WF.parentGains (h : WF d) {k : ℕ} (hk : k + 1 < d.slotCount) (left right : Dense2Node) :
    d.ParentGains (d.slotKey k) left right := by
  intro γ _ child p lower upper i hinv hi ha hb hfull hroom
  have hlow := h.lower_lt (show k < d.slotCount by omega)
  have hupp : d.slotKey k < d.upperFence := (h.slotKey_lt (Nat.lt_succ_self k) hk).trans_le (h.le_upper hk)
  have hlen := h.length_slotKey k
  have hbetween : InFences d.lowerFence d.upperFence (d.slotKey k) := ⟨Or.inr hlow, Or.inr hupp.le⟩
  rw [← hlen] at hroom
  obtain ⟨q, hq⟩ := InnerNode.splitChild_room hinv hi ha hb hbetween hupp.ne hroom (child left) (child right)
  have hlc : i < p.children.length := by
    rw [InnerNode.length_children]
    omega
  have hhalves : ∀ sep l r, (.ok (d.slotKey k, child left, child right) : Except Fault (Bytes × γ × γ)) =
      .ok (sep, l, r) → Halves (fun _ _ _ => True) (fun _ => ([] : List (Bytes × ℕ))) [] d.lowerFence d.upperFence
        sep l r := by
    intro sep l r he
    obtain ⟨rfl, rfl, rfl⟩ : d.slotKey k = sep ∧ child left = l ∧ child right = r := by simpa using he
    exact ⟨hbetween, ne_nil_of_lt hlow, hlen.trans_le hfull, trivial, trivial, rfl⟩
  obtain ⟨sep, l, r, he, hsplit, -⟩ := InnerNode.splitChild_spec (β := ℕ) (E := fun _ => []) hinv
    (List.getElem?_eq_getElem hlc) ha hb hhalves hq
  obtain ⟨rfl, rfl, rfl⟩ : d.slotKey k = sep ∧ child left = l ∧ child right = r := by simpa using he
  rw [hlen] at hq
  exact ⟨q, hq, hsplit⟩

theorem splitNode2_spec (h : WF d) {key : Bytes} (hkey : d.prefixLength ≤ key.length) {k : ℕ}
    (hfind : d.findSplitSlot = .ok k) (hk : k + 1 < d.slotCount) (leftPage rightPage : ℕ → Byte) :
    ∃ left right, d.splitNode2 key leftPage rightPage = .ok (d.slotKey k, left, right) ∧
      HalfOf d.lowerFence (d.slotKey k) left ∧ HalfOf (d.slotKey k) d.upperFence right ∧
      left.entries ++ right.entries = d.entries := by
  have hfences := h.fences_halves (k := k)
  have hright := h.space_right hfind hk
  have hsum := h.spaceUsed_eq
  have hcount : d.slotCount = k + 1 + (d.slotCount - k - 1) := by omega
  rw [hcount, rangeSpace_add, Nat.zero_add] at hsum
  have hroom := h.room
  have hend := h.slots_end
  have hlow := h.lower_len
  have hslots : d.slotEndOffset = recordSlotsOffset + 2 * d.slotCount := rfl
  have hfour : maxNumericPartLen = 4 := rfl
  have hleft : recordSlotsOffset + 2 * (k + 1) + d.rangeSpace 0 (k + 1) ≤
      fencesStart d.lowerFence.length (d.slotKey k).length d.fullKeyLen := by omega
  set left₀ := blank d.lowerFence (d.slotKey k) (commonPrefixLength d.lowerFence (d.slotKey k)) d.fullKeyLen
    d.arrayStart (k + 1) leftPage with hleft₀
  set right₀ := blank (d.slotKey k) d.upperFence (commonPrefixLength (d.slotKey k) d.upperFence) d.fullKeyLen
    (d.arrayStart + k + 1) (d.slotCount - k - 1) rightPage with hright₀
  obtain ⟨left, hl, hfl⟩ := copySlots_spec (d := d) (show Recorded left₀ from blank_recorded _ _ _ (by omega))
    slotAt_blank 0 (le_refl (k + 1)) hleft
  obtain ⟨right, hr, hfr⟩ := copySlots_spec (d := d) (show Recorded right₀ from blank_recorded _ _ _ (by omega))
    slotAt_blank (k + 1) (le_refl (d.slotCount - k - 1)) hright
  have hlw : WF left := by
    refine ⟨hfl.framed.windowed (h.left hk leftPage), hfl.recorded, ?_⟩
    rw [hfl.framed.slotEndOffset, hfl.framed.fullKeyLen, hfl.framed.lowerFence, hfl.framed.fencesOffset]
    change recordSlotsOffset + 2 * (k + 1) + (d.fullKeyLen - d.lowerFence.length) ≤
      fencesStart d.lowerFence.length (d.slotKey k).length d.fullKeyLen + 2
    omega
  have hrw : WF right := by
    refine ⟨hfr.framed.windowed (h.right hk rightPage), hfr.recorded, ?_⟩
    rw [hfr.framed.slotEndOffset, hfr.framed.fullKeyLen, hfr.framed.lowerFence, hfr.framed.fencesOffset]
    change recordSlotsOffset + 2 * (d.slotCount - k - 1) + (d.fullKeyLen - (d.slotKey k).length) ≤
      fencesStart (d.slotKey k).length d.upperFence.length d.fullKeyLen + 2
    rw [h.length_slotKey] at hright ⊢
    omega
  have hentries : left.entries ++ right.entries = d.entries := by
    have hcl : left.slotCount = k + 1 := hfl.framed.slotCount
    have hcr : right.slotCount = d.slotCount - k - 1 := hfr.framed.slotCount
    rw [entries, entries, entries, hcl, hcr]
    conv_rhs => rw [hcount, List.range_add, List.filterMap_append, List.filterMap_map]
    congr 1
    · refine List.filterMap_congr fun i hi => ?_
      rw [entryAt, entryAt, hfl.payloadAt, if_pos (List.mem_range.mp hi), Nat.zero_add, hfl.framed.slotKey]
      rfl
    · refine List.filterMap_congr fun i hi => ?_
      rw [Function.comp_apply, entryAt, entryAt, hfr.payloadAt, if_pos (List.mem_range.mp hi), hfr.framed.slotKey,
        slotKey_right h.toWindowed]
  refine ⟨left, right, ?_, ?_, ?_, hentries⟩
  · rw [splitNode2, ensure_of hkey, ok_bind, hfind, ok_bind]
    dsimp only
    rw [init2b_eq h.start h.lower_len, ok_bind, hl, ok_bind, ensure_of (by omega), ok_bind,
      init2b_eq (h.start_right hk) ((h.length_slotKey k).ge.trans (Nat.le_add_right _ _)), ok_bind, hr]
    rfl
  · have hhalf := hlw.halfOf
    rw [hfl.framed.lowerFence, hfl.framed.upperFence] at hhalf
    exact hhalf
  · have hhalf := hrw.halfOf
    rw [hfr.framed.lowerFence, hfr.framed.upperFence] at hhalf
    exact hhalf

theorem SplitsInTwo.lightEnd (h : d.slots.length = d.slotCount) {key : Bytes} {leftPage rightPage : ℕ → Byte}
    (hs : d.SplitsInTwo key leftPage rightPage) : d.LightEnd := by
  obtain ⟨splitSlot, sep, left, right, hfind, hlt, -⟩ := hs
  have hle : d.slotCount - 2 ≤ d.slots.length := by
    rw [h]
    exact Nat.sub_le _ _
  exact ⟨by omega, (findSplitSlot_le_iff hle).mp ⟨splitSlot, hfind, by omega⟩⟩

/-- The split succeeds on exactly the leaves whose last two slots hold at most half of the space. -/
theorem splitNode2_iff (h : WF d) {key : Bytes} (hk : InFences d.lowerFence d.upperFence key)
    (leftPage rightPage : ℕ → Byte) : d.SplitsInTwo key leftPage rightPage ↔ d.LightEnd := by
  constructor
  · exact fun hs => hs.lightEnd h.slots_len
  · rintro ⟨htwo, hhalf⟩
    have hle : d.slotCount - 2 ≤ d.slots.length := by
      rw [h.slots_len]
      exact Nat.sub_le _ _
    obtain ⟨k, hfind, hkle⟩ := (findSplitSlot_le_iff hle).mpr hhalf
    have hlt : k + 1 < d.slotCount := by omega
    have hkey := h.headed.prefixLength_le hk
    obtain ⟨left, right, hsplit, hl, hr, hentries⟩ := splitNode2_spec h hkey hfind hlt leftPage rightPage
    have hupp : d.slotKey k < d.upperFence := (h.slotKey_lt (Nat.lt_succ_self k) hlt).trans_le (h.le_upper hlt)
    exact ⟨k, d.slotKey k, left, right, hfind, by omega, hsplit, h.lower_lt (by omega), hupp, hl, hr, hentries,
      h.parentGains hlt left right⟩

def fourKeys : Dense2Node := blank [] [3] 0 1 0 4 fun _ => 0

theorem fourKeys_wf : WF fourKeys :=
  ⟨⟨by decide, by decide, by decide, by decide, by decide, by decide, by decide, by decide⟩,
    blank_recorded 0 0 _ (by decide), by decide⟩

/-- The caller splits a leaf that has refused a payload. -/
def Full (d : Dense2Node) : Prop :=
  ∃ payloadLen, d.fullKeyLen + payloadLen ≤ maxKVSize ∧ (d.requestSpaceFor payloadLen).1 = false

def placeAll : List (ℕ × Bytes) → Dense2Node → Except Fault Dense2Node
  | [], d => pure d
  | (i, payload) :: es, d => do
    ensure (i < d.slotCount ∧ d.slotAt i = 0 ∧ d.slotEndOffset + payload.length + 2 ≤ d.dataOffset) .assertion
    let d ← d.insertSlotWithSpace i payload
    placeAll es d

theorem placeAll_spec (es : List (ℕ × Bytes)) {e : Dense2Node} (h : WF d) (he : placeAll es d = .ok e) :
    WF e ∧ Framed d e := by
  induction es generalizing d with
  | nil => exact Except.ok.inj he ▸ ⟨h, .refl d⟩
  | cons p es ih =>
    obtain ⟨i, payload⟩ := p
    simp only [placeAll, bind_eq_ok, ensure_eq_ok, exists_const] at he
    obtain ⟨⟨hi, hempty, hroom⟩, d', hd', he⟩ := he
    obtain ⟨d'', hd'', hplaced⟩ := insertSlotWithSpace_spec h.toRecorded payload hi hempty (by omega)
    obtain rfl := Except.ok.inj (hd''.symm.trans hd')
    obtain ⟨hwf, hframed⟩ := ih (h.placed hplaced) he
    exact ⟨hwf, hplaced.framed.trans hframed⟩

def fillsTo (d : Dense2Node) (es : List (ℕ × Bytes)) (check : Dense2Node → Bool) : Bool :=
  Outcome.passes check (placeAll es d)

theorem fillsTo_spec {es : List (ℕ × Bytes)} {check : Dense2Node → Bool} (h : WF d) (hc : d.fillsTo es check = true) :
    ∃ e, WF e ∧ Framed d e ∧ check e = true := by
  obtain ⟨e, he, hpass⟩ := Outcome.passes_iff.mp hc
  obtain ⟨hwf, hframed⟩ := placeAll_spec es h he
  exact ⟨e, hwf, hframed, hpass⟩

theorem full_of_fourKeys {payloadLen : ℕ} (hframed : Framed fourKeys d) (hlen : 1 + payloadLen ≤ maxKVSize)
    (hrefused : (d.requestSpaceFor payloadLen).1 = false) : d.Full := by
  refine ⟨payloadLen, ?_, hrefused⟩
  rw [hframed.fullKeyLen]
  exact hlen

theorem inFences_fourKeys (hframed : Framed fourKeys d) : InFences d.lowerFence d.upperFence [2] := by
  rw [hframed.lowerFence, hframed.upperFence]
  decide

/-- Three records of a thousand bytes in the first slots, and no room for one of 1300 bytes. -/
theorem splitsInTwo_three : ∃ d : Dense2Node, (List.range 4).filter (fun i => d.slotAt i ≠ 0) = [0, 1, 2] ∧
    d.Full ∧ d.SplitsInTwo [2] (fun _ => 0) (fun _ => 0) := by
  have hfilled : fourKeys.fillsTo ((List.range 3).map fun i => (i, List.replicate 1000 7)) (fun d =>
      decide ((List.range 4).filter (fun i => d.slotAt i ≠ 0) = [0, 1, 2] ∧ d.LightEnd ∧
        (d.requestSpaceFor 1300).1 = false)) = true := by
    decide +kernel
  obtain ⟨d, hwf, hframed, hcheck⟩ := fillsTo_spec fourKeys_wf hfilled
  obtain ⟨htaken, hlight, hrefused⟩ := of_decide_eq_true hcheck
  exact ⟨d, htaken, full_of_fourKeys hframed (by decide) hrefused,
    (splitNode2_iff hwf (inFences_fourKeys hframed) _ _).mpr hlight⟩

/-- Two thirds of the space are in the last two of four slots. -/
theorem not_splitsInTwo_heavy :
    ¬ ∀ (d : Dense2Node) (key : Bytes) (leftPage rightPage : ℕ → Byte), WF d → d.Full →
      InFences d.lowerFence d.upperFence key → d.SplitsInTwo key leftPage rightPage := by
  intro hall
  have hfilled : fourKeys.fillsTo ([0, 2, 3].map fun i => (i, List.replicate 1300 0)) (fun d =>
      decide (¬ d.LightEnd ∧ (d.requestSpaceFor 200).1 = false)) = true := by
    decide +kernel
  obtain ⟨d, hwf, hframed, hcheck⟩ := fillsTo_spec fourKeys_wf hfilled
  obtain ⟨hheavy, hrefused⟩ := of_decide_eq_true hcheck
  have hsplit := hall d [2] (fun _ => 0) (fun _ => 0) hwf (full_of_fourKeys hframed (by decide) hrefused)
    (inFences_fourKeys hframed)
  exact hheavy (hsplit.lightEnd hwf.slots_len)

end Dense2Node

end BtreeRedis
