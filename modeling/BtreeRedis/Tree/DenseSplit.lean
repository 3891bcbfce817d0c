import BtreeRedis.Tree.Calls
import BtreeRedis.Tree.LeafProgress
import BtreeRedis.Tree.Window

/-!
# Splitting a dense leaf

`splitNode1` takes the key of the last array index as its boundary, whatever the key that
did not get in. The boundary is right if its number, taken modulo what its bytes can
hold, is no lower than the array and the occupied slots, and if it stays below the upper
fence. A key with an array index leaves `split_to_self` unset, and a key below the
boundary comes back to the same array unless that is converted then.
-/

namespace BtreeRedis

open LexOrder SortedAssoc BigEndian

namespace DenseNode

def boundaryNumber (d : DenseNode) : ℕ :=
  (d.arrayStart + d.lastIndex) % 256 ^ computeNumericPartLen d.fullKeyLen

theorem take_fullBoundary {d : DenseNode} (h : d.WF) :
    d.fullBoundary.take (computeNumericPrefixLength d.fullKeyLen) =
      d.lowerFence.take (computeNumericPrefixLength d.fullKeyLen) := take_restoreKey h.lower_len _

theorem getNumericPart_boundary {d : DenseNode} (h : d.WF) :
    getNumericPart d.fullBoundary d.fullKeyLen = d.boundaryNumber := by
  have hP := numericPrefixLength_eq d.fullKeyLen
  have hlow := h.lower_len
  have hl : (d.lowerFence.take (computeNumericPrefixLength d.fullKeyLen)).length =
      computeNumericPrefixLength d.fullKeyLen := by
    rw [List.length_take]
    omega
  rw [getNumericPart_of_length (length_fullBoundary h), fullBoundary, slotKey, restoreKey_eq,
    List.drop_left' hl, value_digits]
  rfl

theorem lower_lt_boundary_iff {d : DenseNode} (h : d.WF) :
    d.lowerFence < d.fullBoundary ↔ d.arrayStart ≤ d.boundaryNumber := by
  rw [lt_iff_leastGreaterKey h.lower_len (length_fullBoundary h) (take_fullBoundary h).symm,
    ← arrayStart_eq h, getNumericPart_boundary h]

theorem slotKey_le_boundary_iff {d : DenseNode} {i : ℕ} (hi : d.InRange i) :
    d.slotKey i ≤ d.fullBoundary ↔ d.arrayStart + i ≤ d.boundaryNumber := by
  rw [fullBoundary, slotKey, slotKey, restoreKey_eq, restoreKey_eq, append_le_append_iff,
    le_iff_value_le (by rw [length_digits, length_digits]), value_digits, value_digits,
    Nat.mod_eq_of_lt hi]
  rfl

theorem boundary_lt_of_no_index {d : DenseNode} (h : d.WF) (hs : 0 < d.slotCount) {key : Bytes}
    (hk : InFences d.lowerFence d.upperFence key) (hkl : key.length = d.fullKeyLen)
    (hno : ∀ i, d.keyToIndex key ≠ .ok (.index i)) : d.fullBoundary < key := by
  have hlast := lastIndex_eq h hs
  have hbeyond : ∀ i, d.slotCount ≤ i → d.InRange i → d.slotKey i = key → d.fullBoundary < key := by
    rintro i hi hr rfl
    exact d.slotKey_lt (by omega) hr
  obtain ⟨r, hr, hspec⟩ := keyToIndex_spec h.toFilled hk
  cases hspec with
  | wrongLen hl => exact absurd hkl hl
  | index hl hi hin hkey => exact absurd hr (hno _)
  | slightlyTooLarge hl hi hin hkey => exact hbeyond _ hi hin hkey
  | farTooLarge hl hi hin hkey => exact hbeyond _ hi hin hkey
  | notNumericRange hl hp =>
    by_contra hle
    have hlow := h.lower_len
    have hP := numericPrefixLength_eq d.fullKeyLen
    have hpre := prefix_of_between (List.take_prefix _ _)
      (take_fullBoundary h ▸ List.take_prefix _ _) hk.lower_le (not_lt.mp hle)
    have ht := List.prefix_iff_eq_take.mp hpre
    rw [List.length_take, Nat.min_eq_left (by omega)] at ht
    exact hp ht

end DenseNode

namespace LeafNode
variable {lower upper key payload : Bytes}

theorem empty_not_densified {n : BTreeNode Bytes} (hs : n.slots = []) {r : Bool} {l : LeafNode}
    (hr : n.insertDensified true key payload = .ok (r, l)) : False := by
  unfold BTreeNode.insertDensified at hr
  rw [hs] at hr
  cases hr

theorem basic_insert_basic {n : BTreeNode Bytes} (h : n.WF)
    (hroom : slotSize + (key.length - n.prefixLength) + payload.length ≤ n.freeSpaceAfterCompaction)
    {r : Bool} {l : LeafNode} (hr : n.insert true key payload = .ok (r, l)) : ∃ m, l = .basic m := by
  simp only [BTreeNode.insert, BTreeNode.spaceNeeded, bind_eq_ok, ensure_eq_ok, exists_const, pure_eq_ok,
    Prod.exists] at hr
  obtain ⟨_, ⟨-, rfl⟩, space, m, hm, hr⟩ := hr
  obtain ⟨m', hm', -⟩ := BTreeNode.requestSpaceFor_spec h
    (slotSize + (key.length - n.prefixLength) + payload.length)
  rw [hm] at hm'
  obtain ⟨rfl, rfl⟩ := Prod.mk.inj (Except.ok.inj hm')
  rw [if_pos (decide_eq_true hroom)] at hr
  simp only [bind_eq_ok, pure_eq_ok, Prod.mk.injEq] at hr
  obtain ⟨m', -, -, rfl⟩ := hr
  exact ⟨m', rfl⟩

inductive DenseRefusal (d : DenseNode) (key payload : Bytes) : Prop
  | lengths (hl : payload.length ≠ d.valLen ∨ key.length ≠ d.fullKeyLen)
      (hsize : ¬ d.occupiedCount * (d.fullKeyLen - d.prefixLength + payload.length + slotSize) +
        d.lowerFence.length + d.upperFence.length + headerSize ≤ pageSize)
  | array (hkl : key.length = d.fullKeyLen) (hpl : payload.length = d.valLen)
      (hno : ∀ i, d.keyToIndex key ≠ .ok (.index i))

theorem dense_refusal {d d' : DenseNode} (h : Inv true (.dense d) lower upper)
    (hk : InFences lower upper key)
    (hr : (LeafNode.dense d).insert true key payload = .ok (false, .dense d')) :
    d' = d ∧ DenseRefusal d key payload := by
  have hk' : InFences d.lowerFence d.upperFence key := by
    rw [show d.lowerFence = lower from h.lowerFence, show d.upperFence = upper from h.upperFence]
    exact hk
  simp only [insert, DenseNode.insert, bind_eq_ok, ensure_eq_ok, exists_const] at hr
  obtain ⟨-, hr⟩ := hr
  split_ifs at hr with hl hsize
  · simp only [bind_eq_ok] at hr
    obtain ⟨n, hn, hr⟩ := hr
    obtain ⟨hinv, -⟩ := converted_lengths h hn
    rcases Nat.lt_or_ge n.freeSpaceAfterCompaction
      (slotSize + (key.length - n.prefixLength) + payload.length) with hroom | hroom
    · rw [basic_insert_full hinv hk hroom] at hr
      by_cases hs : n.slots = []
      · exact (empty_not_densified hs hr).elim
      · rw [converted_not_densified h hn hk hl hs] at hr
        cases hr
    · obtain ⟨m, hm⟩ := basic_insert_basic hinv.kind.1 hroom hr
      cases hm
  · cases hr
    exact ⟨rfl, .lengths hl hsize⟩
  · simp only [not_or, not_not] at hl
    simp only [bind_eq_ok, pure_eq_ok, Prod.exists, Prod.mk.injEq] at hr
    obtain ⟨r, e, he, rfl, hd⟩ := hr
    cases hd
    obtain ⟨r, hidx, hspec⟩ := DenseNode.keyToIndex_spec h.kind.1.toFilled hk'
    rw [DenseNode.insertMatching, hidx, ok_bind] at he
    cases hspec with
    | @index i _ hi =>
      obtain ⟨mask, hset, -⟩ := DenseNode.setSlotPresent_spec h.kind.1.mask_len hi
      simp only [DenseNode.isSlotPresent, ensure_of hi, hset, ok_bind, pure_bind] at he
      cases he
    | wrongLen hl => cases he
    | notNumericRange => cases he; exact ⟨rfl, .array hl.2 hl.1 fun i hi => by rw [hidx] at hi; cases hi⟩
    | slightlyTooLarge => cases he; exact ⟨rfl, .array hl.2 hl.1 fun i hi => by rw [hidx] at hi; cases hi⟩
    | farTooLarge => cases he; exact ⟨rfl, .array hl.2 hl.1 fun i hi => by rw [hidx] at hi; cases hi⟩

theorem dense_refuses_lengths {d : DenseNode} (h : Inv true (.dense d) lower upper)
    (hk : InFences lower upper key) (hl : payload.length ≠ d.valLen ∨ key.length ≠ d.fullKeyLen)
    (hsize : ¬ d.occupiedCount * (d.fullKeyLen - d.prefixLength + payload.length + slotSize) +
      d.lowerFence.length + d.upperFence.length + headerSize ≤ pageSize) :
    (LeafNode.dense d).insert true key payload = .ok (false, .dense d) := by
  have hpk : d.prefixLength ≤ key.length := h.kind.1.headed.prefixLength_le (by
    rw [show d.lowerFence = lower from h.lowerFence, show d.upperFence = upper from h.upperFence]
    exact hk)
  simp only [insert, DenseNode.insert, ensure_of hpk, ok_bind, if_pos hl, if_neg hsize]
  rfl

theorem empty_insert {n : BTreeNode Bytes} (h : Inv true (.basic n) lower upper)
    (hk : InFences lower upper key) (hs : n.slots = []) {r : Bool} {d' : DenseNode} :
    (LeafNode.basic n).insert true key payload ≠ .ok (r, .dense d') := by
  intro hr
  have hr : n.insert true key payload = .ok (r, .dense d') := hr
  rcases Nat.lt_or_ge n.freeSpaceAfterCompaction
    (slotSize + (key.length - n.prefixLength) + payload.length) with hroom | hroom
  · rw [basic_insert_full h hk hroom] at hr
    exact (empty_not_densified hs hr).elim
  · obtain ⟨m, hm⟩ := basic_insert_basic h.kind.1 hroom hr
    cases hm

end LeafNode

namespace DenseNode
variable {d : DenseNode} {lower upper key payload : Bytes}

def leftHalf (d : DenseNode) : DenseNode :=
  { d with
    upperFence := d.fullBoundary
    prefixLength := commonPrefixLength d.lowerFence d.fullBoundary }

theorem changeUpperFence_eq (h : d.WF) : d.changeUpperFence d.fullBoundary = .ok d.leftHalf := by
  rw [changeUpperFence, ensure_of (length_fullBoundary h).le]
  rfl

theorem splitNode1_eq_ok (h : d.WF) {left : DenseNode} {right : LeafNode} :
    d.splitNode1 key = .ok (left, right) ↔
      left = d.leftHalf ∧ ∃ b, d.splitToSelf key = .ok b ∧ d.splitRight b = .ok right := by
  simp only [splitNode1, changeUpperFence_eq h, bind_eq_ok, pure_eq_ok, Except.ok.injEq, Prod.mk.injEq]
  constructor
  · rintro ⟨b, hb, right', hr, left', rfl, rfl, rfl⟩
    exact ⟨rfl, b, hb, hr⟩
  · rintro ⟨rfl, b, hb, hr⟩
    exact ⟨b, hb, right, hr, _, rfl, rfl, rfl⟩

structure SplitsFor (d : DenseNode) (lower upper key payload : Bytes) (left : DenseNode) (right : LeafNode) :
    Prop where
  split : d.splitNode1 key = .ok (left, right)
  lower_lt : lower < d.fullBoundary
  lt_upper : upper = [] ∨ d.fullBoundary < upper
  fresh : ∀ (p : InnerNode LeafNode) (a b : Bytes) (i : ℕ), p.Inv (LeafNode.Inv true) a b →
    (a :: p.separators)[i]? = some lower → (p.separators ++ [b])[i]? = some upper →
    d.fullBoundary ∉ p.separators
  left_inv : LeafNode.Inv true (.dense left) lower d.fullBoundary
  right_inv : right.Inv true d.fullBoundary upper
  entries : left.entries ++ right.entries = d.entries
  proceeds : ∀ e, (if key ≤ d.fullBoundary then .dense left else right).insert true key payload =
    .ok (false, .dense e) → e.fullBoundary ≠ d.fullBoundary

/-- When the split does it. The numbers are those of the array, the boundary's taken modulo what its
bytes hold. -/
structure SplitCondition (d : DenseNode) (lower upper key payload : Bytes) : Prop where
  above : d.arrayStart ≤ d.boundaryNumber
  covers : ∀ i, d.present i = true → d.arrayStart + i ≤ d.boundaryNumber
  below : upper = [] ∨ d.fullBoundary < upper
  outside : ∀ i, d.keyToIndex key ≠ .ok (.index i)
  converts : key ≤ d.fullBoundary →
    d.occupiedCount * (d.fullKeyLen - commonPrefixLength lower d.fullBoundary + payload.length + slotSize) +
      lower.length + d.fullKeyLen + headerSize ≤ pageSize

theorem SplitCondition.separating (hc : SplitCondition d lower upper key payload)
    (h : LeafNode.Inv true (.dense d) lower upper) : d.Separating := by
  have hw := h.kind.1
  have hupp : d.upperFence = upper := h.upperFence
  refine ⟨⟨Or.inr ((lower_lt_boundary_iff hw).mpr hc.above), ?_⟩, fun i hi => ?_⟩
  · rw [hupp]
    exact hc.below.imp id le_of_lt
  · exact (slotKey_le_boundary_iff (hw.inRange i hi)).mpr (hc.covers i hi)

theorem insert_leftHalf (hc : SplitCondition d lower upper key payload)
    (h : LeafNode.Inv true (.dense d) lower upper) (hk : InFences lower upper key)
    (hle : key ≤ d.fullBoundary) {e : DenseNode} :
    (LeafNode.dense d.leftHalf).insert true key payload ≠ .ok (false, .dense e) := by
  intro hr
  have hlow : d.lowerFence = lower := h.lowerFence
  have hinv := (changeUpperFence_inv h (hc.separating h) (changeUpperFence_eq h.kind.1)).1
  have hkl : InFences lower d.fullBoundary key := ⟨hk.1, Or.inr hle⟩
  have hk' : InFences d.leftHalf.lowerFence d.leftHalf.upperFence key := by
    change InFences d.lowerFence d.fullBoundary key
    rwa [hlow]
  obtain ⟨-, hfound⟩ := LeafNode.dense_refusal hinv hkl hr
  cases hfound with
  | lengths hl hsize =>
    refine hsize ?_
    have hfit := hc.converts hle
    have hlen := length_fullBoundary h.kind.1
    simp only [leftHalf, hlow, hlen]
    exact hfit
  | array hkl hpl hno => exact absurd hle (boundary_lt_of_no_index hinv.kind.1 h.kind.2.1 hk' hkl hno).not_ge

theorem insert_rightDense (hc : SplitCondition d lower upper key payload)
    (h : LeafNode.Inv true (.dense d) lower upper) (hk : InFences lower upper key)
    (hlt : d.fullBoundary < key) {r e : DenseNode} (hself : d.splitToSelf key = .ok true)
    (hright : d.splitRight true = .ok (.dense r))
    (hr : (LeafNode.dense r).insert true key payload = .ok (false, .dense e)) :
    e.fullBoundary ≠ d.fullBoundary := by
  have hw := h.kind.1
  have hupp : d.upperFence = upper := h.upperFence
  have hk' : InFences d.lowerFence d.upperFence key := by
    rwa [hupp, show d.lowerFence = lower from h.lowerFence]
  obtain ⟨hrinv, hrent⟩ := splitRight_inv h (hc.separating h) hright
  have hrw := hrinv.kind.1
  have hkr : InFences d.fullBoundary upper key := ⟨Or.inr hlt, hk.2⟩
  have hfull : r.fullKeyLen = d.fullKeyLen ∧ r.valLen = d.valLen := by
    simp only [splitRight, changeLowerFence, bind_eq_ok, ensure_eq_ok, exists_const, pure_eq_ok] at hright
    obtain ⟨_, ⟨slots, -, -, start, -, rfl⟩, he⟩ := hright
    obtain rfl := LeafNode.dense.inj he
    exact ⟨rfl, rfl⟩
  obtain ⟨i, hkey⟩ : ∃ i, d.slotKey i = key := by
    obtain ⟨idx, hidx, hspec⟩ := keyToIndex_spec hw.toFilled hk'
    simp only [splitToSelf, hidx, bind_eq_ok, ensure_eq_ok, exists_const, Except.ok.injEq] at hself
    obtain ⟨-, _, rfl, hself⟩ := hself
    cases hspec with
    | slightlyTooLarge hl hi hin hkey => exact ⟨_, hkey⟩
    | wrongLen => cases hself
    | notNumericRange => cases hself
    | index => cases hself
    | farTooLarge => cases hself
  have hkl : key.length = d.fullKeyLen := hkey ▸ length_slotKey hw.toFilled i
  obtain ⟨rfl, hfound⟩ := LeafNode.dense_refusal hrinv hkr hr
  cases hfound with
  | lengths hl hsize =>
    refine absurd ?_ hsize
    have hfit := hrinv.pages_fit
    have hocc : e.occupiedCount = 0 := by
      rw [hrw.occupied]
      exact congrArg List.length hrent
    rw [hocc, Nat.zero_mul, show e.lowerFence = _ from hrinv.lowerFence, show e.upperFence = _ from hrinv.upperFence]
    simp only [slotsOffset, slotSize, pageSize, headerSize, maxKVSize] at hfit ⊢
    omega
  | array hkl' hpl hno =>
    have hlow : e.lowerFence = d.fullBoundary := hrinv.lowerFence
    have hk'' : InFences e.lowerFence e.upperFence key := by
      rwa [hlow, show e.upperFence = _ from hrinv.upperFence]
    have hin : e.InRange e.lastIndex := by
      have hlast := lastIndex_eq hrw hrinv.kind.2.1
      have hbehind : ∀ j, e.slotCount ≤ j → e.InRange j → e.InRange e.lastIndex := by
        intro j hj hjr
        rw [InRange] at hjr ⊢
        omega
      obtain ⟨idx, hidx, hspec⟩ := keyToIndex_spec hrw.toFilled hk''
      cases hspec with
      | wrongLen hl => exact absurd hkl' hl
      | index => exact absurd hidx (hno _)
      | slightlyTooLarge hl hi hin hkey => exact hbehind _ hi hin
      | farTooLarge hl hi hin hkey => exact hbehind _ hi hin
      | notNumericRange hl hp =>
        refine absurd ?_ hp
        rw [hlow, hfull.1, take_fullBoundary hw, ← hkey, slotKey, take_restoreKey hw.lower_len]
    have habove : e.lowerFence < e.fullBoundary := by
      rw [lower_lt_boundary_iff hrw, boundaryNumber, Nat.mod_eq_of_lt hin]
      exact Nat.le_add_right _ _
    exact (hlow ▸ habove).ne'

theorem SplitsFor.condition {left : DenseNode} {right : LeafNode}
    (hs : SplitsFor d lower upper key payload left right) (h : LeafNode.Inv true (.dense d) lower upper)
    (hk : InFences lower upper key)
    (hr : (LeafNode.dense d).insert true key payload = .ok (false, .dense d)) :
    SplitCondition d lower upper key payload := by
  have hw := h.kind.1
  have hlow : d.lowerFence = lower := h.lowerFence
  have hupp : d.upperFence = upper := h.upperFence
  have hlen := length_fullBoundary hw
  have hk' : InFences d.lowerFence d.upperFence key := by rwa [hlow, hupp]
  obtain ⟨rfl, b, hself, -⟩ := (splitNode1_eq_ok hw).mp hs.split
  refine ⟨?_, fun i hi => ?_, hs.lt_upper, fun i hi => ?_, fun hle => ?_⟩
  · exact (lower_lt_boundary_iff hw).mp (hlow.symm ▸ hs.lower_lt)
  · have hin : d.slotKey i ≤ d.fullBoundary := ((hs.left_inv.kind.1.inFences i hi).2).resolve_left fun hn => by
      have hpos := hw.full_pos
      rw [show d.fullBoundary = [] from hn] at hlen
      simp only [List.length_nil] at hlen
      omega
    exact (slotKey_le_boundary_iff (hw.inRange i hi)).mp hin
  · simp only [splitToSelf, ensure_of (hw.headed.prefixLength_le hk'), hi, ok_bind] at hself
    cases hself
  · by_contra hfit
    have hl : payload.length ≠ d.valLen ∨ key.length ≠ d.fullKeyLen := by
      obtain ⟨-, hfound⟩ := LeafNode.dense_refusal h hk hr
      cases hfound with
      | lengths hl _ => exact hl
      | array hkl _ hno => exact absurd hle (boundary_lt_of_no_index hw h.kind.2.1 hk' hkl hno).not_ge
    refine hs.proceeds d.leftHalf ?_ rfl
    rw [if_pos hle]
    refine LeafNode.dense_refuses_lengths hs.left_inv ⟨hk.1, Or.inr hle⟩ hl ?_
    simp only [leftHalf, hlow, hlen]
    exact hfit

/-- The split of a dense leaf for a key that the leaf refuses separates its entries at a new boundary
and leads on exactly if the boundary covers the array and stays below the upper fence, the key has
no array index, and a key that comes back to the array lets it be converted. -/
theorem splitNode1_iff (h : LeafNode.Inv true (.dense d) lower upper) (hk : InFences lower upper key)
    (hr : (LeafNode.dense d).insert true key payload = .ok (false, .dense d)) :
    (∃ left right, SplitsFor d lower upper key payload left right) ↔
      SplitCondition d lower upper key payload := by
  constructor
  · rintro ⟨left, right, hs⟩
    exact hs.condition h hk hr
  intro hc
  have hw := h.kind.1
  have hlow : d.lowerFence = lower := h.lowerFence
  have hsep := hc.separating h
  have hlt : lower < d.fullBoundary := hlow ▸ (lower_lt_boundary_iff hw).mpr hc.above
  obtain ⟨b, hself, hbeyond⟩ := LeafNode.splitToSelf_ok h hk hc.outside
  obtain ⟨right, hright, -⟩ := LeafNode.splitRight_ok h hbeyond
  obtain ⟨hleft, hent⟩ := changeUpperFence_inv h hsep (changeUpperFence_eq hw)
  obtain ⟨hrinv, hrent⟩ := splitRight_inv h hsep hright
  refine ⟨d.leftHalf, right, (splitNode1_eq_ok hw).mpr ⟨rfl, b, hself, hright⟩, hlt, hc.below,
    fun p a b i hp ha hb => hp.not_mem_separators ha hb hlt hc.below, hleft, hrinv, ?_, fun e he => ?_⟩
  · rw [hent, hrent, List.append_nil]
  · by_cases hle : key ≤ d.fullBoundary
    · rw [if_pos hle] at he
      exact absurd he (insert_leftHalf hc h hk hle)
    · rw [if_neg hle] at he
      have hgt := not_le.mp hle
      cases right with
      | basic n =>
        have hslots : n.slots = [] := by
          have hlen := congrArg List.length (show n.entries = [] from hrent)
          rw [BTreeNode.entries_length] at hlen
          exact List.length_eq_zero_iff.mp hlen
        exact absurd he (LeafNode.empty_insert hrinv ⟨Or.inr hgt, hk.2⟩ hslots)
      | dense r =>
        cases b with
        | true => exact insert_rightDense hc h hk hgt hself hright he
        | false =>
          simp only [splitRight, bind_eq_ok, pure_eq_ok] at hright
          obtain ⟨_, -, hright⟩ := hright
          cases hright

set_option maxRecDepth 20000 in
theorem splitNode1_iff_fourSlots :
    ∃ left right, SplitsFor fourSlots [] [] [9] (List.replicate 1000 0) left right := by
  obtain ⟨n, hn, hd⟩ := fourSlots_densified
  have hw := (densified_of_densify1 hn hd).wf
  refine (splitNode1_iff ⟨⟨hw, by decide, by decide, rfl⟩, rfl, rfl, by decide, by decide, by decide +kernel⟩
    (by decide) rfl).mpr ⟨by decide, fun i hi => ?_, Or.inl rfl, fun i hi => ?_, fun hle => ?_⟩
  · have hlt := hw.present_lt i hi
    change i < 4 at hlt
    change 0 + i ≤ 3
    omega
  · cases hi
  · exact absurd hle (by decide)

def unsplittableFor (key payload : Bytes) (t : BTree) : Bool :=
  match t.leafFor key with
  | .ok (.dense d) => decide (key ∉ keys t.entries) && decide (payload.length ≠ d.valLen) &&
    decide (¬ d.occupiedCount * (d.fullKeyLen - d.prefixLength + payload.length + slotSize) +
      d.lowerFence.length + d.upperFence.length + headerSize ≤ pageSize) &&
    decide (d.prefixLength ≤ key.length) &&
    match d.splitNode1 key with
    | .error e => e == .undefined
    | .ok _ => false
  | _ => false

theorem unsplittableFor_spec {t : BTree} (h : unsplittableFor key payload t = true) :
    ∃ d, t.leafFor key = .ok (.dense d) ∧ key ∉ keys t.entries ∧
      (LeafNode.dense d).insert true key payload = .ok (false, .dense d) ∧
      d.splitNode1 key = .error .undefined := by
  unfold unsplittableFor at h
  split at h
  · next d hd =>
    simp only [Bool.and_eq_true, decide_eq_true_eq] at h
    obtain ⟨⟨⟨⟨hnew, hl⟩, hsize⟩, hpk⟩, h⟩ := h
    split at h
    · next e he =>
      refine ⟨d, hd, hnew, ?_, he.trans (by rw [eq_of_beq h])⟩
      simp only [LeafNode.insert, DenseNode.insert, ensure_of hpk, ok_bind, if_pos (Or.inl hl), if_neg hsize]
      rfl
    · cases h
  · cases h

/-- The key behind the last of nineteen has the array's last index, but its payload is a byte too long,
and the entries would not fit a basic page with such payloads. -/
theorem splitNode1_undefined : ∃ t d, BTree.Reachable true (fun _ _ _ => True) t ∧
    t.leafFor [19] = .ok (.dense d) ∧ [19] ∉ keys t.entries ∧
    (LeafNode.dense d).insert true [19] (List.replicate 201 0) = .ok (false, .dense d) ∧
    ¬ ∃ left right, SplitsFor d d.lowerFence d.upperFence [19] (List.replicate 201 0) left right := by
  have hrun : BTree.reaches true 2 ((List.range 19).map fun k => ([Fin.ofNat 256 k], List.replicate 200 0))
      (unsplittableFor [19] (List.replicate 201 0)) = true := by decide +kernel
  obtain ⟨t, ht, hc⟩ := BTree.reaches_spec hrun
  obtain ⟨d, hd, hnew, hr, herr⟩ := unsplittableFor_spec hc
  refine ⟨t, d, ht, hd, hnew, hr, ?_⟩
  rintro ⟨left, right, hs⟩
  exact nomatch herr.symm.trans hs.split

end DenseNode

end BtreeRedis
