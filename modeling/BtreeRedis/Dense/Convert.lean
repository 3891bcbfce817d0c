import BtreeRedis.Dense.Update
import BtreeRedis.Node.Split

/-!
# From a dense leaf back to a basic one

`convertToBasic` writes the occupied slots in ascending order into a basic page with the
same fences. The entries stay; what the source does not check at every call is that
they fit.
-/

namespace BtreeRedis

open LexOrder SortedAssoc BigEndian

namespace DenseNode

/-- What `copyKeyValueRangeToBasic` writes as the key of array slot `i`. -/
def truncatedKey (d : DenseNode) (dstPrefixLength i : ℕ) : Bytes :=
  let npLen := computeNumericPartLen d.fullKeyLen
  let numericPart := (d.arrayStart + i) % numericRange
  if dstPrefixLength < d.fullKeyLen - npLen
  then (d.lowerFence.drop dstPrefixLength).take (d.fullKeyLen - npLen - dstPrefixLength) ++
    digits npLen numericPart
  else digits (d.fullKeyLen - dstPrefixLength) numericPart

/-- The head is read over the length that the dense leaf's own prefix leaves. -/
def copySlot (d : DenseNode) (dst : BTreeNode Bytes) (i : ℕ) : Except Fault (BTreeNode Bytes) := do
  let key := d.truncatedKey dst.prefixLength i
  let payload := d.vals.getD i []
  let space := d.fullKeyLen - dst.prefixLength + d.valLen
  ensure (space ≤ dst.dataOffset) .pageOverflow
  let offset := dst.dataOffset - space
  let head := BtreeRedis.head ((key ++ payload).take (d.fullKeyLen - d.prefixLength))
  pure { dst with
    dataOffset := offset
    spaceUsed := dst.spaceUsed + space
    slots := dst.slots ++ [{ offset, key, payload, head }] }

def copyKeyValueRangeToBasic (d : DenseNode) (dst : BTreeNode Bytes) (srcStart srcEnd : ℕ) :
    Except Fault (BTreeNode Bytes) := do
  ensure (d.prefixLength ≤ dst.prefixLength) .assertion
  ensure (dst.count = 0) .assertion
  let dst ← ((List.range' srcStart (srcEnd - srcStart)).filter d.present).foldlM d.copySlot dst
  ensure (slotsOffset + slotSize * dst.count ≤ dst.dataOffset) .pageOverflow
  pure dst

def convertToBasic (d : DenseNode) : Except Fault (BTreeNode Bytes) := do
  let tmp ← (BTreeNode.init true).setFences d.lowerFence d.upperFence
  let tmp ← d.copyKeyValueRangeToBasic tmp 0 d.slotCount
  pure tmp.makeHint

theorem entries_eq_map (d : DenseNode) :
    d.entries = ((List.range d.slotCount).filter d.present).map
      fun i => (d.slotKey i, d.vals.getD i []) := by
  rw [entries]
  induction List.range d.slotCount with
  | nil => rfl
  | cons i is ih =>
    rw [List.filterMap_cons, entryAt]
    by_cases hp : d.present i = true
    · rw [if_pos hp, List.filter_cons_of_pos hp, List.map_cons, ← ih]
    · rw [if_neg hp, List.filter_cons_of_neg hp, ← ih]

theorem truncatedKey_eq {d : DenseNode} (h : Filled d) {p : ℕ} (hp : p ≤ d.fullKeyLen) (i : ℕ) :
    d.truncatedKey p i = (d.slotKey i).drop p := by
  have hn := numericLen_add d.fullKeyLen
  have hP := numericPrefixLength_eq d.fullKeyLen
  have hlow := h.lower_len
  have hle := numericPartLen_le d.fullKeyLen
  have h4 : maxNumericPartLen = 4 := rfl
  have h32 : numericRange = 256 ^ 4 := by decide
  rw [slotKey, BtreeRedis.restoreKey, truncatedKey]
  have hnp : d.fullKeyLen - computeNumericPartLen d.fullKeyLen =
      computeNumericPrefixLength d.fullKeyLen := by omega
  rw [hnp]
  split_ifs with hlt
  · rw [List.drop_append_of_le_length (by rw [List.length_take]; omega), List.drop_take]
  · rw [List.drop_append, List.length_take,
      List.drop_of_length_le (by rw [List.length_take]; omega), List.nil_append, h32,
      digits_mod (by omega), digits_mod hle, digits_drop (by omega)]
    congr 1
    omega

theorem copySlot_grown {d : DenseNode} (h : Filled d) {i : ℕ} (hi : d.present i = true)
    {dst dst' : BTreeNode Bytes} (hp : dst.prefixLength = d.prefixLength)
    (hc : d.copySlot dst i = .ok dst') :
    BTreeNode.Grown dst dst' [((d.slotKey i).drop d.prefixLength, d.vals.getD i [])] := by
  simp only [copySlot, bind_eq_ok, ensure_eq_ok, exists_const, pure_eq_ok] at hc
  obtain ⟨hd, rfl⟩ := hc
  have hkey : d.truncatedKey dst.prefixLength i = (d.slotKey i).drop d.prefixLength := by
    rw [hp, truncatedKey_eq h h.prefix_le]
  have hlen : ((d.slotKey i).drop d.prefixLength).length = d.fullKeyLen - d.prefixLength := by
    rw [List.length_drop, length_slotKey h]
  have hval := h.val_len i hi
  have hhead : ((d.slotKey i).drop d.prefixLength ++ d.vals.getD i []).take
      (d.fullKeyLen - d.prefixLength) = (d.slotKey i).drop d.prefixLength := by
    rw [← hlen, List.take_left']
    rfl
  rw [hkey, hhead]
  refine BTreeNode.Grown.push (s := ⟨_, _, _, _⟩) rfl ?_ hd
  change d.fullKeyLen - dst.prefixLength + d.valLen =
    ((d.slotKey i).drop d.prefixLength).length + (d.vals.getD i []).length
  rw [hlen, hval, hp]

theorem copyToBasic_src (d : DenseNode) :
    (List.range' 0 (d.slotCount - 0)).filter d.present = (List.range d.slotCount).filter d.present := by
  rw [Nat.sub_zero, List.range_eq_range']

theorem truncate_entries {d : DenseNode} (h : Filled d) :
    BTreeNode.truncate d.lowerFence d.upperFence d.entries =
      ((List.range d.slotCount).filter d.present).map
        fun i => ((d.slotKey i).drop d.prefixLength, d.vals.getD i []) := by
  rw [entries_eq_map, BTreeNode.truncate, List.map_map, ← h.prefixLen]
  rfl

theorem convertToBasic_spec {d : DenseNode} (h : WF d) {m : BTreeNode Bytes}
    (hm : d.convertToBasic = .ok m) :
    BTreeNode.Holds m true d.lowerFence d.upperFence d.entries := by
  simp only [convertToBasic, copyKeyValueRangeToBasic, copyToBasic_src, bind_eq_ok, ensure_eq_ok,
    exists_const, pure_eq_ok] at hm
  obtain ⟨p, hp, m, ⟨-, -, m', hm', hroom, rfl⟩, rfl⟩ := hm
  obtain ⟨hs, rfl⟩ := BTreeNode.setFences_init_eq_ok.mp hp
  have hg := BTreeNode.foldlM_grown (p := d.prefixLength)
    (fun a i hi b ha hb => copySlot_grown h.toFilled (List.mem_filter.mp hi).2 ha hb)
    h.prefixLen.symm hm'
  rw [← truncate_entries h.toFilled] at hg
  refine BTreeNode.grown_fenced hg hroom h.fences hs (sorted_entries h.toFilled) fun e he => ?_
  obtain ⟨i, hp, rfl⟩ := (mem_entries h.toFilled).mp he
  exact h.inFences i hp

theorem convertToBasic_ok {d : DenseNode} (h : WF d)
    (hfit : BTreeNode.pageBytes d.lowerFence d.upperFence d.entries ≤ pageSize) :
    ∃ m, d.convertToBasic = .ok m := by
  have hpage : slotsOffset + d.lowerFence.length + d.upperFence.length ≤ pageSize := by
    simp only [BTreeNode.pageBytes] at hfit
    omega
  have hset : (BTreeNode.init true : BTreeNode Bytes).setFences d.lowerFence d.upperFence =
      .ok (BTreeNode.fenced true d.lowerFence d.upperFence) :=
    BTreeNode.setFences_init_eq_ok.mpr ⟨hpage, rfl⟩
  have hlen : ((List.range d.slotCount).filter d.present).length = d.entries.length := by
    rw [entries_eq_map, List.length_map]
  set p : BTreeNode Bytes := BTreeNode.fenced true d.lowerFence d.upperFence with hp
  have hpl : p.prefixLength = d.prefixLength := h.prefixLen.symm
  have hgrow : ∀ a, ∀ i ∈ (List.range d.slotCount).filter d.present, ∀ b : BTreeNode Bytes,
      a.prefixLength = d.prefixLength → d.copySlot a i = .ok b →
        BTreeNode.Grown a b [((d.slotKey i).drop d.prefixLength, d.vals.getD i [])] :=
    fun a i hi b ha hb => copySlot_grown h.toFilled (List.mem_filter.mp hi).2 ha hb
  have hroom : slotsOffset + slotSize * (p.count + ((List.range d.slotCount).filter d.present).length) +
      BTreeNode.entryBytes (((List.range d.slotCount).filter d.present).map
        fun i => ((d.slotKey i).drop d.prefixLength, d.vals.getD i [])) ≤ p.dataOffset := by
    rw [← truncate_entries h.toFilled, hlen, hp, BTreeNode.count_fenced]
    simp only [BTreeNode.pageBytes, BTreeNode.fenced, slotsOffset, slotSize, pageSize] at hfit ⊢
    omega
  obtain ⟨m, hm⟩ := BTreeNode.foldlM_ok hgrow (fun a i hi ha hspace => by
    have hval := h.val_len i (List.mem_filter.mp hi).2
    have hkey := length_slotKey h.toFilled i
    simp only [BTreeNode.entryBytes_cons, BTreeNode.entryBytes_nil, List.length_drop] at hspace
    change _ + (_ + (d.vals.getD i []).length + 0) ≤ _ at hspace
    rw [copySlot]
    dsimp only
    rw [ensure_of (by omega), ok_bind]
    exact ⟨_, rfl⟩) hpl hroom
  have hg := BTreeNode.foldlM_grown hgrow hpl hm
  have hc := hg.count
  have ho := hg.offset
  rw [List.length_map] at hc
  simp only [convertToBasic, copyKeyValueRangeToBasic, copyToBasic_src, hset, ok_bind]
  rw [ensure_of hpl.ge, ok_bind, ensure_of (by rw [hp]; rfl), ok_bind, hm, ok_bind,
    ensure_of (by simp only [slotsOffset, slotSize] at hroom ⊢; omega)]
  exact ⟨_, rfl⟩

theorem pageBytes_entries {d : DenseNode} (h : WF d) :
    BTreeNode.pageBytes d.lowerFence d.upperFence d.entries =
      slotsOffset + d.lowerFence.length + d.upperFence.length +
        d.occupiedCount * (d.fullKeyLen - d.prefixLength + d.valLen + slotSize) := by
  have hsum : ∀ is : List ℕ, (∀ i ∈ is, d.present i = true) →
      BTreeNode.entryBytes (is.map fun i => ((d.slotKey i).drop d.prefixLength, d.vals.getD i [])) =
        is.length * (d.fullKeyLen - d.prefixLength + d.valLen) := by
    intro is his
    induction is with
    | nil => simp
    | cons i is ih =>
      have hval := h.val_len i (his i (by simp))
      have hkey := length_slotKey h.toFilled i
      rw [List.map_cons, BTreeNode.entryBytes_cons, ih fun j hj => his j (List.mem_cons_of_mem i hj),
        List.length_drop, hkey, List.length_cons, Nat.succ_mul]
      change _ + (d.vals.getD i []).length + _ = _
      rw [hval, Nat.add_comm]
  have hlen : ((List.range d.slotCount).filter d.present).length = d.occupiedCount := by
    rw [h.occupied, entries_eq_map, List.length_map]
  rw [BTreeNode.pageBytes, truncate_entries h.toFilled,
    hsum _ fun i hi => (List.mem_filter.mp hi).2, hlen, ← h.occupied]
  ring

end DenseNode

end BtreeRedis
