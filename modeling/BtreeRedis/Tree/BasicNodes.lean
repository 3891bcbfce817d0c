import BtreeRedis.Node.Placed
import BtreeRedis.Tree.Leaf
import BtreeRedis.Hash.Convert
import BtreeRedis.Head.Convert

/-!
# Basic nodes over whole runs

`Reached` collects every way in which the source makes or changes a basic node: fresh pages,
insertion, removal, compaction, the halves of a split, a merge, and conversions from the other
kinds of nodes. All of them leave the node well-formed and its records apart, so that the
optimised search is a linear scan and the page is accounted for.
-/

namespace BtreeRedis

open LexOrder SortedAssoc

namespace BTreeNode
variable {π : Type} [Payload π]

/-- `Converted` says which nodes come from another kind. -/
inductive Reached (Converted : BTreeNode π → Prop) : BTreeNode π → Prop
  | init (isLeaf : Bool) : Reached Converted (init isLeaf)
  | fenced {isLeaf : Bool} {lower upper : Bytes} {n : BTreeNode π} (hf : FencesOrdered lower upper)
      (hn : (BTreeNode.init isLeaf).setFences lower upper = .ok n) : Reached Converted n
  | converted {n : BTreeNode π} (hn : Converted n) : Reached Converted n
  | inserted {n m : BTreeNode π} {key : Bytes} {payload : π} {b : Bool} (h : Reached Converted n)
      (hk : InFences n.getLowerFence n.getUpperFence key) (hm : n.insertChild key payload = .ok (b, m)) :
      Reached Converted m
  | spaced {n m : BTreeNode π} {k : ℕ} {b : Bool} (h : Reached Converted n)
      (hm : n.requestSpaceFor k = .ok (b, m)) : Reached Converted m
  | removed {n m : BTreeNode π} {key : Bytes} {b : Bool} (h : Reached Converted n)
      (hk : InFences n.getLowerFence n.getUpperFence key) (hm : n.remove key = .ok (b, m)) : Reached Converted m
  | slotRemoved {n : BTreeNode π} {i : ℕ} (h : Reached Converted n) (hi : i < n.count) :
      Reached Converted (n.removeSlot i)
  | compactified {n m : BTreeNode π} (h : Reached Converted n) (hm : n.compactify = .ok m) : Reached Converted m
  | leafLeft {n l r : BTreeNode π} {info : SeparatorInfo} {sep : Bytes} (h : Reached Converted n)
      (hl : n.isLeaf = true) (hi : n.findSeparator = .ok info) (hs : n.getSep info = .ok sep)
      (hm : n.splitLeaf info.slot sep = .ok (l, r)) : Reached Converted l
  | leafRight {n l r : BTreeNode π} {info : SeparatorInfo} {sep : Bytes} (h : Reached Converted n)
      (hl : n.isLeaf = true) (hi : n.findSeparator = .ok info) (hs : n.getSep info = .ok sep)
      (hm : n.splitLeaf info.slot sep = .ok (l, r)) : Reached Converted r
  | innerLeft {n l r : BTreeNode π} {c : π} {info : SeparatorInfo} {sep : Bytes} (h : Reached Converted n)
      (hl : n.isLeaf = false) (hi : n.findSeparator = .ok info) (hs : n.getSep info = .ok sep)
      (hm : n.splitInner info.slot sep = .ok (l, c, r)) : Reached Converted l
  | innerRight {n l r : BTreeNode π} {c : π} {info : SeparatorInfo} {sep : Bytes} (h : Reached Converted n)
      (hl : n.isLeaf = false) (hi : n.findSeparator = .ok info) (hs : n.getSep info = .ok sep)
      (hm : n.splitInner info.slot sep = .ok (l, c, r)) : Reached Converted r
  | merged {n right m : BTreeNode π} (h : Reached Converted n) (hr : Reached Converted right)
      (hadj : right.getLowerFence = n.getUpperFence) (hmid : n.getUpperFence ≠ [])
      (hm : n.mergeLeaf right = .ok (some m)) : Reached Converted m

structure Sound (n : BTreeNode π) : Prop where
  wf : WF n
  placed : Placed n

theorem requestSpaceFor_sound {n m : BTreeNode π} (h : Sound n) {k : ℕ} {b : Bool}
    (hm : n.requestSpaceFor k = .ok (b, m)) :
    Sound m ∧ SameContent n m ∧ b = decide (k ≤ n.freeSpaceAfterCompaction) ∧
      (k ≤ n.freeSpaceAfterCompaction → k ≤ m.freeSpace) := by
  obtain ⟨m', hm', hw, hsame, hfree⟩ := requestSpaceFor_spec h.wf k
  have he := hm'.symm.trans hm
  simp only [Except.ok.injEq, Prod.mk.injEq] at he
  obtain ⟨rfl, rfl⟩ := he
  exact ⟨⟨hw, requestSpaceFor_placed h.placed hm⟩, hsame, rfl, hfree⟩

theorem insertChild_sound {n m : BTreeNode π} (h : Sound n) {key : Bytes} {payload : π} {b : Bool}
    (hk : InFences n.getLowerFence n.getUpperFence key) (hm : n.insertChild key payload = .ok (b, m)) :
    Sound m := by
  simp only [insertChild, spaceNeeded, bind_eq_ok, ensure_eq_ok, exists_const, pure_eq_ok, Prod.exists] at hm
  obtain ⟨_, ⟨-, rfl⟩, space, t, ht, hm⟩ := hm
  obtain ⟨hs, hsame, rfl, hfree⟩ := requestSpaceFor_sound h ht
  split_ifs at hm with hroom
  · simp only [bind_eq_ok, pure_eq_ok, Prod.mk.injEq] at hm
    obtain ⟨r, hr, -, rfl⟩ := hm
    rw [← hsame.lower, ← hsame.upper] at hk
    have hnew := insertSlot_eq_ok_new hs.wf hk hr
    have hsp : slotSize + (key.length - t.prefixLength) + Payload.len payload ≤ t.freeSpace := by
      rw [hsame.prefixLength]
      exact hfree (of_decide_eq_true hroom)
    obtain ⟨r', hr', hw, -⟩ := insertSlot_spec hs.wf hk hnew hsp
    obtain rfl : r' = r := Except.ok.inj (hr'.symm.trans hr)
    refine ⟨hw, insertSlot_placed hs.placed ?_ hr⟩
    intro i f hi
    rw [lowerBound_spec hs.wf hk] at hi
    cases hi
    rw [← entries_length, ← List.length_map (f := Prod.fst)]
    exact lowerIndex_le_length _ _
  · simp only [pure_eq_ok, Prod.mk.injEq] at hm
    obtain ⟨-, rfl⟩ := hm
    exact hs

theorem remove_sound {n m : BTreeNode π} (h : Sound n) {key : Bytes} {b : Bool}
    (hk : InFences n.getLowerFence n.getUpperFence key) (hm : n.remove key = .ok (b, m)) : Sound m := by
  simp only [remove, lowerBound_spec h.wf hk, ok_bind] at hm
  split_ifs at hm with hf
  · cases hm
    have hi : lowerIndex (keys n.entries) key < n.count := by
      obtain ⟨j, hj, hjk⟩ := List.mem_iff_getElem.mp (of_decide_eq_true hf)
      rw [← (lowerIndex_of_getElem_eq h.wf.sorted_entries hj hjk).1]
      simpa [keys] using hj
    exact ⟨(removeSlot_spec h.wf hi).1, h.placed.removeSlot _⟩
  · cases hm
    exact h

theorem found_separates {n : BTreeNode π} (h : WF n) {info : SeparatorInfo} {sep : Bytes}
    (hi : n.findSeparator = .ok info) (hs : n.getSep info = .ok sep) (hpos : 0 < info.slot) :
    Separates (keys n.entries) info.slot sep ∧ InFences n.getLowerFence n.getUpperFence sep := by
  have hfound : ∃ t, FoundSeparator n info t := by
    unfold findSeparator at hi
    split_ifs at hi
    · have hc : 1 < n.count := by
        simp only [findSeparatorLeaf, bind_eq_ok, ensure_eq_ok, exists_const] at hi
        exact hi.1
      obtain ⟨info', t, hi', hf⟩ := findSeparatorLeaf_spec h.sorted hc
      obtain rfl : info' = info := Except.ok.inj (hi'.symm.trans hi)
      exact ⟨t, hf⟩
    · have hslot : info.slot = n.count / 2 - 1 := by
        simp only [findSeparatorInner, bind_eq_ok, ensure_eq_ok, exists_const, pure_eq_ok] at hi
        obtain ⟨-, key, -, rfl⟩ := hi
        rfl
      obtain ⟨info', t, hi', hf, -⟩ := findSeparatorInner_spec h.toOrdered (by omega)
      obtain rfl : info' = info := Except.ok.inj (hi'.symm.trans hi)
      exact ⟨t, hf⟩
  obtain ⟨t, hf⟩ := hfound
  obtain rfl : n.getPrefix ++ t = sep := Except.ok.inj (hf.getSep.symm.trans hs)
  obtain ⟨hsep, hin, -⟩ := hf.full h.toOrdered
  exact ⟨hsep, hin⟩

section
omit [Payload π]

theorem splitPages_pos {n l r : BTreeNode π} {slot : ℕ} {sep : Bytes} (h : n.splitPages slot sep = .ok (l, r)) :
    0 < slot := by
  simp only [splitPages, bind_eq_ok, ensure_eq_ok, exists_const] at h
  exact h.1

end

theorem splitLeaf_sound {n l r : BTreeNode π} (h : Sound n) {info : SeparatorInfo} {sep : Bytes}
    (hi : n.findSeparator = .ok info) (hs : n.getSep info = .ok sep)
    (hm : n.splitLeaf info.slot sep = .ok (l, r)) : Sound l ∧ Sound r := by
  have hpos : 0 < info.slot := by
    simp only [splitLeaf, bind_eq_ok, Prod.exists] at hm
    obtain ⟨p, q, hpq, -⟩ := hm
    exact splitPages_pos hpq
  obtain ⟨hsep, hin⟩ := found_separates h.wf hi hs hpos
  obtain ⟨hl, hr⟩ := splitLeaf_spec h.wf hsep hin hm
  obtain ⟨hpl, hpr⟩ := splitLeaf_placed hm
  exact ⟨⟨hl.wf, hpl⟩, hr.wf, hpr⟩

theorem splitInner_sound {n l r : BTreeNode π} {c : π} (h : Sound n) {info : SeparatorInfo} {sep : Bytes}
    (hi : n.findSeparator = .ok info) (hs : n.getSep info = .ok sep)
    (hm : n.splitInner info.slot sep = .ok (l, c, r)) : Sound l ∧ Sound r := by
  have hpos : 0 < info.slot := by
    simp only [splitInner, bind_eq_ok, Prod.exists] at hm
    obtain ⟨p, q, hpq, -⟩ := hm
    exact splitPages_pos hpq
  obtain ⟨hsep, hin⟩ := found_separates h.wf hi hs hpos
  obtain ⟨hl, -, hr⟩ := splitInner_spec h.wf hsep hin hm
  obtain ⟨hpl, hpr⟩ := splitInner_placed hm
  exact ⟨⟨hl.wf, hpl⟩, hr.wf, hpr⟩

theorem mergeLeaf_sound {n right m : BTreeNode π} (h : Sound n) (g : Sound right)
    (hadj : right.getLowerFence = n.getUpperFence) (hmid : n.getUpperFence ≠ [])
    (hm : n.mergeLeaf right = .ok (some m)) : Sound m := by
  have hpage : slotsOffset + n.getLowerFence.length + right.getUpperFence.length ≤ pageSize ∧
      right.isLeaf = n.isLeaf := by
    have hm' := hm
    simp only [mergeLeaf, bind_eq_ok, ensure_eq_ok, exists_const] at hm'
    obtain ⟨p, hp, hleaf, -⟩ := hm'
    exact ⟨(setFences_init_eq_ok.mp hp).1, hleaf⟩
  obtain ⟨res, hres, hh⟩ := mergeLeaf_spec h.wf g.wf hpage.2 hadj hmid hpage.1
  obtain rfl : res = some m := Except.ok.inj (hres.symm.trans hm)
  exact ⟨(hh m rfl).wf, mergeLeaf_placed hm⟩

theorem Reached.sound {Converted : BTreeNode π → Prop} (hc : ∀ n, Converted n → Sound n) {n : BTreeNode π}
    (h : Reached Converted n) : Sound n := by
  induction h with
  | init isLeaf => exact ⟨(init_holds isLeaf).wf, init_placed isLeaf⟩
  | fenced hf hn =>
    have hp := setFences_placed hn
    obtain ⟨hs, rfl⟩ := setFences_init_eq_ok.mp hn
    exact ⟨(fenced_holds _ hf hs).wf, hp⟩
  | converted hn => exact hc _ hn
  | inserted _ hk hm ih => exact insertChild_sound ih hk hm
  | spaced _ hm ih => exact (requestSpaceFor_sound ih hm).1
  | removed _ hk hm ih => exact remove_sound ih hk hm
  | slotRemoved _ hi ih => exact ⟨(removeSlot_spec ih.wf hi).1, ih.placed.removeSlot _⟩
  | compactified _ hm ih =>
    obtain ⟨m', hm', hw, -⟩ := compactify_spec ih.wf
    obtain rfl := Except.ok.inj (hm'.symm.trans hm)
    exact ⟨hw, compactify_placed hm⟩
  | leafLeft _ _ hi hs hm ih => exact (splitLeaf_sound ih hi hs hm).1
  | leafRight _ _ hi hs hm ih => exact (splitLeaf_sound ih hi hs hm).2
  | innerLeft _ _ hi hs hm ih => exact (splitInner_sound ih hi hs hm).1
  | innerRight _ _ hi hs hm ih => exact (splitInner_sound ih hi hs hm).2
  | merged _ _ hadj hmid hm ih₁ ih₂ => exact mergeLeaf_sound ih₁ ih₂ hadj hmid hm

end BTreeNode

theorem DenseNode.convertToBasic_sound {d : DenseNode} (h : DenseNode.WF d) {n : BTreeNode Bytes}
    (hm : d.convertToBasic = .ok n) : n.Sound := by
  refine ⟨(DenseNode.convertToBasic_spec h hm).wf, ?_⟩
  simp only [convertToBasic, copyKeyValueRangeToBasic, copyToBasic_src, bind_eq_ok, ensure_eq_ok, exists_const,
    pure_eq_ok] at hm
  obtain ⟨p, hp, t, ⟨-, -, m, hm, -, rfl⟩, rfl⟩ := hm
  have hpl : p.prefixLength = d.prefixLength := by
    obtain ⟨-, rfl⟩ := BTreeNode.setFences_init_eq_ok.mp hp
    exact h.prefixLen.symm
  have hboth := Outcome.foldlM_keeps (P := fun a => a.Placed ∧ a.prefixLength = d.prefixLength)
    (fun a i hi b ha hb => by
      obtain ⟨ha, hap⟩ := ha
      have hpres := (List.mem_filter.mp hi).2
      have hgrown := copySlot_grown h.toFilled hpres hap hb
      refine ⟨?_, hgrown.prefixLength.trans hap⟩
      simp only [copySlot, bind_eq_ok, ensure_eq_ok, exists_const, pure_eq_ok] at hb
      obtain ⟨hd, rfl⟩ := hb
      have hkey : (d.truncatedKey a.prefixLength i).length = d.fullKeyLen - a.prefixLength := by
        rw [hap, truncatedKey_eq h.toFilled h.prefix_le, List.length_drop, length_slotKey h.toFilled]
      have hval := h.val_len i hpres
      refine ha.append ⟨_, d.truncatedKey a.prefixLength i, d.vals.getD i [], _⟩ ?_ hd rfl rfl rfl rfl rfl
      change (d.truncatedKey a.prefixLength i).length + (d.vals.getD i []).length = _
      rw [hkey, hval]) ⟨BTreeNode.setFences_placed hp, hpl⟩ hm
  exact hboth.1.makeHint

namespace HashNode

theorem copyToBasic_placed {n : HashNode} {p m : BTreeNode Bytes} (h : p.Placed) {i c : ℕ}
    (hm : n.copyKeyValueRangeToBasic p i c = .ok m) : m.Placed := by
  simp only [copyKeyValueRangeToBasic, bind_eq_ok, ensure_eq_ok, exists_const, pure_eq_ok] at hm
  obtain ⟨t, ht, -, rfl⟩ := hm
  refine BTreeNode.Placed.makeHint (Outcome.foldlM_keeps (fun a s _ b ha hb => ?_) h ht)
  simp only [copyKeyValueToBasic, bind_eq_ok, pure_eq_ok] at hb
  obtain ⟨⟨r, u⟩, hst, rfl⟩ := hb
  exact BTreeNode.storeKeyValue_append ha hst

variable [KeyHash]

theorem tryConvertToBasic_sound {n : HashNode} (h : WF n) {m : BTreeNode Bytes}
    (hm : n.tryConvertToBasic = .ok (some m)) : m.Sound := by
  obtain ⟨res, hres, hh⟩ := tryConvertToBasic_spec h
  obtain rfl : res = some m := Except.ok.inj (hres.symm.trans hm)
  refine ⟨(hh m rfl).wf, ?_⟩
  unfold tryConvertToBasic at hm
  split_ifs at hm
  · cases hm
  · simp only [bind_eq_ok, pure_eq_ok, Option.some.injEq] at hm
    obtain ⟨s, -, p, hp, t, ht, rfl⟩ := hm
    exact copyToBasic_placed (BTreeNode.setFences_placed hp) ht

theorem splitToBasic_sound {n : HashNode} (h : WF n) (hc : n.sortedCount = n.count) {info : SeparatorInfo}
    {sep : Bytes} (hi : n.findSeparator = .ok info) (hs : n.getSep info = .ok sep) {l r : BTreeNode Bytes}
    (hr : n.splitToBasic info.slot sep = .ok (l, r)) : l.Sound ∧ r.Sound := by
  have hcount : 1 < n.count := by
    simp only [findSeparator, bind_eq_ok, ensure_eq_ok, exists_const] at hi
    exact hi.1
  have hasc : Ascending (keys n.content) := by
    have ha := h.sorted
    rwa [List.take_of_length_le] at ha
    rw [hc, keys_content_length]
  obtain ⟨info', t, hi', hs', hlaw⟩ := findSeparator_spec hcount hasc
  obtain rfl : info' = info := Except.ok.inj (hi'.symm.trans hi)
  obtain rfl : n.getPrefix ++ t = sep := Except.ok.inj (hs'.symm.trans hs)
  have hlaw' : SeparatorLaw n.getPrefix (keys n.restored) info' (n.getPrefix ++ t) := by
    rw [keys_restored]
    exact hlaw.append
  obtain ⟨hl, hrr⟩ := splitToBasic_spec h hc hlaw' hr
  simp only [splitToBasic, bind_eq_ok, ensure_eq_ok, exists_const, pure_eq_ok, Prod.mk.injEq] at hr
  obtain ⟨-, p, hp, q, hq, m, hm, m', hm', rfl, rfl⟩ := hr
  exact ⟨⟨hl.wf, copyToBasic_placed (BTreeNode.setFences_placed hp) hm⟩,
    hrr.wf, copyToBasic_placed (BTreeNode.setFences_placed hq) hm'⟩

end HashNode

namespace HeadNode
variable {T : HeadType} {γ : Type} [ChildPointer γ]

theorem convertToBasicWithSpace_sound {n : HeadNode T γ} {seps : List Bytes} (h : WF n seps) {k : ℕ}
    {m : InnerNode γ} (hm : n.convertToBasicWithSpace k = .ok (some m)) : m.node.Sound := by
  obtain ⟨res, hres, hh⟩ := convertToBasicWithSpace_spec h k
  obtain rfl : res = some m := Except.ok.inj (hres.symm.trans hm)
  refine ⟨(hh m rfl).1.wf, ?_⟩
  unfold convertToBasicWithSpace at hm
  dsimp only at hm
  split_ifs at hm
  · cases hm
  · cases hm
  · simp only [bind_eq_ok] at hm
    obtain ⟨p, hp, t, ht, hm⟩ := hm
    split at hm
    · cases hm
      have hpl : p.prefixLength = n.prefixLength := by
        obtain ⟨-, rfl⟩ := BTreeNode.setFences_init_eq_ok.mp hp
        exact h.prefixLen.symm
      simp only [copyKeyValueRangeToBasic, bind_eq_ok, ensure_eq_ok, exists_const, pure_eq_ok] at ht
      obtain ⟨-, -, u, hu, -, rfl⟩ := ht
      have hboth := Outcome.foldlM_keeps (P := fun a => a.Placed ∧ a.prefixLength = n.prefixLength)
        (fun a i hi b ha hb => by
          obtain ⟨ha, hap⟩ := ha
          have hslen := h.length_eq
          have hclen := h.children_len
          rw [List.mem_range'_1] at hi
          rw [copySlot_eq h hap (by omega) (by omega)] at hb
          simp only [bind_eq_ok, ensure_eq_ok, exists_const, pure_eq_ok] at hb
          obtain ⟨hd, rfl⟩ := hb
          refine ⟨ha.append ⟨_, getElem seps i (by omega), getElem n.children i (by omega), _⟩ ?_ hd rfl rfl rfl rfl
            rfl, hap⟩
          rw [Slot.size, ChildPointer.len_eq])
        ⟨BTreeNode.setFences_placed hp, hpl⟩ hu
      exact hboth.1.makeHint
    · cases hm

end HeadNode

inductive ConvertedLeaf [KeyHash] : BTreeNode Bytes → Prop
  | dense {d : DenseNode} {n : BTreeNode Bytes} (h : d.WF) (hm : d.convertToBasic = .ok n) : ConvertedLeaf n
  | hash {d : HashNode} {n : BTreeNode Bytes} (h : d.WF) (hm : d.tryConvertToBasic = .ok (some n)) : ConvertedLeaf n
  | hashLeft {d : HashNode} {l r : BTreeNode Bytes} {info : SeparatorInfo} {sep : Bytes} (h : d.WF)
      (hc : d.sortedCount = d.count) (hi : d.findSeparator = .ok info) (hs : d.getSep info = .ok sep)
      (hm : d.splitToBasic info.slot sep = .ok (l, r)) : ConvertedLeaf l
  | hashRight {d : HashNode} {l r : BTreeNode Bytes} {info : SeparatorInfo} {sep : Bytes} (h : d.WF)
      (hc : d.sortedCount = d.count) (hi : d.findSeparator = .ok info) (hs : d.getSep info = .ok sep)
      (hm : d.splitToBasic info.slot sep = .ok (l, r)) : ConvertedLeaf r

inductive ConvertedInner {γ : Type} [ChildPointer γ] : BTreeNode γ → Prop
  | head {T : HeadType} {n : HeadNode T γ} {seps : List Bytes} {k : ℕ} {m : InnerNode γ} (h : n.WF seps)
      (hm : n.convertToBasicWithSpace k = .ok (some m)) : ConvertedInner m.node

theorem ConvertedLeaf.sound [KeyHash] {n : BTreeNode Bytes} (h : ConvertedLeaf n) : n.Sound := by
  cases h with
  | dense h hm => exact DenseNode.convertToBasic_sound h hm
  | hash h hm => exact HashNode.tryConvertToBasic_sound h hm
  | hashLeft h hc hi hs hm => exact (HashNode.splitToBasic_sound h hc hi hs hm).1
  | hashRight h hc hi hs hm => exact (HashNode.splitToBasic_sound h hc hi hs hm).2

theorem ConvertedInner.sound {γ : Type} [ChildPointer γ] {n : BTreeNode γ} (h : ConvertedInner n) : n.Sound := by
  cases h with
  | head h hm => exact HeadNode.convertToBasicWithSpace_sound h hm

namespace BTreeNode
variable {π : Type} [Payload π]

def linearScan (n : BTreeNode π) (key : Bytes) : ℕ × Bool :=
  let slotId := n.slots.findIdx fun s => key ≤ s.key
  (slotId, decide (n.slots[slotId]?.map Slot.key = some key))

/-- The optimised search is the plain one, and the hints sample the heads they stand for. -/
structure SearchExact (n : BTreeNode π) : Prop where
  lowerBound : ∀ key, n.lowerBound (n.getPrefix ++ key) = .ok (n.linearScan key)
  hints : n.slots ≠ [] → ∀ i < hintCount,
    ∃ s, n.slots[n.count / (hintCount + 1) * (i + 1)]? = some s ∧ n.hint[i]? = some s.head

theorem lowerIndex_eq_findIdx (ks : List Bytes) (key : Bytes) :
    lowerIndex ks key = ks.findIdx fun k => key ≤ k := by
  induction ks with
  | nil => rfl
  | cons k ks ih =>
    rw [lowerIndex_cons, List.findIdx_cons, ih]
    by_cases hk : k < key
    · simp [hk, not_le.mpr hk]
    · simp [hk, not_lt.mp hk]

theorem linearScan_eq {n : BTreeNode π} (h : WF n) (key : Bytes) :
    n.linearScan key = (lowerIndex (keys n.content) key, decide (key ∈ keys n.content)) := by
  have hkeys : keys n.content = n.slots.map Slot.key := by
    rw [keys, content, List.map_map]
    rfl
  have hidx : (n.slots.findIdx fun s => key ≤ s.key) = lowerIndex (keys n.content) key := by
    rw [lowerIndex_eq_findIdx, hkeys, List.findIdx_map]
    rfl
  rw [linearScan, hidx, ← List.getElem?_map, ← hkeys]
  refine Prod.ext rfl (decide_eq_decide.mpr ⟨List.mem_of_getElem?, ?_⟩)
  intro hm
  obtain ⟨j, hj, hjk⟩ := List.mem_iff_getElem.mp hm
  rw [← (lowerIndex_of_getElem_eq h.sorted hj hjk).1, List.getElem?_eq_getElem hj, hjk]

theorem WF.searchExact {n : BTreeNode π} (h : WF n) : SearchExact n := by
  refine ⟨?_, ?_⟩
  · intro key
    rw [lowerBound_append h, linearScan_eq h]
  · intro hne i hi
    have hpos : 0 < n.count := List.length_pos_of_ne_nil hne
    have hj : n.count / (hintCount + 1) * (i + 1) < n.slots.length := by
      calc n.count / (hintCount + 1) * (i + 1) ≤ n.count / 17 * 16 := Nat.mul_le_mul_left _ hi
        _ < n.slots.length := by
          change _ < n.count
          omega
    refine ⟨_, List.getElem?_eq_getElem hj, ?_⟩
    rw [h.hints hne, List.getElem?_map, List.getElem?_range hi, Option.map_some, headAt, List.getElem?_eq_getElem hj]
    rfl

structure Layout (n : BTreeNode π) : Prop where
  space : n.spaceUsed = n.getLowerFence.length + n.getUpperFence.length + (n.slots.map Slot.size).sum
  apart : n.regions.Pairwise fun r s => Disjoint r.bytes s.bytes
  inside : ∀ r ∈ n.regions, r.bytes ⊆ Set.Ico n.dataOffset pageSize
  slotsEnd : slotsOffset + slotSize * n.count ≤ n.dataOffset
  fits : slotsOffset + slotSize * n.count + n.spaceUsed ≤ pageSize
  requested : ∀ k, ∃ m, n.requestSpaceFor k = .ok (decide (k ≤ n.freeSpaceAfterCompaction), m) ∧
    SameContent n m ∧ (k ≤ n.freeSpaceAfterCompaction → k ≤ m.freeSpace)
  compacted : ∃ m, n.compactify = .ok m ∧ SameContent n m ∧ m.freeSpace = n.freeSpaceAfterCompaction

theorem Sound.layout {n : BTreeNode π} (h : Sound n) : Layout n where
  space := by
    rw [h.wf.space, entryBytes, content, List.map_map]
    rfl
  apart := h.placed.carved.apart
  inside := h.placed.carved.inside
  slotsEnd := h.wf.room
  fits := by
    have hroom := h.wf.room
    have hfits := h.wf.fits
    omega
  requested := by
    intro k
    obtain ⟨m, hm, -, hsame, hfree⟩ := requestSpaceFor_spec h.wf k
    exact ⟨m, hm, hsame, hfree⟩
  compacted := by
    obtain ⟨m, hm, -, hsame, hfree⟩ := compactify_spec h.wf
    exact ⟨m, hm, hsame, hfree⟩

theorem insertChild_refused {n m : BTreeNode π} (h : WF n) {key : Bytes} {payload : π}
    (hm : n.insertChild key payload = .ok (false, m)) : m = n := by
  simp only [insertChild, spaceNeeded, bind_eq_ok, ensure_eq_ok, exists_const, pure_eq_ok, Prod.exists] at hm
  obtain ⟨_, ⟨-, rfl⟩, space, t, ht, hm⟩ := hm
  have hle : n.freeSpace ≤ n.freeSpaceAfterCompaction := by
    have hfits := h.fits
    simp only [freeSpace, freeSpaceAfterCompaction]
    omega
  unfold requestSpaceFor at ht
  split_ifs at ht with h₁ h₂
  · cases ht
    simp only [if_true, bind_eq_ok, pure_eq_ok, Prod.mk.injEq] at hm
    obtain ⟨_, -, hm, -⟩ := hm
    cases hm
  · simp only [bind_eq_ok, pure_eq_ok, Prod.mk.injEq] at ht
    obtain ⟨u, -, rfl, rfl⟩ := ht
    simp only [if_true, bind_eq_ok, pure_eq_ok, Prod.mk.injEq] at hm
    obtain ⟨_, -, hm, -⟩ := hm
    cases hm
  · cases ht
    simp only [Bool.false_eq_true, if_false, pure_eq_ok, Prod.mk.injEq] at hm
    exact hm.2.symm

theorem insert_refused {n : BTreeNode Bytes} (h : WF n) {enableDense : Bool} {key payload : Bytes} {l : LeafNode}
    (hk : InFences n.getLowerFence n.getUpperFence key) (hnew : key ∉ keys n.entries)
    (hm : n.insert enableDense key payload = .ok (false, l)) : l.entries = n.entries := by
  simp only [insert, spaceNeeded, bind_eq_ok, ensure_eq_ok, exists_const, pure_eq_ok, Prod.exists] at hm
  obtain ⟨_, ⟨-, rfl⟩, space, t, ht, hm⟩ := hm
  obtain ⟨t', ht', hw, hsame, -⟩ := requestSpaceFor_spec h (slotSize + (key.length - n.prefixLength) + payload.length)
  have he := ht'.symm.trans ht
  simp only [Except.ok.injEq, Prod.mk.injEq] at he
  obtain ⟨rfl, rfl⟩ := he
  split_ifs at hm
  · simp only [bind_eq_ok, pure_eq_ok, Prod.mk.injEq] at hm
    obtain ⟨_, -, hm, -⟩ := hm
    cases hm
  · rw [← hsame.entries]
    rw [← hsame.lower, ← hsame.upper] at hk
    rw [← hsame.entries] at hnew
    unfold insertDensified at hm
    split at hm
    · cases hm
      rfl
    · cases hm
    · rename_i s ss hs
      split_ifs at hm with hl
      · simp only [bind_eq_ok] at hm
        obtain ⟨o, ho, hm⟩ := hm
        cases o with
        | none =>
          cases hm
          rfl
        | some d =>
          have hpos := LeafNode.first_key_pos hs hl.1 hnew
          have hd := (DenseNode.densify1_spec hw hs hpos).1 d ho
          obtain ⟨hfl, hvl⟩ := hd.lengths s (hs ▸ List.mem_cons_self)
          have hpk := hw.prefixLength_le_key hk
          have hkd : InFences d.lowerFence d.upperFence key := by rwa [hd.lower, hd.upper]
          have hkl : key.length = d.fullKeyLen := by omega
          have hpl : payload.length = d.valLen := by omega
          simp only [bind_eq_ok, pure_eq_ok, Prod.exists, Prod.mk.injEq] at hm
          obtain ⟨r, d', hd', rfl, rfl⟩ := hm
          rcases DenseNode.insertMatching_spec hd.wf hkd hkl hpl (hd.entries.symm ▸ hnew) with ⟨he, -⟩ | ⟨e, he, -⟩
          · have hdd : d = d' := by
              rw [hd', Except.ok.injEq, Prod.mk.injEq] at he
              exact he.2.symm
            exact hdd ▸ hd.entries
          · cases he.symm.trans hd'
      · cases hm
        rfl

theorem Reached.insert {Converted : BTreeNode Bytes → Prop} {n m : BTreeNode Bytes} (h : Reached Converted n)
    {enableDense b : Bool} {key payload : Bytes} (hk : InFences n.getLowerFence n.getUpperFence key)
    (hm : n.insert enableDense key payload = .ok (b, .basic m)) : Reached Converted m := by
  suffices hinsert : n.insertChild key payload = .ok (b, m) from h.inserted hk hinsert
  simp only [BTreeNode.insert, bind_eq_ok, Prod.exists] at hm
  obtain ⟨needed, hneed, space, t, ht, hm⟩ := hm
  have hneed' : n.spaceNeeded key.length (Payload.len payload) = .ok needed := hneed
  rw [insertChild, hneed', ok_bind, ht, ok_bind]
  dsimp only
  split_ifs at hm ⊢ with hs
  · simp only [bind_eq_ok, pure_eq_ok, Prod.mk.injEq, LeafNode.basic.injEq] at hm
    obtain ⟨r, hr, rfl, rfl⟩ := hm
    rw [hr]
    rfl
  · have hres : b = false ∧ t = m := by
      unfold insertDensified at hm
      split at hm
      · cases hm
        exact ⟨rfl, rfl⟩
      · cases hm
      · split_ifs at hm
        · simp only [bind_eq_ok] at hm
          obtain ⟨o, -, hm⟩ := hm
          cases o with
          | none =>
            cases hm
            exact ⟨rfl, rfl⟩
          | some d =>
            simp only [bind_eq_ok, pure_eq_ok, Prod.exists, Prod.mk.injEq] at hm
            obtain ⟨_, _, -, -, hm⟩ := hm
            cases hm
        · cases hm
          exact ⟨rfl, rfl⟩
    rw [hres.1, hres.2]
    rfl

inductive Change (π : Type)
  | insert (key : Bytes) (payload : π)
  | remove (key : Bytes)
  | compactify

def Change.apply (n : BTreeNode π) : Change π → Except Fault (BTreeNode π)
  | .insert key payload => do
    ensure (InFences n.getLowerFence n.getUpperFence key) .assertion
    let (_, n) ← n.insertChild key payload
    pure n
  | .remove key => do
    ensure (InFences n.getLowerFence n.getUpperFence key) .assertion
    let (_, n) ← n.remove key
    pure n
  | .compactify => n.compactify

theorem Reached.apply {Converted : BTreeNode π → Prop} {n m : BTreeNode π} {change : Change π}
    (h : Reached Converted n) (hm : change.apply n = .ok m) : Reached Converted m := by
  cases change with
  | insert key payload =>
    simp only [Change.apply, bind_eq_ok, ensure_eq_ok, exists_const, pure_eq_ok, Prod.exists] at hm
    obtain ⟨hk, b, t, ht, rfl⟩ := hm
    exact h.inserted hk ht
  | remove key =>
    simp only [Change.apply, bind_eq_ok, ensure_eq_ok, exists_const, pure_eq_ok, Prod.exists] at hm
    obtain ⟨hk, b, t, ht, rfl⟩ := hm
    exact h.removed hk ht
  | compactify => exact h.compactified hm

def changesTo (n : BTreeNode π) (changes : List (Change π)) (check : BTreeNode π → Bool) : Bool :=
  Outcome.passes check (changes.foldlM Change.apply n)

theorem Reached.changesTo {Converted : BTreeNode π → Prop} {n : BTreeNode π} {changes : List (Change π)}
    {check : BTreeNode π → Bool} (h : Reached Converted n) (hc : n.changesTo changes check = true) :
    ∃ m, Reached Converted m ∧ check m = true := by
  obtain ⟨m, hm, hpass⟩ := Outcome.passes_iff.mp hc
  exact ⟨m, Outcome.foldlM_keeps (fun a change _ b ha hb => ha.apply hb) h hm, hpass⟩

end BTreeNode

/-- In every reached basic node, leaf or inner, the search with hints and heads is a linear scan. -/
theorem basic_search_exact [KeyHash] :
    (∀ n : BTreeNode Bytes, n.Reached ConvertedLeaf → n.SearchExact) ∧
      ∀ (γ : Type) [ChildPointer γ] (n : BTreeNode γ), n.Reached ConvertedInner → n.SearchExact := by
  refine ⟨?_, ?_⟩
  · intro n h
    exact (h.sound fun _ hc => hc.sound).wf.searchExact
  · intro γ _ n h
    exact (h.sound fun _ hc => hc.sound).wf.searchExact

def tiedChanges {π : Type} (payload : π) : List (BTreeNode.Change π) :=
  ((List.range 20).flatMap fun k => [.insert [0, 0, 0, 0, Fin.ofNat 256 k] payload, .insert [Fin.ofNat 256 (k + 1)] payload])
    ++ [.remove [7], .remove [0, 0, 0, 0, 5], .compactify, .remove [19]]

def BTreeNode.Tied {π : Type} (n : BTreeNode π) : Prop :=
  n.count = 37 ∧ (n.slots.map Slot.head).take 19 = List.replicate 19 0 ∧ n.hint.take 10 = List.replicate 9 0 ++ [33554432]

instance {π : Type} (n : BTreeNode π) : Decidable n.Tied := inferInstanceAs (Decidable (_ ∧ _ ∧ _))

theorem basic_search_exact_tied :
    let _ : KeyHash := ⟨fun _ => 0⟩
    let _ : ChildPointer Unit := { len := fun _ => pointerSize, len_eq := fun _ => rfl }
    (∃ n : BTreeNode Bytes, n.Tied ∧ n.SearchExact) ∧ ∃ n : BTreeNode Unit, n.Tied ∧ n.SearchExact := by
  intro hash child
  have hleaf : (BTreeNode.init true).changesTo (tiedChanges ([] : Bytes)) (fun n => decide n.Tied) = true := by
    decide +kernel
  have hinner : letI : ChildPointer Unit := { len := fun _ => pointerSize, len_eq := fun _ => rfl }
      (BTreeNode.init false).changesTo (tiedChanges ()) (fun n => decide n.Tied) = true := by
    clear child
    decide +kernel
  obtain ⟨n, hn, htied⟩ := (BTreeNode.Reached.init true).changesTo hleaf
  obtain ⟨p, hp, htied'⟩ := (BTreeNode.Reached.init false).changesTo hinner
  obtain ⟨hexact, hexact'⟩ := @basic_search_exact hash
  exact ⟨⟨n, of_decide_eq_true htied, hexact n hn⟩, p, of_decide_eq_true htied', hexact' Unit p hp⟩

/-- The page of every reached basic node is accounted for, and a refused insertion changes nothing. -/
theorem basic_layout [KeyHash] :
    (∀ n : BTreeNode Bytes, n.Reached ConvertedLeaf → n.Layout ∧
      ∀ (enableDense : Bool) (key payload : Bytes) (l : LeafNode), InFences n.getLowerFence n.getUpperFence key →
        key ∉ keys n.entries → n.insert enableDense key payload = .ok (false, l) → l.entries = n.entries) ∧
      ∀ (γ : Type) [ChildPointer γ] (n : BTreeNode γ), n.Reached ConvertedInner → n.Layout ∧
        ∀ (key : Bytes) (child : γ) (m : BTreeNode γ), n.insertChild key child = .ok (false, m) → m = n := by
  refine ⟨?_, ?_⟩
  · intro n h
    have hs := h.sound fun _ hc => hc.sound
    exact ⟨hs.layout, fun _ _ _ _ hk hnew hm => BTreeNode.insert_refused hs.wf hk hnew hm⟩
  · intro γ _ n h
    have hs := h.sound fun _ hc => hc.sound
    exact ⟨hs.layout, fun _ _ _ hm => BTreeNode.insertChild_refused hs.wf hm⟩

def holedChanges {π : Type} (key : Byte → ℕ → Bytes) (payload : ℕ → π) : List (BTreeNode.Change π) :=
  [.insert (key 0 2) (payload 2), .insert (key 1 1000) (payload 1000), .insert (key 2 1000) (payload 1000),
    .insert (key 3 1000) (payload 1000), .remove (key 2 1000), .insert (key 4 1200) (payload 1200), .remove (key 0 2)]

def BTreeNode.Holed {π : Type} (n : BTreeNode π) : Prop := n.count = 3 ∧ n.freeSpace < n.freeSpaceAfterCompaction

instance {π : Type} (n : BTreeNode π) : Decidable n.Holed := inferInstanceAs (Decidable (_ ∧ _))

theorem basic_layout_holed :
    let _ : KeyHash := ⟨fun _ => 0⟩
    let _ : ChildPointer Unit := { len := fun _ => pointerSize, len_eq := fun _ => rfl }
    let payload : Bytes := List.replicate 1000 0
    (∃ n : BTreeNode Bytes, n.Holed ∧ n.Layout ∧
      ∃ l, n.insert true [5] payload = .ok (false, l) ∧ l.entries = n.entries) ∧
    ∃ n : BTreeNode Unit, n.Holed ∧ n.Layout ∧ n.insertChild (5 :: payload) () = .ok (false, n) := by
  intro hash child payload
  have hleaf : (BTreeNode.init true).changesTo (holedChanges (fun k _ => [k]) fun len => (List.replicate len 0 : Bytes))
      (fun n => decide (n.Holed ∧ n.getLowerFence = [] ∧ n.getUpperFence = [] ∧ [5] ∉ keys n.entries) &&
        match n.insert true [5] (List.replicate 1000 0) with
        | .ok (inserted, _) => !inserted
        | .error _ => false) = true := by
    decide +kernel
  have hinner : letI : ChildPointer Unit := { len := fun _ => pointerSize, len_eq := fun _ => rfl }
      (BTreeNode.init false).changesTo (holedChanges (fun k len => k :: List.replicate len 0) fun _ => ())
      (fun n => decide n.Holed &&
        match n.insertChild (5 :: List.replicate 1000 0) () with
        | .ok (inserted, _) => !inserted
        | .error _ => false) = true := by
    clear child
    decide +kernel
  obtain ⟨n, hn, hcheck⟩ := (BTreeNode.Reached.init true).changesTo hleaf
  obtain ⟨p, hp, hcheck'⟩ := (BTreeNode.Reached.init false).changesTo hinner
  obtain ⟨hlayout, hlayout'⟩ := @basic_layout hash
  obtain ⟨hn, hleft⟩ := hlayout n hn
  obtain ⟨hp, hleft'⟩ := hlayout' Unit p hp
  rw [Bool.and_eq_true, decide_eq_true_eq] at hcheck hcheck'
  obtain ⟨⟨hholed, hlow, hupp, hnew⟩, hrefused⟩ := hcheck
  obtain ⟨hholed', hrefused'⟩ := hcheck'
  refine ⟨⟨n, hholed, hn, ?_⟩, p, hholed', hp, ?_⟩
  · split at hrefused
    · next inserted l hl =>
      obtain rfl : inserted = false := by simpa using hrefused
      exact ⟨l, hl, hleft true [5] payload l ⟨Or.inl hlow, Or.inl hupp⟩ hnew hl⟩
    · cases hrefused
  · split at hrefused'
    · next inserted m hm =>
      obtain rfl : inserted = false := by simpa using hrefused'
      obtain rfl := hleft' _ _ m hm
      exact hm
    · cases hrefused'

end BtreeRedis
