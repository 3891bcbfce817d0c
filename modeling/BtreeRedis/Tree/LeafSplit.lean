import BtreeRedis.Tree.Leaf

/-!
# Removing from a leaf and splitting it

A basic leaf always splits at a separator between its fences. A dense leaf splits at the
key of its last array slot, which the source takes without looking at it: the number may
exceed the bytes it is stored in, and the key may lie above the upper fence.
`BoundaryOk` excludes both.
-/

namespace BtreeRedis

open LexOrder SortedAssoc

namespace LeafNode
variable {enableDense : Bool}

theorem remove_spec {l : LeafNode} {lower upper key : Bytes} (h : Inv enableDense l lower upper)
    (hk : InFences lower upper key) :
    (key ∉ keys l.entries ∧ l.remove key = .ok (false, l)) ∨
    ∃ l', l.remove key = .ok (true, l') ∧ Inv enableDense l' lower upper ∧ Removed key l.entries l'.entries := by
  have hkl : InFences l.lowerFence l.upperFence key := by rwa [h.lowerFence, h.upperFence]
  cases l with
  | basic n =>
    have hlb := BTreeNode.lowerBound_spec h.kind.1 hkl
    by_cases hm : key ∈ keys n.entries
    · right
      obtain ⟨i, hi, hik⟩ := List.mem_iff_getElem.mp hm
      have hidx := (BTreeNode.lowerIndex_of_getElem_eq h.kind.1.sorted_entries hi hik).1
      have hin : i < n.entries.length := by simpa [keys] using hi
      obtain ⟨hw, hl, hlow, hupp, -, hent⟩ :=
        BTreeNode.removeSlot_spec h.kind.1 (i := i) (by simpa using hin)
      have hrem : Removed key n.entries (n.removeSlot i).entries := by
        rw [hent]
        refine removed_eraseIdx hin ?_
        rw [← hik]
        simp [keys]
      refine ⟨.basic (n.removeSlot i), ?_, ⟨⟨hw, hl.trans h.kind.2⟩, hlow.trans h.lowerFence,
        hupp.trans h.upperFence, h.lower_len, h.upper_len,
        fun e he => h.entry_len e (hrem.mem_of_mem he)⟩, hrem⟩
      simp only [remove, BTreeNode.remove, hlb, ok_bind, decide_eq_true hm, ← hidx]
      rfl
    · refine Or.inl ⟨hm, ?_⟩
      simp only [remove, BTreeNode.remove, hlb, ok_bind, decide_eq_false hm]
      rfl
  | dense d =>
    rcases DenseNode.remove_spec h.kind.1 hkl with ⟨hm, he⟩ | ⟨e, he, hw, hf, hrem⟩
    · exact Or.inl ⟨hm, by rw [remove, he]; rfl⟩
    · refine Or.inr ⟨.dense e, by rw [remove, he]; rfl, ⟨⟨hw, ?_, ?_⟩, ?_, ?_, h.lower_len,
        h.upper_len, fun x hx => h.entry_len x (hrem.mem_of_mem hx)⟩, hrem⟩
      · rw [hf.slotCount]
        exact h.kind.2.1
      · rw [hf.fullKeyLen, hf.valLen]
        exact h.kind.2.2
      · exact hf.lower.trans h.lowerFence
      · exact hf.upper.trans h.upperFence

end LeafNode

/-- The last array number fits into the numeric part, and its key is no higher than the upper
fence. -/
def DenseNode.BoundaryOk (d : DenseNode) : Prop :=
  d.arrayStart + d.slotCount ≤ 256 ^ computeNumericPartLen d.fullKeyLen ∧
    (d.upperFence = [] ∨ d.fullBoundary ≤ d.upperFence)

instance (d : DenseNode) : Decidable d.BoundaryOk := inferInstanceAs (Decidable (_ ∧ _))

def LeafNode.BoundaryOk : LeafNode → Prop
  | .basic _ => True
  | .dense d => d.BoundaryOk

instance : (l : LeafNode) → Decidable l.BoundaryOk
  | .basic _ => inferInstanceAs (Decidable True)
  | .dense d => inferInstanceAs (Decidable d.BoundaryOk)

namespace DenseNode
variable {enableDense : Bool}

theorem lastIndex_eq {d : DenseNode} (h : d.WF) (hs : 0 < d.slotCount) :
    d.lastIndex = d.slotCount - 1 := by
  have hslots := h.slots
  simp only [lastIndex, numericRange]
  omega

theorem arrayStart_eq {d : DenseNode} (h : d.WF) :
    d.arrayStart = getNumericPart d.lowerFence d.fullKeyLen +
      if d.fullKeyLen ≤ d.lowerFence.length then 1 else 0 := by
  have hstart := h.start
  simp only [leastGreaterKey, bind_eq_ok, ensure_eq_ok, exists_const, pure_eq_ok] at hstart
  exact hstart.2.symm

structure Separating (d : DenseNode) : Prop where
  inFences : InFences d.lowerFence d.upperFence d.fullBoundary
  le_boundary : ∀ i, d.present i = true → d.slotKey i ≤ d.fullBoundary

theorem length_fullBoundary {d : DenseNode} (h : d.WF) : d.fullBoundary.length = d.fullKeyLen :=
  length_slotKey h.toFilled d.lastIndex

theorem BoundaryOk.separating {d : DenseNode} (hb : d.BoundaryOk) (h : d.WF) (hs : 0 < d.slotCount) :
    Separating d := by
  have hlast := lastIndex_eq h hs
  have hrange : d.InRange d.lastIndex := by
    have := hb.1
    rw [InRange, hlast]
    omega
  have hlow : d.lowerFence < d.fullBoundary := by
    rw [fullBoundary, slotKey, lt_iff_leastGreaterKey h.lower_len (length_restoreKey h.lower_len _)
      (take_restoreKey h.lower_len _).symm, ← arrayStart_eq h,
      getNumericPart_restoreKey h.lower_len hrange]
    exact Nat.le_add_right _ _
  refine ⟨⟨Or.inr hlow, hb.2⟩, fun i hi => ?_⟩
  have hil := h.present_lt i hi
  rcases Nat.lt_or_ge i d.lastIndex with hlt | hge
  · exact (d.slotKey_lt hlt hrange).le
  · have hi : i = d.lastIndex := by omega
    rw [hi]
    exact le_rfl

theorem changeUpperFence_inv {d e : DenseNode} {lower upper : Bytes}
    (h : LeafNode.Inv enableDense (.dense d) lower upper) (hb : d.Separating)
    (he : d.changeUpperFence d.fullBoundary = .ok e) :
    LeafNode.Inv enableDense (.dense e) lower d.fullBoundary ∧ e.entries = d.entries := by
  have hw := h.kind.1
  have hlen := length_fullBoundary hw
  simp only [changeUpperFence, bind_eq_ok, ensure_eq_ok, exists_const, pure_eq_ok] at he
  obtain ⟨-, rfl⟩ := he
  have hfull := h.kind.2.2.1
  refine ⟨⟨⟨⟨⟨hw.full_pos, hw.lower_len, hw.start, rfl, ?_, Or.inr hb.inFences.lower_le, hw.slots, hw.mask_len,
    hw.vals_len, hw.present_lt, hw.inRange, ?_, hw.val_len⟩, hw.occupied⟩, h.kind.2⟩, h.lowerFence, rfl,
    h.lower_len, ?_, h.entry_len⟩, rfl⟩
  · exact (commonPrefixLength_le_right _ _).trans hlen.le
  · exact fun i hi => ⟨(hw.inFences i hi).1, Or.inr (hb.le_boundary i hi)⟩
  · omega

theorem changeLowerFence_inv {d r : DenseNode} {lower upper : Bytes}
    (h : LeafNode.Inv enableDense (.dense d) lower upper) (hb : d.Separating)
    (hr : d.changeLowerFence d.fullBoundary d.upperFence = .ok r) :
    LeafNode.Inv enableDense (.dense r) d.fullBoundary upper ∧ r.entries = [] := by
  have hw := h.kind.1
  have hin := hb.inFences
  have hlen := length_fullBoundary hw
  simp only [changeLowerFence, bind_eq_ok, ensure_eq_ok, exists_const, pure_eq_ok] at hr
  obtain ⟨slots, hslots, -, start, hstart, rfl⟩ := hr
  have hfull := h.kind.2.2.1
  have hupper : d.upperFence = upper := h.upperFence
  have hul := h.upper_len
  have hroom : maskOffset + maskBytesPerWord + d.valLen ≤
      fencesStart d.fullBoundary.length d.upperFence.length d.fullKeyLen := by
    rw [hlen, hupper, fencesStart]
    simp only [maxKVSize, maskOffset, maskBytesPerWord, pageSize, headerSize, slotSize] at hfull hul ⊢
    omega
  have hempty := entries_blank d.fullKeyLen start d.valLen slots d.fullBoundary d.upperFence
    (commonPrefixLength d.fullBoundary d.upperFence)
  refine ⟨⟨⟨blank_wf d.valLen hw.full_pos (by omega) hstart ?_ (hin.2.imp id id) ?_, ?_, h.kind.2.2⟩, rfl, hupper, ?_,
    h.upper_len, fun e he => ?_⟩, hempty⟩
  · exact (commonPrefixLength_le_left _ _).trans hlen.le
  · exact computeSlotCount_lt (fencesStart_le _ _ _) hslots
  · exact computeSlotCount_pos hroom hslots
  · omega
  · change e ∈ DenseNode.entries _ at he
    rw [hempty] at he
    exact absurd he List.not_mem_nil

theorem splitRight_inv {d : DenseNode} {lower upper : Bytes} {right : LeafNode} {splitToSelf : Bool}
    (h : LeafNode.Inv enableDense (.dense d) lower upper) (hb : d.Separating)
    (hr : d.splitRight splitToSelf = .ok right) :
    right.Inv enableDense d.fullBoundary upper ∧ right.entries = [] := by
  have hin := hb.inFences
  have hlen := length_fullBoundary h.kind.1
  have hupp : d.upperFence = upper := h.upperFence
  have hfull := h.kind.2.2.1
  cases splitToSelf with
  | true =>
    simp only [splitRight, bind_eq_ok, pure_eq_ok] at hr
    obtain ⟨r, hr, rfl⟩ := hr
    exact changeLowerFence_inv h hb hr
  | false =>
    simp only [splitRight, bind_eq_ok, pure_eq_ok] at hr
    obtain ⟨r, hr, rfl⟩ := hr
    obtain ⟨hs, rfl⟩ := BTreeNode.setFences_init_eq_ok.mp hr
    have hh := BTreeNode.fenced_holds (π := Bytes) true
      (show FencesOrdered d.fullBoundary d.upperFence from hin.2.imp id id) hs
    rw [hupp] at hh ⊢
    exact ⟨LeafNode.Inv.of_holds hh (by omega) h.upper_len fun e he => absurd he List.not_mem_nil,
      hh.entries⟩

theorem splitNode1_halves {d left : DenseNode} {lower upper key : Bytes} {right : LeafNode}
    (h : LeafNode.Inv enableDense (.dense d) lower upper) (hb : d.Separating)
    (hr : d.splitNode1 key = .ok (left, right)) :
    Halves (LeafNode.Inv enableDense) LeafNode.entries d.entries lower upper d.fullBoundary (.dense left) right := by
  have hin := hb.inFences
  have hlen := length_fullBoundary h.kind.1
  have hlow : d.lowerFence = lower := h.lowerFence
  have hupp : d.upperFence = upper := h.upperFence
  have hfull := h.kind.2.2.1
  have hpos := h.kind.1.full_pos
  simp only [splitNode1, bind_eq_ok, pure_eq_ok, Prod.mk.injEq] at hr
  obtain ⟨r, -, right', hr', left', hl, rfl, rfl⟩ := hr
  obtain ⟨hli, hle⟩ := changeUpperFence_inv h hb hl
  obtain ⟨hri, hre⟩ := splitRight_inv h hb hr'
  refine ⟨hlow ▸ hupp ▸ hin, ?_, by omega, hli, hri, ?_⟩
  · exact fun hn => by simp [hn] at hlen; omega
  · change left'.entries ++ right'.entries = d.entries
    rw [hle, hre, List.append_nil]

end DenseNode

theorem LeafNode.split_halves {enableDense : Bool} {l left right : LeafNode} {lower upper key sep : Bytes}
    (h : Inv enableDense l lower upper) (hb : l.BoundaryOk) (hr : l.split key = .ok (sep, left, right)) :
    Halves (Inv enableDense) entries l.entries lower upper sep left right := by
  cases l with
  | dense d =>
    simp only [split, bind_eq_ok, Prod.exists, pure_eq_ok, Prod.mk.injEq] at hr
    obtain ⟨left', right', hs, rfl, rfl, rfl⟩ := hr
    exact DenseNode.splitNode1_halves h (DenseNode.BoundaryOk.separating hb h.kind.1 h.kind.2.1) hs
  | basic n =>
    have hw := h.kind.1
    have hlow : n.getLowerFence = lower := h.lowerFence
    have hupp : n.getUpperFence = upper := h.upperFence
    simp only [split, bind_eq_ok, Prod.exists, pure_eq_ok, Prod.mk.injEq] at hr
    obtain ⟨info, hinfo, sep', hsep, a, b, hab, rfl, rfl, rfl⟩ := hr
    rw [BTreeNode.findSeparator, h.kind.2, if_pos rfl] at hinfo
    have hcount : 1 < n.count := by
      have hi := hinfo
      simp only [BTreeNode.findSeparatorLeaf, bind_eq_ok, ensure_eq_ok, exists_const] at hi
      exact hi.1
    obtain ⟨info', t, hinfo', hfound⟩ := BTreeNode.findSeparatorLeaf_spec hw.sorted hcount
    rw [hinfo] at hinfo'
    cases hinfo'
    rw [hfound.getSep] at hsep
    cases hsep
    obtain ⟨hseps, hin, hne, -⟩ := hfound.full hw.toOrdered
    obtain ⟨hl, hr⟩ := BTreeNode.splitLeaf_spec hw hseps hin hab
    have hlen : (n.getPrefix ++ t).length ≤ maxKVSize := by
      obtain ⟨k, hk, hpre⟩ := hfound.isPrefix
      obtain ⟨e, he, rfl⟩ := List.mem_map.mp (List.mem_of_getElem? hk)
      have hent := h.entry_len (n.getPrefix ++ e.1, e.2) (List.mem_map_of_mem he)
      have hple := hpre.length_le
      rw [List.length_append] at hent ⊢
      omega
    rw [h.kind.2, hlow] at hl
    rw [h.kind.2, hupp] at hr
    rw [hlow, hupp] at hin
    refine ⟨hin, hne, hlen, Inv.of_holds hl h.lower_len hlen fun e he => ?_,
      Inv.of_holds hr hlen h.upper_len fun e he => ?_, ?_⟩
    · exact h.entry_len e (List.mem_of_mem_take he)
    · exact h.entry_len e (List.mem_of_mem_drop he)
    · change a.entries ++ b.entries = n.entries
      rw [hl.entries, hr.entries, List.take_append_drop]

end BtreeRedis
