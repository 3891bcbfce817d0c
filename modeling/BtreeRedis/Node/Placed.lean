import BtreeRedis.Lib.Outcome
import BtreeRedis.Lib.Region
import BtreeRedis.Node.Merge
import BtreeRedis.Node.Update

/-!
# Where the records of a basic node lie

The fences and the records of all slots are disjoint regions between `dataOffset` and the
end of the page. Storing takes the next region below the heap; removing gives one back and
leaves a hole; rebuilding a page carves it anew.
-/

namespace BtreeRedis

open LexOrder SortedAssoc

namespace FenceKeySlot

def region (f : FenceKeySlot) : Region := ⟨f.offset, f.key.length⟩

end FenceKeySlot

namespace BTreeNode
variable {π : Type} [Payload π]

def slotRegion (s : Slot π) : Region := ⟨s.offset, s.size⟩

def regions (n : BTreeNode π) : List Region :=
  n.lowerFence.region :: n.upperFence.region :: n.slots.map slotRegion

structure Placed (n : BTreeNode π) : Prop where
  carved : Region.Carved n.regions n.dataOffset pageSize
  le : n.dataOffset ≤ pageSize

namespace Placed
variable {n m : BTreeNode π}

theorem of_frame (h : Placed n) (hl : m.lowerFence = n.lowerFence) (hu : m.upperFence = n.upperFence)
    (hs : m.slots = n.slots) (hd : m.dataOffset = n.dataOffset) : Placed m := by
  refine ⟨?_, hd ▸ h.le⟩
  rw [regions, hl, hu, hs, hd]
  exact h.carved

theorem makeHint (h : Placed n) : Placed n.makeHint := h.of_frame rfl rfl rfl rfl

theorem updateHint (h : Placed n) (i : ℕ) : Placed (n.updateHint i) := h.of_frame rfl rfl rfl rfl

theorem removeSlot (h : Placed n) (i : ℕ) : Placed (n.removeSlot i) := by
  refine ⟨h.carved.sublist ?_, h.le⟩
  exact (((List.eraseIdx_sublist n.slots i).map slotRegion).cons_cons _).cons_cons _

theorem insertSlot_at (h : Placed n) (s : Slot π) {i : ℕ} (hi : i ≤ n.count) (hd : s.size ≤ n.dataOffset)
    (ho : s.offset = n.dataOffset - s.size) (hm : m.slots = n.slots.insertIdx i s)
    (hl : m.lowerFence = n.lowerFence) (hu : m.upperFence = n.upperFence) (hmd : m.dataOffset = n.dataOffset - s.size) :
    Placed m := by
  have hp := h.carved.push hd h.le
  have hr : slotRegion s = ⟨n.dataOffset - s.size, s.size⟩ := by rw [slotRegion, ho]
  refine ⟨?_, hmd ▸ (Nat.sub_le _ _).trans h.le⟩
  rw [hmd]
  refine hp.perm ?_
  rw [← hr, regions, regions, hl, hu, hm, List.map_insertIdx]
  have hins : (slotRegion s :: n.slots.map slotRegion).Perm ((n.slots.map slotRegion).insertIdx i (slotRegion s)) :=
    (List.perm_insertIdx _ _ (by rw [List.length_map]; exact hi)).symm
  refine ((List.Perm.swap _ _ _).trans ((List.Perm.swap _ _ _).cons _)).trans ?_
  exact (hins.cons _).cons _

theorem append (h : Placed n) (s : Slot π) {space : ℕ} (hs : s.size = space) (hd : space ≤ n.dataOffset)
    (ho : s.offset = n.dataOffset - space) (hm : m.slots = n.slots ++ [s]) (hl : m.lowerFence = n.lowerFence)
    (hu : m.upperFence = n.upperFence) (hmd : m.dataOffset = n.dataOffset - space) : Placed m := by
  subst hs
  exact h.insertSlot_at s le_rfl hd ho (by rw [hm, count, List.insertIdx_length_self]) hl hu hmd

end Placed

theorem fenced_placed (isLeaf : Bool) {lower upper : Bytes} (h : lower.length + upper.length ≤ pageSize) :
    Placed (fenced isLeaf lower upper : BTreeNode π) := by
  have h₀ := (Region.Carved.nil pageSize pageSize).push (show lower.length ≤ pageSize by omega) le_rfl
  have h₁ := h₀.push (show upper.length ≤ pageSize - lower.length by omega) (Nat.sub_le _ _)
  refine ⟨h₁.perm (List.Perm.swap _ _ _), ?_⟩
  exact (Nat.sub_le _ _).trans (Nat.sub_le _ _)

theorem init_placed (isLeaf : Bool) : Placed (init isLeaf : BTreeNode π) :=
  ⟨((Region.Carved.nil pageSize pageSize).cons_empty 0).cons_empty 0, le_rfl⟩

theorem setFences_placed {isLeaf : Bool} {lower upper : Bytes} {p : BTreeNode π}
    (h : (init isLeaf).setFences lower upper = .ok p) : Placed p := by
  obtain ⟨hs, rfl⟩ := setFences_init_eq_ok.mp h
  exact fenced_placed isLeaf (by simp only [slotsOffset] at hs; omega)

theorem storeKeyValue_append {dst m : BTreeNode π} (h : Placed dst) {slotId : ℕ} {key : Bytes} {payload : π}
    {t : Slot π} (hst : dst.storeKeyValue slotId key payload = .ok (m, t)) :
    Placed { m with slots := m.slots ++ [t] } := by
  simp only [storeKeyValue, bind_eq_ok, ensure_eq_ok, exists_const, pure_eq_ok, Prod.mk.injEq] at hst
  obtain ⟨-, hd, -, rfl, rfl⟩ := hst
  exact h.append ⟨_, key.drop dst.prefixLength, payload, _⟩ rfl hd rfl rfl rfl rfl rfl

theorem copySlots_placed {n dst dst' : BTreeNode π} {src : List (Slot π)} (h : Placed dst)
    (hm : n.copySlots dst src = .ok dst') : Placed dst' := by
  unfold copySlots at hm
  split_ifs at hm
  · refine Outcome.foldlM_keeps (fun a s _ b ha hb => ?_) h hm
    simp only [copyTruncated, bind_eq_ok, ensure_eq_ok, exists_const, pure_eq_ok] at hb
    obtain ⟨-, hd, rfl⟩ := hb
    exact ha.append ⟨_, s.key.drop _, s.payload, _⟩ rfl hd rfl rfl rfl rfl rfl
  · refine Outcome.foldlM_keeps (fun a s _ b ha hb => ?_) h hm
    simp only [copyKeyValue, bind_eq_ok, pure_eq_ok] at hb
    obtain ⟨⟨m, t⟩, hst, rfl⟩ := hb
    exact storeKeyValue_append ha hst

theorem copyKeyValueRange_placed {n dst dst' : BTreeNode π} {srcSlot srcCount : ℕ} (h : Placed dst)
    (hm : n.copyKeyValueRange dst srcSlot srcCount = .ok dst') : Placed dst' := by
  simp only [copyKeyValueRange, bind_eq_ok, ensure_eq_ok, exists_const, pure_eq_ok] at hm
  obtain ⟨m, hm, -, rfl⟩ := hm
  exact copySlots_placed h hm

theorem compactify_placed {n m : BTreeNode π} (hm : n.compactify = .ok m) : Placed m := by
  simp only [compactify, bind_eq_ok, ensure_eq_ok, exists_const, pure_eq_ok] at hm
  obtain ⟨p, hp, t, ht, -, rfl⟩ := hm
  exact (copyKeyValueRange_placed (setFences_placed hp) ht).makeHint

theorem requestSpaceFor_placed {n m : BTreeNode π} (h : Placed n) {k : ℕ} {b : Bool}
    (hm : n.requestSpaceFor k = .ok (b, m)) : Placed m := by
  unfold requestSpaceFor at hm
  split_ifs at hm
  · cases hm
    exact h
  · simp only [bind_eq_ok, pure_eq_ok, Prod.mk.injEq] at hm
    obtain ⟨t, ht, -, rfl⟩ := hm
    exact compactify_placed ht
  · cases hm
    exact h

theorem insertSlot_placed {n m : BTreeNode π} (h : Placed n) {key : Bytes} {payload : π}
    (hle : ∀ i f, n.lowerBound key = .ok (i, f) → i ≤ n.count) (hm : n.insertSlot key payload = .ok m) :
    Placed m := by
  simp only [insertSlot, storeKeyValue, bind_eq_ok, ensure_eq_ok, exists_const, pure_eq_ok, Prod.exists,
    Prod.mk.injEq] at hm
  obtain ⟨i, f, hi, -, t, s, ⟨-, hd, -, rfl, rfl⟩, rfl⟩ := hm
  refine Placed.updateHint ?_ i
  exact h.insertSlot_at ⟨_, key.drop n.prefixLength, payload, _⟩ (hle i f hi) hd rfl rfl rfl rfl rfl

theorem splitPages_placed {n l r : BTreeNode π} {slot : ℕ} {sep : Bytes} (h : n.splitPages slot sep = .ok (l, r)) :
    Placed l ∧ Placed r := by
  simp only [splitPages, bind_eq_ok, ensure_eq_ok, exists_const, pure_eq_ok, Prod.mk.injEq] at h
  obtain ⟨-, -, p, hp, q, hq, rfl, rfl⟩ := h
  exact ⟨setFences_placed hp, setFences_placed hq⟩

theorem splitLeaf_placed {n l r : BTreeNode π} {slot : ℕ} {sep : Bytes} (h : n.splitLeaf slot sep = .ok (l, r)) :
    Placed l ∧ Placed r := by
  simp only [splitLeaf, bind_eq_ok, pure_eq_ok, Prod.exists, Prod.mk.injEq] at h
  obtain ⟨p, q, hpq, s, hs, t, ht, rfl, rfl⟩ := h
  obtain ⟨hp, hq⟩ := splitPages_placed hpq
  exact ⟨(copyKeyValueRange_placed hp hs).makeHint, (copyKeyValueRange_placed hq ht).makeHint⟩

theorem splitInner_placed {n l r : BTreeNode π} {slot : ℕ} {sep : Bytes} {c : π}
    (h : n.splitInner slot sep = .ok (l, c, r)) : Placed l ∧ Placed r := by
  simp only [splitInner, bind_eq_ok, Prod.exists] at h
  obtain ⟨p, q, hpq, s, hs, t, ht, h⟩ := h
  obtain ⟨hp, hq⟩ := splitPages_placed hpq
  split at h
  · simp only [pure_eq_ok, Prod.mk.injEq] at h
    obtain ⟨rfl, -, rfl⟩ := h
    exact ⟨(copyKeyValueRange_placed hp hs).makeHint, (copyKeyValueRange_placed hq ht).makeHint⟩
  · cases h

theorem mergeLeaf_placed {n right m : BTreeNode π} (h : n.mergeLeaf right = .ok (some m)) : Placed m := by
  simp only [mergeLeaf, bind_eq_ok, ensure_eq_ok, exists_const] at h
  obtain ⟨p, hp, -, h⟩ := h
  split_ifs at h
  · cases h
  · simp only [bind_eq_ok, pure_eq_ok, Option.some.injEq] at h
    obtain ⟨s, hs, t, ht, rfl⟩ := h
    exact (copyKeyValueRange_placed (copyKeyValueRange_placed (setFences_placed hp) hs) ht).makeHint

end BTreeNode

end BtreeRedis
