import BtreeRedis.Hash.Adapt
import BtreeRedis.Hash.Merge
import BtreeRedis.Node.Placed

/-!
# Where the hash array and the records of a hash leaf lie

The fences, the hash array and the records of all slots are disjoint regions between
`dataOffset` and the end of the page. A growing hash array is a new region below the heap
and leaves the old one as a hole. A request for space keeps the regions apart, whichever
route it takes.
-/

namespace BtreeRedis

open LexOrder SortedAssoc Outcome

def HashSlot.region (s : HashSlot) : Region := ⟨s.offset, s.key.length + s.payload.length⟩

namespace HashNode

def lowerFenceRegion (n : HashNode) : Region := ⟨pageSize - n.lowerFence.length, n.lowerFence.length⟩

def upperFenceRegion (n : HashNode) : Region :=
  ⟨pageSize - n.lowerFence.length - n.upperFence.length, n.upperFence.length⟩

def hashRegion (n : HashNode) : Region := ⟨n.hashOffset, n.hashCapacity⟩

def regions (n : HashNode) : List Region :=
  n.lowerFenceRegion :: n.upperFenceRegion :: n.hashRegion :: n.slots.map HashSlot.region

structure Placed (n : HashNode) : Prop where
  carved : Region.Carved n.regions n.dataOffset pageSize
  le : n.dataOffset ≤ pageSize

namespace Placed
variable {n m : HashNode}

theorem of_frame (h : Placed n) (hl : m.lowerFence = n.lowerFence) (hu : m.upperFence = n.upperFence)
    (ho : m.hashOffset = n.hashOffset) (hc : m.hashCapacity = n.hashCapacity) (hs : m.slots.Perm n.slots)
    (hd : m.dataOffset = n.dataOffset) : Placed m := by
  refine ⟨?_, hd ▸ h.le⟩
  have hperm := (((hs.symm.map HashSlot.region).cons n.hashRegion).cons n.upperFenceRegion).cons n.lowerFenceRegion
  have hsame : m.regions = n.lowerFenceRegion :: n.upperFenceRegion :: n.hashRegion :: m.slots.map HashSlot.region := by
    rw [regions, lowerFenceRegion, upperFenceRegion, hashRegion, hl, hu, ho, hc]
    rfl
  rw [hsame, hd]
  exact h.carved.perm hperm

theorem push (h : Placed n) {kept : List HashSlot} {s : HashSlot} (hkept : kept.Sublist n.slots)
    (hd : s.key.length + s.payload.length ≤ n.dataOffset)
    (ho : s.offset = n.dataOffset - (s.key.length + s.payload.length)) (hm : m.slots.Perm (s :: kept))
    (hl : m.lowerFence = n.lowerFence) (hu : m.upperFence = n.upperFence) (hh : m.hashOffset = n.hashOffset)
    (hc : m.hashCapacity = n.hashCapacity) (hmd : m.dataOffset = s.offset) : Placed m := by
  obtain ⟨len, hlen⟩ : ∃ len, len = s.key.length + s.payload.length := ⟨_, rfl⟩
  have hsub := h.carved.sublist ((((hkept.map HashSlot.region).cons_cons n.hashRegion).cons_cons
    n.upperFenceRegion).cons_cons n.lowerFenceRegion)
  have hp := hsub.push (hlen ▸ hd : len ≤ n.dataOffset) h.le
  have hr : s.region = ⟨n.dataOffset - len, len⟩ := by rw [HashSlot.region, ho, hlen]
  rw [← hr] at hp
  rw [← hlen] at ho
  refine ⟨?_, by rw [hmd, ho]; exact (Nat.sub_le _ _).trans h.le⟩
  have hsame : m.regions = n.lowerFenceRegion :: n.upperFenceRegion :: n.hashRegion :: m.slots.map HashSlot.region := by
    rw [regions, lowerFenceRegion, upperFenceRegion, hashRegion, hl, hu, hh, hc]
    rfl
  rw [hsame, hmd, ho]
  refine hp.perm ?_
  have hslots := (hm.symm.map HashSlot.region)
  rw [List.map_cons] at hslots
  have hfront : (s.region :: n.lowerFenceRegion :: n.upperFenceRegion :: n.hashRegion ::
      kept.map HashSlot.region).Perm (n.lowerFenceRegion :: n.upperFenceRegion :: n.hashRegion ::
      s.region :: kept.map HashSlot.region) :=
    (List.perm_middle : List.Perm ([_, _, _] ++ _ :: _) _).symm
  refine hfront.trans ?_
  exact ((hslots.cons n.hashRegion).cons n.upperFenceRegion).cons n.lowerFenceRegion

theorem grow (h : Placed n) {capacity : ℕ} (hd : capacity ≤ n.dataOffset) :
    Placed { n with
      dataOffset := n.dataOffset - capacity
      hashOffset := n.dataOffset - capacity
      hashCapacity := capacity } := by
  have hsub : (n.lowerFenceRegion :: n.upperFenceRegion :: n.slots.map HashSlot.region).Sublist n.regions :=
    ((List.sublist_cons_self n.hashRegion _).cons_cons n.upperFenceRegion).cons_cons n.lowerFenceRegion
  refine ⟨?_, (Nat.sub_le _ _).trans h.le⟩
  refine ((h.carved.sublist hsub).push hd h.le).perm ?_
  exact (List.perm_middle : List.Perm ([_, _] ++ _ :: _) _).symm

theorem removeSlot (h : Placed n) (i : ℕ) : Placed (n.removeSlot i) := by
  refine ⟨h.carved.sublist ?_, h.le⟩
  exact ((((List.eraseIdx_sublist n.slots i).map HashSlot.region).cons_cons _).cons_cons _).cons_cons _

theorem hashOffset_le (h : Placed n) (hc : 0 < n.hashCapacity) :
    n.dataOffset ≤ n.hashOffset ∧ n.hashOffset + n.hashCapacity ≤ pageSize := by
  have hin := h.carved.inside n.hashRegion (List.mem_cons_of_mem _ (List.mem_cons_of_mem _ List.mem_cons_self))
  exact (Set.Ico_subset_Ico_iff (Nat.lt_add_of_pos_right hc)).mp hin

end Placed

theorem put_perm {α : Type} (l : List α) (i : ℕ) (a : α) :
    (put l i a).Perm (a :: l.eraseIdx i) := by
  rw [put, List.eraseIdx_eq_take_drop_succ]
  exact List.perm_middle

theorem blank_placed {lower upper : Bytes} {hashCapacity : ℕ} {roc : RangeOpCounter}
    (h : upper.length + lower.length + hashCapacity ≤ pageSize) : Placed (blank lower upper hashCapacity roc) := by
  have h₀ := (Region.Carved.nil pageSize pageSize).push (show lower.length ≤ pageSize by omega) le_rfl
  have h₁ := h₀.push (show upper.length ≤ pageSize - lower.length by omega) (Nat.sub_le _ _)
  have h₂ := h₁.push (show hashCapacity ≤ pageSize - lower.length - upper.length by omega)
    ((Nat.sub_le _ _).trans (Nat.sub_le _ _))
  have hd : pageSize - (upper.length + lower.length) - hashCapacity =
      pageSize - lower.length - upper.length - hashCapacity := by omega
  refine ⟨?_, (Nat.sub_le _ _).trans (Nat.sub_le _ _)⟩
  rw [blank, regions, lowerFenceRegion, upperFenceRegion, hashRegion]
  dsimp only
  rw [hd]
  exact h₂.perm (((List.Perm.swap _ _ _).cons _).trans ((List.Perm.swap _ _ _).trans ((List.Perm.swap _ _ _).cons _)))

section
variable [KeyHash]

section
omit [KeyHash]

theorem init_placed {lower upper : Bytes} {hashCapacity : ℕ} {roc : RangeOpCounter} {n : HashNode}
    (h : init lower upper hashCapacity roc = .ok n) : Placed n := by
  obtain ⟨hs, rfl⟩ := init_eq_ok.mp h
  exact blank_placed hs

theorem storeKeyValue_placed {n m : HashNode} (h : Placed n) {slotId : ℕ} {key payload : Bytes} {hash : Byte}
    (hm : n.storeKeyValue slotId key payload hash = .ok m) : Placed m := by
  simp only [storeKeyValue, bind_eq_ok, ensure_eq_ok, exists_const, pure_eq_ok] at hm
  obtain ⟨-, hd, -, -, rfl⟩ := hm
  exact h.push (s := ⟨_, key.drop n.prefixLength, payload⟩) (List.eraseIdx_sublist n.slots slotId) hd rfl
    (put_perm _ _ _) rfl rfl rfl rfl rfl

end

theorem copyTruncated_placed {diff : ℕ} {dst m : HashNode} {s : HashSlot} (h : Placed dst)
    (hm : copyTruncated diff dst s = .ok m) : Placed m := by
  simp only [copyTruncated, bind_eq_ok, ensure_eq_ok, exists_const, pure_eq_ok] at hm
  obtain ⟨-, hd, -, rfl⟩ := hm
  exact h.push (s := ⟨_, s.key.drop diff, s.payload⟩) (List.Sublist.refl dst.slots) hd rfl
    (List.perm_append_singleton _ _) rfl rfl rfl rfl rfl

theorem copyKeyValueRange_placed {n dst dst' : HashNode} {srcSlot srcCount : ℕ} (h : Placed dst)
    (hm : n.copyKeyValueRange dst srcSlot srcCount = .ok dst') : Placed dst' := by
  simp only [copyKeyValueRange, bind_eq_ok, ensure_eq_ok, exists_const, pure_eq_ok] at hm
  obtain ⟨m, hm, -, rfl⟩ := hm
  unfold copySlots at hm
  split_ifs at hm
  · exact foldlM_keeps (fun a s _ b ha hb => copyTruncated_placed ha hb) h hm
  · exact foldlM_keeps (fun a s _ b ha hb => storeKeyValue_placed ha hb) h hm

theorem compactify_placed {n m : HashNode} {capacity : ℕ} (hm : n.compactify capacity = .ok m) : Placed m := by
  simp only [compactify, bind_eq_ok, ensure_eq_ok, exists_const, pure_eq_ok] at hm
  obtain ⟨p, hp, t, ht, -, rfl⟩ := hm
  exact (copyKeyValueRange_placed (init_placed hp) ht).of_frame rfl rfl rfl rfl (.refl _) rfl

theorem requestSlotAndSpace_placed {n m : HashNode} (h : Placed n) {kvSize : ℕ} {space : Bool}
    (hm : n.requestSlotAndSpace kvSize = .ok (space, m)) : Placed m := by
  unfold requestSlotAndSpace at hm
  split_ifs at hm with hfast
  · cases hm
    exact h
  · rw [bind_eq_ok] at hm
    obtain ⟨estimate, -, hm⟩ := hm
    dsimp only at hm
    split_ifs at hm with hgrow
    · simp only [pure_eq_ok, Prod.mk.injEq] at hm
      obtain ⟨-, rfl⟩ := hm
      refine h.grow ?_
      have hfree : n.freeSpace ≤ n.dataOffset := Nat.sub_le _ _
      omega
    · cases hm
      exact h
    · cases hm
      exact h
    · simp only [bind_eq_ok, pure_eq_ok, Prod.mk.injEq] at hm
      obtain ⟨t, ht, -, rfl⟩ := hm
      exact compactify_placed ht

theorem insertSlot_placed {n m : HashNode} (h : Placed n) {key payload : Bytes}
    (hm : n.insertSlot key payload = .ok m) : Placed m := by
  simp only [insertSlot, bind_eq_ok] at hm
  obtain ⟨index, -, hm⟩ := hm
  cases index with
  | none => exact storeKeyValue_placed h hm
  | some i =>
    simp only [bind_eq_ok, pure_eq_ok] at hm
    obtain ⟨t, ht, rfl⟩ := hm
    exact (storeKeyValue_placed h ht).of_frame rfl rfl rfl rfl (.refl _) rfl

theorem insert_placed {n m : HashNode} (h : Placed n) {c : Config} {key payload : Bytes} {draws draws' : Draws}
    {inserted : Bool} (hm : n.insert c key payload draws = .ok (inserted, m, draws')) : Placed m := by
  simp only [insert, insertCounted, bind_eq_ok, pure_eq_ok, Prod.exists, Prod.mk.injEq] at hm
  obtain ⟨inserted', t, ⟨-, -, -, -, -, -, space, r, hr, hm⟩, -, rfl, -⟩ := hm
  have hcounted : Placed { n with rangeOpCounter := (n.rangeOpCounter.pointOp c draws).2.1 } :=
    h.of_frame rfl rfl rfl rfl (.refl _) rfl
  have hplaced := requestSlotAndSpace_placed hcounted hr
  cases space with
  | true =>
    simp only [if_true, bind_eq_ok, pure_eq_ok, Prod.mk.injEq] at hm
    obtain ⟨u, hu, -, -, -, -, -, rfl⟩ := hm
    exact insertSlot_placed hplaced hu
  | false =>
    simp only [Bool.false_eq_true, if_false, bind_eq_ok, pure_eq_ok, Prod.mk.injEq] at hm
    obtain ⟨-, -, -, rfl⟩ := hm
    exact hplaced

theorem sort_placed {n m : HashNode} (h : Placed n) (hm : n.sort = .ok m) : Placed m := by
  simp only [sort, bind_eq_ok] at hm
  obtain ⟨-, -, hm⟩ := hm
  split_ifs at hm
  · cases hm
    exact h
  · simp only [bind_eq_ok, pure_eq_ok] at hm
    obtain ⟨-, -, rfl⟩ := hm
    exact h.of_frame rfl rfl rfl rfl n.sortedSlots_perm rfl

theorem remove_placed {n m : HashNode} (h : Placed n) {key : Bytes} {removed : Bool}
    (hm : n.remove key = .ok (removed, m)) : Placed m := by
  simp only [remove, bind_eq_ok] at hm
  obtain ⟨-, -, index, -, hm⟩ := hm
  cases index with
  | none =>
    simp only [pure_eq_ok, Prod.mk.injEq] at hm
    exact hm.2 ▸ h
  | some i =>
    simp only [bind_eq_ok, pure_eq_ok, Prod.mk.injEq] at hm
    obtain ⟨-, -, -, rfl⟩ := hm
    exact h.removeSlot i

theorem mergeNodes_placed {n right m : HashNode} (hm : n.mergeNodes right = .ok (some m)) : Placed m := by
  simp only [mergeNodes, bind_eq_ok] at hm
  obtain ⟨leftCapacity, -, rightCapacity, -, p, hp, hm⟩ := hm
  split_ifs at hm
  · cases hm
  · simp only [bind_eq_ok, pure_eq_ok, Option.some.injEq] at hm
    obtain ⟨s, hs, t, ht, -, -, rfl⟩ := hm
    exact copyKeyValueRange_placed (copyKeyValueRange_placed (init_placed hp) hs) ht

theorem splitHash_placed {n l r : HashNode} {slot : ℕ} {sep : Bytes} (h : n.splitHash slot sep = .ok (l, r)) :
    Placed l ∧ Placed r := by
  simp only [splitHash, fillHalves, bind_eq_ok, pure_eq_ok, Prod.mk.injEq] at h
  obtain ⟨-, -, capacity, -, p, hp, q, hq, s, hs, t, ht, -, -, -, -, rfl, rfl⟩ := h
  exact ⟨(copyKeyValueRange_placed (init_placed hp) hs).of_frame rfl rfl rfl rfl (.refl _) rfl,
    (copyKeyValueRange_placed (init_placed hq) ht).of_frame rfl rfl rfl rfl (.refl _) rfl⟩

/-- `m` is `n` with a free slot, a free hash byte and `kvSize` free bytes, its hash array apart from all else. -/
structure Promised (n m : HashNode) (kvSize : ℕ) : Prop where
  slot : m.count < m.hashCapacity
  space : kvSize + hashSlotSize ≤ m.freeSpace
  behind : m.slotsEnd ≤ m.hashOffset
  inPage : m.hashOffset + m.hashCapacity ≤ pageSize
  records : ∀ s ∈ m.slots, Disjoint m.hashRegion.bytes s.region.bytes
  fences : Disjoint m.lowerFenceRegion.bytes m.hashRegion.bytes ∧
    Disjoint m.upperFenceRegion.bytes m.hashRegion.bytes
  moved : Moved n m
  placed : Placed m

/-- Every route of a granted request ends with the same promise; a refused one changes nothing. -/
theorem requestSlotAndSpace_promise {n : HashNode} (h : WF n) (hp : Placed n) (kvSize : ℕ) :
    (∃ capacity, n.estimateCapacity = .ok capacity ∧ n.count ≤ capacity) ∧
    ∃ space m, n.requestSlotAndSpace kvSize = .ok (space, m) ∧
      (space = true → Promised n m kvSize) ∧ (space = false → m = n) := by
  obtain ⟨capacity, hcapacity, hle, -⟩ := count_le_estimate h
  obtain ⟨space, m, hm, hmoved, hgranted, hrefused⟩ := requestSlotAndSpace_spec h kvSize
  refine ⟨⟨capacity, hcapacity, hle⟩, space, m, hm, fun hs => ?_, hrefused⟩
  obtain ⟨hslot, hspace⟩ := hgranted hs
  have hplaced := requestSlotAndSpace_placed hp hm
  obtain ⟨hlow, hhigh⟩ := hplaced.hashOffset_le (Nat.zero_lt_of_lt hslot)
  have hapart := hplaced.carved.apart
  rw [regions, List.pairwise_cons, List.pairwise_cons, List.pairwise_cons] at hapart
  obtain ⟨hlower, hupper, hhash, -⟩ := hapart
  refine ⟨hslot, hspace, hmoved.wf.room.trans hlow, hhigh, fun s hs => hhash _ (List.mem_map_of_mem hs), ⟨?_, ?_⟩,
    hmoved, hplaced⟩
  · exact hlower _ (List.mem_cons_of_mem _ List.mem_cons_self)
  · exact hupper _ List.mem_cons_self

end

/-- A leaf with one entry whose hash array is full. -/
theorem requestSlotAndSpace_promise_full :
    let _ : KeyHash := ⟨fun _ => 0⟩
    let leaf : HashNode := {
      rangeOpCounter := RangeOpCounter.fresh, sortedCount := 0, spaceUsed := 2, dataOffset := 4093
      prefixLength := 0, hashCapacity := 1, hashOffset := 4095, lowerFence := [], upperFence := []
      slots := [⟨4093, [97], [1]⟩], hashes := [0] }
    (∃ capacity, leaf.estimateCapacity = .ok capacity ∧ leaf.count ≤ capacity) ∧
      ∃ space m, leaf.requestSlotAndSpace 3 = .ok (space, m) ∧
        (space = true → Promised leaf m 3) ∧ (space = false → m = leaf) := by
  intro _ leaf
  have hwf : WF leaf := by
    refine ⟨⟨rfl, by decide, by decide, by decide⟩, ⟨by decide, Or.inl rfl, List.nodup_singleton _, ?_, rfl,
      List.Pairwise.nil, Nat.zero_le _⟩⟩
    intro e he
    rw [List.mem_singleton.mp he]
    exact ⟨Or.inr (by decide), Or.inl rfl⟩
  have hplaced : Placed leaf := by
    have hrecord := ((Region.Carved.nil 4096 4096).push (show 1 ≤ 4096 by decide) le_rfl).push
      (show 2 ≤ 4096 - 1 by decide) (by decide)
    exact ⟨((hrecord.perm (List.Perm.swap _ _ _)).cons_empty _).cons_empty _, by decide⟩
  exact requestSlotAndSpace_promise hwf hplaced 3

end HashNode

end BtreeRedis
