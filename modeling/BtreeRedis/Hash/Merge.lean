import BtreeRedis.Hash.Update
import BtreeRedis.Node.Merge

/-!
# Removing from a hash leaf and merging two

A removal closes the gap in the slots and in the hash array. Two neighbouring leaves are
copied one behind the other to a page under the outer fences if an upper bound on the space
says that they fit; their slots count as unsorted then.
-/

namespace BtreeRedis

open LexOrder SortedAssoc Outcome

namespace HashNode
variable [KeyHash]

section
omit [KeyHash]

theorem sublist_take_eraseIdx {α : Type} {l : List α} {i k : ℕ} :
    ((l.eraseIdx i).take (k - if i < k then 1 else 0)).Sublist (l.take k) := by
  split_ifs with hi
  · have htake : (l.eraseIdx i).take (k - 1) = (l.take k).eraseIdx i := by
      apply List.ext_getElem?
      intro j
      simp only [List.getElem?_take, List.getElem?_eraseIdx]
      split_ifs <;> first | rfl | omega
    rw [htake]
    exact List.eraseIdx_sublist _ _
  · rw [Nat.sub_zero, List.take_eraseIdx_eq_take_of_le _ _ _ (not_lt.mp hi)]

end

theorem removeSlot_wf {n : HashNode} (h : WF n) {i : ℕ} (hi : i < n.count) : WF (n.removeSlot i) := by
  have hic : i < n.content.length := by rwa [length_content]
  have hcontent : (n.removeSlot i).content = n.content.eraseIdx i := (List.eraseIdx_map ..).symm
  have hkeys : keys (n.removeSlot i).content = (keys n.content).eraseIdx i := by
    rw [hcontent, keys, keys, List.eraseIdx_map]
  have hcount : (n.removeSlot i).count + 1 = n.count := by
    change (n.slots.eraseIdx i).length + 1 = n.count
    rw [List.length_eraseIdx_of_lt hi]
    exact Nat.sub_add_cancel (Nat.one_le_of_lt hi)
  have hbytes := BTreeNode.entryBytes_eraseIdx hic
  have hsize : (n.slots[i]?.map fun s => s.key.length + s.payload.length).getD 0 =
      n.content[i].1.length + Payload.len n.content[i].2 := by
    rw [List.getElem?_eq_getElem hi]
    simp only [content, List.getElem_map, HashSlot.entry]
    rfl
  have hspace := h.space
  have hroom := h.room
  have hfits := h.fits
  have hcap := h.capacity
  have hsorted := h.sorted_le
  have hused : (n.removeSlot i).spaceUsed = n.spaceUsed - (n.content[i].1.length + Payload.len n.content[i].2) := by
    rw [← hsize]
    rfl
  refine ⟨⟨?_, ?_, ?_, ?_⟩, ⟨h.prefixLen, h.fences, ?_, ?_, ?_, ?_, ?_⟩⟩
  · rw [hused, hcontent]
    change _ = n.upperFence.length + n.lowerFence.length + _
    omega
  · simp only [slotsEnd, hashHeaderSize, hashSlotSize] at hroom ⊢
    change _ ≤ n.dataOffset
    omega
  · rw [hused]
    change n.dataOffset + _ + n.hashCapacity ≤ pageSize
    omega
  · change _ ≤ n.hashCapacity
    omega
  · rw [hkeys]
    exact h.nodup.sublist (List.eraseIdx_sublist _ _)
  · intro e he
    rw [hcontent] at he
    exact h.inFences e (List.mem_of_mem_eraseIdx he)
  · rw [hkeys, ← List.eraseIdx_map, ← h.hashed]
    rfl
  · rw [hkeys]
    exact List.Pairwise.sublist sublist_take_eraseIdx h.sorted
  · change n.sortedCount - (if i < n.sortedCount then 1 else 0) ≤ _
    split_ifs <;> omega

theorem removeSlot_removed {n : HashNode} (h : WF n) {i : ℕ} {s : HashSlot} (hs : n.slots[i]? = some s) :
    Removed (n.getPrefix ++ s.key) n.entries (n.removeSlot i).entries := by
  obtain ⟨hi, hget⟩ := List.getElem?_eq_some_iff.mp hs
  have hrestored : (n.removeSlot i).restored = n.restored.eraseIdx i := by
    change ((n.slots.eraseIdx i).map HashSlot.entry).map (fun e => (n.getPrefix ++ e.1, e.2)) = _
    rw [restored, content, List.eraseIdx_map, List.eraseIdx_map]
  have hir : i < n.restored.length := by rwa [length_restored]
  have hentry : n.restored[i] = (n.getPrefix ++ s.key, s.payload) := by
    simp [restored, content, HashSlot.entry, hget]
  have hperm : n.restored.Perm ((n.getPrefix ++ s.key, s.payload) :: n.restored.eraseIdx i) := by
    rw [← hentry]
    exact (List.getElem_cons_eraseIdx_perm hir).symm
  rw [entries, entries, hrestored]
  exact (inserted_sortByKey h.nodup_restored hperm).removed

theorem remove_spec {n : HashNode} (h : WF n) {key : Bytes} (hk : InFences n.lowerFence n.upperFence key) :
    (key ∉ keys n.entries ∧ n.remove key = .ok (false, n)) ∨
      ∃ i, n.remove key = .ok (true, n.removeSlot i) ∧ WF (n.removeSlot i) ∧
        Removed key n.entries (n.removeSlot i).entries := by
  rw [remove, h.validate, ok_bind]
  rcases findIndex_spec h.toKeyed hk with ⟨i, s, hi, hs, hsk⟩ | ⟨hi, hnew⟩
  · have hwf := removeSlot_wf h (List.getElem?_eq_some_iff.mp hs).1
    have hrem := removeSlot_removed h hs
    rw [hsk, h.prefix_append_drop hk] at hrem
    refine Or.inr ⟨i, ?_, hwf, hrem⟩
    simp only [hi, ok_bind, hwf.validate]
    rfl
  · refine Or.inl ⟨hnew, ?_⟩
    simp only [hi, ok_bind]
    rfl

theorem entryBytes_truncate_le {n : HashNode} (h : Keyed n) (lower upper : Bytes) :
    BTreeNode.entryBytes (BTreeNode.truncate lower upper n.restored) ≤
      BTreeNode.entryBytes n.content + (n.prefixLength - commonPrefixLength lower upper) * n.count := by
  have he := BTreeNode.entryBytes_truncate_map_le n.getPrefix lower upper n.content
  rwa [length_content, h.length_getPrefix] at he

theorem count_le_page {n : HashNode} (h : WF n) : 7 * n.count + hashHeaderSize + n.spaceUsed ≤ pageSize := by
  have hroom := h.room
  have hfits := h.fits
  have hcap := h.capacity
  simp only [slotsEnd, hashHeaderSize, hashSlotSize] at hroom ⊢
  omega

theorem copy_all {n p : HashNode} (h : WF n) {lower upper : Bytes}
    (hp : p.prefixLength = commonPrefixLength lower upper) (hh : p.hashes.length = p.count)
    (hin : ∀ e ∈ n.restored, InFences lower upper e.1) (hcap : p.count + n.count ≤ p.hashCapacity)
    (hroom : hashHeaderSize + hashSlotSize * (p.count + n.count) + BTreeNode.entryBytes n.content +
      (n.prefixLength - p.prefixLength) * n.count ≤ p.dataOffset) :
    ∃ m, n.copyKeyValueRange p 0 n.count = .ok m ∧ Grown p m (BTreeNode.truncate lower upper n.restored) ∧
      m.slotsEnd ≤ m.dataOffset := by
  have hall : (n.restored.drop 0).take n.count = n.restored := by
    rw [List.drop_zero, ← length_restored, List.take_length]
  have hbytes := entryBytes_truncate_le h.toKeyed lower upper
  rw [← hp] at hbytes
  have hcopy := copy_yields (i := 0) (c := n.count) h.toKeyed hp hh (by rwa [hall]) (by
    rwa [hall, length_restored])
  rw [hall] at hcopy
  apply hcopy.exists_ok
  rintro e ⟨-, hno⟩
  apply hno
  rw [RoomFor, BTreeNode.truncate_length, length_restored]
  omega

theorem mergeNodes_spec {n right : HashNode} (h : WF n) (g : WF right) (hadj : right.lowerFence = n.upperFence)
    (hmid : n.upperFence ≠ []) (hlow : n.lowerFence.length ≤ maxKVSize)
    (hupp : right.upperFence.length ≤ maxKVSize) :
    ∃ res, n.mergeNodes right = .ok res ∧
      ∀ m, res = some m → Holds m n.lowerFence right.upperFence (n.restored ++ right.restored) := by
  have hnf : n.lowerFence < n.upperFence := h.fences.resolve_left hmid
  have hrf : right.upperFence = [] ∨ n.upperFence < right.upperFence := hadj ▸ g.fences
  have hinL : ∀ e ∈ n.restored, InFences n.lowerFence right.upperFence e.1 := fun e he =>
    (h.restored_inFences he).mono le_rfl (hrf.imp id fun hr => ⟨hmid, hr.le⟩)
  have hinR : ∀ e ∈ right.restored, InFences n.lowerFence right.upperFence e.1 := fun e he =>
    (g.restored_inFences he).mono (hadj ▸ hnf.le)
      ((eq_or_ne right.upperFence []).imp id fun hne => ⟨hne, le_rfl⟩)
  have hnodup : (keys (n.restored ++ right.restored)).Nodup := by
    rw [keys_append]
    apply h.nodup_restored.append g.nodup_restored
    intro k hk hk'
    obtain ⟨e, he, rfl⟩ := List.mem_map.mp hk
    obtain ⟨f, hf, hfe⟩ := List.mem_map.mp hk'
    have hle := (h.restored_inFences he).2.resolve_left hmid
    have hlt := (hadj ▸ (g.restored_inFences hf).1).resolve_left hmid
    rw [hfe] at hlt
    exact absurd hle (not_le.mpr hlt)
  have hcn := count_le_page h
  have hcr := count_le_page g
  obtain ⟨leftCapacity, hlc, -, hlle⟩ := count_le_estimate h
  obtain ⟨rightCapacity, hrc, -, -⟩ := count_le_estimate g
  obtain ⟨capacity, hcapacity⟩ : ∃ capacity, capacity = max (min leftCapacity rightCapacity) (n.count + right.count) :=
    ⟨_, rfl⟩
  have hpage : right.upperFence.length + n.lowerFence.length + capacity ≤ pageSize := by
    simp only [maxKVSize, slotSize, headerSize, hashHeaderSize, pageSize] at hlow hupp hcn hcr hlle ⊢
    omega
  obtain ⟨p, hp⟩ : ∃ p, p = blank n.lowerFence right.upperFence capacity n.rangeOpCounter := ⟨_, rfl⟩
  have hinit : init n.lowerFence right.upperFence capacity n.rangeOpCounter = .ok p := init_eq_ok.mpr ⟨hpage, hp⟩
  have hpp : p.prefixLength = commonPrefixLength n.lowerFence right.upperFence := by rw [hp]; rfl
  have hpc : p.count = 0 := by rw [hp]; rfl
  have hpk : p.hashCapacity = capacity := by rw [hp]; rfl
  have hpd : p.dataOffset = pageSize - (right.upperFence.length + n.lowerFence.length) - capacity := by rw [hp]; rfl
  simp only [mergeNodes, hlc, hrc, ok_bind, ← hcapacity, hinit]
  split_ifs with hbig
  · exact ⟨none, rfl, by simp⟩
  · have hspN := h.space
    have hspR := g.space
    rw [mergeSpaceUpperBound, not_lt, hpk, hpp] at hbig
    simp only [hashHeaderSize, hashSlotSize, pageSize] at hbig hpd hpage
    obtain ⟨m, hm, hgm, -⟩ := copy_all h hpp (by rw [hp]; rfl) hinL (by
      rw [hpc, hpk]
      omega) (by
      rw [hpc, hpp]
      simp only [hashHeaderSize, hashSlotSize]
      omega)
    have hmc := hgm.count
    have hmo := hgm.offset
    have hmk := hgm.page.hashCapacity
    have hmp := hgm.page.prefixLength.trans hpp
    have hbytesN := entryBytes_truncate_le h.toKeyed n.lowerFence right.upperFence
    rw [BTreeNode.truncate_length, length_restored, hpc, Nat.zero_add] at hmc
    obtain ⟨m', hm', hgm', hroom⟩ := copy_all g hmp (hgm.length_hashes (by rw [hp]; rfl)) hinR (by
      rw [hmc, hmk, hpk]
      omega) (by
      rw [hmc, hmp]
      simp only [hashHeaderSize, hashSlotSize]
      omega)
    have hgrown := hgm.trans hgm'
    rw [← BTreeNode.truncate_append, hp] at hgrown
    have hholds : Holds { m' with sortedCount := 0 } n.lowerFence right.upperFence (n.restored ++ right.restored) :=
      grown_blank hgrown hroom (hrf.imp id hnf.trans) hpage hnodup
        (fun e he => (List.mem_append.mp he).elim (hinL e) (hinR e)) (Nat.zero_le _) List.Pairwise.nil
    have hsorted : m'.sortedCount = 0 := hgrown.page.sortedCount
    have hsame : ({ m' with sortedCount := 0 } : HashNode) = m' := by rw [← hsorted]
    rw [hsame] at hholds
    refine ⟨some m', by simp only [hm, hm', ok_bind, hholds.wf.validate]; rfl, ?_⟩
    rintro r ⟨⟩
    exact hholds

end HashNode

end BtreeRedis
