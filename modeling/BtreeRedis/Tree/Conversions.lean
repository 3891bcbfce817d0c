import BtreeRedis.Tree.Calls
import BtreeRedis.Tree.LeafProgress
import BtreeRedis.Tree.Window

/-!
# Leaves that change their kind

`densify1` loses nothing, and where it gives up it has written nowhere but into its own
page. The way back loses nothing either where the entries fit a basic page, which
`insert` checks with the length of the new payload in place of the stored ones.
-/

namespace BtreeRedis

open LexOrder SortedAssoc BigEndian

namespace DenseNode

theorem index_of_mem {d : DenseNode} (h : Filled d) {key : Bytes} (hm : key ∈ keys d.entries) :
    ∃ i, d.keyToIndex key = .ok (.index i) ∧ i < d.slotCount ∧ d.present i = true ∧ d.slotKey i = key := by
  obtain ⟨i, hp, rfl⟩ := (mem_keys_entries h).mp hm
  obtain ⟨r, hr, hs⟩ := keyToIndex_spec h (h.inFences i hp)
  cases hs with
  | @index j hl hj hrange hk =>
    obtain rfl := d.slotKey_inj hrange (h.inRange i hp) hk
    exact ⟨j, hr, hj, hp, rfl⟩
  | wrongLen hl => exact absurd hm (not_mem_of_wrongLen h hl)
  | notNumericRange _ hp => exact absurd hm (not_mem_of_notNumericRange h hp)
  | slightlyTooLarge _ hi hrange hk => exact absurd hm (not_mem_of_slotCount_le h hrange hk hi)
  | farTooLarge _ hi hrange hk => exact absurd hm (not_mem_of_slotCount_le h hrange hk hi)

structure Lossless (n : BTreeNode Bytes) (d : DenseNode) : Prop where
  lower : d.lowerFence = n.getLowerFence
  upper : d.upperFence = n.getUpperFence
  pre : d.lowerFence.take d.prefixLength = n.getPrefix
  index : ∀ key ∈ keys n.entries, ∃ i, d.keyToIndex key = .ok (.index i) ∧ i < d.slotCount ∧
    d.present i = true
  distinct : ∀ key ∈ keys n.entries, ∀ other ∈ keys n.entries, d.keyToIndex key = d.keyToIndex other →
    key = other
  lookup : ∀ key, InFences n.getLowerFence n.getUpperFence key → d.lookup key = n.lookup key
  occupied : d.occupiedCount = n.count
  room : maskOffset + d.maskWordCount * maskBytesPerWord + d.slotCount * d.valLen ≤ d.fencesOffset

theorem Densified.lossless {n : BTreeNode Bytes} (h : n.WF) {d : DenseNode} (hd : Densified n d)
    (hroom : maskOffset + d.maskWordCount * maskBytesPerWord + d.slotCount * d.valLen ≤ d.fencesOffset) :
    Lossless n d where
  lower := hd.lower
  upper := hd.upper
  pre := by rw [hd.wf.prefixLen, hd.lower, hd.upper, ← h.prefixLen]; rfl
  index key hm := by
    obtain ⟨i, hi, hlt, hp, -⟩ := index_of_mem hd.wf.toFilled (hd.entries.symm ▸ hm)
    exact ⟨i, hi, hlt, hp⟩
  distinct key hm other ho he := by
    obtain ⟨i, hi, -, -, hk⟩ := index_of_mem hd.wf.toFilled (hd.entries.symm ▸ hm)
    obtain ⟨j, hj, -, -, hl⟩ := index_of_mem hd.wf.toFilled (hd.entries.symm ▸ ho)
    rw [hi, hj] at he
    cases he
    exact hk.symm.trans hl
  lookup key hk := by
    rw [BTreeNode.lookup_spec h hk, ← hd.entries]
    exact lookup_spec hd.wf.toFilled (by rwa [hd.lower, hd.upper])
  occupied := by rw [hd.wf.occupied, hd.entries, BTreeNode.entries_length]
  room := hroom

/-- A full leaf either becomes the same leaf as an array, or stays what it is. -/
theorem densify1_lossless {n : BTreeNode Bytes} (h : n.WF) :
    (∀ d, densify1 n = .ok (some d) → Lossless n d) ∧
      (densify1 n = .ok none → ∀ key payload : Bytes, n.prefixLength ≤ key.length →
        n.freeSpaceAfterCompaction < slotSize + (key.length - n.prefixLength) + payload.length →
        n.insert true key payload = .ok (false, .basic n)) := by
  refine ⟨fun d hd => ?_, fun hd key payload hpk hfull => ?_⟩
  · obtain ⟨s, ss, start, count, hb⟩ := densify1_eq_some hd
    exact (densified_of_densify1 h hd).lossless h hb.room
  · rw [BTreeNode.insert, BTreeNode.spaceNeeded, ensure_of hpk]
    simp only [ok_bind, pure_bind, BTreeNode.requestSpaceFor_full h hfull, Bool.false_eq_true, if_false]
    cases hs : n.slots with
    | nil => rw [densify1, hs] at hd; cases hd
    | cons s ss =>
      simp only [BTreeNode.insertDensified, hs, hd, ok_bind]
      split_ifs <;> rfl

theorem densify1_lossless_three : ∃ n : BTreeNode Bytes, keys n.entries = [[0], [1], [3]] ∧
    densify1 n = .ok (some fourSlots) ∧ Lossless n fourSlots := by
  obtain ⟨n, hn, hd⟩ := fourSlots_densified
  refine ⟨n, ?_, hd, (densify1_lossless hn).1 fourSlots hd⟩
  rw [← (densified_of_densify1 hn hd).entries]
  decide +kernel

def Converts (d : DenseNode) : Prop :=
  ∃ m, d.convertToBasic = .ok m ∧ BTreeNode.Holds m true d.lowerFence d.upperFence d.entries

/-- What `insert` checks before it converts the leaf. -/
def ConvertsFor (d : DenseNode) (key payload : Bytes) : Prop :=
  (payload.length ≠ d.valLen ∨ key.length ≠ d.fullKeyLen) ∧
    d.occupiedCount * (d.fullKeyLen - d.prefixLength + payload.length + slotSize) + d.lowerFence.length +
      d.upperFence.length + headerSize ≤ pageSize

instance (d : DenseNode) (key payload : Bytes) : Decidable (d.ConvertsFor key payload) :=
  inferInstanceAs (Decidable (_ ∧ _))

theorem converts_iff {d : DenseNode} (h : WF d) :
    d.Converts ↔ slotsOffset + d.lowerFence.length + d.upperFence.length +
      d.occupiedCount * (d.fullKeyLen - d.prefixLength + d.valLen + slotSize) ≤ pageSize := by
  rw [← pageBytes_entries h]
  constructor
  · rintro ⟨m, -, hm⟩
    have hle := hm.wf.pageBytes_le
    rwa [hm.lower, hm.upper, hm.entries] at hle
  · intro hfit
    obtain ⟨m, hm⟩ := convertToBasic_ok h hfit
    exact ⟨m, hm, convertToBasic_spec h hm⟩

/-- `insert` converts without loss exactly where the stored entries fit; they do where the new payload
is no shorter than theirs, and in an underfull leaf. -/
theorem converts_iff_convertible {d : DenseNode} (h : WF d) :
    (∀ key payload, (d.ConvertsFor key payload → d.Converts) ↔ d.Convertible key payload) ∧
      (∀ key payload : Bytes, d.valLen ≤ payload.length → d.Convertible key payload) ∧
      (d.isUnderfull = true → d.Converts) := by
  refine ⟨fun key payload => ?_, fun key payload hle hl hsize => ?_, fun hu => ?_⟩
  · rw [converts_iff h, Convertible, ConvertsFor, and_imp]
  · have hmul := Nat.mul_le_mul_left d.occupiedCount (Nat.add_le_add_right
      (Nat.add_le_add_left hle (d.fullKeyLen - d.prefixLength)) slotSize)
    simp only [headerSize, slotsOffset] at hsize ⊢
    omega
  · rw [converts_iff h]
    simp only [isUnderfull, decide_eq_true_eq, Nat.mul_comm _ d.occupiedCount] at hu
    simp only [slotsOffset, headerSize, pageSize, underFullSize] at hu ⊢
    omega

theorem converts_iff_convertible_fourSlots :
    (∀ key payload, (fourSlots.ConvertsFor key payload → fourSlots.Converts) ↔
        fourSlots.Convertible key payload) ∧
      (∀ key payload : Bytes, fourSlots.valLen ≤ payload.length → fourSlots.Convertible key payload) ∧
      (fourSlots.isUnderfull = true → fourSlots.Converts) := by
  obtain ⟨n, hn, hd⟩ := fourSlots_densified
  exact converts_iff_convertible (densified_of_densify1 hn hd).wf

def overflowsFor (key payload : Bytes) (t : BTree) : Bool :=
  match t.leafFor key with
  | .ok (.dense d) => decide (d.ConvertsFor key payload) && decide (key ∉ keys t.entries) &&
    match d.convertToBasic with
    | .ok _ => false
    | .error e => e == .pageOverflow
  | _ => false

theorem overflowsFor_spec {key payload : Bytes} {t : BTree} (h : overflowsFor key payload t = true) :
    ∃ d, t.leafFor key = .ok (.dense d) ∧ key ∉ keys t.entries ∧ d.ConvertsFor key payload ∧
      d.convertToBasic = .error .pageOverflow := by
  unfold overflowsFor at h
  split at h
  · next d hd =>
    simp only [Bool.and_eq_true, decide_eq_true_eq] at h
    obtain ⟨⟨hc, hnew⟩, h⟩ := h
    split at h
    · cases h
    · next e he => exact ⟨d, hd, hnew, hc, he.trans (by rw [eq_of_beq h])⟩
  · cases h

/-- Four payloads of a kilobyte fit the array but not a basic page. The empty payload of a longer key
lets the check pass. -/
theorem conversion_overflows : ∃ t d, BTree.Reachable true (fun _ _ _ => True) t ∧
    t.leafFor [4, 4] = .ok (.dense d) ∧ [4, 4] ∉ keys t.entries ∧ d.ConvertsFor [4, 4] [] ∧ ¬ d.Converts := by
  have hrun : BTree.reaches true 2 [([0], List.replicate 1000 0), ([1], List.replicate 1000 0),
      ([2], List.replicate 1000 0), ([3], List.replicate 1000 0)] (overflowsFor [4, 4] []) = true := by
    decide +kernel
  obtain ⟨t, ht, hc⟩ := BTree.reaches_spec hrun
  obtain ⟨d, hd, hnew, hconv, herr⟩ := overflowsFor_spec hc
  refine ⟨t, d, ht, hd, hnew, hconv, ?_⟩
  rintro ⟨m, hm, -⟩
  rw [herr] at hm
  cases hm

end DenseNode

end BtreeRedis
