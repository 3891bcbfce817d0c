import BtreeRedis.Node.Search

/-!
# Inserting into and removing from a basic node

After space has been found, `insert` opens a gap at the place `lowerBound` gives and
fills it; a key that is already there ends in `abort`. `removeSlot` leaves a hole in
the heap that only a later compaction closes. Both keep the node well-formed, the
hints included.
-/

namespace BtreeRedis

open LexOrder SortedAssoc

namespace BTreeNode
variable {π : Type} [Payload π]

/-- `insert` once `requestSpaceFor` has succeeded. -/
def insertSlot (n : BTreeNode π) (key : Bytes) (payload : π) : Except Fault (BTreeNode π) := do
  let (slotId, found) ← n.lowerBound key
  ensure (found = false) .abort
  let (n, s) ← n.storeKeyValue slotId key payload
  pure ({ n with slots := n.slots.insertIdx slotId s }.updateHint slotId)

def insertChild (n : BTreeNode π) (key : Bytes) (child : π) : Except Fault (Bool × BTreeNode π) := do
  let needed ← n.spaceNeeded key.length (Payload.len child)
  let (space, n) ← n.requestSpaceFor needed
  if space then do
    let n ← n.insertSlot key child
    pure (true, n)
  else pure (false, n)

def removeSlot (n : BTreeNode π) (slotId : ℕ) : BTreeNode π :=
  { n with
    spaceUsed := n.spaceUsed - (n.slots[slotId]?.map Slot.size).getD 0
    slots := n.slots.eraseIdx slotId }.makeHint

def remove (n : BTreeNode π) (key : Bytes) : Except Fault (Bool × BTreeNode π) := do
  let (slotId, found) ← n.lowerBound key
  if found then pure (true, n.removeSlot slotId) else pure (false, n)

theorem hintStart_spec {count slotId j : ℕ} (h : j < hintStart (count + 1) slotId) :
    0 < count ∧ count / (hintCount + 1) = (count + 1) / (hintCount + 1) ∧
      (count + 1) / (hintCount + 1) * (j + 1) < slotId := by
  have h16 : hintCount = 16 := rfl
  unfold hintStart at h
  dsimp only at h
  split_ifs at h with hs
  · obtain ⟨hc, hd, -⟩ := hs
    rw [Nat.add_sub_cancel] at hd
    refine ⟨by omega, hd, ?_⟩
    set dist := (count + 1) / (hintCount + 1) with hdist
    have hpos : 0 < dist := Nat.div_pos (by omega) (by omega)
    calc dist * (j + 1) < dist * (slotId / dist) := Nat.mul_lt_mul_of_pos_left (by omega) hpos
      _ ≤ slotId := Nat.mul_div_le slotId dist
  · omega

section
omit [Payload π]

theorem updateHint_hintsOk {n m : BTreeNode π} (h : HintsOk n) {i : ℕ} (hi : i ≤ n.count) {s : Slot π}
    (hs : m.slots = n.slots.insertIdx i s) (hh : m.hint = n.hint) : HintsOk (m.updateHint i) := by
  intro _
  have hlen : m.count = n.count + 1 := by
    rw [count, hs]
    exact List.length_insertIdx_of_le_length hi s
  refine List.map_congr_left fun j hj => ?_
  rw [List.mem_range] at hj
  change _ = m.headAt (m.count / (hintCount + 1) * (j + 1))
  split_ifs with hstart
  · rw [hlen] at hstart ⊢
    obtain ⟨hpos, hd, hji⟩ := hintStart_spec hstart
    rw [hh, h (List.length_pos_iff.mp hpos), List.getD_eq_getElem?_getD, List.getElem?_map,
      List.getElem?_range hj]
    simp only [Option.map_some, Option.getD_some, headAt, hd, hs,
      List.getElem?_insertIdx_of_lt hji]
  · rfl

end

theorem entryBytes_insertIdx {es : List (Bytes × π)} {i : ℕ} (hi : i ≤ es.length) (e : Bytes × π) :
    entryBytes (es.insertIdx i e) = entryBytes es + (e.1.length + Payload.len e.2) := by
  conv_rhs => rw [← List.take_append_drop i es]
  rw [insertIdx_eq_take_append hi, entryBytes_append, entryBytes_cons, entryBytes_append]
  omega

theorem entryBytes_eraseIdx {es : List (Bytes × π)} {i : ℕ} (hi : i < es.length) :
    entryBytes (es.eraseIdx i) + (es[i].1.length + Payload.len es[i].2) = entryBytes es := by
  conv_rhs => rw [← List.take_append_drop i es, ← List.getElem_cons_drop hi]
  rw [List.eraseIdx_eq_take_drop_succ, entryBytes_append, entryBytes_append, entryBytes_cons]
  omega

theorem insertSlot_spec {n : BTreeNode π} (h : WF n) {key : Bytes} {payload : π}
    (hk : InFences n.getLowerFence n.getUpperFence key) (hnew : key ∉ keys n.entries)
    (hsp : slotSize + (key.length - n.prefixLength) + Payload.len payload ≤ n.freeSpace) :
    ∃ m, n.insertSlot key payload = .ok m ∧ WF m ∧ m.isLeaf = n.isLeaf ∧
      m.getLowerFence = n.getLowerFence ∧ m.getUpperFence = n.getUpperFence ∧
      m.prefixLength = n.prefixLength ∧
      m.entries = n.entries.insertIdx (lowerIndex (keys n.entries) key) (key, payload) := by
  have hlb := lowerBound_spec h hk
  have hle := h.prefixLength_le_key hk
  have hroom := h.room
  have hfits := h.fits
  have hin : lowerIndex (keys n.entries) key ≤ n.count := by
    have hl := lowerIndex_le_length (keys n.entries) key
    rwa [keys, List.length_map, entries_length] at hl
  set i := lowerIndex (keys n.entries) key with hi
  have hic : i ≤ n.content.length := by simpa using hin
  simp only [freeSpace, slotSize, slotsOffset, pageSize] at hsp hroom hfits
  obtain ⟨m, s, hst⟩ := storeKeyValue_ok hle (show slotsOffset + slotSize * (i + 1) +
    (key.length - n.prefixLength + Payload.len payload) ≤ n.dataOffset by
      simp only [slotSize, slotsOffset]; omega)
  obtain ⟨hsk, hspay, hsh, hsd, hm⟩ := storeKeyValue_eq_ok hst
  have hsize : s.size = key.length - n.prefixLength + Payload.len payload := by
    rw [Slot.size, hsk, hspay, List.length_drop]
  set r : BTreeNode π := { m with slots := m.slots.insertIdx i s } with hr
  have hrs : r.slots = n.slots.insertIdx i s := by rw [hr, hm]
  have hrc : r.content = n.content.insertIdx i s.entry := by
    rw [content, hrs, List.map_insertIdx]
    rfl
  have hcount : r.count = n.count + 1 := by
    rw [count, hrs]
    exact List.length_insertIdx_of_le_length hin s
  have hlow : r.getLowerFence = n.getLowerFence := by rw [hr, hm]; rfl
  have hupp : r.getUpperFence = n.getUpperFence := by rw [hr, hm]; rfl
  have hpl : r.prefixLength = n.prefixLength := by rw [hr, hm]
  have hpre : r.getPrefix = n.getPrefix := by rw [getPrefix, getPrefix, hlow, hpl]
  have hentry : (n.getPrefix ++ s.entry.1, s.entry.2) = (key, payload) := by
    rw [Slot.entry, hsk, hspay, h.prefix_append_drop hk]
  have hent : r.entries = n.entries.insertIdx i (key, payload) := by
    rw [entries, hrc, List.map_insertIdx, hpre, hentry]
    rfl
  refine ⟨r.updateHint i, ?_, ?_, by rw [hr, hm]; rfl, hlow, hupp, hpl, hent⟩
  · rw [insertSlot, hlb]
    simp only [ok_bind, decide_eq_false hnew, ensure_of, hst]
    rfl
  · refine ⟨⟨?_, ?_, ?_⟩, ⟨?_, ?_, ?_, ?_, ?_⟩, updateHint_hintsOk h.hints hin hrs (by rw [hr, hm])⟩
    · change r.spaceUsed = r.getLowerFence.length + r.getUpperFence.length + entryBytes r.content
      rw [hlow, hupp, hrc, entryBytes_insertIdx hic, hr, hm]
      change n.spaceUsed + s.size = _
      rw [h.space, Nat.add_assoc]
      rfl
    · change slotsOffset + slotSize * r.count ≤ r.dataOffset
      rw [hcount, hr, hm, hsize]
      simp only [slotSize, slotsOffset]
      omega
    · change r.dataOffset + r.spaceUsed ≤ pageSize
      rw [hr, hm]
      simp only [pageSize]
      omega
    · change r.prefixLength = commonPrefixLength r.getLowerFence r.getUpperFence
      rw [hpl, hlow, hupp, h.prefixLen]
    · change FencesOrdered r.getLowerFence r.getUpperFence
      rw [hlow, hupp]
      exact h.fences
    · have hs : Ascending (keys r.entries) := by
        rw [hent, keys, List.map_insertIdx]
        exact h.sorted_entries.insertIdx hnew
      rw [Ordered.keys_entries, Ascending, List.pairwise_map] at hs
      exact hs.imp fun hab => append_lt_append_iff.mp hab
    · intro e he
      change InFences r.getLowerFence r.getUpperFence (r.getPrefix ++ e.1)
      rw [hlow, hupp, hpre]
      change e ∈ r.content at he
      rw [hrc] at he
      rcases (List.mem_insertIdx hic).mp he with rfl | he
      · rw [Slot.entry, hsk, h.prefix_append_drop hk]
        exact hk
      · exact h.inFences e he
    · intro t ht
      change t ∈ r.slots at ht
      rw [hrs] at ht
      rcases (List.mem_insertIdx hin).mp ht with rfl | ht
      · exact hsh
      · exact h.heads t ht

theorem insertSlot_eq_ok_new {n m : BTreeNode π} (h : WF n) {key : Bytes} {payload : π}
    (hk : InFences n.getLowerFence n.getUpperFence key) (hm : n.insertSlot key payload = .ok m) :
    key ∉ keys n.entries := by
  simp only [insertSlot, lowerBound_spec h hk, ok_bind, bind_eq_ok, ensure_eq_ok] at hm
  obtain ⟨_, hf, -⟩ := hm
  exact of_decide_eq_false hf

theorem removeSlot_spec {n : BTreeNode π} (h : WF n) {i : ℕ} (hi : i < n.count) :
    WF (n.removeSlot i) ∧ (n.removeSlot i).isLeaf = n.isLeaf ∧
      (n.removeSlot i).getLowerFence = n.getLowerFence ∧
      (n.removeSlot i).getUpperFence = n.getUpperFence ∧
      (n.removeSlot i).prefixLength = n.prefixLength ∧
      (n.removeSlot i).entries = n.entries.eraseIdx i := by
  have hsub : (n.slots.eraseIdx i).Sublist n.slots := List.eraseIdx_sublist _ _
  have hci : i < n.content.length := by simpa using hi
  have hc : (n.removeSlot i).content = n.content.eraseIdx i := by
    simp only [content, removeSlot, slots_makeHint, List.eraseIdx_map]
  have hsize : (n.slots[i]?.map Slot.size).getD 0 =
      n.content[i].1.length + Payload.len n.content[i].2 := by
    rw [List.getElem?_eq_getElem hi]
    simp [content, Slot.entry, Slot.size]
  have hbytes := entryBytes_eraseIdx hci
  have hsp := h.space
  have hroom := h.room
  have hfits := h.fits
  have hlen : (n.slots.eraseIdx i).length + 1 = n.count := by
    rw [List.length_eraseIdx_of_lt hi]
    exact Nat.sub_add_cancel (Nat.one_le_of_lt hi)
  refine ⟨makeHint_wf ⟨?_, ?_, ?_⟩ ⟨h.prefixLen, h.fences, ?_, ?_, ?_⟩, rfl, rfl, rfl, rfl, ?_⟩
  · change n.spaceUsed - (n.slots[i]?.map Slot.size).getD 0 = n.getLowerFence.length +
      n.getUpperFence.length + entryBytes (n.removeSlot i).content
    rw [hsize, hc]
    omega
  · change slotsOffset + slotSize * (n.slots.eraseIdx i).length ≤ n.dataOffset
    simp only [slotsOffset, slotSize] at hroom ⊢
    omega
  · change n.dataOffset + (n.spaceUsed - (n.slots[i]?.map Slot.size).getD 0) ≤ pageSize
    simp only [pageSize] at hfits ⊢
    omega
  · change Ascending (keys (n.removeSlot i).content)
    rw [hc]
    exact h.sorted.sublist ((List.eraseIdx_sublist _ _).map _)
  · intro e he
    change e ∈ (n.removeSlot i).content at he
    rw [hc] at he
    exact h.inFences e (List.mem_of_mem_eraseIdx he)
  · exact fun s hs => h.heads s (hsub.subset hs)
  · rw [entries, hc]
    change _ = (n.content.map _).eraseIdx i
    rw [List.eraseIdx_map]
    rfl

end BTreeNode

end BtreeRedis
