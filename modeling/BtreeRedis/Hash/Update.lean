import BtreeRedis.Hash.Search

/-!
# Space, insertion and removal in a hash leaf

A leaf without room grows its hash array in place, or is compacted for the capacity that
its entries so far suggest, or is left to be split. A new entry goes behind the last slot;
the payload of a key that is there is replaced and the old one left as a hole.
-/

namespace BtreeRedis

open LexOrder SortedAssoc Outcome

namespace HashNode
variable [KeyHash]

def compactify (n : HashNode) (newHashCapacity : ℕ) : Except Fault HashNode := do
  let should := n.freeSpaceAfterCompaction - newHashCapacity
  let tmp ← init n.lowerFence n.upperFence newHashCapacity n.rangeOpCounter
  let tmp ← n.copyKeyValueRange tmp 0 n.count
  let tmp := { tmp with sortedCount := n.sortedCount }
  ensure (tmp.freeSpace = should) .assertion
  pure tmp

def requestSlotAndSpace (n : HashNode) (kvSize : ℕ) : Except Fault (Bool × HashNode) :=
  if n.count < n.hashCapacity ∧ kvSize + hashSlotSize ≤ n.freeSpace then .ok (true, n)
  else do
    let estimate ← n.estimateCapacity
    let onCompactifyCapacity := max estimate (n.count + 1)
    if ¬ n.count < n.hashCapacity ∧ onCompactifyCapacity + kvSize + hashSlotSize ≤ n.freeSpace then
      let dataOffset := n.dataOffset - onCompactifyCapacity
      pure (true, { n with dataOffset, hashOffset := dataOffset, hashCapacity := onCompactifyCapacity })
    else if n.freeSpaceAfterCompaction < onCompactifyCapacity + kvSize + hashSlotSize then pure (false, n)
    -- not worth compacting for a few more keys
    else if onCompactifyCapacity ≤ n.count + n.count * 3 / 128 then pure (false, n)
    else do
      let n ← n.compactify onCompactifyCapacity
      pure (true, n)

/-- `assert(freeSpace() < pageSizeLeaf)`, for an unsigned difference -/
def checkFreeSpace (n : HashNode) : Except Fault Unit :=
  ensure (n.slotsEnd ≤ n.dataOffset ∧ n.freeSpace < pageSize) .assertion

def insertSlot (n : HashNode) (key payload : Bytes) : Except Fault HashNode := do
  let hash := computeHash (key.drop n.prefixLength)
  match ← n.findIndex key hash with
  | none => n.storeKeyValue n.count key payload hash
  | some index => do
    let n ← n.storeKeyValue index key payload hash
    pure { n with spaceUsed := n.spaceUsed - (key.length - n.prefixLength + payload.length) }

/-- `insert` behind `point_op`. -/
def insertCounted (n : HashNode) (key payload : Bytes) : Except Fault (Bool × HashNode) := do
  n.checkFreeSpace
  ensure (n.prefixLength ≤ key.length) .assertion
  n.validate
  let (space, n) ← n.requestSlotAndSpace (key.length - n.prefixLength + payload.length)
  if space then do
    let n ← n.insertSlot key payload
    n.checkFreeSpace
    n.validate
    pure (true, n)
  else do
    n.checkFreeSpace
    pure (false, n)

def insert (c : Config) (n : HashNode) (key payload : Bytes) (draws : Draws) :
    Except Fault (Bool × HashNode × Draws) := do
  let (_, rangeOpCounter, draws) := n.rangeOpCounter.pointOp c draws
  let (inserted, n) ← { n with rangeOpCounter }.insertCounted key payload
  pure (inserted, n, draws)

def removeSlot (n : HashNode) (slotId : ℕ) : HashNode :=
  { n with
    spaceUsed := n.spaceUsed - (n.slots[slotId]?.map fun s => s.key.length + s.payload.length).getD 0
    slots := n.slots.eraseIdx slotId
    hashes := n.hashes.eraseIdx slotId
    sortedCount := n.sortedCount - if slotId < n.sortedCount then 1 else 0 }

def remove (n : HashNode) (key : Bytes) : Except Fault (Bool × HashNode) := do
  n.validate
  match ← n.findIndex key (computeHash (key.drop n.prefixLength)) with
  | none => pure (false, n)
  | some index => do
    let n := n.removeSlot index
    n.validate
    pure (true, n)

def mergeSpaceUpperBound (n right tmp : HashNode) : ℕ :=
  n.spaceUsed + right.spaceUsed + tmp.hashCapacity +
    (hashHeaderSize + hashSlotSize * (n.count + right.count)) +
    (n.prefixLength - tmp.prefixLength) * n.count + (right.prefixLength - tmp.prefixLength) * right.count

/-- `mergeNodes`: the page that replaces `right`, or nothing. The parent loses the slot of the left
one. -/
def mergeNodes (n right : HashNode) : Except Fault (Option HashNode) := do
  let leftCapacity ← n.estimateCapacity
  let rightCapacity ← right.estimateCapacity
  let newHashCapacity := max (min leftCapacity rightCapacity) (n.count + right.count)
  let tmp ← init n.lowerFence right.upperFence newHashCapacity n.rangeOpCounter
  if pageSize < n.mergeSpaceUpperBound right tmp then pure none
  else do
    let tmp ← n.copyKeyValueRange tmp 0 n.count
    let tmp ← right.copyKeyValueRange tmp 0 right.count
    tmp.validate
    pure (some tmp)

structure Moved (n m : HashNode) : Prop where
  wf : WF m
  rangeOpCounter : m.rangeOpCounter = n.rangeOpCounter
  sortedCount : m.sortedCount = n.sortedCount
  prefixLength : m.prefixLength = n.prefixLength
  lower : m.lowerFence = n.lowerFence
  upper : m.upperFence = n.upperFence
  content : m.content = n.content
  hashes : m.hashes = n.hashes

namespace Moved
variable {n m : HashNode}

theorem refl (h : WF n) : Moved n n := ⟨h, rfl, rfl, rfl, rfl, rfl, rfl, rfl⟩

theorem getPrefix (h : Moved n m) : m.getPrefix = n.getPrefix := by
  rw [HashNode.getPrefix, HashNode.getPrefix, h.lower, h.prefixLength]

theorem restored (h : Moved n m) : m.restored = n.restored := by
  rw [HashNode.restored, HashNode.restored, h.content, h.getPrefix]

theorem entries (h : Moved n m) : m.entries = n.entries := by
  rw [HashNode.entries, HashNode.entries, h.restored]

theorem count (h : Moved n m) : m.count = n.count := by
  rw [← length_content, h.content, length_content]

end Moved

theorem count_le_estimate {n : HashNode} (h : WF n) :
    ∃ capacity, n.estimateCapacity = .ok capacity ∧ n.count ≤ capacity ∧ capacity ≤ pageSize / 7 := by
  have hspace := h.space
  have hroom := h.room
  have hfits := h.fits
  have hcap := h.capacity
  simp only [slotsEnd, hashHeaderSize, hashSlotSize, pageSize] at hroom hfits
  rw [estimateCapacity, hashCapacityFor]
  by_cases hz : n.count = 0
  · refine ⟨pageSize / 64, ?_, by rw [hz]; exact Nat.zero_le _, by simp⟩
    simp only [hz, if_true]
    rfl
  · have hpos : 0 < n.spaceUsed - n.upperFence.length - n.lowerFence.length + n.count * hashSlotSize + n.count := by
      omega
    have hle : n.count ≤ (pageSize - hashHeaderSize - n.upperFence.length - n.lowerFence.length) * n.count /
        (n.spaceUsed - n.upperFence.length - n.lowerFence.length + n.count * hashSlotSize + n.count) := by
      rw [Nat.le_div_iff_mul_le hpos, Nat.mul_comm]
      refine Nat.mul_le_mul_right _ ?_
      simp only [pageSize, hashHeaderSize, hashSlotSize]
      omega
    refine ⟨_, ?_, hle, ?_⟩
    · simp only [if_neg hz]
      rw [ensure_of hle]
      rfl
    · refine (Nat.div_le_div_left (c := 7 * n.count) ?_ (by omega)).trans ?_
      · simp only [hashSlotSize]
        omega
      · rw [Nat.mul_comm 7, ← Nat.div_div_eq_div_mul, Nat.mul_div_cancel _ (Nat.pos_of_ne_zero hz)]
        refine Nat.div_le_div_right ?_
        simp only [pageSize]
        omega

theorem compactify_spec {n : HashNode} (h : WF n) {capacity : ℕ} (hc : n.count ≤ capacity)
    (hfree : capacity ≤ n.freeSpaceAfterCompaction) :
    ∃ m, n.compactify capacity = .ok m ∧ Moved n m ∧ m.hashCapacity = capacity ∧
      m.freeSpace = n.freeSpaceAfterCompaction - capacity := by
  have hspace := h.space
  have hroom := h.room
  have hfits := h.fits
  simp only [freeSpaceAfterCompaction, slotsEnd, hashHeaderSize, hashSlotSize, pageSize] at hfree hroom hfits
  have hpage : n.upperFence.length + n.lowerFence.length + capacity ≤ pageSize := by
    simp only [pageSize]
    omega
  have hall : (n.restored.drop 0).take n.count = n.restored := by
    rw [List.drop_zero, ← length_restored, List.take_length]
  obtain ⟨p, hp⟩ : ∃ p, p = blank n.lowerFence n.upperFence capacity n.rangeOpCounter := ⟨_, rfl⟩
  have hinit : init n.lowerFence n.upperFence capacity n.rangeOpCounter = .ok p := init_eq_ok.mpr ⟨hpage, hp⟩
  have hpp : p.prefixLength = commonPrefixLength n.lowerFence n.upperFence := by rw [hp]; rfl
  have hpc : p.count = 0 := by rw [hp]; rfl
  have hin : ∀ e ∈ (n.restored.drop 0).take n.count, InFences n.lowerFence n.upperFence e.1 :=
    fun e he => h.restored_inFences (hall ▸ he)
  have hcontent : BTreeNode.truncate n.lowerFence n.upperFence n.restored = n.content := by
    have hmap := map_rekey (n := n) hpp 0 n.count
    rw [hall] at hmap
    rw [← hmap, List.drop_zero, List.take_length, content]
    refine List.map_congr_left fun s _ => ?_
    rw [rekey, hpp, ← h.prefixLen, List.drop_left' h.length_getPrefix]
    rfl
  obtain ⟨m, hm, hg, hmr⟩ := (copy_yields h.toKeyed hpp (by rw [hp]; rfl) hin (by
    rw [hall, hpc, length_restored, hp, Nat.zero_add]
    exact hc)).exists_ok fun e he => he.2 (by
      rw [hall, RoomFor, hpc, hcontent, length_content, hp]
      simp only [blank, hashHeaderSize, hashSlotSize, pageSize]
      omega)
  rw [hall] at hg
  have hgo := hg.offset
  have hgc := hg.count
  have hgs := hg.page.sortedCount
  rw [hp] at hg
  have hlen : n.restored.length = n.count := length_restored n
  have hholds := @grown_blank _ _ _ _ _ _ _ hg hmr h.fences hpage h.nodup_restored
    (fun e he => h.restored_inFences he) n.sortedCount (by rw [hlen]; exact h.sorted_le) (by
      rw [keys_restored, ← List.map_take, Ascending, List.pairwise_map]
      exact h.sorted.imp fun hab => append_lt_append_iff.mpr hab)
  rw [hcontent] at hgo hgc
  rw [length_content, hpc, Nat.zero_add] at hgc
  have hmfree : ({ m with sortedCount := n.sortedCount } : HashNode).freeSpace =
      n.freeSpaceAfterCompaction - capacity := by
    change m.dataOffset - (hashHeaderSize + hashSlotSize * m.count) = _
    have hpo : p.dataOffset = pageSize - (n.upperFence.length + n.lowerFence.length) - capacity := by rw [hp]; rfl
    rw [hgc, freeSpaceAfterCompaction, slotsEnd]
    simp only [hashHeaderSize, hashSlotSize, pageSize] at hpo ⊢
    omega
  have hmc : ({ m with sortedCount := n.sortedCount } : HashNode).content = n.content := by
    change m.content = _
    rw [hg.content, hcontent]
    rfl
  refine ⟨{ m with sortedCount := n.sortedCount }, ?_, ⟨hholds.wf, ?_, rfl, ?_, hholds.lower, hholds.upper, hmc, ?_⟩,
    ?_, hmfree⟩
  · rw [compactify]
    dsimp only
    rw [hinit, ok_bind, hm, ok_bind, ensure_of hmfree, ok_bind]
    rfl
  · exact hg.page.rangeOpCounter
  · exact hg.page.prefixLength.trans h.prefixLen.symm
  · rw [hholds.wf.hashed, hmc, h.hashed]
  · exact hg.page.hashCapacity

theorem requestSlotAndSpace_spec {n : HashNode} (h : WF n) (kvSize : ℕ) :
    ∃ space m, n.requestSlotAndSpace kvSize = .ok (space, m) ∧ Moved n m ∧
      (space = true → m.count < m.hashCapacity ∧ kvSize + hashSlotSize ≤ m.freeSpace) ∧
      (space = false → m = n) := by
  obtain ⟨estimate, hestimate, hle, -⟩ := count_le_estimate h
  have hcap := h.capacity
  have hroom := h.room
  have hfits := h.fits
  unfold requestSlotAndSpace
  split_ifs with hfast
  · exact ⟨true, n, rfl, .refl h, fun _ => hfast, fun hc => absurd hc.symm Bool.false_ne_true⟩
  · rw [hestimate, ok_bind]
    dsimp only
    split_ifs with hgrow hfull hfew
    · obtain ⟨capacity, hcapacity⟩ : ∃ capacity, capacity = max estimate (n.count + 1) := ⟨_, rfl⟩
      rw [← hcapacity] at hgrow ⊢
      have hgt : n.count < capacity := hcapacity ▸ Nat.lt_of_lt_of_le (Nat.lt_succ_self _) (le_max_right _ _)
      have hg := hgrow.2
      simp only [freeSpace, slotsEnd, hashHeaderSize, hashSlotSize, pageSize] at hg hroom hfits
      refine ⟨true, _, rfl, ⟨⟨⟨h.space, ?_, ?_, hgt.le⟩, ⟨h.prefixLen, h.fences, h.nodup, h.inFences, h.hashed,
        h.sorted, h.sorted_le⟩⟩, rfl, rfl, rfl, rfl, rfl, rfl, rfl⟩, fun _ => ⟨hgt, ?_⟩,
        fun hc => absurd hc.symm Bool.false_ne_true⟩
      · change hashHeaderSize + hashSlotSize * n.count ≤ n.dataOffset - capacity
        simp only [hashHeaderSize, hashSlotSize]
        omega
      · change n.dataOffset - capacity + n.spaceUsed + capacity ≤ pageSize
        simp only [pageSize]
        omega
      · change kvSize + hashSlotSize ≤ n.dataOffset - capacity - (hashHeaderSize + hashSlotSize * n.count)
        simp only [hashHeaderSize, hashSlotSize]
        omega
    · exact ⟨false, n, rfl, .refl h, fun hc => absurd hc Bool.false_ne_true, fun _ => rfl⟩
    · exact ⟨false, n, rfl, .refl h, fun hc => absurd hc Bool.false_ne_true, fun _ => rfl⟩
    · obtain ⟨m, hm, hmoved, hmc, hmf⟩ := @compactify_spec _ n h (max estimate (n.count + 1))
        (hle.trans (le_max_left _ _)) (by omega)
      refine ⟨true, m, by rw [hm]; rfl, hmoved, fun _ => ⟨?_, ?_⟩, fun hc => absurd hc.symm Bool.false_ne_true⟩
      · rw [hmoved.count, hmc]
        exact Nat.lt_of_lt_of_le (Nat.lt_succ_self _) (le_max_right _ _)
      · rw [hmf]
        omega

theorem appended_wf {n m : HashNode} (h : WF n) {key payload : Bytes} (hk : InFences n.lowerFence n.upperFence key)
    (hnew : key ∉ keys n.entries) (hg : Grown n m [(key.drop n.prefixLength, payload)])
    (hcap : n.count < n.hashCapacity)
    (hroom : key.length - n.prefixLength + payload.length + hashSlotSize ≤ n.freeSpace) :
    WF m ∧ m.restored = n.restored ++ [(key, payload)] := by
  have hpre : m.getPrefix = n.getPrefix := by
    rw [getPrefix, getPrefix, hg.page.lower, hg.page.prefixLength]
  have hcount := hg.count
  have hoffset := hg.offset
  have hspace := hg.space
  have hnroom := h.room
  have hfits := h.fits
  have hbytes : BTreeNode.entryBytes [(key.drop n.prefixLength, payload)] =
      key.length - n.prefixLength + payload.length := by
    rw [BTreeNode.entryBytes_cons, BTreeNode.entryBytes_nil, List.length_drop, Nat.add_zero]
    rfl
  rw [hbytes] at hoffset hspace
  rw [List.length_singleton] at hcount
  rw [h.mem_keys_entries hk] at hnew
  have hkeys : keys m.content = keys n.content ++ [key.drop n.prefixLength] := by
    rw [hg.content, keys_append]
    rfl
  simp only [freeSpace, slotsEnd, hashHeaderSize, hashSlotSize] at hroom hnroom
  refine ⟨⟨⟨?_, ?_, ?_, ?_⟩, ⟨?_, ?_, ?_, fun e he => ?_, ?_, ?_, ?_⟩⟩, ?_⟩
  · rw [hspace, h.space, hg.page.lower, hg.page.upper, hg.content, BTreeNode.entryBytes_append, hbytes, Nat.add_assoc]
  · rw [slotsEnd, hcount]
    simp only [hashHeaderSize, hashSlotSize]
    omega
  · rw [hg.page.hashCapacity]
    omega
  · rw [hcount, hg.page.hashCapacity]
    exact hcap
  · rw [hg.page.prefixLength, hg.page.lower, hg.page.upper]
    exact h.prefixLen
  · rw [hg.page.lower, hg.page.upper]
    exact h.fences
  · rw [hkeys]
    exact List.Nodup.append h.nodup (List.nodup_singleton _) (List.disjoint_singleton.mpr hnew)
  · rw [hg.page.lower, hg.page.upper, hpre]
    rw [hg.content] at he
    rcases List.mem_append.mp he with he | he
    · exact h.inFences e he
    · rw [List.mem_singleton.mp he]
      change InFences _ _ (n.getPrefix ++ key.drop n.prefixLength)
      rwa [h.prefix_append_drop hk]
  · rw [hkeys, List.map_append, hg.hashes, h.hashed]
    rfl
  · have hle : n.sortedCount ≤ (keys n.content).length := by
      rw [keys, List.length_map, length_content]
      exact h.sorted_le
    rw [hkeys, hg.page.sortedCount, List.take_append_of_le_length hle]
    exact h.sorted
  · rw [hg.page.sortedCount, hcount]
    exact h.sorted_le.trans (Nat.le_succ _)
  · rw [restored, hg.content, List.map_append, hpre]
    change _ ++ [(n.getPrefix ++ key.drop n.prefixLength, payload)] = _
    rw [h.prefix_append_drop hk]
    rfl

structure Inserting (n m : HashNode) (key payload : Bytes) (inserted : Bool) : Prop where
  wf : WF m
  lower : m.lowerFence = n.lowerFence
  upper : m.upperFence = n.upperFence
  done : inserted = true → Stored key payload n.restored m.restored
  refused : inserted = false → m.restored = n.restored

section
omit [KeyHash]

theorem put_eq {α : Type} {l : List α} {i : ℕ} (hi : i < l.length) (a : α) : put l i a = l.set i a := by
  rw [put, List.set_eq_take_append_cons_drop, if_pos hi]

end

theorem replaced_inserting {n m : HashNode} (h : WF n) {key payload : Bytes}
    (hk : InFences n.lowerFence n.upperFence key) {i : ℕ} {s : HashSlot} (hs : n.slots[i]? = some s)
    (hsk : s.key = key.drop n.prefixLength)
    (hroom : key.length - n.prefixLength + payload.length + hashSlotSize ≤ n.freeSpace)
    (hm : n.storeKeyValue i key payload (computeHash (key.drop n.prefixLength)) = .ok m)
    (hv : ({ m with spaceUsed := m.spaceUsed - (key.length - n.prefixLength + payload.length) } :
      HashNode).validate = .ok ()) :
    Inserting n { m with spaceUsed := m.spaceUsed - (key.length - n.prefixLength + payload.length) } key payload
      true := by
  obtain ⟨hi, hget⟩ := List.getElem?_eq_some_iff.mp hs
  have hhash : i < n.hashes.length := by rwa [h.hashed, List.length_map, keys, List.length_map, length_content]
  simp only [storeKeyValue, bind_eq_ok, ensure_eq_ok, exists_const, pure_eq_ok, List.length_drop] at hm
  obtain ⟨-, hd, -, -, rfl⟩ := hm
  rw [put_eq hi, put_eq hhash] at *
  obtain ⟨m, hm⟩ : ∃ m : HashNode, m = { n with
      spaceUsed := n.spaceUsed
      dataOffset := n.dataOffset - (key.length - n.prefixLength + payload.length)
      slots := n.slots.set i ⟨n.dataOffset - (key.length - n.prefixLength + payload.length),
        key.drop n.prefixLength, payload⟩
      hashes := n.hashes.set i (computeHash (key.drop n.prefixLength)) } := ⟨_, rfl⟩
  simp only [Nat.add_sub_cancel] at hv ⊢
  rw [← hm] at hv ⊢
  have hcontent : m.content = n.content.set i (key.drop n.prefixLength, payload) := by
    rw [content, hm, List.map_set]
    rfl
  have hic : i < n.content.length := by rwa [length_content]
  have hentry : n.content[i] = (key.drop n.prefixLength, s.payload) := by
    rw [← hsk, ← hget]
    simp [content, HashSlot.entry]
  have hkeys : keys m.content = keys n.content := by
    rw [hcontent, keys, List.map_set]
    conv_rhs => rw [keys, ← @List.set_getElem_self _ (n.content.map Prod.fst) i (by rwa [List.length_map])]
    rw [List.getElem_map, hentry]
  have hcount : m.count = n.count := by
    rw [count, hm]
    exact List.length_set
  simp only [validate, bind_eq_ok, ensure_eq_ok, exists_const] at hv
  have hnroom := h.room
  have hfits := h.fits
  simp only [freeSpace, slotsEnd, hashHeaderSize, hashSlotSize] at hroom hnroom
  refine ⟨⟨⟨hv.1, ?_, ?_, ?_⟩, ⟨?_, ?_, ?_, fun e he => ?_, hv.2.2.2, ?_, ?_⟩⟩, ?_, ?_, fun _ => ?_,
    fun hc => absurd hc.symm Bool.false_ne_true⟩
  · rw [slotsEnd, hcount, hm]
    simp only [hashHeaderSize, hashSlotSize]
    omega
  · rw [hm]
    simp only [pageSize] at hfits ⊢
    omega
  · rw [hcount, hm]
    exact h.capacity
  · rw [hm]
    exact h.prefixLen
  · rw [hm]
    exact h.fences
  · rw [hkeys]
    exact h.nodup
  · have hmem : e.1 ∈ keys n.content := hkeys ▸ List.mem_map_of_mem he
    obtain ⟨f, hf, hfe⟩ := List.mem_map.mp hmem
    rw [← hfe, hm]
    exact h.inFences f hf
  · rw [hkeys, hm]
    exact h.sorted
  · rw [hcount, hm]
    exact h.sorted_le
  · rw [hm]
  · rw [hm]
  · have hold : n.content = n.content.take i ++ (key.drop n.prefixLength, s.payload) :: n.content.drop (i + 1) := by
      rw [← hentry, List.getElem_cons_drop, List.take_append_drop]
    have hnodup := h.nodup
    rw [hold] at hnodup
    have hstored := stored_replace (v := payload) hnodup
    rw [← hold] at hstored
    have hset : m.content = n.content.take i ++ (key.drop n.prefixLength, payload) :: n.content.drop (i + 1) := by
      rw [hcontent, List.set_eq_take_append_cons_drop, if_pos hic]
    rw [← hset] at hstored
    have hfull := hstored.map (g := (n.getPrefix ++ ·)) fun _ _ hab => List.append_cancel_left hab
    rw [h.prefix_append_drop hk] at hfull
    have hpre : m.getPrefix = n.getPrefix := by
      rw [hm]
      rfl
    rw [restored, restored, hpre]
    exact hfull

theorem validate_contained (n : HashNode) : Contained (fun _ => n.validate = .ok ()) n.validate := by
  refine Yields.intro ?_ fun _ hu => hu
  unfold validate
  refine contained_check stops_assertion fun _ => contained_check stops_assertion fun _ => ?_
  exact contained_check stops_assertion fun _ => (contained_ensure fun _ => stops_assertion).mono fun _ _ => trivial

theorem insertCounted_contained {n : HashNode} (h : WF n) {key payload : Bytes}
    (hk : InFences n.lowerFence n.upperFence key) :
    Contained (fun r => Inserting n r.2 key payload r.1) (n.insertCounted key payload) := by
  rw [insertCounted]
  refine contained_check stops_assertion fun _ => ?_
  rw [ensure_of (h.prefixLength_le_key hk), ok_bind, h.validate, ok_bind]
  obtain ⟨space, m, hm, hmoved, hpromise, -⟩ :=
    requestSlotAndSpace_spec h (key.length - n.prefixLength + payload.length)
  have hmk : InFences m.lowerFence m.upperFence key := by rwa [hmoved.lower, hmoved.upper]
  rw [hm, ok_bind]
  cases space with
  | false =>
    refine contained_check stops_assertion fun _ => ?_
    exact ⟨hmoved.wf, hmoved.lower, hmoved.upper, fun hc => absurd hc Bool.false_ne_true, fun _ => hmoved.restored⟩
  | true =>
    obtain ⟨hcap, hfree⟩ := hpromise rfl
    rw [← hmoved.prefixLength] at hfree
    have hpm := hmoved.wf.prefixLength_le_key hmk
    dsimp only
    rw [if_pos rfl, insertSlot]
    rcases findIndex_spec hmoved.wf.toKeyed hmk with ⟨i, s, hi, hs, hsk⟩ | ⟨hi, hnew⟩
    · have hic : i < m.hashCapacity := ((List.getElem?_eq_some_iff.mp hs).1).trans hcap
      rw [hi, ok_bind]
      refine Yields.bind (P := fun r : HashNode => ∃ m', m.storeKeyValue i key payload
          (computeHash (key.drop m.prefixLength)) = .ok m' ∧
          r = { m' with spaceUsed := m'.spaceUsed - (key.length - m.prefixLength + payload.length) })
        ?_ fun r hr => ?_
      · refine Yields.bind (P := fun m' => m.storeKeyValue i key payload
          (computeHash (key.drop m.prefixLength)) = .ok m') (Yields.intro ?_ fun _ hm' => hm') fun m' hm' => ?_
        · rw [storeKeyValue, ensure_of hpm, ok_bind]
          refine contained_check stops_pageOverflow fun _ => contained_check stops_pageOverflow fun _ => ?_
          rw [ensure_of hic]
          trivial
        · have hpage : m'.prefixLength = m.prefixLength := by
            simp only [storeKeyValue, bind_eq_ok, ensure_eq_ok, exists_const, pure_eq_ok] at hm'
            obtain ⟨-, -, -, -, rfl⟩ := hm'
            rfl
          exact ⟨m', hm', by rw [hpage]⟩
      · obtain ⟨m', hm', rfl⟩ := hr
        refine contained_check stops_assertion fun _ => (validate_contained _).bind fun _ hv => ?_
        have hins := replaced_inserting hmoved.wf hmk hs hsk hfree hm' hv
        refine ⟨hins.wf, hins.lower.trans hmoved.lower, hins.upper.trans hmoved.upper, fun _ => ?_,
          fun hc => absurd hc.symm Bool.false_ne_true⟩
        rw [← hmoved.restored]
        exact hins.done rfl
    · have hhashes : m.hashes.length = m.count := by
        rw [hmoved.wf.hashed, List.length_map, keys, List.length_map, length_content]
      rw [hi, ok_bind]
      refine Yields.bind (P := fun m' => Grown m m' [(key.drop m.prefixLength, payload)])
        ((append_yields hhashes hpm hcap).weaken fun e he => he.1 ▸ stops_pageOverflow) fun m' hg => ?_
      obtain ⟨hwf, hres⟩ := appended_wf hmoved.wf hmk hnew hg hcap hfree
      refine contained_check stops_assertion fun _ => ?_
      rw [hwf.validate, ok_bind]
      refine ⟨hwf, hg.page.lower.trans hmoved.lower, hg.page.upper.trans hmoved.upper, fun _ => ?_,
        fun hc => absurd hc.symm Bool.false_ne_true⟩
      have hnew' : key ∉ keys m.restored := fun hk' => hnew ((keys_sortByKey_perm m.restored).mem_iff.mpr hk')
      rw [hres, ← hmoved.restored]
      exact Inserted.stored ⟨m.restored, [], (List.append_nil _).symm, rfl⟩ hnew'

theorem insert_contained {n : HashNode} (h : WF n) (c : Config) {key payload : Bytes} (draws : Draws)
    (hk : InFences n.lowerFence n.upperFence key) :
    Contained (fun r => Inserting n r.2.1 key payload r.1) (n.insert c key payload draws) := by
  refine (insertCounted_contained (h.counter (n.rangeOpCounter.pointOp c draws).2.1) hk).bind fun r hr => ?_
  exact ⟨hr.wf, hr.lower, hr.upper, hr.done, hr.refused⟩

end HashNode

end BtreeRedis
