import BtreeRedis.Head.Search
import BtreeRedis.Tree.Inner

/-!
# From a head node back to an inner node

When a separator is too long for the heads, `convertToBasicWithSpace` writes the node as a
slotted inner node with the same fences, if the page has room for it. The separators and the
children stay.
-/

namespace BtreeRedis

open LexOrder SortedAssoc BigEndian

namespace HeadNode
variable {T : HeadType} {γ : Type} [ChildPointer γ]

/-- The loop body of `copyKeyValueRangeToBasic`. -/
def copySlot (n : HeadNode T γ) (dst : BTreeNode γ) (i : ℕ) : Except Fault (BTreeNode γ) := do
  let prefixDiff := dst.prefixLength - n.prefixLength
  let keyLength := n.getKeyLength i
  ensure (prefixDiff ≤ keyLength) .undefined
  let space := keyLength - prefixDiff + pointerSize
  ensure (space ≤ dst.dataOffset) .pageOverflow
  let offset := dst.dataOffset - space
  match n.children[i]? with
  | some child =>
    let key := ((digits T.size (n.keyAt i)).drop prefixDiff).take (keyLength - prefixDiff)
    pure { dst with
      dataOffset := offset
      spaceUsed := dst.spaceUsed + space
      slots := dst.slots ++ [{ offset, key, payload := child, head := BtreeRedis.head key }] }
  | none => .error .undefined

def copyKeyValueRangeToBasic (n : HeadNode T γ) (dst : BTreeNode γ) (srcStart srcEnd : ℕ) :
    Except Fault (BTreeNode γ) := do
  ensure (n.prefixLength ≤ dst.prefixLength) .assertion
  ensure (dst.count = 0) .assertion
  let dst ← (List.range' srcStart (srcEnd - srcStart)).foldlM n.copySlot dst
  let dst := dst.makeHint
  ensure (slotsOffset + slotSize * dst.count ≤ dst.dataOffset) .pageOverflow
  pure dst

def convertToBasicWithSpace (n : HeadNode T γ) (truncatedKeyLen : ℕ) : Except Fault (Option (InnerNode γ)) := do
  let spaceLowerBound := n.lowerFence.length + n.upperFence.length +
    (n.count + 1) * (pointerSize + slotSize) + truncatedKeyLen
  if pageSize < spaceLowerBound + headerSize then pure none
  else if pageSize < spaceLowerBound + ((List.range n.count).map n.getKeyLength).sum + headerSize then pure none
  else
    let tmp ← (BTreeNode.init false).setFences n.lowerFence n.upperFence
    let node ← n.copyKeyValueRangeToBasic tmp 0 n.count
    match n.children[n.count]? with
    | some upper => pure (some ⟨node, upper⟩)
    | none => .error .undefined

structure WF (n : HeadNode T γ) (seps : List Bytes) : Prop extends HeadsOf n seps where
  fences : FencesOrdered n.lowerFence n.upperFence
  inFences : ∀ s ∈ seps, InFences n.lowerFence n.upperFence (n.getPrefix ++ s)
  children_len : n.children.length = n.count + 1

def entries (n : HeadNode T γ) : List (Bytes × γ) := n.separators.zip n.children

section Converted
variable {n : HeadNode T γ} {seps : List Bytes}

section
omit [ChildPointer γ]

theorem HeadsOf.getKeyLength_eq (h : HeadsOf n seps) {i : ℕ} (hi : i < seps.length) :
    n.getKeyLength i = seps[i].length := by
  obtain ⟨hlt, hkey⟩ := h.keyAt_eq hi
  have h256 := T.size_lt
  rw [getKeyLength, hkey, makeNeedleHead_eq, Nat.min_eq_left hlt.le]
  omega

theorem copySlot_eq (h : WF n seps) {dst : BTreeNode γ} (hp : dst.prefixLength = n.prefixLength) {i : ℕ}
    (hi : i < seps.length) (hc : i < n.children.length) :
    n.copySlot dst i = (do
      ensure (seps[i].length + pointerSize ≤ dst.dataOffset) .pageOverflow
      pure { dst with
        dataOffset := dst.dataOffset - (seps[i].length + pointerSize)
        spaceUsed := dst.spaceUsed + (seps[i].length + pointerSize)
        slots := dst.slots ++ [{
          offset := dst.dataOffset - (seps[i].length + pointerSize)
          key := seps[i], payload := n.children[i], head := head seps[i] }] }) := by
  have hbytes : (digits T.size (n.keyAt i)).take seps[i].length = seps[i] := by
    have hr := h.restoreKey_eq hi
    rw [restoreKey, h.getKeyLength_eq hi, Nat.add_sub_cancel_left] at hr
    exact List.append_cancel_left hr
  simp only [copySlot, hp, Nat.sub_self, h.getKeyLength_eq hi, ensure_of (Nat.zero_le _), ok_bind, Nat.sub_zero,
    List.drop_zero, List.getElem?_eq_getElem hc, hbytes]

theorem entries_eq (h : WF n seps) : n.entries = (seps.zip n.children).map fun e => (n.getPrefix ++ e.1, e.2) := by
  rw [entries, h.separators_eq, List.zip_map_left]
  rfl

theorem keys_entries (h : WF n seps) : SortedAssoc.keys n.entries = n.separators := by
  rw [SortedAssoc.keys, entries, List.map_fst_zip]
  rw [h.separators_eq, List.length_map, h.length_eq, h.children_len]
  exact Nat.le_succ _

theorem truncate_entries (h : WF n seps) :
    BTreeNode.truncate n.lowerFence n.upperFence n.entries = seps.zip n.children := by
  rw [entries_eq h, BTreeNode.truncate, List.map_map, ← h.prefixLen]
  conv_rhs => rw [← List.map_id (seps.zip n.children)]
  refine List.map_congr_left fun e _ => Prod.ext ?_ rfl
  exact List.drop_left' h.length_getPrefix

end

theorem entryBytes_zip (h : WF n seps) :
    BTreeNode.entryBytes (seps.zip n.children) =
      ((List.range n.count).map n.getKeyLength).sum + pointerSize * n.count := by
  have hlen : seps.length ≤ n.children.length := by
    rw [h.length_eq, h.children_len]
    exact Nat.le_succ _
  have hkeys : (SortedAssoc.keys (seps.zip n.children)).map List.length = (List.range n.count).map n.getKeyLength := by
    rw [SortedAssoc.keys, List.map_fst_zip hlen]
    apply List.ext_getElem
    · simp [h.length_eq]
    · intro i hi _
      rw [List.length_map] at hi
      simp only [List.getElem_map, List.getElem_range]
      exact (h.getKeyLength_eq hi).symm
  rw [BTreeNode.entryBytes_eq, hkeys, List.length_zip, Nat.min_eq_left hlen, h.length_eq]

theorem copy_spec (h : WF n seps)
    (hfit : BTreeNode.pageBytes n.lowerFence n.upperFence n.entries ≤ pageSize) :
    ∃ p m, (BTreeNode.init false : BTreeNode γ).setFences n.lowerFence n.upperFence = .ok p ∧
      n.copyKeyValueRangeToBasic p 0 n.count = .ok m ∧
      BTreeNode.Holds m false n.lowerFence n.upperFence n.entries := by
  have hclen := h.children_len
  have hslen := h.length_eq
  obtain ⟨c₀, -⟩ : ∃ c, c ∈ n.children := List.exists_mem_of_length_pos (by omega)
  obtain ⟨g, hg⟩ : ∃ g : ℕ → Bytes × γ, g = fun i => (seps.getD i [], n.children.getD i c₀) := ⟨_, rfl⟩
  have hmap : (List.range' 0 (n.count - 0)).map g = seps.zip n.children := by
    rw [Nat.sub_zero, ← List.range_eq_range', hg]
    apply List.ext_getElem
    · simp only [List.length_map, List.length_range, List.length_zip]
      omega
    · intro i hi _
      rw [List.length_map, List.length_range] at hi
      simp only [List.getElem_map, List.getElem_range, List.getElem_zip, Prod.mk.injEq]
      exact ⟨List.getD_eq_getElem _ _ (by omega), List.getD_eq_getElem _ _ (by omega)⟩
  have hentry : ∀ i, i ∈ List.range' 0 (n.count - 0) → ∃ (hi : i < seps.length) (hc : i < n.children.length),
      g i = (seps[i], n.children[i]) := by
    intro i hi
    rw [List.mem_range'_1] at hi
    refine ⟨by omega, by omega, ?_⟩
    rw [hg]
    exact Prod.ext (List.getD_eq_getElem _ _ (by omega)) (List.getD_eq_getElem _ _ (by omega))
  have hsize : ∀ i (hi : i < seps.length) (hc : i < n.children.length),
      seps[i].length + pointerSize = seps[i].length + Payload.len n.children[i] := by
    intro i hi hc
    rw [ChildPointer.len_eq]
  obtain ⟨p, hp⟩ : ∃ p : BTreeNode γ, p = BTreeNode.fenced false n.lowerFence n.upperFence := ⟨_, rfl⟩
  have hpl : p.prefixLength = n.prefixLength := by rw [hp, h.prefixLen]; rfl
  have hgrow : ∀ a, ∀ i ∈ List.range' 0 (n.count - 0), ∀ b : BTreeNode γ, a.prefixLength = n.prefixLength →
      n.copySlot a i = .ok b → BTreeNode.Grown a b [g i] := by
    intro a i hi b ha hb
    obtain ⟨hs, hc, hgi⟩ := hentry i hi
    rw [copySlot_eq h ha hs hc] at hb
    simp only [bind_eq_ok, ensure_eq_ok, exists_const, pure_eq_ok] at hb
    obtain ⟨hd, rfl⟩ := hb
    rw [hgi]
    exact BTreeNode.Grown.push (s := ⟨_, seps[i], n.children[i], _⟩) rfl (hsize i hs hc) hd
  simp only [BTreeNode.pageBytes, truncate_entries h, slotsOffset, slotSize, pageSize] at hfit
  have helen : n.entries.length = n.count := by
    rw [entries_eq h, List.length_map, List.length_zip]
    omega
  rw [helen] at hfit
  have hset : (BTreeNode.init false : BTreeNode γ).setFences n.lowerFence n.upperFence = .ok p := by
    refine BTreeNode.setFences_init_eq_ok.mpr ⟨?_, hp⟩
    simp only [slotsOffset, pageSize]
    omega
  have hstep : ∀ a, ∀ i ∈ List.range' 0 (n.count - 0), a.prefixLength = n.prefixLength →
      slotsOffset + slotSize * (a.count + 1) + BTreeNode.entryBytes [g i] ≤ a.dataOffset →
      ∃ b, n.copySlot a i = .ok b := by
    intro a i hi ha har
    obtain ⟨hs, hc, hgi⟩ := hentry i hi
    rw [copySlot_eq h ha hs hc, ensure_of]
    · exact ⟨_, rfl⟩
    · simp only [hgi, BTreeNode.entryBytes_cons, BTreeNode.entryBytes_nil] at har
      rw [hsize i hs hc]
      omega
  have hroom : slotsOffset + slotSize * (p.count + (List.range' 0 (n.count - 0)).length) +
      BTreeNode.entryBytes ((List.range' 0 (n.count - 0)).map g) ≤ p.dataOffset := by
    rw [hmap, List.length_range', hp, BTreeNode.count_fenced]
    simp only [BTreeNode.fenced, slotsOffset, slotSize, pageSize]
    omega
  obtain ⟨m, hm⟩ := BTreeNode.foldlM_ok hgrow hstep hpl hroom
  have hgr := BTreeNode.foldlM_grown hgrow hpl hm
  rw [hmap, hp] at hgr
  have hcount := hgr.count
  have hoff := hgr.offset
  have hzip : (seps.zip n.children).length = n.count := by
    rw [List.length_zip]
    omega
  rw [hzip, BTreeNode.count_fenced, Nat.zero_add] at hcount
  have hroom : slotsOffset + slotSize * m.count ≤ m.dataOffset := by
    rw [hcount]
    simp only [BTreeNode.fenced, slotsOffset, slotSize, pageSize] at hoff ⊢
    omega
  refine ⟨p, m.makeHint, hset, ?_, ?_⟩
  · have hpc : p.count = 0 := by rw [hp]; rfl
    simp only [copyKeyValueRangeToBasic, ensure_of hpl.ge, ensure_of hpc, ok_bind, hm]
    rw [ensure_of]
    · rfl
    · exact hroom
  · rw [← truncate_entries h] at hgr
    refine BTreeNode.grown_fenced hgr hroom h.fences ?_ ?_ ?_
    · simp only [slotsOffset, pageSize]
      omega
    · rw [keys_entries h, h.separators_eq, Ascending, List.pairwise_map]
      exact h.sorted.imp fun hab => append_lt_append_iff.mpr hab
    · intro e he
      have hk : e.1 ∈ n.separators := keys_entries h ▸ List.mem_map_of_mem he
      rw [h.separators_eq] at hk
      obtain ⟨s, hs, hse⟩ := List.mem_map.mp hk
      exact hse ▸ h.inFences s hs

theorem convertToBasicWithSpace_spec (h : WF n seps) (truncatedKeyLen : ℕ) :
    ∃ res, n.convertToBasicWithSpace truncatedKeyLen = .ok res ∧
      ∀ m, res = some m → BTreeNode.Holds m.node false n.lowerFence n.upperFence n.entries ∧
        n.children[n.count]? = some m.upper := by
  have hclen := h.children_len
  have hslen := h.length_eq
  unfold convertToBasicWithSpace
  dsimp only
  split_ifs with h₁ h₂
  · exact ⟨none, rfl, by simp⟩
  · exact ⟨none, rfl, by simp⟩
  · have hfit : BTreeNode.pageBytes n.lowerFence n.upperFence n.entries ≤ pageSize := by
      have helen : n.entries.length = n.count := by
        rw [entries_eq h, List.length_map, List.length_zip]
        omega
      rw [BTreeNode.pageBytes, truncate_entries h, entryBytes_zip h, helen]
      simp only [slotsOffset, slotSize, pageSize, pointerSize, headerSize] at h₂ ⊢
      omega
    obtain ⟨p, m, hp, hm, hh⟩ := copy_spec h hfit
    have hu : n.count < n.children.length := by omega
    simp only [hp, hm, ok_bind, List.getElem?_eq_getElem hu]
    refine ⟨_, rfl, ?_⟩
    rintro _ ⟨⟩
    exact ⟨hh, rfl⟩

end Converted

end HeadNode

end BtreeRedis
