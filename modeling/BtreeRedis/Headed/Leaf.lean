import BtreeRedis.Adaptive.Leaf
import BtreeRedis.Headed.Inner

/-!
# Leaves of short records

Where keys are short and records far smaller than a page, a leaf that is full holds at least
three entries, and both halves fit their pages wherever its separator lies. So a leaf takes a
new key or can be split.
-/

namespace BtreeRedis

open LexOrder SortedAssoc

/-- How long keys and whole records may be. Eight records between two fences fit a page. -/
structure Limits where
  key : ℕ
  record : ℕ
  key_le : key ≤ 60
  fits : slotsOffset + 2 * key + 8 * (slotSize + record) ≤ pageSize

namespace Limits
variable {ℓ : Limits}

def Admits (ℓ : Limits) (key payload : Bytes) : Prop := key.length ≤ ℓ.key ∧ key.length + payload.length ≤ ℓ.record

instance (key payload : Bytes) : Decidable (ℓ.Admits key payload) := inferInstanceAs (Decidable (_ ∧ _))

theorem fourFit (ℓ : Limits) : FourFit ℓ.key := by
  have hkey := ℓ.key_le
  simp only [FourFit, headerSize, slotSize, pointerSize, pageSize]
  omega

theorem key_le_max (ℓ : Limits) : ℓ.key ≤ maxKVSize := ℓ.key_le.trans (by decide)

theorem Admits.le_max {key payload : Bytes} (h : ℓ.Admits key payload) : key.length + payload.length ≤ maxKVSize := by
  have hfits := ℓ.fits
  have hrecord := h.2
  simp only [maxKVSize, slotsOffset, slotSize, pageSize, headerSize] at hfits ⊢
  omega

end Limits

variable {ℓ : Limits} {lower upper key payload : Bytes}

theorem ne_upper_of_inFences {sep : Bytes} (hsep : sep ≠ []) (hk : InFences sep upper key) : sep ≠ upper := by
  rintro rfl
  have hlt := hk.1.resolve_left hsep
  exact absurd (hk.2.resolve_left hsep) (not_le.mpr hlt)

namespace BTreeNode

def split (n : BTreeNode Bytes) : Except Fault (Bytes × BTreeNode Bytes × BTreeNode Bytes) := do
  let info ← n.findSeparator
  let sepKey ← n.getSep info
  let (left, right) ← n.splitLeaf info.slot sepKey
  pure (sepKey, left, right)

def separatorLength (n : BTreeNode Bytes) : Except Fault ℕ := do
  let info ← n.findSeparator
  pure info.length

structure LeafInv (ℓ : Limits) (n : BTreeNode Bytes) (lower upper : Bytes) : Prop where
  wf : n.WF
  isLeaf : n.isLeaf = true
  lowerFence : n.getLowerFence = lower
  upperFence : n.getUpperFence = upper
  lower_len : lower.length ≤ ℓ.key
  upper_len : upper.length ≤ ℓ.key
  admits : ∀ e ∈ n.entries, ℓ.Admits e.1 e.2

variable {n : BTreeNode Bytes}

theorem pageBytes_le_of_admits {es : List (Bytes × Bytes)} (h : ∀ e ∈ es, ℓ.Admits e.1 e.2) (lower upper : Bytes) :
    pageBytes lower upper es ≤
      slotsOffset + lower.length + upper.length + slotSize * es.length + ℓ.record * es.length := by
  have hbytes : entryBytes (truncate lower upper es) ≤ ℓ.record * es.length := by
    induction es with
    | nil => exact Nat.zero_le _
    | cons e es ih =>
      have he := (h e List.mem_cons_self).2
      have hes := ih fun f hf => h f (List.mem_cons_of_mem e hf)
      simp only [truncate, List.map_cons, entryBytes_cons, List.length_drop, List.length_cons, Nat.mul_succ,
        Payload.len] at hes ⊢
      omega
  rw [pageBytes]
  omega

theorem findSeparatorLeaf_slot_le {info : SeparatorInfo} (h : n.findSeparatorLeaf = .ok info) :
    info.slot ≤ n.count / 2 - n.count / 32 + n.count / 16 := by
  simp only [findSeparatorLeaf, bind_eq_ok, ensure_eq_ok, exists_const] at h
  obtain ⟨-, m, -, low, -, h⟩ := h
  split_ifs at h
  · cases h
    exact Nat.le_add_right _ _
  · have hlt := separatorLoop_slot_lt h
    omega

namespace LeafInv

theorem leaf (h : LeafInv ℓ n lower upper) : LeafNode.Inv false (.basic n) lower upper :=
  ⟨⟨h.wf, h.isLeaf⟩, h.lowerFence, h.upperFence, h.lower_len.trans ℓ.key_le_max, h.upper_len.trans ℓ.key_le_max,
    fun e he => (h.admits e he).le_max⟩

theorem of_holds {es : List (Bytes × Bytes)} (h : Holds n true lower upper es) (hl : lower.length ≤ ℓ.key)
    (hu : upper.length ≤ ℓ.key) (he : ∀ e ∈ es, ℓ.Admits e.1 e.2) : LeafInv ℓ n lower upper :=
  ⟨h.wf, h.isLeaf, h.lower, h.upper, hl, hu, fun e hm => he e (h.entries ▸ hm)⟩

theorem of_leaf (h : LeafNode.Inv false (.basic n) lower upper) (hl : lower.length ≤ ℓ.key)
    (hu : upper.length ≤ ℓ.key) (he : ∀ e ∈ n.entries, ℓ.Admits e.1 e.2) : LeafInv ℓ n lower upper :=
  ⟨h.kind.1, h.kind.2, h.lowerFence, h.upperFence, hl, hu, he⟩

theorem sorted_entries (h : LeafInv ℓ n lower upper) : Ascending (keys n.entries) := h.wf.sorted_entries

theorem inFences (h : LeafInv ℓ n lower upper) {e : Bytes × Bytes} (he : e ∈ n.entries) : InFences lower upper e.1 :=
  h.leaf.inFences he

theorem lookup_spec (h : LeafInv ℓ n lower upper) (hk : InFences lower upper key) :
    n.lookup key = .ok (n.entries.lookup key) := LeafNode.lookup_spec h.leaf hk

theorem two_lt_count_of_full (h : LeafInv ℓ n lower upper) (ha : ℓ.Admits key payload)
    (hfull : n.freeSpaceAfterCompaction < slotSize + (key.length - n.prefixLength) + payload.length) : 2 < n.count := by
  by_contra hfew
  have hfits := ℓ.fits
  have hlow := h.lower_len
  have hupp := h.upper_len
  have hrecord := ha.2
  have hfree := h.wf.freeSpaceAfterCompaction_eq
  have hbytes := pageBytes_le_of_admits h.admits n.getLowerFence n.getUpperFence
  have hprod : ℓ.record * n.count ≤ ℓ.record * 2 := Nat.mul_le_mul_left _ (not_lt.mp hfew)
  rw [entries_length] at hbytes
  rw [h.lowerFence, h.upperFence] at hbytes hfree
  simp only [slotsOffset, slotSize, pageSize] at *
  omega

theorem insertPlain_spec (h : LeafInv ℓ n lower upper) (hk : InFences lower upper key) (ha : ℓ.Admits key payload) :
    (n.insertPlain key payload = .ok (false, n) ∧ 2 < n.count) ∨
      (n.insertPlain key payload = .error .abort ∧ key ∈ keys n.entries) ∨
      ∃ m, n.insertPlain key payload = .ok (true, m) ∧ key ∉ keys n.entries ∧ LeafInv ℓ m lower upper ∧
        Stored key payload n.entries m.entries ∧ m.count = n.count + 1 := by
  have hkn : InFences n.getLowerFence n.getUpperFence key := by rwa [h.lowerFence, h.upperFence]
  have hpk := h.wf.prefixLength_le_key hkn
  rcases Nat.lt_or_ge n.freeSpaceAfterCompaction (slotSize + (key.length - n.prefixLength) + payload.length)
    with hroom | hroom
  · refine Or.inl ⟨?_, h.two_lt_count_of_full ha hroom⟩
    rw [insertPlain, spaceNeeded, ensure_of hpk, ok_bind, pure_bind, requestSpaceFor_full h.wf hroom, ok_bind]
    rfl
  · obtain ⟨m, hm, hmw, hs, hfree⟩ := requestSpaceFor_spec h.wf
      (slotSize + (key.length - n.prefixLength) + payload.length)
    have hkm : InFences m.getLowerFence m.getUpperFence key := by rwa [hs.lower, hs.upper]
    rw [decide_eq_true hroom] at hm
    rw [insertPlain, spaceNeeded, ensure_of hpk, ok_bind, pure_bind, hm, ok_bind]
    dsimp only
    rw [if_pos rfl]
    by_cases hmem : key ∈ keys n.entries
    · refine Or.inr (Or.inl ⟨?_, hmem⟩)
      rw [insertSlot, lowerBound_spec hmw hkm, ok_bind, hs.entries, decide_eq_true hmem]
      rfl
    · have hneed : slotSize + (key.length - m.prefixLength) + Payload.len payload ≤ m.freeSpace := by
        rw [hs.prefixLength]
        exact hfree hroom
      obtain ⟨m', hm', hw', hl', hlow, hupp, -, hent⟩ := insertSlot_spec hmw hkm (hs.entries ▸ hmem) hneed
      have hins : Inserted key payload n.entries m'.entries := by
        rw [hent, hs.entries]
        refine inserted_insertIdx ?_ _ _
        simpa [keys] using lowerIndex_le_length (keys n.entries) key
      refine Or.inr (Or.inr ⟨m', by rw [hm', ok_bind]; rfl, hmem, ⟨hw', ?_, ?_, ?_, h.lower_len, h.upper_len, ?_⟩,
        hins.stored hmem, ?_⟩)
      · exact (hl'.trans hs.isLeaf).trans h.isLeaf
      · exact (hlow.trans hs.lower).trans h.lowerFence
      · exact (hupp.trans hs.upper).trans h.upperFence
      · intro e he
        rcases hins.mem_iff.mp he with rfl | he
        · exact ha
        · exact h.admits e he
      · rw [← entries_length, ← entries_length]
        exact hins.length_eq

theorem left_fits (h : LeafInv ℓ n lower upper) {info : SeparatorInfo} {sep : Bytes}
    (hinfo : n.findSeparatorLeaf = .ok info) (hs : Separates (keys n.entries) info.slot sep)
    (hk : InFences n.getLowerFence n.getUpperFence sep) (hlen : sep.length ≤ ℓ.key) :
    pageBytes n.getLowerFence sep (n.entries.take (info.slot + 1)) ≤ pageSize := by
  have hslot := findSeparatorLeaf_slot_le hinfo
  rcases Nat.lt_or_ge n.count 16 with hfew | hmany
  · have hfits := ℓ.fits
    have hlow := h.lower_len
    have htaken : ∀ e ∈ n.entries.take (info.slot + 1), ℓ.Admits e.1 e.2 :=
      fun e he => h.admits e (List.mem_of_mem_take he)
    have hbytes := pageBytes_le_of_admits htaken n.getLowerFence sep
    have htake : (n.entries.take (info.slot + 1)).length ≤ 8 := by
      rw [List.length_take]
      omega
    have hprod := Nat.mul_le_mul_left ℓ.record htake
    rw [h.lowerFence] at hbytes ⊢
    simp only [slotsOffset, slotSize, pageSize] at *
    omega
  · have hkey := ℓ.key_le
    rw [pageBytes_left_iff h.wf hs hk, leftRoom]
    simp only [slotSize]
    omega

theorem split_spec (h : LeafInv ℓ n lower upper) (hcount : 2 < n.count) :
    ∃ sep l r, n.separatorLength = .ok sep.length ∧ n.split = .ok (sep, l, r) ∧
      Halves (LeafInv ℓ) entries n.entries lower upper sep l r ∧ sep ≠ upper ∧ 0 < l.count ∧ 0 < r.count ∧
      l.count + r.count = n.count := by
  obtain ⟨info, t, hinfo, hfound⟩ := findSeparatorLeaf_spec h.wf.sorted (by omega)
  obtain ⟨hseps, hin, hne, hlength⟩ := hfound.full h.wf.toOrdered
  have hfind : n.findSeparator = .ok info := (findSeparator_leaf h.isLeaf).trans hinfo
  have hlen : (n.getPrefix ++ t).length ≤ ℓ.key := by
    obtain ⟨k, hk, hpre⟩ := hfound.isPrefix
    obtain ⟨e, he, rfl⟩ := List.mem_map.mp (List.mem_of_getElem? hk)
    have hent := (h.admits (n.getPrefix ++ e.1, e.2) (List.mem_map_of_mem he)).1
    have hple := hpre.length_le
    rw [List.length_append] at hent ⊢
    omega
  have hright := (foundSeparator_of_leaf h.wf hinfo hfound.getSep).2.2
  obtain ⟨l, r, hlr⟩ := splitLeaf_ok h.wf hseps (h.left_fits hinfo hseps hin hlen) hright
  obtain ⟨hl, hr⟩ := splitLeaf_spec h.wf hseps hin hlr
  have hslot := findSeparatorLeaf_slot_lt hinfo hcount
  have hlc : l.count = info.slot + 1 := by
    rw [← entries_length, hl.entries, List.length_take, entries_length]
    omega
  have hrc : r.count = n.count - (info.slot + 1) := by
    rw [← entries_length, hr.entries, List.length_drop, entries_length]
  rw [h.isLeaf, h.lowerFence] at hl
  rw [h.isLeaf, h.upperFence] at hr
  rw [h.lowerFence, h.upperFence] at hin
  have hlinv := of_holds hl h.lower_len hlen fun e he => h.admits e (List.mem_of_mem_take he)
  have hrinv := of_holds hr hlen h.upper_len fun e he => h.admits e (List.mem_of_mem_drop he)
  refine ⟨n.getPrefix ++ t, l, r, ?_, ?_, ⟨hin, hne, hlen.trans ℓ.key_le_max, hlinv, hrinv, ?_⟩, ?_, by omega,
    by omega, by omega⟩
  · rw [separatorLength, hfind, ← hlength]
    rfl
  · rw [split, hfind, ok_bind, hfound.getSep, ok_bind, hlr]
    rfl
  · rw [hl.entries, hr.entries, List.take_append_drop]
  · obtain ⟨e, he⟩ : ∃ e, e ∈ r.entries := List.exists_mem_of_length_pos (by rw [entries_length]; omega)
    exact ne_upper_of_inFences hne (hrinv.inFences he)

theorem remove_removing (h : LeafInv ℓ n lower upper) (hk : InFences lower upper key) :
    ∃ found m, n.remove key = .ok (found, m) ∧ Removing (LeafInv ℓ m lower upper) key n.entries m.entries found := by
  obtain ⟨found, l, hl, hrem⟩ := LeafNode.remove_removing h.leaf hk
  obtain ⟨r, hr, hpure⟩ := bind_eq_ok.mp hl
  obtain ⟨found', m⟩ := r
  obtain ⟨rfl, rfl⟩ := Prod.mk.inj (Except.ok.inj hpure)
  refine ⟨found', m, hr, ⟨of_leaf hrem.inv h.lower_len h.upper_len fun e he => ?_, hrem.found_iff, hrem.done,
    hrem.absent⟩⟩
  cases found' with
  | true => exact h.admits e ((hrem.done rfl).mem_of_mem he)
  | false =>
    have hent : m.entries = n.entries := hrem.absent rfl
    exact h.admits e (hent ▸ he)

theorem count_of_removing {m : BTreeNode Bytes} {Q : Prop} {found : Bool}
    (h : Removing Q key n.entries m.entries found) : n.count = m.count + found.toNat := by
  rw [← entries_length, ← entries_length]
  cases found with
  | true => exact (h.done rfl).length_eq
  | false => exact (congrArg List.length (h.absent rfl)).symm

theorem mergeLeaf_joined {right : BTreeNode Bytes} {a s b : Bytes} (h : LeafInv ℓ n a s) (hr : LeafInv ℓ right s b)
    (hs : s ≠ []) :
    ∃ res, n.mergeLeaf right = .ok res ∧
      ∀ m, res = some m → LeafInv ℓ m a b ∧ m.entries = n.entries ++ right.entries ∧
        m.count = n.count + right.count := by
  have hlow := h.lower_len
  have hupp := hr.upper_len
  have hkey := ℓ.key_le
  obtain ⟨res, hres, hm⟩ := mergeLeaf_spec h.wf hr.wf (hr.isLeaf.trans h.isLeaf.symm)
    (hr.lowerFence.trans h.upperFence.symm) (h.upperFence.trans_ne hs) (by
      rw [h.lowerFence, hr.upperFence]
      simp only [slotsOffset, pageSize]
      omega)
  refine ⟨res, hres, ?_⟩
  rintro m rfl
  have hmerged := hm m rfl
  rw [h.lowerFence, hr.upperFence, h.isLeaf] at hmerged
  refine ⟨of_holds hmerged hlow hupp fun e he => ?_, hmerged.entries, ?_⟩
  · exact (List.mem_append.mp he).elim (h.admits e) (hr.admits e)
  · rw [← entries_length, hmerged.entries, List.length_append, entries_length, entries_length]

end LeafInv

end BTreeNode

end BtreeRedis
