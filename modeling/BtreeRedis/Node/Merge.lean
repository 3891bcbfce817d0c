import BtreeRedis.Node.Split

/-!
# Merging two neighbouring leaves

`mergeNodes` rebuilds both leaves in one page under the outer fences. Whether they fit
is decided by an upper bound on the space, which the growing keys can only reach.
-/

namespace BtreeRedis

open LexOrder SortedAssoc

namespace BTreeNode
variable {π : Type} [Payload π]

def mergeSpaceUpperBound (n right tmp : BTreeNode π) : ℕ :=
  n.spaceUsed + right.spaceUsed + (slotsOffset + slotSize * (n.count + right.count)) +
    (n.prefixLength - tmp.prefixLength) * n.count +
    (right.prefixLength - tmp.prefixLength) * right.count

/-- `mergeNodes` of two leaves: the page that replaces `right`, or nothing. The parent loses the
slot of the left one. -/
def mergeLeaf (n right : BTreeNode π) : Except Fault (Option (BTreeNode π)) := do
  let tmp ← (init n.isLeaf).setFences n.getLowerFence right.getUpperFence
  ensure (right.isLeaf = n.isLeaf) .assertion
  if pageSize < n.mergeSpaceUpperBound right tmp then pure none
  else do
    let tmp ← n.copyKeyValueRange tmp 0 n.count
    let tmp ← right.copyKeyValueRange tmp 0 right.count
    pure (some tmp.makeHint)

theorem entryBytes_truncate_map_le (pre lower upper : Bytes) (es : List (Bytes × π)) :
    entryBytes (truncate lower upper (es.map fun e => (pre ++ e.1, e.2))) ≤
      entryBytes es + (pre.length - commonPrefixLength lower upper) * es.length := by
  induction es with
  | nil => simp [truncate]
  | cons e es ih =>
    simp only [truncate, List.map_cons, entryBytes_cons, List.length_drop, List.length_append, List.length_cons,
      Nat.mul_succ] at ih ⊢
    omega

theorem entryBytes_truncate_le {n : BTreeNode π} (h : Ordered n) (lower upper : Bytes) :
    entryBytes (truncate lower upper n.entries) ≤
      entryBytes n.content + (n.prefixLength - commonPrefixLength lower upper) * n.count := by
  have he := entryBytes_truncate_map_le n.getPrefix lower upper n.content
  rwa [content_length, h.length_getPrefix] at he

theorem mergeLeaf_spec {n right : BTreeNode π} (h : WF n) (g : WF right)
    (hleaf : right.isLeaf = n.isLeaf) (hadj : right.getLowerFence = n.getUpperFence)
    (hmid : n.getUpperFence ≠ [])
    (hpage : slotsOffset + n.getLowerFence.length + right.getUpperFence.length ≤ pageSize) :
    ∃ res, n.mergeLeaf right = .ok res ∧
      ∀ m, res = some m → Holds m n.isLeaf n.getLowerFence right.getUpperFence
        (n.entries ++ right.entries) := by
  have hnf : n.getLowerFence ≤ n.getUpperFence := h.fences.resolve_left hmid
  have hrf : right.getUpperFence = [] ∨ n.getUpperFence ≤ right.getUpperFence := hadj ▸ g.fences
  have hfen : FencesOrdered n.getLowerFence right.getUpperFence := hrf.imp id hnf.trans
  have hinL : ∀ e ∈ n.entries, InFences n.getLowerFence right.getUpperFence e.1 := fun e he =>
    (h.entries_inFences he).mono le_rfl (hrf.imp id fun hr => ⟨hmid, hr⟩)
  have hinR : ∀ e ∈ right.entries, InFences n.getLowerFence right.getUpperFence e.1 := fun e he =>
    (g.entries_inFences he).mono (hadj ▸ hnf)
      ((eq_or_ne right.getUpperFence []).imp id fun hne => ⟨hne, le_rfl⟩)
  have hsort : Ascending (keys (n.entries ++ right.entries)) := by
    rw [keys_append]
    refine ascending_append.mpr ⟨h.sorted_entries, g.sorted_entries, fun a ha b hb => ?_⟩
    obtain ⟨e, he, rfl⟩ := List.mem_map.mp ha
    obtain ⟨f, hf, rfl⟩ := List.mem_map.mp hb
    have he' := (h.entries_inFences he).2.resolve_left hmid
    exact he'.trans_lt ((hadj ▸ (g.entries_inFences hf).1).resolve_left hmid)
  have hsetp : (init n.isLeaf : BTreeNode π).setFences n.getLowerFence right.getUpperFence =
      .ok (fenced n.isLeaf n.getLowerFence right.getUpperFence) := setFences_init_eq_ok.mpr ⟨hpage, rfl⟩
  set p : BTreeNode π := fenced n.isLeaf n.getLowerFence right.getUpperFence with hp
  simp only [mergeLeaf, hsetp, ensure_of hleaf, ok_bind]
  split_ifs with hbig
  · exact ⟨none, rfl, by simp⟩
  · have hallN : (n.entries.drop 0).take n.count = n.entries := by
      rw [List.drop_zero, ← entries_length, List.take_length]
    have hallR : (right.entries.drop 0).take right.count = right.entries := by
      rw [List.drop_zero, ← entries_length, List.take_length]
    have hbytesN := entryBytes_truncate_le h.toOrdered n.getLowerFence right.getUpperFence
    have hbytesR := entryBytes_truncate_le g.toOrdered n.getLowerFence right.getUpperFence
    have hspN := h.space
    have hspR := g.space
    have hppl : p.prefixLength = commonPrefixLength n.getLowerFence right.getUpperFence := rfl
    have hpd : p.dataOffset = pageSize - n.getLowerFence.length - right.getUpperFence.length := rfl
    simp only [mergeSpaceUpperBound, hppl, slotsOffset, slotSize, pageSize, not_lt] at hbig hpd hpage
    obtain ⟨m, hm⟩ := copy_ok (p := p) h.toOrdered hppl (i := 0) (c := n.count) (hallN.symm ▸ hinL)
      (by
        rw [hallN, hpd, count_fenced, entries_length]
        simp only [slotsOffset, slotSize]
        omega)
    have hgm := (copyKeyValueRange_grown h.length_getPrefix hm).1
    rw [map_rekey hppl, hallN] at hgm
    have hmc := hgm.count
    have hmo := hgm.offset
    rw [truncate_length, entries_length, count_fenced, Nat.zero_add] at hmc
    rw [hpd] at hmo
    obtain ⟨m', hm'⟩ := copy_ok (p := m) g.toOrdered (hgm.prefixLength.trans hppl) (i := 0)
      (c := right.count) (hallR.symm ▸ hinR)
      (by
        rw [hallR, hmc, entries_length]
        simp only [slotsOffset, slotSize]
        omega)
    obtain ⟨hgm', hroom⟩ := copyKeyValueRange_grown g.length_getPrefix hm'
    rw [map_rekey (hgm.prefixLength.trans hppl), hallR] at hgm'
    have hgrown := hgm.trans hgm'
    rw [← truncate_append] at hgrown
    refine ⟨some m'.makeHint, by simp only [hm, hm', ok_bind]; rfl, fun r hr => ?_⟩
    obtain rfl := Option.some.inj hr
    refine grown_fenced hgrown hroom hfen ?_ hsort fun e he => ?_
    · simpa using hpage
    · exact (List.mem_append.mp he).elim (hinL e) (hinR e)

end BTreeNode

end BtreeRedis
