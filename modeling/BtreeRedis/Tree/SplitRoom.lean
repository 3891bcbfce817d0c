import BtreeRedis.Tree.Calls

/-!
# Whether the two halves of a node fit

A half takes the separator as a new fence and gives up the entries of the other half. The
right half always fits, and so does the left half of an inner node, whose separator leaves
it. The left half of a leaf fits as long as the separator is no longer than what that half
gives up; a key that is its own separator can be longer.
-/

namespace BtreeRedis

open LexOrder SortedAssoc

namespace BTreeNode
variable {π : Type} [Payload π] {n : BTreeNode π}

def SplitFits (n : BTreeNode π) : Prop :=
  ∀ info sep, n.findSeparator = .ok info → n.getSep info = .ok sep → 0 < info.slot →
    if n.isLeaf then ∃ l r, n.splitLeaf info.slot sep = .ok (l, r)
    else ∃ l c r, n.splitInner info.slot sep = .ok (l, c, r)

/-- What the left half has for its new fence: the free space, the old upper fence, the entries that go
right, and what its keys lose under the longer prefix. -/
def leftRoom (n : BTreeNode π) (slot : ℕ) (sep : Bytes) : ℕ :=
  n.freeSpaceAfterCompaction + n.getUpperFence.length + slotSize * (n.count - (slot + 1)) +
    entryBytes (n.content.drop (slot + 1)) +
    (commonPrefixLength n.getLowerFence sep - n.prefixLength) * (slot + 1)

section
omit [Payload π]

theorem separatorLoop_length {low : Bytes} {m fuel : ℕ} {info : SeparatorInfo} :
    ∀ {i : ℕ}, n.separatorLoop low m fuel i = .ok info → 0 < i →
      (∀ k, (keys n.content)[i - 1]? = some k → m ≤ k.length) →
      ∀ k, (keys n.content)[info.slot]? = some k → info.length ≤ n.prefixLength + k.length + 1 := by
  induction fuel with
  | zero => exact fun h => nomatch h
  | succ fuel ih =>
    intro i h hi hprev k hk
    simp only [separatorLoop, bind_eq_ok, ensure_eq_ok, exists_const] at h
    obtain ⟨key, hkey, hlen, h⟩ := h
    have hkey' : (keys n.content)[i]? = some key := getKey_eq_ok.mp hkey
    split_ifs at h with hne hfull
    · cases h
      rw [hkey'] at hk
      cases hk
      dsimp only
      omega
    · cases h
      have hm := hprev k hk
      dsimp only
      omega
    · refine ih h (Nat.succ_pos i) (fun k' hk' => ?_) k hk
      rw [Nat.add_sub_cancel, hkey'] at hk'
      cases hk'
      exact hlen.le

theorem findSeparatorLeaf_length {info : SeparatorInfo} (h : n.findSeparatorLeaf = .ok info) {k : Bytes}
    (hk : (keys n.content)[info.slot]? = some k) : info.length ≤ n.prefixLength + k.length + 1 := by
  simp only [findSeparatorLeaf, commonPrefix, bind_eq_ok, ensure_eq_ok, exists_const, pure_eq_ok] at h
  obtain ⟨hc, m, ⟨hl, a, ha, b, hb, rfl⟩, low, hlow, h⟩ := h
  rw [ha] at hlow
  cases hlow
  have ha' := getKey_eq_ok.mp ha
  split_ifs at h with hfull
  · cases h
    rw [ha'] at hk
    cases hk
    dsimp only
    omega
  · refine separatorLoop_length h (Nat.succ_pos _) (fun k' hk' => ?_) k hk
    rw [Nat.add_sub_cancel, ha'] at hk'
    cases hk'
    exact commonPrefixLength_le_left _ _

end

theorem entryBytes_longer {pre lower upper : Bytes} {es : List (Bytes × π)}
    (hall : ∀ e ∈ es, commonPrefixLength lower upper ≤ (pre ++ e.1).length)
    (hp : pre.length ≤ commonPrefixLength lower upper) :
    entryBytes (truncate lower upper (es.map fun e => (pre ++ e.1, e.2))) +
      (commonPrefixLength lower upper - pre.length) * es.length = entryBytes es := by
  induction es with
  | nil => simp [truncate]
  | cons e es ih =>
    have he := hall e List.mem_cons_self
    have hes := ih fun f hf => hall f (List.mem_cons_of_mem e hf)
    simp only [truncate, List.map_cons, entryBytes_cons, List.length_drop, List.length_append,
      List.length_cons, Nat.mul_succ] at he hes ⊢
    omega

section
omit [Payload π]

theorem map_take_entries (n : BTreeNode π) (k : ℕ) :
    n.entries.take k = (n.content.take k).map fun e => (n.getPrefix ++ e.1, e.2) := by
  rw [entries, List.map_take]

theorem map_drop_entries (n : BTreeNode π) (k : ℕ) :
    n.entries.drop k = (n.content.drop k).map fun e => (n.getPrefix ++ e.1, e.2) := by
  rw [entries, List.map_drop]

end

theorem entryBytes_take_drop (es : List (Bytes × π)) (k : ℕ) :
    entryBytes (es.take k) + entryBytes (es.drop k) = entryBytes es := by
  rw [← entryBytes_append, List.take_append_drop]

section Halves
variable {slot : ℕ} {sep : Bytes}

section
omit [Payload π]

theorem prefixLength_le_left (h : Ordered n) (hk : InFences n.getLowerFence n.getUpperFence sep) :
    n.prefixLength ≤ commonPrefixLength n.getLowerFence sep := by
  rw [← h.length_getPrefix]
  refine le_commonPrefixLength (List.take_prefix _ _) ?_
  rw [getPrefix, h.prefixLen]
  exact hk.isPrefix

theorem prefixLength_le_right (h : Ordered n) (hk : InFences n.getLowerFence n.getUpperFence sep) :
    n.prefixLength ≤ commonPrefixLength sep n.getUpperFence := by
  rw [← h.length_getPrefix]
  refine le_commonPrefixLength ?_ ?_
  · rw [getPrefix, h.prefixLen]
    exact hk.isPrefix
  · rw [getPrefix, h.prefixLen]
    exact take_commonPrefix_prefix_right _ _

end

theorem commonPrefixLength_le_key {lower upper key : Bytes} (hk : InFences lower upper key) :
    commonPrefixLength lower upper ≤ key.length := by
  have hl := hk.isPrefix.length_le
  rwa [List.length_take, Nat.min_eq_left (commonPrefixLength_le_left _ _)] at hl

theorem entryBytes_left (h : Ordered n) (hs : Separates (keys n.entries) slot sep)
    (hk : InFences n.getLowerFence n.getUpperFence sep) {k : ℕ} (hkn : k ≤ slot + 1) :
    entryBytes (truncate n.getLowerFence sep (n.entries.take k)) +
      (commonPrefixLength n.getLowerFence sep - n.prefixLength) * (n.content.take k).length =
        entryBytes (n.content.take k) := by
  have hp := prefixLength_le_left h hk
  rw [← h.length_getPrefix] at hp ⊢
  rw [map_take_entries]
  refine entryBytes_longer (fun e he => commonPrefixLength_le_key ?_) hp
  refine hs.left h (e := (n.getPrefix ++ e.1, e.2)) ?_
  refine List.take_subset_take_left _ hkn ?_
  rw [map_take_entries]
  exact List.mem_map_of_mem he

theorem entryBytes_right_le (h : Ordered n) (hs : Separates (keys n.entries) slot sep)
    (hk : InFences n.getLowerFence n.getUpperFence sep) :
    entryBytes (truncate sep n.getUpperFence (n.entries.drop (slot + 1))) ≤
      entryBytes (n.content.drop (slot + 1)) := by
  have hp := prefixLength_le_right h hk
  rw [← h.length_getPrefix] at hp
  rw [map_drop_entries]
  refine (Nat.le_add_right _ _).trans (entryBytes_longer (fun e he => commonPrefixLength_le_key ?_) hp).le
  refine hs.right h (e := (n.getPrefix ++ e.1, e.2)) ?_
  rw [map_drop_entries]
  exact List.mem_map_of_mem he

section
omit [Payload π]

theorem slot_lt_count (hs : Separates (keys n.entries) slot sep) : slot < n.count := by
  have hlt := hs.lt
  rwa [keys, List.length_map, entries_length] at hlt

end

theorem pageBytes_left_iff (h : WF n) (hs : Separates (keys n.entries) slot sep)
    (hk : InFences n.getLowerFence n.getUpperFence sep) :
    pageBytes n.getLowerFence sep (n.entries.take (slot + 1)) ≤ pageSize ↔
      sep.length ≤ n.leftRoom slot sep := by
  have hlt := slot_lt_count hs
  have hle := h.pageBytes_le
  have hfree := h.freeSpaceAfterCompaction_eq
  have hleft := entryBytes_left h.toOrdered hs hk (le_refl (slot + 1))
  have hsplit := entryBytes_take_drop n.content (slot + 1)
  have hcont := congrArg entryBytes h.toOrdered.content_truncate
  have htake : (n.content.take (slot + 1)).length = slot + 1 := by
    rw [List.length_take, content_length]
    omega
  rw [htake] at hleft
  simp only [leftRoom, pageBytes, List.length_take, entries_length, slotSize] at *
  omega

theorem pageBytes_right_le (h : WF n) (hs : Separates (keys n.entries) slot sep)
    (hk : InFences n.getLowerFence n.getUpperFence sep)
    (hlen : sep.length ≤ n.getLowerFence.length + slotSize * (slot + 1) +
      entryBytes (n.content.take (slot + 1))) :
    pageBytes sep n.getUpperFence (n.entries.drop (slot + 1)) ≤ pageSize := by
  have hlt := slot_lt_count hs
  have hle := h.pageBytes_le
  have hright := entryBytes_right_le h.toOrdered hs hk
  have hsplit := entryBytes_take_drop n.content (slot + 1)
  have hcont := congrArg entryBytes h.toOrdered.content_truncate
  simp only [pageBytes, List.length_drop, entries_length, slotSize] at *
  omega

theorem entryBytes_take_succ {k : Bytes} (hk : (keys n.content)[slot]? = some k) :
    entryBytes (n.content.take slot) + k.length ≤ entryBytes (n.content.take (slot + 1)) := by
  rw [keys, List.getElem?_map, Option.map_eq_some_iff] at hk
  obtain ⟨e, he, rfl⟩ := hk
  rw [List.take_add_one, he, entryBytes_append]
  change _ ≤ _ + entryBytes [e]
  rw [entryBytes_cons]
  omega

theorem pageBytes_left_inner_le (h : WF n) (hs : Separates (keys n.entries) slot sep)
    (hk : InFences n.getLowerFence n.getUpperFence sep) {k : Bytes}
    (hkey : (keys n.content)[slot]? = some k) (hlen : sep.length = n.prefixLength + k.length) :
    pageBytes n.getLowerFence sep (n.entries.take slot) ≤ pageSize := by
  have hlt := slot_lt_count hs
  have hle := h.pageBytes_le
  have hpu := h.prefixLength_le_upper
  have hleft := entryBytes_left h.toOrdered hs hk (Nat.le_succ slot)
  have hsucc := entryBytes_take_succ hkey
  have hsplit := entryBytes_take_drop n.content (slot + 1)
  have hcont := congrArg entryBytes h.toOrdered.content_truncate
  simp only [pageBytes, List.length_take, entries_length, slotSize] at *
  omega

end Halves

section
omit [Payload π]

theorem findSeparator_leaf (hl : n.isLeaf = true) : n.findSeparator = n.findSeparatorLeaf := by
  rw [findSeparator, if_pos hl]

theorem findSeparator_inner (hl : ¬ n.isLeaf = true) : n.findSeparator = n.findSeparatorInner := by
  rw [findSeparator, if_neg hl]

end

theorem foundSeparator_of_leaf (h : WF n) {info : SeparatorInfo} {sep : Bytes}
    (hi : n.findSeparatorLeaf = .ok info) (hsep : n.getSep info = .ok sep) :
    Separates (keys n.entries) info.slot sep ∧ InFences n.getLowerFence n.getUpperFence sep ∧
      pageBytes sep n.getUpperFence (n.entries.drop (info.slot + 1)) ≤ pageSize := by
  have hc : 1 < n.count := by
    have hi' := hi
    simp only [findSeparatorLeaf, bind_eq_ok, ensure_eq_ok, exists_const] at hi'
    exact hi'.1
  obtain ⟨info', t, hi', hf⟩ := findSeparatorLeaf_spec h.sorted hc
  rw [hi] at hi'
  cases hi'
  rw [hf.getSep] at hsep
  cases hsep
  obtain ⟨hs, hk, -, hlen⟩ := hf.full h.toOrdered
  refine ⟨hs, hk, pageBytes_right_le h hs hk ?_⟩
  obtain ⟨k, hkey⟩ : ∃ k, (keys n.content)[info.slot]? = some k :=
    ⟨_, List.getElem?_eq_getElem hf.separates.lt⟩
  have hle := findSeparatorLeaf_length hi hkey
  have hsucc := entryBytes_take_succ hkey
  have hpl := h.prefixLength_le
  simp only [slotSize]
  omega

theorem splitLeaf_fits_iff (h : WF n) {info : SeparatorInfo} {sep : Bytes}
    (hi : n.findSeparatorLeaf = .ok info) (hsep : n.getSep info = .ok sep) :
    (∃ l r, n.splitLeaf info.slot sep = .ok (l, r)) ↔ sep.length ≤ n.leftRoom info.slot sep := by
  obtain ⟨hs, hk, hright⟩ := foundSeparator_of_leaf h hi hsep
  rw [← pageBytes_left_iff h hs hk]
  constructor
  · rintro ⟨l, r, hlr⟩
    have hl := (splitLeaf_spec h hs hk hlr).1
    have hle := hl.wf.pageBytes_le
    rwa [hl.lower, hl.upper, hl.entries] at hle
  · intro hleft
    exact splitLeaf_ok h hs hleft hright

theorem splitInner_fits (h : WF n) {info : SeparatorInfo} {sep : Bytes}
    (hi : n.findSeparatorInner = .ok info) (hsep : n.getSep info = .ok sep) (hpos : 0 < info.slot) :
    ∃ l c r, n.splitInner info.slot sep = .ok (l, c, r) := by
  have hc : 3 < n.count := by
    have hi' := hi
    simp only [findSeparatorInner, bind_eq_ok, ensure_eq_ok, exists_const, pure_eq_ok] at hi'
    obtain ⟨-, key, -, rfl⟩ := hi'
    dsimp only at hpos
    omega
  obtain ⟨info', t, hi', hf, hslot, hkey⟩ := findSeparatorInner_spec h.toOrdered hc
  rw [hi] at hi'
  cases hi'
  rw [hf.getSep] at hsep
  cases hsep
  rw [← hslot] at hkey
  obtain ⟨hs, hk, -, hlen⟩ := hf.full h.toOrdered
  have hlen' : (n.getPrefix ++ t).length = n.prefixLength + t.length := by
    rw [List.length_append, h.length_getPrefix]
  refine splitInner_ok h hs (pageBytes_left_inner_le h hs hk hkey hlen') (pageBytes_right_le h hs hk ?_)
  have hsucc := entryBytes_take_succ hkey
  have hpl := h.prefixLength_le
  simp only [slotSize]
  omega

theorem length_le_leftRoom (h : WF n) {info : SeparatorInfo} {sep k : Bytes}
    (hm : k ∈ keys (n.content.drop (info.slot + 1))) (hpre : sep <+: n.getPrefix ++ k) :
    sep.length ≤ n.leftRoom info.slot sep := by
  have hle := hpre.length_le
  rw [List.length_append, h.length_getPrefix] at hle
  obtain ⟨e, he, rfl⟩ := List.mem_map.mp hm
  have hbytes := entryBytes_mem he
  have hpu := h.prefixLength_le_upper
  simp only [leftRoom]
  omega

theorem truncated_le_leftRoom (h : WF n) {info : SeparatorInfo} {sep : Bytes}
    (hsep : n.getSep info = .ok sep) (ht : info.isTruncated = true) : sep.length ≤ n.leftRoom info.slot sep := by
  rw [getSep, restoreKey_eq_ok, if_pos ht] at hsep
  obtain ⟨k, hk, -, rfl⟩ := hsep
  refine length_le_leftRoom h (k := k) ?_ ((List.prefix_append_right_inj _).mpr (List.take_prefix _ _))
  refine List.mem_of_getElem? (i := 0) ?_
  rw [keys, List.map_drop, List.getElem?_drop]
  exact hk

/-- Both halves of every node fit, except for the left half of a leaf whose separator is a whole key
and longer than what that half gives up. -/
theorem splitFits_iff (h : WF n) : n.SplitFits ↔
    (n.isLeaf = true → ∀ info sep, n.findSeparator = .ok info → n.getSep info = .ok sep →
      info.isTruncated = true ∨ sep.length ≤ n.leftRoom info.slot sep) := by
  by_cases hl : n.isLeaf = true
  · simp only [SplitFits, hl, if_true, forall_const, findSeparator_leaf hl]
    refine forall₂_congr fun info sep => forall₂_congr fun hi hsep => ?_
    have hpos := (foundSeparator_of_leaf h hi hsep).1.pos
    rw [splitLeaf_fits_iff h hi hsep]
    exact ⟨fun hf => Or.inr (hf hpos), fun hf _ => hf.elim (truncated_le_leftRoom h hsep) id⟩
  · refine iff_of_true ?_ fun hc => absurd hc hl
    intro info sep hi hsep hpos
    rw [if_neg hl]
    exact splitInner_fits h (findSeparator_inner hl ▸ hi) hsep hpos

/-- A leaf with the keys `01` and `02` is split at `02`. -/
theorem splitFits_iff_pair : ∃ n : BTreeNode Bytes, n.count = 2 ∧ n.isLeaf = true ∧ n.SplitFits := by
  obtain ⟨a, ha, hw, -⟩ := insertSlot_spec (init_holds (π := Bytes) true).wf
    (by decide : InFences [] [] [1]) List.not_mem_nil (by decide : 11 + Payload.len ([] : Bytes) ≤ _)
  obtain rfl : _ = a := Except.ok.inj ha
  obtain ⟨b, hb, hw, -⟩ := insertSlot_spec hw (by decide : InFences [] [] [2]) (by decide)
    (by decide : 11 + Payload.len ([] : Bytes) ≤ _)
  obtain rfl : _ = b := Except.ok.inj hb
  refine ⟨_, rfl, rfl, (splitFits_iff hw).mpr fun _ info sep hi hsep => ?_⟩
  obtain rfl : ⟨1, 1, false⟩ = info := Except.ok.inj hi
  obtain rfl : [2] = sep := Except.ok.inj hsep
  exact Or.inr (by decide)

def overflowsOn (key payload : Bytes) (t : BTree) : Bool :=
  match t.leafFor key with
  | .ok (.basic n) => decide (key ∉ keys t.entries) && (n.isLeaf &&
    decide (n.freeSpaceAfterCompaction < slotSize + (key.length - n.prefixLength) + payload.length)) &&
    match n.findSeparator with
    | .error _ => false
    | .ok info => decide (0 < info.slot) &&
      match n.getSep info with
      | .error _ => false
      | .ok sep => match n.splitLeaf info.slot sep with
        | .error e => e == .pageOverflow
        | .ok _ => false
  | _ => false

theorem overflowsOn_spec {key payload : Bytes} {t : BTree} (h : overflowsOn key payload t = true) :
    ∃ n, t.leafFor key = .ok (.basic n) ∧ key ∉ keys t.entries ∧
      n.freeSpaceAfterCompaction < slotSize + (key.length - n.prefixLength) + payload.length ∧
      ¬ n.SplitFits := by
  unfold overflowsOn at h
  split at h
  · next n hn =>
    simp only [Bool.and_eq_true, decide_eq_true_eq] at h
    obtain ⟨⟨hnew, hleaf, hfull⟩, h⟩ := h
    split at h
    · cases h
    · next info hi =>
      simp only [Bool.and_eq_true, decide_eq_true_eq] at h
      obtain ⟨hpos, h⟩ := h
      split at h
      · cases h
      · next sep hsep =>
        split at h
        · next e he =>
          refine ⟨n, hn, hnew, hfull, fun hf => ?_⟩
          have hs := hf info sep hi hsep hpos
          rw [if_pos hleaf] at hs
          obtain ⟨l, r, hlr⟩ := hs
          rw [he] at hlr
          cases hlr
        · cases h
  · cases h

def longest (b : Byte) : Bytes := List.replicate maxKVSize b

/-- A leaf above a fence of full length holds two more such keys; its left half would take four. -/
theorem splitLeaf_overflows : ∃ t n, BTree.Reachable true (fun _ _ _ => True) t ∧
    t.leafFor (longest 101) = .ok (.basic n) ∧ longest 101 ∉ keys t.entries ∧
    n.freeSpaceAfterCompaction < slotSize + ((longest 101).length - n.prefixLength) + ([] : Bytes).length ∧
    ¬ n.SplitFits := by
  have hrun : BTree.reaches true 3 [(longest 97, []), (longest 98, []), (longest 99, []),
      (longest 100, [])] (overflowsOn (longest 101) []) = true := by
    decide +kernel
  obtain ⟨t, ht, hc⟩ := BTree.reaches_spec hrun
  obtain ⟨n, hn⟩ := overflowsOn_spec hc
  exact ⟨t, n, ht, hn⟩

end BTreeNode

end BtreeRedis
