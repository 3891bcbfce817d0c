import BtreeRedis.Tree.SplitRoom
import BtreeRedis.Dense.Node

/-!
# Splitting a leaf for the sake of a dense one

`densifySplit` looks for a separator that leaves the left half to be made dense: it takes the
leading keys of one length that lie in the array above the lower fence, and lowers the next key
to one between that key and the last one taken. The lowered key is a separator unless the next
key is shorter and ends in a zero byte.
-/

namespace BtreeRedis

open LexOrder SortedAssoc

structure DenseSeparorInfo where
  fenceLen : ℕ
  lowerCount : ℕ

/-- `memcpy` of a piece into a buffer. -/
def copyAt (dst : Bytes) (pos : ℕ) (src : Bytes) : Bytes := dst.take pos ++ src ++ dst.drop (pos + src.length)

/-- The new fence length and the buffer, in which the first `fenceLen` bytes are the next key. -/
def lowerFenceKey (fullKeyLen fenceLen : ℕ) (sepBuffer : Bytes) : ℕ × Bytes :=
  let last := sepBuffer.getD (fenceLen - 1) 0
  if fenceLen = fullKeyLen then
    if 0 < last then (fenceLen, sepBuffer.set (fenceLen - 1) (last - 1)) else (fenceLen - 1, sepBuffer)
  else if fenceLen < fullKeyLen then
    (fullKeyLen, copyAt (sepBuffer.set (fenceLen - 1) (last - 1)) fenceLen
      (List.replicate (fullKeyLen - fenceLen) 255))
  else (fenceLen - 1, sepBuffer)

namespace BTreeNode

/-- `densifySplit` from where it knows how many keys to take. -/
def lowerNextKey (n : BTreeNode Bytes) (fullKeyLen takeKeyCount : ℕ) (sepBuffer : Bytes) :
    Except Fault (DenseSeparorInfo × Bytes) :=
  if takeKeyCount < n.count / 2 then .ok (⟨0, 0⟩, sepBuffer)
  else do
    let key ← n.getKey takeKeyCount
    let fenceLen := key.length + n.prefixLength
    ensure (fenceLen ≤ maxKVSize) .undefined
    let (fenceLen, sepBuffer) := lowerFenceKey fullKeyLen fenceLen (copyAt sepBuffer n.prefixLength key)
    pure (⟨fenceLen, takeKeyCount⟩, sepBuffer)

/-- The search goes with `lowerFence.length` bytes of a buffer in which `fullKeyLen` have been written. -/
def densifySplit (n : BTreeNode Bytes) : Except Fault (DenseSeparorInfo × Bytes) :=
  match n.slots with
  | [] => .error .undefined
  | s :: _ =>
    let minTake := n.count / 2
    let fullKeyLen := s.key.length + n.prefixLength
    if n.getLowerFence.length + maxNumericPartLen < fullKeyLen then .ok (⟨0, 0⟩, [])
    else
      let equalLen := (n.slots.takeWhile fun t =>
        t.key.length = s.key.length ∧ t.payload.length = s.payload.length).length
      if equalLen < minTake then .ok (⟨0, 0⟩, [])
      else do
        let arrayStart ← leastGreaterKey n.getLowerFence fullKeyLen
        let slotCount ← computeSlotCount s.payload.length (pageSize - 2 * n.getLowerFence.length)
        ensure (fullKeyLen ≤ maxKVSize) .undefined
        let sepBuffer := BtreeRedis.restoreKey arrayStart fullKeyLen n.getLowerFence
          ((slotCount + (numericRange - 1)) % numericRange)
        ensure (n.getLowerFence.length ≤ fullKeyLen) .undefined
        let (lowerBound, found) ← n.lowerBound (sepBuffer.take n.getLowerFence.length)
        n.lowerNextKey fullKeyLen (min (lowerBound + found.toNat) equalLen) sepBuffer

/-- `splitNodeWithParent` of a leaf whose parent has room for the separator, as far as it goes with a separator from
`densifySplit`. -/
def splitDensified (n : BTreeNode Bytes) : Except Fault (Option (Bytes × BTreeNode Bytes × BTreeNode Bytes)) := do
  let (sep, sepBuffer) ← n.densifySplit
  if sep.lowerCount ≠ 0 then do
    let sepKey := sepBuffer.take sep.fenceLen
    ensure (sep.fenceLen ≤ sepBuffer.length) .undefined
    let (index, found) ← n.lowerBound sepKey
    ensure (sep.lowerCount = index + found.toNat) .assertion
    let (left, right) ← n.splitLeaf (sep.lowerCount - 1) sepKey
    pure (some (sepKey, left, right))
  else pure none

end BTreeNode

/-- The key that the separator is: a key of the length of the others is lowered in its last place or loses a zero,
a shorter one is lowered and filled up, and a longer one loses its last place. -/
def separatorBelow (fullKeyLen : ℕ) (key : Bytes) : Bytes :=
  let last := key.getLastD 0
  if key.length = fullKeyLen ∧ last = 0 ∨ fullKeyLen < key.length then key.dropLast
  else key.dropLast ++ (last - 1) :: List.replicate (fullKeyLen - key.length) 255

theorem lowerFenceKey_spec {key : Bytes} (hkey : key ≠ []) (full : ℕ) (rest : Bytes) :
    (lowerFenceKey full key.length (key ++ rest)).1 = (separatorBelow full key).length ∧
      separatorBelow full key <+: (lowerFenceKey full key.length (key ++ rest)).2 := by
  obtain ⟨front, b, rfl⟩ := List.eq_nil_or_concat' key |>.resolve_left hkey
  have hlen : (front ++ [b]).length - 1 = front.length := by simp
  have hlast : (front ++ [b]).getLastD 0 = b := by simp
  have hget : (front ++ [b] ++ rest).getD front.length 0 = b := by simp
  have hset : (front ++ [b] ++ rest).set front.length (b - 1) = front ++ (b - 1) :: rest := by simp
  have hdrop : (front ++ [b]).dropLast = front := by simp
  have hcons : (front ++ [b]).length = front.length + 1 := by simp
  rw [lowerFenceKey, separatorBelow, hlen, hlast, hget, hset, hdrop, hcons]
  rcases lt_trichotomy (front.length + 1) full with hlt | rfl | hgt
  · have hcopy : copyAt (front ++ (b - 1) :: rest) (front.length + 1)
        (List.replicate (full - (front.length + 1)) 255) =
          front ++ (b - 1) :: List.replicate (full - (front.length + 1)) 255 ++
            rest.drop (full - (front.length + 1)) := by
      have hbuf : front ++ (b - 1) :: rest = (front ++ [b - 1]) ++ rest := by simp
      have hl : (front ++ [b - 1]).length = front.length + 1 := by simp
      rw [copyAt, hbuf, List.take_left' hl, List.length_replicate, ← List.drop_drop, List.drop_left' hl]
      simp
    rw [if_neg hlt.ne, if_pos hlt, if_neg (by omega), hcopy]
    refine ⟨?_, List.prefix_append _ _⟩
    simp
    omega
  · by_cases hb : b = 0
    · rw [if_pos rfl, if_neg (by simp [hb]), if_pos (Or.inl ⟨rfl, hb⟩)]
      exact ⟨rfl, by simp⟩
    · rw [if_pos rfl, if_pos (Fin.pos_of_ne_zero hb), if_neg (by simp [hb])]
      simp
  · rw [if_neg hgt.ne', if_neg hgt.not_gt, if_pos (Or.inr hgt)]
    exact ⟨rfl, by simp⟩

section Below
variable {front key : Bytes} {b : Byte} {full : ℕ}

theorem separatorBelow_append (front : Bytes) (b : Byte) (full : ℕ) :
    separatorBelow full (front ++ [b]) =
      if front.length + 1 = full ∧ b = 0 ∨ full < front.length + 1 then front
      else front ++ (b - 1) :: List.replicate (full - (front.length + 1)) 255 := by
  simp [separatorBelow]

theorem val_sub_one (hb : b ≠ 0) : (b - 1).val + 1 = b.val := by
  have hpos : b.val ≠ 0 := fun h => hb (Fin.ext h)
  rw [Fin.coe_sub_one (n := 255), if_neg hb]
  omega

theorem sub_one_lt (hb : b ≠ 0) : b - 1 < b := by
  have hval := val_sub_one hb
  rw [Fin.lt_def]
  omega

theorem separatorBelow_lt_iff (hkey : key ≠ []) :
    separatorBelow full key < key ↔ (key.length < full → key.getLast? ≠ some 0) := by
  obtain ⟨front, b, rfl⟩ := List.eq_nil_or_concat' key |>.resolve_left hkey
  have hlen : (front ++ [b]).length = front.length + 1 := by simp
  have hlast : (front ++ [b]).getLast? = some b := by simp
  rw [separatorBelow_append, hlen, hlast]
  split_ifs with hcase
  · refine iff_of_true (lt_append_singleton front b) fun hlt => ?_
    omega
  · rw [append_lt_append_iff, cons_lt_cons]
    by_cases hb : b = 0
    · subst hb
      have hlt : front.length + 1 < full := by
        by_contra hle
        have hne : front.length + 1 ≠ full := fun he => hcase (Or.inl ⟨he, rfl⟩)
        exact hcase (Or.inr (by omega))
      refine iff_of_false ?_ fun hn => hn hlt rfl
      rintro (h | ⟨h, -⟩)
      · exact absurd h (by decide)
      · exact absurd h (by decide)
    · exact iff_of_true (Or.inl (sub_one_lt hb)) fun _ he => hb (Option.some.inj he)

theorem le_separatorBelow (hkey : key ≠ []) {t : Bytes} (ht : t < key) (hlen : t.length = full) :
    t ≤ separatorBelow full key := by
  obtain ⟨front, b, rfl⟩ := List.eq_nil_or_concat' key |>.resolve_left hkey
  rw [separatorBelow_append]
  split_ifs with hcase
  · rcases hcase with ⟨-, rfl⟩ | hgt
    · exact not_lt.mp fun hlt => absurd ht (not_lt.mpr ((append_least_le_iff fun a => Fin.zero_le a).mpr hlt))
    · exact le_of_lt_append_singleton ht (by omega)
  · have hb : ∀ a, a < b → a ≤ b - 1 := by
      intro a ha
      have hval := val_sub_one (Fin.ne_zero_of_lt ha)
      rw [Fin.lt_def] at ha
      rw [Fin.le_def]
      omega
    exact le_append_replicate (fun a => Fin.le_last a) hb ht (by omega)

theorem length_separatorBelow (full : ℕ) (hkey : key ≠ []) :
    (separatorBelow full key).length ≤ max full key.length := by
  obtain ⟨front, b, rfl⟩ := List.eq_nil_or_concat' key |>.resolve_left hkey
  have hlen : (front ++ [b]).length = front.length + 1 := by simp
  rw [separatorBelow_append, hlen]
  split_ifs with hcase
  · omega
  · rw [List.length_append, List.length_cons, List.length_replicate]
    omega

end Below

namespace BTreeNode
variable {n : BTreeNode Bytes} {full t : ℕ} {next : Bytes × Bytes}

theorem length_le_prefix_add (h : Ordered n) {e : Bytes × Bytes} {es : List (Bytes × Bytes)}
    (he : e ∈ es.map fun c => (n.getPrefix ++ c.1, c.2)) : e.1.length ≤ n.prefixLength + entryBytes es := by
  obtain ⟨c, hc, rfl⟩ := List.mem_map.mp he
  have hbytes := entryBytes_mem hc
  rw [List.length_append, h.length_getPrefix]
  omega

structure Cut (n : BTreeNode Bytes) (full t : ℕ) (next : Bytes × Bytes) : Prop where
  pos : 0 < t
  next : n.entries[t]? = some next
  lengths : ∀ e ∈ n.entries.take t, e.1.length = full

namespace Cut

theorem lt_count (c : Cut n full t next) : t < n.count := by
  obtain ⟨ht, -⟩ := List.getElem?_eq_some_iff.mp c.next
  rwa [entries_length] at ht

theorem drop_eq (c : Cut n full t next) : n.entries.drop t = next :: n.entries.drop (t + 1) := by
  obtain ⟨ht, hget⟩ := List.getElem?_eq_some_iff.mp c.next
  rw [List.drop_eq_getElem_cons ht, hget]

theorem take_lt (c : Cut n full t next) (h : Ordered n) {e : Bytes × Bytes} (he : e ∈ n.entries.take t) :
    e.1 < next.1 := by
  have hsplit := h.sorted_entries
  rw [← List.take_append_drop t n.entries, keys, List.map_append, ascending_append] at hsplit
  refine hsplit.2.2 _ (List.mem_map_of_mem he) _ ?_
  rw [c.drop_eq]
  exact List.mem_cons_self

theorem next_le (c : Cut n full t next) (h : Ordered n) {e : Bytes × Bytes} (he : e ∈ n.entries.drop t) :
    next.1 ≤ e.1 := by
  have hsplit := h.sorted_entries.sublist ((List.drop_sublist t n.entries).map Prod.fst)
  rw [c.drop_eq, List.map_cons, List.pairwise_cons] at hsplit
  rw [c.drop_eq, List.mem_cons] at he
  rcases he with rfl | he
  · exact le_rfl
  · exact (hsplit.1 _ (List.mem_map_of_mem he)).le

theorem exists_mem (c : Cut n full t next) : ∃ e, e ∈ n.entries.take t := by
  have hlt := c.lt_count
  have hpos := c.pos
  refine List.exists_mem_of_length_pos ?_
  rw [List.length_take, entries_length]
  omega

theorem next_ne_nil (c : Cut n full t next) (h : Ordered n) : next.1 ≠ [] := by
  obtain ⟨e, he⟩ := c.exists_mem
  exact ne_nil_of_lt (c.take_lt h he)

theorem le_sep (c : Cut n full t next) (h : Ordered n) {e : Bytes × Bytes} (he : e ∈ n.entries.take t) :
    e.1 ≤ separatorBelow full next.1 :=
  le_separatorBelow (c.next_ne_nil h) (c.take_lt h he) (c.lengths e he)

theorem sep_lt (c : Cut n full t next) (h : Ordered n) (hlow : next.1.length < full → next.1.getLast? ≠ some 0)
    {e : Bytes × Bytes} (he : e ∈ n.entries.drop t) : separatorBelow full next.1 < e.1 :=
  ((separatorBelow_lt_iff (c.next_ne_nil h)).mpr hlow).trans_le (c.next_le h he)

theorem sep_ne_nil (c : Cut n full t next) (h : Ordered n) (ht : 1 < t) : separatorBelow full next.1 ≠ [] := by
  have hlt := c.lt_count
  have hlen := entries_length n
  have hone : n.entries[1] ∈ n.entries.take t := List.mem_take_iff_getElem.mpr ⟨1, by omega, rfl⟩
  have hkeys : 1 < (keys n.entries).length := by
    rw [keys, List.length_map]
    omega
  have hpos : (keys n.entries)[0] < (keys n.entries)[1] := h.sorted_entries.getElem_lt Nat.zero_lt_one hkeys
  have hget : (keys n.entries)[1] = n.entries[1].1 := List.getElem_map ..
  rw [hget] at hpos
  exact ne_nil_of_lt (hpos.trans_le (c.le_sep h hone))

theorem lower_lt (c : Cut n full t next) (h : Ordered n) (ht : 1 < t) :
    n.getLowerFence < separatorBelow full next.1 := by
  obtain ⟨e, he⟩ := c.exists_mem
  rcases (h.entries_inFences (List.mem_of_mem_take he)).1 with hnil | hlt
  · rw [hnil]
    exact pos_of_ne_nil (c.sep_ne_nil h ht)
  · exact hlt.trans_le (c.le_sep h he)

theorem inFences (c : Cut n full t next) (h : Ordered n) (ht : 1 < t)
    (hlow : next.1.length < full → next.1.getLast? ≠ some 0) :
    InFences n.getLowerFence n.getUpperFence (separatorBelow full next.1) := by
  refine ⟨Or.inr (c.lower_lt h ht), ?_⟩
  have hmem : next ∈ n.entries.drop t := by
    rw [c.drop_eq]
    exact List.mem_cons_self
  exact (h.entries_inFences (List.mem_of_mem_drop hmem)).2.imp id ((c.sep_lt h hlow hmem).le.trans ·)

theorem separates (c : Cut n full t next) (h : Ordered n) (ht : 1 < t)
    (hlow : next.1.length < full → next.1.getLast? ≠ some 0) :
    Separates (keys n.entries) (t - 1) (separatorBelow full next.1) := by
  have hlt := c.lt_count
  have hlen : (keys n.entries).length = n.count := by rw [keys, List.length_map, entries_length]
  have hget : ∀ j (hj : j < (keys n.entries).length),
      (keys n.entries)[j] = (getElem n.entries j (by rw [entries_length]; omega)).1 := fun j hj => List.getElem_map ..
  refine ⟨by omega, by omega, ?_, fun j hj hjt => ?_⟩
  · rw [hget]
    refine c.le_sep h (List.mem_take_iff_getElem.mpr ⟨t - 1, ?_, rfl⟩)
    rw [entries_length]
    omega
  · rw [hget]
    refine c.sep_lt h hlow (List.mem_drop_iff_getElem.mpr ⟨j - t, ?_, ?_⟩)
    · rw [entries_length]
      omega
    · simp only [Nat.add_sub_cancel' (show t ≤ j by omega)]

theorem left_fits (c : Cut n full t next) (h : n.WF) (ht : 1 < t)
    (hlow : next.1.length < full → next.1.getLast? ≠ some 0) (hle : full ≤ next.1.length) :
    pageBytes n.getLowerFence (separatorBelow full next.1) (n.entries.take t) ≤ pageSize := by
  have hsep := length_separatorBelow full (c.next_ne_nil h.toOrdered)
  have hpu := h.prefixLength_le_upper
  have hslot : t - 1 + 1 = t := Nat.sub_add_cancel c.pos
  have hnext : next ∈ n.entries.drop t := by
    rw [c.drop_eq]
    exact List.mem_cons_self
  rw [map_drop_entries] at hnext
  have hbytes := length_le_prefix_add h.toOrdered hnext
  have hiff := pageBytes_left_iff h (c.separates h.toOrdered ht hlow) (c.inFences h.toOrdered ht hlow)
  rw [hslot] at hiff
  rw [hiff, leftRoom, hslot]
  omega

theorem right_fits (c : Cut n full t next) (h : n.WF) (ht : 1 < t)
    (hlow : next.1.length < full → next.1.getLast? ≠ some 0) (hle : next.1.length ≤ full) :
    pageBytes (separatorBelow full next.1) n.getUpperFence (n.entries.drop t) ≤ pageSize := by
  have hsep := length_separatorBelow full (c.next_ne_nil h.toOrdered)
  have hpl : n.prefixLength ≤ n.getLowerFence.length := h.prefixLen ▸ commonPrefixLength_le_left _ _
  have hslot : t - 1 + 1 = t := Nat.sub_add_cancel c.pos
  obtain ⟨a, ha⟩ := c.exists_mem
  have hfull := c.lengths a ha
  rw [map_take_entries] at ha
  have hbytes := length_le_prefix_add h.toOrdered ha
  have hfits := pageBytes_right_le h (c.separates h.toOrdered ht hlow) (c.inFences h.toOrdered ht hlow)
  rw [hslot] at hfits
  apply hfits
  omega

end Cut

/-- What a next key of another length asks for: a shorter one does not end in a zero, and the half that gets the
longer fence still fits. -/
def NextFits (n : BTreeNode Bytes) (full t : ℕ) (next : Bytes × Bytes) : Prop :=
  (next.1.length < full → next.1.getLast? ≠ some 0 ∧
    pageBytes n.getLowerFence (separatorBelow full next.1) (n.entries.take t) ≤ pageSize) ∧
  (full < next.1.length → pageBytes next.1.dropLast n.getUpperFence (n.entries.drop t) ≤ pageSize)

instance (n : BTreeNode Bytes) (full t : ℕ) (next : Bytes × Bytes) : Decidable (n.NextFits full t next) :=
  inferInstanceAs (Decidable (_ ∧ _))

structure SplitsBehind (n : BTreeNode Bytes) (t : ℕ) (sep : Bytes) : Prop where
  lt_count : t < n.count
  le_sep : ∀ e ∈ n.entries.take t, e.1 ≤ sep
  sep_lt : ∀ e ∈ n.entries.drop t, sep < e.1
  lower_lt : n.getLowerFence < sep
  found : ∃ index found, n.lowerBound sep = .ok (index, found) ∧ t = index + found.toNat
  halves : ∃ left right, n.splitLeaf (t - 1) sep = .ok (left, right) ∧
    Holds left n.isLeaf n.getLowerFence sep (n.entries.take t) ∧
    Holds right n.isLeaf sep n.getUpperFence (n.entries.drop t)

theorem separatorBelow_longer {full : ℕ} {key : Bytes} (h : full < key.length) :
    separatorBelow full key = key.dropLast := if_pos (Or.inr h)

theorem Cut.splitsBehind_iff (c : Cut n full t next) (h : n.WF) :
    n.SplitsBehind t (separatorBelow full next.1) ↔ 1 < t ∧ n.NextFits full t next := by
  have hslot : t - 1 + 1 = t := Nat.sub_add_cancel c.pos
  constructor
  · intro hs
    obtain ⟨left, right, hsplit, hl, hr⟩ := hs.halves
    have hnext : next ∈ n.entries.drop t := by
      rw [c.drop_eq]
      exact List.mem_cons_self
    have hlow := (separatorBelow_lt_iff (c.next_ne_nil h.toOrdered)).mp (hs.sep_lt next hnext)
    have hpos : 0 < t - 1 := by
      simp only [splitLeaf, splitPages, bind_eq_ok, ensure_eq_ok, exists_const] at hsplit
      obtain ⟨_, ⟨hpos, -⟩, -⟩ := hsplit
      exact hpos
    refine ⟨by omega, fun hlt => ⟨hlow hlt, ?_⟩, fun hgt => ?_⟩
    · have hle := hl.wf.pageBytes_le
      rwa [hl.lower, hl.upper, hl.entries] at hle
    · have hle := hr.wf.pageBytes_le
      rwa [hr.lower, hr.upper, hr.entries, separatorBelow_longer hgt] at hle
  · rintro ⟨ht, hshort, hlong⟩
    have hlow : next.1.length < full → next.1.getLast? ≠ some 0 := fun hlt => (hshort hlt).1
    have hseps := c.separates h.toOrdered ht hlow
    have hin := c.inFences h.toOrdered ht hlow
    have hleft : pageBytes n.getLowerFence (separatorBelow full next.1) (n.entries.take t) ≤ pageSize := by
      by_cases hlt : next.1.length < full
      · exact (hshort hlt).2
      · exact c.left_fits h ht hlow (not_lt.mp hlt)
    have hright : pageBytes (separatorBelow full next.1) n.getUpperFence (n.entries.drop t) ≤ pageSize := by
      by_cases hgt : full < next.1.length
      · rw [separatorBelow_longer hgt]
        exact hlong hgt
      · exact c.right_fits h ht hlow (not_lt.mp hgt)
    have hle : ∀ e ∈ n.entries.take t, e.1 ≤ separatorBelow full next.1 := fun e he => c.le_sep h.toOrdered he
    have hlt : ∀ e ∈ n.entries.drop t, separatorBelow full next.1 < e.1 := fun e he => c.sep_lt h.toOrdered hlow he
    refine ⟨c.lt_count, hle, hlt, c.lower_lt h.toOrdered ht, ?_, ?_⟩
    · refine ⟨_, _, lowerBound_spec h hin, ?_⟩
      have hkeys : keys n.entries = keys (n.entries.take t) ++ keys (n.entries.drop t) := by
        rw [keys, keys, keys, ← List.map_append, List.take_append_drop]
      have hcount := c.lt_count
      rw [lowerIndex_add_mem h.toOrdered.sorted_entries decide_eq_true_iff, hkeys, upperIndex_append]
      · rw [keys, List.length_map, List.length_take, entries_length]
        omega
      · exact fun a ha => by
          obtain ⟨e, he, rfl⟩ := List.mem_map.mp ha
          exact hle e he
      · exact fun a ha => by
          obtain ⟨e, he, rfl⟩ := List.mem_map.mp ha
          exact hlt e he
    · rw [← hslot] at hleft hright
      obtain ⟨left, right, hsplit⟩ := splitLeaf_ok h hseps hleft hright
      have hhalves := splitLeaf_spec h hseps hin hsplit
      rw [hslot] at hhalves
      exact ⟨left, right, hsplit, hhalves⟩

theorem length_takeWhile_and {α : Type} (p q : α → Bool) (l : List α) :
    (l.takeWhile fun x => p x && q x).length = min (l.takeWhile q).length (l.takeWhile p).length := by
  induction l with
  | nil => rfl
  | cons a l ih =>
    by_cases hp : p a
    · by_cases hq : q a
      · simp [hp, hq, ih, Nat.add_min_add_right]
      · simp [hq]
    · simp [hp]

def sameLengths (a e : Bytes × Bytes) : Bool := e.1.length = a.1.length ∧ e.2.length = a.2.length

def taken (n : BTreeNode Bytes) (a : Bytes × Bytes) (stop : Bytes) : ℕ :=
  (n.entries.takeWhile fun e => sameLengths a e && decide (e.1 ≤ stop)).length

def windowEnd (lower : Bytes) (fullKeyLen valLen : ℕ) : Except Fault Bytes := do
  let arrayStart ← leastGreaterKey lower fullKeyLen
  let slotCount ← computeSlotCount valLen (pageSize - 2 * lower.length)
  pure (BtreeRedis.restoreKey arrayStart fullKeyLen lower ((slotCount + (numericRange - 1)) % numericRange))

theorem lowerBound_isPrefix {key : Bytes} {r : ℕ × Bool} (h : Ordered n) (hr : n.lowerBound key = .ok r) :
    n.getPrefix <+: key := by
  simp only [lowerBound, bind_eq_ok, ensure_eq_ok, exists_const] at hr
  obtain ⟨htake, hle, -⟩ := hr
  rw [List.take_of_length_le (h.length_getPrefix.trans_le hle)] at htake
  rw [← htake]
  exact List.take_prefix _ _

theorem lowerBound_upper (h : n.WF) {key : Bytes} (hp : n.getPrefix <+: key) : ∃ index found,
    n.lowerBound key = .ok (index, found) ∧
      index + found.toNat = (n.entries.takeWhile fun e => decide (e.1 ≤ key)).length := by
  obtain ⟨rest, rfl⟩ := hp
  refine ⟨_, _, lowerBound_append h rest, ?_⟩
  rw [lowerIndex_add_mem h.sorted decide_eq_true_iff, upperIndex, keys, entries, List.takeWhile_map,
    List.takeWhile_map, List.length_map, List.length_map]
  congr 2
  funext e
  simp

def searchWindow (n : BTreeNode Bytes) (a : Bytes × Bytes) : Except Fault (DenseSeparorInfo × Bytes) := do
  let stop ← windowEnd n.getLowerFence a.1.length a.2.length
  ensure (a.1.length ≤ maxKVSize) .undefined
  ensure (n.getLowerFence.length ≤ a.1.length) .undefined
  let (lowerBound, found) ← n.lowerBound (stop.take n.getLowerFence.length)
  n.lowerNextKey a.1.length (min (lowerBound + found.toNat) (n.entries.takeWhile (sameLengths a)).length) stop

theorem densifySplit_eq (h : Ordered n) {s : Slot Bytes} {ss : List (Slot Bytes)} (hs : n.slots = s :: ss) :
    ∃ a, n.entries.head? = some a ∧ n.densifySplit =
      if n.getLowerFence.length + maxNumericPartLen < a.1.length then .ok (⟨0, 0⟩, [])
      else if (n.entries.takeWhile (sameLengths a)).length < n.count / 2 then .ok (⟨0, 0⟩, [])
      else n.searchWindow a := by
  refine ⟨(n.getPrefix ++ s.key, s.payload), ?_, ?_⟩
  · rw [entries, content, hs]
    rfl
  · have hlen : (n.getPrefix ++ s.key).length = s.key.length + n.prefixLength := by
      rw [List.length_append, h.length_getPrefix, Nat.add_comm]
    have hequal : (n.entries.takeWhile (sameLengths (n.getPrefix ++ s.key, s.payload))).length =
        (n.slots.takeWhile fun t =>
          t.key.length = s.key.length ∧ t.payload.length = s.payload.length).length := by
      rw [entries, content, List.map_map, List.takeWhile_map, List.length_map]
      congr 2
      funext t
      simp [sameLengths, Slot.entry]
    simp only [searchWindow, windowEnd, hequal, hlen, bind_assoc, pure_bind]
    rw [densifySplit]
    split
    next hnil => exact absurd (hs.symm.trans hnil) (List.cons_ne_nil s ss)
    next t ts hcons =>
      obtain ⟨rfl, rfl⟩ := List.cons.inj (hs.symm.trans hcons)
      rfl

theorem Cut.lowerNextKey_eq (c : Cut n full t next) (h : Ordered n) {stop : Bytes} (hp : n.getPrefix <+: stop)
    (hmin : ¬ t < n.count / 2) (hsize : next.1.length ≤ maxKVSize) :
    ∃ sepBuffer, n.lowerNextKey full t stop = .ok (⟨(separatorBelow full next.1).length, t⟩, sepBuffer) ∧
      separatorBelow full next.1 <+: sepBuffer := by
  have hnil := c.next_ne_nil h
  have hnext := c.next
  rw [entries, List.getElem?_map, Option.map_eq_some_iff] at hnext
  obtain ⟨e, he, rfl⟩ := hnext
  have hkey : n.getKey t = .ok e.1 := by
    rw [getKey_eq_ok, keys, List.getElem?_map, he]
    rfl
  have hlen : e.1.length + n.prefixLength = (n.getPrefix ++ e.1).length := by
    rw [List.length_append, h.length_getPrefix, Nat.add_comm]
  have htake : stop.take n.prefixLength = n.getPrefix := by
    rw [← h.length_getPrefix]
    exact (List.prefix_iff_eq_take.mp hp).symm
  have hbuf : copyAt stop n.prefixLength e.1 = n.getPrefix ++ e.1 ++ stop.drop (n.prefixLength + e.1.length) := by
    rw [copyAt, htake]
  obtain ⟨hfst, hpre⟩ := lowerFenceKey_spec hnil full (stop.drop (n.prefixLength + e.1.length))
  refine ⟨_, ?_, hpre⟩
  rw [lowerNextKey, if_neg hmin, hkey, ok_bind, hlen]
  dsimp only at hsize hfst ⊢
  rw [ensure_of hsize, ok_bind, hbuf, ← hfst]
  rfl

def WindowSplits (n : BTreeNode Bytes) (a : Bytes × Bytes) (stop : Bytes) : Prop :=
  n.taken a stop < n.count / 2 ∨
    1 < n.taken a stop ∧ ∃ next, n.entries[n.taken a stop]? = some next ∧
      n.NextFits a.1.length (n.taken a stop) next

/-- Either the keys do not ask for a dense leaf, or the last key of the window keeps the prefix of the leaf and the
window splits it. -/
def SplitsByWindow (n : BTreeNode Bytes) : Prop :=
  ∃ a, n.entries.head? = some a ∧
    (n.getLowerFence.length + maxNumericPartLen < a.1.length ∨
      (n.entries.takeWhile (sameLengths a)).length < n.count / 2 ∨
      n.getLowerFence.length ≤ a.1.length ∧ ∃ stop, windowEnd n.getLowerFence a.1.length a.2.length = .ok stop ∧
        n.getPrefix <+: stop ∧ n.WindowSplits a (stop.take n.getLowerFence.length))

/-- `densifySplit` comes to an end with what is in the leaf and in the buffer, and if it has a separator, the leaf is
split there. -/
def DensifySplits (n : BTreeNode Bytes) : Prop :=
  ∃ info sepBuffer, n.densifySplit = .ok (info, sepBuffer) ∧
    (info.lowerCount ≠ 0 → info.fenceLen ≤ sepBuffer.length ∧
      n.SplitsBehind info.lowerCount (sepBuffer.take info.fenceLen))

theorem DensifySplits.splitDensified (hd : n.DensifySplits) : ∃ r, n.splitDensified = .ok r := by
  obtain ⟨info, sepBuffer, hrun, hs⟩ := hd
  rw [BTreeNode.splitDensified, hrun, ok_bind]
  dsimp only
  split_ifs with hzero
  · obtain ⟨hlen, hsplits⟩ := hs hzero
    obtain ⟨index, found, hbound, hcount⟩ := hsplits.found
    obtain ⟨left, right, hsplit, -⟩ := hsplits.halves
    rw [ensure_of hlen, ok_bind, hbound, ok_bind, ensure_of hcount, ok_bind, hsplit]
    exact ⟨_, rfl⟩
  · exact ⟨none, rfl⟩

theorem taken_lengths {a : Bytes × Bytes} {stop : Bytes} {e : Bytes × Bytes}
    (he : e ∈ n.entries.take (n.taken a stop)) : e.1.length = a.1.length := by
  have hpre := List.takeWhile_prefix (fun e => sameLengths a e && decide (e.1 ≤ stop)) (l := n.entries)
  rw [taken, ← List.prefix_iff_eq_take.mp hpre] at he
  have hall := List.mem_takeWhile_imp he
  simp only [sameLengths, Bool.and_eq_true, decide_eq_true_eq] at hall
  exact hall.1.1

theorem isPrefix_take {s t : Bytes} {k : ℕ} (h : s <+: t) (hk : s.length ≤ k) : s <+: t.take k :=
  List.prefix_take_iff.mpr ⟨h, hk⟩

theorem searchWindow_iff (h : n.WF) (hcount : 2 ≤ n.count)
    (hsize : ∀ e ∈ n.entries, e.1.length + e.2.length ≤ maxKVSize) {a : Bytes × Bytes} (ha : a ∈ n.entries) :
    (∃ info sepBuffer, n.searchWindow a = .ok (info, sepBuffer) ∧
      (info.lowerCount ≠ 0 → info.fenceLen ≤ sepBuffer.length ∧
        n.SplitsBehind info.lowerCount (sepBuffer.take info.fenceLen))) ↔
    n.getLowerFence.length ≤ a.1.length ∧ ∃ stop, windowEnd n.getLowerFence a.1.length a.2.length = .ok stop ∧
      n.getPrefix <+: stop ∧ n.WindowSplits a (stop.take n.getLowerFence.length) := by
  have hmax : a.1.length ≤ maxKVSize := (Nat.le_add_right _ _).trans (hsize a ha)
  have hpl : n.getPrefix.length ≤ n.getLowerFence.length := List.length_take_le' _ _
  have hsearch : ∀ {stop : Bytes}, n.getPrefix <+: stop → ∃ index found,
      n.lowerBound (stop.take n.getLowerFence.length) = .ok (index, found) ∧
        min (index + found.toNat) (n.entries.takeWhile (sameLengths a)).length =
          n.taken a (stop.take n.getLowerFence.length) := by
    intro stop hp
    obtain ⟨index, found, hbound, hsum⟩ := lowerBound_upper h (isPrefix_take hp hpl)
    exact ⟨index, found, hbound, by rw [taken, length_takeWhile_and, hsum]⟩
  have htail : ∀ {stop : Bytes}, n.getPrefix <+: stop → ∀ {t : ℕ}, t = n.taken a (stop.take n.getLowerFence.length) →
      ((∃ info sepBuffer, n.lowerNextKey a.1.length t stop = .ok (info, sepBuffer) ∧
        (info.lowerCount ≠ 0 → info.fenceLen ≤ sepBuffer.length ∧
          n.SplitsBehind info.lowerCount (sepBuffer.take info.fenceLen))) ↔
      n.WindowSplits a (stop.take n.getLowerFence.length)) := by
    intro stop hp t ht
    rw [WindowSplits, ← ht]
    by_cases hmin : t < n.count / 2
    · refine iff_of_true ⟨⟨0, 0⟩, stop, if_pos hmin, fun hne => absurd rfl hne⟩ (Or.inl hmin)
    · rw [or_iff_right hmin]
      cases hnext : n.entries[t]? with
      | none =>
        refine iff_of_false ?_ fun hc => ?_
        · rintro ⟨info, sepBuffer, hrun, -⟩
          simp only [lowerNextKey, if_neg hmin, bind_eq_ok, getKey_eq_ok] at hrun
          obtain ⟨key, hkey, -⟩ := hrun
          have hlt : t < n.entries.length := by
            rw [entries_length, ← keys_content_length]
            exact (List.getElem?_eq_some_iff.mp hkey).1
          rw [List.getElem?_eq_getElem hlt] at hnext
          cases hnext
        · obtain ⟨-, next, hsome, -⟩ := hc
          cases hsome
      | some next =>
        have hcut : Cut n a.1.length t next := ⟨by omega, hnext, fun e he => taken_lengths (ht ▸ he)⟩
        have hmem := hsize next (List.mem_of_getElem? hnext)
        obtain ⟨sepBuffer, hrun, hpre⟩ := hcut.lowerNextKey_eq h.toOrdered hp hmin (by omega)
        have htake := (List.prefix_iff_eq_take.mp hpre).symm
        have hiff := hcut.splitsBehind_iff h
        constructor
        · rintro ⟨info, sepBuffer', hrun', hs⟩
          obtain ⟨rfl, rfl⟩ := Prod.mk.inj (Except.ok.inj (hrun.symm.trans hrun'))
          obtain ⟨-, hsplits⟩ := hs hcut.pos.ne'
          rw [htake] at hsplits
          obtain ⟨hone, hfits⟩ := hiff.mp hsplits
          exact ⟨hone, next, rfl, hfits⟩
        · rintro ⟨hone, next', hsome, hfits⟩
          obtain rfl := Option.some.inj hsome
          refine ⟨_, _, hrun, fun _ => ⟨hpre.length_le, ?_⟩⟩
          rw [htake]
          exact hiff.mpr ⟨hone, hfits⟩
  constructor
  · rintro ⟨info, sepBuffer, hrun, hs⟩
    simp only [searchWindow, bind_eq_ok, ensure_eq_ok, exists_const, Prod.exists] at hrun
    obtain ⟨stop, hstop, -, hlow, index, found, hbound, hrun⟩ := hrun
    have hp : n.getPrefix <+: stop := (lowerBound_isPrefix h.toOrdered hbound).trans (List.take_prefix _ _)
    obtain ⟨index', found', hbound', hmin⟩ := hsearch hp
    obtain ⟨rfl, rfl⟩ := Prod.mk.inj (Except.ok.inj (hbound.symm.trans hbound'))
    exact ⟨hlow, stop, hstop, hp, (htail hp hmin).mp ⟨info, sepBuffer, hrun, hs⟩⟩
  · rintro ⟨hlow, stop, hstop, hp, hsplits⟩
    obtain ⟨index, found, hbound, hmin⟩ := hsearch hp
    obtain ⟨info, sepBuffer, hrun, hs⟩ := (htail hp hmin).mpr hsplits
    refine ⟨info, sepBuffer, ?_, hs⟩
    rw [searchWindow, hstop, ok_bind, ensure_of hmax, ok_bind, ensure_of hlow, ok_bind, hbound, ok_bind]
    exact hrun

/-- A leaf of at least two entries is split as it should be, or left to the normal split, exactly if the window of its
lower fence splits it. -/
theorem densifySplits_iff (h : n.WF) (hcount : 2 ≤ n.count)
    (hsize : ∀ e ∈ n.entries, e.1.length + e.2.length ≤ maxKVSize) : n.DensifySplits ↔ n.SplitsByWindow := by
  cases hs : n.slots with
  | nil =>
    have hzero : n.count = 0 := by rw [count, hs]; rfl
    omega
  | cons s ss =>
    obtain ⟨a, ha, hrun⟩ := densifySplit_eq h.toOrdered hs
    have hnone : ∀ {x : Except Fault (DenseSeparorInfo × Bytes)}, x = .ok (⟨0, 0⟩, []) →
        ∃ info sepBuffer, x = .ok (info, sepBuffer) ∧ (info.lowerCount ≠ 0 → info.fenceLen ≤ sepBuffer.length ∧
          n.SplitsBehind info.lowerCount (sepBuffer.take info.fenceLen)) :=
      fun hx => ⟨_, _, hx, fun hne => absurd rfl hne⟩
    have hsearch := searchWindow_iff h hcount hsize (List.mem_of_head? ha)
    rw [DensifySplits, SplitsByWindow]
    simp only [ha, Option.some.injEq, exists_eq_left']
    by_cases hlong : n.getLowerFence.length + maxNumericPartLen < a.1.length
    · rw [if_pos hlong] at hrun
      exact iff_of_true (hnone hrun) (Or.inl hlong)
    · by_cases hfew : (n.entries.takeWhile (sameLengths a)).length < n.count / 2
      · rw [if_neg hlong, if_pos hfew] at hrun
        exact iff_of_true (hnone hrun) (Or.inr (Or.inl hfew))
      · rw [if_neg hlong, if_neg hfew] at hrun
        rw [or_iff_right hlong, or_iff_right hfew, hrun]
        exact hsearch

set_option maxRecDepth 20000 in
/-- Four keys, the last of which lies above the window. -/
theorem densifySplits_four : ∃ n : BTreeNode Bytes, n.WF ∧ n.count = 4 ∧ n.DensifySplits := by
  have hempty : (fenced true [0] [9] : BTreeNode Bytes).WF := (fenced_holds true (Or.inr (by decide)) (by decide)).wf
  obtain ⟨a, ha, haw, -⟩ := insertSlot_spec hempty (by decide : InFences [0] [9] [1]) List.not_mem_nil
    (by decide +kernel : slotSize + (1 - 0) + Payload.len (List.replicate 900 (0 : Byte)) ≤ _)
  obtain rfl : _ = a := Except.ok.inj ha
  obtain ⟨b, hb, hbw, -⟩ := insertSlot_spec haw (by decide : InFences [0] [9] [2]) (by decide +kernel)
    (by decide +kernel : slotSize + (1 - 0) + Payload.len (List.replicate 900 (0 : Byte)) ≤ _)
  obtain rfl : _ = b := Except.ok.inj hb
  obtain ⟨c, hc, hcw, -⟩ := insertSlot_spec hbw (by decide : InFences [0] [9] [3]) (by decide +kernel)
    (by decide +kernel : slotSize + (1 - 0) + Payload.len (List.replicate 900 (0 : Byte)) ≤ _)
  obtain rfl : _ = c := Except.ok.inj hc
  obtain ⟨d, hd, hdw, -⟩ := insertSlot_spec hcw (by decide : InFences [0] [9] [9]) (by decide +kernel)
    (by decide +kernel : slotSize + (1 - 0) + Payload.len (List.replicate 900 (0 : Byte)) ≤ _)
  obtain rfl : _ = d := Except.ok.inj hd
  refine ⟨_, hdw, rfl, (densifySplits_iff hdw (by decide +kernel) (by decide +kernel)).mpr ?_⟩
  refine ⟨_, rfl, Or.inr (Or.inr ⟨by decide +kernel, [4], rfl, List.nil_prefix, Or.inr ⟨by decide +kernel, ?_⟩⟩)⟩
  exact ⟨([9], List.replicate 900 0), rfl, by decide +kernel⟩

set_option maxRecDepth 20000 in
/-- A full leaf all of whose keys lie in the window, so that there is no next key. -/
theorem not_densifySplits_all :
    ¬ ∀ n : BTreeNode Bytes, n.WF → n.isLeaf = true → (∃ needed, n.requestSpaceFor needed = .ok (false, n)) →
      2 ≤ n.count → (∀ e ∈ n.entries, e.1.length + e.2.length ≤ maxKVSize) → n.DensifySplits := by
  intro hall
  have hempty : (fenced true [0] [9] : BTreeNode Bytes).WF := (fenced_holds true (Or.inr (by decide)) (by decide)).wf
  obtain ⟨a, ha, haw, -⟩ := insertSlot_spec hempty (by decide : InFences [0] [9] [1]) List.not_mem_nil
    (by decide +kernel : slotSize + (1 - 0) + Payload.len (List.replicate 1300 (0 : Byte)) ≤ _)
  obtain rfl : _ = a := Except.ok.inj ha
  obtain ⟨b, hb, hbw, -⟩ := insertSlot_spec haw (by decide : InFences [0] [9] [2]) (by decide +kernel)
    (by decide +kernel : slotSize + (1 - 0) + Payload.len (List.replicate 1300 (0 : Byte)) ≤ _)
  obtain rfl : _ = b := Except.ok.inj hb
  obtain ⟨c, hc, hcw, -⟩ := insertSlot_spec hbw (by decide : InFences [0] [9] [3]) (by decide +kernel)
    (by decide +kernel : slotSize + (1 - 0) + Payload.len (List.replicate 1300 (0 : Byte)) ≤ _)
  obtain rfl : _ = c := Except.ok.inj hc
  obtain ⟨info, sepBuffer, hrun, -⟩ := hall _ hcw rfl ⟨slotSize + 1 + 1300, rfl⟩ (by decide +kernel)
    (by decide +kernel)
  exact nomatch (hrun : Except.error Fault.undefined = _)

end BTreeNode

end BtreeRedis
