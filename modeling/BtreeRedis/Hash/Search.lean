import BtreeRedis.Hash.Accounting
import BtreeRedis.Node.Search

/-!
# Searching and sorting a hash leaf

A point lookup compares hash bytes first and full keys where they agree. A scan needs the
slots in order: `sort` sorts those behind the first `sortedCount` and merges the two parts,
after which the bisection finds a key as in a basic leaf, without heads and hints.
-/

namespace BtreeRedis

open LexOrder SortedAssoc

namespace HashNode
variable [KeyHash]

/-- The scalar `findIndexNoSimd`; the vectorised search compares the same bytes thirty-two at a time. -/
def findIndex (n : HashNode) (key : Bytes) (hash : Byte) : Except Fault (Option ℕ) := do
  ensure (n.prefixLength ≤ key.length) .undefined
  let key := key.drop n.prefixLength
  pure ((n.slots.zip n.hashes).findIdx? fun s => s.2 = hash && s.1.key = key)

def lookup (c : Config) (n : HashNode) (key : Bytes) (draws : Draws) :
    Except Fault (Option Bytes × HashNode × Draws) := do
  let (_, rangeOpCounter, draws) := n.rangeOpCounter.pointOp c draws
  let n := { n with rangeOpCounter }
  let index ← n.findIndex key (computeHash (key.drop n.prefixLength))
  match index with
  | some i =>
    match n.slots[i]? with
    | some s => pure (some s.payload, n, draws)
    | none => .error .undefined
  | none => pure (none, n, draws)

def lowerBoundLoop (slots : List HashSlot) (key : Bytes) : ℕ → ℕ → ℕ → ℕ × Bool
  | 0, lower, _ => (lower, false)
  | fuel + 1, lower, upper =>
    if lower < upper then
      let mid := (upper - lower) / 2 + lower
      match slots[mid]? with
      | none => (lower, false)
      | some s =>
        if key < s.key then lowerBoundLoop slots key fuel lower mid
        else if s.key < key then lowerBoundLoop slots key fuel (mid + 1) upper
        else (mid, true)
    else (lower, false)

def lowerBound (n : HashNode) (key : Bytes) : Except Fault (ℕ × Bool) := do
  ensure (n.prefixLength ≤ key.length) .undefined
  let key := key.drop n.prefixLength
  pure (lowerBoundLoop n.slots key n.count 0 n.count)

/-- `std::sort` behind the sorted slots and `std::inplace_merge`. -/
def sortedSlots (n : HashNode) : List HashSlot :=
  (n.slots.take n.sortedCount).merge
    ((n.slots.drop n.sortedCount).insertionSort fun a b => a.key ≤ b.key) fun a b => a.key ≤ b.key

def sort (n : HashNode) : Except Fault HashNode := do
  n.validate
  if n.sortedCount = n.count then pure n
  else do
    let slots := n.sortedSlots
    let n := { n with
      slots
      hashes := slots.map fun s => computeHash s.key
      sortedCount := n.count }
    n.validate
    pure n

theorem findIndex_spec {n : HashNode} (h : Keyed n) {key : Bytes}
    (hk : InFences n.lowerFence n.upperFence key) :
    (∃ i s, n.findIndex key (computeHash (key.drop n.prefixLength)) = .ok (some i) ∧
      n.slots[i]? = some s ∧ s.key = key.drop n.prefixLength) ∨
    n.findIndex key (computeHash (key.drop n.prefixLength)) = .ok none ∧ key ∉ keys n.entries := by
  have hzip : n.slots.zip n.hashes = n.slots.map fun s => (s, computeHash s.key) := by
    rw [h.hashed, content, keys, List.map_map, List.map_map]
    exact List.map_prod_left_eq_zip.symm
  rw [findIndex, ensure_of (h.prefixLength_le_key hk), ok_bind, hzip, h.mem_keys_entries hk]
  dsimp only
  rw [List.findIdx?_map]
  cases hf : n.slots.findIdx? (_ ∘ _) with
  | none =>
    refine Or.inr ⟨rfl, fun hm => ?_⟩
    rw [keys, content, List.map_map] at hm
    obtain ⟨s, hs, hsk⟩ := List.mem_map.mp hm
    have hne := List.findIdx?_eq_none_iff.mp hf s hs
    have hsk' : s.key = key.drop n.prefixLength := hsk
    simp [hsk'] at hne
  | some i =>
    obtain ⟨hi, hp, -⟩ := List.findIdx?_eq_some_iff_getElem.mp hf
    refine Or.inl ⟨i, n.slots[i], rfl, List.getElem?_eq_getElem hi, ?_⟩
    simp only [Function.comp_apply, Bool.and_eq_true, decide_eq_true_eq] at hp
    exact hp.2

theorem lookup_of_slot {n : HashNode} (h : Keyed n) {key : Bytes}
    (hk : InFences n.lowerFence n.upperFence key) {i : ℕ} {s : HashSlot} (hs : n.slots[i]? = some s)
    (hsk : s.key = key.drop n.prefixLength) : n.entries.lookup key = some s.payload := by
  rw [lookup_eq_some h.ascending_entries, mem_entries, restored, content, List.map_map]
  refine List.mem_map.mpr ⟨s, List.mem_of_getElem? hs, ?_⟩
  change (n.getPrefix ++ s.key, s.payload) = _
  rw [hsk, h.prefix_append_drop hk]

theorem WF.counter {n : HashNode} (h : WF n) (rangeOpCounter : RangeOpCounter) :
    WF { n with rangeOpCounter } :=
  ⟨⟨h.space, h.room, h.fits, h.capacity⟩,
    ⟨h.prefixLen, h.fences, h.nodup, h.inFences, h.hashed, h.sorted, h.sorted_le⟩⟩

theorem lookup_spec {n : HashNode} (h : WF n) (c : Config) {key : Bytes} (draws : Draws)
    (hk : InFences n.lowerFence n.upperFence key) :
    n.lookup c key draws = .ok (n.entries.lookup key,
      { n with rangeOpCounter := (n.rangeOpCounter.pointOp c draws).2.1 },
      (n.rangeOpCounter.pointOp c draws).2.2) := by
  have hw := h.counter (n.rangeOpCounter.pointOp c draws).2.1
  rcases findIndex_spec hw.toKeyed hk with ⟨i, s, hi, hs, hsk⟩ | ⟨hi, hm⟩
  · have hl := lookup_of_slot h.toKeyed hk hs hsk
    simp only [lookup, hi, hs, hl, ok_bind]
    rfl
  · have hl := lookup_eq_none hm
    simp only [lookup, hi, ok_bind]
    exact congrArg (fun x => Except.ok (x, _)) hl.symm

structure Resorted (n m : HashNode) : Prop where
  wf : WF m
  page : m.rangeOpCounter = n.rangeOpCounter ∧ m.spaceUsed = n.spaceUsed ∧ m.dataOffset = n.dataOffset ∧
    m.hashCapacity = n.hashCapacity ∧ m.hashOffset = n.hashOffset
  prefixLength : m.prefixLength = n.prefixLength
  lower : m.lowerFence = n.lowerFence
  upper : m.upperFence = n.upperFence
  slots : m.slots.Perm n.slots
  sortedCount : m.sortedCount = m.count
  entries : m.entries = n.entries

section
omit [KeyHash]

theorem sortedSlots_perm (n : HashNode) : n.sortedSlots.Perm n.slots := by
  have hm : n.sortedSlots.Perm (n.slots.take n.sortedCount ++
      (n.slots.drop n.sortedCount).insertionSort fun a b => a.key ≤ b.key) := List.merge_perm_append _
  refine hm.trans ?_
  conv_rhs => rw [← List.take_append_drop n.sortedCount n.slots]
  exact (List.perm_insertionSort _ _).append_left _

end

theorem sortedSlots_pairwise {n : HashNode} (h : Keyed n) :
    n.sortedSlots.Pairwise fun a b => a.key ≤ b.key := by
  have htotal : Std.Total fun a b : HashSlot => a.key ≤ b.key := ⟨fun a b => le_total a.key b.key⟩
  have htrans : IsTrans HashSlot fun a b => a.key ≤ b.key := ⟨fun a b c hab hbc => hab.trans hbc⟩
  have hfront : (n.slots.take n.sortedCount).Pairwise fun a b => a.key ≤ b.key := by
    have hs := h.sorted
    rw [keys, content, List.map_map, ← List.map_take, Ascending, List.pairwise_map] at hs
    exact hs.imp fun hab => hab.le
  have hback := List.pairwise_insertionSort (fun a b : HashSlot => a.key ≤ b.key) (n.slots.drop n.sortedCount)
  have hmerge := @List.pairwise_merge HashSlot (fun a b => decide (a.key ≤ b.key))
    (fun a b c hab hbc => decide_eq_true ((of_decide_eq_true hab).trans (of_decide_eq_true hbc)))
    (fun a b => by simpa using le_total a.key b.key) _ _
    (hfront.imp fun hab => decide_eq_true hab) (hback.imp fun hab => decide_eq_true hab)
  exact hmerge.imp fun hab => of_decide_eq_true hab

theorem entries_of_perm {n m : HashNode} (h : Keyed n) (hp : m.getPrefix = n.getPrefix)
    (hs : m.slots.Perm n.slots) : m.entries = n.entries := by
  refine (sortByKey_eq_of_perm h.nodup_restored ?_).symm
  rw [restored, restored, hp]
  exact ((hs.map HashSlot.entry).map _).symm

theorem ascending_content {n : HashNode} (h : Keyed n) (hs : n.sortedCount = n.count) :
    Ascending (keys n.content) := by
  have ha := h.sorted
  rwa [List.take_of_length_le (by rw [keys, List.length_map, length_content, hs])] at ha

theorem restored_of_sorted {n : HashNode} (h : Keyed n) (hs : n.sortedCount = n.count) :
    n.restored = n.entries := by
  refine (sortByKey_eq_self ?_).symm
  rw [keys_restored, Ascending, List.pairwise_map]
  exact (ascending_content h hs).imp fun hab => append_lt_append_iff.mpr hab

theorem sort_spec {n : HashNode} (h : WF n) : ∃ m, n.sort = .ok m ∧ Resorted n m := by
  by_cases hc : n.sortedCount = n.count
  · refine ⟨n, ?_, h, ⟨rfl, rfl, rfl, rfl, rfl⟩, rfl, rfl, rfl, .refl _, hc, rfl⟩
    rw [sort, h.validate, ok_bind, if_pos hc]
    rfl
  · have hperm := n.sortedSlots_perm
    obtain ⟨m, hm⟩ : ∃ m : HashNode, m = { n with
      slots := n.sortedSlots
      hashes := n.sortedSlots.map fun s => computeHash s.key
      sortedCount := n.count } := ⟨_, rfl⟩
    have hslots : m.slots = n.sortedSlots := by rw [hm]
    have hcount : m.count = n.count := by
      rw [count, hslots, hperm.length_eq]
    have hcontent : m.content.Perm n.content := by
      rw [content, hslots]
      exact hperm.map HashSlot.entry
    have hnodup : (keys m.content).Nodup := (hcontent.map Prod.fst).nodup_iff.mpr h.nodup
    have hsorted : Ascending (keys m.content) := by
      have hle := sortedSlots_pairwise h.toKeyed
      rw [← hslots] at hle
      rw [keys, content, List.map_map, List.Nodup, List.pairwise_map] at hnodup
      rw [keys, content, List.map_map, Ascending, List.pairwise_map]
      exact (hle.and hnodup).imp fun hab => lt_of_le_of_ne hab.1 hab.2
    have hwf : WF m := by
      refine ⟨⟨?_, ?_, ?_, ?_⟩, ⟨?_, ?_, hnodup, fun e he => ?_, ?_, ?_, ?_⟩⟩
      · rw [BTreeNode.entryBytes, (hcontent.map _).sum_eq, hm]
        exact h.space
      · rw [slotsEnd, hcount, hm]
        exact h.room
      · rw [hm]
        exact h.fits
      · rw [hcount, hm]
        exact h.capacity
      · rw [hm]
        exact h.prefixLen
      · rw [hm]
        exact h.fences
      · have hin := h.inFences e (hcontent.mem_iff.mp he)
        rw [hm]
        exact hin
      · rw [hm, keys, content, List.map_map, List.map_map]
        rfl
      · exact hsorted.sublist (List.take_sublist _ _)
      · rw [hcount, hm]
    refine ⟨m, ?_, hwf, ?_, ?_, ?_, ?_, hslots ▸ hperm, ?_, entries_of_perm h.toKeyed ?_ (hslots ▸ hperm)⟩
    · rw [sort, h.validate, ok_bind, if_neg hc]
      change (validate _ >>= fun _ => pure _) = _
      rw [← hm, hwf.validate]
      rfl
    all_goals rw [hm]
    · exact ⟨rfl, rfl, rfl, rfl, rfl⟩
    · exact hperm.length_eq.symm
    · rfl

section
open BTreeNode
omit [KeyHash]

theorem lowerBoundLoop_spec {n : HashNode} (hs : Ascending (keys n.content)) (key : Bytes) (fuel : ℕ) :
    ∀ lower upper : ℕ, upper - lower ≤ fuel → Bracket (keys n.content) key lower upper →
      lowerBoundLoop n.slots key fuel lower upper =
        (lowerIndex (keys n.content) key, decide (key ∈ keys n.content)) := by
  have hlen : (keys n.content).length = n.slots.length := by rw [keys, List.length_map, length_content]
  induction fuel with
  | zero =>
    intro lower upper hf hb
    obtain rfl : lower = upper := by have := hb.le; omega
    obtain ⟨he, hn⟩ := hb.closed hs
    rw [lowerBoundLoop, ← he, decide_eq_false hn]
  | succ fuel ih =>
    intro lower upper hf hb
    unfold lowerBoundLoop
    split_ifs with hlu
    · have hle := hb.upper_le
      have hmid : (upper - lower) / 2 + lower < n.slots.length := by omega
      have hmk : (upper - lower) / 2 + lower < (keys n.content).length := hmid.trans_eq hlen.symm
      have hkey : n.slots[(upper - lower) / 2 + lower].key = (keys n.content)[(upper - lower) / 2 + lower] := by
        simp [content, keys, HashSlot.entry]
      simp only [List.getElem?_eq_getElem hmid]
      rw [hkey]
      split_ifs with h₁ h₂
      · exact ih _ _ (by omega) (hb.lower_mid hs (by omega) hmk h₁)
      · exact ih _ _ (by omega) (hb.mid_upper hs (by omega) hmk h₂)
      · obtain ⟨he, hm⟩ := lowerIndex_of_getElem_eq hs hmk (le_antisymm (not_lt.mp h₁) (not_lt.mp h₂))
        rw [← he, decide_eq_true hm]
    · obtain rfl : lower = upper := by have := hb.le; omega
      obtain ⟨he, hn⟩ := hb.closed hs
      rw [← he, decide_eq_false hn]

end

theorem lowerBound_spec {n : HashNode} (h : WF n) (hc : n.sortedCount = n.count) {key : Bytes}
    (hk : InFences n.lowerFence n.upperFence key) :
    n.lowerBound key = .ok (lowerIndex (keys n.entries) key, decide (key ∈ keys n.entries)) := by
  have hs := ascending_content h.toKeyed hc
  have hlen : (keys n.content).length = n.count := by rw [keys, List.length_map, length_content]
  have hb := BTreeNode.Bracket.all (keys n.content) (key.drop n.prefixLength)
  rw [hlen] at hb
  have hidx : lowerIndex (keys n.entries) key = lowerIndex (keys n.content) (key.drop n.prefixLength) := by
    conv_lhs => rw [← h.prefix_append_drop hk, ← restored_of_sorted h.toKeyed hc, keys_restored]
    exact lowerIndex_map (fun _ _ => append_lt_append_iff) _ _
  have hmem := h.mem_keys_entries hk
  rw [lowerBound, ensure_of (h.prefixLength_le_key hk), ok_bind, hidx]
  dsimp only
  rw [lowerBoundLoop_spec hs (key.drop n.prefixLength) n.count 0 n.count (Nat.sub_le _ _) hb]
  simp only [hmem]
  rfl

end HashNode

end BtreeRedis
