import BtreeRedis.Hash.Accounting

/-!
# The separator of a hash leaf

A hash leaf is sorted before it is split. It probes the keys around its middle for one that
shares another prefix with the first key, and cuts the separator behind the first byte that
tells the two neighbours apart. The law of both kinds of leaves is stated at the end.
-/

namespace BtreeRedis

open LexOrder SortedAssoc

namespace HashNode

def getKey (n : HashNode) (slotId : ℕ) : Except Fault Bytes :=
  match n.slots[slotId]? with
  | some s => .ok s.key
  | none => .error .undefined

def commonPrefix (n : HashNode) (slotA slotB : ℕ) : Except Fault ℕ := do
  ensure (slotA < n.count) .assertion
  let a ← n.getKey slotA
  let b ← n.getKey slotB
  pure (commonPrefixLength a b)

/-- Passes the slots that share `bestPrefixLength` bytes with the first one. The fuel is
`upper - bestSlot`, so that running out of it is the end of the loop. -/
def slotLoop (n : HashNode) (bestPrefixLength : ℕ) : ℕ → ℕ → Except Fault ℕ
  | 0, bestSlot => pure bestSlot
  | fuel + 1, bestSlot => do
    if (← n.commonPrefix bestSlot 0) = bestPrefixLength
    then n.slotLoop bestPrefixLength fuel (bestSlot + 1)
    else pure bestSlot

def findBestSlot (n : HashNode) : Except Fault ℕ := do
  if 16 < n.count then
    let lower := n.count / 2 - n.count / 16
    let upper := n.count / 2
    let bestPrefixLength ← n.commonPrefix lower 0
    if bestPrefixLength ≠ (← n.commonPrefix (upper - 1) 0)
    then n.slotLoop bestPrefixLength (upper - (lower + 1)) (lower + 1)
    else pure lower
  else
    let bestSlot := (n.count - 1) / 2
    let _ ← n.commonPrefix bestSlot 0
    pure bestSlot

def findSeparator (n : HashNode) : Except Fault SeparatorInfo := do
  ensure (1 < n.count) .assertion
  let bestSlot ← n.findBestSlot
  let common ← n.commonPrefix bestSlot (bestSlot + 1)
  let key ← n.getKey bestSlot
  let next ← n.getKey (bestSlot + 1)
  if bestSlot + 1 < n.count ∧ common < key.length ∧ common + 1 < next.length
  then pure ⟨n.prefixLength + common + 1, bestSlot, true⟩
  else pure ⟨n.prefixLength + key.length, bestSlot, false⟩

def getSep (n : HashNode) (info : SeparatorInfo) : Except Fault Bytes := do
  let key ← n.getKey (info.slot + if info.isTruncated then 1 else 0)
  ensure (info.length - n.prefixLength ≤ key.length) .undefined
  pure (n.getPrefix ++ key.take (info.length - n.prefixLength))

theorem keys_content_length (n : HashNode) : (keys n.content).length = n.count := by
  rw [keys, content, List.length_map, List.length_map]

theorem getKey_ok {n : HashNode} {i : ℕ} (hi : i < (keys n.content).length) :
    n.getKey i = .ok (keys n.content)[i] := by
  have hs : i < n.slots.length := by
    rw [keys_content_length] at hi
    exact hi
  rw [getKey, List.getElem?_eq_getElem hs]
  simp [keys, content, HashSlot.entry]

theorem commonPrefix_ok {n : HashNode} {i j : ℕ} (hi : i < (keys n.content).length)
    (hj : j < (keys n.content).length) :
    n.commonPrefix i j = .ok (commonPrefixLength (keys n.content)[i] (keys n.content)[j]) := by
  have hc : i < n.count := by
    rw [← keys_content_length]
    exact hi
  rw [commonPrefix, ensure_of hc, ok_bind, getKey_ok hi, getKey_ok hj]
  rfl

theorem slotLoop_spec {n : HashNode} {m : ℕ} (fuel i : ℕ) (h : i + fuel < n.count) :
    ∃ slot, n.slotLoop m fuel i = .ok slot ∧ slot ≤ i + fuel := by
  induction fuel generalizing i with
  | zero => exact ⟨i, rfl, le_rfl⟩
  | succ fuel ih =>
    have hlen := keys_content_length n
    simp only [slotLoop, commonPrefix_ok (n := n) (i := i) (j := 0) (by omega) (by omega), ok_bind]
    split_ifs with hm
    · obtain ⟨slot, hslot, hle⟩ := ih (i + 1) (by omega)
      exact ⟨slot, hslot, by omega⟩
    · exact ⟨i, rfl, by omega⟩

theorem findBestSlot_spec {n : HashNode} (hc : 1 < n.count) :
    ∃ slot, n.findBestSlot = .ok slot ∧ slot + 1 < n.count := by
  have hlen := keys_content_length n
  unfold findBestSlot
  split_ifs with h16
  · simp only [commonPrefix_ok (n := n) (i := n.count / 2 - n.count / 16) (j := 0) (by omega) (by omega),
      commonPrefix_ok (n := n) (i := n.count / 2 - 1) (j := 0) (by omega) (by omega), ok_bind]
    split_ifs with hne
    · obtain ⟨slot, hslot, hle⟩ := slotLoop_spec (n := n) (m := commonPrefixLength
        (getElem (keys n.content) (n.count / 2 - n.count / 16) (by omega)) (getElem (keys n.content) 0 (by omega)))
        (n.count / 2 - (n.count / 2 - n.count / 16 + 1)) (n.count / 2 - n.count / 16 + 1) (by omega)
      exact ⟨slot, hslot, by omega⟩
    · exact ⟨_, rfl, by omega⟩
  · simp only [commonPrefix_ok (n := n) (i := (n.count - 1) / 2) (j := 0) (by omega) (by omega), ok_bind]
    exact ⟨_, rfl, by omega⟩

theorem getSep_eq_ok {n : HashNode} {info : SeparatorInfo} {i : ℕ} (hi : i < (keys n.content).length)
    (h : (info.slot + if info.isTruncated then 1 else 0) = i)
    (hl : info.length - n.prefixLength ≤ (keys n.content)[i].length) :
    n.getSep info = .ok (n.getPrefix ++ (keys n.content)[i].take (info.length - n.prefixLength)) := by
  rw [getSep, h, getKey_ok hi, ok_bind, ensure_of hl]
  rfl

end HashNode

/-- What the separator of a node with the (complete) keys `ks` satisfies: the slots up to
`info.slot` go left, the others right. -/
structure SeparatorLaw (pre : Bytes) (ks : List Bytes) (info : SeparatorInfo) (sep : Bytes) : Prop where
  lt : info.slot < ks.length
  le_sep : ks[info.slot] ≤ sep
  sep_lt : ∀ j (hj : j < ks.length), info.slot < j → sep < ks[j]
  pre_isPrefix : pre <+: sep
  copied : ∃ k, ks[info.slot + if info.isTruncated then 1 else 0]? = some k ∧ sep <+: k

theorem SeparatorLaw.append {p : Bytes} {ks : List Bytes} {info : SeparatorInfo} {sep : Bytes}
    (h : SeparatorLaw [] ks info sep) : SeparatorLaw p (ks.map (p ++ ·)) info (p ++ sep) where
  lt := by simpa using h.lt
  le_sep := by simpa using h.le_sep
  sep_lt := by
    intro j hj hij
    simpa using h.sep_lt j (by simpa using hj) hij
  pre_isPrefix := List.prefix_append _ _
  copied := by
    obtain ⟨k, hk, hpre⟩ := h.copied
    refine ⟨p ++ k, ?_, (List.prefix_append_right_inj p).mpr hpre⟩
    rw [List.getElem?_map, hk]
    rfl

theorem separatorLaw_full {ks : List Bytes} (hs : Ascending ks) {i len : ℕ} (hi : i < ks.length) :
    SeparatorLaw [] ks ⟨len, i, false⟩ ks[i] where
  lt := hi
  le_sep := le_rfl
  sep_lt := fun _ hj hij => hs.getElem_lt hij hj
  pre_isPrefix := List.nil_prefix
  copied := ⟨_, List.getElem?_eq_getElem hi, List.prefix_rfl⟩

theorem separatorLaw_truncated {ks : List Bytes} (hs : Ascending ks) {i m len : ℕ} (hi : i + 1 < ks.length)
    (hlt : (getElem ks i (by omega)) < ks[i + 1].take (m + 1)) (hm : m + 1 < ks[i + 1].length) :
    SeparatorLaw [] ks ⟨len, i, true⟩ (ks[i + 1].take (m + 1)) where
  lt := by
    dsimp only
    omega
  le_sep := hlt.le
  sep_lt := by
    intro j hj hij
    have hcut : ks[i + 1].take (m + 1) < ks[i + 1] := by
      apply lt_of_le_of_ne (take_le _ _)
      intro he
      have hl := congrArg List.length he
      rw [List.length_take] at hl
      omega
    exact hcut.trans_le (hs.getElem_le hij hj)
  pre_isPrefix := List.nil_prefix
  copied := ⟨_, List.getElem?_eq_getElem hi, List.take_prefix _ _⟩

theorem SeparatorLaw.halves {β : Type} {pre : Bytes} {es : List (Bytes × β)} {info : SeparatorInfo} {sep : Bytes}
    (h : SeparatorLaw pre (keys es) info sep) (hs : Ascending (keys es)) {lower upper : Bytes}
    (hin : ∀ e ∈ es, InFences lower upper e.1) :
    InFences lower upper sep ∧ (∀ e ∈ es.take (info.slot + 1), InFences lower sep e.1) ∧
      ∀ e ∈ es.drop (info.slot + 1), InFences sep upper e.1 := by
  have hkey : ∀ k ∈ keys es, InFences lower upper k := by
    intro k hk
    obtain ⟨e, he, rfl⟩ := List.mem_map.mp hk
    exact hin e he
  have hget : ∀ j (hj : j < es.length), (es[j]).1 = getElem (keys es) j (by rw [keys, List.length_map]; exact hj) := by
    intro j hj
    simp [keys]
  have hlt := h.lt
  obtain ⟨k, hk, hpre⟩ := h.copied
  have hlow := hkey _ (List.getElem_mem hlt)
  have hupp := hkey k (List.mem_of_getElem? hk)
  refine ⟨⟨?_, ?_⟩, ?_, ?_⟩
  · exact hlow.1.imp id fun hl => hl.trans_le h.le_sep
  · exact hupp.2.imp id fun hu => (le_of_isPrefix hpre).trans hu
  · intro e he
    refine ⟨(hin e (List.mem_of_mem_take he)).1, Or.inr ?_⟩
    obtain ⟨j, hj, rfl⟩ := List.mem_iff_getElem.mp he
    rw [List.length_take] at hj
    rw [List.getElem_take, hget]
    exact (hs.getElem_le (by omega) hlt).trans h.le_sep
  · intro e he
    refine ⟨Or.inr ?_, (hin e (List.mem_of_mem_drop he)).2⟩
    obtain ⟨j, hj, rfl⟩ := List.mem_iff_getElem.mp he
    rw [List.length_drop] at hj
    rw [List.getElem_drop, hget]
    exact h.sep_lt _ _ (by omega)

theorem HashNode.findSeparator_spec {n : HashNode} (hc : 1 < n.count) (hs : Ascending (keys n.content)) :
    ∃ info sep, n.findSeparator = .ok info ∧ n.getSep info = .ok (n.getPrefix ++ sep) ∧
      SeparatorLaw [] (keys n.content) info sep := by
  have hlen := n.keys_content_length
  obtain ⟨i, hslot, hi⟩ := findBestSlot_spec hc
  have hi₀ : i < (keys n.content).length := by omega
  have hi₁ : i + 1 < (keys n.content).length := by omega
  have hlt : (keys n.content)[i] < (keys n.content)[i + 1] := hs.getElem_lt (Nat.lt_succ_self i) hi₁
  simp only [findSeparator, ensure_of hc, ok_bind, hslot, commonPrefix_ok hi₀ hi₁, getKey_ok hi₀, getKey_ok hi₁]
  split_ifs with hcut
  · obtain ⟨-, -, hm⟩ := hcut
    have hcommon := take_commonPrefix_eq (keys n.content)[i] (keys n.content)[i + 1]
    have hne := getElem?_commonPrefix_ne hlt.ne
    generalize commonPrefixLength (keys n.content)[i] (keys n.content)[i + 1] = m at *
    refine ⟨_, (keys n.content)[i + 1].take (m + 1), rfl, ?_,
      separatorLaw_truncated hs hi₁ (BTreeNode.lt_take_succ hlt hcommon hne) hm⟩
    have hsub : n.prefixLength + m + 1 - n.prefixLength = m + 1 := by omega
    rw [getSep_eq_ok hi₁ (if_pos rfl ▸ rfl)]
    · rw [hsub]
    · dsimp only
      omega
  · refine ⟨_, (keys n.content)[i], rfl, ?_, separatorLaw_full hs hi₀⟩
    rw [getSep_eq_ok hi₀ rfl]
    · rw [Nat.add_sub_cancel_left, List.take_length]
    · rw [Nat.add_sub_cancel_left]

theorem BTreeNode.findSeparator_law {π : Type} [Payload π] {n : BTreeNode π} (hl : n.isLeaf = true)
    (hc : 1 < n.count) (hs : Ascending (keys n.content)) :
    ∃ info sep, n.findSeparator = .ok info ∧ n.getSep info = .ok (n.getPrefix ++ sep) ∧
      SeparatorLaw [] (keys n.content) info sep ∧ sep ≠ [] := by
  obtain ⟨info, sep, hinfo, hf⟩ := findSeparatorLeaf_spec hs hc
  refine ⟨info, sep, ?_, hf.getSep, ?_, hf.nonempty⟩
  · rw [findSeparator, if_pos hl]
    exact hinfo
  · exact ⟨hf.separates.lt, hf.separates.le_sep, hf.separates.sep_lt, List.nil_prefix, hf.isPrefix⟩

/-- The separators of both kinds of leaves obey the law; those of basic leaves are not empty. -/
theorem leaf_separatorLaw :
    (∀ n : BTreeNode Bytes, n.isLeaf = true → 1 < n.count → Ascending (keys n.content) →
      ∃ info sep, n.findSeparator = .ok info ∧ n.getSep info = .ok sep ∧
        SeparatorLaw n.getPrefix (keys n.entries) info sep ∧ sep ≠ []) ∧
    (∀ n : HashNode, 1 < n.count → Ascending (keys n.content) →
      ∃ info sep, n.findSeparator = .ok info ∧ n.getSep info = .ok sep ∧
        SeparatorLaw n.getPrefix (keys n.restored) info sep) := by
  constructor
  · intro n hl hc hs
    obtain ⟨info, sep, hinfo, hsep, hlaw, hne⟩ := BTreeNode.findSeparator_law hl hc hs
    refine ⟨info, n.getPrefix ++ sep, hinfo, hsep, ?_, ?_⟩
    · rw [BTreeNode.Ordered.keys_entries]
      exact hlaw.append
    · intro he
      exact hne (List.append_eq_nil_iff.mp he).2
  · intro n hc hs
    obtain ⟨info, sep, hinfo, hsep, hlaw⟩ := HashNode.findSeparator_spec hc hs
    refine ⟨info, n.getPrefix ++ sep, hinfo, hsep, ?_⟩
    rw [HashNode.keys_restored]
    exact hlaw.append

/-- Leaves of both kinds with the keys `a` and `abc`. -/
theorem leaf_separatorLaw_pair :
    let node : BTreeNode Bytes := { (BTreeNode.init true : BTreeNode Bytes) with
      slots := [⟨4095, [97], [], head [97]⟩, ⟨4092, [97, 98, 99], [], head [97, 98, 99]⟩] }
    let leaf : HashNode := {
      rangeOpCounter := RangeOpCounter.fresh, sortedCount := 2, spaceUsed := 4, dataOffset := 4028
      prefixLength := 0, hashCapacity := 64, hashOffset := 4032, lowerFence := [], upperFence := []
      slots := [⟨4031, [97], []⟩, ⟨4028, [97, 98, 99], []⟩], hashes := [0, 0] }
    (∃ info sep, node.findSeparator = .ok info ∧ node.getSep info = .ok sep ∧
      SeparatorLaw node.getPrefix (keys node.entries) info sep ∧ sep ≠ []) ∧
    (∃ info sep, leaf.findSeparator = .ok info ∧ leaf.getSep info = .ok sep ∧
      SeparatorLaw leaf.getPrefix (keys leaf.restored) info sep) := by
  intro node leaf
  have hnode : Ascending (keys node.content) := List.pairwise_pair.mpr (by decide)
  have hleaf : Ascending (keys leaf.content) := List.pairwise_pair.mpr (by decide)
  exact ⟨leaf_separatorLaw.1 node rfl (by decide) hnode, leaf_separatorLaw.2 leaf (by decide) hleaf⟩

end BtreeRedis
