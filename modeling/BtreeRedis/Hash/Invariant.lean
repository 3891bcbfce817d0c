import BtreeRedis.Adaptive.Leaf

/-!
# Which operations keep the invariant of a hash leaf

The checks of `validate`, a hash byte for every slot and distinct keys survive every
operation but two. A payload that replaces one of another length leaves `spaceUsed` as it
was, so that the check behind the insertion fails. A split gives both halves the estimated
capacity and the separator as a fence, for which nothing has looked for room.
-/

namespace BtreeRedis

open LexOrder SortedAssoc Outcome

namespace HashNode

def pageBytes (lower upper : Bytes) (es : List (Bytes × Bytes)) (capacity : ℕ) : ℕ :=
  hashHeaderSize + hashSlotSize * es.length + BTreeNode.entryBytes (BTreeNode.truncate lower upper es) +
    (upper.length + lower.length) + capacity

/-- Where `requestSlotAndSpace` finds room: as it is, with a larger hash array, or after a compaction. -/
def Grants (n : HashNode) (kvSize : ℕ) : Prop :=
  n.count < n.hashCapacity ∧ kvSize + hashSlotSize ≤ n.freeSpace ∨
    ∃ estimate, n.estimateCapacity = .ok estimate ∧
      (n.hashCapacity ≤ n.count ∧ max estimate (n.count + 1) + kvSize + hashSlotSize ≤ n.freeSpace ∨
        max estimate (n.count + 1) + kvSize + hashSlotSize ≤ n.freeSpaceAfterCompaction ∧
          n.count + n.count * 3 / 128 < max estimate (n.count + 1))

def hashLeaves : AdaptiveLeaf → List HashNode
  | .hash n => [n]
  | .basic _ _ => []

def SplitsToBasic (c : Config) (n : HashNode) : Prop :=
  c.enableHashAdapt ∧ (n.hasGoodHeads ∨ ¬ n.rangeOpCounter.isLowRange c)

instance (c : Config) (n : HashNode) : Decidable (n.SplitsToBasic c) := inferInstanceAs (Decidable (_ ∧ _))

end HashNode

inductive HashOp
  | insert (c : Config) (key payload : Bytes) (draws : Draws)
  | remove (key : Bytes)
  | sort
  | compactify (newHashCapacity : ℕ)
  | splitNode (c : Config) (info : SeparatorInfo) (sepKey : Bytes)
  | mergeNodes (right : HashNode)

section
variable [KeyHash]

/-- What `validate` checks, together with the room for hash bytes and distinct keys. -/
structure HashNode.Valid (n : HashNode) : Prop where
  validate : n.validate = .ok ()
  capacity : n.count ≤ n.hashCapacity
  distinct : (keys n.content).Nodup

theorem HashNode.WF.valid {n : HashNode} (h : WF n) : Valid n := ⟨h.validate, h.capacity, h.nodup⟩

namespace HashOp

def run (n : HashNode) : HashOp → Except Fault (List HashNode)
  | .insert c key payload draws => do
    let (_, n, _) ← n.insert c key payload draws
    pure [n]
  | .remove key => do
    let (_, n) ← n.remove key
    pure [n]
  | .sort => do
    let n ← n.sort
    pure [n]
  | .compactify newHashCapacity => do
    let n ← n.compactify newHashCapacity
    pure [n]
  | .splitNode c info sepKey => do
    let (left, right) ← n.splitNode c info.slot sepKey
    pure (HashNode.hashLeaves left ++ HashNode.hashLeaves right)
  | .mergeNodes right => do
    match ← n.mergeNodes right with
    | some merged => pure [merged]
    | none => pure [n, right]

/-- What the callers make sure of: keys are routed, a compaction has room, a sorted leaf is split at the
separator found for it, and only neighbours are merged. -/
def Admitted (n : HashNode) : HashOp → Prop
  | .insert _ key _ _ => InFences n.lowerFence n.upperFence key
  | .remove key => InFences n.lowerFence n.upperFence key
  | .sort => True
  | .compactify newHashCapacity => n.count ≤ newHashCapacity ∧ newHashCapacity ≤ n.freeSpaceAfterCompaction
  | .splitNode _ info sepKey =>
    n.sortedCount = n.count ∧ n.findSeparator = .ok info ∧ n.getSep info = .ok sepKey
  | .mergeNodes right => right.WF ∧ right.lowerFence = n.upperFence ∧ n.upperFence ≠ [] ∧
    n.lowerFence.length ≤ maxKVSize ∧ right.upperFence.length ≤ maxKVSize

/-- A key that is there is given a payload of the same length, unless there is no room anyway. -/
def SafeInsert (n : HashNode) (key payload : Bytes) : Prop :=
  ∀ old, n.entries.lookup key = some old → old.length ≠ payload.length →
    ¬ n.Grants (key.length - n.prefixLength + payload.length)

/-- Insertions are safe; a split is not at the first slot, and both halves fit. -/
def Safe (n : HashNode) : HashOp → Prop
  | .insert _ key payload _ => SafeInsert n key payload
  | .splitNode c info sepKey => 0 < info.slot ∧
    if n.SplitsToBasic c then
      BTreeNode.pageBytes n.lowerFence sepKey (n.entries.take (info.slot + 1)) ≤ pageSize ∧
        BTreeNode.pageBytes sepKey n.upperFence (n.entries.drop (info.slot + 1)) ≤ pageSize
    else ∀ capacity, n.estimateCapacity = .ok capacity →
      HashNode.pageBytes n.lowerFence sepKey (n.entries.take (info.slot + 1)) capacity ≤ pageSize ∧
        HashNode.pageBytes sepKey n.upperFence (n.entries.drop (info.slot + 1)) capacity ≤ pageSize
  | _ => True

def Preserves (n : HashNode) (op : HashOp) : Prop := ∃ leaves, op.run n = .ok leaves ∧ ∀ l ∈ leaves, l.Valid

end HashOp

namespace HashNode

theorem requestSlotAndSpace_grants {n m : HashNode} (h : WF n) {kvSize : ℕ} {space : Bool}
    (hm : n.requestSlotAndSpace kvSize = .ok (space, m)) : space = true ↔ n.Grants kvSize := by
  obtain ⟨estimate, hestimate, -, -⟩ := count_le_estimate h
  have hgrants : n.Grants kvSize ↔ n.count < n.hashCapacity ∧ kvSize + hashSlotSize ≤ n.freeSpace ∨
      n.hashCapacity ≤ n.count ∧ max estimate (n.count + 1) + kvSize + hashSlotSize ≤ n.freeSpace ∨
        max estimate (n.count + 1) + kvSize + hashSlotSize ≤ n.freeSpaceAfterCompaction ∧
          n.count + n.count * 3 / 128 < max estimate (n.count + 1) := by
    rw [Grants, hestimate]
    simp only [Except.ok.injEq, exists_eq_left']
  rw [hgrants]
  unfold requestSlotAndSpace at hm
  split_ifs at hm with hfast
  · cases hm
    exact iff_of_true rfl (Or.inl hfast)
  · rw [hestimate, ok_bind] at hm
    dsimp only at hm
    split_ifs at hm with hgrow hfull hfew
    · cases hm
      exact iff_of_true rfl (Or.inr (Or.inl ⟨not_lt.mp hgrow.1, hgrow.2⟩))
    · cases hm
      refine iff_of_false Bool.false_ne_true ?_
      rintro (hf | ⟨hc, hg⟩ | ⟨hg, -⟩)
      · exact hfast hf
      · exact hgrow ⟨not_lt.mpr hc, hg⟩
      · omega
    · cases hm
      refine iff_of_false Bool.false_ne_true ?_
      rintro (hf | ⟨hc, hg⟩ | ⟨-, hg⟩)
      · exact hfast hf
      · exact hgrow ⟨not_lt.mpr hc, hg⟩
      · omega
    · simp only [bind_eq_ok, pure_eq_ok, Prod.mk.injEq] at hm
      obtain ⟨-, -, rfl, -⟩ := hm
      exact iff_of_true rfl (Or.inr (Or.inr ⟨by omega, by omega⟩))

theorem WF.checkFreeSpace {n : HashNode} (h : WF n) : n.checkFreeSpace = .ok () := by
  have hroom := h.room
  have hfits := h.fits
  have hlt : n.freeSpace < pageSize := by
    simp only [freeSpace, slotsEnd, hashHeaderSize, hashSlotSize, pageSize] at hroom hfits ⊢
    omega
  rw [HashNode.checkFreeSpace, ensure_of ⟨hroom, hlt⟩]

theorem insertSlot_new {n : HashNode} (h : WF n) {key payload : Bytes}
    (hk : InFences n.lowerFence n.upperFence key) (hnew : key ∉ keys n.entries) (hcap : n.count < n.hashCapacity)
    (hroom : key.length - n.prefixLength + payload.length + hashSlotSize ≤ n.freeSpace) :
    ∃ m, n.insertSlot key payload = .ok m ∧ WF m := by
  have hhashes : n.hashes.length = n.count := by
    rw [h.hashed, List.length_map, keys, List.length_map, length_content]
  have hindex : n.findIndex key (computeHash (key.drop n.prefixLength)) = .ok none := by
    rcases findIndex_spec h.toKeyed hk with ⟨i, s, hi, hs, hsk⟩ | ⟨hi, -⟩
    · have hin := lookup_of_slot h.toKeyed hk hs hsk
      rw [lookup_eq_none hnew] at hin
      cases hin
    · exact hi
  have hpre := h.prefixLength_le_key hk
  have hnroom := h.room
  obtain ⟨m, hm, hg⟩ := (@append_yields _ n key payload hhashes hpre hcap).exists_ok fun e he => he.2 (by
    have hlen : Payload.len payload = payload.length := rfl
    simp only [RoomFor, BTreeNode.entryBytes_cons, BTreeNode.entryBytes_nil, List.length_singleton, List.length_drop,
      hlen, freeSpace, slotsEnd, hashHeaderSize, hashSlotSize] at hroom hnroom ⊢
    omega)
  refine ⟨m, ?_, (appended_wf h hk hnew hg hcap hroom).1⟩
  rw [insertSlot]
  simp only [hindex, ok_bind]
  exact hm

/-- The leaf with another payload for the key of slot `i`; neither its hash byte nor `spaceUsed` changes. -/
def overwritten (n : HashNode) (i : ℕ) (key payload : Bytes) : HashNode :=
  { n with
    dataOffset := n.dataOffset - (key.length + payload.length)
    slots := n.slots.set i ⟨n.dataOffset - (key.length + payload.length), key, payload⟩ }

section Overwriting
variable {n : HashNode} {i : ℕ} {s : HashSlot} {payload : Bytes}

section
omit [KeyHash]

theorem put_self {α : Type} {l : List α} {i : ℕ} {a : α} (h : l[i]? = some a) : put l i a = l := by
  obtain ⟨hi, hget⟩ := List.getElem?_eq_some_iff.mp h
  rw [put_eq hi, ← hget, List.set_getElem_self]

end

theorem hashes_getElem? (h : WF n) (hs : n.slots[i]? = some s) : n.hashes[i]? = some (computeHash s.key) := by
  rw [h.hashed, keys, content, List.map_map, List.map_map, List.getElem?_map, hs]
  rfl

section
omit [KeyHash]

theorem content_split (hs : n.slots[i]? = some s) :
    n.content = n.content.take i ++ (s.key, s.payload) :: n.content.drop (i + 1) := by
  obtain ⟨hi, rfl⟩ := List.getElem?_eq_some_iff.mp hs
  have hic : i < n.content.length := by rwa [length_content]
  have hentry : n.content[i] = (n.slots[i].key, n.slots[i].payload) := by
    simp [content, HashSlot.entry]
  rw [← hentry, List.getElem_cons_drop, List.take_append_drop]

theorem overwritten_content (hs : n.slots[i]? = some s) :
    (n.overwritten i s.key payload).content =
      n.content.take i ++ (s.key, payload) :: n.content.drop (i + 1) := by
  obtain ⟨hi, -⟩ := List.getElem?_eq_some_iff.mp hs
  rw [content, overwritten, List.map_set, List.set_eq_take_append_cons_drop, if_pos (by rwa [List.length_map])]
  rfl

theorem overwritten_keys (hs : n.slots[i]? = some s) :
    keys (n.overwritten i s.key payload).content = keys n.content := by
  rw [overwritten_content hs]
  conv_rhs => rw [content_split hs]
  simp [keys]

end

theorem overwritten_checkFreeSpace (h : WF n)
    (hroom : s.key.length + payload.length + hashSlotSize ≤ n.freeSpace) :
    (n.overwritten i s.key payload).checkFreeSpace = .ok () := by
  have hnroom := h.room
  have hfits := h.fits
  have hcount : (n.overwritten i s.key payload).count = n.count := List.length_set
  simp only [freeSpace, slotsEnd, hashHeaderSize, hashSlotSize, pageSize] at hroom hnroom hfits
  have hend : (n.overwritten i s.key payload).slotsEnd ≤ (n.overwritten i s.key payload).dataOffset := by
    rw [slotsEnd, hcount]
    simp only [overwritten, hashHeaderSize, hashSlotSize]
    omega
  have hfree : (n.overwritten i s.key payload).freeSpace < pageSize := by
    rw [freeSpace, slotsEnd, hcount]
    simp only [overwritten, hashHeaderSize, hashSlotSize, pageSize]
    omega
  rw [checkFreeSpace, ensure_of ⟨hend, hfree⟩]

theorem overwritten_space_iff (h : WF n) (hs : n.slots[i]? = some s) :
    (n.overwritten i s.key payload).spaceUsed = (n.overwritten i s.key payload).upperFence.length +
        (n.overwritten i s.key payload).lowerFence.length +
        BTreeNode.entryBytes (n.overwritten i s.key payload).content ↔
      s.payload.length = payload.length := by
  have hspace := h.space
  have hlen : ∀ p : Bytes, Payload.len p = p.length := fun _ => rfl
  rw [content_split hs] at hspace
  rw [overwritten_content hs]
  simp only [BTreeNode.entryBytes_append, BTreeNode.entryBytes_cons, hlen, overwritten] at hspace ⊢
  omega

theorem overwritten_validate (h : WF n) (hs : n.slots[i]? = some s) (hlen : s.payload.length = payload.length) :
    (n.overwritten i s.key payload).validate = .ok () := by
  have hkeys : keys (n.overwritten i s.key payload).content = keys n.content := overwritten_keys hs
  have hascend : (n.overwritten i s.key payload).FencesAscend := h.fencesAscend
  have hsorted : ((keys (n.overwritten i s.key payload).content).take
      (n.overwritten i s.key payload).sortedCount).IsChain (· < ·) := by
    rw [hkeys]
    exact List.isChain_iff_pairwise.mpr h.sorted
  have hhashes : (n.overwritten i s.key payload).hashes =
      (keys (n.overwritten i s.key payload).content).map computeHash := by
    rw [hkeys]
    exact h.hashed
  rw [HashNode.validate, ensure_of ((overwritten_space_iff h hs).mpr hlen), ok_bind, ensure_of hascend, ok_bind,
    ensure_of hsorted, ok_bind, ensure_of hhashes]

theorem overwritten_fails (h : WF n) (hs : n.slots[i]? = some s) (hlen : s.payload.length ≠ payload.length) :
    (n.overwritten i s.key payload).validate = .error .assertion := by
  rw [HashNode.validate, ensure, if_neg (mt (overwritten_space_iff h hs).mp hlen)]
  rfl

theorem storeKeyValue_overwrites (h : WF n) {key : Bytes} (hk : InFences n.lowerFence n.upperFence key)
    (hs : n.slots[i]? = some s) (hsk : s.key = key.drop n.prefixLength) (hcap : n.count < n.hashCapacity)
    (hroom : s.key.length + payload.length + hashSlotSize ≤ n.freeSpace) :
    n.storeKeyValue i key payload (computeHash (key.drop n.prefixLength)) =
      .ok { n.overwritten i s.key payload with spaceUsed := n.spaceUsed + (s.key.length + payload.length) } := by
  obtain ⟨hi, -⟩ := List.getElem?_eq_some_iff.mp hs
  have hic : i < n.count := hi
  have hnroom := h.room
  simp only [freeSpace, slotsEnd, hashHeaderSize, hashSlotSize] at hroom hnroom
  rw [storeKeyValue, ensure_of (h.prefixLength_le_key hk), ok_bind]
  dsimp only
  rw [← hsk, ensure_of (by omega), ok_bind, ensure_of (by simp only [hashHeaderSize, hashSlotSize]; omega), ok_bind,
    ensure_of (hic.trans hcap), ok_bind, put_eq hi, put_self (hashes_getElem? h hs)]
  rfl

theorem insertSlot_overwrites (h : WF n) {key : Bytes} (hk : InFences n.lowerFence n.upperFence key)
    (hindex : n.findIndex key (computeHash (key.drop n.prefixLength)) = .ok (some i)) (hs : n.slots[i]? = some s)
    (hsk : s.key = key.drop n.prefixLength) (hcap : n.count < n.hashCapacity)
    (hroom : s.key.length + payload.length + hashSlotSize ≤ n.freeSpace) :
    n.insertSlot key payload = .ok (n.overwritten i s.key payload) := by
  have hlen : key.length - n.prefixLength = s.key.length := by rw [hsk, List.length_drop]
  have hpre : (n.overwritten i s.key payload).prefixLength = n.prefixLength := rfl
  simp only [insertSlot, hindex, ok_bind, storeKeyValue_overwrites h hk hs hsk hcap hroom, hpre, hlen,
    Nat.add_sub_cancel]
  rfl

theorem overwritten_wf (h : WF n) {key : Bytes} (hk : InFences n.lowerFence n.upperFence key)
    (hs : n.slots[i]? = some s) (hsk : s.key = key.drop n.prefixLength) (hcap : n.count < n.hashCapacity)
    (hroom : s.key.length + payload.length + hashSlotSize ≤ n.freeSpace)
    (hlen : s.payload.length = payload.length) : WF (n.overwritten i s.key payload) := by
  have hstored := storeKeyValue_overwrites h hk hs hsk hcap hroom
  have hkey : key.length - n.prefixLength = s.key.length := by rw [hsk, List.length_drop]
  have hvalid := overwritten_validate h hs hlen
  have hins := replaced_inserting h hk hs hsk (hkey ▸ hroom) hstored
  simp only [hkey, Nat.add_sub_cancel] at hins
  exact (hins hvalid).wf

end Overwriting

theorem insertCounted_total {n : HashNode} (h : WF n) {key payload : Bytes}
    (hk : InFences n.lowerFence n.upperFence key) :
    (HashOp.SafeInsert n key payload → ∃ inserted m, n.insertCounted key payload = .ok (inserted, m) ∧ WF m) ∧
      (¬ HashOp.SafeInsert n key payload → n.insertCounted key payload = .error .assertion) := by
  obtain ⟨space, m, hm, hmoved, hgranted, -⟩ :=
    requestSlotAndSpace_spec h (key.length - n.prefixLength + payload.length)
  have hgrants := requestSlotAndSpace_grants h hm
  have hmk : InFences m.lowerFence m.upperFence key := by rwa [hmoved.lower, hmoved.upper]
  simp only [insertCounted, h.checkFreeSpace, ok_bind, ensure_of (h.prefixLength_le_key hk), h.validate, hm]
  cases space with
  | false =>
    have hno : ¬ n.Grants (key.length - n.prefixLength + payload.length) := fun hg => Bool.false_ne_true (hgrants.mpr hg)
    refine ⟨fun _ => ⟨false, m, ?_, hmoved.wf⟩, fun hs => absurd (fun _ _ _ => hno) hs⟩
    simp only [Bool.false_eq_true, if_false, hmoved.wf.checkFreeSpace, ok_bind]
    rfl
  | true =>
    obtain ⟨hcap, hroom⟩ := hgranted rfl
    have hyes := hgrants.mp rfl
    rw [← hmoved.prefixLength] at hroom
    simp only [if_true]
    by_cases hnew : key ∈ keys n.entries
    · rcases findIndex_spec hmoved.wf.toKeyed hmk with ⟨i, s, hi, hs, hsk⟩ | ⟨-, habsent⟩
      · have hkey : key.length - m.prefixLength = s.key.length := by rw [hsk, List.length_drop]
        rw [hkey] at hroom
        have hfound := lookup_of_slot hmoved.wf.toKeyed hmk hs hsk
        rw [hmoved.entries] at hfound
        have hsafe : HashOp.SafeInsert n key payload ↔ s.payload.length = payload.length := by
          constructor
          · exact fun hsafe => by_contra fun hne => hsafe s.payload hfound hne hyes
          · intro hlen old hold hne
            rw [hfound] at hold
            cases hold
            exact absurd hlen hne
        rw [insertSlot_overwrites hmoved.wf hmk hi hs hsk hcap hroom, ok_bind,
          overwritten_checkFreeSpace hmoved.wf hroom, ok_bind, hsafe]
        constructor
        · intro hlen
          refine ⟨true, _, ?_, overwritten_wf hmoved.wf hmk hs hsk hcap hroom hlen⟩
          rw [overwritten_validate hmoved.wf hs hlen]
          rfl
        · intro hlen
          rw [overwritten_fails hmoved.wf hs hlen]
          rfl
      · exact absurd hnew (hmoved.entries ▸ habsent)
    · obtain ⟨r, hr, hwf⟩ := insertSlot_new hmoved.wf hmk (hmoved.entries ▸ hnew) hcap hroom
      have hsafe : HashOp.SafeInsert n key payload := by
        intro old hold
        rw [lookup_eq_none hnew] at hold
        cases hold
      refine ⟨fun _ => ⟨true, r, ?_, hwf⟩, fun hs => absurd hsafe hs⟩
      rw [hr, ok_bind, hwf.checkFreeSpace, ok_bind, hwf.validate]
      rfl

theorem insert_total {n : HashNode} (h : WF n) (c : Config) {key payload : Bytes} (draws : Draws)
    (hk : InFences n.lowerFence n.upperFence key) :
    (HashOp.SafeInsert n key payload → ∃ inserted m draws', n.insert c key payload draws = .ok (inserted, m, draws') ∧
        WF m) ∧
      (¬ HashOp.SafeInsert n key payload → n.insert c key payload draws = .error .assertion) := by
  have hcounted := @insertCounted_total _ _ (h.counter (n.rangeOpCounter.pointOp c draws).2.1) key payload hk
  constructor
  · intro hs
    obtain ⟨inserted, m, hm, hwf⟩ := hcounted.1 hs
    exact ⟨inserted, m, (n.rangeOpCounter.pointOp c draws).2.2, by simp only [insert, hm, ok_bind]; rfl, hwf⟩
  · intro hs
    simp only [insert, hcounted.2 hs]
    rfl

section
omit [KeyHash]

theorem findSeparator_slot {n : HashNode} {info : SeparatorInfo} (h : n.findSeparator = .ok info) :
    info.slot + 1 < n.count := by
  simp only [findSeparator, bind_eq_ok, ensure_eq_ok, exists_const] at h
  obtain ⟨hc, slot, hslot, common, -, key, -, next, -, h⟩ := h
  obtain ⟨slot', hslot', hlt⟩ := findBestSlot_spec hc
  rw [hslot] at hslot'
  cases hslot'
  split_ifs at h <;> cases h <;> exact hlt

end

theorem separator_law {n : HashNode} (h : WF n) (hc : n.sortedCount = n.count) {info : SeparatorInfo} {sep : Bytes}
    (hinfo : n.findSeparator = .ok info) (hsep : n.getSep info = .ok sep) :
    SeparatorLaw n.getPrefix (keys n.restored) info sep := by
  have hlaw := (findSeparator_contained h hc).of_eq_ok hinfo
  obtain ⟨sep', hsep', hlaw⟩ := hlaw
  rw [hsep] at hsep'
  cases hsep'
  exact hlaw

theorem separator_strict {n : HashNode} (h : WF n) (hc : n.sortedCount = n.count) {info : SeparatorInfo} {sep : Bytes}
    (hinfo : n.findSeparator = .ok info) (hsep : n.getSep info = .ok sep) (hz : 0 < info.slot) :
    n.lowerFence < sep ∧ (n.upperFence = [] ∨ sep < n.upperFence) := by
  have hlaw := separator_law h hc hinfo hsep
  have hlt := findSeparator_slot hinfo
  rw [restored_of_sorted h.toKeyed hc] at hlaw
  have hlen : (keys n.entries).length = n.count := by rw [keys, List.length_map, length_entries]
  have hin : ∀ k ∈ keys n.entries, InFences n.lowerFence n.upperFence k := by
    intro k hk
    obtain ⟨e, he, rfl⟩ := List.mem_map.mp hk
    exact h.entries_inFences he
  have hfirst := hin _ (List.getElem_mem (show 0 < (keys n.entries).length by omega))
  have hnext := hin _ (List.getElem_mem (show info.slot + 1 < (keys n.entries).length by omega))
  have hstep := (h.ascending_entries.getElem_lt hz hlaw.lt).trans_le hlaw.le_sep
  constructor
  · rcases hfirst.1 with hnil | hlow
    · rw [hnil]
      exact (nil_le _).trans_lt hstep
    · exact hlow.trans hstep
  · have hcut := hlaw.sep_lt (info.slot + 1) (by omega) (Nat.lt_succ_self _)
    exact hnext.2.imp id hcut.trans_le

theorem copyHalf_ok {n : HashNode} (h : WF n) (hc : n.sortedCount = n.count) (capacity : ℕ) (roc : RangeOpCounter)
    {lower upper : Bytes} {i c : ℕ} (hf : upper = [] ∨ lower < upper)
    (hin : ∀ e ∈ (n.restored.drop i).take c, InFences lower upper e.1)
    (hcap : ((n.restored.drop i).take c).length ≤ capacity)
    (hfit : pageBytes lower upper ((n.restored.drop i).take c) capacity ≤ pageSize) :
    ∃ m, init lower upper capacity roc = .ok (blank lower upper capacity roc) ∧
      n.copyKeyValueRange (blank lower upper capacity roc) i c = .ok m ∧
      m.count = ((n.restored.drop i).take c).length ∧ WF m.sealed := by
  have hcount : (blank lower upper capacity roc).count = 0 := rfl
  have hpage : upper.length + lower.length + capacity ≤ pageSize := by
    rw [pageBytes] at hfit
    omega
  have hsort : Ascending (keys ((n.restored.drop i).take c)) := by
    rw [restored_of_sorted h.toKeyed hc, keys, List.map_take, List.map_drop]
    exact (h.ascending_entries.sublist (List.drop_sublist _ _)).sublist (List.take_sublist _ _)
  obtain ⟨m, hm, hg, hroom⟩ := (copy_yields (p := blank lower upper capacity roc) h.toKeyed rfl rfl hin (by
    rw [hcount, Nat.zero_add]
    exact hcap)).exists_ok fun e he => he.2 (by
      rw [RoomFor, BTreeNode.truncate_length, hcount]
      simp only [pageBytes, blank, hashHeaderSize, hashSlotSize, pageSize] at hfit ⊢
      omega)
  have hmc := hg.count
  rw [BTreeNode.truncate_length, hcount, Nat.zero_add] at hmc
  exact ⟨m, init_eq_ok.mpr ⟨hpage, rfl⟩, hm, hmc, (grown_blank hg hroom hf hpage hsort.nodup hin hmc.le
    (hsort.sublist (List.take_sublist _ _))).wf⟩

theorem copyHalf_fits {n m : HashNode} (h : Keyed n) {lower upper : Bytes} {i c capacity : ℕ} {roc : RangeOpCounter}
    (hin : ∀ e ∈ (n.restored.drop i).take c, InFences lower upper e.1)
    (hcap : ((n.restored.drop i).take c).length ≤ capacity)
    (hpage : upper.length + lower.length + capacity ≤ pageSize)
    (hm : n.copyKeyValueRange (blank lower upper capacity roc) i c = .ok m) :
    m.count = ((n.restored.drop i).take c).length ∧
      pageBytes lower upper ((n.restored.drop i).take c) capacity ≤ pageSize := by
  have hcount : (blank lower upper capacity roc).count = 0 := rfl
  have hcopy := copy_yields (p := blank lower upper capacity roc) h rfl rfl hin (by
    rw [hcount, Nat.zero_add]
    exact hcap)
  obtain ⟨hg, hroom⟩ := hcopy.of_eq_ok hm
  have hc := hg.count
  have ho := hg.offset
  rw [BTreeNode.truncate_length, hcount, Nat.zero_add] at hc
  refine ⟨hc, ?_⟩
  simp only [slotsEnd, hc, pageBytes, blank, hashHeaderSize, hashSlotSize, pageSize] at hroom ho hpage ⊢
  omega

section SplitHash
variable {n : HashNode} {info : SeparatorInfo} {sep : Bytes} {capacity : ℕ}

structure Halves (n : HashNode) (info : SeparatorInfo) (sep : Bytes) : Prop where
  left : (n.restored.drop 0).take (info.slot + 1) = n.entries.take (info.slot + 1)
  right : (n.restored.drop (info.slot + 1)).take (n.count - (info.slot + 1)) = n.entries.drop (info.slot + 1)
  inLeft : ∀ e ∈ n.entries.take (info.slot + 1), InFences n.lowerFence sep e.1
  inRight : ∀ e ∈ n.entries.drop (info.slot + 1), InFences sep n.upperFence e.1
  lengthLeft : (n.entries.take (info.slot + 1)).length = info.slot + 1
  lengthRight : (n.entries.drop (info.slot + 1)).length = n.count - (info.slot + 1)
  slot : info.slot + 1 < n.count

theorem separator_halves (h : WF n) (hc : n.sortedCount = n.count) (hinfo : n.findSeparator = .ok info)
    (hsep : n.getSep info = .ok sep) : Halves n info sep := by
  have hlaw := separator_law h hc hinfo hsep
  have hslot := findSeparator_slot hinfo
  have hrest := restored_of_sorted h.toKeyed hc
  rw [hrest] at hlaw
  obtain ⟨-, hinl, hinr⟩ := hlaw.halves h.ascending_entries fun e he => h.entries_inFences he
  refine ⟨by rw [List.drop_zero, hrest], ?_, hinl, hinr, ?_, ?_, hslot⟩
  · rw [hrest, ← length_entries, ← List.length_drop, List.take_length]
  · rw [List.length_take, length_entries]
    omega
  · rw [List.length_drop, length_entries]

theorem splitHash_ok (h : WF n) (hc : n.sortedCount = n.count) (hinfo : n.findSeparator = .ok info)
    (hsep : n.getSep info = .ok sep) (hcapacity : n.estimateCapacity = .ok capacity) (hcap : n.count ≤ capacity)
    (hz : 0 < info.slot) (hl : pageBytes n.lowerFence sep (n.entries.take (info.slot + 1)) capacity ≤ pageSize)
    (hr : pageBytes sep n.upperFence (n.entries.drop (info.slot + 1)) capacity ≤ pageSize) :
    ∃ l r, n.splitHash info.slot sep = .ok (l, r) ∧ WF l ∧ WF r := by
  have hh := separator_halves h hc hinfo hsep
  have hslot := hh.slot
  obtain ⟨hlow, hupp⟩ := separator_strict h hc hinfo hsep hz
  have hleft := copyHalf_ok h hc capacity n.rangeOpCounter (Or.inr hlow)
    (hh.left ▸ hh.inLeft) (by rw [hh.left, hh.lengthLeft]; omega) (hh.left ▸ hl)
  have hright := copyHalf_ok h hc capacity n.rangeOpCounter hupp
    (hh.right ▸ hh.inRight) (by rw [hh.right, hh.lengthRight]; omega) (hh.right ▸ hr)
  obtain ⟨l, hil, hml, hlc, hwl⟩ := hleft
  obtain ⟨r, hir, hmr, -, hwr⟩ := hright
  rw [hh.left, hh.lengthLeft] at hlc
  refine ⟨l.sealed, r.sealed, ?_, hwl, hwr⟩
  simp only [splitHash, fillHalves, ensure_of hz, hcapacity, hil, hir, hml, hlc, hmr, hwl.validate, hwr.validate,
    ok_bind]
  rfl

theorem splitHash_fits (h : WF n) (hc : n.sortedCount = n.count) (hinfo : n.findSeparator = .ok info)
    (hsep : n.getSep info = .ok sep) (hcapacity : n.estimateCapacity = .ok capacity) (hcap : n.count ≤ capacity)
    {l r : HashNode} (hsplit : n.splitHash info.slot sep = .ok (l, r)) :
    0 < info.slot ∧ pageBytes n.lowerFence sep (n.entries.take (info.slot + 1)) capacity ≤ pageSize ∧
      pageBytes sep n.upperFence (n.entries.drop (info.slot + 1)) capacity ≤ pageSize := by
  have hh := separator_halves h hc hinfo hsep
  have hslot := hh.slot
  simp only [splitHash, fillHalves, hcapacity, ok_bind, bind_eq_ok, ensure_eq_ok, exists_const, init_eq_ok] at hsplit
  obtain ⟨hz, _, ⟨hpl, rfl⟩, _, ⟨hpr, rfl⟩, a, ha, b, hb, -⟩ := hsplit
  obtain ⟨hac, hl⟩ := copyHalf_fits h.toKeyed (hh.left ▸ hh.inLeft) (by rw [hh.left, hh.lengthLeft]; omega) hpl ha
  rw [hh.left, hh.lengthLeft] at hac
  rw [hac] at hb
  obtain ⟨-, hr⟩ := copyHalf_fits h.toKeyed (hh.right ▸ hh.inRight) (by rw [hh.right, hh.lengthRight]; omega) hpr hb
  exact ⟨hz, hh.left ▸ hl, hh.right ▸ hr⟩

theorem splitToBasic_ok (h : WF n) (hc : n.sortedCount = n.count) (hinfo : n.findSeparator = .ok info)
    (hsep : n.getSep info = .ok sep) (hz : 0 < info.slot)
    (hl : BTreeNode.pageBytes n.lowerFence sep (n.entries.take (info.slot + 1)) ≤ pageSize)
    (hr : BTreeNode.pageBytes sep n.upperFence (n.entries.drop (info.slot + 1)) ≤ pageSize) :
    ∃ halves, n.splitToBasic info.slot sep = .ok halves := by
  have hh := separator_halves h hc hinfo hsep
  have hslot := hh.slot
  obtain ⟨hlow, -⟩ := separator_strict h hc hinfo hsep hz
  obtain ⟨p, l, hp, hlm⟩ := copyToBasic_ok (hh.left ▸ hh.inLeft) (hh.left ▸ hl)
  obtain ⟨q, r, hq, hrm⟩ := copyToBasic_ok (hh.right ▸ hh.inRight) (hh.right ▸ hr)
  have hsl : Ascending (keys (n.entries.take (info.slot + 1))) := by
    rw [keys, List.map_take]
    exact h.ascending_entries.sublist (List.take_sublist _ _)
  have hholds := copyToBasic_holds (Or.inr hlow.le) (hh.left ▸ hsl) (hh.left ▸ hh.inLeft) hp hlm
  have hlc : l.count = info.slot + 1 := by
    rw [← BTreeNode.entries_length, hholds.entries, hh.left, hh.lengthLeft]
  refine ⟨(l, r), ?_⟩
  simp only [splitToBasic, ensure_of hz, hp, hq, hlm, hlc, hrm, ok_bind]
  rfl

theorem splitToBasic_fits (h : WF n) (hc : n.sortedCount = n.count) (hinfo : n.findSeparator = .ok info)
    (hsep : n.getSep info = .ok sep) {halves : BTreeNode Bytes × BTreeNode Bytes}
    (hsplit : n.splitToBasic info.slot sep = .ok halves) :
    0 < info.slot ∧ BTreeNode.pageBytes n.lowerFence sep (n.entries.take (info.slot + 1)) ≤ pageSize ∧
      BTreeNode.pageBytes sep n.upperFence (n.entries.drop (info.slot + 1)) ≤ pageSize := by
  obtain ⟨hl, hr⟩ := splitToBasic_spec h hc (separator_law h hc hinfo hsep) hsplit
  have hlfit := hl.wf.pageBytes_le
  have hrfit := hr.wf.pageBytes_le
  rw [hl.lower, hl.upper, hl.entries] at hlfit
  rw [hr.lower, hr.upper, hr.entries] at hrfit
  exact ⟨splitToBasic_slot hsplit, hlfit, hrfit⟩

end SplitHash

end HashNode

namespace HashOp
open HashNode

theorem wf_of_safe {n : HashNode} (h : WF n) {op : HashOp} (ha : op.Admitted n) (hs : op.Safe n) :
    ∃ leaves, op.run n = .ok leaves ∧ ∀ l ∈ leaves, WF l := by
  cases op with
  | insert c key payload draws =>
    obtain ⟨inserted, m, draws', hm, hwf⟩ := (insert_total h c draws ha).1 hs
    exact ⟨[m], by simp only [run, hm, ok_bind]; rfl, List.forall_mem_singleton.mpr hwf⟩
  | remove key =>
    rcases remove_spec h ha with ⟨-, hm⟩ | ⟨i, hm, hwf, -⟩
    · exact ⟨[n], by simp only [run, hm, ok_bind]; rfl, List.forall_mem_singleton.mpr h⟩
    · exact ⟨[n.removeSlot i], by simp only [run, hm, ok_bind]; rfl, List.forall_mem_singleton.mpr hwf⟩
  | sort =>
    obtain ⟨m, hm, hr⟩ := sort_spec h
    exact ⟨[m], by simp only [run, hm, ok_bind]; rfl, List.forall_mem_singleton.mpr hr.wf⟩
  | compactify newHashCapacity =>
    obtain ⟨m, hm, hmoved, -, -⟩ := compactify_spec h ha.1 ha.2
    exact ⟨[m], by simp only [run, hm, ok_bind]; rfl, List.forall_mem_singleton.mpr hmoved.wf⟩
  | splitNode c info sepKey =>
    obtain ⟨hc, hinfo, hsep⟩ := ha
    obtain ⟨hz, hfit⟩ := hs
    by_cases hbasic : n.SplitsToBasic c
    · rw [if_pos hbasic] at hfit
      obtain ⟨⟨l, r⟩, hm⟩ := splitToBasic_ok h hc hinfo hsep hz hfit.1 hfit.2
      rw [SplitsToBasic] at hbasic
      refine ⟨[], ?_, fun l hl => absurd hl List.not_mem_nil⟩
      rw [run, HashNode.splitNode, if_pos hbasic, hm]
      rfl
    · obtain ⟨capacity, hcapacity, hcap, -⟩ := count_le_estimate h
      rw [if_neg hbasic] at hfit
      obtain ⟨hl, hr⟩ := hfit capacity hcapacity
      obtain ⟨l, r, hm, hwl, hwr⟩ := splitHash_ok h hc hinfo hsep hcapacity hcap hz hl hr
      rw [SplitsToBasic] at hbasic
      refine ⟨[l, r], ?_, List.forall_mem_cons.mpr ⟨hwl, List.forall_mem_singleton.mpr hwr⟩⟩
      rw [run, HashNode.splitNode, if_neg hbasic, hm]
      rfl
  | mergeNodes right =>
    obtain ⟨hright, hadj, hmid, hlow, hupp⟩ := ha
    obtain ⟨res, hm, hholds⟩ := mergeNodes_spec h hright hadj hmid hlow hupp
    cases res with
    | none =>
      exact ⟨[n, right], by simp only [run, hm, ok_bind]; rfl,
        List.forall_mem_cons.mpr ⟨h, List.forall_mem_singleton.mpr hright⟩⟩
    | some m =>
      exact ⟨[m], by simp only [run, hm, ok_bind]; rfl, List.forall_mem_singleton.mpr (hholds m rfl).wf⟩

theorem safe_of_run {n : HashNode} (h : WF n) {op : HashOp} (ha : op.Admitted n) {leaves : List HashNode}
    (hrun : op.run n = .ok leaves) : op.Safe n := by
  cases op with
  | insert c key payload draws =>
    by_contra hs
    simp only [run, (insert_total h c draws ha).2 hs] at hrun
    cases hrun
  | splitNode c info sepKey =>
    obtain ⟨hc, hinfo, hsep⟩ := ha
    rw [run, HashNode.splitNode] at hrun
    by_cases hbasic : n.SplitsToBasic c
    · rw [if_pos (show _ ∧ _ from hbasic)] at hrun
      simp only [bind_eq_ok] at hrun
      obtain ⟨-, ⟨halves, hm, -⟩, -⟩ := hrun
      have hfits := splitToBasic_fits h hc hinfo hsep hm
      refine ⟨hfits.1, ?_⟩
      rw [if_pos hbasic]
      exact hfits.2
    · obtain ⟨capacity, hcapacity, hcap, -⟩ := count_le_estimate h
      rw [if_neg (show ¬ (_ ∧ _) from hbasic)] at hrun
      simp only [bind_eq_ok] at hrun
      obtain ⟨-, ⟨⟨l, r⟩, hm, -⟩, -⟩ := hrun
      have hfits := splitHash_fits h hc hinfo hsep hcapacity hcap hm
      refine ⟨hfits.1, ?_⟩
      rw [if_neg hbasic]
      intro capacity' hcapacity'
      rw [hcapacity] at hcapacity'
      cases hcapacity'
      exact hfits.2
  | _ => trivial

/-- The invariant is kept by exactly the safe operations. -/
theorem preserves_iff {n : HashNode} (h : WF n) :
    n.Valid ∧ ∀ op : HashOp, op.Admitted n →
      (op.Preserves n ↔ op.Safe n) ∧ (op.Safe n → ∃ leaves, op.run n = .ok leaves ∧ ∀ l ∈ leaves, WF l) := by
  refine ⟨h.valid, fun op ha => ⟨⟨?_, fun hs => ?_⟩, wf_of_safe h ha⟩⟩
  · rintro ⟨leaves, hrun, -⟩
    exact safe_of_run h ha hrun
  · obtain ⟨leaves, hrun, hwf⟩ := wf_of_safe h ha hs
    exact ⟨leaves, hrun, fun l hl => (hwf l hl).valid⟩

/-- The leaves that fresh pages become by safe operations. -/
inductive Reached : HashNode → Prop
  | fresh {lower upper : Bytes} {hashCapacity : ℕ} {roc : RangeOpCounter} {n : HashNode}
      (hf : upper = [] ∨ lower < upper) (hn : init lower upper hashCapacity roc = .ok n)
      (hroom : hashHeaderSize ≤ n.dataOffset) : Reached n
  | step {n : HashNode} {op : HashOp} {leaves : List HashNode} {l : HashNode} (hn : Reached n)
      (ha : op.Admitted n) (hs : op.Safe n) (hrun : op.run n = .ok leaves) (hl : l ∈ leaves) : Reached l

theorem Reached.wf {n : HashNode} (h : Reached n) : WF n := by
  induction h with
  | @fresh lower upper hashCapacity roc n hf hn hroom =>
    obtain ⟨hs, rfl⟩ := init_eq_ok.mp hn
    have hholds := @grown_blank _ _ lower upper hashCapacity roc [] Grown.refl hroom hf hs List.nodup_nil
      (fun e he => absurd he List.not_mem_nil) 0 le_rfl List.Pairwise.nil
    exact hholds.wf
  | @step n op leaves l _ ha hs hrun hl ih =>
    obtain ⟨leaves', hrun', hwf⟩ := wf_of_safe ih ha hs
    rw [hrun] at hrun'
    cases hrun'
    exact hwf l hl

end HashOp

end

def oneEntryLeaf : HashNode where
  rangeOpCounter := RangeOpCounter.fresh
  sortedCount := 0
  spaceUsed := 2
  dataOffset := 4030
  prefixLength := 0
  hashCapacity := 64
  hashOffset := 4032
  lowerFence := []
  upperFence := []
  slots := [⟨4030, [97], [1]⟩]
  hashes := [0]

theorem oneEntryLeaf_wf : let _ : KeyHash := ⟨fun _ => 0⟩; oneEntryLeaf.WF := by
  intro _
  refine ⟨⟨rfl, by decide, by decide, by decide⟩, ⟨by decide, Or.inl rfl, List.nodup_singleton _, ?_, rfl,
    List.Pairwise.nil, Nat.zero_le _⟩⟩
  intro e he
  rw [List.mem_singleton.mp he]
  exact ⟨Or.inr (by decide), Or.inl rfl⟩

def fourEntryLeaf : HashNode where
  rangeOpCounter := RangeOpCounter.fresh
  sortedCount := 4
  spaceUsed := 10
  dataOffset := 4022
  prefixLength := 0
  hashCapacity := 64
  hashOffset := 4031
  lowerFence := []
  upperFence := [120]
  slots := [⟨4029, [97], [1]⟩, ⟨4027, [98], [2]⟩, ⟨4025, [99], [3]⟩, ⟨4022, [99, 97], [4]⟩]
  hashes := [0, 0, 0, 0]

def neighbourLeaf : HashNode where
  rangeOpCounter := RangeOpCounter.fresh
  sortedCount := 0
  spaceUsed := 5
  dataOffset := 4027
  prefixLength := 0
  hashCapacity := 64
  hashOffset := 4031
  lowerFence := [120]
  upperFence := []
  slots := [⟨4029, [122], [5]⟩, ⟨4027, [121], [6]⟩]
  hashes := [0, 0]

theorem fourEntryLeaf_wf : let _ : KeyHash := ⟨fun _ => 0⟩; fourEntryLeaf.WF := by
  intro _
  exact ⟨⟨rfl, by decide, by decide, by decide⟩, ⟨by decide, Or.inr (by decide), by decide, by decide, rfl, by decide,
    by decide⟩⟩

theorem neighbourLeaf_wf : let _ : KeyHash := ⟨fun _ => 0⟩; neighbourLeaf.WF := by
  intro _
  exact ⟨⟨rfl, by decide, by decide, by decide⟩, ⟨by decide, Or.inl rfl, by decide, by decide, rfl, by decide,
    by decide⟩⟩

/-- One of each operation, and for insertion both a new key and a payload over one of its length. -/
theorem HashOp.preserves_iff_each :
    let _ : KeyHash := ⟨fun _ => 0⟩
    let c : Config := ⟨true, false, false, nofun, nofun⟩
    ∀ op ∈ [HashOp.insert c [98] [5] (Stream'.const 0), .insert c [100, 1] [6, 7] (Stream'.const 0), .remove [97],
      .sort, .compactify 16, .splitNode c ⟨1, 1, false⟩ [98], .mergeNodes neighbourLeaf], op.Preserves fourEntryLeaf := by
  intro _ c op hop
  have hin : ∀ {key : Bytes}, key ≤ [120] → InFences fourEntryLeaf.lowerFence fourEntryLeaf.upperFence key :=
    fun hle => ⟨Or.inl rfl, Or.inr hle⟩
  have hpreserves : ∀ op : HashOp, op.Admitted fourEntryLeaf → op.Safe fourEntryLeaf → op.Preserves fourEntryLeaf :=
    fun op ha hs => ((HashOp.preserves_iff fourEntryLeaf_wf).2 op ha).1.mpr hs
  simp only [List.mem_cons, List.not_mem_nil, or_false] at hop
  rcases hop with rfl | rfl | rfl | rfl | rfl | rfl | rfl
  · refine hpreserves _ (hin (by decide)) fun old hold hne => ?_
    obtain rfl : old = [2] := (Option.some.inj hold).symm
    exact absurd rfl hne
  · refine hpreserves _ (hin (by decide)) fun old hold hne => ?_
    cases hold
  · exact hpreserves _ (hin (by decide)) trivial
  · exact hpreserves _ trivial trivial
  · exact hpreserves _ ⟨by decide, by decide⟩ trivial
  · refine hpreserves _ ⟨rfl, rfl, rfl⟩ ⟨by decide, ?_⟩
    rw [if_neg (by decide)]
    intro capacity hcapacity
    obtain rfl := Except.ok.inj hcapacity
    decide
  · exact hpreserves _ ⟨neighbourLeaf_wf, rfl, by decide, by decide, by decide⟩ trivial

/-- Two bytes over one: `spaceUsed` stays at two, and the check for it fails. -/
theorem HashOp.overwrite_longer :
    let _ : KeyHash := ⟨fun _ => 0⟩
    let c : Config := ⟨true, false, false, nofun, nofun⟩
    let op := HashOp.insert c [97] [1, 2] (Stream'.const 0)
    oneEntryLeaf.WF ∧ op.Admitted oneEntryLeaf ∧ ¬ op.Preserves oneEntryLeaf := by
  intro _ c op
  have hk : InFences oneEntryLeaf.lowerFence oneEntryLeaf.upperFence [97] := ⟨Or.inl rfl, Or.inl rfl⟩
  refine ⟨oneEntryLeaf_wf, hk, ?_⟩
  have hunsafe : ¬ HashOp.SafeInsert oneEntryLeaf [97] [1, 2] := by
    intro hs
    exact hs [1] rfl (by decide) (Or.inl ⟨by decide, by decide⟩)
  rintro ⟨leaves, hrun, -⟩
  simp only [op, HashOp.run, (HashNode.insert_total oneEntryLeaf_wf c (Stream'.const 0) hk).2 hunsafe] at hrun
  cases hrun

end BtreeRedis
