import BtreeRedis.Hash.Search
import BtreeRedis.Hash.Split

/-!
# From a hash leaf to basic ones

`tryConvertToBasic` sorts the leaf and writes its entries into a basic page with the same
fences if they fit; `splitToBasic` distributes a sorted leaf over two basic pages. Both copy
entry by entry.
-/

namespace BtreeRedis

open LexOrder SortedAssoc Outcome

namespace HashNode
variable [KeyHash]

def copyKeyValueToBasic (n : HashNode) (dst : BTreeNode Bytes) (s : HashSlot) : Except Fault (BTreeNode Bytes) := do
  let (dst, t) ← dst.storeKeyValue dst.count (n.getPrefix ++ s.key) s.payload
  pure { dst with slots := dst.slots ++ [t] }

/-- Every caller passes 0 as the destination slot and an empty page. -/
def copyKeyValueRangeToBasic (n : HashNode) (dst : BTreeNode Bytes) (srcSlot srcCount : ℕ) :
    Except Fault (BTreeNode Bytes) := do
  let dst ← ((n.slots.drop srcSlot).take srcCount).foldlM n.copyKeyValueToBasic dst
  let dst := dst.makeHint
  ensure (slotsOffset + slotSize * dst.count ≤ dst.dataOffset) .pageOverflow
  pure dst

def tryConvertToBasic (n : HashNode) : Except Fault (Option (BTreeNode Bytes)) := do
  if pageSize < n.spaceUsed + n.count * slotSize + headerSize then pure none
  else
    let n ← n.sort
    let tmp ← (BTreeNode.init true).setFences n.lowerFence n.upperFence
    let tmp ← n.copyKeyValueRangeToBasic tmp 0 n.count
    pure (some tmp)

/-- The caller puts the left half into the parent. -/
def splitToBasic (n : HashNode) (sepSlot : ℕ) (sepKey : Bytes) :
    Except Fault (BTreeNode Bytes × BTreeNode Bytes) := do
  ensure (0 < sepSlot) .assertion
  let nodeLeft ← (BTreeNode.init true).setFences n.lowerFence sepKey
  let right ← (BTreeNode.init true).setFences sepKey n.upperFence
  let nodeLeft ← n.copyKeyValueRangeToBasic nodeLeft 0 (sepSlot + 1)
  let right ← n.copyKeyValueRangeToBasic right nodeLeft.count (n.count - nodeLeft.count)
  pure (nodeLeft, right)

def rekeyBasic (n : HashNode) (dst : BTreeNode Bytes) (s : HashSlot) : Bytes × Bytes :=
  ((n.getPrefix ++ s.key).drop dst.prefixLength, s.payload)

section
omit [KeyHash]

theorem copyKeyValueToBasic_grown {n : HashNode} {dst dst' : BTreeNode Bytes} {s : HashSlot}
    (h : n.copyKeyValueToBasic dst s = .ok dst') : BTreeNode.Grown dst dst' [n.rekeyBasic dst s] := by
  simp only [copyKeyValueToBasic, bind_eq_ok, pure_eq_ok] at h
  obtain ⟨⟨m, t⟩, hst, rfl⟩ := h
  obtain ⟨hk, hp, hh, hd, rfl⟩ := BTreeNode.storeKeyValue_eq_ok hst
  have hg := BTreeNode.Grown.push (a := dst) hh rfl hd
  rwa [Slot.entry, hk, hp] at hg

theorem map_rekeyBasic {n : HashNode} {p : BTreeNode Bytes} {lower upper : Bytes}
    (hp : p.prefixLength = commonPrefixLength lower upper) (i c : ℕ) :
    ((n.slots.drop i).take c).map (n.rekeyBasic p) =
      BTreeNode.truncate lower upper ((n.restored.drop i).take c) := by
  rw [restored, content, BTreeNode.truncate, ← List.map_drop, ← List.map_drop, ← List.map_take, ← List.map_take,
    List.map_map, List.map_map, ← hp]
  rfl

theorem foldlM_copyToBasic_grown {n : HashNode} {src : List HashSlot} {dst dst' : BTreeNode Bytes}
    (h : src.foldlM n.copyKeyValueToBasic dst = .ok dst') :
    BTreeNode.Grown dst dst' (src.map (n.rekeyBasic dst)) := by
  refine BTreeNode.foldlM_grown (p := dst.prefixLength) (fun a s _ b ha hb => ?_) rfl h
  have hg := copyKeyValueToBasic_grown hb
  rwa [rekeyBasic, ha] at hg

theorem copyToBasic_holds {n : HashNode} {p m : BTreeNode Bytes} {lower upper : Bytes} {i c : ℕ}
    (hf : FencesOrdered lower upper) (hsort : Ascending (keys ((n.restored.drop i).take c)))
    (hin : ∀ e ∈ (n.restored.drop i).take c, InFences lower upper e.1)
    (hp : (BTreeNode.init true : BTreeNode Bytes).setFences lower upper = .ok p)
    (hm : n.copyKeyValueRangeToBasic p i c = .ok m) :
    BTreeNode.Holds m true lower upper ((n.restored.drop i).take c) := by
  obtain ⟨hs, rfl⟩ := BTreeNode.setFences_init_eq_ok.mp hp
  simp only [copyKeyValueRangeToBasic, bind_eq_ok, ensure_eq_ok, exists_const, pure_eq_ok] at hm
  obtain ⟨m', hm', hroom, rfl⟩ := hm
  have hg := foldlM_copyToBasic_grown hm'
  rw [map_rekeyBasic rfl] at hg
  exact BTreeNode.grown_fenced hg hroom hf hs hsort hin

theorem copyToBasic_ok {n : HashNode} {lower upper : Bytes} {i c : ℕ}
    (hin : ∀ e ∈ (n.restored.drop i).take c, InFences lower upper e.1)
    (hfit : BTreeNode.pageBytes lower upper ((n.restored.drop i).take c) ≤ pageSize) :
    ∃ p m, (BTreeNode.init true : BTreeNode Bytes).setFences lower upper = .ok p ∧
      n.copyKeyValueRangeToBasic p i c = .ok m := by
  simp only [BTreeNode.pageBytes, slotsOffset, slotSize, pageSize] at hfit
  have hl : ((n.slots.drop i).take c).length = ((n.restored.drop i).take c).length := by
    simp only [List.length_take, List.length_drop, length_restored]
  set p : BTreeNode Bytes := BTreeNode.fenced true lower upper with hp
  have hroom : slotsOffset + slotSize * (p.count + ((n.slots.drop i).take c).length) +
      BTreeNode.entryBytes (((n.slots.drop i).take c).map (n.rekeyBasic p)) ≤ p.dataOffset := by
    rw [@map_rekeyBasic n p lower upper rfl, hl, hp, BTreeNode.count_fenced]
    simp only [BTreeNode.fenced, slotsOffset, slotSize, pageSize]
    omega
  have hkey : ∀ s ∈ (n.slots.drop i).take c, p.prefixLength ≤ (n.getPrefix ++ s.key).length := by
    intro s hs
    have he : (n.getPrefix ++ s.key, s.payload) ∈ (n.restored.drop i).take c := by
      rw [restored, content, List.map_map, ← List.map_drop, ← List.map_take]
      exact List.mem_map_of_mem hs
    have hl := (hin _ he).isPrefix.length_le
    rwa [List.length_take, Nat.min_eq_left (commonPrefixLength_le_left _ _)] at hl
  have hgrown : ∀ a, ∀ s ∈ (n.slots.drop i).take c, ∀ b, a.prefixLength = p.prefixLength →
      n.copyKeyValueToBasic a s = .ok b → BTreeNode.Grown a b [n.rekeyBasic p s] := by
    intro a s _ b ha hb
    have hg := copyKeyValueToBasic_grown hb
    rwa [rekeyBasic, ha] at hg
  have hstep : ∀ a, ∀ s ∈ (n.slots.drop i).take c, a.prefixLength = p.prefixLength →
      slotsOffset + slotSize * (a.count + 1) + BTreeNode.entryBytes [n.rekeyBasic p s] ≤ a.dataOffset →
      ∃ b, n.copyKeyValueToBasic a s = .ok b := by
    intro a s hs ha har
    have hl := hkey s hs
    rw [← ha] at hl
    have hst : slotsOffset + slotSize * (a.count + 1) +
        ((n.getPrefix ++ s.key).length - a.prefixLength + Payload.len s.payload) ≤ a.dataOffset := by
      simp only [rekeyBasic, BTreeNode.entryBytes_cons, BTreeNode.entryBytes_nil, List.length_drop, ← ha] at har
      omega
    obtain ⟨b, t, hb⟩ := BTreeNode.storeKeyValue_ok hl hst
    simp only [copyKeyValueToBasic, hb, ok_bind]
    exact ⟨_, rfl⟩
  obtain ⟨m, hm⟩ := BTreeNode.foldlM_ok hgrown hstep rfl hroom
  have hg := foldlM_copyToBasic_grown hm
  have hcount := hg.count
  have hoff := hg.offset
  rw [List.length_map] at hcount
  refine ⟨p, m.makeHint, BTreeNode.setFences_init_eq_ok.mpr ⟨?_, rfl⟩, ?_⟩
  · simp only [slotsOffset, pageSize]
    omega
  · simp only [copyKeyValueRangeToBasic, hm, ok_bind]
    rw [ensure_of]
    · rfl
    · change slotsOffset + slotSize * m.count ≤ m.dataOffset
      rw [hcount]
      omega

end

theorem tryConvertToBasic_spec {n : HashNode} (h : WF n) :
    ∃ res, n.tryConvertToBasic = .ok res ∧
      ∀ m, res = some m → BTreeNode.Holds m true n.lowerFence n.upperFence n.entries := by
  unfold tryConvertToBasic
  split_ifs with hbig
  · exact ⟨none, rfl, by simp⟩
  · obtain ⟨s, hs, hr⟩ := sort_spec h
    have hrest : s.restored = n.entries := by rw [restored_of_sorted hr.wf.toKeyed hr.sortedCount, hr.entries]
    have hall : (s.restored.drop 0).take s.count = n.entries := by
      rw [List.drop_zero, ← length_restored, List.take_length, hrest]
    have hin : ∀ e ∈ (s.restored.drop 0).take s.count, InFences s.lowerFence s.upperFence e.1 := by
      intro e he
      rw [hall] at he
      rw [hr.lower, hr.upper]
      exact h.entries_inFences he
    have hsort : Ascending (keys ((s.restored.drop 0).take s.count)) := by
      rw [hall]
      exact h.ascending_entries
    have hfit : BTreeNode.pageBytes s.lowerFence s.upperFence ((s.restored.drop 0).take s.count) ≤ pageSize := by
      have hbytes : BTreeNode.truncate s.lowerFence s.upperFence s.restored = s.content := by
        rw [restored, BTreeNode.truncate, List.map_map]
        conv_rhs => rw [← List.map_id s.content]
        refine List.map_congr_left fun e _ => Prod.ext ?_ rfl
        rw [← hr.wf.prefixLen]
        exact List.drop_left' hr.wf.length_getPrefix
      have hlen : s.count = n.count := hr.slots.length_eq
      have hspace := hr.wf.space
      have hused := hr.page.2.1
      rw [hall, ← hrest, BTreeNode.pageBytes, hbytes, length_restored]
      simp only [slotsOffset, slotSize, headerSize, pageSize] at hbig ⊢
      omega
    obtain ⟨p, m, hp, hm⟩ := copyToBasic_ok hin hfit
    refine ⟨some m, by simp only [hs, hp, hm, ok_bind]; rfl, ?_⟩
    rintro _ ⟨⟩
    have hh := copyToBasic_holds hr.wf.ordered hsort hin hp hm
    rwa [hall, hr.lower, hr.upper] at hh

theorem splitToBasic_spec {n : HashNode} (h : WF n) (hc : n.sortedCount = n.count) {info : SeparatorInfo}
    {sep : Bytes} (hlaw : SeparatorLaw n.getPrefix (keys n.restored) info sep) {l r : BTreeNode Bytes}
    (hr : n.splitToBasic info.slot sep = .ok (l, r)) :
    BTreeNode.Holds l true n.lowerFence sep (n.entries.take (info.slot + 1)) ∧
      BTreeNode.Holds r true sep n.upperFence (n.entries.drop (info.slot + 1)) := by
  rw [restored_of_sorted h.toKeyed hc] at hlaw
  obtain ⟨hsep, hinl, hinr⟩ := hlaw.halves h.ascending_entries fun e he => h.entries_inFences he
  have hlt := hlaw.lt
  rw [keys, List.length_map, length_entries] at hlt
  simp only [splitToBasic, bind_eq_ok, ensure_eq_ok, exists_const, pure_eq_ok, Prod.mk.injEq] at hr
  obtain ⟨-, pl, hpl, pr, hpr, m, hm, m', hm', rfl, rfl⟩ := hr
  have hl : BTreeNode.Holds m true n.lowerFence sep (n.entries.take (info.slot + 1)) := by
    have hstretch : (n.restored.drop 0).take (info.slot + 1) = n.entries.take (info.slot + 1) := by
      rw [List.drop_zero, restored_of_sorted h.toKeyed hc]
    rw [← hstretch]
    refine copyToBasic_holds (Or.inr hsep.lower_le) ?_ (hstretch ▸ hinl) hpl hm
    rw [hstretch, keys, List.map_take]
    exact h.ascending_entries.sublist (List.take_sublist _ _)
  have hmc : m.count = info.slot + 1 := by
    rw [← BTreeNode.entries_length, hl.entries, List.length_take, length_entries]
    omega
  rw [hmc] at hm'
  have hstretch : (n.restored.drop (info.slot + 1)).take (n.count - (info.slot + 1)) =
      n.entries.drop (info.slot + 1) := by
    rw [restored_of_sorted h.toKeyed hc, ← length_entries, ← List.length_drop, List.take_length]
  refine ⟨hl, ?_⟩
  rw [← hstretch]
  refine copyToBasic_holds hsep.2 ?_ (hstretch ▸ hinr) hpr hm'
  rw [hstretch, keys, List.map_drop]
  exact h.ascending_entries.sublist (List.drop_sublist _ _)

section
omit [KeyHash]

theorem copyToBasic_contained {n : HashNode} {p : BTreeNode Bytes} {lower upper : Bytes} {i c : ℕ}
    (hp : p.prefixLength = commonPrefixLength lower upper)
    (hin : ∀ e ∈ (n.restored.drop i).take c, InFences lower upper e.1) :
    Contained (fun _ => True) (n.copyKeyValueRangeToBasic p i c) := by
  have hfold : Contained (fun m : BTreeNode Bytes => m.prefixLength = p.prefixLength)
      (((n.slots.drop i).take c).foldlM n.copyKeyValueToBasic p) := by
    apply Yields.foldlM (I := fun _ (m : BTreeNode Bytes) => m.prefixLength = p.prefixLength) rfl
    intro _ s _ hs a ha
    have he : (n.getPrefix ++ s.key, s.payload) ∈ (n.restored.drop i).take c := by
      rw [restored, content, List.map_map, ← List.map_drop, ← List.map_take]
      exact List.mem_map_of_mem (hs ▸ List.mem_append_right _ List.mem_cons_self)
    have hl := (hin _ he).isPrefix.length_le
    rw [List.length_take, Nat.min_eq_left (commonPrefixLength_le_left _ _), ← hp, ← ha] at hl
    rw [copyKeyValueToBasic, BTreeNode.storeKeyValue, ensure_of hl, ok_bind]
    apply Yields.bind (P := fun r : BTreeNode Bytes × Slot Bytes => r.1.prefixLength = p.prefixLength)
    · exact contained_check stops_pageOverflow fun _ => contained_check stops_pageOverflow fun _ => ha
    · exact fun _ hr => hr
  exact hfold.bind fun _ _ => contained_check stops_pageOverflow fun _ => trivial

theorem splitToBasic_slot {n : HashNode} {slot : ℕ} {sep : Bytes} {r : BTreeNode Bytes × BTreeNode Bytes}
    (hr : n.splitToBasic slot sep = .ok r) : 0 < slot := by
  simp only [splitToBasic, bind_eq_ok, ensure_eq_ok, exists_const] at hr
  exact hr.1

end

theorem splitToBasic_contained {n : HashNode} (h : WF n) (hc : n.sortedCount = n.count) {info : SeparatorInfo}
    {sep : Bytes} (hlaw : SeparatorLaw n.getPrefix (keys n.restored) info sep) :
    Contained (fun r => 0 < info.slot ∧
        BTreeNode.Holds r.1 true n.lowerFence sep (n.entries.take (info.slot + 1)) ∧
        BTreeNode.Holds r.2 true sep n.upperFence (n.entries.drop (info.slot + 1)))
      (n.splitToBasic info.slot sep) := by
  apply Yields.intro _ fun r hr => ⟨splitToBasic_slot hr, splitToBasic_spec h hc hlaw hr⟩
  have hrest := restored_of_sorted h.toKeyed hc
  have hlaw' := hrest ▸ hlaw
  obtain ⟨hsep, hinl, hinr⟩ := hlaw'.halves h.ascending_entries fun e he => h.entries_inFences he
  have hlt := hlaw'.lt
  rw [keys, List.length_map, length_entries] at hlt
  have hleft : (n.restored.drop 0).take (info.slot + 1) = n.entries.take (info.slot + 1) := by
    rw [List.drop_zero, hrest]
  have hright : (n.restored.drop (info.slot + 1)).take (n.count - (info.slot + 1)) =
      n.entries.drop (info.slot + 1) := by
    rw [hrest, ← length_entries, ← List.length_drop, List.take_length]
  apply contained_check stops_assertion
  intro _
  apply (BTreeNode.setFences_contained true n.lowerFence sep).bind
  rintro pl ⟨hpl, rfl⟩
  apply (BTreeNode.setFences_contained true sep n.upperFence).bind
  rintro pr ⟨-, rfl⟩
  have hcopy : Contained (fun m => m.count = info.slot + 1)
      (n.copyKeyValueRangeToBasic (BTreeNode.fenced true n.lowerFence sep) 0 (info.slot + 1)) := by
    apply Yields.intro (copyToBasic_contained rfl (hleft ▸ hinl))
    intro m hm
    have hholds := copyToBasic_holds (Or.inr hsep.lower_le) (by
      rw [hleft, keys, List.map_take]
      exact h.ascending_entries.sublist (List.take_sublist _ _)) (hleft ▸ hinl)
      (BTreeNode.setFences_init_eq_ok.mpr ⟨hpl, rfl⟩) hm
    rw [← BTreeNode.entries_length, hholds.entries, hleft, List.length_take, length_entries]
    omega
  apply hcopy.bind
  intro m hm
  rw [hm]
  apply (copyToBasic_contained rfl (hright ▸ hinr)).bind
  exact fun _ _ => trivial

end HashNode

end BtreeRedis
