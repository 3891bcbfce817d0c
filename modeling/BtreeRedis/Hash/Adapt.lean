import BtreeRedis.Hash.Update
import BtreeRedis.Hash.Convert

/-!
# Into hash leaves

A hash leaf whose heads are bad is split into two hash leaves. A basic leaf becomes a hash
leaf in place when point operations prevail, or is split into two of them. All these pages
are filled in order, so that their slots count as sorted.
-/

namespace BtreeRedis

open LexOrder SortedAssoc Outcome

/-- How many neighbours are related. The loops of the source stop once the threshold is passed. -/
def countNeighbours {α : Type} (related : α → α → Bool) : List α → ℕ
  | a :: b :: l => (if related a b then 1 else 0) + countNeighbours related (b :: l)
  | _ => 0

def BTreeNode.hasBadHeads (n : BTreeNode Bytes) : Bool :=
  decide (n.count / 16 < countNeighbours (fun a b => decide (a.head = b.head)) n.slots)

def HashNode.hasGoodHeads (n : HashNode) : Bool :=
  !decide (n.count / 16 < countNeighbours
    (fun a b => decide (4 < a.key.length ∧ 4 < b.key.length ∧ a.key.take 4 = b.key.take 4)) n.slots)

variable [KeyHash]

namespace HashNode

def sealed (n : HashNode) : HashNode := { n with sortedCount := n.count }

/-- The two pages of a split, which the source writes out for both kinds of leaves. The caller puts the
left one into the parent. -/
def fillHalves (copy : HashNode → ℕ → ℕ → Except Fault HashNode) (lowerFence sepKey upperFence : Bytes)
    (count capacity : ℕ) (rangeOpCounter : RangeOpCounter) (sepSlot : ℕ) : Except Fault (HashNode × HashNode) := do
  let nodeLeft ← init lowerFence sepKey capacity rangeOpCounter
  let right ← init sepKey upperFence capacity rangeOpCounter
  let nodeLeft ← copy nodeLeft 0 (sepSlot + 1)
  let right ← copy right nodeLeft.count (count - nodeLeft.count)
  let nodeLeft := nodeLeft.sealed
  let right := right.sealed
  nodeLeft.validate
  right.validate
  pure (nodeLeft, right)

/-- `splitNode` into two hash leaves -/
def splitHash (n : HashNode) (sepSlot : ℕ) (sepKey : Bytes) : Except Fault (HashNode × HashNode) := do
  ensure (0 < sepSlot) .assertion
  let capacity ← n.estimateCapacity
  fillHalves n.copyKeyValueRange n.lowerFence sepKey n.upperFence n.count capacity n.rangeOpCounter sepSlot

end HashNode

namespace BTreeNode

def copyKeyValueToHash (n : BTreeNode Bytes) (dst : HashNode) (s : Slot Bytes) : Except Fault HashNode :=
  dst.append (n.getPrefix ++ s.key) s.payload

/-- Every caller passes 0 as the destination slot and an empty page. -/
def copyKeyValueRangeToHash (n : BTreeNode Bytes) (dst : HashNode) (srcSlot srcCount : ℕ) :
    Except Fault HashNode := do
  let dst ← ((n.slots.drop srcSlot).take srcCount).foldlM n.copyKeyValueToHash dst
  ensure (dst.slotsEnd ≤ dst.dataOffset) .pageOverflow
  pure dst

def splitToHash (n : BTreeNode Bytes) (rangeOpCounter : RangeOpCounter) (sepSlot : ℕ) (sepKey : Bytes) :
    Except Fault (HashNode × HashNode) :=
  HashNode.fillHalves n.copyKeyValueRangeToHash n.getLowerFence sepKey n.getUpperFence n.count n.count
    rangeOpCounter sepSlot

def tryConvertToHash (n : BTreeNode Bytes) (rangeOpCounter : RangeOpCounter) : Except Fault (Option HashNode) := do
  if pageSize < n.spaceUsed + n.count * (1 + hashSlotSize) + hashHeaderSize then pure none
  else do
    let capacity ← hashCapacityFor n.getLowerFence n.getUpperFence n.spaceUsed n.count
    let tmp ← HashNode.init n.getLowerFence n.getUpperFence capacity rangeOpCounter
    let tmp ← n.copyKeyValueRangeToHash tmp 0 n.count
    let tmp := tmp.sealed
    tmp.validate
    pure (some tmp)

end BTreeNode

namespace HashNode

section
omit [KeyHash]

theorem fences_of_ascend {n : HashNode} (hp : n.prefixLength = commonPrefixLength n.lowerFence n.upperFence)
    (h : n.FencesAscend) : n.upperFence = [] ∨ n.lowerFence < n.upperFence := by
  have htake := take_commonPrefix_eq n.lowerFence n.upperFence
  rw [← hp] at htake
  rcases h with ⟨hl, hu⟩ | hu | ⟨hl, hu, hlt⟩
  · have hpre : n.lowerFence <+: n.upperFence := by
      rw [← hl, List.take_length] at htake
      exact htake ▸ List.take_prefix _ _
    apply Or.inr
    apply lt_of_le_of_ne (le_of_isPrefix hpre)
    intro heq
    rw [← heq] at hu
    omega
  · exact Or.inl (List.length_eq_zero_iff.mp hu)
  · apply Or.inr
    rw [← List.take_append_drop n.prefixLength n.lowerFence, ← List.take_append_drop n.prefixLength n.upperFence,
      htake, append_lt_append_iff, ← List.getElem_cons_drop hl, ← List.getElem_cons_drop hu, cons_lt_cons]
    rw [List.getD_eq_getElem _ _ hl, List.getD_eq_getElem _ _ hu] at hlt
    exact Or.inl hlt

end

theorem sealed_holds {m : HashNode} {lower upper : Bytes} {capacity : ℕ} {roc : RangeOpCounter}
    {es : List (Bytes × Bytes)} (hg : Grown (blank lower upper capacity roc) m (BTreeNode.truncate lower upper es))
    (hroom : m.slotsEnd ≤ m.dataOffset) (hs : upper.length + lower.length + capacity ≤ pageSize)
    (hsort : Ascending (keys es)) (hin : ∀ e ∈ es, InFences lower upper e.1)
    (hv : m.sealed.validate = .ok ()) : Holds m.sealed lower upper es := by
  have hlen := hg.count
  rw [BTreeNode.truncate_length, show (blank lower upper capacity roc).count = 0 from rfl, Nat.zero_add] at hlen
  have hf : upper = [] ∨ lower < upper := by
    have hpl : m.sealed.prefixLength = commonPrefixLength m.sealed.lowerFence m.sealed.upperFence := by
      change m.prefixLength = commonPrefixLength m.lowerFence m.upperFence
      rw [hg.page.lower, hg.page.upper]
      exact hg.page.prefixLength
    simp only [validate, bind_eq_ok, ensure_eq_ok, exists_const] at hv
    have hfen := fences_of_ascend hpl hv.2.1
    change m.upperFence = [] ∨ m.lowerFence < m.upperFence at hfen
    rwa [hg.page.lower, hg.page.upper] at hfen
  exact grown_blank hg hroom hf hs hsort.nodup hin hlen.le (hsort.sublist (List.take_sublist _ _))

def CopiesTo (copy : HashNode → ℕ → ℕ → Except Fault HashNode) (es : List (Bytes × Bytes)) (capacity : ℕ)
    (roc : RangeOpCounter) : Prop :=
  ∀ lower upper i c, (∀ e ∈ (es.drop i).take c, InFences lower upper e.1) →
    ((es.drop i).take c).length ≤ capacity →
    Contained (fun m => Grown (blank lower upper capacity roc) m
        (BTreeNode.truncate lower upper ((es.drop i).take c)) ∧ m.slotsEnd ≤ m.dataOffset)
      (copy (blank lower upper capacity roc) i c)

theorem fillHalves_contained {copy : HashNode → ℕ → ℕ → Except Fault HashNode} {es : List (Bytes × Bytes)}
    {capacity : ℕ} {roc : RangeOpCounter} (hcopy : CopiesTo copy es capacity roc) {lower sep upper pre : Bytes}
    {info : SeparatorInfo} (hlaw : SeparatorLaw pre (keys es) info sep) (hs : Ascending (keys es))
    (hin : ∀ e ∈ es, InFences lower upper e.1) (hcap : es.length ≤ capacity)
    (hl : sep.length + lower.length + capacity ≤ pageSize) (hu : upper.length + sep.length + capacity ≤ pageSize) :
    Contained (fun r => Holds r.1 lower sep (es.take (info.slot + 1)) ∧
        Holds r.2 sep upper (es.drop (info.slot + 1)))
      (fillHalves copy lower sep upper es.length capacity roc info.slot) := by
  obtain ⟨-, hinl, hinr⟩ := hlaw.halves hs hin
  have hlt := hlaw.lt
  rw [keys, List.length_map] at hlt
  have hleft := hcopy lower sep 0 (info.slot + 1)
  have hright := hcopy sep upper (info.slot + 1) (es.length - (info.slot + 1))
  rw [List.drop_zero] at hleft
  rw [← List.length_drop, List.take_length] at hright
  have hsl : Ascending (keys (es.take (info.slot + 1))) := by
    rw [keys, List.map_take]
    exact hs.sublist (List.take_sublist _ _)
  have hsr : Ascending (keys (es.drop (info.slot + 1))) := by
    rw [keys, List.map_drop]
    exact hs.sublist (List.drop_sublist _ _)
  rw [fillHalves, init_eq_ok.mpr ⟨hl, rfl⟩, init_eq_ok.mpr ⟨hu, rfl⟩, ok_bind, ok_bind]
  apply (hleft hinl ((List.length_take_le _ _).trans (by omega))).bind
  rintro m ⟨hg, hroom⟩
  have hmc := hg.count
  rw [BTreeNode.truncate_length, List.length_take, show (blank lower sep capacity roc).count = 0 from rfl] at hmc
  rw [show m.count = info.slot + 1 by omega, ← List.length_drop]
  apply (hright hinr (by rw [List.length_drop]; omega)).bind
  rintro m' ⟨hg', hroom'⟩
  apply (validate_contained _).bind
  intro _ hv
  apply (validate_contained _).bind
  intro _ hv'
  exact ⟨sealed_holds hg hroom hl hsl hinl hv, sealed_holds hg' hroom' hu hsr hinr hv'⟩

theorem copyKeyValueRange_copiesTo {n : HashNode} (h : Keyed n) (capacity : ℕ) (roc : RangeOpCounter) :
    CopiesTo n.copyKeyValueRange n.restored capacity roc := by
  intro lower upper i c hin hcap
  have hcopy := copy_yields (p := blank lower upper capacity roc) h rfl rfl hin ((Nat.zero_add _).trans_le hcap)
  exact hcopy.weaken fun e he => he.1 ▸ stops_pageOverflow

theorem splitHash_contained {n : HashNode} (h : WF n) (hc : n.sortedCount = n.count) {info : SeparatorInfo}
    {sep : Bytes} (hlaw : SeparatorLaw n.getPrefix (keys n.restored) info sep)
    (hlow : n.lowerFence.length ≤ maxKVSize) (hsep : sep.length ≤ maxKVSize) (hupp : n.upperFence.length ≤ maxKVSize) :
    Contained (fun r => 0 < info.slot ∧ Holds r.1 n.lowerFence sep (n.entries.take (info.slot + 1)) ∧
        Holds r.2 sep n.upperFence (n.entries.drop (info.slot + 1)))
      (n.splitHash info.slot sep) := by
  obtain ⟨capacity, hcapacity, hcap, hpage⟩ := count_le_estimate h
  simp only [maxKVSize, slotSize, headerSize, pageSize] at hlow hsep hupp hpage
  rw [splitHash]
  apply contained_check stops_assertion
  intro hz
  have hrest := restored_of_sorted h.toKeyed hc
  rw [hcapacity, ok_bind, ← length_restored, ← hrest]
  apply (fillHalves_contained (copyKeyValueRange_copiesTo h.toKeyed _ _) hlaw _ _ _ _ _).mono fun _ hr => ⟨hz, hr⟩
  · rw [hrest]
    exact h.ascending_entries
  · exact fun e he => h.restored_inFences he
  · rwa [length_restored]
  · simp only [pageSize]
    omega
  · simp only [pageSize]
    omega

end HashNode

namespace BTreeNode

def rekeyHash (n : BTreeNode Bytes) (dst : HashNode) (s : Slot Bytes) : Bytes × Bytes :=
  ((n.getPrefix ++ s.key).drop dst.prefixLength, s.payload)

theorem copyKeyValueRangeToHash_copiesTo (n : BTreeNode Bytes) (capacity : ℕ) (roc : RangeOpCounter) :
    HashNode.CopiesTo n.copyKeyValueRangeToHash n.entries capacity roc := by
  intro lower upper i c hin hcap
  obtain ⟨p, hp⟩ : ∃ p, p = HashNode.blank lower upper capacity roc := ⟨_, rfl⟩
  have hmap : ((n.slots.drop i).take c).map (n.rekeyHash p) =
      truncate lower upper ((n.entries.drop i).take c) := by
    rw [entries, content, truncate, ← List.map_drop, ← List.map_drop, ← List.map_take, ← List.map_take, List.map_map,
      List.map_map, hp]
    rfl
  have hlen : ((n.slots.drop i).take c).length = ((n.entries.drop i).take c).length := by
    simp only [List.length_take, List.length_drop, entries_length]
  have hstep : ∀ a, ∀ s ∈ (n.slots.drop i).take c, a.prefixLength = p.prefixLength → a.hashes.length = a.count →
      a.count < a.hashCapacity → Yields (fun e => e = .pageOverflow ∧ ¬ a.RoomFor [n.rekeyHash p s])
        (fun b => HashNode.Grown a b [n.rekeyHash p s]) (n.copyKeyValueToHash a s) := by
    intro a s hs ha hah hac
    have he : (n.getPrefix ++ s.key, s.payload) ∈ (n.entries.drop i).take c := by
      rw [entries, content, List.map_map, ← List.map_drop, ← List.map_take]
      exact List.mem_map_of_mem hs
    have hpre := (hin _ he).isPrefix.length_le
    rw [List.length_take, Nat.min_eq_left (commonPrefixLength_le_left _ _)] at hpre
    have hpl : p.prefixLength = commonPrefixLength lower upper := by rw [hp]; rfl
    have happend := @HashNode.append_yields _ a (n.getPrefix ++ s.key) s.payload hah (by rwa [ha, hpl]) hac
    rwa [ha] at happend
  have hfold := HashNode.foldlM_yields hstep rfl (by rw [hp]; rfl) (by
    rw [hlen, hp]
    exact (Nat.zero_add _).trans_le hcap)
  rw [copyKeyValueRangeToHash, ← hp, ← hmap]
  apply (hfold.weaken fun e he => he.1 ▸ stops_pageOverflow).bind
  intro m hm
  apply contained_check stops_pageOverflow
  exact fun hroom => ⟨hm, hroom⟩

theorem splitToHash_contained {n : BTreeNode Bytes} (h : n.WF) (roc : RangeOpCounter) {info : SeparatorInfo}
    {sep pre : Bytes} (hlaw : SeparatorLaw pre (keys n.entries) info sep)
    (hlow : n.getLowerFence.length ≤ maxKVSize) (hsep : sep.length ≤ maxKVSize)
    (hupp : n.getUpperFence.length ≤ maxKVSize) :
    Contained (fun r => HashNode.Holds r.1 n.getLowerFence sep (n.entries.take (info.slot + 1)) ∧
        HashNode.Holds r.2 sep n.getUpperFence (n.entries.drop (info.slot + 1)))
      (n.splitToHash roc info.slot sep) := by
  have hroom := h.room
  have hfits := h.fits
  simp only [maxKVSize, slotsOffset, slotSize, headerSize, pageSize] at hlow hsep hupp hroom hfits
  rw [splitToHash, ← entries_length]
  apply HashNode.fillHalves_contained (copyKeyValueRangeToHash_copiesTo n _ _) hlaw h.sorted_entries
    (fun e he => h.entries_inFences he) le_rfl
  · rw [entries_length]
    simp only [pageSize]
    omega
  · rw [entries_length]
    simp only [pageSize]
    omega

theorem tryConvertToHash_contained {n : BTreeNode Bytes} (h : n.WF) (roc : RangeOpCounter)
    (hlow : n.getLowerFence.length ≤ maxKVSize) (hupp : n.getUpperFence.length ≤ maxKVSize) :
    Contained (fun res => ∀ m, res = some m → HashNode.Holds m n.getLowerFence n.getUpperFence n.entries)
      (n.tryConvertToHash roc) := by
  simp only [maxKVSize, slotSize, headerSize, pageSize] at hlow hupp
  unfold tryConvertToHash
  split_ifs with hbig
  · simp
  · have hall : (n.entries.drop 0).take n.count = n.entries := by
      rw [List.drop_zero, ← entries_length, List.take_length]
    have hcopy := copyKeyValueRangeToHash_copiesTo n
    apply Yields.bind (P := fun capacity => n.count ≤ capacity ∧
      n.getUpperFence.length + n.getLowerFence.length + capacity ≤ pageSize)
    · rw [hashCapacityFor]
      apply contained_check stops_assertion
      intro hle
      refine ⟨hle, ?_⟩
      simp only [pageSize, hashHeaderSize]
      split_ifs
      · omega
      · have hle : (4096 - 20 - n.getUpperFence.length - n.getLowerFence.length) * n.count /
            (n.spaceUsed - n.getUpperFence.length - n.getLowerFence.length + n.count * hashSlotSize + n.count) ≤
            4096 - 20 - n.getUpperFence.length - n.getLowerFence.length := by
          apply Nat.div_le_of_le_mul
          rw [Nat.mul_comm]
          exact Nat.mul_le_mul_right _ (Nat.le_add_left _ _)
        omega
    · rintro capacity ⟨hcap, hpage⟩
      have hfill := hcopy capacity roc n.getLowerFence n.getUpperFence 0 n.count
      rw [hall] at hfill
      rw [HashNode.init_eq_ok.mpr ⟨hpage, rfl⟩, ok_bind]
      apply (hfill (fun e he => h.entries_inFences he) (by rwa [entries_length])).bind
      rintro m ⟨hg, hroom⟩
      apply (HashNode.validate_contained _).bind
      rintro _ hv _ ⟨⟩
      exact HashNode.sealed_holds hg hroom hpage h.sorted_entries (fun e he => h.entries_inFences he) hv

end BTreeNode

end BtreeRedis
