import BtreeRedis.Hash.Adapt
import BtreeRedis.Hash.Merge
import BtreeRedis.Tree.Remove

/-!
# Leaves that are basic or hash

With `enableHashAdapt` a leaf changes between the two kinds as it is used: a counter, moved by
random draws, goes down with point operations and up with range operations, and a split looks
at the heads of the keys. What a leaf stores does not depend on its kind.
-/

namespace BtreeRedis

open LexOrder SortedAssoc Outcome

inductive AdaptiveLeaf
  | basic (rangeOpCounter : RangeOpCounter) (node : BTreeNode Bytes)
  | hash (node : HashNode)

namespace AdaptiveLeaf

def lowerFence : AdaptiveLeaf → Bytes
  | .basic _ n => n.getLowerFence
  | .hash n => n.lowerFence

def upperFence : AdaptiveLeaf → Bytes
  | .basic _ n => n.getUpperFence
  | .hash n => n.upperFence

def prefixLength : AdaptiveLeaf → ℕ
  | .basic _ n => n.prefixLength
  | .hash n => n.prefixLength

def entries : AdaptiveLeaf → List (Bytes × Bytes)
  | .basic _ n => n.entries
  | .hash n => n.entries

def TagOk (c : Config) : AdaptiveLeaf → Prop
  | .basic _ _ => c.enableHash = true → c.enableHashAdapt = true
  | .hash _ => c.enableHash = true

instance (c : Config) : (l : AdaptiveLeaf) → Decidable (l.TagOk c)
  | .basic _ _ => inferInstanceAs (Decidable (_ → _))
  | .hash _ => inferInstanceAs (Decidable (_ = _))

def tag (c : Config) (l : AdaptiveLeaf) : Except Fault AdaptiveLeaf := do
  ensure (l.TagOk c) .assertion
  pure l

/-- `makeLeaf` or `makeRootLeaf` -/
def makeRootLeaf (c : Config) : Except Fault AdaptiveLeaf :=
  if c.enableHash ∧ ¬ c.enableHashAdapt then do
    let n ← HashNode.init [] [] (pageSize / 64) RangeOpCounter.fresh
    pure (.hash n)
  else pure (.basic RangeOpCounter.fresh (BTreeNode.init true))

end AdaptiveLeaf

/-- `insert` of a build without dense leaves. -/
def BTreeNode.insertPlain (n : BTreeNode Bytes) (key payload : Bytes) : Except Fault (Bool × BTreeNode Bytes) := do
  let needed ← n.spaceNeeded key.length payload.length
  let (space, n) ← n.requestSpaceFor needed
  if space then do
    let n ← n.insertSlot key payload
    pure (true, n)
  else pure (false, n)

variable [KeyHash]

def BTreeNode.adaptHeads (c : Config) (n : BTreeNode Bytes) (roc : RangeOpCounter) : RangeOpCounter :=
  if c.enableHashAdapt then
    if n.hasBadHeads then roc.setBadHeads c roc.count else roc.setGoodHeads c
  else roc

/-- `splitNode` of a basic leaf; the caller puts the left half into the parent. -/
def BTreeNode.splitNode (c : Config) (n : BTreeNode Bytes) (roc : RangeOpCounter) (sepSlot : ℕ) (sepKey : Bytes) :
    Except Fault (AdaptiveLeaf × AdaptiveLeaf) := do
  ensure (0 < sepSlot) .assertion
  ensure (sepSlot < pageSize / pointerSize) .assertion
  let roc := n.adaptHeads c roc
  if c.enableHashAdapt ∧ n.hasBadHeads ∧ roc.isLowRange c then do
    let (left, right) ← n.splitToHash roc sepSlot sepKey
    pure (.hash left, .hash right)
  else do
    let (left, right) ← n.splitLeaf sepSlot sepKey
    pure (.basic roc left, .basic roc right)

/-- `splitNode` of a hash leaf; the caller puts the left half into the parent. -/
def HashNode.splitNode (c : Config) (n : HashNode) (sepSlot : ℕ) (sepKey : Bytes) :
    Except Fault (AdaptiveLeaf × AdaptiveLeaf) := do
  let goodHeads := n.hasGoodHeads
  if c.enableHashAdapt ∧ (goodHeads ∨ ¬ n.rangeOpCounter.isLowRange c) then do
    let roc := if goodHeads then n.rangeOpCounter.setGoodHeads c else n.rangeOpCounter
    let (left, right) ← n.splitToBasic sepSlot sepKey
    pure (.basic roc left, .basic roc right)
  else do
    let (left, right) ← n.splitHash sepSlot sepKey
    pure (.hash left, .hash right)

section
omit [KeyHash]

theorem BTreeNode.FoundSeparator.law {n : BTreeNode Bytes} {info : SeparatorInfo} {t : Bytes}
    (h : FoundSeparator n info t) :
    SeparatorLaw n.getPrefix (keys n.entries) info (n.getPrefix ++ t) := by
  have hlaw : SeparatorLaw [] (keys n.content) info t :=
    ⟨h.separates.lt, h.separates.le_sep, h.separates.sep_lt, List.nil_prefix, h.isPrefix⟩
  rw [Ordered.keys_entries]
  exact hlaw.append

end

theorem HashNode.findSeparator_contained {n : HashNode} (h : WF n) (hc : n.sortedCount = n.count) :
    Contained (fun info => ∃ sep, n.getSep info = .ok sep ∧ SeparatorLaw n.getPrefix (keys n.restored) info sep)
      n.findSeparator := by
  by_cases hcount : 1 < n.count
  · obtain ⟨info, sep, hinfo, hsep, hlaw⟩ := findSeparator_spec hcount (ascending_content h.toKeyed hc)
    apply Yields.of_ok hinfo
    refine ⟨n.getPrefix ++ sep, hsep, ?_⟩
    rw [keys_restored]
    exact hlaw.append
  · rw [findSeparator, ensure, if_neg hcount]
    exact stops_assertion

namespace AdaptiveLeaf

/-- A point operation on a basic leaf counts itself and may make it a hash leaf first. -/
def countPoint (c : Config) : AdaptiveLeaf → Draws → Except Fault (AdaptiveLeaf × Draws)
  | .basic roc n, draws => do
    let (convert, roc, draws) := roc.pointOp c draws
    if convert then
      match ← n.tryConvertToHash roc with
      | some m => pure (.hash m, draws)
      | none => pure (.basic roc n, draws)
    else pure (.basic roc n, draws)
  | .hash n, draws => pure (.hash n, draws)

def lookup (c : Config) (l : AdaptiveLeaf) (key : Bytes) (draws : Draws) :
    Except Fault (Option Bytes × AdaptiveLeaf × Draws) := do
  let (l, draws) ← l.countPoint c draws
  match l with
  | .basic roc n => do
    let payload ← n.lookup key
    pure (payload, .basic roc n, draws)
  | .hash n => do
    let (payload, n, draws) ← n.lookup c key draws
    pure (payload, .hash n, draws)

def insert (c : Config) (l : AdaptiveLeaf) (key payload : Bytes) (draws : Draws) :
    Except Fault (Bool × AdaptiveLeaf × Draws) := do
  let (l, draws) ← l.countPoint c draws
  match l with
  | .basic roc n => do
    let (inserted, n) ← n.insertPlain key payload
    pure (inserted, .basic roc n, draws)
  | .hash n => do
    let (inserted, n, draws) ← n.insert c key payload draws
    pure (inserted, .hash n, draws)

def remove : AdaptiveLeaf → Bytes → Except Fault (Bool × AdaptiveLeaf)
  | .basic roc n, key => do
    let (found, n) ← n.remove key
    pure (found, .basic roc n)
  | .hash n, key => do
    let (found, n) ← n.remove key
    pure (found, .hash n)

def sort : AdaptiveLeaf → Except Fault AdaptiveLeaf
  | .basic roc n => pure (.basic roc n)
  | .hash n => do
    let n ← n.sort
    pure (.hash n)

def separatorLength : AdaptiveLeaf → Except Fault ℕ
  | .basic _ n => do
    let info ← n.findSeparator
    pure info.length
  | .hash n => do
    let info ← n.findSeparator
    pure info.length

def split (c : Config) : AdaptiveLeaf → Except Fault (Bytes × AdaptiveLeaf × AdaptiveLeaf)
  | .basic roc n => do
    let info ← n.findSeparator
    let sepKey ← n.getSep info
    let (left, right) ← n.splitNode c roc info.slot sepKey
    pure (sepKey, left, right)
  | .hash n => do
    let info ← n.findSeparator
    let sepKey ← n.getSep info
    let (left, right) ← n.splitNode c info.slot sepKey
    pure (sepKey, left, right)

def WF : AdaptiveLeaf → Prop
  | .basic _ n => n.WF ∧ n.isLeaf = true
  | .hash n => n.WF

structure Inv (c : Config) (l : AdaptiveLeaf) (lower upper : Bytes) : Prop where
  wf : l.WF
  tagOk : l.TagOk c
  lowerFence : l.lowerFence = lower
  upperFence : l.upperFence = upper
  lower_len : lower.length ≤ maxKVSize
  upper_len : upper.length ≤ maxKVSize
  entry_len : ∀ e ∈ l.entries, e.1.length + e.2.length ≤ maxKVSize

structure Kept (c : Config) (l l' : AdaptiveLeaf) (lower upper : Bytes) : Prop where
  inv : Inv c l' lower upper
  entries : l'.entries = l.entries

namespace Inv
variable {c : Config} {l : AdaptiveLeaf} {lower upper : Bytes}

theorem sorted_entries (h : Inv c l lower upper) : Ascending (keys l.entries) := by
  cases l with
  | basic roc n => exact h.wf.1.sorted_entries
  | hash n => exact HashNode.Keyed.ascending_entries (HashNode.WF.toKeyed h.wf)

theorem inFences (h : Inv c l lower upper) {e : Bytes × Bytes} (he : e ∈ l.entries) : InFences lower upper e.1 := by
  rw [← h.lowerFence, ← h.upperFence]
  cases l with
  | basic roc n => exact h.wf.1.entries_inFences he
  | hash n => exact HashNode.Keyed.entries_inFences (HashNode.WF.toKeyed h.wf) he

theorem fences (h : Inv c l lower upper) : FencesOrdered lower upper := by
  rw [← h.lowerFence, ← h.upperFence]
  cases l with
  | basic roc n => exact h.wf.1.fences
  | hash n => exact HashNode.Keyed.ordered (HashNode.WF.toKeyed h.wf)

theorem kept (h : Inv c l lower upper) : Kept c l l lower upper := ⟨h, rfl⟩

theorem resorted {n m : HashNode} (h : Inv c (.hash n) lower upper) (hr : HashNode.Resorted n m) :
    Kept c (.hash n) (.hash m) lower upper where
  inv := ⟨hr.wf, h.tagOk, hr.lower.trans h.lowerFence, hr.upper.trans h.upperFence, h.lower_len, h.upper_len,
    fun e he => h.entry_len e (show e ∈ n.entries from hr.entries ▸ he)⟩
  entries := hr.entries

theorem leaf {roc : RangeOpCounter} {n : BTreeNode Bytes} (h : Inv c (.basic roc n) lower upper) :
    LeafNode.Inv false (.basic n) lower upper :=
  ⟨h.wf, h.lowerFence, h.upperFence, h.lower_len, h.upper_len, h.entry_len⟩

theorem of_leaf {n : BTreeNode Bytes} (h : LeafNode.Inv false (.basic n) lower upper)
    (hc : c.enableHash = true → c.enableHashAdapt = true) (roc : RangeOpCounter) :
    Inv c (.basic roc n) lower upper :=
  ⟨h.kind, hc, h.lowerFence, h.upperFence, h.lower_len, h.upper_len, h.entry_len⟩

theorem of_holds {n : HashNode} {es : List (Bytes × Bytes)} (h : HashNode.Holds n lower upper es)
    (hc : c.enableHash = true) (hl : lower.length ≤ maxKVSize) (hu : upper.length ≤ maxKVSize)
    (he : ∀ e ∈ es, e.1.length + e.2.length ≤ maxKVSize) : Inv c (.hash n) lower upper :=
  ⟨h.wf, hc, h.lower, h.upper, hl, hu, fun e hm => he e (by rwa [← mem_sortByKey, ← h.entries])⟩

end Inv

variable {c : Config} {l : AdaptiveLeaf} {lower upper : Bytes}

theorem rootLeaf_holds (roc : RangeOpCounter) :
    HashNode.Holds (HashNode.blank [] [] (pageSize / 64) roc) [] [] [] := by
  have hroom : (HashNode.blank [] [] (pageSize / 64) roc).slotsEnd ≤
      (HashNode.blank [] [] (pageSize / 64) roc).dataOffset := by
    simp [HashNode.blank, HashNode.slotsEnd, HashNode.count]
  have hnodup : (keys ([] : List (Bytes × Bytes))).Nodup := List.nodup_nil
  exact HashNode.grown_blank HashNode.Grown.refl hroom (Or.inl rfl) (by decide) hnodup
    (fun _ he => absurd he List.not_mem_nil) le_rfl List.Pairwise.nil

theorem makeRootLeaf_spec (c : Config) : ∃ l, makeRootLeaf c = .ok l ∧ Inv c l [] [] ∧ l.entries = [] := by
  unfold makeRootLeaf
  split_ifs with hc
  · have hholds := rootLeaf_holds RangeOpCounter.fresh
    refine ⟨_, rfl, Inv.of_holds hholds hc.1 (Nat.zero_le _) (Nat.zero_le _) fun _ he => ?_, hholds.entries⟩
    exact absurd he List.not_mem_nil
  · have hempty : LeafNode.Inv false (.basic (BTreeNode.init true)) [] [] := BTree.empty_inv
    refine ⟨_, rfl, Inv.of_leaf hempty ?_ _, rfl⟩
    exact fun hh => not_not.mp fun ha => hc ⟨hh, ha⟩

theorem countPoint_contained (h : Inv c l lower upper) (draws : Draws) :
    Contained (fun r => Kept c l r.1 lower upper) (l.countPoint c draws) := by
  cases l with
  | hash n => exact h.kept
  | basic roc n =>
    have hleaf := h.leaf
    have hlow : n.getLowerFence = lower := h.lowerFence
    have hupp : n.getUpperFence = upper := h.upperFence
    have hcounted : ∀ roc', Kept c (.basic roc n) (.basic roc' n) lower upper :=
      fun roc' => ⟨Inv.of_leaf hleaf h.tagOk roc', rfl⟩
    rw [countPoint]
    dsimp only
    split_ifs with hconvert
    · have hconv := BTreeNode.tryConvertToHash_contained hleaf.kind.1 (roc.pointOp c draws).2.1
        (hlow ▸ h.lower_len) (hupp ▸ h.upper_len)
      apply hconv.bind
      intro res hres
      cases res with
      | none => exact hcounted _
      | some m =>
        have hholds := hres m rfl
        rw [hlow, hupp] at hholds
        have hadapt := c.hash_of_adapt (RangeOpCounter.pointOp_config hconvert)
        refine ⟨Inv.of_holds hholds hadapt h.lower_len h.upper_len h.entry_len, ?_⟩
        exact hholds.entries.trans (sortByKey_eq_self hleaf.sorted_entries)
    · exact hcounted _

theorem lookup_contained (h : Inv c l lower upper) {key : Bytes} (hk : InFences lower upper key) (draws : Draws) :
    Contained (fun r => r.1 = l.entries.lookup key ∧ Kept c l r.2.1 lower upper) (l.lookup c key draws) := by
  apply (countPoint_contained h draws).bind
  rintro ⟨m, draws'⟩ hkept
  have hinv := hkept.inv
  have hkm : InFences m.lowerFence m.upperFence key := by rwa [hinv.lowerFence, hinv.upperFence]
  cases m with
  | basic roc n =>
    have hlookup : n.lookup key = .ok (l.entries.lookup key) := by
      rw [BTreeNode.lookup_spec hinv.wf.1 hkm]
      exact congrArg (fun es => Except.ok (List.lookup key es)) hkept.entries
    simp only [hlookup, ok_bind]
    exact ⟨rfl, hkept⟩
  | hash n =>
    have hwf : n.WF := hinv.wf
    simp only [HashNode.lookup_spec hwf c draws' hkm, ok_bind]
    refine ⟨congrArg (List.lookup key) hkept.entries, ⟨hwf.counter _, hinv.tagOk, hinv.lowerFence, hinv.upperFence,
      hinv.lower_len, hinv.upper_len, hinv.entry_len⟩, hkept.entries⟩

structure Inserting (c : Config) (l l' : AdaptiveLeaf) (lower upper key payload : Bytes) (inserted : Bool) :
    Prop where
  inv : Inv c l' lower upper
  done : inserted = true → Stored key payload l.entries l'.entries
  refused : inserted = false → l'.entries = l.entries

section
omit [KeyHash]

theorem insertPlain_eq (n : BTreeNode Bytes) (key payload : Bytes) :
    n.insert false key payload = (n.insertPlain key payload).map fun r => (r.1, .basic r.2) := by
  unfold BTreeNode.insert BTreeNode.insertPlain
  cases n.spaceNeeded key.length payload.length with
  | error e => rfl
  | ok needed =>
    simp only [ok_bind]
    cases n.requestSpaceFor needed with
    | error e => rfl
    | ok r =>
      simp only [ok_bind]
      split_ifs
      · cases r.2.insertSlot key payload <;> rfl
      · rfl

end

theorem insertPlain_contained {roc : RangeOpCounter} {n : BTreeNode Bytes} (h : Inv c (.basic roc n) lower upper)
    {key payload : Bytes} (hk : InFences lower upper key) (hlen : key.length + payload.length ≤ maxKVSize) :
    Contained (fun r => Inserting c (.basic roc n) (.basic roc r.2) lower upper key payload r.1)
      (n.insertPlain key payload) := by
  have hw := h.wf.1
  have hkn : InFences n.getLowerFence n.getUpperFence key := by
    rwa [show n.getLowerFence = lower from h.lowerFence, show n.getUpperFence = upper from h.upperFence]
  rcases Nat.lt_or_ge n.freeSpaceAfterCompaction (slotSize + (key.length - n.prefixLength) + payload.length)
    with hroom | hroom
  · rw [BTreeNode.insertPlain, BTreeNode.spaceNeeded, ensure_of (hw.prefixLength_le_key hkn), ok_bind, pure_bind,
      BTreeNode.requestSpaceFor_full hw hroom, ok_bind]
    exact ⟨h, fun hc => absurd hc Bool.false_ne_true, fun _ => rfl⟩
  · by_cases hmem : key ∈ keys n.entries
    · obtain ⟨m, hm, hmw, hs, -⟩ := BTreeNode.requestSpaceFor_spec hw
        (slotSize + (key.length - n.prefixLength) + payload.length)
      have hkm : InFences m.getLowerFence m.getUpperFence key := by rwa [hs.lower, hs.upper]
      rw [decide_eq_true hroom] at hm
      rw [BTreeNode.insertPlain, BTreeNode.spaceNeeded, ensure_of (hw.prefixLength_le_key hkn), ok_bind, pure_bind,
        hm, ok_bind]
      dsimp only
      rw [if_pos rfl, BTreeNode.insertSlot, BTreeNode.lowerBound_spec hmw hkm, ok_bind, hs.entries,
        decide_eq_true hmem]
      exact stops_abort
    · obtain ⟨m, hm, hins⟩ := LeafNode.basic_insert_room h.leaf hk hmem hlen hroom
      rw [insertPlain_eq] at hm
      cases hr : n.insertPlain key payload with
      | error e =>
        rw [hr] at hm
        cases hm
      | ok r =>
        rw [hr] at hm
        obtain ⟨inserted, m'⟩ := r
        cases hm
        exact ⟨Inv.of_leaf hins.inv h.tagOk roc, fun hc => (hins.done hc).stored hmem, fun hc => hins.refused hc⟩

theorem insert_contained (h : Inv c l lower upper) {key payload : Bytes} (hk : InFences lower upper key)
    (hlen : key.length + payload.length ≤ maxKVSize) (draws : Draws) :
    Contained (fun r => Inserting c l r.2.1 lower upper key payload r.1) (l.insert c key payload draws) := by
  apply (countPoint_contained h draws).bind
  rintro ⟨m, draws'⟩ hkept
  have hinv := hkept.inv
  cases m with
  | basic roc n =>
    have hent : n.entries = l.entries := hkept.entries
    apply (insertPlain_contained hinv hk hlen).bind
    intro r hins
    exact ⟨hins.inv, fun hc => hent ▸ hins.done hc, fun hc => (hins.refused hc).trans hent⟩
  | hash n =>
    have hwf : n.WF := hinv.wf
    have hent : n.entries = l.entries := hkept.entries
    have hkn : InFences n.lowerFence n.upperFence key := by
      rwa [show n.lowerFence = lower from hinv.lowerFence, show n.upperFence = upper from hinv.upperFence]
    dsimp only
    apply (HashNode.insert_contained hwf c draws' hkn).bind
    rintro ⟨inserted, n', draws''⟩ hins
    have hstored : inserted = true → Stored key payload l.entries n'.entries := fun hc e => by
      rw [← hent, HashNode.mem_entries, HashNode.mem_entries]
      exact hins.done hc e
    have hrefused : inserted = false → n'.entries = l.entries := fun hc => by
      rw [HashNode.entries, hins.refused hc, ← hent]
      rfl
    refine ⟨⟨hins.wf, hinv.tagOk, hins.lower.trans hinv.lowerFence, hins.upper.trans hinv.upperFence, hinv.lower_len,
      hinv.upper_len, fun e he => ?_⟩, hstored, hrefused⟩
    change e ∈ n'.entries at he
    cases inserted with
    | true =>
      rcases (hstored rfl e).mp he with rfl | he
      · exact hlen
      · exact h.entry_len e he.1
    | false => exact h.entry_len e (hrefused rfl ▸ he)

theorem remove_removing (h : Inv c l lower upper) {key : Bytes} (hk : InFences lower upper key) :
    ∃ found l', l.remove key = .ok (found, l') ∧ Removing (Inv c l' lower upper) key l.entries l'.entries found := by
  cases l with
  | basic roc n =>
    obtain ⟨found, l', hr, hrem⟩ := LeafNode.remove_removing h.leaf hk
    simp only [LeafNode.remove, bind_eq_ok, pure_eq_ok, Prod.exists, Prod.mk.injEq] at hr
    obtain ⟨found', n', hr, rfl, rfl⟩ := hr
    refine ⟨found', .basic roc n', by simp only [remove, hr, ok_bind]; rfl, ?_⟩
    exact ⟨Inv.of_leaf hrem.inv h.tagOk roc, hrem.found_iff, hrem.done, hrem.absent⟩
  | hash n =>
    have hkn : InFences n.lowerFence n.upperFence key := by
      rw [show n.lowerFence = lower from h.lowerFence, show n.upperFence = upper from h.upperFence]
      exact hk
    rcases HashNode.remove_spec h.wf hkn with ⟨hnew, hr⟩ | ⟨i, hr, hwf, hrem⟩
    · refine ⟨false, .hash n, by simp only [remove, hr, ok_bind]; rfl, h, ?_, ?_, fun _ => rfl⟩
      · exact iff_of_false Bool.false_ne_true hnew
      · exact fun hc => absurd hc Bool.false_ne_true
    · refine ⟨true, .hash (n.removeSlot i), by simp only [remove, hr, ok_bind]; rfl, ?_, ?_, fun _ => hrem, ?_⟩
      · exact ⟨hwf, h.tagOk, h.lowerFence, h.upperFence, h.lower_len, h.upper_len,
          fun e he => h.entry_len e (hrem.mem_of_mem he)⟩
      · exact iff_of_true rfl hrem.key_mem
      · exact fun hc => absurd hc.symm Bool.false_ne_true

def Sorted : AdaptiveLeaf → Prop
  | .basic _ _ => True
  | .hash n => n.sortedCount = n.count

theorem sort_spec (h : Inv c l lower upper) : ∃ l', l.sort = .ok l' ∧ Kept c l l' lower upper ∧ l'.Sorted := by
  cases l with
  | basic roc n => exact ⟨_, rfl, h.kept, trivial⟩
  | hash n =>
    obtain ⟨m, hm, hr⟩ := HashNode.sort_spec h.wf
    exact ⟨.hash m, by simp only [sort, hm, ok_bind]; rfl, h.resorted hr, hr.sortedCount⟩

structure Parted (c : Config) (l : AdaptiveLeaf) (lower upper sep : Bytes) (slot : ℕ)
    (r : AdaptiveLeaf × AdaptiveLeaf) : Prop where
  left : Inv c r.1 lower sep
  left_entries : r.1.entries = l.entries.take (slot + 1)
  right : Inv c r.2 sep upper
  right_entries : r.2.entries = l.entries.drop (slot + 1)

theorem length_sep_le (h : Inv c l lower upper) {pre sep : Bytes} {info : SeparatorInfo}
    (hlaw : SeparatorLaw pre (keys l.entries) info sep) : sep.length ≤ maxKVSize := by
  obtain ⟨k, hk, hpre⟩ := hlaw.copied
  obtain ⟨e, he, rfl⟩ := List.mem_map.mp (List.mem_of_getElem? hk)
  have hlen := h.entry_len e he
  exact hpre.length_le.trans ((Nat.le_add_right _ _).trans hlen)

theorem Parted.halves {r : AdaptiveLeaf × AdaptiveLeaf} (h : Inv c l lower upper) {pre sep : Bytes}
    {info : SeparatorInfo} (hlaw : SeparatorLaw pre (keys l.entries) info sep) (hne : sep ≠ [])
    (hr : Parted c l lower upper sep info.slot r) :
    Halves (Inv c) entries l.entries lower upper sep r.1 r.2 where
  between := (hlaw.halves h.sorted_entries fun _ he => h.inFences he).1
  nonempty := hne
  sep_len := length_sep_le h hlaw
  left_inv := hr.left
  right_inv := hr.right
  entries := by rw [hr.left_entries, hr.right_entries, List.take_append_drop]

theorem Parted.basic (h : Inv c l lower upper) {sep : Bytes} (hsep : sep.length ≤ maxKVSize)
    (hc : c.enableHash = true → c.enableHashAdapt = true) {slot : ℕ} {a b : BTreeNode Bytes}
    (ha : BTreeNode.Holds a true lower sep (l.entries.take (slot + 1)))
    (hb : BTreeNode.Holds b true sep upper (l.entries.drop (slot + 1))) (roc : RangeOpCounter) :
    Parted c l lower upper sep slot (.basic roc a, .basic roc b) where
  left := Inv.of_leaf (LeafNode.Inv.of_holds ha h.lower_len hsep fun e he =>
    h.entry_len e (List.mem_of_mem_take he)) hc roc
  left_entries := ha.entries
  right := Inv.of_leaf (LeafNode.Inv.of_holds hb hsep h.upper_len fun e he =>
    h.entry_len e (List.mem_of_mem_drop he)) hc roc
  right_entries := hb.entries

theorem Parted.hash (h : Inv c l lower upper) {sep : Bytes} (hsep : sep.length ≤ maxKVSize)
    (hc : c.enableHash = true) {slot : ℕ} {a b : HashNode}
    (ha : HashNode.Holds a lower sep (l.entries.take (slot + 1)))
    (hb : HashNode.Holds b sep upper (l.entries.drop (slot + 1))) :
    Parted c l lower upper sep slot (.hash a, .hash b) where
  left := Inv.of_holds ha hc h.lower_len hsep fun e he => h.entry_len e (List.mem_of_mem_take he)
  left_entries := by
    have hs : Ascending (keys (l.entries.take (slot + 1))) := by
      rw [keys, List.map_take]
      exact h.sorted_entries.sublist (List.take_sublist _ _)
    exact ha.entries.trans (sortByKey_eq_self hs)
  right := Inv.of_holds hb hc hsep h.upper_len fun e he => h.entry_len e (List.mem_of_mem_drop he)
  right_entries := by
    have hs : Ascending (keys (l.entries.drop (slot + 1))) := by
      rw [keys, List.map_drop]
      exact h.sorted_entries.sublist (List.drop_sublist _ _)
    exact hb.entries.trans (sortByKey_eq_self hs)

theorem basic_splitNode_contained {roc : RangeOpCounter} {n : BTreeNode Bytes} (h : Inv c (.basic roc n) lower upper)
    {info : SeparatorInfo} {t : Bytes} (hf : BTreeNode.FoundSeparator n info t) :
    Contained (Parted c (.basic roc n) lower upper (n.getPrefix ++ t) info.slot)
      (n.splitNode c roc info.slot (n.getPrefix ++ t)) := by
  have hw := h.wf.1
  have hlow : n.getLowerFence = lower := h.lowerFence
  have hupp : n.getUpperFence = upper := h.upperFence
  have hlaw := hf.law
  have hsep := length_sep_le h hlaw
  obtain ⟨hseps, hin, -⟩ := hf.full hw.toOrdered
  rw [BTreeNode.splitNode]
  apply contained_check stops_assertion
  intro _
  apply contained_check stops_assertion
  intro _
  dsimp only
  split_ifs with hbad
  · have hsplit := BTreeNode.splitToHash_contained hw (n.adaptHeads c roc) hlaw (hlow ▸ h.lower_len) hsep
      (hupp ▸ h.upper_len)
    rw [hlow, hupp] at hsplit
    apply hsplit.bind
    rintro ⟨a, b⟩ ⟨ha, hb⟩
    exact Parted.hash h hsep (c.hash_of_adapt hbad.1) ha hb
  · have hsplit := BTreeNode.splitLeaf_contained hw hseps hin
    rw [hlow, hupp, h.wf.2] at hsplit
    apply hsplit.bind
    rintro ⟨a, b⟩ ⟨ha, hb⟩
    exact Parted.basic h hsep h.tagOk ha hb _

theorem hash_splitNode_contained {n : HashNode} (h : Inv c (.hash n) lower upper) (hc : n.sortedCount = n.count)
    {info : SeparatorInfo} {sep : Bytes} (hlaw : SeparatorLaw n.getPrefix (keys n.restored) info sep) :
    Contained (fun r => 0 < info.slot ∧ Parted c (.hash n) lower upper sep info.slot r)
      (n.splitNode c info.slot sep) := by
  have hw : n.WF := h.wf
  have hlow : n.lowerFence = lower := h.lowerFence
  have hupp : n.upperFence = upper := h.upperFence
  have hent := HashNode.restored_of_sorted hw.toKeyed hc
  have hsep := length_sep_le h (hent ▸ hlaw)
  by_cases hadapt : c.enableHashAdapt ∧ (n.hasGoodHeads ∨ ¬ n.rangeOpCounter.isLowRange c)
  · simp only [HashNode.splitNode, if_pos hadapt]
    have hsplit := HashNode.splitToBasic_contained hw hc hlaw
    rw [hlow, hupp] at hsplit
    apply hsplit.bind
    rintro ⟨a, b⟩ ⟨hz, ha, hb⟩
    exact ⟨hz, Parted.basic h hsep (fun _ => hadapt.1) ha hb _⟩
  · simp only [HashNode.splitNode, if_neg hadapt]
    have hsplit := HashNode.splitHash_contained hw hc hlaw (hlow ▸ h.lower_len) hsep (hupp ▸ h.upper_len)
    rw [hlow, hupp] at hsplit
    apply hsplit.bind
    rintro ⟨a, b⟩ ⟨hz, ha, hb⟩
    exact ⟨hz, Parted.hash h hsep h.tagOk ha hb⟩

theorem separatorLength_contained (h : Inv c l lower upper) (hs : l.Sorted) :
    Contained (fun _ => True) l.separatorLength := by
  cases l with
  | basic roc n =>
    rw [separatorLength, BTreeNode.findSeparator, if_pos h.wf.2]
    exact (BTreeNode.findSeparatorLeaf_contained h.wf.1.toOrdered).bind fun _ _ => trivial
  | hash n => exact (HashNode.findSeparator_contained h.wf hs).bind fun _ _ => trivial

theorem split_contained (h : Inv c l lower upper) (hs : l.Sorted) :
    Contained (fun r => Halves (Inv c) entries l.entries lower upper r.1 r.2.1 r.2.2) (l.split c) := by
  cases l with
  | basic roc n =>
    rw [split, BTreeNode.findSeparator, if_pos h.wf.2]
    apply (BTreeNode.findSeparatorLeaf_contained h.wf.1.toOrdered).bind
    rintro info ⟨t, hf⟩
    obtain ⟨-, -, hne, -⟩ := hf.full h.wf.1.toOrdered
    rw [hf.getSep, ok_bind]
    apply (basic_splitNode_contained h hf).bind
    exact fun r hr => hr.halves h (hf.law) hne
  | hash n =>
    have hw : n.WF := h.wf
    have hent := HashNode.restored_of_sorted hw.toKeyed hs
    apply (HashNode.findSeparator_contained hw hs).bind
    rintro info ⟨sep, hsep, hlaw⟩
    rw [hsep, ok_bind]
    apply (hash_splitNode_contained h hs hlaw).bind
    rintro r ⟨hz, hr⟩
    apply hr.halves h (hent ▸ hlaw)
    apply ne_nil_of_lt
    exact (hw.ascending_entries.getElem_lt hz (hent ▸ hlaw).lt).trans_le (hent ▸ hlaw).le_sep

end AdaptiveLeaf

end BtreeRedis
