import BtreeRedis.Adaptive.Tree
import BtreeRedis.Tree.Ascend

/-!
# Ascending scans of a tree with adaptive leaves

A scan counts itself in every leaf that it enters and may make a hash leaf basic first; a
hash leaf that stays one is sorted. The scan then goes on behind the upper fence of the leaf
as it is afterwards.
-/

namespace BtreeRedis

open LexOrder SortedAssoc Outcome

section
variable {σ : Type} (found : Callback σ)

def scanEntries (prefixLength : ℕ) : List (Bytes × Bytes) → Bytes → σ → Except Fault (Scanned σ)
  | [], keyOut, state => .ok ⟨true, keyOut, state⟩
  | e :: es, keyOut, state => do
    let keyOut ← blit keyOut prefixLength e.1
    match found state (keyOut.take (e.1.length + prefixLength)) e.2 with
    | (state, true) => scanEntries prefixLength es keyOut state
    | (state, false) => pure ⟨false, keyOut, state⟩

variable [KeyHash]

def HashNode.startSlot (n : HashNode) : Option Bytes → Except Fault ℕ
  | some key => (n.lowerBound key).map Prod.fst
  | none => pure 0

/-- The part of `range_lookup` of a hash leaf behind the conversion. -/
def HashNode.scanSorted (n : HashNode) (key : Option Bytes) (keyOut : Bytes) (state : σ) :
    Except Fault (Scanned σ × HashNode) := do
  let n ← n.sort
  let start ← n.startSlot key
  let scanned ← scanEntries found n.prefixLength (n.content.drop start) keyOut state
  pure (scanned, n)

/-- `range_op() && tryConvertToBasic()` -/
def HashNode.convertIf (n : HashNode) (convert : Bool) : Except Fault (Option (BTreeNode Bytes)) :=
  if convert then n.tryConvertToBasic else pure none

namespace AdaptiveLeaf

/-- `range_lookup` of a basic leaf, which counts itself and leaves it at that. -/
def rangeLookupBasic (c : Config) (roc : RangeOpCounter) (n : BTreeNode Bytes) (key : Option Bytes) (keyOut : Bytes)
    (state : σ) (draws : Draws) : Except Fault (Scanned σ × AdaptiveLeaf × Draws) := do
  let (_, roc, draws) := roc.rangeOp c draws
  let scanned ← n.rangeLookup found key keyOut state
  pure (scanned, .basic roc n, draws)

def rangeLookup (c : Config) (l : AdaptiveLeaf) (key : Option Bytes) (keyOut : Bytes) (state : σ) (draws : Draws) :
    Except Fault (Scanned σ × AdaptiveLeaf × Draws) :=
  match l with
  | .basic roc n => rangeLookupBasic found c roc n key keyOut state draws
  | .hash n => do
    let (convert, roc, draws) := n.rangeOpCounter.rangeOp c draws
    let n := { n with rangeOpCounter := roc }
    match ← n.convertIf convert with
    | some m => rangeLookupBasic found c roc m key keyOut state draws
    | none => do
      let (scanned, n) ← n.scanSorted found key keyOut state
      pure (scanned, .hash n, draws)

def visit (c : Config) (key : Option Bytes) (keyOut : Bytes) (state : σ) (draws : Draws) (l : AdaptiveLeaf) :
    Except Fault ((Scanned σ × ℕ × Bytes × Draws) × AdaptiveLeaf) := do
  let (scanned, l, draws) ← l.rangeLookup found c key keyOut state draws
  let leaf ← l.tag c
  pure ((scanned, leaf.prefixLength, leaf.upperFence, draws), leaf)

end AdaptiveLeaf

namespace AdaptiveTree

def rangeLoop (c : Config) : ℕ → Option Bytes → ℕ → Bytes → σ → Draws → AdaptiveTree →
    Except Fault (Bytes × σ × Draws × AdaptiveTree)
  | 0, _, _, _, _, _, _ => .error .outOfFuel
  | fuel + 1, leafKey, keyLen, keyOut, state, draws, t => do
    let ((scanned, prefixLength, upperFence, draws), t) ←
      t.onLeaf c (AdaptiveLeaf.visit found c leafKey keyOut state draws) (keyOut.take keyLen)
    if scanned.more then do
      let keyOut ← blit scanned.keyOut prefixLength (upperFence.drop prefixLength)
      let keyOut ← blit keyOut upperFence.length [0]
      -- An empty upper fence: there is no leaf behind this one.
      if upperFence.length + 1 = 1 then pure (keyOut, scanned.state, draws, t)
      else rangeLoop c fuel none (upperFence.length + 1) keyOut scanned.state draws t
    else pure (scanned.keyOut, scanned.state, draws, t)

def rangeLookupImpl (c : Config) (fuel : ℕ) (startKey keyOut : Bytes) (state : σ) (draws : Draws) (t : AdaptiveTree) :
    Except Fault (Bytes × σ × Draws × AdaptiveTree) := do
  let keyOut ← blit keyOut 0 startKey
  rangeLoop found c fuel (some startKey) startKey.length keyOut state draws t

end AdaptiveTree

end

section
variable {σ : Type} {found : Callback σ} {keyOut : Bytes} {state : σ} {size : ℕ} {S : Fault → Prop}

structure HandsOut (found : Callback σ) (size : ℕ) (pre : Bytes) (es : List (Bytes × Bytes)) (state : σ)
    (r : Scanned σ) : Prop where
  begins : Begins size pre r.keyOut
  state_eq : r.state = (emit found es state).1
  more_eq : r.more = (emit found es state).2

theorem blit_yields {src : Bytes} {offset : ℕ} (h : offset + src.length ≤ keyOut.length ∨ S .undefined) :
    Yields S (fun k => blit keyOut offset src = .ok k) (blit keyOut offset src) := by
  by_cases hroom : offset + src.length ≤ keyOut.length
  · have hk := blit_eq_ok.mpr ⟨hroom, rfl⟩
    exact Yields.of_ok hk hk
  · rw [blit, ensure, if_neg hroom]
    exact h.resolve_left hroom

variable (found state) in
theorem scanEntries_yields {pre : Bytes} (es : List (Bytes × Bytes)) (h : Begins size pre keyOut)
    (hfit : ∀ e ∈ es, pre.length + e.1.length ≤ size ∨ S .undefined) :
    Yields S (HandsOut found size pre (es.map fun e => (pre ++ e.1, e.2)) state)
      (scanEntries found pre.length es keyOut state) := by
  induction es generalizing keyOut state with
  | nil => exact ⟨h, rfl, rfl⟩
  | cons e es ih =>
    obtain ⟨hroom, hrest⟩ := List.forall_mem_cons.mp hfit
    rw [← h.length] at hroom
    rw [scanEntries, List.map_cons]
    apply (blit_yields hroom).bind
    intro k hk
    have hnext := h.blit le_rfl hk
    have htake : k.take (e.1.length + pre.length) = pre ++ e.1 := by
      obtain ⟨hroom', rfl⟩ := blit_eq_ok.mp hk
      rw [Nat.add_comm, take_blit hroom', h.take]
    rw [htake]
    cases hf : found state (pre ++ e.1) e.2 with
    | mk state' more =>
      cases more with
      | true =>
        refine (ih _ hnext hrest).mono fun r hout => ⟨hout.begins, ?_, ?_⟩
        · rw [hout.state_eq, emit, hf]
        · rw [hout.more_eq, emit, hf]
      | false =>
        refine ⟨hnext, ?_, ?_⟩
        · rw [emit, hf]
        · rw [emit, hf]

variable (found state) in
theorem scanEntries_handsOut {pre : Bytes} (es : List (Bytes × Bytes)) (h : Begins size pre keyOut)
    (hfit : ∀ e ∈ es, pre.length + e.1.length ≤ size) : ∃ r, scanEntries found pre.length es keyOut state = .ok r ∧
      HandsOut found size pre (es.map fun e => (pre ++ e.1, e.2)) state r := by
  have hscan := scanEntries_yields (S := fun _ => False) found state es h fun e he => Or.inl (hfit e he)
  exact hscan.exists_ok fun _ => not_false

def entriesUp (es : List (Bytes × Bytes)) : Option Bytes → List (Bytes × Bytes)
  | some key => es.filter fun e => decide (key ≤ e.1)
  | none => es

theorem entriesUp_eq_drop {es : List (Bytes × Bytes)} (hs : Ascending (keys es)) (key : Option Bytes) :
    entriesUp es key = es.drop (key.elim 0 (lowerIndex (keys es))) := by
  cases key with
  | none => rfl
  | some k => exact filter_ge_eq_drop hs k

variable (found state) in
theorem scanEntries_drop {pre : Bytes} {content es : List (Bytes × Bytes)} (hb : Begins size pre keyOut)
    (hes : es = content.map fun e => (pre ++ e.1, e.2)) (hfit : ∀ e ∈ es, e.1.length ≤ size ∨ S .undefined) (i : ℕ) :
    Yields S (HandsOut found size pre (es.drop i) state)
      (scanEntries found pre.length (content.drop i) keyOut state) := by
  have hmap : es.drop i = (content.drop i).map fun e => (pre ++ e.1, e.2) := by rw [hes, List.map_drop]
  rw [hmap]
  refine scanEntries_yields found state _ hb fun e he => ?_
  rw [← List.length_append]
  exact hfit (pre ++ e.1, e.2) (hes ▸ List.mem_map_of_mem (List.mem_of_mem_drop he))

theorem BTreeNode.scanSlots_eq (p : ℕ) (slots : List (Slot Bytes)) (keyOut : Bytes) (state : σ) :
    scanSlots found p slots keyOut state = scanEntries found p (slots.map Slot.entry) keyOut state := by
  induction slots generalizing keyOut state with
  | nil => rfl
  | cons s slots ih =>
    simp only [scanSlots, List.map_cons, scanEntries, ih]
    rfl

variable (found state) in
theorem BTreeNode.rangeLookup_yields {n : BTreeNode Bytes} (hn : n.WF) {key : Option Bytes}
    (hk : ∀ k, key = some k → InFences n.getLowerFence n.getUpperFence k) (hb : Begins size n.getPrefix keyOut)
    (hfit : ∀ e ∈ n.entries, e.1.length ≤ size ∨ S .undefined) :
    Yields S (HandsOut found size n.getPrefix (entriesUp n.entries key) state)
      (n.rangeLookup found key keyOut state) := by
  have hstart : n.startSlot key = .ok (key.elim 0 (lowerIndex (keys n.entries))) := by
    cases key with
    | none => rfl
    | some k => rw [startSlot, lowerBound_spec hn (hk k rfl)]; rfl
  have hdrop : ∀ i, (n.slots.drop i).map Slot.entry = n.content.drop i := fun i => by rw [content, List.map_drop]
  have hes : n.entries = n.content.map fun e => (n.getPrefix ++ e.1, e.2) := rfl
  have hscan := scanEntries_drop found state hb hes hfit (key.elim 0 (lowerIndex (keys n.entries)))
  rw [← entriesUp_eq_drop hn.sorted_entries] at hscan
  rw [rangeLookup_eq, hstart, ok_bind, scanSlots_eq, ← hn.length_getPrefix, hdrop]
  exact hscan

variable (found state) in
theorem BTreeNode.rangeLookup_handsOut {n : BTreeNode Bytes} (hn : n.WF) {key : Option Bytes}
    (hk : ∀ k, key = some k → InFences n.getLowerFence n.getUpperFence k) (hb : Begins size n.getPrefix keyOut)
    (hfit : ∀ e ∈ n.entries, e.1.length ≤ size) :
    ∃ r, n.rangeLookup found key keyOut state = .ok r ∧
      HandsOut found size n.getPrefix (entriesUp n.entries key) state r := by
  have hscan := rangeLookup_yields (S := fun _ => False) found state hn hk hb fun e he => Or.inl (hfit e he)
  exact hscan.exists_ok fun _ => not_false

variable [KeyHash]

variable (found state) in
theorem HashNode.scanSorted_yields {n : HashNode} (hn : n.WF) {key : Option Bytes}
    (hk : ∀ k, key = some k → InFences n.lowerFence n.upperFence k) (hb : Begins size n.getPrefix keyOut)
    (hfit : ∀ e ∈ n.entries, e.1.length ≤ size ∨ S .undefined) :
    Yields S (fun r => Resorted n r.2 ∧ HandsOut found size n.getPrefix (entriesUp n.entries key) state r.1)
      (n.scanSorted found key keyOut state) := by
  obtain ⟨m, hm, hr⟩ := sort_spec hn
  have hw := hr.wf
  have hpre : m.getPrefix = n.getPrefix := by rw [getPrefix, getPrefix, hr.lower, hr.prefixLength]
  have hstart : m.startSlot key = .ok (key.elim 0 (lowerIndex (keys m.entries))) := by
    cases key with
    | none => rfl
    | some k =>
      have hkm : InFences m.lowerFence m.upperFence k := by
        rw [hr.lower, hr.upper]
        exact hk k rfl
      rw [startSlot, lowerBound_spec hw hr.sortedCount hkm]
      rfl
  have hscan := scanEntries_drop found state (hpre ▸ hb) (restored_of_sorted hw.toKeyed hr.sortedCount).symm
    (hr.entries ▸ hfit) (key.elim 0 (lowerIndex (keys m.entries)))
  rw [← entriesUp_eq_drop hw.ascending_entries, hr.entries, hpre] at hscan
  simp only [scanSorted, hm, ok_bind, hstart]
  rw [← hw.length_getPrefix, hpre, hr.entries]
  exact hscan.bind fun r hout => ⟨hr, hout⟩

variable (found state) in
theorem HashNode.scanSorted_handsOut {n : HashNode} (hn : n.WF) {key : Option Bytes}
    (hk : ∀ k, key = some k → InFences n.lowerFence n.upperFence k) (hb : Begins size n.getPrefix keyOut)
    (hfit : ∀ e ∈ n.entries, e.1.length ≤ size) :
    ∃ r m, n.scanSorted found key keyOut state = .ok (r, m) ∧ Resorted n m ∧
      HandsOut found size n.getPrefix (entriesUp n.entries key) state r := by
  have hscan := scanSorted_yields (S := fun _ => False) found state hn hk hb fun e he => Or.inl (hfit e he)
  obtain ⟨⟨r, m⟩, hr, hres, hout⟩ := hscan.exists_ok fun _ => not_false
  exact ⟨r, m, hr, hres, hout⟩

end

variable [KeyHash] {σ : Type} {found : Callback σ} {keyOut : Bytes} {state : σ} {size : ℕ} {c : Config}
  {lower upper : Bytes} {S : Fault → Prop}

namespace AdaptiveLeaf
variable {l : AdaptiveLeaf}

theorem Inv.prefixLength_eq (h : Inv c l lower upper) : l.prefixLength = commonPrefixLength lower upper := by
  rw [← h.lowerFence, ← h.upperFence]
  cases l with
  | basic roc n => exact h.wf.1.prefixLen
  | hash n => exact HashNode.Keyed.prefixLen (HashNode.WF.toKeyed h.wf)

def commonPrefix (l : AdaptiveLeaf) : Bytes := l.lowerFence.take l.prefixLength

theorem Inv.commonPrefix_eq (h : Inv c l lower upper) :
    l.commonPrefix = lower.take (commonPrefixLength lower upper) := by
  rw [commonPrefix, h.lowerFence, h.prefixLength_eq]

theorem Inv.commonPrefix_upper (h : Inv c l lower upper) : l.commonPrefix = l.upperFence.take l.prefixLength := by
  rw [h.commonPrefix_eq, h.upperFence, h.prefixLength_eq, take_commonPrefix_eq]

theorem Inv.prefixLength_le_upper (h : Inv c l lower upper) : l.prefixLength ≤ l.upperFence.length := by
  rw [h.prefixLength_eq, h.upperFence]
  exact commonPrefixLength_le_right _ _

theorem Inv.commonPrefix_isPrefix (h : Inv c l lower upper) {key : Bytes} (hk : InFences lower upper key) :
    l.commonPrefix <+: key := by
  rw [h.commonPrefix_eq]
  exact hk.isPrefix

theorem Kept.commonPrefix_eq {l' : AdaptiveLeaf} (h : Kept c l l' lower upper) (hl : Inv c l lower upper) :
    l'.commonPrefix = l.commonPrefix := by
  rw [h.inv.commonPrefix_eq, hl.commonPrefix_eq]

def entriesFrom (l : AdaptiveLeaf) : Option Bytes → List (Bytes × Bytes)
  | some key => l.entries.filter fun e => decide (key ≤ e.1)
  | none => l.entries

theorem Kept.trans {l' l'' : AdaptiveLeaf} (h : Kept c l l' lower upper) (h' : Kept c l' l'' lower upper) :
    Kept c l l'' lower upper := ⟨h'.inv, h'.entries.trans h.entries⟩

theorem Kept.entriesFrom_eq {l' : AdaptiveLeaf} (h : Kept c l l' lower upper) (key : Option Bytes) :
    l'.entriesFrom key = l.entriesFrom key := by
  cases key with
  | none => exact h.entries
  | some k => exact congrArg (List.filter _) h.entries

section
omit [KeyHash]

theorem entriesFrom_eq (l : AdaptiveLeaf) (key : Option Bytes) : l.entriesFrom key = entriesUp l.entries key := by
  cases key <;> rfl

end

variable (found state) in
theorem rangeLookupBasic_yields {roc : RangeOpCounter} {n : BTreeNode Bytes} (h : Inv c (.basic roc n) lower upper)
    {key : Option Bytes} (hk : ∀ k, key = some k → InFences lower upper k)
    (hb : Begins size (AdaptiveLeaf.basic roc n).commonPrefix keyOut)
    (hfit : ∀ e ∈ n.entries, e.1.length ≤ size ∨ S .undefined) (draws : Draws) :
    Yields S (fun r => HandsOut found size (AdaptiveLeaf.basic roc n).commonPrefix
        ((AdaptiveLeaf.basic roc n).entriesFrom key) state r.1 ∧ Kept c (.basic roc n) r.2.1 lower upper)
      (rangeLookupBasic found c roc n key keyOut state draws) := by
  rw [← h.lowerFence, ← h.upperFence] at hk
  rw [entriesFrom_eq]
  apply (BTreeNode.rangeLookup_yields found state h.wf.1 hk hb hfit).bind
  exact fun r hout => ⟨hout, Inv.of_leaf h.leaf h.tagOk _, rfl⟩

variable (found state) in
theorem scanSorted_yields {n : HashNode} (h : Inv c (.hash n) lower upper) {key : Option Bytes}
    (hk : ∀ k, key = some k → InFences lower upper k) (hb : Begins size (AdaptiveLeaf.hash n).commonPrefix keyOut)
    (hfit : ∀ e ∈ n.entries, e.1.length ≤ size ∨ S .undefined) :
    Yields S (fun r => HandsOut found size (AdaptiveLeaf.hash n).commonPrefix
        ((AdaptiveLeaf.hash n).entriesFrom key) state r.1 ∧ Kept c (.hash n) (.hash r.2) lower upper)
      (n.scanSorted found key keyOut state) := by
  rw [← h.lowerFence, ← h.upperFence] at hk
  rw [entriesFrom_eq]
  apply (HashNode.scanSorted_yields found state h.wf hk hb hfit).mono
  exact fun r hr => ⟨hr.2, h.resorted hr.1⟩

theorem convert_kept {n : HashNode} (h : Inv c (.hash n) lower upper) (hc : c.enableHashAdapt = true)
    (roc : RangeOpCounter) : ∃ res, n.tryConvertToBasic = .ok res ∧
      ∀ m, res = some m → Kept c (.hash n) (.basic roc m) lower upper := by
  obtain ⟨res, hres, hm⟩ := HashNode.tryConvertToBasic_spec h.wf
  refine ⟨res, hres, ?_⟩
  rintro m rfl
  have hholds := hm m rfl
  rw [show n.lowerFence = lower from h.lowerFence, show n.upperFence = upper from h.upperFence] at hholds
  have hleaf : LeafNode.Inv false (.basic m) lower upper :=
    LeafNode.Inv.of_holds hholds h.lower_len h.upper_len h.entry_len
  exact ⟨Inv.of_leaf hleaf (fun _ => hc) roc, hholds.entries⟩

variable (found state) in
theorem rangeLookup_yields (h : Inv c l lower upper) {key : Option Bytes}
    (hk : ∀ k, key = some k → InFences lower upper k) (hb : Begins size l.commonPrefix keyOut)
    (hfit : ∀ e ∈ l.entries, e.1.length ≤ size ∨ S .undefined) (draws : Draws) :
    Yields S (fun r => HandsOut found size l.commonPrefix (l.entriesFrom key) state r.1 ∧ Kept c l r.2.1 lower upper)
      (l.rangeLookup found c key keyOut state draws) := by
  cases l with
  | basic roc n => exact rangeLookupBasic_yields found state h hk hb hfit draws
  | hash n =>
    obtain ⟨⟨convert, roc, draws'⟩, hroc⟩ : ∃ x, x = n.rangeOpCounter.rangeOp c draws := ⟨_, rfl⟩
    have hcounted : Kept c (.hash n) (.hash { n with rangeOpCounter := roc }) lower upper :=
      ⟨⟨HashNode.WF.counter h.wf roc, h.tagOk, h.lowerFence, h.upperFence, h.lower_len, h.upper_len, h.entry_len⟩, rfl⟩
    have hsorted := scanSorted_yields found state hcounted.inv hk
      (hcounted.commonPrefix_eq h ▸ hb) hfit
    rw [hcounted.commonPrefix_eq h, hcounted.entriesFrom_eq] at hsorted
    simp only [rangeLookup, ← hroc]
    cases convert with
    | false =>
      rw [HashNode.convertIf, if_neg Bool.false_ne_true, pure_bind]
      exact hsorted.bind fun r hr => ⟨hr.1, hcounted.trans hr.2⟩
    | true =>
      have hconvert : (n.rangeOpCounter.rangeOp c draws).1 = true := congrArg Prod.fst hroc.symm
      have hadapt := RangeOpCounter.rangeOp_config hconvert
      obtain ⟨res, hres, hm⟩ := convert_kept hcounted.inv hadapt roc
      rw [HashNode.convertIf, if_pos rfl, hres, ok_bind]
      cases res with
      | none => exact hsorted.bind fun r hr => ⟨hr.1, hcounted.trans hr.2⟩
      | some m =>
        have hbasic := hcounted.trans (hm m rfl)
        have hpre := hbasic.commonPrefix_eq h
        have hscan := rangeLookupBasic_yields found state hbasic.inv hk (hpre ▸ hb)
          (fun e he => hfit e (hbasic.entries ▸ he)) draws'
        rw [hpre, hbasic.entriesFrom_eq] at hscan
        exact hscan.mono fun r hr => ⟨hr.1, hbasic.trans hr.2⟩

structure Visited (found : Callback σ) (size : ℕ) (l : AdaptiveLeaf) (key : Option Bytes) (state : σ)
    (w : Scanned σ × ℕ × Bytes × Draws) : Prop where
  handsOut : HandsOut found size l.commonPrefix (l.entriesFrom key) state w.1
  prefixLength : w.2.1 = l.prefixLength
  upperFence : w.2.2.1 = l.upperFence

variable (found state) in
theorem visit_yields (h : Inv c l lower upper) {key : Option Bytes}
    (hk : ∀ k, key = some k → InFences lower upper k) (hb : Begins size l.commonPrefix keyOut)
    (hfit : ∀ e ∈ l.entries, e.1.length ≤ size ∨ S .undefined) (draws : Draws) :
    Yields S (fun r => Visited found size l key state r.1 ∧ Kept c l r.2 lower upper)
      (visit found c key keyOut state draws l) := by
  apply (rangeLookup_yields found state h hk hb hfit draws).bind
  rintro ⟨scanned, l', draws'⟩ ⟨hout, hkept⟩
  have htag : l'.tag c = .ok l' := hkept.inv.tag
  dsimp only
  rw [htag, ok_bind]
  refine ⟨⟨hout, ?_, ?_⟩, hkept⟩
  · exact hkept.inv.prefixLength_eq.trans h.prefixLength_eq.symm
  · exact hkept.inv.upperFence.trans h.upperFence.symm

end AdaptiveLeaf

namespace AdaptiveTree
variable {t : AdaptiveTree}

/-- A buffer of this size takes the keys of the tree and a byte behind each upper fence. -/
structure KeyOutFits (size : ℕ) (t : AdaptiveTree) : Prop where
  entries : ∀ e ∈ t.entries, e.1.length < size
  fences : ∀ s ∈ t.shapes, s.upper.length < size

theorem KeyOutFits.of_shapes {t' : AdaptiveTree} (h : t.KeyOutFits size) (ht : t.Inv c) (ht' : t'.Inv c)
    (hs : t'.shapes = t.shapes) : t'.KeyOutFits size := by
  refine ⟨?_, ?_⟩
  · rw [ht'.entries_eq, hs, ← ht.entries_eq]
    exact h.entries
  · rw [hs]
    exact h.fences

variable (found state) in
theorem visit_leaf (h : t.Inv c) {key : Bytes} {before after : List LeafShape} {s : LeafShape}
    (hloc : Located key t.shapes before s after) {leafKey : Option Bytes} (hkey : ∀ k, leafKey = some k → k = key)
    (hpre : key <+: keyOut) (hfit : ∀ e ∈ t.entries, e.1.length ≤ keyOut.length ∨ S .undefined) (draws : Draws) :
    Yields S (fun r => r.1.2.2.1 = s.upper ∧ HandsOut found keyOut.length (s.upper.take r.1.2.1)
        (leafKey.elim s.entries fun k => s.entries.filter fun e => decide (k ≤ e.1)) state r.1.1 ∧
        r.1.2.1 ≤ s.upper.length ∧ r.2.Inv c ∧ r.2.shapes = t.shapes)
      (t.onLeaf c (AdaptiveLeaf.visit found c leafKey keyOut state draws) key) := by
  obtain ⟨l, before', after', hloc', hinv, hin, hyields⟩ :=
    h.onLeaf (AdaptiveLeaf.visit found c leafKey keyOut state draws) key
  obtain ⟨-, rfl, -⟩ := hloc.unique hloc'
  have hb := Begins.of_isPrefix ((hinv.commonPrefix_isPrefix hin).trans hpre)
  have hk : ∀ k, leafKey = some k → InFences l.lowerFence l.upperFence k := fun k hk => hkey k hk ▸ hin
  have hsub : ∀ e ∈ l.entries, e.1.length ≤ keyOut.length ∨ S .undefined := by
    intro e he
    apply hfit e
    rw [h.entries_eq, hloc.eq, List.flatMap_append, List.flatMap_cons]
    exact List.mem_append_right _ (List.mem_append_left _ he)
  apply (hyields S (AdaptiveLeaf.Visited found keyOut.length l leafKey state)
    (AdaptiveLeaf.visit_yields found state hinv hk hb hsub draws)).mono
  rintro r ⟨hv, ht', hs⟩
  have hout := hv.handsOut
  rw [hinv.commonPrefix_upper, ← hv.prefixLength] at hout
  refine ⟨hv.upperFence, ?_, ?_, ht', hs⟩
  · cases leafKey <;> exact hout
  · rw [hv.prefixLength]
    exact hinv.prefixLength_le_upper

/-- From a leaf on, a scan hands out the entries of that leaf from its start key on and all entries of
the leaves behind it. The fuel counts the leaves. -/
theorem rangeLoop_yields {fuel : ℕ} {after before : List LeafShape} {s : LeafShape} (leafKey : Option Bytes)
    {keyLen : ℕ} {draws : Draws} (h : t.Inv c) (hloc : Located (keyOut.take keyLen) t.shapes before s after)
    (hkey : ∀ k, leafKey = some k → k = keyOut.take keyLen) (hfits : t.KeyOutFits keyOut.length ∨ S .undefined)
    (hfuel : after.length < fuel ∨ S .outOfFuel) :
    Yields S (fun r => r.2.1 = (emit found ((leafKey.elim s.entries fun k => s.entries.filter fun e =>
        decide (k ≤ e.1)) ++ after.flatMap LeafShape.entries) state).1 ∧ r.2.2.2.Inv c ∧ r.2.2.2.shapes = t.shapes)
      (rangeLoop found c fuel leafKey keyLen keyOut state draws t) := by
  induction fuel generalizing after before s leafKey keyLen keyOut state draws t with
  | zero => exact hfuel.resolve_left (Nat.not_lt_zero _)
  | succ fuel ih =>
    rw [rangeLoop]
    apply (visit_leaf found state h hloc hkey (List.take_prefix _ _)
      (fun e he => hfits.imp_left fun hf => (hf.entries e he).le) draws).bind
    rintro ⟨⟨scanned, p, upperFence, draws'⟩, t'⟩ ⟨rfl, hout, hp, ht', hs⟩
    dsimp only at hout hp ⊢
    rw [emit_append, ← hout.state_eq, ← hout.more_eq]
    cases hm : scanned.more with
    | false => exact ⟨hout.state_eq, ht', hs⟩
    | true =>
      simp only [↓reduceIte]
      have hlen : s.upper.length < keyOut.length ∨ S .undefined := by
        refine hfits.imp_left fun hf => hf.fences s ?_
        rw [hloc.eq]
        exact List.mem_append_right _ List.mem_cons_self
      apply (blit_yields (hlen.imp_left fun hl => ?_)).bind
      · intro k₁ hk₁
        apply (blit_yields (hlen.imp_left fun hl => ?_)).bind
        · intro k hk
          obtain ⟨hsize, hpre⟩ := hout.begins.fence_of_blit hp hk₁ hk
          cases after with
          | nil =>
            have hlast : s.upper = [] := (hloc.after_nil_iff h.row).mp rfl
            rw [if_pos (by rw [hlast]; rfl)]
            exact ⟨rfl, ht', hs⟩
          | cons s' after =>
            have hne : s.upper ≠ [] := fun hnil =>
              absurd ((hloc.after_nil_iff h.row).mpr hnil) (List.cons_ne_nil _ _)
            have htake : k.take (s.upper.length + 1) = s.upper ++ [0] := by
              have ht := List.prefix_iff_eq_take.mp hpre
              rw [List.length_append, List.length_singleton] at ht
              exact ht.symm
            have hnext : Located (k.take (s.upper.length + 1)) t'.shapes (before ++ [s]) s' after := by
              rw [htake, hs]
              exact hloc.next h.row
            have hfits' : t'.KeyOutFits k.length ∨ S .undefined := by
              rw [hsize]
              exact hfits.imp_left fun hf => hf.of_shapes h ht' hs
            rw [if_neg (by simpa using hne)]
            apply (ih none ht' hnext (fun k hk => absurd hk.symm (Option.some_ne_none k)) hfits'
              (hfuel.imp_left Nat.lt_of_succ_lt_succ)).mono
            rintro r ⟨hr, hinv, hshapes⟩
            exact ⟨hr, hinv, hshapes.trans hs⟩
        · rw [length_blit hk₁, hout.begins.length]
          exact hl
      · rw [List.length_drop, Nat.add_sub_cancel' hp, hout.begins.length]
        exact hl.le

theorem rangeLookupImpl_yields (h : t.Inv c) {startKey : Bytes}
    (hstart : startKey.length < keyOut.length ∨ S .undefined) (hfits : t.KeyOutFits keyOut.length ∨ S .undefined)
    (draws : Draws) {fuel : ℕ} (hfuel : t.shapes.length ≤ fuel ∨ S .outOfFuel) :
    Yields S (fun r => r.2.1 = (emit found (t.entries.filter fun e => decide (startKey ≤ e.1)) state).1 ∧
        r.2.2.2.Inv c ∧ r.2.2.2.shapes = t.shapes)
      (rangeLookupImpl found c fuel startKey keyOut state draws t) := by
  obtain ⟨l, before, after, hloc, -, -, -⟩ := h.onLeaf (fun l => .ok ((), l)) startKey
  have hlt : after.length < fuel ∨ S .outOfFuel := by
    refine hfuel.imp_left fun hf => ?_
    have hl := congrArg List.length hloc.eq
    rw [List.length_append, List.length_cons] at hl
    omega
  rw [rangeLookupImpl, h.entries_eq, hloc.filter_ge h.row h.within]
  apply (blit_yields (hstart.imp_left fun hs => ?_)).bind
  · intro k hk
    have htake : k.take startKey.length = startKey := by
      obtain ⟨hroom, rfl⟩ := blit_eq_ok.mp hk
      have ht := take_blit hroom
      rwa [List.take_zero, List.nil_append, Nat.zero_add] at ht ⊢
    have hloc' : Located (k.take startKey.length) t.shapes before l.shape after := by rwa [htake]
    have hfits' : t.KeyOutFits k.length ∨ S .undefined := by rwa [length_blit hk]
    exact rangeLoop_yields (some startKey) h hloc' (fun _ hk' => (Option.some.inj hk').symm.trans htake.symm) hfits' hlt
  · rw [Nat.zero_add]
    exact hs.le

theorem rangeLookupImpl_emits (h : t.Inv c) {startKey : Bytes} (hstart : startKey.length < keyOut.length)
    (hfits : t.KeyOutFits keyOut.length) (draws : Draws) {fuel : ℕ} (hfuel : t.shapes.length ≤ fuel) :
    ∃ keyOut' draws' t', rangeLookupImpl found c fuel startKey keyOut state draws t =
        .ok (keyOut', (emit found (t.entries.filter fun e => decide (startKey ≤ e.1)) state).1, draws', t') ∧
      t'.Inv c ∧ t'.shapes = t.shapes := by
  have hscan : Yields (fun _ => False) _ (rangeLookupImpl found c fuel startKey keyOut state draws t) :=
    rangeLookupImpl_yields h (Or.inl hstart) (Or.inl hfits) draws (Or.inl hfuel)
  obtain ⟨⟨keyOut', state', draws', t'⟩, hr, rfl, hinv, hs⟩ := hscan.exists_ok fun _ => not_false
  exact ⟨keyOut', draws', t', hr, hinv, hs⟩

end AdaptiveTree

end BtreeRedis
