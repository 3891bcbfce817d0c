import BtreeRedis.Tree.DenseScan
import BtreeRedis.Tree.Row

/-!
# Ascending scans of a whole tree

A scan passes the leaves of the row one after another. In each of them it hands out the
entries from its start key on, and it goes on behind the upper fence, which it writes to
the buffer with a zero byte. It meets no fault where each leaf on its way can be entered
and the buffer has room for what is written to it.
-/

namespace BtreeRedis

open LexOrder SortedAssoc BigEndian
open DenseNode (Scans ScansWhen)

instance : Fenced LeafNode where
  lowerFence := LeafNode.lowerFence
  upperFence := LeafNode.upperFence

section
variable {enableDense : Bool}

namespace LeafNode
variable {l : LeafNode} {lower upper : Bytes}

def HasRoom (l : LeafNode) : Prop := l.upperFence = [] ∨ l.lowerFence < l.upperFence

instance (l : LeafNode) : Decidable l.HasRoom := inferInstanceAs (Decidable (_ ∨ _))

def asRow (l : LeafNode) : List LeafNode := if l.HasRoom then [l] else []

theorem Inv.entries_closed (h : l.Inv enableDense lower upper) (hroom : ¬ l.HasRoom) : l.entries = [] := by
  refine List.eq_nil_iff_forall_not_mem.mpr fun e he => hroom ?_
  rw [HasRoom, h.lowerFence, h.upperFence]
  exact (h.inFences he).hasRoom

theorem mem_asRow {l l' : LeafNode} (h : l' ∈ l.asRow) : l' = l := by
  rw [asRow] at h
  split_ifs at h
  · exact List.mem_singleton.mp h
  · exact absurd h List.not_mem_nil

theorem Inv.flatMap_asRow (h : l.Inv enableDense lower upper) : l.asRow.flatMap entries = l.entries := by
  rw [asRow]
  split_ifs with hroom
  · exact List.flatMap_singleton ..
  · exact (h.entries_closed hroom).symm

end LeafNode

namespace AnyNode

def leaves : (h : ℕ) → AnyNode h → List LeafNode
  | 0, l => LeafNode.asRow l
  | h + 1, p => (InnerNode.children p).flatMap (leaves h)

theorem leaf_routed {l : LeafNode} {lower upper : Bytes} (h : l.Inv enableDense lower upper) :
    Routed (leafFor 0) (leaves 0) l lower upper :=
  .of_leaf h.lowerFence h.upperFence h.fences (fun _ => rfl) (fun hroom => if_pos hroom) fun hroom => if_neg hroom

theorem routed : (h : ℕ) → {n : AnyNode h} → {lower upper : Bytes} → Inv enableDense h n lower upper →
    Routed (leafFor h) (leaves h) n lower upper
  | 0, _, _, _, hn => leaf_routed hn
  | h + 1, _, _, _, hn => InnerNode.Inv.routed hn fun _ _ _ hc => routed h hc

theorem leaves_inv : (h : ℕ) → {n : AnyNode h} → {lower upper : Bytes} → Inv enableDense h n lower upper →
    ∀ l ∈ leaves h n, l.Inv enableDense l.lowerFence l.upperFence
  | 0, n, lower, upper, hn, l, hl => by
    have hleaf : LeafNode.Inv enableDense n lower upper := hn
    obtain rfl := LeafNode.mem_asRow hl
    rw [hleaf.lowerFence, hleaf.upperFence]
    exact hleaf
  | h + 1, p, lower, upper, hn, l, hl => by
    obtain ⟨c, hc, hl⟩ := List.mem_flatMap.mp hl
    obtain ⟨a, b, hP⟩ := (InnerNode.Inv.chain hn).forall_mem c hc
    exact leaves_inv h hP l hl

theorem entries_eq_leaves : (h : ℕ) → {n : AnyNode h} → {lower upper : Bytes} → Inv enableDense h n lower upper →
    entries h n = (leaves h n).flatMap LeafNode.entries
  | 0, _, _, _, hn => (LeafNode.Inv.flatMap_asRow hn).symm
  | h + 1, p, lower, upper, hn => by
    change (InnerNode.children p).flatMap (entries h) =
      ((InnerNode.children p).flatMap (leaves h)).flatMap LeafNode.entries
    rw [List.flatMap_assoc]
    apply List.flatMap_congr
    intro c hc
    obtain ⟨a, b, hP⟩ := (InnerNode.Inv.chain hn).forall_mem c hc
    exact entries_eq_leaves h hP

end AnyNode

namespace BTree

def leaves (t : BTree) : List LeafNode := AnyNode.leaves t.height t.root

variable {t : BTree}

theorem Inv.row (h : t.Inv enableDense) : Row [] t.leaves [] := (AnyNode.routed t.height h).row

theorem Inv.within (h : t.Inv enableDense) : Located.Within LeafNode.entries t.leaves :=
  fun l hl _ he => (AnyNode.leaves_inv t.height h l hl).inFences he

theorem Inv.entries_eq (h : t.Inv enableDense) : t.entries = t.leaves.flatMap LeafNode.entries :=
  AnyNode.entries_eq_leaves t.height h

theorem Inv.exists_located (h : t.Inv enableDense) (key : Bytes) : ∃ before l after,
    Located key t.leaves before l after ∧ InFences l.lowerFence l.upperFence key ∧ t.leafFor key = .ok l :=
  (AnyNode.routed t.height h).located key (inFences_nil key)

theorem Inv.leafFor_located (h : t.Inv enableDense) {key : Bytes} {before after : List LeafNode} {l : LeafNode}
    (hl : Located key t.leaves before l after) : InFences l.lowerFence l.upperFence key ∧ t.leafFor key = .ok l := by
  obtain ⟨before', l', after', hl', hin, hleaf⟩ := h.exists_located key
  obtain ⟨-, rfl, -⟩ := hl.unique hl'
  exact ⟨hin, hleaf⟩

end BTree

end

section
variable {σ : Type} {found : Callback σ} {keyOut : Bytes} {state : σ}

def visited {σ : Type} (found : Callback σ) : List (Bytes × Bytes) → σ → List (Bytes × Bytes)
  | [], _ => []
  | e :: es, state => e ::
    match found state e.1 e.2 with
    | (state, true) => visited found es state
    | (_, false) => []

theorem visited_subset {σ : Type} (found : Callback σ) (es : List (Bytes × Bytes)) (state : σ) :
    visited found es state ⊆ es := by
  induction es generalizing state with
  | nil => exact List.Subset.refl _
  | cons e es ih =>
    rw [visited]
    apply List.cons_subset_cons
    split
    · exact ih _
    · exact List.nil_subset _

theorem take_of_blit {k src : Bytes} {offset p : ℕ} (hp : p ≤ offset) (h : blit keyOut offset src = .ok k) :
    k.take p = keyOut.take p := by
  obtain ⟨hle, rfl⟩ := blit_eq_ok.mp h
  rw [List.append_assoc, List.take_append_of_le_length (by rw [List.length_take]; omega), List.take_take,
    min_eq_left hp]

structure Begins (size : ℕ) (pre keyOut : Bytes) : Prop where
  length : keyOut.length = size
  take : keyOut.take pre.length = pre

theorem Begins.blit {size offset : ℕ} {pre src k : Bytes} (h : Begins size pre keyOut) (hp : pre.length ≤ offset)
    (hk : BtreeRedis.blit keyOut offset src = .ok k) : Begins size pre k :=
  ⟨(length_blit hk).trans h.length, (take_of_blit hp hk).trans h.take⟩

theorem Begins.fence_of_blit {size p : ℕ} {fence k₁ k : Bytes} (h : Begins size (fence.take p) keyOut)
    (hp : p ≤ fence.length) (hk₁ : BtreeRedis.blit keyOut p (fence.drop p) = .ok k₁)
    (hk : BtreeRedis.blit k₁ fence.length [0] = .ok k) : k.length = size ∧ fence ++ [0] <+: k := by
  obtain ⟨hroom, hwritten⟩ := blit_eq_ok.mp hk₁
  have hdrop : p + (fence.drop p).length = fence.length := by
    rw [List.length_drop, Nat.add_sub_cancel' hp]
  have htake : k₁.take fence.length = fence := by
    have ht := take_blit hroom
    have hpre := h.take
    rw [List.length_take, min_eq_left hp] at hpre
    rwa [← hwritten, hdrop, hpre, List.take_append_drop] at ht
  refine ⟨(length_blit hk).trans ((length_blit hk₁).trans h.length), ?_⟩
  rw [(blit_eq_ok.mp hk).2, htake]
  exact List.prefix_append _ _

theorem Begins.fence {size p : ℕ} {fence : Bytes} (h : Begins size (fence.take p) keyOut) (hp : p ≤ fence.length)
    (hlen : fence.length < size) : ∃ k₁ k, BtreeRedis.blit keyOut p (fence.drop p) = .ok k₁ ∧
      BtreeRedis.blit k₁ fence.length [0] = .ok k ∧ k.length = size ∧ fence ++ [0] <+: k := by
  have hroom : p + (fence.drop p).length ≤ keyOut.length := by
    rw [List.length_drop, Nat.add_sub_cancel' hp, h.length]
    exact hlen.le
  obtain ⟨k₁, hk₁⟩ : ∃ k, BtreeRedis.blit keyOut p (fence.drop p) = .ok k := ⟨_, blit_eq_ok.mpr ⟨hroom, rfl⟩⟩
  have hroom' : fence.length + ([0] : Bytes).length ≤ k₁.length := by
    rw [length_blit hk₁, h.length]
    exact hlen
  obtain ⟨k, hk⟩ : ∃ k, BtreeRedis.blit k₁ fence.length [0] = .ok k := ⟨_, blit_eq_ok.mpr ⟨hroom', rfl⟩⟩
  exact ⟨k₁, k, hk₁, hk, h.fence_of_blit hp hk₁ hk⟩

theorem Begins.of_isPrefix {pre : Bytes} (h : pre <+: keyOut) : Begins keyOut.length pre keyOut :=
  ⟨rfl, (List.prefix_iff_eq_take.mp h).symm⟩

namespace BTreeNode

theorem scanSlots_begins {size : ℕ} {pre : Bytes} (slots : List (Slot Bytes)) {r : Scanned σ}
    (h : Begins size pre keyOut) (hr : scanSlots found pre.length slots keyOut state = .ok r) :
    Begins size pre r.keyOut := by
  induction slots generalizing keyOut state with
  | nil =>
    obtain rfl := Except.ok.inj hr
    exact h
  | cons s slots ih =>
    obtain ⟨k, hk, hr⟩ := bind_eq_ok.mp hr
    have hnext := h.blit le_rfl hk
    split at hr
    · exact ih hnext hr
    · obtain rfl := Except.ok.inj hr
      exact hnext

theorem scanSlots_scansWhen {pre : Bytes} (slots : List (Slot Bytes)) (hpre : keyOut.take pre.length = pre) :
    ScansWhen (∀ e ∈ visited found (slots.map fun s => (pre ++ s.key, s.payload)) state, e.1.length ≤ keyOut.length)
      found (slots.map fun s => (pre ++ s.key, s.payload)) state (scanSlots found pre.length slots keyOut state) := by
  induction slots generalizing keyOut state with
  | nil => exact .always ⟨_, rfl, rfl, rfl⟩ fun e he => absurd he List.not_mem_nil
  | cons s slots ih =>
    rw [List.map_cons, visited, List.forall_mem_cons, List.length_append]
    by_cases hroom : pre.length + s.key.length ≤ keyOut.length
    · have hk := blit_eq_ok.mpr ⟨hroom, rfl⟩
      have htake := take_blit hroom
      rw [hpre] at hk htake
      have hlen := length_blit hk
      have hnext := (take_of_blit le_rfl hk).trans hpre
      rw [and_iff_right hroom, scanSlots, hk, ok_bind, Nat.add_comm s.key.length, htake]
      cases hf : found state (pre ++ s.key) s.payload with
      | mk state' more =>
        cases more with
        | true =>
          have hrest := @ih _ state' hnext
          rw [hlen] at hrest
          refine ⟨fun hall => ?_, hrest.safe⟩
          simpa only [Scans, emit, hf] using hrest.scans hall
        | false =>
          refine .always ⟨_, rfl, ?_, ?_⟩ fun e he => absurd he List.not_mem_nil
          · simp only [emit, hf]
          · simp only [emit, hf]
    · refine .never (fun r hr => ?_) fun hc => hroom hc.1
      obtain ⟨k, hk, -⟩ := bind_eq_ok.mp hr
      exact hroom (blit_eq_ok.mp hk).1

theorem rangeLookup_begins {n : BTreeNode Bytes} (hn : n.WF) {size : ℕ} {key : Option Bytes} {r : Scanned σ}
    (h : Begins size n.getPrefix keyOut) (hr : n.rangeLookup found key keyOut state = .ok r) :
    Begins size n.getPrefix r.keyOut := by
  rw [rangeLookup_eq, ← hn.length_getPrefix] at hr
  obtain ⟨start, -, hr⟩ := bind_eq_ok.mp hr
  exact scanSlots_begins _ h hr

theorem rangeLookup_scansWhen {n : BTreeNode Bytes} (hn : n.WF) {key : Option Bytes}
    (hk : ∀ k, key = some k → InFences n.getLowerFence n.getUpperFence k)
    (h : Begins keyOut.length n.getPrefix keyOut) :
    ScansWhen (∀ e ∈ visited found (n.entries.drop (key.elim 0 (lowerIndex (keys n.entries)))) state,
        e.1.length ≤ keyOut.length)
      found (n.entries.drop (key.elim 0 (lowerIndex (keys n.entries)))) state
      (n.rangeLookup found key keyOut state) := by
  have hstart : n.startSlot key = .ok (key.elim 0 (lowerIndex (keys n.entries))) := by
    cases key with
    | none => rfl
    | some k => rw [startSlot, lowerBound_spec hn (hk k rfl)]; rfl
  have hdrop : ∀ i, n.entries.drop i = (n.slots.drop i).map fun s => (n.getPrefix ++ s.key, s.payload) := by
    intro i
    rw [entries, content, List.map_map, ← List.map_drop]
    rfl
  rw [rangeLookup_eq, hstart, ok_bind, hdrop, ← hn.length_getPrefix]
  exact scanSlots_scansWhen _ h.take

end BTreeNode

namespace DenseNode
variable {d : DenseNode}

/-- What the fences have in common and the numeric prefix, whichever is longer. -/
def commonPart (d : DenseNode) : Bytes :=
  d.lowerFence.take (max d.prefixLength (computeNumericPrefixLength d.fullKeyLen))

theorem length_commonPart (h : WF d) :
    d.commonPart.length = max d.prefixLength (computeNumericPrefixLength d.fullKeyLen) := by
  have hP := numericPrefixLength_eq d.fullKeyLen
  have hlow := h.lower_len
  have hpl : d.prefixLength ≤ d.lowerFence.length := by
    rw [h.prefixLen]
    exact commonPrefixLength_le_left _ _
  rw [commonPart, List.length_take]
  omega

theorem commonPart_isPrefix (h : WF d) {i : ℕ} (hi : d.present i = true) : d.commonPart <+: d.slotKey i := by
  rw [commonPart]
  rcases Nat.le_total d.prefixLength (computeNumericPrefixLength d.fullKeyLen) with hle | hle
  · rw [max_eq_right hle, slotKey, ← @take_restoreKey d.arrayStart _ _ h.lower_len i]
    exact List.take_prefix _ _
  · rw [max_eq_left hle, h.prefixLen]
    exact (h.inFences i hi).isPrefix

theorem maskLoop_begins (h : WF d) (fuel : ℕ) {size w shift : ℕ} {m : Mask} {r : Scanned σ}
    (hm : d.mask[w]? = some m) (hs : shift ≤ maskBitsPerWord) (hb : Begins size d.commonPart keyOut)
    (hr : maskLoop found d fuel w shift (m >>> shift) keyOut state = .ok r) : Begins size d.commonPart r.keyOut := by
  induction fuel generalizing w shift m keyOut state with
  | zero => cases hr
  | succ fuel ih =>
    rw [maskLoop] at hr
    dsimp only at hr
    by_cases hz : countrZero (m >>> shift) = maskBitsPerWord
    · rw [if_pos hz] at hr
      split_ifs at hr with hend
      · obtain rfl := Except.ok.inj hr
        exact hb
      · split at hr
        · next m' hm' => exact @ih _ _ (w + 1) 0 m' hm' (Nat.zero_le _) hb (by rwa [BitVec.ushiftRight_zero])
        · cases hr
    · obtain ⟨hin, hp, -⟩ := segment_bit hm hz
      have hslot := h.present_lt _ hp
      rw [if_neg hz, if_neg (by omega)] at hr
      obtain ⟨k, hk, hr⟩ := bind_eq_ok.mp hr
      obtain ⟨val, -, hr⟩ := bind_eq_ok.mp hr
      have hbuffered : Buffered d keyOut := by
        have hle := (blit_eq_ok.mp hk).1
        rw [length_keyBytes, numericLen_add] at hle
        refine ⟨?_, hle⟩
        have htake := congrArg (List.take (computeNumericPrefixLength d.fullKeyLen)) hb.take
        rwa [List.take_take, length_commonPart h, min_eq_left (le_max_right _ _), commonPart, List.take_take,
          min_eq_left (le_max_right _ _)] at htake
      have hnext : Begins size d.commonPart k := by
        obtain ⟨k', hk', -, hkey, hlen⟩ := hbuffered.put (w * maskBitsPerWord + (shift + countrZero (m >>> shift)))
        obtain rfl := Except.ok.inj (hk'.symm.trans hk)
        refine ⟨hlen.trans hb.length, ?_⟩
        have hpre := commonPart_isPrefix h hp
        rw [← hkey] at hpre
        exact (List.prefix_iff_eq_take.mp (hpre.trans (List.take_prefix _ _))).symm
      split at hr
      · have hword : m >>> shift >>> countrZero (m >>> shift) >>> 1 = m >>> (shift + countrZero (m >>> shift) + 1) := by
          rw [← BitVec.shiftRight_add, ← BitVec.shiftRight_add, Nat.add_assoc]
        rw [hword] at hr
        exact ih hm (by omega) hnext hr
      · obtain rfl := Except.ok.inj hr
        exact hnext

theorem putPrefix_begins (h : WF d) {k : Bytes}
    (hpre : keyOut.take d.prefixLength = d.lowerFence.take d.prefixLength) (hk : d.putPrefix keyOut = .ok k) :
    Begins keyOut.length d.commonPart k := by
  rcases Nat.lt_or_ge d.prefixLength (computeNumericPrefixLength d.fullKeyLen) with hlt | hge
  · have hroom : computeNumericPrefixLength d.fullKeyLen ≤ keyOut.length := by
      have hP := numericPrefixLength_eq d.fullKeyLen
      have hlow := h.lower_len
      have hput := hk
      rw [putPrefix, if_pos hlt] at hput
      have hle := (blit_eq_ok.mp hput).1
      rw [List.length_drop, List.length_take] at hle
      omega
    obtain ⟨k', hk', htake, hlen⟩ := putPrefix_spec h hpre hroom
    obtain rfl := Except.ok.inj (hk'.symm.trans hk)
    refine ⟨hlen, ?_⟩
    rw [length_commonPart h, commonPart, max_eq_right hlt.le, htake]
  · rw [putPrefix, if_neg (not_lt.mpr hge)] at hk
    obtain rfl := Except.ok.inj hk
    refine ⟨rfl, ?_⟩
    rw [length_commonPart h, commonPart, max_eq_left hge, hpre]

theorem rangeLookup1_begins (h : WF d) {behind : ℕ → Except Fault Mask} {key : Option Bytes} {keyLen : ℕ}
    {r : Scanned σ} (hstart : ScanStart d keyOut key keyLen)
    (hr : d.rangeLookup1 found behind key keyLen keyOut state = .ok r) :
    Begins keyOut.length (d.lowerFence.take d.prefixLength) r.keyOut := by
  have hpl : d.prefixLength ≤ d.lowerFence.length := by
    rw [h.prefixLen]
    exact commonPrefixLength_le_left _ _
  have hlen : (d.lowerFence.take d.prefixLength).length = d.prefixLength := by
    rw [List.length_take, min_eq_left hpl]
  have hpre := hstart.pre h
  rw [rangeLookup1_eq] at hr
  obtain ⟨inRange, -, hr⟩ := bind_eq_ok.mp hr
  cases inRange with
  | false =>
    obtain rfl := Except.ok.inj hr
    exact ⟨rfl, by rw [hlen, hpre]⟩
  | true =>
    rw [if_pos rfl] at hr
    obtain ⟨first, -, hr⟩ := bind_eq_ok.mp hr
    obtain ⟨-, -, hr⟩ := bind_eq_ok.mp hr
    obtain ⟨k, hk, hr⟩ := bind_eq_ok.mp hr
    have hbegins := putPrefix_begins h hpre hk
    have hscan : Begins keyOut.length d.commonPart r.keyOut := by
      by_cases hf : first < maskBitsPerWord * d.maskWordCount
      · have hword := List.getElem?_eq_getElem (h.mask_len.symm ▸ Nat.div_lt_of_lt_mul hf)
        rw [scanMask, maskWord, hword, pure_bind] at hr
        exact maskLoop_begins h _ hword (Nat.mod_lt first (by decide)).le hbegins hr
      · obtain ⟨-, rfl⟩ := (scanMask_behind h hf).2 r hr
        exact hbegins
    refine ⟨hscan.length, ?_⟩
    have htake := congrArg (List.take d.prefixLength) hscan.take
    rw [List.take_take, length_commonPart h, min_eq_left (le_max_left _ _), commonPart, List.take_take,
      min_eq_left (le_max_left _ _)] at htake
    rw [hlen, htake]

end DenseNode

namespace LeafNode
variable {enableDense : Bool} {free : FreeBytes} {l : LeafNode} {lower upper : Bytes} {key : Option Bytes} {keyLen : ℕ}

inductive ScanStart (l : LeafNode) (keyOut : Bytes) : Option Bytes → ℕ → Prop
  | key {key : Bytes} (hk : InFences l.lowerFence l.upperFence key) (hb : key <+: keyOut) :
      ScanStart l keyOut (some key) key.length
  | next (hb : l.lowerFence ++ [0] <+: keyOut) : ScanStart l keyOut none (l.lowerFence.length + 1)

def entriesFrom (l : LeafNode) : Option Bytes → List (Bytes × Bytes)
  | some key => l.entries.filter fun e => decide (key ≤ e.1)
  | none => l.entries

def Enterable (free : FreeBytes) (key : Option Bytes) : LeafNode → Prop
  | .basic _ => True
  | .dense d => d.Enterable (d.pageWord (free d)) key

instance (free : FreeBytes) (key : Option Bytes) : (l : LeafNode) → Decidable (l.Enterable free key)
  | .basic _ => isTrue trivial
  | .dense d => inferInstanceAs (Decidable (d.Enterable _ _))

def commonPrefix (l : LeafNode) : Bytes := l.lowerFence.take l.prefixLength

theorem Inv.commonPrefix_upper (h : l.Inv enableDense lower upper) :
    l.commonPrefix = l.upperFence.take l.prefixLength := by
  rw [commonPrefix, h.prefixLength_eq, h.lowerFence, h.upperFence, take_commonPrefix_eq]

theorem ScanStart.begins (hs : l.ScanStart keyOut key keyLen) (h : l.Inv enableDense lower upper) :
    Begins keyOut.length l.commonPrefix keyOut := by
  apply Begins.of_isPrefix
  rw [commonPrefix]
  cases hs with
  | key hk hb =>
    have hp := hk.isPrefix
    rw [h.lowerFence, h.upperFence, ← h.prefixLength_eq, ← h.lowerFence] at hp
    exact hp.trans hb
  | next hb => exact ((List.take_prefix _ _).trans (List.prefix_append _ _)).trans hb

theorem ScanStart.dense {d : DenseNode} (hs : ScanStart (.dense d) keyOut key keyLen) :
    d.ScanStart keyOut key keyLen := by
  cases hs with
  | key hk hb => exact .key hk hb
  | next hb => exact .next hb

theorem entriesFrom_basic {n : BTreeNode Bytes} (hn : n.WF) :
    entriesFrom (.basic n) key = n.entries.drop (key.elim 0 (lowerIndex (keys n.entries))) := by
  cases key with
  | none => rfl
  | some k => exact filter_ge_eq_drop hn.sorted_entries k

theorem entriesFrom_sublist (l : LeafNode) (key : Option Bytes) : (l.entriesFrom key).Sublist l.entries := by
  cases key with
  | none => exact List.Sublist.refl _
  | some k => exact List.filter_sublist

theorem visited_dense {d : DenseNode} (hd : d.WF) {es : List (Bytes × Bytes)} (hes : es.Sublist d.entries) {n : ℕ} :
    (∀ e ∈ visited found es state, e.1.length ≤ n) ↔ (es ≠ [] → d.fullKeyLen ≤ n) := by
  have hlen : ∀ e ∈ d.entries, e.1.length = d.fullKeyLen := by
    intro e he
    obtain ⟨i, -, rfl⟩ := (DenseNode.mem_entries hd.toFilled).mp he
    exact DenseNode.length_slotKey hd.toFilled i
  constructor
  · intro hall hne
    obtain ⟨e, es', rfl⟩ := List.exists_cons_of_ne_nil hne
    have hle := hall e (by rw [visited]; exact List.mem_cons_self)
    rwa [hlen e (hes.subset List.mem_cons_self)] at hle
  · intro hroom e he
    have hmem := visited_subset found es state he
    rw [hlen e (hes.subset hmem)]
    exact hroom (List.ne_nil_of_mem hmem)

theorem rangeLookup_scansWhen (h : l.Inv enableDense lower upper) (hs : l.ScanStart keyOut key keyLen) :
    ScansWhen (l.Enterable free key ∧ ∀ e ∈ visited found (l.entriesFrom key) state, e.1.length ≤ keyOut.length) found
      (l.entriesFrom key) state (l.rangeLookup found free key keyLen keyOut state) := by
  have hbegins := hs.begins h
  cases l with
  | basic n =>
    have hk : ∀ k, key = some k → InFences n.getLowerFence n.getUpperFence k := by
      rintro k rfl
      cases hs with
      | key hk => exact hk
    have hscan : ScansWhen _ found _ state _ := BTreeNode.rangeLookup_scansWhen h.kind.1 hk hbegins
    rw [← entriesFrom_basic h.kind.1] at hscan
    exact hscan.congr (and_iff_right trivial).symm
  | dense d =>
    have hscan : ScansWhen _ found _ state (rangeLookup found free (.dense d) key keyLen keyOut state) :=
      DenseNode.rangeLookup1_scansWhen h.kind.1 h.kind.2.1 hs.dense
    have hsame : d.entriesFrom key = entriesFrom (.dense d) key := by cases key <;> rfl
    rw [hsame] at hscan
    refine hscan.congr (and_congr_right fun _ => ?_)
    exact (visited_dense h.kind.1 (entriesFrom_sublist (.dense d) key)).symm

theorem rangeLookup_begins (h : l.Inv enableDense lower upper) (hs : l.ScanStart keyOut key keyLen) {r : Scanned σ}
    (hr : l.rangeLookup found free key keyLen keyOut state = .ok r) : Begins keyOut.length l.commonPrefix r.keyOut := by
  cases l with
  | basic n => exact BTreeNode.rangeLookup_begins h.kind.1 (hs.begins h) hr
  | dense d => exact DenseNode.rangeLookup1_begins h.kind.1 hs.dense hr

end LeafNode

theorem emit_append (es fs : List (Bytes × Bytes)) : emit found (es ++ fs) state =
    if (emit found es state).2 then emit found fs (emit found es state).1 else emit found es state := by
  induction es generalizing state with
  | nil => rfl
  | cons e es ih =>
    rw [List.cons_append, emit, emit]
    cases hf : found state e.1 e.2 with
    | mk state' more =>
      cases more with
      | true => exact ih
      | false => rfl

namespace BTree
variable {t : BTree} {enableDense : Bool} {free : FreeBytes}

/-- The leaves from the first one on can be scanned with a buffer of the given size, up to where the
callback stops. -/
def ScanFits (free : FreeBytes) (size : ℕ) (found : Callback σ) : Option Bytes → List LeafNode → σ → Prop
  | _, [], _ => True
  | key, l :: ls, state => l.Enterable free key ∧
      (∀ e ∈ visited found (l.entriesFrom key) state, e.1.length ≤ size) ∧
      ((emit found (l.entriesFrom key) state).2 = true → l.upperFence.length < size ∧
        ScanFits free size found none ls (emit found (l.entriesFrom key) state).1)

def putFence (l : LeafNode) (keyOut : Bytes) : Except Fault Bytes := do
  let keyOut ← blit keyOut l.prefixLength (l.upperFence.drop l.prefixLength)
  blit keyOut l.upperFence.length [0]

theorem putFence_spec {l : LeafNode} {lower upper : Bytes} {size : ℕ} (h : l.Inv enableDense lower upper)
    (hb : Begins size l.commonPrefix keyOut) (hlen : l.upperFence.length < size) :
    ∃ k, putFence l keyOut = .ok k ∧ k.length = size ∧ l.upperFence ++ [0] <+: k := by
  rw [h.commonPrefix_upper] at hb
  obtain ⟨k₁, k, hk₁, hk, hfence⟩ := hb.fence h.prefixLength_le_upper hlen
  exact ⟨k, by rw [putFence, hk₁, ok_bind, hk], hfence⟩

theorem length_of_putFence {l : LeafNode} {k : Bytes} (hk : putFence l keyOut = .ok k) :
    l.upperFence.length < keyOut.length := by
  obtain ⟨k₁, hk₁, hk₂⟩ := bind_eq_ok.mp hk
  have hle := (blit_eq_ok.mp hk₂).1
  rwa [length_blit hk₁] at hle

theorem rangeLoop_succ (fuel : ℕ) {l : LeafNode} {leafKey : Option Bytes} {keyLen : ℕ}
    (hl : t.leafFor (keyOut.take keyLen) = .ok l) :
    t.rangeLoop found free (fuel + 1) leafKey keyLen keyOut state =
      l.rangeLookup found free leafKey keyLen keyOut state >>= fun scanned =>
        if scanned.more then putFence l scanned.keyOut >>= fun keyOut =>
          if l.upperFence = [] then pure (keyOut, scanned.state)
          else t.rangeLoop found free fuel none (l.upperFence.length + 1) keyOut scanned.state
        else pure (scanned.keyOut, scanned.state) := by
  have hlast : l.upperFence.length + 1 = 1 ↔ l.upperFence = [] := by
    rw [Nat.add_eq_right, List.length_eq_zero_iff]
  rw [rangeLoop, hl, ok_bind]
  simp only [hlast, putFence, bind_assoc]

/-- Between two leaves of a scan: the key in the buffer belongs to `l`, which is entered next. -/
structure Scanning (t : BTree) (keyOut : Bytes) (leafKey : Option Bytes) (keyLen : ℕ) (before : List LeafNode)
    (l : LeafNode) (after : List LeafNode) : Prop where
  located : Located (keyOut.take keyLen) t.leaves before l after
  start : l.ScanStart keyOut leafKey keyLen

namespace Scanning
variable {leafKey : Option Bytes} {keyLen : ℕ} {before after : List LeafNode} {l l' : LeafNode}

theorem leafFor (hs : t.Scanning keyOut leafKey keyLen before l after) (h : t.Inv enableDense) :
    t.leafFor (keyOut.take keyLen) = .ok l := (h.leafFor_located hs.located).2

theorem inv (hs : t.Scanning keyOut leafKey keyLen before l after) (h : t.Inv enableDense) :
    l.Inv enableDense l.lowerFence l.upperFence := by
  apply AnyNode.leaves_inv t.height h
  rw [← leaves, hs.located.eq]
  exact List.mem_append_right _ List.mem_cons_self

theorem next (hs : t.Scanning keyOut leafKey keyLen before l (l' :: after)) (h : t.Inv enableDense) {k : Bytes}
    (hk : l.upperFence ++ [0] <+: k) :
    t.Scanning k none (l.upperFence.length + 1) (before ++ [l]) l' after := by
  have hnext := hs.located.next h.row
  have hrow := h.row
  rw [hs.located.eq] at hrow
  have hfence : l'.lowerFence = l.upperFence := hrow.adjacent.1
  have htake : k.take (l.upperFence.length + 1) = l.upperFence ++ [0] := by
    have ht := List.prefix_iff_eq_take.mp hk
    rw [List.length_append, List.length_singleton] at ht
    exact ht.symm
  refine ⟨by rw [htake]; exact hnext, ?_⟩
  rw [← hfence] at hk ⊢
  exact .next hk

theorem scansWhen (hs : t.Scanning keyOut leafKey keyLen before l after) (h : t.Inv enableDense) (found : Callback σ)
    (free : FreeBytes) (state : σ) : ScansWhen
      (l.Enterable free leafKey ∧ ∀ e ∈ visited found (l.entriesFrom leafKey) state, e.1.length ≤ keyOut.length) found
      (l.entriesFrom leafKey) state (l.rangeLookup found free leafKey keyLen keyOut state) :=
  LeafNode.rangeLookup_scansWhen (hs.inv h) hs.start

theorem upperFence_eq_nil (hs : t.Scanning keyOut leafKey keyLen before l after) (h : t.Inv enableDense) :
    l.upperFence = [] ↔ after = [] := (hs.located.after_nil_iff h.row).symm

end Scanning

theorem rangeLoop_of_fits (h : t.Inv enableDense) {after before : List LeafNode} {l : LeafNode}
    {leafKey : Option Bytes} {keyLen : ℕ} (hs : t.Scanning keyOut leafKey keyLen before l after)
    (hfits : ScanFits free keyOut.length found leafKey (l :: after) state) :
    ∃ fuel res, t.rangeLoop found free fuel leafKey keyLen keyOut state = .ok res := by
  induction after generalizing before l leafKey keyLen keyOut state with
  | nil =>
    obtain ⟨hsafe, hvisited, hgo⟩ := hfits
    obtain ⟨scanned, hscanned, -, hmore⟩ := (hs.scansWhen h found free state).scans ⟨hsafe, hvisited⟩
    cases hm : scanned.more with
    | false =>
      refine ⟨1, (scanned.keyOut, scanned.state), ?_⟩
      rw [rangeLoop_succ 0 (hs.leafFor h), hscanned, ok_bind, hm]
      rfl
    | true =>
      have hbegins := LeafNode.rangeLookup_begins (hs.inv h) hs.start hscanned
      obtain ⟨k, hk, -, -⟩ := putFence_spec (hs.inv h) hbegins (hgo (hmore ▸ hm)).1
      refine ⟨1, (k, scanned.state), ?_⟩
      rw [rangeLoop_succ 0 (hs.leafFor h), hscanned, ok_bind, if_pos hm, hk, ok_bind,
        if_pos ((hs.upperFence_eq_nil h).mpr rfl)]
      rfl
  | cons l' after ih =>
    obtain ⟨hsafe, hvisited, hgo⟩ := hfits
    obtain ⟨scanned, hscanned, hstate, hmore⟩ := (hs.scansWhen h found free state).scans ⟨hsafe, hvisited⟩
    cases hm : scanned.more with
    | false =>
      refine ⟨1, (scanned.keyOut, scanned.state), ?_⟩
      rw [rangeLoop_succ 0 (hs.leafFor h), hscanned, ok_bind, hm]
      rfl
    | true =>
      obtain ⟨hlt, hrest⟩ := hgo (hmore ▸ hm)
      have hbegins := LeafNode.rangeLookup_begins (hs.inv h) hs.start hscanned
      obtain ⟨k, hk, hlen, hpre⟩ := putFence_spec (hs.inv h) hbegins hlt
      rw [← hstate, ← hlen] at hrest
      obtain ⟨fuel, res, hrun⟩ := ih (hs.next h hpre) hrest
      refine ⟨fuel + 1, res, ?_⟩
      rw [rangeLoop_succ fuel (hs.leafFor h), hscanned, ok_bind, if_pos hm, hk, ok_bind,
        if_neg (mt (hs.upperFence_eq_nil h).mp (List.cons_ne_nil _ _))]
      exact hrun

theorem rangeLoop_spec (h : t.Inv enableDense) (fuel : ℕ) {after before : List LeafNode} {l : LeafNode}
    {leafKey : Option Bytes} {keyLen : ℕ} {res : Bytes × σ} (hs : t.Scanning keyOut leafKey keyLen before l after)
    (hr : t.rangeLoop found free fuel leafKey keyLen keyOut state = .ok res) :
    ScanFits free keyOut.length found leafKey (l :: after) state ∧
      res.2 = (emit found (l.entriesFrom leafKey ++ after.flatMap LeafNode.entries) state).1 := by
  induction fuel generalizing after before l leafKey keyLen keyOut state with
  | zero => cases hr
  | succ fuel ih =>
    have hscan := hs.scansWhen h found free state
    rw [rangeLoop_succ fuel (hs.leafFor h)] at hr
    obtain ⟨scanned, hscanned, hr⟩ := bind_eq_ok.mp hr
    obtain ⟨hsafe, hvisited⟩ := hscan.safe scanned hscanned
    obtain ⟨hstate, hmore⟩ := hscan.of_ok hscanned
    rw [emit_append, ScanFits, ← hmore, ← hstate]
    cases hm : scanned.more with
    | false =>
      rw [hm] at hr
      obtain rfl := Except.ok.inj hr
      exact ⟨⟨hsafe, hvisited, fun hgo => absurd hgo Bool.false_ne_true⟩, hstate⟩
    | true =>
      rw [if_pos hm] at hr
      obtain ⟨k, hk, hr⟩ := bind_eq_ok.mp hr
      have hbegins := LeafNode.rangeLookup_begins (hs.inv h) hs.start hscanned
      have hlt : l.upperFence.length < keyOut.length := by
        rw [← hbegins.length]
        exact length_of_putFence hk
      obtain ⟨k', hk', hlen, hpre⟩ := putFence_spec (hs.inv h) hbegins hlt
      obtain rfl := Except.ok.inj (hk'.symm.trans hk)
      cases after with
      | nil =>
        rw [if_pos ((hs.upperFence_eq_nil h).mpr rfl)] at hr
        obtain rfl := Except.ok.inj hr
        exact ⟨⟨hsafe, hvisited, fun _ => ⟨hlt, trivial⟩⟩, rfl⟩
      | cons l' after =>
        rw [if_neg (mt (hs.upperFence_eq_nil h).mp (List.cons_ne_nil _ _))] at hr
        obtain ⟨hrest, hvalue⟩ := ih (hs.next h hpre) hr
        rw [hlen] at hrest
        exact ⟨⟨hsafe, hvisited, fun _ => ⟨hlt, hrest⟩⟩, hvalue⟩

def leavesFrom (t : BTree) (key : Bytes) : List LeafNode :=
  t.leaves.dropWhile fun l => decide (l.upperFence ≠ [] ∧ l.upperFence < key)

theorem Scanning.first {before after : List LeafNode} {l : LeafNode} {startKey : Bytes}
    (hl : Located startKey t.leaves before l after) (hin : InFences l.lowerFence l.upperFence startKey)
    (hlen : startKey.length ≤ keyOut.length) : ∃ k, blit keyOut 0 startKey = .ok k ∧ k.length = keyOut.length ∧
      t.Scanning k (some startKey) startKey.length before l after := by
  have hroom : 0 + startKey.length ≤ keyOut.length := by omega
  have hk := blit_eq_ok.mpr ⟨hroom, rfl⟩
  have htake := take_blit hroom
  rw [List.take_zero, List.nil_append, Nat.zero_add] at htake hk
  refine ⟨_, hk, length_blit hk, ⟨?_, ?_⟩⟩
  · rw [htake]
    exact hl
  · exact .key hin (List.prefix_append _ _)

theorem rangeLoop_of_rangeLookupImpl {before after : List LeafNode} {l : LeafNode} {startKey : Bytes} {fuel : ℕ}
    {res : Bytes × σ} (hl : Located startKey t.leaves before l after)
    (hin : InFences l.lowerFence l.upperFence startKey)
    (hr : t.rangeLookupImpl found free fuel startKey keyOut state = .ok res) :
    startKey.length ≤ keyOut.length ∧ ∃ k, k.length = keyOut.length ∧
      t.Scanning k (some startKey) startKey.length before l after ∧
      t.rangeLoop found free fuel (some startKey) startKey.length k state = .ok res := by
  obtain ⟨k, hk, hr⟩ := bind_eq_ok.mp hr
  have hlen : startKey.length ≤ keyOut.length := by
    have hle := (blit_eq_ok.mp hk).1
    rwa [Nat.zero_add] at hle
  obtain ⟨k', hk', hsize, hs⟩ := Scanning.first hl hin hlen
  obtain rfl := Except.ok.inj (hk'.symm.trans hk)
  exact ⟨hlen, k', hsize, hs, hr⟩

theorem rangeLookupImpl_iff (found : Callback σ) (free : FreeBytes) (keyOut : Bytes) (state : σ) (h : t.Inv enableDense)
    (startKey : Bytes) :
    (∃ fuel res, t.rangeLookupImpl found free fuel startKey keyOut state = .ok res) ↔ startKey.length ≤ keyOut.length ∧
      ScanFits free keyOut.length found (some startKey) (t.leavesFrom startKey) state := by
  obtain ⟨before, l, after, hl, hin, -⟩ := h.exists_located startKey
  have hfrom : t.leavesFrom startKey = l :: after := hl.dropWhile_eq
  rw [hfrom]
  constructor
  · rintro ⟨fuel, res, hr⟩
    obtain ⟨hlen, k, hsize, hs, hr⟩ := rangeLoop_of_rangeLookupImpl hl hin hr
    rw [← hsize]
    exact ⟨hlen.trans hsize.ge, (rangeLoop_spec h fuel hs hr).1⟩
  · rintro ⟨hlen, hfits⟩
    obtain ⟨k, hk, hsize, hs⟩ := Scanning.first hl hin hlen
    rw [← hsize] at hfits
    obtain ⟨fuel, res, hr⟩ := rangeLoop_of_fits h hs hfits
    exact ⟨fuel, res, bind_eq_ok.mpr ⟨k, hk, hr⟩⟩

theorem rangeLookupImpl_value (h : t.Inv enableDense) {fuel : ℕ} {startKey : Bytes} {res : Bytes × σ}
    (hr : t.rangeLookupImpl found free fuel startKey keyOut state = .ok res) :
    res.2 = (emit found (t.entries.filter fun e => decide (startKey ≤ e.1)) state).1 := by
  obtain ⟨before, l, after, hl, hin, -⟩ := h.exists_located startKey
  obtain ⟨-, k, -, hs, hr⟩ := rangeLoop_of_rangeLookupImpl hl hin hr
  rw [h.entries_eq, hl.filter_ge h.row h.within]
  exact (rangeLoop_spec h fuel hs hr).2

end BTree

end

end BtreeRedis
