import BtreeRedis.Adaptive.Descend
import BtreeRedis.Headed.Tree

/-!
# Scans of a tree with head nodes

Seen from below, the tree is a row of leaves whatever shape the nodes above them have. A scan
goes along it in either direction, and needs a buffer that takes the longest key and a byte.
-/

namespace BtreeRedis

open LexOrder SortedAssoc Outcome

namespace Routing
variable {γ ν : Type} [ChildPointer γ] [Fenced ν] {P : γ → Bytes → Bytes → Prop} {a : Routing γ} {key : Bytes}
  {route : γ → Bytes → Except Fault ν} {leaves : γ → List ν}

section
omit [ChildPointer γ]

theorem Spans.row (h : a.Spans P) (hP : ∀ c x y, P c x y → Routed route leaves c x y) :
    Row a.lower (a.children.flatMap leaves) a.upper :=
  Row.of_chain (Chain.mono (fun c x y hc => (hP c x y hc).row) h) fun _ hs => a.ne_nil hs

theorem Spans.located (h : a.Spans P) (hP : ∀ c x y, P c x y → Routed route leaves c x y)
    (hk : InFences a.lower a.upper key) :
    ∃ c before l after, a.children[lowerIndex a.separators key]? = some c ∧
      Located key (a.children.flatMap leaves) before l after ∧ InFences (lowerFence l) (upperFence l) key ∧
      route c key = .ok l := by
  have hlawful : InnerNode.Lawful P fun _ => ([] : List (Bytes × Unit)) :=
    fun _ _ _ _ => ⟨List.Pairwise.nil, fun e he => absurd he List.not_mem_nil⟩
  obtain ⟨i, c, x, y, pre, post, f⟩ := h.focus hlawful hk
  obtain rfl := f.index
  obtain ⟨before, l, after, hl, hin, hroute⟩ := (hP c x y f.inv).located key f.inFences
  obtain ⟨hi, hci⟩ := List.getElem?_eq_some_iff.mp f.child
  have hsplit : a.children.flatMap leaves = (a.children.take (lowerIndex a.separators key)).flatMap leaves ++
      leaves c ++ (a.children.drop (lowerIndex a.separators key + 1)).flatMap leaves := by
    conv_lhs => rw [← List.take_append_drop (lowerIndex a.separators key) a.children, ← List.getElem_cons_drop hi, hci]
    rw [List.flatMap_append, List.flatMap_cons, List.append_assoc]
  have hleft : ∀ v ∈ (a.children.take (lowerIndex a.separators key)).flatMap leaves,
      Fenced.upperFence v ≠ [] ∧ Fenced.upperFence v < key := by
    cases hj : lowerIndex a.separators key with
    | zero => exact fun v hv => absurd hv List.not_mem_nil
    | succ j =>
      have hjlt : j < a.separators.length := by
        have hle := f.le_length
        omega
      have hlt : a.separators[j] < key := lt_of_lt_lowerIndex (by omega) hjlt
      have hrow : Row a.lower ((a.left j hjlt).children.flatMap leaves) a.separators[j] := (h.halves hjlt).1.row hP
      intro v hv
      obtain ⟨hvne, hvle⟩ := (hrow.bounded (a.ne_nil (List.getElem_mem hjlt))).2 v hv
      exact ⟨hvne, hvle.trans_lt hlt⟩
  refine ⟨c, (a.children.take (lowerIndex a.separators key)).flatMap leaves ++ before, l,
    after ++ (a.children.drop (lowerIndex a.separators key + 1)).flatMap leaves, f.child, ⟨?_, ?_, hl.le⟩, hin, hroute⟩
  · rw [hsplit, hl.eq]
    simp
  · exact fun v hv => (List.mem_append.mp hv).elim (hleft v) (hl.before_lt v)

end

end Routing

instance : Fenced (BTreeNode Bytes) where
  lowerFence := BTreeNode.getLowerFence
  upperFence := BTreeNode.getUpperFence

namespace HeadedNode

def asRow (n : BTreeNode Bytes) : List (BTreeNode Bytes) :=
  if n.getUpperFence = [] ∨ n.getLowerFence < n.getUpperFence then [n] else []

def leaves : (h : ℕ) → HeadedNode h → List (BTreeNode Bytes)
  | 0, n => asRow n
  | h + 1, p => (AnyInner.children p).flatMap (leaves h)

end HeadedNode

section
variable {σ : Type} (found : Callback σ)

namespace HeadedTree

def leaves (t : HeadedTree) : List (BTreeNode Bytes) := HeadedNode.leaves t.height t.root

def rangeLoop (t : HeadedTree) : ℕ → Option Bytes → ℕ → Bytes → σ → Except Fault (Bytes × σ)
  | 0, _, _, _, _ => .error .outOfFuel
  | fuel + 1, leafKey, keyLen, keyOut, state => do
    let leaf ← t.leafFor (keyOut.take keyLen)
    let scanned ← leaf.rangeLookup found leafKey keyOut state
    if scanned.more then do
      let keyOut ← blit scanned.keyOut leaf.prefixLength (leaf.getUpperFence.drop leaf.prefixLength)
      let keyOut ← blit keyOut leaf.getUpperFence.length [0]
      -- An empty upper fence: there is no leaf behind this one.
      if leaf.getUpperFence.length + 1 = 1 then pure (keyOut, scanned.state)
      else rangeLoop t fuel none (leaf.getUpperFence.length + 1) keyOut scanned.state
    else pure (scanned.keyOut, scanned.state)

def rangeLookupImpl (fuel : ℕ) (startKey keyOut : Bytes) (state : σ) (t : HeadedTree) : Except Fault (Bytes × σ) := do
  let keyOut ← blit keyOut 0 startKey
  rangeLoop found t fuel (some startKey) startKey.length keyOut state

def rangeLookupDescImpl (t : HeadedTree) : ℕ → Bytes → Bytes → σ → Except Fault (Bytes × σ)
  | 0, _, _, _ => .error .outOfFuel
  | fuel + 1, key, keyOut, state => do
    let leaf ← t.leafFor key
    let scanned ← leaf.rangeLookupDesc found key keyOut state
    if scanned.more then do
      -- `startKeyBuffer` has `maxKVSize` bytes.
      ensure (leaf.getLowerFence.length ≤ maxKVSize) .undefined
      if leaf.getLowerFence.length = 0 then pure (scanned.keyOut, scanned.state)
      else rangeLookupDescImpl t fuel leaf.getLowerFence scanned.keyOut scanned.state
    else pure (scanned.keyOut, scanned.state)

end HeadedTree

end

variable {ℓ : Limits} {lower upper key : Bytes}

namespace HeadedNode

theorem mem_asRow {n m : BTreeNode Bytes} (h : m ∈ asRow n) : m = n := by
  rw [asRow] at h
  split_ifs at h
  · exact List.mem_singleton.mp h
  · exact absurd h List.not_mem_nil

theorem length_asRow_le (n : BTreeNode Bytes) : (asRow n).length ≤ 1 := by
  rw [asRow]
  split_ifs
  · exact le_rfl
  · exact Nat.zero_le _

theorem flatMap_asRow {n : BTreeNode Bytes} (h : n.LeafInv ℓ lower upper) :
    (asRow n).flatMap BTreeNode.entries = n.entries := by
  rw [asRow]
  split_ifs with hroom
  · exact List.flatMap_singleton ..
  · rw [List.flatMap_nil]
    refine (List.eq_nil_iff_forall_not_mem.mpr fun e he => hroom ?_).symm
    rw [h.lowerFence, h.upperFence]
    exact (h.inFences he).hasRoom

theorem routed : (h : ℕ) → {n : HeadedNode h} → {lower upper : Bytes} → Inv ℓ h n lower upper →
    Routed (leafFor h) (leaves h) n lower upper
  | 0, n, lower, upper, hn => by
    have hleaf : BTreeNode.LeafInv ℓ n lower upper := hn
    exact .of_leaf hleaf.lowerFence hleaf.upperFence hleaf.leaf.fences (fun _ => rfl) (fun hroom => if_pos hroom)
      fun hroom => if_neg hroom
  | h + 1, p, lower, upper, ⟨a, hp⟩ => by
    have hP : ∀ c x y, Inv ℓ h c x y → Routed (leafFor h) (leaves h) c x y := fun c x y hc => routed h hc
    have hrow : (AnyInner.children p).flatMap (leaves h) = a.children.flatMap (leaves h) := by
      rw [hp.represents.children]
    constructor
    · change Row lower ((AnyInner.children p).flatMap (leaves h)) upper
      rw [hrow, ← hp.lower, ← hp.upper]
      exact hp.spans.row hP
    · intro key hk
      obtain ⟨i, c, x, y, pre, post, f, -, -, hinner⟩ := hp.focus (lawful ℓ h) hk
      rw [← hp.lower, ← hp.upper] at hk
      obtain ⟨c', before, l, after, hc', hloc, hin, hroute⟩ := hp.spans.located hP hk
      obtain rfl := f.index
      obtain rfl := Option.some.inj (f.child.symm.trans hc')
      refine ⟨before, l, after, ?_, hin, ?_⟩
      · change Located key ((AnyInner.children p).flatMap (leaves h)) before l after
        rwa [hrow]
      · simp only [leafFor, hinner, ok_bind, hroute]

theorem leaves_inv : (h : ℕ) → {n : HeadedNode h} → {lower upper : Bytes} → Inv ℓ h n lower upper →
    ∀ l ∈ leaves h n, l.LeafInv ℓ l.getLowerFence l.getUpperFence
  | 0, n, lower, upper, hn, l, hl => by
    have hleaf : BTreeNode.LeafInv ℓ n lower upper := hn
    obtain rfl := mem_asRow hl
    rw [hleaf.lowerFence, hleaf.upperFence]
    exact hleaf
  | h + 1, p, lower, upper, ⟨a, hp⟩, l, hl => by
    obtain ⟨c, hc, hl⟩ := List.mem_flatMap.mp hl
    rw [hp.represents.children] at hc
    obtain ⟨x, y, hP⟩ := Chain.forall_mem hp.spans c hc
    exact leaves_inv h hP l hl

theorem entries_eq_leaves : (h : ℕ) → {n : HeadedNode h} → {lower upper : Bytes} → Inv ℓ h n lower upper →
    entries h n = (leaves h n).flatMap BTreeNode.entries
  | 0, n, lower, upper, hn => by
    have hleaf : BTreeNode.LeafInv ℓ n lower upper := hn
    exact (flatMap_asRow hleaf).symm
  | h + 1, p, lower, upper, ⟨a, hp⟩ => by
    change (AnyInner.children p).flatMap (entries h) =
      ((AnyInner.children p).flatMap (leaves h)).flatMap BTreeNode.entries
    rw [List.flatMap_assoc]
    apply List.flatMap_congr
    intro c hc
    rw [hp.represents.children] at hc
    obtain ⟨x, y, hP⟩ := Chain.forall_mem hp.spans c hc
    exact entries_eq_leaves h hP

end HeadedNode

namespace HeadedTree
variable {t : HeadedTree} {σ : Type} {found : Callback σ} {keyOut : Bytes} {state : σ}
  {before after : List (BTreeNode Bytes)} {l : BTreeNode Bytes}

theorem Inv.row (h : t.Inv ℓ) : Row [] t.leaves [] := (HeadedNode.routed t.height h).row

theorem Inv.within (h : t.Inv ℓ) : Located.Within BTreeNode.entries t.leaves :=
  fun l hl _ he => (HeadedNode.leaves_inv t.height h l hl).inFences he

theorem Inv.entries_eq (h : t.Inv ℓ) : t.entries = t.leaves.flatMap BTreeNode.entries :=
  HeadedNode.entries_eq_leaves t.height h

theorem Inv.exists_located (h : t.Inv ℓ) (key : Bytes) : ∃ before l after, Located key t.leaves before l after ∧
    InFences l.getLowerFence l.getUpperFence key ∧ t.leafFor key = .ok l :=
  (HeadedNode.routed t.height h).located key (inFences_nil key)

theorem Inv.located_leaf (h : t.Inv ℓ) (hloc : Located key t.leaves before l after) :
    l.LeafInv ℓ l.getLowerFence l.getUpperFence ∧ InFences l.getLowerFence l.getUpperFence key ∧
      t.leafFor key = .ok l := by
  obtain ⟨before', l', after', hloc', hin, hleaf⟩ := h.exists_located key
  obtain ⟨-, rfl, -⟩ := hloc.unique hloc'
  refine ⟨HeadedNode.leaves_inv t.height h l' ?_, hin, hleaf⟩
  rw [← leaves, hloc.eq]
  exact List.mem_append_right _ List.mem_cons_self

theorem rangeLoop_emits (h : t.Inv ℓ) {fuel keyLen : ℕ} {leafKey : Option Bytes}
    (hloc : Located (keyOut.take keyLen) t.leaves before l after)
    (hkey : ∀ k, leafKey = some k → k = keyOut.take keyLen) (hsize : ℓ.key < keyOut.length)
    (hfuel : after.length < fuel) :
    ∃ keyOut', rangeLoop found t fuel leafKey keyLen keyOut state =
      .ok (keyOut', (emit found (entriesUp l.entries leafKey ++ after.flatMap BTreeNode.entries) state).1) := by
  induction fuel generalizing after before l leafKey keyLen keyOut state with
  | zero => exact absurd hfuel (Nat.not_lt_zero _)
  | succ fuel ih =>
    obtain ⟨hinv, hin, hleaf⟩ := h.located_leaf hloc
    have hpre : l.getPrefix <+: keyOut.take keyLen := by
      have hpk := hin.isPrefix
      rwa [← hinv.wf.prefixLen] at hpk
    have hfit : ∀ e ∈ l.entries, e.1.length ≤ keyOut.length := fun e he => (hinv.admits e he).1.trans hsize.le
    have hk : ∀ k, leafKey = some k → InFences l.getLowerFence l.getUpperFence k := fun k hk => hkey k hk ▸ hin
    obtain ⟨scanned, hscanned, hout⟩ := BTreeNode.rangeLookup_handsOut found state hinv.wf hk
      (Begins.of_isPrefix (hpre.trans (List.take_prefix _ _))) hfit
    rw [rangeLoop, hleaf, ok_bind, hscanned, ok_bind, emit_append, ← hout.state_eq, ← hout.more_eq]
    cases hm : scanned.more with
    | false => exact ⟨scanned.keyOut, by rw [hout.state_eq]; rfl⟩
    | true =>
      have hbegins := hout.begins
      have hpl := hinv.wf.prefixLength_le_upper
      rw [BTreeNode.getPrefix, hinv.wf.prefixLen, take_commonPrefix_eq, ← hinv.wf.prefixLen] at hbegins
      obtain ⟨k₁, k, hk₁, hk, hlen, hfence⟩ := hbegins.fence hpl (hinv.upper_len.trans_lt hsize)
      rw [if_pos rfl, if_pos rfl, hk₁, ok_bind, hk, ok_bind]
      cases after with
      | nil =>
        have hlast : l.getUpperFence = [] := (hloc.after_nil_iff h.row).mp rfl
        exact ⟨k, by rw [if_pos (by rw [hlast]; rfl)]; rfl⟩
      | cons l' after =>
        have hne : l.getUpperFence ≠ [] := fun hnil =>
          absurd ((hloc.after_nil_iff h.row).mpr hnil) (List.cons_ne_nil _ _)
        have htake : k.take (l.getUpperFence.length + 1) = l.getUpperFence ++ [0] := by
          have ht := List.prefix_iff_eq_take.mp hfence
          rw [List.length_append, List.length_singleton] at ht
          exact ht.symm
        have hnext : Located (k.take (l.getUpperFence.length + 1)) t.leaves (before ++ [l]) l' after := by
          rw [htake]
          exact hloc.next h.row
        rw [if_neg (by simpa using hne)]
        exact ih hnext (fun k hk => absurd hk.symm (Option.some_ne_none k)) (hlen ▸ hsize)
          (Nat.lt_of_succ_lt_succ hfuel)

variable (found state) in
theorem rangeLookupImpl_emits (h : t.Inv ℓ) {startKey : Bytes} (hstart : startKey.length ≤ keyOut.length)
    (hsize : ℓ.key < keyOut.length) {fuel : ℕ} (hfuel : t.leaves.length ≤ fuel) :
    ∃ keyOut', rangeLookupImpl found fuel startKey keyOut state t =
      .ok (keyOut', (emit found (t.entries.filter fun e => decide (startKey ≤ e.1)) state).1) := by
  obtain ⟨before, l, after, hloc, -, -⟩ := h.exists_located startKey
  have hroom : 0 + startKey.length ≤ keyOut.length := by omega
  have hk := blit_eq_ok.mpr ⟨hroom, rfl⟩
  have htake := take_blit hroom
  rw [List.take_zero, List.nil_append, Nat.zero_add] at htake hk
  have hlt : after.length < fuel := by
    have hl := congrArg List.length hloc.eq
    rw [List.length_append, List.length_cons] at hl
    omega
  rw [rangeLookupImpl, hk, ok_bind, h.entries_eq, hloc.filter_ge h.row h.within]
  rw [← htake] at hloc
  apply rangeLoop_emits h hloc
  · exact fun k hk' => (Option.some.inj hk').symm.trans htake.symm
  · rwa [length_blit hk]
  · exact hlt

variable (found state) in
theorem rangeLookupDesc_leaf (h : t.Inv ℓ) (hloc : Located key t.leaves before l after)
    (hsize : ℓ.key ≤ keyOut.length) :
    ∃ scanned, t.leafFor key = .ok l ∧ l.rangeLookupDesc found key keyOut state = .ok scanned ∧
      scanned.keyOut.length = keyOut.length ∧
      scanned.state = (emit found (l.entries.filter fun e => decide (e.1 ≤ key)).reverse state).1 ∧
      scanned.more = (emit found (l.entries.filter fun e => decide (e.1 ≤ key)).reverse state).2 ∧
      l.getLowerFence.length ≤ maxKVSize := by
  obtain ⟨hinv, hin, hleaf⟩ := h.located_leaf hloc
  have hp : l.prefixLength ≤ keyOut.length := by
    rw [hinv.wf.prefixLen]
    exact ((commonPrefixLength_le_left _ _).trans hinv.lower_len).trans hsize
  have hfit : ∀ e ∈ l.entries, e.1.length ≤ keyOut.length := fun e he => (hinv.admits e he).1.trans hsize
  obtain ⟨scanned, hscanned, hout⟩ := BTreeNode.rangeLookupDesc_handsOut found state hinv.wf hin hp hfit
  exact ⟨scanned, hleaf, hscanned, hout.begins.length, hout.state_eq, hout.more_eq,
    hinv.lower_len.trans ℓ.key_le_max⟩

theorem rangeLoopDesc_emits (h : t.Inv ℓ) (hloc : Located key t.leaves before l after)
    (hsize : ℓ.key ≤ keyOut.length) {fuel : ℕ} (hfuel : before.length < fuel) :
    ∃ keyOut', rangeLookupDescImpl found t fuel key keyOut state =
      .ok (keyOut', (emit found (before.flatMap BTreeNode.entries ++
        l.entries.filter fun e => decide (e.1 ≤ key)).reverse state).1) := by
  induction before using List.reverseRecOn generalizing l after key keyOut state fuel with
  | nil =>
    obtain ⟨fuel, rfl⟩ := Nat.exists_eq_succ_of_ne_zero (Nat.ne_of_gt hfuel)
    obtain ⟨scanned, hleaf, hscanned, -, hstate, -, hlow⟩ := rangeLookupDesc_leaf found state h hloc hsize
    have hfirst : l.getLowerFence = [] := (hloc.before_nil_iff h.row).mp rfl
    rw [rangeLookupDescImpl, hleaf, ok_bind, hscanned, ok_bind, List.flatMap_nil, List.nil_append, ← hstate]
    refine ⟨scanned.keyOut, ?_⟩
    cases scanned.more with
    | false => rfl
    | true =>
      rw [if_pos rfl, ensure_of hlow, ok_bind, hfirst]
      rfl
  | append_singleton before l' ih =>
    obtain ⟨fuel, rfl⟩ := Nat.exists_eq_succ_of_ne_zero (Nat.ne_zero_of_lt hfuel)
    obtain ⟨scanned, hleaf, hscanned, hlen, hstate, hmore, hlow⟩ := rangeLookupDesc_leaf found state h hloc hsize
    have hne : l.getLowerFence ≠ [] := fun hnil =>
      absurd ((hloc.before_nil_iff h.row).mpr hnil) (List.append_ne_nil_of_right_ne_nil _ (List.cons_ne_nil _ _))
    rw [rangeLookupDescImpl, hleaf, ok_bind, hscanned, ok_bind, List.reverse_append, emit_append, ← hstate, ← hmore]
    cases hm : scanned.more with
    | false => exact ⟨scanned.keyOut, by rw [hstate]; rfl⟩
    | true =>
      have hprev : Located l.getLowerFence t.leaves before l' (l :: after) := hloc.prev h.row
      have hall : (l'.entries.filter fun e => decide (e.1 ≤ l.getLowerFence)) = l'.entries :=
        hloc.filter_prev h.row h.within
      rw [List.length_append, List.length_singleton] at hfuel
      have hsize' : ℓ.key ≤ scanned.keyOut.length := hlen ▸ hsize
      obtain ⟨keyOut', hrun⟩ := ih hprev hsize' (Nat.lt_of_succ_lt_succ hfuel)
      refine ⟨keyOut', ?_⟩
      rw [if_pos rfl, ensure_of hlow, ok_bind, if_neg (mt List.length_eq_zero_iff.mp hne), hrun, hall, if_pos rfl,
        List.flatMap_append, List.flatMap_singleton]

variable (found state) in
theorem rangeLookupDescImpl_emits (h : t.Inv ℓ) (key : Bytes) (hsize : ℓ.key ≤ keyOut.length) {fuel : ℕ}
    (hfuel : t.leaves.length ≤ fuel) :
    ∃ keyOut', rangeLookupDescImpl found t fuel key keyOut state =
      .ok (keyOut', (emit found (t.entries.filter fun e => decide (e.1 ≤ key)).reverse state).1) := by
  obtain ⟨before, l, after, hloc, -, -⟩ := h.exists_located key
  have hlt : before.length < fuel := by
    have hl := congrArg List.length hloc.eq
    rw [List.length_append, List.length_cons] at hl
    omega
  rw [h.entries_eq, hloc.filter_le h.row h.within]
  exact rangeLoopDesc_emits h hloc hsize hlt

end HeadedTree

end BtreeRedis
