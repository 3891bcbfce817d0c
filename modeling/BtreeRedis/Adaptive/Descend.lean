import BtreeRedis.Adaptive.Scan

/-!
# Descending scans of a tree with adaptive leaves

In every leaf the prefix of the search key is put into the buffer and the slots are gone
through backwards from the lower bound. The lower fence of the leaf is the next search key:
it is above every key of the leaf before and may be one of its keys, but is none of this one's.
-/

namespace BtreeRedis

open LexOrder SortedAssoc Outcome

section
variable {σ : Type} (found : Callback σ)

def scanDown (prefixLength : ℕ) (es : List (Bytes × Bytes)) : ℕ → Bytes → σ → Except Fault (Scanned σ)
  | 0, keyOut, state => .ok ⟨true, keyOut, state⟩
  | i + 1, keyOut, state =>
    match es[i]? with
    | none => .error .undefined
    | some e => do
      let keyOut ← blit keyOut prefixLength e.1
      match found state (keyOut.take (e.1.length + prefixLength)) e.2 with
      | (state, true) => scanDown prefixLength es i keyOut state
      | (state, false) => pure ⟨false, keyOut, state⟩

def copyPrefix (prefixLength : ℕ) (key keyOut : Bytes) : Except Fault Bytes := do
  ensure (prefixLength ≤ key.length) .undefined
  blit keyOut 0 (key.take prefixLength)

/-- How many slots lie up to `lb`, whose own key is met only where it was found. -/
def slotsUpTo (lb : ℕ) (equal : Bool) : ℕ := if equal then lb + 1 else lb

def BTreeNode.rangeLookupDesc (n : BTreeNode Bytes) (key keyOut : Bytes) (state : σ) :
    Except Fault (Scanned σ) := do
  let keyOut ← copyPrefix n.prefixLength key keyOut
  let (lb, equal) ← n.lowerBound key
  scanDown found n.prefixLength n.content (slotsUpTo lb equal) keyOut state

variable [KeyHash]

def HashNode.rangeLookupDesc (n : HashNode) (key keyOut : Bytes) (state : σ) :
    Except Fault (Scanned σ × HashNode) := do
  let n ← n.sort
  let keyOut ← copyPrefix n.prefixLength key keyOut
  let (lb, equal) ← n.lowerBound key
  let scanned ← scanDown found n.prefixLength n.content (slotsUpTo lb equal) keyOut state
  pure (scanned, n)

namespace AdaptiveLeaf

def rangeLookupDesc (l : AdaptiveLeaf) (key keyOut : Bytes) (state : σ) : Except Fault (Scanned σ × AdaptiveLeaf) :=
  match l with
  | .basic roc n => do
    let scanned ← n.rangeLookupDesc found key keyOut state
    pure (scanned, .basic roc n)
  | .hash n => do
    let (scanned, n) ← n.rangeLookupDesc found key keyOut state
    pure (scanned, .hash n)

def visitDesc (key keyOut : Bytes) (state : σ) (l : AdaptiveLeaf) :
    Except Fault ((Scanned σ × Bytes) × AdaptiveLeaf) := do
  let (scanned, l) ← l.rangeLookupDesc found key keyOut state
  pure ((scanned, l.lowerFence), l)

end AdaptiveLeaf

namespace AdaptiveTree

def rangeLoopDesc (c : Config) : ℕ → Bytes → Bytes → σ → AdaptiveTree → Except Fault (Bytes × σ × AdaptiveTree)
  | 0, _, _, _, _ => .error .outOfFuel
  | fuel + 1, key, keyOut, state, t => do
    let ((scanned, lowerFence), t) ← t.onLeaf c (AdaptiveLeaf.visitDesc found key keyOut state) key
    if scanned.more then do
      -- `startKeyBuffer` has `maxKVSize` bytes.
      ensure (lowerFence.length ≤ maxKVSize) .undefined
      if lowerFence.length = 0 then pure (scanned.keyOut, scanned.state, t)
      else rangeLoopDesc c fuel lowerFence scanned.keyOut scanned.state t
    else pure (scanned.keyOut, scanned.state, t)

def rangeLookupDescImpl (c : Config) (fuel : ℕ) (key keyOut : Bytes) (state : σ) (t : AdaptiveTree) :
    Except Fault (Bytes × σ × AdaptiveTree) :=
  rangeLoopDesc found c fuel key keyOut state t

end AdaptiveTree

end

variable {σ : Type} {found : Callback σ} {keyOut : Bytes} {state : σ} {size : ℕ}

theorem scanDown_eq (p : ℕ) (es : List (Bytes × Bytes)) {i : ℕ} (hi : i ≤ es.length) (keyOut : Bytes) (state : σ) :
    scanDown found p es i keyOut state = scanEntries found p (es.take i).reverse keyOut state := by
  induction i generalizing keyOut state with
  | zero => rfl
  | succ i ih =>
    have hlt : i < es.length := hi
    have htake : (es.take (i + 1)).reverse = es[i] :: (es.take i).reverse := by
      rw [List.take_succ_eq_append_getElem hlt, List.reverse_append]
      rfl
    rw [htake, scanDown, scanEntries, List.getElem?_eq_getElem hlt]
    dsimp only
    cases blit keyOut p es[i].1 with
    | error e => rfl
    | ok k =>
      rw [ok_bind, ok_bind]
      cases found state (k.take (es[i].1.length + p)) es[i].2 with
      | mk state' more =>
        cases more with
        | true => exact ih hlt.le k state'
        | false => rfl

theorem copyPrefix_begins {p : ℕ} {pre key : Bytes} (hpre : pre <+: key) (hp : pre.length = p)
    (hlen : p ≤ keyOut.length) : ∃ k, copyPrefix p key keyOut = .ok k ∧ Begins keyOut.length pre k := by
  have htake : key.take p = pre := by
    rw [← hp]
    exact (List.prefix_iff_eq_take.mp hpre).symm
  have hroom : 0 + pre.length ≤ keyOut.length := by omega
  have hk := blit_eq_ok.mpr ⟨hroom, rfl⟩
  have hbegin := take_blit hroom
  rw [List.take_zero, List.nil_append, Nat.zero_add] at hk hbegin
  refine ⟨_, ?_, length_blit hk, hbegin⟩
  rw [copyPrefix, ensure_of (hp ▸ hpre.length_le), ok_bind, htake, hk]

theorem take_slotsUpTo {es : List (Bytes × Bytes)} (hs : Ascending (keys es)) (key : Bytes) :
    slotsUpTo (lowerIndex (keys es) key) (decide (key ∈ keys es)) ≤ es.length ∧
      es.take (slotsUpTo (lowerIndex (keys es) key) (decide (key ∈ keys es))) =
        es.filter fun e => decide (e.1 ≤ key) := by
  have hlen : (keys es).length = es.length := List.length_map _
  by_cases hm : key ∈ keys es
  · obtain ⟨hlt, -⟩ := List.getElem?_eq_some_iff.mp (getElem?_lowerIndex hs hm)
    rw [decide_eq_true hm, slotsUpTo, if_pos rfl, filter_le_eq_take_succ hs hm]
    exact ⟨hlt.trans_eq hlen, rfl⟩
  · rw [decide_eq_false hm, slotsUpTo, if_neg Bool.false_ne_true, filter_le_eq_take hs hm]
    exact ⟨(lowerIndex_le_length _ _).trans_eq hlen, rfl⟩

variable (found state) in
theorem scanDown_handsOut (key : Bytes) {pre k : Bytes} {content es : List (Bytes × Bytes)}
    (hes : es = content.map fun e => (pre ++ e.1, e.2)) (hs : Ascending (keys es)) (hb : Begins size pre k)
    (hfit : ∀ e ∈ es, e.1.length ≤ size) :
    ∃ r, scanDown found pre.length content (slotsUpTo (lowerIndex (keys es) key) (decide (key ∈ keys es))) k state =
        .ok r ∧ HandsOut found size pre (es.filter fun e => decide (e.1 ≤ key)).reverse state r := by
  obtain ⟨hle, htake⟩ := take_slotsUpTo hs key
  obtain ⟨i, hi⟩ : ∃ i, i = slotsUpTo (lowerIndex (keys es) key) (decide (key ∈ keys es)) := ⟨_, rfl⟩
  rw [← hi] at hle htake ⊢
  have hlen : es.length = content.length := by rw [hes, List.length_map]
  have hfits : ∀ e ∈ (content.take i).reverse, pre.length + e.1.length ≤ size := by
    intro e he
    have hm : (pre ++ e.1, e.2) ∈ es := by
      rw [hes]
      exact List.mem_map_of_mem (List.mem_of_mem_take (List.mem_reverse.mp he))
    rw [← List.length_append]
    exact hfit _ hm
  have hmap : (es.filter fun e => decide (e.1 ≤ key)).reverse =
      (content.take i).reverse.map fun e => (pre ++ e.1, e.2) := by
    rw [← htake, hes, List.map_reverse, List.map_take]
  rw [scanDown_eq _ _ (hle.trans_eq hlen), hmap]
  exact scanEntries_handsOut found state _ hb hfits

variable (found state) in
theorem BTreeNode.rangeLookupDesc_handsOut {n : BTreeNode Bytes} (hn : n.WF) {key : Bytes}
    (hk : InFences n.getLowerFence n.getUpperFence key) (hp : n.prefixLength ≤ keyOut.length)
    (hfit : ∀ e ∈ n.entries, e.1.length ≤ keyOut.length) :
    ∃ r, n.rangeLookupDesc found key keyOut state = .ok r ∧
      HandsOut found keyOut.length n.getPrefix (n.entries.filter fun e => decide (e.1 ≤ key)).reverse state r := by
  have hlen := hn.length_getPrefix
  have hpre : n.getPrefix <+: key := by
    have hin := hk.isPrefix
    rwa [← hn.prefixLen] at hin
  obtain ⟨k, hcopy, hb⟩ := copyPrefix_begins hpre hlen hp
  have hes : n.entries = n.content.map fun e => (n.getPrefix ++ e.1, e.2) := rfl
  obtain ⟨r, hr, hout⟩ := scanDown_handsOut found state key hes hn.sorted_entries hb hfit
  refine ⟨r, ?_, hout⟩
  rw [rangeLookupDesc, hcopy, ok_bind, lowerBound_spec hn hk, ok_bind, ← hlen]
  exact hr

variable [KeyHash] {c : Config} {lower upper key : Bytes}

variable (found state) in
theorem HashNode.rangeLookupDesc_handsOut {n : HashNode} (hn : n.WF) (hk : InFences n.lowerFence n.upperFence key)
    (hp : n.prefixLength ≤ keyOut.length) (hfit : ∀ e ∈ n.entries, e.1.length ≤ keyOut.length) :
    ∃ r m, n.rangeLookupDesc found key keyOut state = .ok (r, m) ∧ Resorted n m ∧
      HandsOut found keyOut.length n.getPrefix (n.entries.filter fun e => decide (e.1 ≤ key)).reverse state r := by
  obtain ⟨m, hm, hr⟩ := sort_spec hn
  have hw := hr.wf
  have hlen := hw.length_getPrefix
  have hkm : InFences m.lowerFence m.upperFence key := by rwa [hr.lower, hr.upper]
  have hpre : m.getPrefix <+: key := by
    have hin := hkm.isPrefix
    rwa [← hw.prefixLen] at hin
  have hsame : m.getPrefix = n.getPrefix := by rw [getPrefix, getPrefix, hr.lower, hr.prefixLength]
  obtain ⟨k, hcopy, hb⟩ := copyPrefix_begins hpre hlen (hr.prefixLength ▸ hp)
  have hes : m.entries = m.content.map fun e => (m.getPrefix ++ e.1, e.2) :=
    (restored_of_sorted hw.toKeyed hr.sortedCount).symm
  obtain ⟨r, hres, hout⟩ := scanDown_handsOut found state key hes hw.ascending_entries hb
    (by rw [hr.entries]; exact hfit)
  rw [hr.entries, hsame] at hout
  refine ⟨r, m, ?_, hr, hout⟩
  rw [rangeLookupDesc, hm, ok_bind, hcopy, ok_bind, lowerBound_spec hw hr.sortedCount hkm, ok_bind, ← hlen]
  dsimp only
  rw [hres]
  rfl

namespace AdaptiveLeaf
variable {l : AdaptiveLeaf}

variable (found state) in
theorem rangeLookupDesc_handsOut (h : Inv c l lower upper) (hk : InFences lower upper key)
    (hp : l.prefixLength ≤ keyOut.length) (hfit : ∀ e ∈ l.entries, e.1.length ≤ keyOut.length) :
    ∃ r l', l.rangeLookupDesc found key keyOut state = .ok (r, l') ∧
      HandsOut found keyOut.length l.commonPrefix (l.entries.filter fun e => decide (e.1 ≤ key)).reverse state r ∧
      Kept c l l' lower upper := by
  rw [← h.lowerFence, ← h.upperFence] at hk
  cases l with
  | basic roc n =>
    obtain ⟨r, hr, hout⟩ := BTreeNode.rangeLookupDesc_handsOut found state h.wf.1 hk hp hfit
    exact ⟨r, .basic roc n, by rw [rangeLookupDesc, hr]; rfl, hout, h.kept⟩
  | hash n =>
    obtain ⟨r, m, hr, hres, hout⟩ := HashNode.rangeLookupDesc_handsOut found state h.wf hk hp hfit
    exact ⟨r, .hash m, by rw [rangeLookupDesc, hr]; rfl, hout, h.resorted hres⟩

variable (found state) in
theorem visitDesc_handsOut (h : Inv c l lower upper) (hk : InFences lower upper key)
    (hp : l.prefixLength ≤ keyOut.length) (hfit : ∀ e ∈ l.entries, e.1.length ≤ keyOut.length) :
    ∃ res, visitDesc found key keyOut state l = .ok res ∧ HandsOut found keyOut.length l.commonPrefix
      (l.entries.filter fun e => decide (e.1 ≤ key)).reverse state res.1.1 ∧ res.1.2 = lower ∧
      Kept c l res.2 lower upper := by
  obtain ⟨r, l', hr, hout, hkept⟩ := rangeLookupDesc_handsOut found state h hk hp hfit
  exact ⟨((r, l'.lowerFence), l'), by rw [visitDesc, hr]; rfl, hout, hkept.inv.lowerFence, hkept⟩

end AdaptiveLeaf

namespace AdaptiveTree
variable {t : AdaptiveTree}

/-- A buffer of this size takes the keys of the tree and what the keys of a leaf have in common, which may be
longer in a leaf without entries. -/
structure KeyOutHolds (size : ℕ) (t : AdaptiveTree) : Prop where
  entries : ∀ e ∈ t.entries, e.1.length ≤ size
  prefixes : ∀ s ∈ t.shapes, commonPrefixLength s.lower s.upper ≤ size

theorem KeyOutHolds.of_shapes {t' : AdaptiveTree} (h : t.KeyOutHolds size) (ht : t.Inv c) (ht' : t'.Inv c)
    (hs : t'.shapes = t.shapes) : t'.KeyOutHolds size := by
  refine ⟨?_, ?_⟩
  · rw [ht'.entries_eq, hs, ← ht.entries_eq]
    exact h.entries
  · rw [hs]
    exact h.prefixes

variable (found state) in
theorem visitDesc_leaf (h : t.Inv c) {before after : List LeafShape} {s : LeafShape}
    (hloc : Located key t.shapes before s after) (hholds : t.KeyOutHolds keyOut.length) :
    ∃ scanned t', t.onLeaf c (AdaptiveLeaf.visitDesc found key keyOut state) key = .ok ((scanned, s.lower), t') ∧
      scanned.keyOut.length = keyOut.length ∧
      scanned.state = (emit found (s.entries.filter fun e => decide (e.1 ≤ key)).reverse state).1 ∧
      scanned.more = (emit found (s.entries.filter fun e => decide (e.1 ≤ key)).reverse state).2 ∧
      s.lower.length ≤ maxKVSize ∧ t'.Inv c ∧ t'.shapes = t.shapes := by
  obtain ⟨l, before', after', hloc', hinv, hin, hyields⟩ :=
    h.onLeaf (AdaptiveLeaf.visitDesc found key keyOut state) key
  obtain ⟨-, rfl, -⟩ := hloc.unique hloc'
  have hmem : l.shape ∈ t.shapes := by
    rw [hloc.eq]
    exact List.mem_append_right _ List.mem_cons_self
  have hp : l.prefixLength ≤ keyOut.length := by
    rw [hinv.prefixLength_eq]
    exact hholds.prefixes _ hmem
  have hsub : ∀ e ∈ l.entries, e.1.length ≤ keyOut.length := by
    intro e he
    apply hholds.entries e
    rw [h.entries_eq]
    exact List.mem_flatMap.mpr ⟨l.shape, hmem, he⟩
  obtain ⟨res, hres, hout, hlow, hkept⟩ :=
    AdaptiveLeaf.visitDesc_handsOut found state hinv hin hp hsub
  have hyield := hyields (fun _ => False) (fun w => w = res.1) (Yields.of_ok hres ⟨rfl, hkept⟩)
  obtain ⟨r, hr, hfst, ht', hs⟩ := hyield.exists_ok fun _ hf => hf
  refine ⟨res.1.1, r.2, ?_, hout.begins.length, hout.state_eq, hout.more_eq, hinv.lower_len, ht', hs⟩
  change _ = Except.ok ((res.1.1, l.lowerFence), r.2)
  rw [hr, ← hlow, ← Prod.eta r, hfst]

theorem rangeLoopDesc_emits {before after : List LeafShape} {s : LeafShape} (h : t.Inv c)
    (hloc : Located key t.shapes before s after) (hholds : t.KeyOutHolds keyOut.length) {fuel : ℕ}
    (hfuel : before.length < fuel) :
    ∃ keyOut' t', rangeLoopDesc found c fuel key keyOut state t =
        .ok (keyOut', (emit found (before.flatMap LeafShape.entries ++
          s.entries.filter fun e => decide (e.1 ≤ key)).reverse state).1, t') ∧ t'.Inv c ∧ t'.shapes = t.shapes := by
  induction before using List.reverseRecOn generalizing s after key keyOut state t fuel with
  | nil =>
    obtain ⟨fuel, rfl⟩ := Nat.exists_eq_succ_of_ne_zero (Nat.ne_of_gt hfuel)
    obtain ⟨scanned, t', hvisit, -, hstate, -, hlow, ht', hs⟩ := visitDesc_leaf found state h
      hloc hholds
    have hfirst : s.lower = [] := (hloc.before_nil_iff h.row).mp rfl
    rw [rangeLoopDesc, hvisit, ok_bind, List.flatMap_nil, List.nil_append, ← hstate]
    dsimp only
    cases hm : scanned.more with
    | false => exact ⟨scanned.keyOut, t', rfl, ht', hs⟩
    | true =>
      refine ⟨scanned.keyOut, t', ?_, ht', hs⟩
      rw [if_pos rfl, ensure_of hlow, ok_bind, hfirst]
      rfl
  | append_singleton before s' ih =>
    obtain ⟨fuel, rfl⟩ := Nat.exists_eq_succ_of_ne_zero (Nat.ne_zero_of_lt hfuel)
    obtain ⟨scanned, t', hvisit, hsize, hstate, hmore, hlow, ht', hs⟩ :=
      visitDesc_leaf found state h hloc hholds
    have hne : s.lower ≠ [] := fun hnil =>
      absurd ((hloc.before_nil_iff h.row).mpr hnil) (List.append_ne_nil_of_right_ne_nil _ (List.cons_ne_nil _ _))
    rw [rangeLoopDesc, hvisit, ok_bind, List.reverse_append, emit_append, ← hstate, ← hmore]
    dsimp only
    cases hm : scanned.more with
    | false => exact ⟨scanned.keyOut, t', by rw [hstate]; rfl, ht', hs⟩
    | true =>
      have hprev : Located s.lower t'.shapes before s' (s :: after) := by
        rw [hs]
        exact hloc.prev h.row
      -- The lower fence bounds the leaf before from above, so none of its entries is left out.
      have hall : (s'.entries.filter fun e => decide (e.1 ≤ s.lower)) = s'.entries := by
        have hrow := h.row
        rw [hloc.eq, List.append_assoc] at hrow
        obtain ⟨hfence, hupper, -⟩ := hrow.adjacent
        apply List.filter_eq_self.mpr
        intro e he
        have hin := h.within s' (by rw [hloc.eq]; simp) e he
        rw [show s.lower = s'.upper from hfence]
        exact decide_eq_true (hin.2.resolve_left hupper)
      have hholds' : t'.KeyOutHolds scanned.keyOut.length := by
        rw [hsize]
        exact hholds.of_shapes h ht' hs
      rw [List.length_append, List.length_singleton] at hfuel
      obtain ⟨keyOut', t'', hrun, ht'', hs''⟩ := @ih scanned.keyOut scanned.state s.lower t' (s :: after) s' ht' hprev
        hholds' fuel (Nat.lt_of_succ_lt_succ hfuel)
      refine ⟨keyOut', t'', ?_, ht'', hs''.trans hs⟩
      rw [hall] at hrun
      rw [if_pos rfl, ensure_of hlow, ok_bind, if_neg (mt List.length_eq_zero_iff.mp hne), hrun, if_pos rfl,
        List.flatMap_append, List.flatMap_singleton]

theorem rangeLookupDescImpl_emits (h : t.Inv c) (key : Bytes) (hholds : t.KeyOutHolds keyOut.length) {fuel : ℕ}
    (hfuel : t.shapes.length ≤ fuel) :
    ∃ keyOut' t', rangeLookupDescImpl found c fuel key keyOut state t =
        .ok (keyOut', (emit found (t.entries.filter fun e => decide (e.1 ≤ key)).reverse state).1, t') ∧ t'.Inv c ∧
      t'.shapes = t.shapes := by
  obtain ⟨l, before, after, hloc, -, -, -⟩ := h.onLeaf (fun l => .ok ((), l)) key
  have hlt : before.length < fuel := by
    have hl := congrArg List.length hloc.eq
    rw [List.length_append, List.length_cons] at hl
    omega
  rw [rangeLookupDescImpl, h.entries_eq, hloc.filter_le h.row h.within]
  exact rangeLoopDesc_emits h hloc hholds hlt

end AdaptiveTree

end BtreeRedis
