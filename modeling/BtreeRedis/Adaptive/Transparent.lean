import BtreeRedis.Adaptive.Runs
import BtreeRedis.Hash.AsMap

/-!
# What adaptive leaves do not show

A run on a tree with adaptive leaves answers as the same run on the ascending list of its
entries does. So no answer tells what the random numbers have made of the leaves, or where
these were split.
-/

namespace BtreeRedis

open LexOrder SortedAssoc Outcome Machine

section
variable [KeyHash] {c c' : Config} {lower upper : Bytes}

def TreeCall.onMap : TreeCall → List (Bytes × Bytes) → Except Fault (TreeAnswer × List (Bytes × Bytes))
  | .lookup key, m => .ok (.found (m.lookup key), m)
  | .insert key payload, m => .ok (.inserted, store key payload m)
  | .remove key, m => .ok (.removed (decide (key ∈ keys m)), erase key m)
  | .rangeLookup startKey _ goOn, m =>
    .ok (.scanned (emit (recording goOn) (m.filter fun e => decide (startKey ≤ e.1)) []).1, m)

namespace AdaptiveLeaf
variable {l : AdaptiveLeaf}

/-- What becomes of a leaf that changes its kind, in place or as it is split: the fences and the pairs stay, and
with them the invariant that the later calls rest on. -/
structure Transparent (c : Config) (l : AdaptiveLeaf) : Prop where
  tryConvertToHash : ∀ roc n roc' m, l = .basic roc n → n.tryConvertToHash roc' = .ok (some m) →
    Kept c l (.hash m) l.lowerFence l.upperFence
  tryConvertToBasic : ∀ n roc m, l = .hash n → n.tryConvertToBasic = .ok (some m) →
    Kept c l (.basic roc m) l.lowerFence l.upperFence
  splitToHash : ∀ roc n roc' info sep left right, l = .basic roc n → n.findSeparator = .ok info →
    n.getSep info = .ok sep → n.splitToHash roc' info.slot sep = .ok (left, right) →
    Parted c l l.lowerFence l.upperFence sep info.slot (.hash left, .hash right)
  splitToBasic : ∀ n m roc info sep left right, l = .hash n → n.sort = .ok m → m.findSeparator = .ok info →
    m.getSep info = .ok sep → m.splitToBasic info.slot sep = .ok (left, right) →
    Parted c l l.lowerFence l.upperFence sep info.slot (.basic roc left, .basic roc right)

theorem splitToHash_parted {roc roc' : RangeOpCounter} {n : BTreeNode Bytes} (h : Inv c (.basic roc n) lower upper)
    (hc : c.enableHash = true) {info : SeparatorInfo} {sep : Bytes} {left right : HashNode}
    (hinfo : n.findSeparator = .ok info) (hsep : n.getSep info = .ok sep)
    (hsplit : n.splitToHash roc' info.slot sep = .ok (left, right)) :
    Parted c (.basic roc n) lower upper sep info.slot (.hash left, .hash right) := by
  have hw := h.wf.1
  have hlow : n.getLowerFence = lower := h.lowerFence
  have hupp : n.getUpperFence = upper := h.upperFence
  rw [BTreeNode.findSeparator, if_pos h.wf.2] at hinfo
  obtain ⟨t, hf⟩ := (BTreeNode.findSeparatorLeaf_contained hw.toOrdered).of_eq_ok hinfo
  obtain rfl := Except.ok.inj (hf.getSep.symm.trans hsep)
  have hlen := length_sep_le h hf.law
  have hhalves := (BTreeNode.splitToHash_contained hw roc' hf.law (hlow ▸ h.lower_len) hlen
    (hupp ▸ h.upper_len)).of_eq_ok hsplit
  rw [hlow, hupp] at hhalves
  exact Parted.hash h hlen hc hhalves.1 hhalves.2

theorem splitToBasic_parted {n : HashNode} (h : Inv c (.hash n) lower upper) (hs : n.sortedCount = n.count)
    (hc : c.enableHashAdapt = true) {info : SeparatorInfo} {sep : Bytes} {left right : BTreeNode Bytes}
    (hinfo : n.findSeparator = .ok info) (hsep : n.getSep info = .ok sep)
    (hsplit : n.splitToBasic info.slot sep = .ok (left, right)) (roc : RangeOpCounter) :
    Parted c (.hash n) lower upper sep info.slot (.basic roc left, .basic roc right) := by
  have hw : n.WF := h.wf
  have hlow : n.lowerFence = lower := h.lowerFence
  have hupp : n.upperFence = upper := h.upperFence
  obtain ⟨sep', hsep', hlaw⟩ := (HashNode.findSeparator_contained hw hs).of_eq_ok hinfo
  obtain rfl := Except.ok.inj (hsep'.symm.trans hsep)
  have hlen := length_sep_le h (HashNode.restored_of_sorted hw.toKeyed hs ▸ hlaw)
  obtain ⟨-, hleft, hright⟩ := (HashNode.splitToBasic_contained hw hs hlaw).of_eq_ok hsplit
  rw [hlow] at hleft
  rw [hupp] at hright
  exact Parted.basic h hlen (fun _ => hc) hleft hright roc

theorem Inv.transparent (h : Inv c l lower upper) (hc : c.enableHashAdapt = true) : l.Transparent c := by
  obtain rfl := h.lowerFence
  obtain rfl := h.upperFence
  have hhash := c.hash_of_adapt hc
  constructor
  · rintro roc n roc' m rfl hm
    have hholds := (BTreeNode.tryConvertToHash_contained h.wf.1 roc' h.lower_len h.upper_len).of_eq_ok hm m rfl
    have hes := hholds.entries.trans (sortByKey_eq_self h.sorted_entries)
    exact ⟨Inv.of_holds hholds hhash h.lower_len h.upper_len h.entry_len, hes⟩
  · rintro n roc m rfl hm
    obtain ⟨res, hres, hkept⟩ := convert_kept h hc roc
    exact hkept m (Except.ok.inj (hres.symm.trans hm))
  · rintro roc n roc' info sep left right rfl hinfo hsep hsplit
    exact splitToHash_parted h hhash hinfo hsep hsplit
  · rintro n m roc info sep left right rfl hm hinfo hsep hsplit
    obtain ⟨m', hm', hr⟩ := HashNode.sort_spec h.wf
    obtain rfl := Except.ok.inj (hm'.symm.trans hm)
    have hkept := h.resorted hr
    have hparted := splitToBasic_parted hkept.inv hr.sortedCount hc hinfo hsep hsplit roc
    have hent : (AdaptiveLeaf.hash m').entries = (AdaptiveLeaf.hash n).entries := hkept.entries
    refine ⟨hparted.left, ?_, hparted.right, ?_⟩
    · rw [hparted.left_entries, hent]
    · rw [hparted.right_entries, hent]

end AdaptiveLeaf

namespace AdaptiveTree
variable {t t' : AdaptiveTree} {fuel fuel' : ℕ} {draws draws' : Draws} {s s' : AdaptiveTree × Draws}

theorem step_onMap {call : TreeCall} {answer : TreeAnswer} (h : s.1.Inv c)
    (hr : call.step c fuel s = .ok (answer, s')) :
    call.onMap s.1.entries = .ok (answer, s'.1.entries) ∧ s'.1.Inv c := by
  obtain ⟨t, draws⟩ := s
  cases call with
  | lookup key =>
    obtain ⟨⟨payload, draws', t'⟩, hlookup, hr⟩ := bind_eq_ok.mp hr
    obtain ⟨rfl, rfl⟩ := Prod.mk.inj (Except.ok.inj hr)
    obtain ⟨hpayload, hinv, hs⟩ := (lookupImpl_contained h key draws).of_eq_ok hlookup
    refine ⟨?_, hinv⟩
    rw [TreeCall.onMap, entries_of_shapes h hinv hs, ← hpayload]
  | insert key payload =>
    obtain ⟨⟨draws', t'⟩, hinsert, hr⟩ := bind_eq_ok.mp hr
    obtain ⟨rfl, rfl⟩ := Prod.mk.inj (Except.ok.inj hr)
    obtain ⟨hinv, hstored⟩ := (insertImpl_yields fuel h draws).of_eq_ok hinsert
    refine ⟨?_, hinv⟩
    rw [TreeCall.onMap, hstored.eq_store h.ascending hinv.ascending]
  | remove key =>
    obtain ⟨⟨removed, t'⟩, hremove, hr⟩ := bind_eq_ok.mp hr
    obtain ⟨rfl, rfl⟩ := Prod.mk.inj (Except.ok.inj hr)
    obtain ⟨removed', t'', hremove', hrem⟩ := removeImpl_removing h key
    obtain ⟨rfl, rfl⟩ := Prod.mk.inj (Except.ok.inj (hremove'.symm.trans hremove))
    refine ⟨?_, hrem.inv⟩
    cases removed' with
    | true =>
      rw [TreeCall.onMap, decide_eq_true (hrem.found_iff.mp rfl), (hrem.done rfl).eq_erase h.ascending]
    | false =>
      have habsent : key ∉ keys t.entries := fun hmem => Bool.false_ne_true (hrem.found_iff.mpr hmem)
      rw [TreeCall.onMap, decide_eq_false habsent, erase_eq_self habsent, hrem.absent rfl]
  | rangeLookup startKey keyOut goOn =>
    obtain ⟨⟨keyOut', seen, draws', t'⟩, hscan, hr⟩ := bind_eq_ok.mp hr
    obtain ⟨rfl, rfl⟩ := Prod.mk.inj (Except.ok.inj hr)
    obtain ⟨hseen, hinv, hs⟩ := rangeLookupImpl_returned h hscan
    refine ⟨?_, hinv⟩
    rw [TreeCall.onMap, entries_of_shapes h hinv hs, ← hseen]

theorem run_onMap {calls : List TreeCall} {answers : List TreeAnswer} (h : s.1.Inv c)
    (hrun : Machine.Run (TreeCall.step c fuel) calls s answers s') :
    Machine.Run TreeCall.onMap calls s.1.entries answers s'.1.entries ∧ s'.1.Inv c := by
  have hsim : ∀ (call : TreeCall) (s : AdaptiveTree × Draws) (m : List (Bytes × Bytes)) (answer : TreeAnswer)
      (s' : AdaptiveTree × Draws), s.1.Inv c ∧ s.1.entries = m → call.step c fuel s = .ok (answer, s') →
      ∃ m', call.onMap m = .ok (answer, m') ∧ s'.1.Inv c ∧ s'.1.entries = m' := by
    rintro call s m answer s' ⟨hinv, rfl⟩ hr
    obtain ⟨hcall, hinv'⟩ := step_onMap hinv hr
    exact ⟨s'.1.entries, hcall, hinv', rfl⟩
  obtain ⟨m, hm, hinv, rfl⟩ := hrun.simulate hsim ⟨h, rfl⟩
  exact ⟨hm, hinv⟩

def Fits (t : AdaptiveTree) : TreeCall → Prop
  | .rangeLookup startKey keyOut _ => startKey.length < keyOut.length ∧ t.KeyOutFits keyOut.length
  | _ => True

/-- What keeps a call from returning is a failed check, or the want of fuel of the model. -/
theorem step_halts {call : TreeCall} (h : s.1.Inv c) (hfits : s.1.Fits call) :
    Yields Halts (fun _ => True) (call.step c fuel s) := by
  obtain ⟨t, draws⟩ := s
  cases call with
  | lookup key =>
    apply ((lookupImpl_contained h key draws).weaken fun e he => Or.inl he).bind
    exact fun _ _ => trivial
  | insert key payload =>
    apply (insertImpl_yields fuel h draws).bind
    exact fun _ _ => trivial
  | remove key =>
    obtain ⟨removed, t', hremove, -⟩ := removeImpl_removing h key
    rw [TreeCall.step, hremove, ok_bind]
    trivial
  | rangeLookup startKey keyOut goOn =>
    apply (rangeLookupImpl_yields h (Or.inl hfits.1) (Or.inl hfits.2) draws (Or.inr (Or.inr rfl))).bind
    exact fun _ _ => trivial

theorem leafFor_inv (h : t.Inv c) {key : Bytes} {l : AdaptiveLeaf} (hl : t.leafFor c key = .ok l) :
    ∃ lower upper, l.Inv c lower upper := by
  obtain ⟨l', a, b, hl', hinv, -⟩ := AdaptiveNode.onLeaf_spec (f := fun l => .ok ((), l)) t.height h (inFences_nil key)
  obtain rfl := Except.ok.inj (hl'.symm.trans hl)
  exact ⟨a, b, hinv⟩

/-- Two runs of the same calls give the same answers and leave the same entries, whatever each of them draws, and
even if they start from trees that differ in their leaves. A leaf that changes its kind on the way, in place or as it
is split, keeps its pairs and its fences. -/
theorem answers_agree (h : Reachable c t) (h' : Reachable c' t') (hsame : t'.entries = t.entries)
    {calls : List TreeCall} {answers answers' : List TreeAnswer}
    (hrun : Machine.Run (TreeCall.step c fuel) calls (t, draws) answers s)
    (hrun' : Machine.Run (TreeCall.step c' fuel') calls (t', draws') answers' s') :
    answers' = answers ∧ s'.1.entries = s.1.entries ∧ Machine.Run TreeCall.onMap calls t.entries answers s.1.entries ∧
      ∀ key l, s.1.leafFor c key = .ok l → c.enableHashAdapt = true → l.Transparent c := by
  obtain ⟨hmap, hinv⟩ := run_onMap h.inv hrun
  obtain ⟨hmap', -⟩ := run_onMap h'.inv hrun'
  rw [hsame] at hmap'
  obtain ⟨hanswers, hentries⟩ := hmap'.unique hmap
  refine ⟨hanswers, hentries, hmap, fun key l hl hc => ?_⟩
  obtain ⟨lower, upper, hleaf⟩ := leafFor_inv hinv hl
  exact hleaf.transparent hc

end AdaptiveTree

end

/-- The first run makes its leaf a hash leaf before the removal, the second one never does. -/
theorem AdaptiveTree.answers_agree_five :
    let _ : KeyHash := ⟨fun _ => 0⟩
    let c : Config := ⟨true, true, true, fun _ => rfl, fun _ => rfl⟩
    let calls : List TreeCall :=
      [.insert [97] [1], .rangeLookup [] [0, 0] fun _ => true, .lookup [97], .lookup [98], .remove [97]]
    let t : AdaptiveTree := ⟨0, .basic RangeOpCounter.fresh (BTreeNode.init true)⟩
    let draws : Draws := Stream'.cons RangeOpCounter.pointThreshold (Stream'.const 0)
    let draws' : Draws := Stream'.const RangeOpCounter.pointThreshold
    ∃ answers answers' s s', Machine.Run (TreeCall.step c 1) calls (t, draws) answers s ∧
      Machine.Run (TreeCall.step c 1) calls (t, draws') answers' s' ∧
      answers' = answers ∧ s'.1.entries = s.1.entries ∧ Machine.Run TreeCall.onMap calls t.entries answers s.1.entries ∧
      ∀ key l, s.1.leafFor c key = .ok l → c.enableHashAdapt = true → l.Transparent c := by
  intro _ c calls t draws draws'
  have hruns : ∃ answers answers' s s', Machine.Run (TreeCall.step c 1) calls (t, draws) answers s ∧
      Machine.Run (TreeCall.step c 1) calls (t, draws') answers' s' :=
    ⟨_, _, _, _, .cons rfl (.cons rfl (.cons rfl (.cons rfl (.cons rfl (.nil _))))),
      .cons rfl (.cons rfl (.cons rfl (.cons rfl (.cons rfl (.nil _)))))⟩
  obtain ⟨answers, answers', s, s', hrun, hrun'⟩ := hruns
  have hreach : Reachable c t := ⟨t, rfl, .refl⟩
  exact ⟨answers, answers', s, s', hrun, hrun', answers_agree hreach hreach rfl hrun hrun'⟩

end BtreeRedis
