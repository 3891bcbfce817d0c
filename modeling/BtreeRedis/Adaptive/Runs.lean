import BtreeRedis.Adaptive.Remove
import BtreeRedis.Adaptive.Descend
import BtreeRedis.Hash.AsMap

/-!
# Runs of a tree with adaptive leaves

Whatever calls a tree has seen, with whatever random numbers, its fences and leaves are in
order; so a scan in either direction hands out each entry on its side of the start key once.
-/

namespace BtreeRedis

open LexOrder SortedAssoc Outcome

/-- A call on a tree. The callback of a scan keeps what it is given and goes on as `goOn` says. -/
inductive TreeCall
  | lookup (key : Bytes)
  | insert (key payload : Bytes)
  | remove (key : Bytes)
  | rangeLookup (startKey keyOut : Bytes) (goOn : List (Bytes × Bytes) → Bool)

inductive TreeAnswer
  | found (payload : Option Bytes)
  | inserted
  | removed (done : Bool)
  | scanned (seen : List (Bytes × Bytes))

section
variable [KeyHash] {c : Config} {σ : Type} {found : Callback σ} {keyOut : Bytes} {state : σ}

namespace AdaptiveLeaf
variable {l : AdaptiveLeaf} {lower upper : Bytes}

theorem rangeLookupDesc_kept (h : Inv c l lower upper) (key : Bytes) :
    Yields (fun _ => True) (fun r => Kept c l r.2 lower upper) (l.rangeLookupDesc found key keyOut state) := by
  cases l with
  | basic roc n =>
    apply Yields.after fun _ => trivial
    exact fun _ => h.kept
  | hash n =>
    obtain ⟨m, hm, hr⟩ := HashNode.sort_spec h.wf
    apply Yields.bind (P := fun r : Scanned σ × HashNode => r.2 = m)
    · rw [HashNode.rangeLookupDesc, hm, ok_bind]
      apply Yields.after fun _ => trivial
      intro keyOut'
      apply Yields.after fun _ => trivial
      intro lb
      apply Yields.after fun _ => trivial
      exact fun _ => rfl
    · rintro ⟨scanned, m'⟩ rfl
      exact h.resorted hr

end AdaptiveLeaf

/-- The fuel bounds the splits of an insertion and the leaves of a scan. -/
def TreeCall.step (c : Config) (fuel : ℕ) :
    TreeCall → AdaptiveTree × Draws → Except Fault (TreeAnswer × AdaptiveTree × Draws)
  | .lookup key, (t, draws) => do
    let (payload, draws, t) ← t.lookupImpl c key draws
    pure (.found payload, t, draws)
  | .insert key payload, (t, draws) => do
    let (draws, t) ← AdaptiveTree.insertImpl c key payload fuel draws t
    pure (.inserted, t, draws)
  | .remove key, (t, draws) => do
    let (removed, t) ← t.removeImpl c key
    pure (.removed removed, t, draws)
  | .rangeLookup startKey keyOut goOn, (t, draws) => do
    let (_, seen, draws, t) ← AdaptiveTree.rangeLookupImpl (recording goOn) c fuel startKey keyOut [] draws t
    pure (.scanned seen, t, draws)

namespace AdaptiveTree
variable {t t' : AdaptiveTree}

theorem rangeLookupImpl_returned (h : t.Inv c) {fuel : ℕ} {startKey keyOut' : Bytes} {state' : σ} {draws draws' : Draws}
    (hr : rangeLookupImpl found c fuel startKey keyOut state draws t = .ok (keyOut', state', draws', t')) :
    state' = (emit found (t.entries.filter fun e => decide (startKey ≤ e.1)) state).1 ∧ t'.Inv c ∧
      t'.shapes = t.shapes :=
  (rangeLookupImpl_yields (S := fun _ => True) h (Or.inr trivial) (Or.inr trivial) draws (Or.inr trivial)).of_eq_ok hr

theorem rangeLookupDescImpl_kept (h : t.Inv c) (fuel : ℕ) (key : Bytes) :
    Yields (fun _ => True) (fun r => r.2.2.Inv c ∧ r.2.2.shapes = t.shapes)
      (rangeLookupDescImpl found c fuel key keyOut state t) := by
  unfold rangeLookupDescImpl
  induction fuel generalizing key keyOut state t with
  | zero => trivial
  | succ fuel ih =>
    obtain ⟨l, -, -, -, hinv, -, hyields⟩ := h.onLeaf (AdaptiveLeaf.visitDesc found key keyOut state) key
    have hleaf : Yields (fun _ => True) (fun r => True ∧ AdaptiveLeaf.Kept c l r.2 l.lowerFence l.upperFence)
        (AdaptiveLeaf.visitDesc found key keyOut state l) := by
      apply (AdaptiveLeaf.rangeLookupDesc_kept hinv key).bind
      exact fun _ hkept => ⟨trivial, hkept⟩
    apply (hyields (fun _ => True) (fun _ => True) hleaf).bind
    rintro ⟨⟨scanned, lowerFence⟩, t₁⟩ ⟨-, h₁, hs⟩
    dsimp only
    by_cases hmore : scanned.more = true
    · rw [if_pos hmore]
      apply Yields.after fun _ => trivial
      intro _
      split_ifs
      · exact ⟨h₁, hs⟩
      · exact (ih h₁ lowerFence).mono fun r hr => ⟨hr.1, hr.2.trans hs⟩
    · rw [if_neg hmore]
      exact ⟨h₁, hs⟩

inductive Step (c : Config) (t : AdaptiveTree) : AdaptiveTree → Prop
  | insert {key payload : Bytes} {fuel : ℕ} {draws draws' : Draws} {t' : AdaptiveTree}
      (h : insertImpl c key payload fuel draws t = .ok (draws', t')) : Step c t t'
  | remove {key : Bytes} {removed : Bool} {t' : AdaptiveTree} (h : t.removeImpl c key = .ok (removed, t')) : Step c t t'
  | lookup {key : Bytes} {payload : Option Bytes} {draws draws' : Draws} {t' : AdaptiveTree}
      (h : t.lookupImpl c key draws = .ok (payload, draws', t')) : Step c t t'
  | ascend {σ : Type} {found : Callback σ} {startKey keyOut keyOut' : Bytes} {state state' : σ} {fuel : ℕ}
      {draws draws' : Draws} {t' : AdaptiveTree}
      (h : rangeLookupImpl found c fuel startKey keyOut state draws t = .ok (keyOut', state', draws', t')) : Step c t t'
  | descend {σ : Type} {found : Callback σ} {key keyOut keyOut' : Bytes} {state state' : σ} {fuel : ℕ}
      {t' : AdaptiveTree}
      (h : rangeLookupDescImpl found c fuel key keyOut state t = .ok (keyOut', state', t')) : Step c t t'

def Reachable (c : Config) (t : AdaptiveTree) : Prop :=
  ∃ t₀, empty c = .ok t₀ ∧ Relation.ReflTransGen (Step c) t₀ t

theorem Step.inv (h : Step c t t') (ht : t.Inv c) : t'.Inv c := by
  cases h with
  | insert hr =>
    exact ((insertImpl_yields _ ht _).of_eq_ok hr).1
  | remove hr =>
    obtain ⟨removed, t₁, hr₁, hrem⟩ := removeImpl_removing ht _
    obtain ⟨-, rfl⟩ := Prod.mk.inj (Except.ok.inj (hr.symm.trans hr₁))
    exact hrem.inv
  | lookup hr => exact ((lookupImpl_contained ht _ _).of_eq_ok hr).2.1
  | ascend hr => exact (rangeLookupImpl_returned ht hr).2.1
  | descend hr => exact ((rangeLookupDescImpl_kept ht _ _).of_eq_ok hr).1

theorem Reachable.inv (h : Reachable c t) : t.Inv c := by
  obtain ⟨t₀, h₀, hrun⟩ := h
  induction hrun with
  | refl =>
    obtain ⟨t₁, h₁, hinv, -⟩ := empty_spec c
    obtain rfl := Except.ok.inj (h₁.symm.trans h₀)
    exact hinv
  | tail _ hstep ih => exact hstep.inv ih

theorem Reachable.step {s s' : AdaptiveTree × Draws} {call : TreeCall} {answer : TreeAnswer} {fuel : ℕ}
    (h : Reachable c s.1) (hr : call.step c fuel s = .ok (answer, s')) : Reachable c s'.1 := by
  obtain ⟨t₀, h₀, hrun⟩ := h
  obtain ⟨t, draws⟩ := s
  refine ⟨t₀, h₀, hrun.tail ?_⟩
  cases call with
  | lookup key =>
    obtain ⟨⟨payload, draws', t'⟩, hlookup, hr⟩ := bind_eq_ok.mp hr
    obtain ⟨-, rfl⟩ := Prod.mk.inj (Except.ok.inj hr)
    exact .lookup hlookup
  | insert key payload =>
    obtain ⟨⟨draws', t'⟩, hinsert, hr⟩ := bind_eq_ok.mp hr
    obtain ⟨-, rfl⟩ := Prod.mk.inj (Except.ok.inj hr)
    exact .insert hinsert
  | remove key =>
    obtain ⟨⟨removed, t'⟩, hremove, hr⟩ := bind_eq_ok.mp hr
    obtain ⟨-, rfl⟩ := Prod.mk.inj (Except.ok.inj hr)
    exact .remove hremove
  | rangeLookup startKey keyOut goOn =>
    obtain ⟨⟨keyOut', seen, draws', t'⟩, hscan, hr⟩ := bind_eq_ok.mp hr
    obtain ⟨-, rfl⟩ := Prod.mk.inj (Except.ok.inj hr)
    exact .ascend hscan

def reaches (c : Config) (fuel : ℕ) (calls : List TreeCall) (draws : Draws) (check : AdaptiveTree → Bool) : Bool :=
  Outcome.passes (fun s => check s.1) (do
    let t ← empty c
    Machine.final (TreeCall.step c fuel) calls (t, draws))

theorem reaches_spec {fuel : ℕ} {calls : List TreeCall} {draws : Draws} {check : AdaptiveTree → Bool}
    (h : reaches c fuel calls draws check = true) : ∃ t, Reachable c t ∧ check t = true := by
  obtain ⟨s, hs, hc⟩ := Outcome.passes_iff.mp h
  obtain ⟨t, ht, hs⟩ := bind_eq_ok.mp hs
  have hstart : Reachable c t := ⟨t, ht, .refl⟩
  exact ⟨s.1, Machine.final_keeps (P := fun s => Reachable c s.1) (fun _ _ _ _ hr => hr.step) hstart hs, hc⟩

theorem entries_of_shapes (h : t.Inv c) (h' : t'.Inv c) (hs : t'.shapes = t.shapes) : t'.entries = t.entries := by
  rw [h'.entries_eq, hs, ← h.entries_eq]

/-- Downwards from any key, present or not, a scan of a reachable tree terminates; each entry up to the key is
handed out once, the greatest first, with its whole key in the buffer, until the callback stops it. -/
theorem scan_descends (h : Reachable c t) (found : Callback σ) (key keyOut : Bytes) (state : σ)
    (hholds : t.KeyOutHolds keyOut.length) :
    ∃ seen : List (Bytes × Bytes), (keys seen).Pairwise (· > ·) ∧ (∀ e, e ∈ seen ↔ e ∈ t.entries ∧ e.1 ≤ key) ∧
      ∀ fuel, t.shapes.length ≤ fuel → ∃ keyOut' t', rangeLookupDescImpl found c fuel key keyOut state t =
        .ok (keyOut', (emit found seen state).1, t') ∧ t'.entries = t.entries := by
  refine ⟨(t.entries.filter fun e => decide (e.1 ≤ key)).reverse, ?_, fun e => ?_, fun fuel hfuel => ?_⟩
  · have hasc := h.inv.ascending.sublist (List.filter_sublist.map Prod.fst :
      (keys (t.entries.filter fun e => decide (e.1 ≤ key))).Sublist _)
    rw [keys, List.map_reverse, List.pairwise_reverse]
    exact hasc
  · rw [List.mem_reverse, List.mem_filter, decide_eq_true_iff]
  · obtain ⟨keyOut', t', hr, hinv, hs⟩ := rangeLookupDescImpl_emits h.inv key hholds hfuel
    exact ⟨keyOut', t', hr, entries_of_shapes h.inv hinv hs⟩

/-- The keys that an ascending scan writes: its start key, the stored ones, and the fences that it goes on from. -/
def Involves (t : AdaptiveTree) (startKey key : Bytes) : Prop :=
  key = startKey ∨ key ∈ keys t.entries ∨ ∃ s ∈ t.shapes, key = s.upper

/-- Upwards from any key, a scan of a reachable tree terminates, whatever it draws; each entry from the key on is
handed out once, the least first, with its whole key in the buffer, until the callback stops it. -/
theorem scan_ascends (h : Reachable c t) (found : Callback σ) (startKey keyOut : Bytes) (state : σ) (draws : Draws)
    (hlong : ∀ key, t.Involves startKey key → key.length + 1 ≤ keyOut.length) :
    ∃ seen : List (Bytes × Bytes), (keys seen).Pairwise (· < ·) ∧ (∀ e, e ∈ seen ↔ e ∈ t.entries ∧ startKey ≤ e.1) ∧
      ∀ fuel, t.shapes.length ≤ fuel → ∃ keyOut' draws' t',
        rangeLookupImpl found c fuel startKey keyOut state draws t =
          .ok (keyOut', (emit found seen state).1, draws', t') ∧ t'.entries = t.entries := by
  refine ⟨t.entries.filter fun e => decide (startKey ≤ e.1), ?_, fun e => ?_, fun fuel hfuel => ?_⟩
  · exact h.inv.ascending.sublist (List.filter_sublist.map Prod.fst)
  · rw [List.mem_filter, decide_eq_true_iff]
  · have hfits : t.KeyOutFits keyOut.length :=
      ⟨fun e he => hlong e.1 (Or.inr (Or.inl (List.mem_map_of_mem he))),
        fun s hs => hlong s.upper (Or.inr (Or.inr ⟨s, hs, rfl⟩))⟩
    obtain ⟨keyOut', draws', t', hr, hinv, hs⟩ :=
      rangeLookupImpl_emits h.inv (hlong startKey (Or.inl rfl)) hfits draws hfuel
    exact ⟨keyOut', draws', t', hr, entries_of_shapes h.inv hinv hs⟩

end AdaptiveTree

end

def AdaptiveLeaf.isHash : AdaptiveLeaf → Bool
  | .basic _ _ => false
  | .hash _ => true

namespace AdaptiveTree

def adaptiveBuild : Config := ⟨true, true, true, fun _ => rfl, fun _ => rfl⟩

/-- The tree that these calls make: behind two hash leaves a basic one, an empty one and another basic one. -/
def mixedCalls : List TreeCall :=
  [[7], [8], [9], [10], [11], [12], [0, 0, 0, 0, 1], [0, 0, 0, 0, 2], [0, 0, 0, 0, 3]].map
    (fun key => .insert key BTree.kilobyte) ++ [.remove [9], .remove [10]]

def mixedKeys : List (List Bytes) :=
  [[[0, 0, 0, 0, 1], [0, 0, 0, 0, 2]], [[0, 0, 0, 0, 3], [7]], [[8]], [], [[11], [12]]]

theorem mixed_reachable :
    let _ : KeyHash := ⟨fun _ => 0⟩
    ∃ t, Reachable adaptiveBuild t ∧ t.shapes.map (fun s => keys s.entries) = mixedKeys ∧
      (∃ n, t.leafFor adaptiveBuild [] = .ok (.hash n)) ∧
      (∀ s ∈ t.shapes, s.lower.length < 6 ∧ s.upper.length < 6) ∧ ∀ e ∈ t.entries, e.1.length < 6 := by
  intro hash
  have hrun : @reaches ⟨fun _ => 0⟩ adaptiveBuild 4 mixedCalls (Stream'.const RangeOpCounter.pointThreshold) (fun t =>
      decide (t.shapes.map (fun s => keys s.entries) = mixedKeys) &&
      Outcome.passes AdaptiveLeaf.isHash (t.leafFor adaptiveBuild []) &&
      decide (∀ s ∈ t.shapes, s.lower.length < 6 ∧ s.upper.length < 6) &&
      decide (∀ e ∈ t.entries, e.1.length < 6)) = true := by
    decide +kernel
  obtain ⟨t, ht, hcheck⟩ := reaches_spec hrun
  simp only [Bool.and_eq_true, decide_eq_true_eq] at hcheck
  obtain ⟨⟨⟨hkeys, hhash⟩, hfences⟩, hents⟩ := hcheck
  obtain ⟨l, hl, hhash⟩ := Outcome.passes_iff.mp hhash
  cases l with
  | basic counter n => cases hhash
  | hash n => exact ⟨t, ht, hkeys, ⟨n, hl⟩, hfences, hents⟩

/-- Downwards from a stored key, over the empty leaf, to the hash leaves. -/
theorem scan_descends_mixed :
    let _ : KeyHash := ⟨fun _ => 0⟩
    let found : Callback (List Bytes) := fun seen key _ => (seen ++ [key], true)
    ∃ t, t.shapes.map (fun s => keys s.entries) = mixedKeys ∧
      ∃ seen : List (Bytes × Bytes), (keys seen).Pairwise (· > ·) ∧
      (∀ e, e ∈ seen ↔ e ∈ t.entries ∧ e.1 ≤ [11]) ∧
      ∀ fuel, t.shapes.length ≤ fuel → ∃ keyOut' t',
        rangeLookupDescImpl found adaptiveBuild fuel [11] (List.replicate 6 0) [] t =
          .ok (keyOut', (emit found seen []).1, t') ∧ t'.entries = t.entries := by
  intro _ found
  obtain ⟨t, ht, hkeys, -, hfences, hents⟩ := mixed_reachable
  have hholds : t.KeyOutHolds (List.replicate 6 (0 : Byte)).length := by
    refine ⟨fun e he => (hents e he).le, fun s hs => ?_⟩
    exact (commonPrefixLength_le_left _ _).trans (hfences s hs).1.le
  exact ⟨t, hkeys, scan_descends ht found [11] _ [] hholds⟩

/-- Upwards from a fence of the hash leaf. -/
theorem scan_ascends_mixed :
    let _ : KeyHash := ⟨fun _ => 0⟩
    let found : Callback (List Bytes) := fun seen key _ => (seen ++ [key], true)
    ∃ t, t.shapes.map (fun s => keys s.entries) = mixedKeys ∧
      ∃ seen : List (Bytes × Bytes), (keys seen).Pairwise (· < ·) ∧
      (∀ e, e ∈ seen ↔ e ∈ t.entries ∧ [0, 0, 0, 0, 2] ≤ e.1) ∧
      ∀ fuel, t.shapes.length ≤ fuel → ∃ keyOut' draws' t',
        rangeLookupImpl found adaptiveBuild fuel [0, 0, 0, 0, 2] (List.replicate 6 0) [] (Stream'.const 0) t =
          .ok (keyOut', (emit found seen []).1, draws', t') ∧ t'.entries = t.entries := by
  intro _ found
  obtain ⟨t, ht, hkeys, -, hfences, hents⟩ := mixed_reachable
  have hlong : ∀ key, t.Involves [0, 0, 0, 0, 2] key → key.length + 1 ≤ (List.replicate 6 (0 : Byte)).length := by
    rintro key (rfl | hm | ⟨s, hs, rfl⟩)
    · decide
    · obtain ⟨e, he, rfl⟩ := List.mem_map.mp hm
      exact hents e he
    · exact (hfences s hs).2
  exact ⟨t, hkeys, scan_ascends ht found _ _ [] (Stream'.const 0) hlong⟩

end AdaptiveTree

end BtreeRedis
