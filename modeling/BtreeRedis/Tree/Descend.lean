import BtreeRedis.Adaptive.Descend
import BtreeRedis.Tree.Calls

/-!
# Descending scans of the default build

The scan of a dense leaf downwards is disabled: it aborts. A descending scan of the tree
therefore returns if the callback stops it above the first dense leaf on its way, and then
it has handed out what it should.
-/

namespace BtreeRedis

open LexOrder SortedAssoc

section
variable {σ : Type} (found : Callback σ)

def LeafNode.rangeLookupDesc (l : LeafNode) (key keyOut : Bytes) (state : σ) : Except Fault (Scanned σ) :=
  match l with
  | .basic n => n.rangeLookupDesc found key keyOut state
  -- "this function is currently broken"
  | .dense _ => .error .abort

namespace BTree

def rangeLookupDescImpl (t : BTree) : ℕ → Bytes → Bytes → σ → Except Fault (Bytes × σ)
  | 0, _, _, _ => .error .outOfFuel
  | fuel + 1, key, keyOut, state => do
    let leaf ← t.leafFor key
    let scanned ← leaf.rangeLookupDesc found key keyOut state
    if scanned.more then do
      -- `startKeyBuffer` has `maxKVSize` bytes.
      ensure (leaf.lowerFence.length ≤ maxKVSize) .undefined
      if leaf.lowerFence.length = 0 then pure (scanned.keyOut, scanned.state)
      else rangeLookupDescImpl t fuel leaf.lowerFence scanned.keyOut scanned.state
    else pure (scanned.keyOut, scanned.state)

/-- The callback goes on over all entries up to the key that lie above some dense leaf. -/
def WantsDense (t : BTree) (key : Bytes) (state : σ) : Prop :=
  ∃ d, LeafNode.dense d ∈ t.leaves ∧ (d.lowerFence = [] ∨ d.lowerFence < key) ∧
    (emit found (t.entries.filter fun e =>
      decide (d.upperFence ≠ [] ∧ d.upperFence < e.1 ∧ e.1 ≤ key)).reverse state).2 = true

structure KeyOutHolds (size : ℕ) (t : BTree) : Prop where
  entries : ∀ e ∈ t.entries, e.1.length ≤ size
  prefixes : ∀ l ∈ t.leaves, l.prefixLength ≤ size

def DenseAhead (key : Bytes) (state : σ) (before : List LeafNode) (l : LeafNode) : Prop :=
  (∃ d, l = .dense d) ∨ ∃ below d above, before = below ++ .dense d :: above ∧
    (emit found (above.flatMap LeafNode.entries ++ l.entries.filter fun e => decide (e.1 ≤ key)).reverse state).2 = true

end BTree

end

namespace BTree
variable {enableDense : Bool} {t : BTree} {σ : Type} {found : Callback σ} {key keyOut : Bytes} {state : σ}
  {before after : List LeafNode} {l l' : LeafNode} {n : BTreeNode Bytes}

theorem not_denseAhead_nil (hl : ∀ d, l ≠ .dense d) : ¬ DenseAhead found key state [] l := by
  rintro (⟨d, hd⟩ | ⟨below, d, above, hb, -⟩)
  · exact hl d hd
  · exact List.append_ne_nil_of_right_ne_nil _ (List.cons_ne_nil _ _) hb.symm

theorem not_denseAhead_of_stop (hl : ∀ d, l ≠ .dense d)
    (hstop : (emit found (l.entries.filter fun e => decide (e.1 ≤ key)).reverse state).2 = false) :
    ¬ DenseAhead found key state before l := by
  rintro (⟨d, hd⟩ | ⟨below, d, above, -, hgo⟩)
  · exact hl d hd
  · rw [List.reverse_append, emit_append, hstop, if_neg Bool.false_ne_true, hstop] at hgo
    exact Bool.false_ne_true hgo

theorem denseAhead_step (hl : ∀ d, l ≠ .dense d) {lower : Bytes}
    (hall : (l'.entries.filter fun e => decide (e.1 ≤ lower)) = l'.entries)
    (hgo : (emit found (l.entries.filter fun e => decide (e.1 ≤ key)).reverse state).2 = true) :
    DenseAhead found key state (before ++ [l']) l ↔
      DenseAhead found lower (emit found (l.entries.filter fun e => decide (e.1 ≤ key)).reverse state).1 before l' := by
  have hbelow : ∀ above : List LeafNode,
      emit found ((above ++ [l']).flatMap LeafNode.entries ++
        l.entries.filter fun e => decide (e.1 ≤ key)).reverse state =
      emit found (above.flatMap LeafNode.entries ++ l'.entries).reverse
        (emit found (l.entries.filter fun e => decide (e.1 ≤ key)).reverse state).1 := by
    intro above
    rw [List.reverse_append, emit_append, if_pos hgo, List.flatMap_append, List.flatMap_singleton]
  constructor
  · rintro (⟨d, hd⟩ | ⟨below, d, above, hb, hwant⟩)
    · exact absurd hd (hl d)
    · rcases List.eq_nil_or_concat above with rfl | ⟨above, x, rfl⟩
      · obtain ⟨-, hx⟩ := List.append_inj' hb rfl
        exact Or.inl ⟨d, (List.cons.inj hx).1⟩
      · rw [List.concat_eq_append, ← List.cons_append, ← List.append_assoc] at hb
        obtain ⟨hbefore, hx⟩ := List.append_inj' hb rfl
        obtain rfl := (List.cons.inj hx).1
        rw [List.concat_eq_append, hbelow] at hwant
        exact Or.inr ⟨below, d, above, hbefore, by rwa [hall]⟩
  · rintro (⟨d, rfl⟩ | ⟨below, d, above, rfl, hwant⟩)
    · exact Or.inr ⟨before, d, [], rfl, hgo⟩
    · rw [hall, ← hbelow] at hwant
      exact Or.inr ⟨below, d, above ++ [l'], by rw [List.append_assoc, List.cons_append], hwant⟩

theorem Inv.lowerFence_iff (h : t.Inv enableDense) (hloc : Located key t.leaves before l after) {x : LeafNode}
    (hx : x ∈ t.leaves) : (x.lowerFence = [] ∨ x.lowerFence < key) ↔ x ∈ before ∨ x = l := by
  have hafter : ∀ x ∈ after, ¬ (x.lowerFence = [] ∨ x.lowerFence < key) := by
    intro x hx hlow
    obtain ⟨hne, hle⟩ := hloc.after_ge h.row x hx
    have hkey : key ≤ lowerFence x := (hloc.le.resolve_left hne).trans hle
    rcases hlow with hnil | hlt
    · have hle' : upperFence l ≤ ([] : Bytes) := hle.trans hnil.le
      exact hne (le_antisymm hle' (nil_le _))
    · exact absurd hlt (not_lt.mpr hkey)
  constructor
  · intro hlow
    rw [hloc.eq] at hx
    rcases List.mem_append.mp hx with hx | hx
    · exact Or.inl hx
    · rcases List.mem_cons.mp hx with rfl | hx
      · exact Or.inr rfl
      · exact absurd hlow (hafter x hx)
  · rintro (hm | rfl)
    · obtain ⟨hne, hlt⟩ := hloc.before_lt x hm
      have hle : x.lowerFence ≤ x.upperFence := (AnyNode.leaves_inv t.height h x hx).fences.resolve_left hne
      exact Or.inr (hle.trans_lt hlt)
    · exact (h.leafFor_located hloc).1.1

theorem Inv.filter_between (h : t.Inv enableDense) {below above : List LeafNode} {m : LeafNode}
    (hloc : Located key t.leaves (below ++ m :: above) l after) :
    (t.entries.filter fun e => decide (m.upperFence ≠ [] ∧ m.upperFence < e.1 ∧ e.1 ≤ key)) =
      above.flatMap LeafNode.entries ++ l.entries.filter fun e => decide (e.1 ≤ key) := by
  have heq : t.leaves = below ++ m :: (above ++ l :: after) := by
    rw [hloc.eq, List.append_assoc, List.cons_append]
  have hne : m.upperFence ≠ [] := (hloc.before_lt m (List.mem_append_right _ List.mem_cons_self)).1
  have hrow := h.row
  have hwithin := h.within
  rw [heq] at hrow hwithin
  have hm : Located m.upperFence (below ++ m :: (above ++ l :: after)) below m (above ++ l :: after) :=
    Located.of_upperFence hrow hne
  have hkept : ∀ e ∈ above.flatMap LeafNode.entries ++ l.entries.filter fun e => decide (e.1 ≤ key),
      m.upperFence < e.1 := by
    intro e he
    apply hm.after_entries hrow hwithin
    rw [List.flatMap_append, List.flatMap_cons]
    refine (List.mem_append.mp he).elim (fun he => List.mem_append_left _ he) fun he => ?_
    exact List.mem_append_right _ (List.mem_append_left _ (List.mem_of_mem_filter he))
  have hdropped : ∀ e ∈ below.flatMap LeafNode.entries ++ m.entries, ¬ m.upperFence < e.1 := by
    intro e he
    rw [not_lt]
    rcases List.mem_append.mp he with he | he
    · exact (hm.before_entries hwithin e he).le
    · exact (hwithin m (List.mem_append_right _ List.mem_cons_self) e he).2.resolve_left hne
  have hsplit : (t.entries.filter fun e => decide (m.upperFence ≠ [] ∧ m.upperFence < e.1 ∧ e.1 ≤ key)) =
      (t.entries.filter fun e => decide (e.1 ≤ key)).filter fun e => decide (m.upperFence < e.1) := by
    rw [List.filter_filter]
    apply List.filter_congr
    intro e _
    simp [hne]
  have hcut : (below ++ m :: above).flatMap LeafNode.entries =
      (below.flatMap LeafNode.entries ++ m.entries) ++ above.flatMap LeafNode.entries := by
    rw [List.flatMap_append, List.flatMap_cons, List.append_assoc]
  rw [hsplit, h.entries_eq, hloc.filter_le h.row h.within, hcut, List.append_assoc, List.filter_append,
    List.filter_eq_nil_iff.mpr fun e he => by simpa using hdropped e he,
    List.filter_eq_self.mpr fun e he => decide_eq_true (hkept e he), List.nil_append]

theorem denseAhead_iff (h : t.Inv enableDense) (hloc : Located key t.leaves before l after) :
    DenseAhead found key state before l ↔ t.WantsDense found key state := by
  have hmem : ∀ x, x ∈ before ∨ x = l → x ∈ t.leaves := by
    intro x hx
    rw [hloc.eq]
    exact hx.elim (List.mem_append_left _) fun hx => List.mem_append_right _ (hx ▸ List.mem_cons_self)
  constructor
  · rintro (⟨d, rfl⟩ | ⟨below, d, above, rfl, hwant⟩)
    · refine ⟨d, hmem _ (Or.inr rfl), (h.lowerFence_iff hloc (hmem _ (Or.inr rfl))).mpr (Or.inr rfl), ?_⟩
      -- no entry lies above the leaf of the key
      rw [List.filter_eq_nil_iff.mpr]
      · rfl
      · intro e _
        rw [decide_eq_true_iff]
        rintro ⟨hne, hlt, hle⟩
        exact absurd (hlt.trans_le hle) (not_lt.mpr (hloc.le.resolve_left hne))
    · have hbefore : LeafNode.dense d ∈ below ++ .dense d :: above := List.mem_append_right _ List.mem_cons_self
      have hd := hmem _ (Or.inl hbefore)
      refine ⟨d, hd, (h.lowerFence_iff hloc hd).mpr (Or.inl hbefore), ?_⟩
      rw [← h.filter_between hloc] at hwant
      exact hwant
  · rintro ⟨d, hd, hlow, hwant⟩
    rcases (h.lowerFence_iff hloc hd).mp hlow with hb | hl
    · obtain ⟨below, above, rfl⟩ := List.append_of_mem hb
      refine Or.inr ⟨below, d, above, rfl, ?_⟩
      rw [← h.filter_between hloc]
      exact hwant
    · exact Or.inl ⟨d, hl.symm⟩

theorem rangeLookupDesc_leaf (found : Callback σ) (state : σ) (h : t.Inv enableDense)
    (hloc : Located key t.leaves before l after) (hholds : t.KeyOutHolds keyOut.length) (hl : ∀ d, l ≠ .dense d) :
    ∃ scanned, l.rangeLookupDesc found key keyOut state = .ok scanned ∧ scanned.keyOut.length = keyOut.length ∧
      scanned.state = (emit found (l.entries.filter fun e => decide (e.1 ≤ key)).reverse state).1 ∧
      scanned.more = (emit found (l.entries.filter fun e => decide (e.1 ≤ key)).reverse state).2 := by
  have hmem : l ∈ t.leaves := by
    rw [hloc.eq]
    exact List.mem_append_right _ List.mem_cons_self
  have hinv := AnyNode.leaves_inv t.height h l hmem
  have hfit : ∀ e ∈ l.entries, e.1.length ≤ keyOut.length := by
    intro e he
    apply hholds.entries e
    rw [h.entries_eq]
    exact List.mem_flatMap.mpr ⟨l, hmem, he⟩
  obtain ⟨hin, -⟩ := h.leafFor_located hloc
  cases l with
  | dense d => exact absurd rfl (hl d)
  | basic n =>
    obtain ⟨scanned, hscanned, hout⟩ :=
      BTreeNode.rangeLookupDesc_handsOut found state hinv.kind.1 hin (hholds.prefixes _ hmem) hfit
    exact ⟨scanned, hscanned, hout.begins.length, hout.state_eq, hout.more_eq⟩

theorem rangeLoopDesc_cases (h : t.Inv enableDense) (hloc : Located key t.leaves before l after)
    (hholds : t.KeyOutHolds keyOut.length) {fuel : ℕ} (hfuel : before.length < fuel) :
    (DenseAhead found key state before l → rangeLookupDescImpl found t fuel key keyOut state = .error .abort) ∧
      (¬ DenseAhead found key state before l → ∃ keyOut', rangeLookupDescImpl found t fuel key keyOut state =
        .ok (keyOut', (emit found (before.flatMap LeafNode.entries ++
          l.entries.filter fun e => decide (e.1 ≤ key)).reverse state).1)) := by
  induction before using List.reverseRecOn generalizing l after key keyOut state fuel with
  | nil =>
    obtain ⟨fuel, rfl⟩ := Nat.exists_eq_succ_of_ne_zero (Nat.ne_of_gt hfuel)
    obtain ⟨-, hleaf⟩ := h.leafFor_located hloc
    rw [rangeLookupDescImpl, hleaf, ok_bind]
    by_cases hd : ∃ d, l = .dense d
    · obtain ⟨d, rfl⟩ := hd
      exact ⟨fun _ => rfl, fun hno => absurd (Or.inl ⟨d, rfl⟩) hno⟩
    · have hl : ∀ d, l ≠ .dense d := not_exists.mp hd
      obtain ⟨scanned, hscanned, -, hstate, -⟩ := rangeLookupDesc_leaf found state h hloc hholds hl
      refine ⟨fun hyes => absurd hyes (not_denseAhead_nil hl), fun _ => ⟨scanned.keyOut, ?_⟩⟩
      have hfirst : l.lowerFence = [] := (hloc.before_nil_iff h.row).mp rfl
      rw [hscanned, ok_bind, List.flatMap_nil, List.nil_append, ← hstate, hfirst]
      cases scanned.more <;> rfl
  | append_singleton before l' ih =>
    obtain ⟨fuel, rfl⟩ := Nat.exists_eq_succ_of_ne_zero (Nat.ne_zero_of_lt hfuel)
    obtain ⟨-, hleaf⟩ := h.leafFor_located hloc
    rw [rangeLookupDescImpl, hleaf, ok_bind]
    by_cases hd : ∃ d, l = .dense d
    · obtain ⟨d, rfl⟩ := hd
      exact ⟨fun _ => rfl, fun hno => absurd (Or.inl ⟨d, rfl⟩) hno⟩
    · have hl : ∀ d, l ≠ .dense d := not_exists.mp hd
      obtain ⟨scanned, hscanned, hlen, hstate, hmore⟩ := rangeLookupDesc_leaf found state h hloc hholds hl
      rw [hscanned, ok_bind, List.reverse_append, emit_append, ← hstate, ← hmore]
      cases hm : scanned.more with
      | false =>
        rw [hm] at hmore
        exact ⟨fun hyes => absurd hyes (not_denseAhead_of_stop hl hmore.symm),
          fun _ => ⟨scanned.keyOut, by rw [hstate]; rfl⟩⟩
      | true =>
        rw [hm] at hmore
        have hall : (l'.entries.filter fun e => decide (e.1 ≤ l.lowerFence)) = l'.entries :=
          hloc.filter_prev h.row h.within
        have hne : l.lowerFence ≠ [] := fun hnil =>
          absurd ((hloc.before_nil_iff h.row).mpr hnil) (List.append_ne_nil_of_right_ne_nil _ (List.cons_ne_nil _ _))
        have hlow : l.lowerFence.length ≤ maxKVSize := by
          apply (AnyNode.leaves_inv t.height h l _).lower_len
          rw [← leaves, hloc.eq]
          exact List.mem_append_right _ List.mem_cons_self
        rw [List.length_append, List.length_singleton] at hfuel
        have hprev : Located l.lowerFence t.leaves before l' (l :: after) := hloc.prev h.row
        rw [denseAhead_step hl hall hmore.symm, ← hstate, if_pos rfl, ensure_of hlow, ok_bind,
          if_neg (mt List.length_eq_zero_iff.mp hne), if_pos rfl, List.flatMap_append, List.flatMap_singleton]
        have hrest := @ih _ scanned.keyOut scanned.state _ _ hprev (hlen ▸ hholds) fuel (Nat.lt_of_succ_lt_succ hfuel)
        rwa [hall] at hrest

instance (t : BTree) (key : Bytes) (state : σ) : Decidable (WantsDense found t key state) :=
  decidable_of_iff ((t.leaves.any fun l => match l with
      | .basic _ => false
      | .dense d => decide ((d.lowerFence = [] ∨ d.lowerFence < key) ∧ (emit found (t.entries.filter fun e =>
          decide (d.upperFence ≠ [] ∧ d.upperFence < e.1 ∧ e.1 ≤ key)).reverse state).2 = true)) = true) <| by
    rw [List.any_eq_true]
    constructor
    · rintro ⟨l, hl, h⟩
      cases l with
      | basic n => cases h
      | dense d => exact ⟨d, hl, of_decide_eq_true h⟩
    · rintro ⟨d, hd, h⟩
      exact ⟨.dense d, hd, decide_eq_true h⟩

def wanting (count : ℕ) : Callback (List Bytes) := fun seen key _ => (seen ++ [key], decide (seen.length + 1 < count))

end BTree

end BtreeRedis
