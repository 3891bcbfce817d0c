import BtreeRedis.Tree.Calls
import BtreeRedis.Tree.LeafProgress

/-!
# Insertion comes to an end

Every round that does not insert splits one node on the way to the leaf of the key. What
falls is the weight of the leaf, or else the number of separators on the way: a split node
gives at least two of them away and its parent takes one. `Advances` names what a round
needs: the leaf can be split soundly for the key, and an inner node that has to be split
has four separators.
-/

namespace BtreeRedis

open LexOrder SortedAssoc

namespace InnerNode
variable {γ : Type} [ChildPointer γ] {P : γ → Bytes → Bytes → Prop} {p : InnerNode γ}
  {lower upper key : Bytes}

def childFor (p : InnerNode γ) (key : Bytes) : Except Fault γ := do
  let pos ← p.lookupInnerIndex key
  p.getChild pos

theorem childFor_eq (h : Inv P p lower upper) {i : ℕ} {c : γ} {a b : Bytes} (hc : p.children[i]? = some c)
    (ha : (lower :: p.separators)[i]? = some a) (hb : (p.separators ++ [upper])[i]? = some b)
    (hk : InFences a b key) : p.childFor key = .ok c := by
  have hi : i ≤ p.node.count := by
    obtain ⟨hlt, -⟩ := List.getElem?_eq_some_iff.mp hc
    rw [length_children] at hlt
    omega
  have hin : InFences p.node.getLowerFence p.node.getUpperFence key := by
    rw [h.lowerFence, h.upperFence]
    exact h.inFences_of_between ha hb hk
  have hidx : p.lookupInnerIndex key = .ok i := by
    rw [lookupInnerIndex, BTreeNode.lowerBound_spec h.wf hin, eq_lowerIndex_of_between h hi ha hb hk]
    rfl
  rw [childFor, hidx, ok_bind]
  exact (getChild_eq_ok hi).mpr hc

section
omit [ChildPointer γ]

theorem room_setChild (p : InnerNode γ) (i : ℕ) (c : γ) (length : ℕ) :
    (p.setChild i c).Room length ↔ p.Room length := by
  have hp : (p.setChild i c).node.prefixLength = p.node.prefixLength := by
    unfold setChild
    split_ifs <;> rfl
  rw [Room, Room, freeSpaceAfterCompaction_setChild, hp]

end

theorem SplitBelow.leads {p' : InnerNode γ} {i : ℕ} {sep a b : Bytes} {left right : γ}
    (h : SplitBelow P p p' lower upper i sep left right) (hi : i ≤ p.node.count)
    (ha : (lower :: p.separators)[i]? = some a) (hb : (p.separators ++ [upper])[i]? = some b)
    (hk : InFences a b key) : p'.node.count = p.node.count + 1 ∧
      (key ≤ sep → p'.childFor key = .ok left) ∧ (sep < key → p'.childFor key = .ok right) := by
  have htake : (p.separators.take i).length = i := by simpa using hi
  have hchild : (p.children.take i).length = i := by simp; omega
  refine ⟨?_, fun hle => ?_, fun hlt => ?_⟩
  · rw [← length_separators, h.separators]
    simp
    omega
  · refine childFor_eq h.inv (i := i) (a := a) (b := sep) ?_ ?_ ?_ ⟨hk.1, Or.inr hle⟩
    · rw [h.children, List.append_assoc, List.getElem?_append_right hchild.le, hchild, Nat.sub_self]
      rfl
    · rw [h.separators]
      cases i with
      | zero => exact ha
      | succ j =>
        rw [List.getElem?_cons_succ] at ha ⊢
        rw [List.append_assoc, List.getElem?_append_left (by omega), List.getElem?_take_of_lt (by omega), ha]
    · rw [h.separators, List.append_assoc, List.append_assoc, List.getElem?_append_right htake.le, htake,
        Nat.sub_self]
      rfl
  · refine childFor_eq h.inv (i := i + 1) (a := sep) (b := b) ?_ ?_ ?_ ⟨Or.inr hlt, hk.2⟩
    · rw [h.children, List.append_assoc, List.getElem?_append_right (by omega), hchild,
        Nat.add_sub_cancel_left]
      rfl
    · rw [h.separators, List.getElem?_cons_succ, List.append_assoc, List.getElem?_append_right htake.le,
        htake, Nat.sub_self]
      rfl
    · rw [h.separators, List.append_assoc, List.append_assoc, List.getElem?_append_right (by omega), htake,
        Nat.add_sub_cancel_left]
      change (p.separators.drop i ++ [upper])[0]? = _
      rw [← List.drop_append_of_le_length (by simpa using hi), List.getElem?_drop, Nat.add_zero, hb]

theorem SplitAt.leads {slot : ℕ} {sep : Bytes} {left right : InnerNode γ} (h : SplitAt p slot sep left right)
    (hp : Inv P p lower upper) (hl : Inv P left lower sep) (hr : Inv P right sep upper) {i : ℕ} {c : γ}
    {a b : Bytes} (hc : p.children[i]? = some c) (ha : (lower :: p.separators)[i]? = some a)
    (hb : (p.separators ++ [upper])[i]? = some b) (hk : InFences a b key) :
    (key ≤ sep → left.childFor key = .ok c ∧ left.node.count + 2 ≤ p.node.count) ∧
      (sep < key → right.childFor key = .ok c ∧ right.node.count + 2 ≤ p.node.count) := by
  have hslot := h.slot_eq
  have hcount := h.count
  have hi : i ≤ p.node.count := by
    obtain ⟨hlt, -⟩ := List.getElem?_eq_some_iff.mp hc
    rw [length_children] at hlt
    omega
  have hidx := eq_lowerIndex_of_between hp hi ha hb hk
  have hss : slot < p.separators.length := by
    rw [length_separators]
    omega
  have hsep : p.separators[slot] = sep := by
    have hs := h.sep_at
    rw [List.getElem?_eq_getElem hss] at hs
    exact Option.some.inj hs
  have hdrop : p.separators.drop slot = sep :: p.separators.drop (slot + 1) := by
    rw [← hsep, List.getElem_cons_drop]
  constructor
  · intro hle
    have hle' : i ≤ slot := by
      by_contra hlt
      have hlt' := lt_of_lt_lowerIndex (hidx ▸ not_le.mp hlt) hss
      rw [hsep] at hlt'
      exact absurd hlt' (not_lt.mpr hle)
    refine ⟨childFor_eq hl (i := i) (a := a) (b := b) ?_ ?_ ?_ hk, ?_⟩
    · rw [h.left_children, List.getElem?_take_of_lt (by omega), hc]
    · rw [h.left_separators]
      cases i with
      | zero => exact ha
      | succ j =>
        rw [List.getElem?_cons_succ] at ha ⊢
        rw [List.getElem?_take_of_lt (by omega), ha]
    · have htake : p.separators.take slot ++ [sep] = p.separators.take (slot + 1) := by
        rw [List.take_succ_eq_append_getElem hss, hsep]
      rw [List.getElem?_append_left (by omega)] at hb
      rw [h.left_separators, htake, List.getElem?_take_of_lt (by omega), hb]
    · have hlen := congrArg List.length h.left_separators
      rw [length_separators, List.length_take, length_separators] at hlen
      omega
  · intro hlt
    have hge : slot + 1 ≤ i := by
      by_contra hle
      have hle' := le_of_lowerIndex_le hp.ascending (show lowerIndex p.separators key ≤ slot by omega) hss
      rw [hsep] at hle'
      exact absurd hlt (not_lt.mpr hle')
    obtain ⟨j, rfl⟩ : ∃ j, i = slot + 1 + j := Nat.exists_eq_add_of_le hge
    refine ⟨childFor_eq hr (i := j) (a := a) (b := b) ?_ ?_ ?_ hk, ?_⟩
    · rw [h.right_children, List.getElem?_drop, hc]
    · rw [h.right_separators, ← hdrop, List.getElem?_drop]
      rw [Nat.add_right_comm, List.getElem?_cons_succ] at ha
      exact ha
    · rw [h.right_separators, ← List.drop_append_of_le_length (by omega), List.getElem?_drop, hb]
    · have hlen := congrArg List.length h.right_separators
      rw [length_separators, List.length_drop, length_separators] at hlen
      omega

/-- The middle separator is not the upper fence. -/
theorem SplitAt.fresh {slot : ℕ} {sep : Bytes} {left right : InnerNode γ} (h : SplitAt p slot sep left right)
    (hp : Inv P p lower upper) : sep ≠ upper := by
  have hslot := h.slot_eq
  have hcount := h.count
  have hnext : slot + 1 < p.separators.length := by
    rw [length_separators]
    omega
  have hsep : p.separators[slot] = sep := by
    have hs := h.sep_at
    rw [List.getElem?_eq_getElem (by omega)] at hs
    exact Option.some.inj hs
  have hlt := hp.ascending.getElem_lt (Nat.lt_succ_self slot) hnext
  rw [hsep] at hlt
  rcases (hp.sep_inFences (List.getElem_mem hnext)).2 with hu | hu
  · rw [hu, ← hsep]
    exact hp.nonempty _ (List.getElem_mem _)
  · exact (hlt.trans_le hu).ne

end InnerNode

def InnerNode.passedUp {γ : Type} [ChildPointer γ] (p : InnerNode γ) (length : ℕ) : Except Fault ℕ := do
  ensure (¬ p.Room length) .assertion
  p.separatorLength

theorem InnerNode.passedUp_eq_ok {γ : Type} [ChildPointer γ] {p : InnerNode γ} {length len : ℕ} :
    p.passedUp length = .ok len ↔ ¬ p.Room length ∧ p.separatorLength = .ok len := by
  simp only [passedUp, bind_eq_ok, ensure_eq_ok, exists_const]

namespace AnyNode

def pathCount (key : Bytes) : (h : ℕ) → AnyNode h → ℕ
  | 0, _ => 0
  | h + 1, p => BTreeNode.count (InnerNode.node p) + match InnerNode.childFor p key with
    | .ok c => pathCount key h c
    | .error _ => 0

/-- The weight of the leaf of the key in the form in which it refuses the entry. -/
def leafWeight (key payload : Bytes) (h : ℕ) (n : AnyNode h) : ℕ ×ₗ ℕ :=
  match leafFor h n key with
  | .ok l => match l.insert true key payload with
    | .ok (false, l') => l'.weight
    | _ => toLex (0, 0)
  | .error _ => toLex (0, 0)

def Overflows (key payload : Bytes) : (h : ℕ) → AnyNode h → ℕ → Prop
  | 0, l, length => ∃ l', LeafNode.insert true l key payload = .ok (false, l') ∧
      l'.separatorLength = .ok length
  | h + 1, p, length => ∃ c len, InnerNode.childFor p key = .ok c ∧ Overflows key payload h c len ∧
      ¬ InnerNode.Room p len ∧ InnerNode.separatorLength p = .ok length

/-- What a round needs of the nodes on the way. -/
def Advances (key payload : Bytes) : (h : ℕ) → AnyNode h → Prop
  | 0, l => LeafNode.Accepts key payload l ∧
      ∀ l', LeafNode.insert true l key payload = .ok (false, l') → l'.Splittable key
  | h + 1, p => ∀ c, InnerNode.childFor p key = .ok c → Advances key payload h c ∧
      ∀ length, Overflows key payload h c length → ¬ InnerNode.Room p length →
        3 < BTreeNode.count (InnerNode.node p)

def overflow (key payload : Bytes) : (h : ℕ) → AnyNode h → Except Fault ℕ
  | 0, l => do
    let (inserted, l') ← LeafNode.insert true l key payload
    ensure (inserted = false) .assertion
    l'.separatorLength
  | h + 1, p => do
    let c ← InnerNode.childFor p key
    let len ← overflow key payload h c
    InnerNode.passedUp p len

theorem overflow_eq_ok (key payload : Bytes) : (h : ℕ) → {n : AnyNode h} → {length : ℕ} →
    (overflow key payload h n = .ok length ↔ Overflows key payload h n length)
  | 0, l, length => by
    simp only [overflow, Overflows, bind_eq_ok, ensure_eq_ok, exists_const, Prod.exists]
    constructor
    · rintro ⟨inserted, l', hl', rfl, hlen⟩
      exact ⟨l', hl', hlen⟩
    · rintro ⟨l', hl', hlen⟩
      exact ⟨false, l', hl', rfl, hlen⟩
  | h + 1, p, length => by
    simp only [overflow, Overflows, bind_eq_ok, overflow_eq_ok key payload h]
    constructor
    · rintro ⟨c, hc, len, hlen, hp⟩
      exact ⟨c, len, hc, hlen, InnerNode.passedUp_eq_ok.mp hp⟩
    · rintro ⟨c, len, hc, hlen, hroom, hp⟩
      exact ⟨c, hc, len, hlen, InnerNode.passedUp_eq_ok.mpr ⟨hroom, hp⟩⟩

instance (key payload : Bytes) (l : LeafNode) : Decidable (Advances key payload 0 l) :=
  inferInstanceAs (Decidable (l.Accepts key payload ∧
    ∀ l', l.insert true key payload = .ok (false, l') → l'.Splittable key))

instance {h : ℕ} (key payload : Bytes) [DecidablePred (Advances key payload h)] (p : InnerNode (AnyNode h)) :
    Decidable (Advances key payload (h + 1) p) :=
  decidable_of_iff (∀ c, p.childFor key = .ok c → Advances key payload h c ∧
      ∀ length, overflow key payload h c = .ok length → ¬ p.Room length → 3 < p.node.count)
    (by simp only [Advances, overflow_eq_ok])

instance (key payload : Bytes) : (h : ℕ) → DecidablePred (Advances key payload h)
  | 0 => inferInstanceAs ((l : LeafNode) → Decidable (Advances key payload 0 l))
  | h + 1 =>
    have := instDecidablePredAdvances key payload h
    inferInstanceAs ((p : InnerNode (AnyNode h)) → Decidable (Advances key payload (h + 1) p))

variable {key payload : Bytes}

theorem leafFor_succ {h : ℕ} {p : InnerNode (AnyNode h)} {c : AnyNode h}
    (hc : InnerNode.childFor p key = .ok c) : leafFor (h + 1) p key = leafFor h c key := by
  simp only [InnerNode.childFor, bind_eq_ok] at hc
  obtain ⟨pos, hpos, hc⟩ := hc
  simp only [leafFor, hpos, hc, ok_bind]

theorem leafWeight_succ {h : ℕ} {p : InnerNode (AnyNode h)} {c : AnyNode h}
    (payload : Bytes) (hc : InnerNode.childFor p key = .ok c) :
    leafWeight key payload (h + 1) p = leafWeight key payload h c := by
  unfold leafWeight
  rw [leafFor_succ hc]

theorem pathCount_succ {h : ℕ} {p : InnerNode (AnyNode h)} {c : AnyNode h}
    (hc : InnerNode.childFor p key = .ok c) :
    pathCount key (h + 1) p = p.node.count + pathCount key h c := by
  simp only [pathCount, hc]

theorem Advances.boundaryOk : (h : ℕ) → {n : AnyNode h} → Advances key payload h n →
    BoundaryOk true key payload h n
  | 0, _, hn => fun l l' hl hl' => by
    obtain rfl := Except.ok.inj hl
    exact (hn.2 l' hl').boundaryOk
  | h + 1, p, hn => fun l l' hl hl' => by
    simp only [leafFor, bind_eq_ok] at hl
    obtain ⟨pos, hpos, c, hc, hl⟩ := hl
    have hchild : InnerNode.childFor p key = .ok c := by
      simp only [InnerNode.childFor, hpos, ok_bind, hc]
    exact Advances.boundaryOk h (hn c hchild).1 l l' hl hl'

/-- The leaf gets lighter, or it stays and `d` separators of the way are gone. -/
def Gains (d : ℕ) (w w' : ℕ ×ₗ ℕ) (s s' : ℕ) : Prop := w' < w ∨ w' = w ∧ s' + d ≤ s

structure Pushing (key payload : Bytes) (h : ℕ) (n n' : AnyNode h) (upper sep : Bytes)
    (left right : AnyNode h) : Prop where
  weight : leafWeight key payload h n' = leafWeight key payload h n
  count : pathCount key h n' = pathCount key h n
  overflows : Overflows key payload h n sep.length
  separatorLength : AnyNode.separatorLength h n' = .ok sep.length
  split : AnyNode.split key h n' = .ok (sep, left, right)
  fresh : sep ≠ upper
  left_gains : key ≤ sep → Gains 2 (leafWeight key payload h n) (leafWeight key payload h left)
    (pathCount key h n) (pathCount key h left)
  right_gains : sep < key → Gains 2 (leafWeight key payload h n) (leafWeight key payload h right)
    (pathCount key h n) (pathCount key h right)

def Advanced (key payload : Bytes) (h : ℕ) (n : AnyNode h) (upper : Bytes) : Round (AnyNode h) → Prop
  | .inserted _ => True
  | .split n' => Gains 1 (leafWeight key payload h n) (leafWeight key payload h n') (pathCount key h n)
      (pathCount key h n')
  | .full n' => ∃ sep left right, Pushing key payload h n n' upper sep left right

theorem leafWeight_leaf_lt {l m : LeafNode} (hpos : toLex (0, 0) < m.weight)
    (h : ∀ f, l.insert true key payload = .ok (false, f) → f.weight < m.weight) :
    leafWeight key payload 0 l < m.weight := by
  simp only [leafWeight, leafFor]
  split
  · rename_i f hf
    exact h f hf
  · exact hpos

theorem leafWeight_refused {l f : LeafNode} (h : l.insert true key payload = .ok (false, f)) :
    leafWeight key payload 0 l = f.weight := by
  simp only [leafWeight, leafFor, h]

theorem leafRound_advanced {l : LeafNode} {lower upper : Bytes} (hl : l.Inv true lower upper)
    (hk : InFences lower upper key) (hnew : key ∉ keys l.entries)
    (hlen : key.length + payload.length ≤ maxKVSize) (ha : Advances key payload 0 l) :
    ∃ res, l.insert true key payload = .ok res ∧ Advanced key payload 0 l upper (leafRound res) := by
  obtain ⟨inserted, l', hr⟩ := LeafNode.insert_ok hl hk hnew hlen ha.1
  refine ⟨(inserted, l'), hr, ?_⟩
  cases inserted with
  | true => trivial
  | false =>
    have hs := ha.2 l' hr
    obtain ⟨hent, hinv⟩ := LeafNode.refused_entries hl hk hnew hlen hr
    have hw := leafWeight_refused hr
    have hagain := leafWeight_refused (LeafNode.refusal hl hk hnew hlen hr).again
    obtain ⟨sep, left, right, adv⟩ := LeafNode.advancing hinv hk (hent.symm ▸ hnew) hlen hs
    refine ⟨sep, left, right, hagain.trans hw.symm, rfl, ⟨l', hr, adv.separatorLength⟩, adv.separatorLength,
      adv.split, adv.fresh, fun hle => Or.inl ?_, fun hlt => Or.inl ?_⟩
    · rw [hw]
      exact leafWeight_leaf_lt hs.weight_pos (adv.left_lt hle)
    · rw [hw]
      exact leafWeight_leaf_lt hs.weight_pos (adv.right_lt hlt)

theorem Gains.parent {d k : ℕ} {w w' : ℕ ×ₗ ℕ} {s s' m m' : ℕ} (h : Gains d w w' s s') (hm : m' + k ≤ m + d) :
    Gains k w w' (m + s) (m' + s') := by
  rcases h with h | ⟨h, hs⟩
  · exact Or.inl h
  · exact Or.inr ⟨h, by omega⟩

theorem splitBelow_advanced {h : ℕ} {p : InnerNode (AnyNode h)} {lower upper : Bytes} {i : ℕ}
    {c : AnyNode h} {a b : Bytes} {pre post : List (Bytes × Bytes)}
    (hp : InnerNode.Inv (Inv true h) p lower upper)
    (f : InnerNode.Focus (Inv true h) (entries h) p lower upper key i c a b pre post)
    {round : Round (AnyNode h)} (hsound : Sound true key payload h (entries h c) a b round)
    (hadv : Advanced key payload h c b round)
    (hcount : ∀ length, Overflows key payload h c length → ¬ p.Room length → 3 < p.node.count) :
    ∃ res, splitBelow p i key round = .ok res ∧ Advanced key payload (h + 1) p upper res := by
  have hchild : p.childFor key = .ok c := by
    rw [InnerNode.childFor, f.index, ok_bind, f.child]
  have hw := leafWeight_succ payload hchild
  have hs := pathCount_succ hchild
  have hlc : i < p.children.length := by
    rw [InnerNode.length_children]
    exact Nat.lt_succ_of_le f.le_count
  have hset : ∀ c', Inv true h c' a b → (p.setChild i c').childFor key = .ok c' := by
    intro c' hc'
    refine InnerNode.childFor_eq (f.put_inv c' hc') (i := i) (a := a) (b := b) ?_ ?_ ?_ f.inFences
    · rw [InnerNode.children_setChild f.le_count, List.getElem?_set_self hlc]
    · rw [InnerNode.separators_setChild]
      exact f.lower_at
    · rw [InnerNode.separators_setChild]
      exact f.upper_at
  cases round with
  | inserted c' => exact ⟨_, rfl, trivial⟩
  | split c' =>
    refine ⟨_, rfl, ?_⟩
    have hc' := hset c' hsound.1
    simp only [Advanced, hw, hs, leafWeight_succ payload hc', pathCount_succ hc',
      InnerNode.count_setChild]
    exact hadv.parent le_rfl
  | full c' =>
    obtain ⟨sep, left, right, push⟩ := hadv
    obtain ⟨hinv', -, hok⟩ := hsound
    have hhalves := split_halves h hinv' hok push.split
    have hc' := hset c' hinv'
    have hp₁ := f.put_inv c' hinv'
    have hi₁ : i ≤ (p.setChild i c').node.count := by
      rw [InnerNode.count_setChild]
      exact f.le_count
    have hc₁ : (p.setChild i c').children[i]? = some c' := by
      rw [InnerNode.children_setChild f.le_count, List.getElem?_set_self hlc]
    have ha₁ : (lower :: (p.setChild i c').separators)[i]? = some a := by
      rw [InnerNode.separators_setChild]
      exact f.lower_at
    have hb₁ : ((p.setChild i c').separators ++ [upper])[i]? = some b := by
      rw [InnerNode.separators_setChild]
      exact f.upper_at
    by_cases hroom : (p.setChild i c').Room sep.length
    · obtain ⟨q, hq⟩ := InnerNode.splitChild_room hp₁ hi₁ ha₁ hb₁ hhalves.between push.fresh hroom left right
      have hcases : ∀ s l r, (Except.ok (sep, left, right) : Except Fault _) = .ok (s, l, r) →
          Halves (Inv true h) (entries h) (entries h c') a b s l r := by
        intro s l r he
        cases he
        exact hhalves
      obtain ⟨_, _, _, he, hbelow, -⟩ := InnerNode.splitChild_spec hp₁ hc₁ ha₁ hb₁ hcases hq
      cases he
      obtain ⟨hqc, hql, hqr⟩ := hbelow.leads hi₁ ha₁ hb₁ f.inFences
      refine ⟨.split q, ?_, ?_⟩
      · simp only [splitBelow, splitNodeWithParent, push.separatorLength, push.split, hq, ok_bind]
        rfl
      · rw [InnerNode.count_setChild] at hqc
        rcases le_or_gt key sep with hle | hlt
        · simp only [Advanced, hw, hs, leafWeight_succ payload (hql hle), pathCount_succ (hql hle),
            hqc]
          exact (push.left_gains hle).parent (by omega)
        · simp only [Advanced, hw, hs, leafWeight_succ payload (hqr hlt), pathCount_succ (hqr hlt),
            hqc]
          exact (push.right_gains hlt).parent (by omega)
    · have hnoroom : ¬ p.Room sep.length := fun hr => hroom ((InnerNode.room_setChild p i c' _).mpr hr)
      have h₃ := hcount sep.length push.overflows hnoroom
      have hfull := InnerNode.splitChild_full hp₁ i (hp₁.inFences_of_between ha₁ hb₁ hhalves.between) hroom
        (split key h c')
      obtain ⟨sep₀, l₀, r₀, hlen₀, hsplit₀⟩ := InnerNode.split_ok hp h₃
      obtain ⟨sep₁, l₁, r₁, hlen₁, hsplit₁⟩ := InnerNode.split_ok hp₁ (by rwa [InnerNode.count_setChild])
      obtain ⟨-, slot₀, hat₀⟩ := InnerNode.split_spec (E := entries h) hp hsplit₀
      obtain ⟨hh, slot₁, hat₁⟩ := InnerNode.split_spec (E := entries h) hp₁ hsplit₁
      have hsep : sep₁ = sep₀ := by
        have hs₀ := hat₀.sep_at
        have hs₁ := hat₁.sep_at
        rw [hat₁.slot_eq, InnerNode.separators_setChild, InnerNode.count_setChild, ← hat₀.slot_eq, hs₀] at hs₁
        exact (Option.some.inj hs₁).symm
      obtain ⟨hl, hr⟩ := hat₁.leads hp₁ hh.left_inv hh.right_inv hc₁ ha₁ hb₁ f.inFences
      rw [InnerNode.count_setChild] at hl hr
      refine ⟨.full (p.setChild i c'), ?_, sep₁, l₁, r₁, ?_, ?_,
        ⟨c, sep.length, hchild, push.overflows, hnoroom, hsep ▸ hlen₀⟩, hlen₁, hsplit₁, hat₁.fresh hp₁,
        fun hle => Or.inr ⟨?_, ?_⟩, fun hlt => Or.inr ⟨?_, ?_⟩⟩
      · simp only [splitBelow, splitNodeWithParent, push.separatorLength, hfull, ok_bind]
        rfl
      · rw [leafWeight_succ payload hc', hw, push.weight]
      · rw [pathCount_succ hc', hs, InnerNode.count_setChild, push.count]
      · rw [leafWeight_succ payload (hl hle).1, hw, push.weight]
      · rw [pathCount_succ (hl hle).1, hs, push.count]
        have hle' := (hl hle).2
        omega
      · rw [leafWeight_succ payload (hr hlt).1, hw, push.weight]
      · rw [pathCount_succ (hr hlt).1, hs, push.count]
        have hle' := (hr hlt).2
        omega

theorem insertRound_advanced : (h : ℕ) → {n : AnyNode h} → {lower upper : Bytes} →
    Inv true h n lower upper → InFences lower upper key → key ∉ keys (entries h n) →
    key.length + payload.length ≤ maxKVSize → Advances key payload h n →
    ∃ round, insertRound true key payload h n = .ok round ∧ Advanced key payload h n upper round
  | 0, l, _, _, hn, hk, hnew, hlen, ha => by
    obtain ⟨res, hr, hadv⟩ := leafRound_advanced (l := l) hn hk hnew hlen ha
    exact ⟨leafRound res, by simp only [insertRound, hr, ok_bind]; rfl, hadv⟩
  | h + 1, p, lower, upper, hn, hk, hnew, hlen, ha => by
    obtain ⟨i, c, a, b, pre, post, f⟩ := InnerNode.Inv.focus (p := p) hn (lawful h) hk
    have hchild : InnerNode.childFor p key = .ok c := by
      simp only [InnerNode.childFor, f.index, ok_bind, f.child]
    obtain ⟨hac, hcount⟩ := ha c hchild
    have hnewc : key ∉ keys (entries h c) := by
      intro hm
      rw [entries, f.entries, keys_append, keys_append] at hnew
      exact hnew (List.mem_append_left _ (List.mem_append_right _ hm))
    obtain ⟨round, hround, hadv⟩ := insertRound_advanced h f.inv f.inFences hnewc hlen hac
    have hsound := insertRound_sound h f.inv f.inFences hnewc hlen hac.boundaryOk hround
    obtain ⟨res, hres, hadv'⟩ := splitBelow_advanced hn f hsound hadv hcount
    refine ⟨res, ?_, hadv'⟩
    simp only [insertRound, f.index, f.child, ok_bind, hround]
    exact hres

end AnyNode

namespace BTree

variable {key payload : Bytes}

def Advances (key payload : Bytes) (t : BTree) : Prop := AnyNode.Advances key payload t.height t.root

instance (key payload : Bytes) (t : BTree) : Decidable (t.Advances key payload) :=
  inferInstanceAs (Decidable (AnyNode.Advances _ _ _ _))

/-- Every round of the insertion meets its conditions. -/
def AdvancesOn (key payload : Bytes) (t : BTree) : Prop :=
  ∀ t', Relation.ReflTransGen (Restarts true key payload) t t' → t'.Advances key payload

/-- What the rounds of an insertion use up. -/
def measure (key payload : Bytes) (t : BTree) : (ℕ ×ₗ ℕ) ×ₗ ℕ :=
  toLex (AnyNode.leafWeight key payload t.height t.root, AnyNode.pathCount key t.height t.root)

theorem AdvancesOn.boundariesOk {t : BTree} (h : t.AdvancesOn key payload) :
    t.BoundariesOk true key payload := fun t' ht' => (h t' ht').boundaryOk

theorem measure_lt_of_gains {h h' : ℕ} {n : AnyNode h} {n' : AnyNode h'}
    (hg : AnyNode.Gains 1 (AnyNode.leafWeight key payload h n) (AnyNode.leafWeight key payload h' n')
      (AnyNode.pathCount key h n) (AnyNode.pathCount key h' n')) :
    measure key payload ⟨h', n'⟩ < measure key payload ⟨h, n⟩ := by
  rw [measure, measure, Prod.Lex.toLex_lt_toLex]
  rcases hg with hw | ⟨hw, hs⟩
  · exact Or.inl hw
  · exact Or.inr ⟨hw, hs⟩

theorem makeRoot_room {γ : Type} [ChildPointer γ] (child : γ) {length : ℕ} (hl : length ≤ maxKVSize) :
    (InnerNode.makeRoot child).Room length := by
  simp only [InnerNode.Room, InnerNode.makeRoot, BTreeNode.freeSpaceAfterCompaction, BTreeNode.init,
    BTreeNode.count, List.length_nil, maxKVSize, pageSize, headerSize, slotSize, slotsOffset, pointerSize]
    at hl ⊢
  omega

theorem splitRoot_advanced {h : ℕ} {n n' : AnyNode h} {sep : Bytes} {left right : AnyNode h}
    (hinv : AnyNode.Inv true h n' [] []) (hok : AnyNode.SplitOk h n')
    (push : AnyNode.Pushing key payload h n n' [] sep left right) :
    ∃ t, splitRoot key n' = .ok t ∧ t.measure key payload < measure key payload ⟨h, n⟩ := by
  have hhalves := AnyNode.split_halves h hinv hok push.split
  have hp := makeRoot_inv hinv
  obtain ⟨q, hq⟩ := InnerNode.splitChild_room hp (i := 0) (a := []) (b := []) (Nat.zero_le _) rfl rfl
    hhalves.between push.fresh (makeRoot_room n' hhalves.sep_len) left right
  have hcases : ∀ s l r, (Except.ok (sep, left, right) : Except Fault _) = .ok (s, l, r) →
      Halves (AnyNode.Inv true h) (AnyNode.entries h) (AnyNode.entries h n') [] [] s l r := by
    intro s l r he
    cases he
    exact hhalves
  obtain ⟨_, _, _, he, hbelow, -⟩ :=
    InnerNode.splitChild_spec hp (i := 0) (c := n') (a := []) (b := []) rfl rfl rfl hcases hq
  cases he
  obtain ⟨hqc, hql, hqr⟩ := hbelow.leads (i := 0) (a := []) (b := []) (Nat.zero_le _) rfl rfl (inFences_nil key)
  have hqc' : q.node.count = 0 + 1 := hqc
  refine ⟨⟨h + 1, q⟩, ?_, measure_lt_of_gains ?_⟩
  · simp only [splitRoot, AnyNode.splitNodeWithParent, push.separatorLength, push.split, hq, ok_bind]
    rfl
  · rcases le_or_gt key sep with hle | hlt
    · rw [AnyNode.leafWeight_succ payload (hql hle), AnyNode.pathCount_succ (hql hle), hqc',
        ← Nat.zero_add (AnyNode.pathCount key h n)]
      exact (push.left_gains hle).parent (by omega)
    · rw [AnyNode.leafWeight_succ payload (hqr hlt), AnyNode.pathCount_succ (hqr hlt), hqc',
        ← Nat.zero_add (AnyNode.pathCount key h n)]
      exact (push.right_gains hlt).parent (by omega)

theorem insertRound_advanced {t : BTree} (h : t.Inv true) (hnew : key ∉ keys t.entries)
    (hlen : key.length + payload.length ≤ maxKVSize) (ha : t.Advances key payload) :
    ∃ inserted t', t.insertRound true key payload = .ok (inserted, t') ∧
      (inserted = false → t'.measure key payload < t.measure key payload) := by
  obtain ⟨round, hround, hadv⟩ := AnyNode.insertRound_advanced t.height h (inFences_nil key) hnew hlen ha
  have hsound := AnyNode.insertRound_sound t.height h (inFences_nil key) hnew hlen ha.boundaryOk hround
  simp only [insertRound, hround, ok_bind]
  cases round with
  | inserted n => exact ⟨true, _, rfl, fun hc => absurd hc.symm Bool.false_ne_true⟩
  | split n => exact ⟨false, _, rfl, fun _ => measure_lt_of_gains hadv⟩
  | full n =>
    obtain ⟨sep, left, right, push⟩ := hadv
    obtain ⟨t', ht', hlt⟩ := splitRoot_advanced hsound.1 hsound.2.2 push
    exact ⟨false, t', by simp only [finishRound, ht', ok_bind]; rfl, fun _ => hlt⟩

theorem insertImpl_returns {t : BTree} (h : t.Inv true) (hnew : key ∉ keys t.entries)
    (hlen : key.length + payload.length ≤ maxKVSize) (ha : t.AdvancesOn key payload) :
    ∃ fuel t', insertImpl true key payload fuel t = .ok t' := by
  induction hm : t.measure key payload using WellFoundedLT.induction generalizing t with
  | ind m ih =>
    obtain ⟨inserted, t₁, hround, hlt⟩ := insertRound_advanced h hnew hlen (ha t .refl)
    cases inserted with
    | true => exact ⟨1, t₁, by simp only [insertImpl, ensure_of hlen, hround, ok_bind]; rfl⟩
    | false =>
      obtain ⟨hinv, -, hkept⟩ := insertRound_spec h hnew hlen (ha t .refl).boundaryOk hround
      obtain ⟨fuel, t', ht'⟩ := ih _ (hm ▸ hlt rfl) hinv (by rwa [hkept rfl])
        (fun t₂ h₂ => ha t₂ (.head hround h₂)) rfl
      exact ⟨fuel + 1, t', by simp only [insertImpl, ensure_of hlen, hround, ok_bind]; exact ht'⟩

theorem sufficient_of_advances : Sufficient true AdvancesOn := fun _ _ _ _ _ _ h => h.boundariesOk

/-- In a tree reached by insertions that meet their conditions, one more of them comes to an end with
the entry stored. -/
theorem insertImpl_stores {t : BTree} (h : Reachable true AdvancesOn t) (hnew : key ∉ keys t.entries)
    (hlen : key.length + payload.length ≤ maxKVSize) (ha : t.AdvancesOn key payload) :
    ∃ fuel t', insertImpl true key payload fuel t = .ok t' ∧ t'.lookupImpl key = .ok (some payload) ∧
      Inserted key payload t.entries t'.entries := by
  have hinv := h.inv sufficient_of_advances
  obtain ⟨fuel, t', ht'⟩ := insertImpl_returns hinv hnew hlen ha
  obtain ⟨hinv', hins⟩ := insertImpl_spec fuel hinv hnew ha.boundariesOk ht'
  refine ⟨fuel, t', ht', ?_, hins⟩
  rw [lookupImpl_spec hinv', hins.lookup hinv'.ascending, if_pos rfl]

theorem leaf_advancesOn {n : BTreeNode Bytes} (h : BTree.Inv true ⟨0, .basic n⟩) (hnew : key ∉ keys n.entries)
    (hlen : key.length + payload.length ≤ maxKVSize)
    (hroom : slotSize + (key.length - n.prefixLength) + payload.length ≤ n.freeSpaceAfterCompaction) :
    AdvancesOn key payload ⟨0, .basic n⟩ := by
  obtain ⟨n', hn', -⟩ := LeafNode.basic_insert_room h (inFences_nil key) hnew hlen hroom
  have hins : LeafNode.insert true (.basic n) key payload = .ok (true, .basic n') := hn'
  have ha : Advances key payload ⟨0, .basic n⟩ := by
    refine ⟨fun hfull => absurd hfull (Nat.not_lt.mpr hroom), fun l' hl' => ?_⟩
    rw [hins] at hl'
    cases hl'
  have hround : insertRound true key payload ⟨0, .basic n⟩ = .ok (true, ⟨0, .basic n'⟩) := by
    simp only [insertRound, AnyNode.insertRound, hins, ok_bind]
    rfl
  exact fun t ht => eq_of_inserted hround ht ▸ ha

theorem empty_advancesOn (hlen : key.length + payload.length ≤ maxKVSize) : AdvancesOn key payload empty :=
  leaf_advancesOn empty_inv List.not_mem_nil hlen (LeafNode.empty_has_room empty_inv rfl hlen)

theorem AdvancesOn.of_rounds {fuel : ℕ} {t : BTree} (h : Rounds true key payload (Advances key payload) fuel t) :
    t.AdvancesOn key payload := fun _ ht' => h.forall ht'

theorem insertImpl_of_rounds {P : BTree → Prop} {fuel fuel' : ℕ} {t t' : BTree} (h : Rounds true key payload P fuel t)
    (ht' : insertImpl true key payload fuel' t = .ok t') : insertImpl true key payload fuel t = .ok t' := by
  induction fuel' generalizing fuel t with
  | zero => cases ht'
  | succ fuel' ih =>
    cases fuel with
    | zero => exact h.elim
    | succ fuel =>
      simp only [insertImpl, bind_eq_ok, Prod.exists] at ht' ⊢
      obtain ⟨u, hlen, inserted, t₁, hround, ht'⟩ := ht'
      refine ⟨u, hlen, inserted, t₁, hround, ?_⟩
      cases inserted with
      | true => exact ht'
      | false => exact ih (h.2 t₁ hround) ht'

def splitsFor (key payload : Bytes) (t : BTree) : Bool :=
  decide (key ∉ keys t.entries) && decide (Rounds true key payload (Advances key payload) 4 t) &&
    match t.insertRound true key payload with
    | .ok (false, _) => true
    | _ => false

theorem splitsFor_spec {t : BTree} (h : splitsFor key payload t = true) :
    key ∉ keys t.entries ∧ t.AdvancesOn key payload ∧ ∃ u, Restarts true key payload t u := by
  simp only [splitsFor, Bool.and_eq_true, decide_eq_true_eq] at h
  obtain ⟨⟨hnew, hrounds⟩, hround⟩ := h
  refine ⟨hnew, .of_rounds hrounds, ?_⟩
  split at hround
  · next u hu => exact ⟨u, hu⟩
  · cases hround

/-- Of nine keys the fourth makes the leaf dense, the fifth splits it below a new root, and the ninth splits
the right one of its halves. -/
theorem insertImpl_stores_split : ∃ t u fuel t', Reachable true AdvancesOn t ∧ Restarts true [8] kilobyte t u ∧
    insertImpl true [8] kilobyte fuel t = .ok t' ∧ t'.lookupImpl [8] = .ok (some kilobyte) := by
  have hrun : runReaches true 4 (fun key payload => Rounds true key payload (Advances key payload) 4)
      ((List.range 8).map fun k => .insert [Fin.ofNat 256 k] kilobyte) (splitsFor [8] kilobyte) = true := by
    decide +kernel
  obtain ⟨t, ht, hc⟩ := runReaches_spec (fun _ _ _ h => AdvancesOn.of_rounds h) hrun
  obtain ⟨hnew, hadv, u, hu⟩ := splitsFor_spec hc
  obtain ⟨fuel, t', ht', hlook, -⟩ := insertImpl_stores ht hnew (by rw [length_kilobyte]; decide) hadv
  exact ⟨t, u, fuel, t', ht, hu, ht', hlook⟩

def abortsAfter (a b c payload : Bytes) : Bool :=
  match insertImpl true a payload 1 empty with
  | .error _ => false
  | .ok t => match insertImpl true b payload 1 t with
    | .error _ => false
    | .ok t' => decide (b ∉ keys t.entries) && (decide (c ∉ keys t'.entries) &&
      match insertImpl true c payload 2 t' with
      | .error e => e == .abort
      | .ok _ => false)

theorem abortsAfter_spec {a b c payload : Bytes} (h : abortsAfter a b c payload = true) :
    ∃ t, Reachable true (fun _ _ _ => True) t ∧ c ∉ keys t.entries ∧
      insertImpl true c payload 2 t = .error .abort := by
  unfold abortsAfter at h
  split at h
  · cases h
  · rename_i t ht
    split at h
    · cases h
    · rename_i t' ht'
      simp only [Bool.and_eq_true, decide_eq_true_eq] at h
      obtain ⟨hb, hc, h⟩ := h
      refine ⟨t', .call (.call .empty (.insert List.not_mem_nil trivial ht)) (.insert hb trivial ht'), hc, ?_⟩
      split at h
      · rename_i e he
        rw [he, eq_of_beq h]
      · cases h

def largest : Bytes := List.replicate (maxKVSize - 1) 0

/-- The largest entry at `a` splits the leaf of `b` and `c` at `c`, and then once more. -/
theorem insertImpl_aborts : ∃ t, Reachable true (fun _ _ _ => True) t ∧ [97] ∉ keys t.entries ∧
    [97].length + largest.length ≤ maxKVSize ∧ insertImpl true [97] largest 2 t = .error .abort := by
  have hrun : abortsAfter [98] [99] [97] largest = true := by decide +kernel
  obtain ⟨t, ht, hnew, habort⟩ := abortsAfter_spec hrun
  refine ⟨t, ht, hnew, ?_, habort⟩
  rw [largest, List.length_replicate]
  decide

end BTree

end BtreeRedis
