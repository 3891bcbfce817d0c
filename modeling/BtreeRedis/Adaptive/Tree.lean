import BtreeRedis.Adaptive.Leaf
import BtreeRedis.Tree.Row

/-!
# Trees with adaptive leaves

Inner nodes are those of any tree. An operation that stays in one leaf may change its kind,
its counter and the order of its slots, and draws random numbers on the way; seen as a row
of fences and entries the tree remains the same.
-/

namespace BtreeRedis

open LexOrder SortedAssoc Outcome

instance : ChildPointer AdaptiveLeaf where
  len _ := pointerSize
  len_eq _ := rfl

def AdaptiveNode : ℕ → Type
  | 0 => AdaptiveLeaf
  | h + 1 => InnerNode (AdaptiveNode h)

instance (h : ℕ) : ChildPointer (AdaptiveNode h) where
  len _ := pointerSize
  len_eq _ := rfl

structure AdaptiveTree where
  height : ℕ
  root : AdaptiveNode height

structure LeafShape where
  lower : Bytes
  upper : Bytes
  entries : List (Bytes × Bytes)

instance : Fenced LeafShape where
  lowerFence := LeafShape.lower
  upperFence := LeafShape.upper

namespace LeafShape

def HasRoom (s : LeafShape) : Prop := s.upper = [] ∨ s.lower < s.upper

instance (s : LeafShape) : Decidable s.HasRoom := inferInstanceAs (Decidable (_ ∨ _))

def asRow (s : LeafShape) : List LeafShape := if s.HasRoom then [s] else []

end LeafShape

def AdaptiveLeaf.shape (l : AdaptiveLeaf) : LeafShape := ⟨l.lowerFence, l.upperFence, l.entries⟩

namespace AdaptiveNode

def entries : (h : ℕ) → AdaptiveNode h → List (Bytes × Bytes)
  | 0, l => AdaptiveLeaf.entries l
  | h + 1, p => InnerNode.entriesOf (entries h) p

def shapes : (h : ℕ) → AdaptiveNode h → List LeafShape
  | 0, l => (AdaptiveLeaf.shape l).asRow
  | h + 1, p => (InnerNode.children p).flatMap (shapes h)

def leafFor (c : Config) : (h : ℕ) → AdaptiveNode h → Bytes → Except Fault AdaptiveLeaf
  | 0, l, _ => AdaptiveLeaf.tag c l
  | h + 1, p, key => do
    let pos ← InnerNode.lookupInnerIndex p key
    let child ← InnerNode.getChild p pos
    leafFor c h child key

def onLeaf {ω : Type} (c : Config) (f : AdaptiveLeaf → Except Fault (ω × AdaptiveLeaf)) (key : Bytes) :
    (h : ℕ) → AdaptiveNode h → Except Fault (ω × AdaptiveNode h)
  | 0, l => do
    let leaf ← AdaptiveLeaf.tag c l
    f leaf
  | h + 1, p => do
    let pos ← InnerNode.lookupInnerIndex p key
    let child ← InnerNode.getChild p pos
    let (res, child) ← onLeaf c f key h child
    pure (res, InnerNode.setChild p pos child)

variable [KeyHash]

def Inv (c : Config) : (h : ℕ) → AdaptiveNode h → Bytes → Bytes → Prop
  | 0, l, lower, upper => AdaptiveLeaf.Inv c l lower upper
  | h + 1, p, lower, upper => InnerNode.Inv (Inv c h) p lower upper

end AdaptiveNode

namespace AdaptiveTree

def entries (t : AdaptiveTree) : List (Bytes × Bytes) := AdaptiveNode.entries t.height t.root

def shapes (t : AdaptiveTree) : List LeafShape := AdaptiveNode.shapes t.height t.root

def leafFor (c : Config) (t : AdaptiveTree) (key : Bytes) : Except Fault AdaptiveLeaf :=
  AdaptiveNode.leafFor c t.height t.root key

def onLeaf {ω : Type} (c : Config) (f : AdaptiveLeaf → Except Fault (ω × AdaptiveLeaf)) (key : Bytes)
    (t : AdaptiveTree) : Except Fault (ω × AdaptiveTree) := do
  let (res, root) ← AdaptiveNode.onLeaf c f key t.height t.root
  pure (res, ⟨t.height, root⟩)

variable [KeyHash]

def Inv (c : Config) (t : AdaptiveTree) : Prop := AdaptiveNode.Inv c t.height t.root [] []

def lookupImpl (c : Config) (t : AdaptiveTree) (key : Bytes) (draws : Draws) :
    Except Fault (Option Bytes × Draws × AdaptiveTree) := do
  let ((payload, draws), t) ← t.onLeaf c (fun l => do
    let (payload, l, draws) ← l.lookup c key draws
    pure ((payload, draws), l)) key
  pure (payload, draws, t)

end AdaptiveTree

variable [KeyHash] {c : Config} {lower upper key : Bytes}

namespace AdaptiveLeaf
variable {l : AdaptiveLeaf}

theorem Inv.tag (h : Inv c l lower upper) : l.tag c = .ok l := by
  rw [AdaptiveLeaf.tag, ensure_of h.tagOk]
  rfl

theorem Inv.entries_closed (h : Inv c l lower upper) (hroom : ¬ l.shape.HasRoom) : l.entries = [] := by
  refine List.eq_nil_iff_forall_not_mem.mpr fun e he => hroom ?_
  change l.upperFence = [] ∨ l.lowerFence < l.upperFence
  rw [h.lowerFence, h.upperFence]
  exact (h.inFences he).hasRoom

end AdaptiveLeaf

namespace AdaptiveNode

theorem lawful (h : ℕ) : InnerNode.Lawful (Inv c h) (entries h) := by
  induction h with
  | zero => exact fun _ _ _ hc => ⟨AdaptiveLeaf.Inv.sorted_entries hc, fun _ he => AdaptiveLeaf.Inv.inFences hc he⟩
  | succ h ih => exact fun _ _ _ hc => InnerNode.Inv.entries_spec hc ih

theorem leaf_routed {l : AdaptiveLeaf} (h : l.Inv c lower upper) :
    Routed (fun n key => (leafFor c 0 n key).map AdaptiveLeaf.shape) (shapes 0) l lower upper := by
  refine .of_leaf h.lowerFence h.upperFence h.fences (fun key => ?_) (fun hroom => if_pos hroom)
    fun hroom => if_neg hroom
  simp only [leafFor, h.tag]
  rfl

theorem routed : (h : ℕ) → {n : AdaptiveNode h} → {lower upper : Bytes} → Inv c h n lower upper →
    Routed (fun n key => (leafFor c h n key).map AdaptiveLeaf.shape) (shapes h) n lower upper
  | 0, _, _, _, hn => leaf_routed hn
  | h + 1, n, lower, upper, hn => by
    have hbelow := InnerNode.Inv.routed hn fun _ _ _ hc => routed h hc
    have hroute : (fun n key => (leafFor c (h + 1) n key).map AdaptiveLeaf.shape) =
        InnerNode.routeBelow fun n key => (leafFor c h n key).map AdaptiveLeaf.shape := by
      funext p key
      simp only [leafFor, InnerNode.routeBelow]
      cases InnerNode.lookupInnerIndex p key with
      | error e => rfl
      | ok pos =>
        simp only [ok_bind]
        cases InnerNode.getChild p pos <;> rfl
    rwa [← hroute] at hbelow

theorem entries_eq_shapes : (h : ℕ) → {n : AdaptiveNode h} → {lower upper : Bytes} → Inv c h n lower upper →
    entries h n = (shapes h n).flatMap LeafShape.entries
  | 0, l, _, _, hn => by
    have hleaf : AdaptiveLeaf.Inv c l _ _ := hn
    change AdaptiveLeaf.entries l = (AdaptiveLeaf.shape l).asRow.flatMap LeafShape.entries
    rw [LeafShape.asRow]
    split_ifs with hroom
    · exact (List.flatMap_singleton ..).symm
    · exact hleaf.entries_closed hroom
  | h + 1, p, _, _, hn => by
    change (InnerNode.children p).flatMap (entries h) =
      ((InnerNode.children p).flatMap (shapes h)).flatMap LeafShape.entries
    rw [List.flatMap_assoc]
    apply List.flatMap_congr
    intro child hchild
    obtain ⟨a, b, hP⟩ := (InnerNode.Inv.chain hn).forall_mem child hchild
    exact entries_eq_shapes h hP

theorem shapes_within : (h : ℕ) → {n : AdaptiveNode h} → {lower upper : Bytes} → Inv c h n lower upper →
    ∀ s ∈ shapes h n, s.lower.length ≤ maxKVSize ∧ s.upper.length ≤ maxKVSize ∧ Ascending (keys s.entries) ∧
      ∀ e ∈ s.entries, InFences s.lower s.upper e.1 ∧ e.1.length + e.2.length ≤ maxKVSize
  | 0, l, _, _, hn, s, hs => by
    have hleaf : AdaptiveLeaf.Inv c l _ _ := hn
    obtain rfl : s = l.shape := by
      change s ∈ (AdaptiveLeaf.shape l).asRow at hs
      rw [LeafShape.asRow] at hs
      split_ifs at hs
      · exact List.mem_singleton.mp hs
      · exact absurd hs List.not_mem_nil
    have hlow : l.shape.lower = _ := hleaf.lowerFence
    have hupp : l.shape.upper = _ := hleaf.upperFence
    rw [hlow, hupp]
    exact ⟨hleaf.lower_len, hleaf.upper_len, hleaf.sorted_entries,
      fun e he => ⟨hleaf.inFences he, hleaf.entry_len e he⟩⟩
  | h + 1, p, _, _, hn, s, hs => by
    obtain ⟨child, hchild, hs⟩ := List.mem_flatMap.mp hs
    obtain ⟨a, b, hP⟩ := (InnerNode.Inv.chain hn).forall_mem child hchild
    exact shapes_within h hP s hs

theorem shape_of_kept {l l' : AdaptiveLeaf} (h : l.Inv c lower upper) (hk : AdaptiveLeaf.Kept c l l' lower upper) :
    l'.shape = l.shape := by
  rw [AdaptiveLeaf.shape, AdaptiveLeaf.shape, hk.inv.lowerFence, hk.inv.upperFence, hk.entries, h.lowerFence,
    h.upperFence]

section
omit [KeyHash]

theorem shapes_setChild {h : ℕ} {p : InnerNode (AdaptiveNode h)} {i : ℕ} {child child' : AdaptiveNode h}
    (hi : i ≤ p.node.count) (hget : p.getChild i = .ok child) (hs : shapes h child' = shapes h child) :
    shapes (h + 1) (p.setChild i child') = shapes (h + 1) p := by
  obtain ⟨hlt, rfl⟩ := List.getElem?_eq_some_iff.mp ((InnerNode.getChild_eq_ok hi).mp hget)
  change (InnerNode.children (p.setChild i child')).flatMap (shapes h) = p.children.flatMap (shapes h)
  rw [InnerNode.children_setChild hi, InnerNode.set_eq_take_append hlt]
  conv_rhs => rw [← List.take_append_drop i p.children, ← List.getElem_cons_drop hlt]
  simp only [List.flatMap_append, List.flatMap_cons, List.flatMap_nil, List.append_nil, List.append_assoc, hs]

end

theorem onLeaf_spec {ω : Type} {f : AdaptiveLeaf → Except Fault (ω × AdaptiveLeaf)} : (h : ℕ) →
    {n : AdaptiveNode h} → {lower upper : Bytes} → Inv c h n lower upper → InFences lower upper key →
    ∃ l a b, leafFor c h n key = .ok l ∧ l.Inv c a b ∧ InFences a b key ∧
      ∀ (S : Fault → Prop) (Q : ω → Prop),
        Yields S (fun r => Q r.1 ∧ AdaptiveLeaf.Kept c l r.2 a b) (f l) →
          Yields S (fun r => Q r.1 ∧ Inv c h r.2 lower upper ∧ shapes h r.2 = shapes h n) (onLeaf c f key h n)
  | 0, l, lower, upper, hn, hk => by
    have hleaf : AdaptiveLeaf.Inv c l lower upper := hn
    refine ⟨l, lower, upper, hleaf.tag, hleaf, hk, fun S Q hf => ?_⟩
    rw [onLeaf, hleaf.tag]
    apply Yields.mono (x := f l) hf
    rintro r ⟨hQ, hkept⟩
    exact ⟨hQ, hkept.inv, congrArg LeafShape.asRow (shape_of_kept hleaf hkept)⟩
  | h + 1, p, lower, upper, hn, hk => by
    obtain ⟨i, child, a, b, pre, post, g⟩ := InnerNode.Inv.focus (p := p) hn (lawful h) hk
    obtain ⟨l, a', b', hl, hinv, hin, hyields⟩ := onLeaf_spec h g.inv g.inFences
    refine ⟨l, a', b', by simp only [leafFor, g.index, g.child, ok_bind, hl], hinv, hin, fun S Q hf => ?_⟩
    simp only [onLeaf, g.index, g.child, ok_bind]
    apply (hyields S Q hf).bind
    rintro r ⟨hQ, hr, hs⟩
    exact ⟨hQ, g.put_inv _ hr, shapes_setChild g.le_count g.child hs⟩

end AdaptiveNode

namespace AdaptiveTree
variable {t : AdaptiveTree}

theorem Inv.row (h : t.Inv c) : Row [] t.shapes [] := (AdaptiveNode.routed t.height h).row

theorem Inv.within (h : t.Inv c) : Located.Within LeafShape.entries t.shapes :=
  fun s hs e he => ((AdaptiveNode.shapes_within t.height h s hs).2.2.2 e he).1

theorem Inv.entries_eq (h : t.Inv c) : t.entries = t.shapes.flatMap LeafShape.entries :=
  AdaptiveNode.entries_eq_shapes t.height h

theorem Inv.ascending (h : t.Inv c) : Ascending (keys t.entries) := (AdaptiveNode.lawful t.height t.root [] [] h).1

theorem Inv.onLeaf {ω : Type} (h : t.Inv c) (f : AdaptiveLeaf → Except Fault (ω × AdaptiveLeaf)) (key : Bytes) :
    ∃ l before after, Located key t.shapes before l.shape after ∧ l.Inv c l.lowerFence l.upperFence ∧
      InFences l.lowerFence l.upperFence key ∧ ∀ (S : Fault → Prop) (Q : ω → Prop),
        Yields S (fun r => Q r.1 ∧ AdaptiveLeaf.Kept c l r.2 l.lowerFence l.upperFence) (f l) →
          Yields S (fun r => Q r.1 ∧ r.2.Inv c ∧ r.2.shapes = t.shapes) (t.onLeaf c f key) := by
  obtain ⟨l, a, b, hl, hinv, hin, hyields⟩ := AdaptiveNode.onLeaf_spec (f := f) t.height h (inFences_nil key)
  obtain ⟨before, s, after, hloc, -, hroute⟩ := (AdaptiveNode.routed t.height h).located key (inFences_nil key)
  simp only [hl] at hroute
  obtain rfl : l.shape = s := Except.ok.inj hroute
  obtain rfl := hinv.lowerFence
  obtain rfl := hinv.upperFence
  refine ⟨l, before, after, hloc, hinv, hin, fun S Q hf => ?_⟩
  apply (hyields S Q hf).bind
  exact fun _ hr => hr

theorem Inv.lookup_located (h : t.Inv c) {before after : List LeafShape} {s : LeafShape}
    (hloc : Located key t.shapes before s after) : s.entries.lookup key = t.entries.lookup key := by
  have hpre := not_mem_keys_of_lt (hloc.before_entries h.within)
  have hpost := not_mem_keys_of_gt (hloc.after_entries h.row h.within)
  rw [h.entries_eq, hloc.eq, List.flatMap_append, List.flatMap_cons, lookup_append_right hpre,
    lookup_append_left hpost]

theorem lookupImpl_contained (h : t.Inv c) (key : Bytes) (draws : Draws) :
    Contained (fun r => r.1 = t.entries.lookup key ∧ r.2.2.Inv c ∧ r.2.2.shapes = t.shapes)
      (t.lookupImpl c key draws) := by
  obtain ⟨l, before, after, hloc, hinv, hin, hyields⟩ := h.onLeaf (fun l => do
    let (payload, l, draws) ← l.lookup c key draws
    pure ((payload, draws), l)) key
  have hleaf : Contained (fun r : (Option Bytes × Draws) × AdaptiveLeaf => r.1.1 = t.entries.lookup key ∧
      AdaptiveLeaf.Kept c l r.2 l.lowerFence l.upperFence) (do
        let (payload, l, draws) ← l.lookup c key draws
        pure ((payload, draws), l)) := by
    apply (AdaptiveLeaf.lookup_contained hinv hin draws).bind
    rintro r ⟨hr, hkept⟩
    exact ⟨hr.trans (h.lookup_located hloc), hkept⟩
  apply (hyields Fault.Stops (fun r => r.1 = t.entries.lookup key) hleaf).bind
  exact fun _ hr => hr

end AdaptiveTree

end BtreeRedis
