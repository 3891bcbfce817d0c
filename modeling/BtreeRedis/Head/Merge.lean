import BtreeRedis.Head.Refine
import BtreeRedis.Tree.BasicNodes

/-!
# Merging two neighbours below an inner node

`mergeNodes` rebuilds two neighbours of one kind in a temporary page that then replaces the right
one, and takes the slot of the left one out of the parent. Two leaves are merged as they should be.
Of two inner nodes the separator between them is stored in the left page instead of the temporary
one, whose slot for it is left as it was on the stack.
-/

namespace BtreeRedis

open LexOrder SortedAssoc

namespace AnyInner
variable {γ : Type} [ChildPointer γ]

/-- A head node leaves out the prefix. -/
def innerKeyLen (n : AnyInner γ) (index : ℕ) : ℕ :=
  match n with
  | .inner p => (p.node.slots[index]?.map fun s => s.key.length).getD 0 + p.node.prefixLength
  | .head4 n => n.getKeyLength index
  | .head8 n => n.getKeyLength index

def innerRestoreKey (n : AnyInner γ) (len index : ℕ) : Except Fault Bytes :=
  match n with
  | .inner p => p.node.restoreKey len index
  | .head4 n => do
    ensure (n.prefixLength ≤ len) .undefined
    pure (n.restoreKey len index)
  | .head8 n => do
    ensure (n.prefixLength ≤ len) .undefined
    pure (n.restoreKey len index)

def getChild (n : AnyInner γ) (index : ℕ) : Except Fault γ :=
  let child (children : List γ) : Except Fault γ :=
    match children[index]? with
    | some child => .ok child
    | none => .error .undefined
  match n with
  | .inner p => p.getChild index
  | .head4 n => child n.children
  | .head8 n => child n.children

end AnyInner

/-- `copyKeyValueRange` of a whole node to one slot behind the end of `dst`. The slot before keeps what is there;
as the count of `dst` does not include it, the last slot that is copied is not counted. -/
def BTreeNode.copyPastGap {π : Type} [Payload π] (n dst : BTreeNode π) (gap : Slot π) : Except Fault (BTreeNode π) := do
  let out ← n.copySlots { dst with slots := dst.slots ++ [gap] } n.slots
  let out := { out with slots := out.slots.take (dst.count + n.count) }
  ensure (slotsOffset + slotSize * out.count ≤ out.dataOffset) .pageOverflow
  pure out

inductive Siblings (γ : Type)
  | leaves (left right : BTreeNode Bytes)
  | inners (left right : InnerNode γ)

/-- What the temporary page holds where nothing is written: a slot, and the null pointer as its upper child. -/
structure FreshPage (γ : Type) where
  gap : Slot γ
  upper : γ

namespace InnerNode
variable {γ : Type} [ChildPointer γ]

/-- The bound on the space that two inner nodes and their separator take in the page `tmp`. -/
def mergeSpaceUpperBound (left right : InnerNode γ) (tmp : BTreeNode γ) (extraKeyLength : ℕ) : ℕ :=
  left.node.mergeSpaceUpperBound right.node tmp + (slotSize + (extraKeyLength - tmp.prefixLength) + pointerSize)

/-- The branch of `mergeNodes` for inner nodes. -/
def mergeInner (fresh : FreshPage γ) (left right : InnerNode γ) (slotId : ℕ) (parent : AnyInner γ) :
    Except Fault (Option (InnerNode γ × InnerNode γ × AnyInner γ)) := do
  let tmp ← (BTreeNode.init left.node.isLeaf).setFences left.node.getLowerFence right.node.getUpperFence
  ensure (right.node.isLeaf = left.node.isLeaf) .assertion
  let extraKeyLength := parent.innerKeyLen slotId
  ensure (tmp.prefixLength ≤ extraKeyLength) .assertion
  if pageSize < left.mergeSpaceUpperBound right tmp extraKeyLength then pure none
  else do
    let tmp ← left.node.copyKeyValueRange tmp 0 left.node.count
    let extraKey ← parent.innerRestoreKey extraKeyLength slotId
    let child ← parent.getChild slotId
    -- `storeKeyValue` and `count` are those of the left page, not of `tmp`
    let (node, slot) ← left.node.storeKeyValue left.node.count extraKey child
    let tmp ← right.node.copyPastGap tmp fresh.gap
    let parent ← parent.innerRemoveSlot slotId
    pure (some ({ left with node := { node with slots := node.slots ++ [slot] } }, ⟨tmp, fresh.upper⟩, parent))

end InnerNode

namespace Siblings
variable {γ : Type} [ChildPointer γ]

def mergeNodes (fresh : FreshPage γ) (s : Siblings γ) (slotId : ℕ) (parent : AnyInner γ) :
    Except Fault (Bool × Siblings γ × AnyInner γ) :=
  match s with
  | .leaves left right => do
    match ← left.mergeLeaf right with
    | some merged => do
      let parent ← parent.innerRemoveSlot slotId
      pure (true, .leaves left merged, parent)
    | none => pure (false, s, parent)
  | .inners left right => do
    match ← left.mergeInner fresh right slotId parent with
    | some (left, right, parent) => pure (true, .inners left right, parent)
    | none => pure (false, s, parent)

structure Between {π : Type} [Payload π] (left right : BTreeNode π) (isLeaf : Bool) (sep : Bytes) : Prop where
  left_wf : left.WF
  right_wf : right.WF
  left_isLeaf : left.isLeaf = isLeaf
  right_isLeaf : right.isLeaf = isLeaf
  left_upper : left.getUpperFence = sep
  right_lower : right.getLowerFence = sep
  lower_len : left.getLowerFence.length ≤ maxKVSize
  upper_len : right.getUpperFence.length ≤ maxKVSize

def Adjacent : Siblings γ → Bytes → Prop
  | .leaves left right, sep => Between left right true sep
  | .inners left right, sep => Between left.node right.node false sep

/-- The right node holds both, with the separator and the upper child of the left one between the entries of inner
nodes. -/
def Joined (sep : Bytes) : Siblings γ → Siblings γ → Prop
  | .leaves left right, .leaves _ merged =>
    merged.Holds true left.getLowerFence right.getUpperFence (left.entries ++ right.entries)
  | .inners left right, .inners _ merged =>
    merged.node.Holds false left.node.getLowerFence right.node.getUpperFence
      (left.node.entries ++ (sep, left.upper) :: right.node.entries) ∧ merged.upper = right.upper
  | _, _ => False

def Merges (s : Siblings γ) (parent : AnyInner γ) (a : Routing γ) (slotId : ℕ) (hi : slotId < a.separators.length) :
    Except Fault (Bool × Siblings γ × AnyInner γ) → Prop
  | .ok (false, s', parent') => s' = s ∧ parent' = parent
  | .ok (true, s', parent') => Joined a.separators[slotId] s s' ∧ parent'.Represents (a.remove slotId hi)
  | .error _ => False

/-- Leaves, or inner nodes that are too large for one page by the bound, provided that the length of the separator
passes for one behind the common prefix. -/
def Spared (parent : AnyInner γ) (slotId : ℕ) : Siblings γ → Prop
  | .leaves _ _ => True
  | .inners left right =>
    let tmp := BTreeNode.fenced false left.node.getLowerFence right.node.getUpperFence
    tmp.prefixLength ≤ parent.innerKeyLen slotId ∧
      pageSize < left.mergeSpaceUpperBound right tmp (parent.innerKeyLen slotId)

section Outcome
variable {parent : AnyInner γ} {a : Routing γ} {slotId : ℕ}

theorem Between.page {π : Type} [Payload π] {left right : BTreeNode π} {isLeaf : Bool} {sep : Bytes}
    (h : Between left right isLeaf sep) :
    slotsOffset + left.getLowerFence.length + right.getUpperFence.length ≤ pageSize := by
  have hl := h.lower_len
  have hu := h.upper_len
  simp only [maxKVSize, slotsOffset, pageSize, headerSize, slotSize] at *
  omega

theorem leaves_merges (fresh : FreshPage γ) (hp : parent.Represents a) (hi : slotId < a.separators.length)
    {left right : BTreeNode Bytes} (h : Between left right true a.separators[slotId]) :
    Merges (.leaves left right) parent a slotId hi (mergeNodes fresh (.leaves left right) slotId parent) := by
  have hne : left.getUpperFence ≠ [] := by
    rw [h.left_upper]
    exact ne_nil_of_lt (a.within _ (List.getElem_mem hi)).1
  obtain ⟨res, hres, hspec⟩ := BTreeNode.mergeLeaf_spec h.left_wf h.right_wf
    (h.right_isLeaf.trans h.left_isLeaf.symm) (h.right_lower.trans h.left_upper.symm) hne h.page
  rw [mergeNodes, hres, ok_bind]
  cases res with
  | none => exact ⟨rfl, rfl⟩
  | some merged =>
    obtain ⟨parent', hparent, hrep⟩ := AnyInner.innerRemoveSlot_spec hp hi
    have hmerged := hspec merged rfl
    rw [h.left_isLeaf] at hmerged
    dsimp only
    rw [hparent, ok_bind]
    exact ⟨hmerged, hrep⟩

theorem count_mergeInner_le {fresh : FreshPage γ} {left right l r : InnerNode γ} {parent' : AnyInner γ} {sep : Bytes}
    (h : Between left.node right.node false sep)
    (hm : left.mergeInner fresh right slotId parent = .ok (some (l, r, parent'))) :
    r.node.count ≤ left.node.count + right.node.count := by
  simp only [InnerNode.mergeInner, bind_eq_ok, ensure_eq_ok, exists_const] at hm
  obtain ⟨tmp, htmp, -, -, hm⟩ := hm
  split_ifs at hm with hbig
  · cases hm
  · simp only [BTreeNode.copyPastGap, bind_eq_ok, ensure_eq_ok, exists_const, pure_eq_ok, Option.some.injEq,
      Prod.mk.injEq] at hm
    obtain ⟨tmp', hcopy, _, -, _, -, _, -, _, ⟨out, -, -, rfl⟩, _, -, -, rfl, -⟩ := hm
    have hcount := (BTreeNode.copyKeyValueRange_grown h.left_wf.length_getPrefix hcopy).1.count
    rw [(BTreeNode.setFences_init_eq_ok.mp htmp).2, BTreeNode.count_fenced, List.length_map, List.drop_zero,
      List.length_take, Nat.min_self, Nat.zero_add] at hcount
    rw [← hcount]
    exact List.length_take_le _ _

theorem inners_merges_iff (fresh : FreshPage γ) (hi : slotId < a.separators.length) {left right : InnerNode γ}
    (h : Between left.node right.node false a.separators[slotId]) :
    Merges (.inners left right) parent a slotId hi (mergeNodes fresh (.inners left right) slotId parent) ↔
      Spared parent slotId (.inners left right) := by
  have hset : (BTreeNode.init left.node.isLeaf : BTreeNode γ).setFences left.node.getLowerFence
      right.node.getUpperFence = .ok (.fenced false left.node.getLowerFence right.node.getUpperFence) := by
    rw [h.left_isLeaf]
    exact BTreeNode.setFences_init_eq_ok.mpr ⟨h.page, rfl⟩
  have hkind : right.node.isLeaf = left.node.isLeaf := h.right_isLeaf.trans h.left_isLeaf.symm
  constructor
  · intro hm
    by_contra hspared
    cases hres : left.mergeInner fresh right slotId parent with
    | error e =>
      rw [mergeNodes, hres] at hm
      exact hm
    | ok res =>
      cases res with
      | none =>
        simp only [InnerNode.mergeInner, hset, ensure_of hkind, ok_bind, bind_eq_ok, ensure_eq_ok, exists_const] at hres
        obtain ⟨hlen, hres⟩ := hres
        rw [if_neg fun hbig => hspared ⟨hlen, hbig⟩] at hres
        simp only [bind_eq_ok, pure_eq_ok, reduceCtorEq, and_false] at hres
        obtain ⟨_, -, _, -, _, -, _, -, _, -, _, hfalse⟩ := hres
        exact hfalse
      | some out =>
        obtain ⟨l, r, parent'⟩ := out
        rw [mergeNodes, hres, ok_bind] at hm
        obtain ⟨⟨hholds, -⟩, -⟩ := hm
        have hle := count_mergeInner_le h hres
        have hlen := congrArg List.length hholds.entries
        simp only [BTreeNode.entries_length, List.length_append, List.length_cons] at hlen
        omega
  · rintro ⟨hlen, hbig⟩
    rw [mergeNodes, InnerNode.mergeInner, hset, ok_bind, ensure_of hkind, ok_bind]
    dsimp only at hlen hbig ⊢
    rw [ensure_of hlen, ok_bind, if_pos hbig]
    exact ⟨rfl, rfl⟩

end Outcome

/-- Two neighbours are merged or left alone, exactly if they are leaves or their merge is refused. -/
theorem mergeNodes_merges_iff (fresh : FreshPage γ) {parent : AnyInner γ} {a : Routing γ} (hp : parent.Represents a)
    {slotId : ℕ} (hi : slotId < a.separators.length) {s : Siblings γ} (hs : s.Adjacent a.separators[slotId]) :
    Merges s parent a slotId hi (mergeNodes fresh s slotId parent) ↔ s.Spared parent slotId := by
  cases s with
  | leaves left right => exact iff_of_true (leaves_merges fresh hp hi hs) trivial
  | inners left right => exact inners_merges_iff fresh hi hs

end Siblings

structure Address where
  value : ℕ
  deriving DecidableEq, Repr

instance : ChildPointer Address where
  len _ := pointerSize
  len_eq _ := rfl

namespace AnyInner
variable {γ : Type} [ChildPointer γ] {a : Routing γ}

theorem innerKeyLen_inner {p : InnerNode γ} (h : p.Holds a) {i : ℕ} (hi : i < a.separators.length) :
    (AnyInner.inner p).innerKeyLen i = a.separators[i].length := by
  have hslot : i < p.node.slots.length := hi.trans_eq h.count_eq.symm
  have hkeys : keys p.node.entries = a.separators := h.separators
  have hlen := h.wf.toOrdered.length_getPrefix
  simp only [innerKeyLen, List.getElem?_eq_getElem hslot, Option.map_some, Option.getD_some, ← hkeys, keys,
    BTreeNode.entries, BTreeNode.content, List.getElem_map, Slot.entry, List.length_append, hlen]
  exact Nat.add_comm _ _

end AnyInner

theorem exists_parent : ∃ (q : InnerNode Address) (a : Routing Address) (hi : 0 < a.separators.length), q.Holds a ∧
    a.separators = [[5]] ∧ a.separators[0] = [5] := by
  have hk : Within (Routing.root (⟨2⟩ : Address)).lower (Routing.root (⟨2⟩ : Address)).upper [5] :=
    ⟨List.nil_lt_cons 5 [], Or.inl rfl, by decide⟩
  have hroom : (InnerNode.makeRoot (⟨2⟩ : Address)).Room ([5] : Bytes).length := by decide
  obtain ⟨q, -, hq⟩ := InnerNode.insertChild_spec (AnyInner.slottedRoot_represents (⟨2⟩ : Address)) ⟨1⟩ hk
    List.not_mem_nil hroom
  refine ⟨q, _, ?_, hq, rfl, rfl⟩
  exact Nat.zero_lt_one

theorem exists_inner {lower upper : Bytes} (key : Bytes) (child : Address) (hf : FencesOrdered lower upper)
    (hk : InFences lower upper key) (hlen : slotsOffset + slotSize + lower.length + upper.length + key.length + 8 ≤
      pageSize) : ∃ n : BTreeNode Address, n.Holds false lower upper [(key, child)] := by
  obtain ⟨n, hn⟩ : ∃ n : BTreeNode Address, n = .fenced false lower upper := ⟨_, rfl⟩
  have hpage : slotsOffset + lower.length + upper.length ≤ pageSize := by
    simp only [slotsOffset, slotSize, pageSize] at hlen ⊢
    omega
  have hh := BTreeNode.fenced_holds (π := Address) false hf hpage
  rw [← hn] at hh
  have hfree : slotSize + (key.length - n.prefixLength) + Payload.len child ≤ n.freeSpace := by
    rw [ChildPointer.len_eq, hn]
    simp only [BTreeNode.freeSpace, BTreeNode.fenced, BTreeNode.count, List.length_nil, slotsOffset, slotSize,
      pageSize, pointerSize] at hlen ⊢
    omega
  obtain ⟨m, -, hw, hl, hlow, hup, -, hent⟩ := BTreeNode.insertSlot_spec hh.wf (by rwa [hh.lower, hh.upper])
    (by rw [hh.entries]; exact List.not_mem_nil) hfree
  refine ⟨m, hw, hl.trans hh.isLeaf, hlow.trans hh.lower, hup.trans hh.upper, ?_⟩
  rw [hent, hh.entries]
  rfl

theorem exists_neighbours : ∃ left right : InnerNode Address, Siblings.Between left.node right.node false [5] ∧
    left.node.Holds false [] [5] [([3], ⟨3⟩)] ∧ right.node.Holds false [5] [] [([7], ⟨5⟩)] := by
  obtain ⟨l, hl⟩ := exists_inner [3] ⟨3⟩ (show FencesOrdered [] [5] from Or.inr (by decide)) (by decide)
    (by decide)
  obtain ⟨r, hr⟩ := exists_inner [7] ⟨5⟩ (show FencesOrdered [5] [] from Or.inl rfl) (by decide) (by decide)
  refine ⟨⟨l, ⟨4⟩⟩, ⟨r, ⟨6⟩⟩, ⟨hl.wf, hr.wf, hl.isLeaf, hr.isLeaf, hl.upper, hr.lower, ?_, ?_⟩, hl, hr⟩
  · rw [hl.lower]
    exact Nat.zero_le _
  · rw [hr.upper]
    exact Nat.zero_le _

theorem neighbours_not_spared {q : InnerNode Address} {a : Routing Address} (hq : q.Holds a)
    (hi : 0 < a.separators.length) (hat : a.separators[0] = [5]) {left right : InnerNode Address}
    (hl : left.node.Holds false [] [5] [([3], ⟨3⟩)]) (hr : right.node.Holds false [5] [] [([7], ⟨5⟩)]) :
    ¬ Siblings.Spared (.inner q) 0 (.inners left right) := by
  rintro ⟨-, hbig⟩
  have hkey : (AnyInner.inner q).innerKeyLen 0 = 1 := by
    rw [AnyInner.innerKeyLen_inner hq hi, hat]
    rfl
  have hlspace := hl.wf.space_entries
  have hrspace := hr.wf.space_entries
  have hlcount : left.node.count = 1 := by
    rw [← BTreeNode.entries_length, hl.entries]
    rfl
  have hrcount : right.node.count = 1 := by
    rw [← BTreeNode.entries_length, hr.entries]
    rfl
  have hlprefix : left.node.prefixLength = 0 := by
    rw [hl.wf.prefixLen, hl.lower, hl.upper]
    rfl
  have hrprefix : right.node.prefixLength = 0 := by
    rw [hr.wf.prefixLen, hr.lower, hr.upper]
    rfl
  rw [hl.lower, hl.upper, hl.entries, hlcount,
    show BTreeNode.pageBytes [] [5] [(([3] : Bytes), (⟨3⟩ : Address))] = 112 from rfl] at hlspace
  rw [hr.lower, hr.upper, hr.entries, hrcount,
    show BTreeNode.pageBytes [5] [] [(([7] : Bytes), (⟨5⟩ : Address))] = 112 from rfl] at hrspace
  rw [InnerNode.mergeSpaceUpperBound, BTreeNode.mergeSpaceUpperBound, hlcount, hrcount, hlprefix, hrprefix, hkey,
    Nat.zero_sub] at hbig
  simp only [slotsOffset, slotSize, pageSize, pointerSize] at hbig hlspace hrspace
  omega

/-- The separators `03` and `07` on both sides of `05`: the merged node lacks an entry. -/
theorem not_mergeNodes_merges : ∃ (parent : AnyInner Address) (a : Routing Address) (hi : 0 < a.separators.length)
    (left right : InnerNode Address), parent.Represents a ∧ a.separators = [[5]] ∧
      left.node.Holds false [] [5] [([3], ⟨3⟩)] ∧ right.node.Holds false [5] [] [([7], ⟨5⟩)] ∧
      ∀ fresh : FreshPage Address, ¬ Siblings.Merges (.inners left right) parent a 0 hi
        (Siblings.mergeNodes fresh (.inners left right) 0 parent) := by
  obtain ⟨q, a, hi, hq, hsep, hat⟩ := exists_parent
  obtain ⟨left, right, hb, hl, hr⟩ := exists_neighbours
  refine ⟨.inner q, a, hi, left, right, hq, hsep, hl, hr, fun fresh hm => ?_⟩
  exact neighbours_not_spared hq hi hat hl hr ((Siblings.inners_merges_iff fresh hi (hat.symm ▸ hb)).mp hm)

/-- The keys of the left leaf begin with `04`, those of the merged one have nothing in common. -/
theorem mergeNodes_merges_iff_leaves : ∃ (parent : AnyInner Address) (a : Routing Address)
    (hi : 0 < a.separators.length) (left right : BTreeNode Bytes), parent.Represents a ∧ a.separators = [[4, 9]] ∧
      left.prefixLength = 1 ∧ left.entries = [([4, 2], [1]), ([4, 5], [2, 3])] ∧
      right.entries = [([5], [4]), ([6], [])] ∧ (∃ merged, left.mergeLeaf right = .ok (some merged)) ∧
      ∀ fresh : FreshPage Address, Siblings.Merges (.leaves left right) parent a 0 hi
        (Siblings.mergeNodes fresh (.leaves left right) 0 parent) := by
  have hparent : AnyInner.opsReach (⟨2⟩ : Address) [.request 2, .insert [4, 9] ⟨1⟩]
      (fun _ a => decide (a.separators = [[4, 9]])) = true := by
    decide +kernel
  have hleaves : (BTreeNode.fenced true [4, 1] [4, 9]).changesTo [.insert [4, 5] ([2, 3] : Bytes), .insert [4, 2] [1]]
      (fun left => (BTreeNode.fenced true [4, 9] []).changesTo [.insert [5] ([4] : Bytes), .insert [6] []] fun right =>
        decide ((left.isLeaf = true ∧ left.getLowerFence = [4, 1] ∧ left.getUpperFence = [4, 9]) ∧
          (right.isLeaf = true ∧ right.getLowerFence = [4, 9] ∧ right.getUpperFence = []) ∧ left.prefixLength = 1 ∧
          left.entries = [([4, 2], [1]), ([4, 5], [2, 3])] ∧ right.entries = [([5], [4]), ([6], [])]) &&
          match left.mergeLeaf right with
          | .ok merged => merged.isSome
          | .error _ => false) = true := by
    decide +kernel
  obtain ⟨parent, a, hreach, hsep⟩ := AnyInner.opsReach_spec hparent
  replace hsep := of_decide_eq_true hsep
  have hfenced : ∀ {lower upper : Bytes}, FencesOrdered lower upper →
      slotsOffset + lower.length + upper.length ≤ pageSize →
      (BTreeNode.fenced true lower upper : BTreeNode Bytes).Reached fun _ => False :=
    fun hf hpage => .fenced hf (BTreeNode.setFences_init_eq_ok.mpr ⟨hpage, rfl⟩)
  obtain ⟨left, hleft, hright⟩ := (hfenced (Or.inr (by decide)) (by decide)).changesTo hleaves
  obtain ⟨right, hright, hcheck⟩ := (hfenced (Or.inl rfl) (by decide)).changesTo hright
  rw [Bool.and_eq_true, decide_eq_true_eq] at hcheck
  obtain ⟨⟨⟨hll, hllow, hlup⟩, ⟨hrl, hrlow, hrup⟩, hpre, hle, hre⟩, hmerged⟩ := hcheck
  have hlwf := (hleft.sound fun _ hc => hc.elim).wf
  have hrwf := (hright.sound fun _ hc => hc.elim).wf
  have hi : 0 < a.separators.length := hsep ▸ Nat.zero_lt_one
  have hat : a.separators[0] = [4, 9] := by simp only [hsep, List.getElem_cons_zero]
  refine ⟨parent, a, hi, left, right, hreach.represents, hsep, hpre, hle, hre, ?_, fun fresh => ?_⟩
  · split at hmerged
    · next merged hm =>
      obtain ⟨m, rfl⟩ := Option.isSome_iff_exists.mp hmerged
      exact ⟨m, hm⟩
    · cases hmerged
  · refine (Siblings.mergeNodes_merges_iff fresh hreach.represents hi ?_).mpr trivial
    rw [hat]
    exact ⟨hlwf, hrwf, hll, hrl, hlup, hrlow, hllow ▸ by decide, hrup ▸ Nat.zero_le _⟩

end BtreeRedis
