import BtreeRedis.Head.Merge
import BtreeRedis.Headed.Routing

/-!
# Inner nodes of a build with head nodes

What a tree does with an inner node behind its tag. A new root is a head node with heads of four
bytes. Each operation is that of separators and children, whatever shape the node has taken, and
a node that refuses a separator has separators enough to be split itself.
-/

namespace BtreeRedis

open LexOrder SortedAssoc

def HeadNode.setChild {T : HeadType} {γ : Type} (n : HeadNode T γ) (index : ℕ) (c : γ) : HeadNode T γ :=
  { n with children := n.children.set index c }

namespace AnyInner
variable {γ : Type} [ChildPointer γ]

def innerCount : AnyInner γ → ℕ
  | .inner p => p.node.count
  | .head4 n => n.count
  | .head8 n => n.count

def lookupInnerIndex (n : AnyInner γ) (key : Bytes) : Except Fault ℕ :=
  match n with
  | .inner p => p.lookupInnerIndex key
  | .head4 n => n.lookupInnerIndex key
  | .head8 n => n.lookupInnerIndex key

def setChild (n : AnyInner γ) (index : ℕ) (c : γ) : AnyInner γ :=
  match n with
  | .inner p => .inner (p.setChild index c)
  | .head4 n => .head4 (n.setChild index c)
  | .head8 n => .head8 (n.setChild index c)

def lookupInner (n : AnyInner γ) (key : Bytes) : Except Fault γ :=
  match n with
  | .inner p => do
    let pos ← p.lookupInnerIndex key
    p.getChild pos
  | .head4 n => n.lookupInner key
  | .head8 n => n.lookupInner key

def findSeparator (n : AnyInner γ) : Except Fault SeparatorInfo :=
  match n with
  | .inner p => p.node.findSeparator
  | .head4 n => do
    let slotId ← n.findSeparator
    pure ⟨n.prefixLength + n.getKeyLength slotId, slotId, false⟩
  | .head8 n => do
    let slotId ← n.findSeparator
    pure ⟨n.prefixLength + n.getKeyLength slotId, slotId, false⟩

def separatorLength (n : AnyInner γ) : Except Fault ℕ := do
  let info ← n.findSeparator
  pure info.length

def split (n : AnyInner γ) : Except Fault (Bytes × AnyInner γ × AnyInner γ) := do
  let info ← n.findSeparator
  n.splitNode info.slot

/-- `splitNodeWithParent` for child `i`: whether the parent has space for the separator, and the parent. -/
def splitChild (n : AnyInner γ) (i : ℕ) (sepLength : Except Fault ℕ) (halves : Except Fault (Bytes × γ × γ)) :
    Except Fault (Bool × AnyInner γ) := do
  let length ← sepLength
  let (space, n) ← n.innerRequestSpaceFor length
  if space then do
    let (sep, left, right) ← halves
    let n ← (n.setChild i right).insertChild sep left
    pure (true, n)
  else pure (false, n)

end AnyInner

variable {γ : Type} [ChildPointer γ] {a : Routing γ} {key : Bytes}

namespace InnerNode
variable {p : InnerNode γ}

namespace Holds

theorem lookupInnerIndex_spec (h : p.Holds a) (hk : InFences a.lower a.upper key) :
    p.lookupInnerIndex key = .ok (lowerIndex a.separators key) := by
  rw [lookupInnerIndex, BTreeNode.lowerBound_spec h.wf (by rwa [h.lowerFence, h.upperFence]), ok_bind, ← h.separators]
  rfl

theorem getChild_spec (h : p.Holds a) {i : ℕ} {c : γ} (hc : a.children[i]? = some c) : p.getChild i = .ok c := by
  have hlen := a.length
  have hcount := h.count_eq
  obtain ⟨hi, -⟩ := List.getElem?_eq_some_iff.mp hc
  rw [getChild_eq_ok (by omega), h.children]
  exact hc

theorem setChild_spec (h : p.Holds a) {i : ℕ} (hi : i ≤ a.separators.length) (c : γ) :
    (p.setChild i c).Holds (a.set i c) := by
  have hcount := h.count_eq
  have hsame : (p.setChild i c).node.isLeaf = p.node.isLeaf ∧
      (p.setChild i c).node.getLowerFence = p.node.getLowerFence ∧
      (p.setChild i c).node.getUpperFence = p.node.getUpperFence := by
    unfold InnerNode.setChild
    split_ifs <;> exact ⟨rfl, rfl, rfl⟩
  refine ⟨setChild_wf h.wf i c, hsame.1.trans h.isLeaf, hsame.2.1.trans h.lowerFence, hsame.2.2.trans h.upperFence,
    (separators_setChild p i c).trans h.separators, ?_⟩
  rw [children_setChild (by omega), h.children]
  rfl

end Holds

end InnerNode

namespace HeadNode
variable {T : HeadType} {n : HeadNode T γ}

namespace Holds

section
omit [ChildPointer γ]

theorem lookupInnerIndex_spec (h : n.Holds a) (hk : InFences a.lower a.upper key) :
    n.lookupInnerIndex key = .ok (lowerIndex a.separators key) := by
  obtain ⟨r, rfl⟩ := hk.isPrefix
  rw [← h.getPrefix_eq, ← h.separators_eq]
  exact h.headsOf.lookupInnerIndex_eq h.hints r

theorem setChild_spec (h : n.Holds a) (i : ℕ) (c : γ) : (n.setChild i c).Holds (a.set i c) := by
  refine ⟨h.lowerFence, h.upperFence, h.prefixLen, h.keys, h.short, ?_, h.keyCapacity, h.room, h.hints⟩
  rw [setChild, h.children]
  rfl

end

end Holds

end HeadNode

namespace AnyInner
variable {n : AnyInner γ}

section
omit [ChildPointer γ]

theorem lookupInner_eq (n : AnyInner γ) (key : Bytes) : n.lookupInner key = (do
    let index ← n.lookupInnerIndex key
    n.getChild index) := by
  cases n <;> rfl

end

namespace Represents

theorem innerCount_eq (h : n.Represents a) : n.innerCount = a.separators.length := by
  cases n with
  | inner p => exact InnerNode.Holds.count_eq h
  | head4 n => exact HeadNode.Holds.count_eq h
  | head8 n => exact HeadNode.Holds.count_eq h

theorem lookupInnerIndex_spec (h : n.Represents a) (hk : InFences a.lower a.upper key) :
    n.lookupInnerIndex key = .ok (lowerIndex a.separators key) := by
  cases n with
  | inner p => exact InnerNode.Holds.lookupInnerIndex_spec h hk
  | head4 n => exact HeadNode.Holds.lookupInnerIndex_spec h hk
  | head8 n => exact HeadNode.Holds.lookupInnerIndex_spec h hk

theorem getChild_spec (h : n.Represents a) {i : ℕ} {c : γ} (hc : a.children[i]? = some c) : n.getChild i = .ok c := by
  cases n with
  | inner p => exact InnerNode.Holds.getChild_spec h hc
  | head4 n => simp only [getChild, HeadNode.Holds.children h, hc]
  | head8 n => simp only [getChild, HeadNode.Holds.children h, hc]

theorem setChild_spec (h : n.Represents a) {i : ℕ} (hi : i ≤ a.separators.length) (c : γ) :
    (n.setChild i c).Represents (a.set i c) := by
  cases n with
  | inner p => exact InnerNode.Holds.setChild_spec h hi c
  | head4 n => exact HeadNode.Holds.setChild_spec h i c
  | head8 n => exact HeadNode.Holds.setChild_spec h i c

theorem findSeparator_spec (h : n.Represents a) (hcount : 3 < a.separators.length) :
    ∃ i, ∃ hi : i < a.separators.length, 0 < i ∧ i + 1 < a.separators.length ∧ ∃ info l r,
      n.findSeparator = .ok info ∧ info.length = a.separators[i].length ∧
      n.splitNode info.slot = .ok (a.separators[i], l, r) ∧
      l.Represents (a.left i hi) ∧ r.Represents (a.right i hi) := by
  have hhead : ∀ {T : HeadType} {n : HeadNode T γ}, n.Holds a → n.findSeparator = .ok (a.separators.length / 2) ∧
      ∀ i (hi : i < a.separators.length), n.prefixLength + n.getKeyLength i = a.separators[i].length := by
    intro T n hn
    have hnc := hn.count_eq
    constructor
    · rw [HeadNode.findSeparator, ensure_of (by omega), ok_bind, hnc]
      rfl
    · intro i hi
      have hit : i < a.truncated.length := by rwa [Routing.length_truncated]
      have hpre := (a.isPrefix (List.getElem_mem hi)).length_le
      rw [List.length_take, Nat.min_eq_left (commonPrefixLength_le_left _ _)] at hpre
      rw [hn.headsOf.getKeyLength_eq hit, hn.prefixLen]
      simp only [Routing.truncated, List.getElem_map, List.length_drop]
      omega
  cases n with
  | inner p =>
    have hp : p.Holds a := h
    have hpc := hp.count_eq
    obtain ⟨info, t, hinfo, hfound, hslot, hkey⟩ := BTreeNode.findSeparatorInner_spec hp.wf.toOrdered (by omega)
    have hfind : p.node.findSeparator = .ok info := by
      rw [BTreeNode.findSeparator, hp.isLeaf, if_neg Bool.false_ne_true]
      exact hinfo
    have hi : p.node.count / 2 - 1 < a.separators.length := by omega
    obtain ⟨l, r, hlr, hl, hr⟩ := splitNode_spec h (i := p.node.count / 2 - 1) (by omega) hi
    refine ⟨_, hi, by omega, by omega, info, l, r, hfind, ?_, ?_, hl, hr⟩
    · obtain ⟨-, -, -, hlen⟩ := hfound.full hp.wf.toOrdered
      rw [hlen]
      have hat : (keys p.node.entries)[info.slot]? = some (p.node.getPrefix ++ t) := by
        rw [BTreeNode.Ordered.keys_entries, List.getElem?_map, hslot, hkey]
        rfl
      rw [hslot, show keys p.node.entries = a.separators from hp.separators, List.getElem?_eq_getElem hi] at hat
      exact congrArg List.length (Option.some.inj hat).symm
    · rw [hslot, hlr]
  | head4 m =>
    obtain ⟨hfind, hlen⟩ := hhead (show m.Holds a from h)
    have hi : a.separators.length / 2 < a.separators.length := by omega
    obtain ⟨l, r, hlr, hl, hr⟩ := splitNode_spec h (i := a.separators.length / 2) (by omega) hi
    exact ⟨_, hi, by omega, by omega, _, l, r, by rw [findSeparator, hfind]; rfl, hlen _ hi, hlr, hl, hr⟩
  | head8 m =>
    obtain ⟨hfind, hlen⟩ := hhead (show m.Holds a from h)
    have hi : a.separators.length / 2 < a.separators.length := by omega
    obtain ⟨l, r, hlr, hl, hr⟩ := splitNode_spec h (i := a.separators.length / 2) (by omega) hi
    exact ⟨_, hi, by omega, by omega, _, l, r, by rw [findSeparator, hfind]; rfl, hlen _ hi, hlr, hl, hr⟩

theorem split_spec (h : n.Represents a) (hcount : 3 < a.separators.length) :
    ∃ i, ∃ hi : i < a.separators.length, 0 < i ∧ i + 1 < a.separators.length ∧ ∃ l r,
      n.separatorLength = .ok a.separators[i].length ∧ n.split = .ok (a.separators[i], l, r) ∧
      l.Represents (a.left i hi) ∧ r.Represents (a.right i hi) := by
  obtain ⟨i, hi, hpos, hlt, info, l, r, hinfo, hlen, hlr, hl, hr⟩ := h.findSeparator_spec hcount
  refine ⟨i, hi, hpos, hlt, l, r, ?_, ?_, hl, hr⟩
  · rw [separatorLength, hinfo, ← hlen]
    rfl
  · rw [split, hinfo, ok_bind, hlr]

end Represents

end AnyInner

namespace Routing
variable {γ : Type} {a : Routing γ} {L : ℕ}

structure Bounded (a : Routing γ) (L : ℕ) : Prop where
  lower : a.lower.length ≤ L
  upper : a.upper.length ≤ L
  separators : ∀ s ∈ a.separators, s.length ≤ L

namespace Bounded

theorem prefix_le (h : a.Bounded L) : commonPrefixLength a.lower a.upper ≤ L :=
  (commonPrefixLength_le_left _ _).trans h.lower

theorem insert (h : a.Bounded L) {key : Bytes} {child : γ} {hk : Within a.lower a.upper key}
    {hnew : key ∉ a.separators} (hlen : key.length ≤ L) : (a.insert key child hk hnew).Bounded L := by
  refine ⟨h.lower, h.upper, fun s hs => ?_⟩
  rcases (List.mem_insertIdx (lowerIndex_le_length _ _)).mp hs with rfl | hs
  · exact hlen
  · exact h.separators s hs

theorem remove (h : a.Bounded L) {i : ℕ} (hi : i < a.separators.length) : (a.remove i hi).Bounded L :=
  ⟨h.lower, h.upper, fun s hs => h.separators s (List.mem_of_mem_eraseIdx hs)⟩

theorem halves (h : a.Bounded L) {i : ℕ} (hi : i < a.separators.length) :
    (a.left i hi).Bounded L ∧ (a.right i hi).Bounded L := by
  have hsep := h.separators _ (List.getElem_mem hi)
  exact ⟨⟨h.lower, hsep, fun s hs => h.separators s (List.mem_of_mem_take hs)⟩,
    ⟨hsep, h.upper, fun s hs => h.separators s (List.mem_of_mem_drop hs)⟩⟩

theorem sum_truncated_le (h : a.Bounded L) : (a.truncated.map List.length).sum ≤ a.separators.length * L := by
  have hall : ∀ k ∈ a.truncated.map List.length, k ≤ L := by
    intro k hk
    obtain ⟨t, ht, rfl⟩ := List.mem_map.mp hk
    obtain ⟨s, hs, rfl⟩ := List.mem_map.mp ht
    rw [List.length_drop]
    exact (Nat.sub_le _ _).trans (h.separators s hs)
  have hsum := List.sum_le_card_nsmul _ _ hall
  rwa [List.length_map, length_truncated, smul_eq_mul] at hsum

end Bounded

end Routing

def FourFit (L : ℕ) : Prop := headerSize + 4 * (slotSize + pointerSize) + 6 * L ≤ pageSize

section Room
variable {γ : Type} [ChildPointer γ] {a : Routing γ} {L len : ℕ}

theorem InnerNode.Holds.room_of_few {p : InnerNode γ} (h : p.Holds a) (hb : a.Bounded L) (hL : FourFit L)
    (hlen : len ≤ L) (hfew : a.separators.length ≤ 3) : p.Room len := by
  have hfree := h.wf.freeSpaceAfterCompaction_eq
  have hcount : p.node.entries.length = a.separators.length := by
    rw [BTreeNode.entries_length, h.count_eq]
  have hbytes : BTreeNode.entryBytes (BTreeNode.truncate a.lower a.upper p.node.entries) =
      (a.truncated.map List.length).sum + pointerSize * a.separators.length := by
    rw [BTreeNode.entryBytes_eq, BTreeNode.truncate_length, hcount, ← h.keys_content, ← h.lowerFence, ← h.upperFence,
      h.wf.toOrdered.content_truncate]
  have hsum := hb.sum_truncated_le
  have hlow := hb.lower
  have hupp := hb.upper
  rw [h.lowerFence, h.upperFence, BTreeNode.pageBytes, hbytes, hcount] at hfree
  rw [Room, hfree]
  rw [FourFit] at hL
  have hprod : a.separators.length * L ≤ 3 * L := Nat.mul_le_mul_right L hfew
  simp only [slotSize, pointerSize, slotsOffset, headerSize, pageSize] at *
  omega

namespace HeadNode
variable {T : HeadType} {n : HeadNode T γ}

theorem convertToBasicWithSpace_of_few (h : n.Holds a) (hb : a.Bounded L) (hL : FourFit L) {k : ℕ}
    (hk : k ≤ L) (hfew : a.separators.length ≤ 3) : ∃ p, n.convertToBasicWithSpace k = .ok (some p) := by
  obtain ⟨res, hres, -⟩ := convertToBasicWithSpace_holds h k
  cases res with
  | some p => exact ⟨p, hres⟩
  | none =>
    exfalso
    have hcount := h.count_eq
    have hlow := hb.lower
    have hupp := hb.upper
    have hsum : ((List.range n.count).map n.getKeyLength).sum = (a.truncated.map List.length).sum := by
      congr 1
      apply List.ext_getElem
      · simp [hcount]
      · intro i hi _
        simp only [List.length_map, List.length_range] at hi
        simp only [List.getElem_map, List.getElem_range]
        exact h.headsOf.getKeyLength_eq (by rw [Routing.length_truncated]; omega)
    have hle := hb.sum_truncated_le
    have hprod : a.separators.length * L ≤ 3 * L := Nat.mul_le_mul_right L hfew
    rw [← h.lowerFence] at hlow
    rw [← h.upperFence] at hupp
    rw [FourFit] at hL
    unfold convertToBasicWithSpace at hres
    dsimp only at hres
    split_ifs at hres with h₁ h₂
    · simp only [slotSize, pointerSize, pageSize, headerSize] at *
      omega
    · rw [hsum] at h₂
      simp only [slotSize, pointerSize, pageSize, headerSize] at *
      omega
    · obtain ⟨tmp, -, hres⟩ := bind_eq_ok.mp hres
      obtain ⟨node, -, hres⟩ := bind_eq_ok.mp hres
      split at hres
      · cases hres
      · cases hres

theorem requestSpaceFor_of_few (h : n.Holds a) (hb : a.Bounded L) (hL : FourFit L)
    (hpre : commonPrefixLength a.lower a.upper ≤ len) (hlen : len ≤ L) (hfew : a.separators.length ≤ 3) :
    ∃ m, n.requestSpaceFor len = .ok (true, m) := by
  have hbasic : ∃ m, n.requestBasic (len - n.prefixLength) = .ok (true, m) := by
    obtain ⟨p, hp⟩ := convertToBasicWithSpace_of_few h hb hL ((Nat.sub_le len n.prefixLength).trans hlen) hfew
    exact ⟨.inner p, by rw [requestBasic, hp]; rfl⟩
  have hcap : n.count < n.keyCapacity := by
    have hlow := hb.lower
    have hupp := hb.upper
    rw [FourFit] at hL
    rw [h.count_eq, h.keyCapacity, HeadNode.capacity, Nat.lt_iff_add_one_le,
      Nat.le_div_iff_mul_le (Nat.lt_add_right _ T.size_pos)]
    cases T <;>
      simp only [HeadType.paddedHeadSize, HeadType.size, hintCount, headerSize, slotSize, pageSize,
        pointerSize] at * <;>
      omega
  rw [requestSpaceFor, ensure_of (h.prefixLen.trans_le hpre), ok_bind]
  dsimp only
  cases T with
  | uint32 =>
    obtain ⟨res, hres, -⟩ := convertToHead8WithSpace_spec h
    split_ifs with hlong hwide
    · rw [hres, ok_bind]
      cases res with
      | none => exact hbasic
      | some m => exact ⟨.head8 m, rfl⟩
    · exact hbasic
    · exact ⟨_, rfl⟩
  | uint64 =>
    split_ifs with hlong hwide
    · exact absurd hwide.1 (by decide)
    · exact hbasic
    · exact ⟨_, rfl⟩

end HeadNode

namespace AnyInner
variable {n : AnyInner γ}

theorem Represents.grants (h : n.Represents a) (hb : a.Bounded L) (hL : FourFit L)
    (hpre : commonPrefixLength a.lower a.upper ≤ len) (hlen : len ≤ L) (hfew : a.separators.length ≤ 3) :
    ∃ m, n.innerRequestSpaceFor len = .ok (true, m) := by
  cases n with
  | inner p =>
    obtain ⟨q, hq, -⟩ := InnerNode.innerRequestSpaceFor_spec h hpre
    rw [decide_eq_true (InnerNode.Holds.room_of_few h hb hL hlen hfew)] at hq
    exact ⟨.inner q, by rw [innerRequestSpaceFor, hq]; rfl⟩
  | head4 n => exact HeadNode.requestSpaceFor_of_few h hb hL hpre hlen hfew
  | head8 n => exact HeadNode.requestSpaceFor_of_few h hb hL hpre hlen hfew

section
omit [ChildPointer γ]

theorem Ready.setChild (h : n.Ready len) (i : ℕ) (c : γ) : (n.setChild i c).Ready len := by
  cases n with
  | inner p =>
    have hsame : (p.setChild i c).node.prefixLength = p.node.prefixLength := by
      unfold InnerNode.setChild
      split_ifs <;> rfl
    change slotSize + (len - (p.setChild i c).node.prefixLength) + pointerSize ≤ _
    rw [hsame, InnerNode.freeSpaceAfterCompaction_setChild]
    exact h
  | head4 n => exact h
  | head8 n => exact h

end

theorem Represents.splitChild_spec {P : γ → Bytes → Bytes → Prop} {E : γ → List (Bytes × Bytes)} (h : n.Represents a)
    {i : ℕ} (hi : i ≤ a.separators.length) {x y sep : Bytes} {es : List (Bytes × Bytes)} {left right : γ}
    (hx : (a.lower :: a.separators)[i]? = some x) (hy : (a.separators ++ [a.upper])[i]? = some y)
    (hh : Halves P E es x y sep left right) (hfresh : sep ≠ y) (hb : a.Bounded L) (hL : FourFit L)
    (hlen : sep.length ≤ L) :
    ∃ granted m, n.splitChild i (.ok sep.length) (.ok (sep, left, right)) = .ok (granted, m) ∧
      (granted = false → m.Represents a ∧ 3 < a.separators.length) ∧
      (granted = true → ∃ hk hnew, m.Represents ((a.set i right).insert sep left hk hnew)) := by
  have hk := a.within_between hx hy hh.between hh.nonempty hh.sep_len
  have hnew := a.not_mem_between hi hx hy hh.between hfresh
  have hpre := BTreeNode.commonPrefixLength_le_key hk.inFences
  obtain ⟨⟨granted, q⟩, hq, hqa, hready⟩ := innerRequestSpaceFor_spec h hpre
  rw [splitChild, ok_bind, hq, ok_bind]
  dsimp only
  cases granted with
  | false =>
    refine ⟨false, q, rfl, fun _ => ⟨hqa, ?_⟩, fun hc => absurd hc Bool.false_ne_true⟩
    by_contra hfew
    obtain ⟨m, hm⟩ := h.grants hb hL hpre hlen (by omega)
    rw [hq] at hm
    cases hm
  | true =>
    have hset := Represents.setChild_spec (n := q) hqa hi right
    obtain ⟨m, hm, hma⟩ := insertChild_spec (a := a.set i right) hset left hk hnew ((hready rfl).setChild i right)
    refine ⟨true, m, ?_, fun hc => absurd hc.symm Bool.false_ne_true, fun _ => ⟨hk, hnew, hma⟩⟩
    rw [if_pos rfl, ok_bind, hm]
    rfl

end AnyInner

end Room

end BtreeRedis
