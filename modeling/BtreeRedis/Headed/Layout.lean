import BtreeRedis.Headed.Runs
import BtreeRedis.Lib.Region

/-!
# The pages of a tree with head nodes

The page of a head node holds two arrays behind its header, one of heads and one of child
pointers, with one more pointer than heads; the fences are at its end. How many heads there
may be is settled when the fences are, so that nothing is moved inside the page. In every tree
that calls within the limits lead to, whatever they have made of the nodes, no two of these
parts overlap and what is stored is inside its part.
-/

namespace BtreeRedis

open Machine Region

namespace HeadNode
variable {T : HeadType} {γ : Type} {n : HeadNode T γ} {a : Routing γ}

/-- `children()` -/
def childrenOffset (n : HeadNode T γ) : ℕ := T.paddedHeadSize + T.size * n.keyCapacity

def childrenEnd (n : HeadNode T γ) : ℕ := n.childrenOffset + pointerSize * (n.keyCapacity + 1)

def regions (n : HeadNode T γ) : List Region :=
  [⟨0, T.paddedHeadSize⟩, ⟨T.paddedHeadSize, T.size * n.keyCapacity⟩,
    ⟨n.childrenOffset, pointerSize * (n.keyCapacity + 1)⟩, ⟨n.fencesOffset, n.upperFence.length⟩,
    ⟨pageSize - n.lowerFence.length, n.lowerFence.length⟩]

/-- The parts of the page lie apart, what is stored is inside its part, and one head more would not fit. -/
structure LaidOut (n : HeadNode T γ) : Prop where
  carved : Carved n.regions 0 pageSize
  heads : n.keys.length ≤ n.keyCapacity
  pointers : n.children.length ≤ n.keyCapacity + 1
  greatest : n.fencesOffset < n.childrenEnd + (T.size + pointerSize)

theorem Holds.childrenEnd_le (h : n.Holds a) : n.childrenEnd ≤ n.fencesOffset ∧
    n.fencesOffset < n.childrenEnd + (T.size + pointerSize) := by
  have hl := a.lower_len
  have hu := a.upper_len
  rw [childrenEnd, childrenOffset, fencesOffset, h.keyCapacity, h.lowerFence, h.upperFence, capacity]
  cases T <;> simp [HeadType.size, HeadType.paddedHeadSize] at hl hu ⊢ <;> omega

theorem Holds.laidOut (h : n.Holds a) : n.LaidOut := by
  obtain ⟨hend, hgreatest⟩ := h.childrenEnd_le
  have hlen : n.lowerFence.length + n.upperFence.length ≤ pageSize := by
    have hl := a.lower_len
    have hu := a.upper_len
    rw [h.lowerFence, h.upperFence]
    simp at hl hu ⊢
    omega
  have hcount : a.separators.length = n.count := by
    rw [HeadNode.count, h.keys, List.length_map, Routing.truncated, List.length_map]
  have hheads : T.paddedHeadSize + T.size * n.keyCapacity = n.childrenOffset := rfl
  have hpointers : n.childrenOffset + pointerSize * (n.keyCapacity + 1) = n.childrenEnd := rfl
  have hfences : n.fencesOffset + n.upperFence.length = pageSize - n.lowerFence.length := by
    rw [fencesOffset]
    omega
  refine ⟨Carved.of_ascending ?_ (fun _ _ => Nat.zero_le _) ?_, h.room, ?_, hgreatest⟩
  · simp only [regions, List.pairwise_cons, List.forall_mem_cons, List.not_mem_nil, IsEmpty.forall_iff, implies_true,
      List.Pairwise.nil, and_true]
    omega
  · simp only [regions, List.forall_mem_cons, List.not_mem_nil, IsEmpty.forall_iff, implies_true, and_true]
    omega
  · rw [h.children, a.length, hcount]
    exact Nat.succ_le_succ h.room

end HeadNode

def AnyInner.LaidOut {γ : Type} [ChildPointer γ] : AnyInner γ → Prop
  | .inner p => p.node.Accounted
  | .head4 n => n.LaidOut
  | .head8 n => n.LaidOut

namespace HeadedNode

def LaidOut : (h : ℕ) → HeadedNode h → Prop
  | 0, n => BTreeNode.Accounted n
  | h + 1, p => AnyInner.LaidOut p ∧ ∀ c ∈ AnyInner.children p, LaidOut h c

variable {ℓ : Limits}

theorem laidOut : (h : ℕ) → {n : HeadedNode h} → {lower upper : Bytes} → Inv ℓ h n lower upper → LaidOut h n
  | 0, n, lower, upper, hn => by
    have hleaf : BTreeNode.LeafInv ℓ n lower upper := hn
    exact hleaf.wf.toAccounted
  | h + 1, p, lower, upper, ⟨a, hp⟩ => by
    have hrep := hp.represents
    constructor
    · cases p with
      | inner q => exact (InnerNode.Holds.wf hrep).toAccounted
      | head4 n => exact HeadNode.Holds.laidOut hrep
      | head8 n => exact HeadNode.Holds.laidOut hrep
    · intro c hc
      rw [hrep.children] at hc
      obtain ⟨x, y, hP⟩ := Chain.forall_mem hp.spans c hc
      exact laidOut h hP

end HeadedNode

namespace HeadedTree
variable {ℓ : Limits} {fuel : ℕ} {t : HeadedTree}

def LaidOut (t : HeadedTree) : Prop := HeadedNode.LaidOut t.height t.root

/-- Whatever calls within the limits have led to a tree, its pages are laid out. -/
theorem pages_laid_out {calls : List HeadedCall} (hcalls : ∀ call ∈ calls, call.Within ℓ)
    (hfuel : 3 * calls.length < fuel) (ht : final (HeadedCall.step fuel) calls empty = .ok t) : t.LaidOut := by
  obtain ⟨-, -, hinv⟩ := run_spec hcalls hfuel
  exact HeadedNode.laidOut t.height (hinv t ht)

theorem pages_laid_out_tall : ∃ t, final (HeadedCall.step 52) tallCalls empty = .ok t ∧ t.height = 1 ∧ t.LaidOut := by
  have hrun : (final (HeadedCall.step 52) tallCalls empty).toOption.map HeadedTree.height = some 1 := by
    decide +kernel
  cases ht : final (HeadedCall.step 52) tallCalls empty with
  | error e =>
    rw [ht] at hrun
    cases hrun
  | ok t =>
    rw [ht] at hrun
    exact ⟨t, rfl, Option.some.inj hrun, pages_laid_out tallCalls_within (by decide) ht⟩

end HeadedTree

end BtreeRedis
