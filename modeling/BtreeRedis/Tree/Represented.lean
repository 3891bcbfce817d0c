import BtreeRedis.Tree.Calls

/-!
# The representation of a tree of basic leaves

With `enableDense` off every leaf is basic. `Represented` says in the source's own terms
what such a tree looks like, node by node; it holds of every tree that insertions and
removals reach from the empty one.
-/

namespace BtreeRedis

open LexOrder SortedAssoc
open BTree (kilobyte)

structure BTreeNode.SlotsOk {π : Type} (n : BTreeNode π) : Prop where
  ascending : Ascending (n.slots.map Slot.key)
  prefixLength : n.prefixLength = commonPrefixLength n.getLowerFence n.getUpperFence
  heads : ∀ s ∈ n.slots, s.head = head s.key

def LeafNode.Represented : LeafNode → Prop
  | .basic n => n.SlotsOk ∧ ∀ s ∈ n.slots, InFences n.getLowerFence n.getUpperFence (n.fullKey s)
  | .dense _ => False

namespace AnyNode

def lowerFence : (h : ℕ) → AnyNode h → Bytes
  | 0, l => LeafNode.lowerFence l
  | _ + 1, p => BTreeNode.getLowerFence (InnerNode.node p)

def upperFence : (h : ℕ) → AnyNode h → Bytes
  | 0, l => LeafNode.upperFence l
  | _ + 1, p => BTreeNode.getUpperFence (InnerNode.node p)

/-- `validate_child_fences`: each child begins where the one before it ends, at a separator. -/
def ValidChildFences {h : ℕ} (p : InnerNode (AnyNode h)) : Prop :=
  Chain (fun c lower upper => lowerFence h c = lower ∧ upperFence h c = upper)
    p.node.getLowerFence p.separators p.children p.node.getUpperFence

def Represented : (h : ℕ) → AnyNode h → Prop
  | 0, l => LeafNode.Represented l
  | h + 1, p => (InnerNode.node p).SlotsOk ∧ ValidChildFences p ∧
      ∀ c ∈ InnerNode.children p, Represented h c

end AnyNode

def BTree.Represented (t : BTree) : Prop :=
  AnyNode.Represented t.height t.root ∧ AnyNode.lowerFence t.height t.root = [] ∧
    AnyNode.upperFence t.height t.root = []

theorem BTreeNode.WF.slotsOk {π : Type} [Payload π] {n : BTreeNode π} (h : n.WF) : n.SlotsOk where
  ascending := by
    have hs := h.sorted
    rwa [keys, content, List.map_map] at hs
  prefixLength := h.prefixLen
  heads := h.heads

theorem LeafNode.Inv.represented {l : LeafNode} {lower upper : Bytes} (h : l.Inv false lower upper) :
    l.Represented := by
  cases l with
  | basic n => exact ⟨h.kind.1.slotsOk, fun s hs => h.kind.1.inFences s.entry (List.mem_map_of_mem hs)⟩
  | dense d => exact absurd h.kind.2.2.2 Bool.false_ne_true

namespace AnyNode

theorem Inv.fences {enableDense : Bool} : (h : ℕ) → {n : AnyNode h} → {lower upper : Bytes} →
    Inv enableDense h n lower upper → lowerFence h n = lower ∧ upperFence h n = upper
  | 0, _, _, _, hn => ⟨LeafNode.Inv.lowerFence hn, LeafNode.Inv.upperFence hn⟩
  | _ + 1, _, _, _, hn => ⟨InnerNode.Inv.lowerFence hn, InnerNode.Inv.upperFence hn⟩

theorem chain_all {γ β : Type*} {P : γ → β → β → Prop} {Q : γ → Prop} (hPQ : ∀ c a b, P c a b → Q c)
    {lo hi : β} {ss : List β} {cs : List γ} (h : Chain P lo ss cs hi) : ∀ c ∈ cs, Q c := by
  intro c hc
  obtain ⟨i, hi', rfl⟩ := List.mem_iff_getElem.mp hc
  obtain ⟨a, b, -, -, hP, -⟩ := h.focus hi'
  exact hPQ _ a b hP

theorem validChildFences {enableDense : Bool} {h : ℕ} {p : InnerNode (AnyNode h)} {lower upper : Bytes}
    (hp : InnerNode.Inv (Inv enableDense h) p lower upper) : ValidChildFences p := by
  rw [ValidChildFences, hp.lowerFence, hp.upperFence]
  exact hp.chain.mono fun _ _ _ hc => Inv.fences h hc

theorem Inv.represented : (h : ℕ) → {n : AnyNode h} → {lower upper : Bytes} →
    Inv false h n lower upper → Represented h n
  | 0, _, _, _, hn => LeafNode.Inv.represented hn
  | h + 1, p, lower, upper, hn => by
    have hp : InnerNode.Inv (Inv false h) p lower upper := hn
    exact ⟨hp.wf.slotsOk, validChildFences hp, chain_all (fun _ _ _ hc => Inv.represented h hc) hp.chain⟩

end AnyNode

theorem BTree.Inv.represented {t : BTree} (h : t.Inv false) : t.Represented :=
  ⟨AnyNode.Inv.represented t.height h, AnyNode.Inv.fences t.height h⟩

theorem LeafNode.insert_boundaryOk {l l' : LeafNode} {lower upper key payload : Bytes} {inserted : Bool}
    (h : l.Inv false lower upper) (hr : l.insert false key payload = .ok (inserted, l')) :
    l'.BoundaryOk := by
  cases l with
  | dense d => exact absurd h.kind.2.2.2 Bool.false_ne_true
  | basic n =>
    simp only [insert, BTreeNode.insert, BTreeNode.insertDensified, bind_eq_ok, Prod.exists] at hr
    obtain ⟨_, -, space, m, -, hr⟩ := hr
    split_ifs at hr
    · simp only [bind_eq_ok, pure_eq_ok, Prod.mk.injEq] at hr
      obtain ⟨m', -, -, rfl⟩ := hr
      trivial
    · obtain ⟨-, rfl⟩ := Prod.mk.inj (Except.ok.inj hr)
      trivial

theorem BTree.Inv.boundaryOk {t : BTree} (h : t.Inv false) (key payload : Bytes) :
    t.BoundaryOk false key payload := by
  intro l l' hl hins
  obtain ⟨l₁, a, b, pre, post, hl₁, f⟩ := AnyNode.leafFor_spec t.height t.root h (inFences_nil key)
  rw [hl] at hl₁
  obtain rfl := Except.ok.inj hl₁
  exact LeafNode.insert_boundaryOk f.inv hins

theorem BTree.boundariesOk {t : BTree} (h : t.Inv false) {key payload : Bytes} (hnew : key ∉ keys t.entries)
    (hlen : key.length + payload.length ≤ maxKVSize) : t.BoundariesOk false key payload := by
  intro t' ht'
  have hkeep : t'.Inv false ∧ t'.entries = t.entries := by
    induction ht' with
    | refl => exact ⟨h, rfl⟩
    | tail _ hstep ih =>
      obtain ⟨hinv, hent⟩ := ih
      obtain ⟨hinv', -, hkept⟩ :=
        BTree.insertRound_spec hinv (hent ▸ hnew) hlen (hinv.boundaryOk key payload) hstep
      exact ⟨hinv', (hkept rfl).trans hent⟩
  exact hkeep.1.boundaryOk key payload

theorem BTree.sufficient_of_basic : Sufficient false fun _ _ _ => True :=
  fun _ _ _ h hnew hlen _ => boundariesOk h hnew hlen

/-- Every reachable tree is represented as the source's validation expects, and every call that
returns keeps it so and changes the entries by the one it is about. -/
theorem reachable_represented {t : BTree} (h : BTree.Reachable false (fun _ _ _ => True) t) :
    t.Represented ∧ ∀ c t', BTree.Calls false (fun _ _ _ => True) t c t' →
      t'.Represented ∧ c.Effect t.entries t'.entries := by
  have hinv := h.inv BTree.sufficient_of_basic
  refine ⟨hinv.represented, fun c t' hc => ?_⟩
  obtain ⟨hinv', heff⟩ := hc.spec BTree.sufficient_of_basic hinv
  exact ⟨hinv'.represented, heff⟩

def mergesAt (key : Bytes) : BTree → Bool
  | ⟨1, p⟩ => match BTree.removeImpl ⟨1, p⟩ key with
    | .ok (true, ⟨1, q⟩) =>
      decide ((InnerNode.children p).length = 3) && decide ((InnerNode.children q).length = 2)
    | _ => false
  | _ => false

theorem mergesAt_spec {key : Bytes} {t : BTree} (h : mergesAt key t = true) :
    ∃ p q : InnerNode LeafNode, t = ⟨1, p⟩ ∧ t.removeImpl key = .ok (true, ⟨1, q⟩) ∧ p.children.length = 3 ∧
      q.children.length = 2 := by
  unfold mergesAt at h
  split at h
  · next p =>
    split at h
    · next q hq =>
      rw [Bool.and_eq_true, decide_eq_true_eq, decide_eq_true_eq] at h
      exact ⟨p, q, rfl, hq, h⟩
    · cases h
  · cases h

/-- Six keys split their leaf twice, and without `0A` the first leaf is merged with the second. -/
theorem reachable_represented_merged : ∃ p q : InnerNode LeafNode,
    BTree.removeImpl ⟨1, p⟩ [10] = .ok (true, ⟨1, q⟩) ∧ p.children.length = 3 ∧ q.children.length = 2 ∧
      BTree.Represented ⟨1, p⟩ ∧ BTree.Represented ⟨1, q⟩ := by
  have hrun : BTree.reaches false 3 ([10, 20, 30, 40, 50, 60].map fun k => ([k], kilobyte)) (mergesAt [10]) = true := by
    decide +kernel
  obtain ⟨t, ht, hc⟩ := BTree.reaches_spec hrun
  obtain ⟨p, q, rfl, hremove, hp, hq⟩ := mergesAt_spec hc
  obtain ⟨hrep, hnext⟩ := reachable_represented ht
  exact ⟨p, q, hremove, hp, hq, hrep, (hnext (.remove [10]) _ (.remove hremove)).1⟩

end BtreeRedis
