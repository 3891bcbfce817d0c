import BtreeRedis.Headed.Leaf

/-!
# Trees of a build with head nodes

Leaves are basic. Inner nodes begin as head nodes and change their shape whenever a separator
asks for it, also where the request for space is refused. The tree keeps a chain of separators
and children all the same, and a lookup is answered from its entries.
-/

namespace BtreeRedis

open LexOrder SortedAssoc

namespace AnyInner
variable {γ : Type} [ChildPointer γ]

def children : AnyInner γ → List γ
  | .inner p => p.children
  | .head4 n => n.children
  | .head8 n => n.children

theorem Represents.children {n : AnyInner γ} {a : Routing γ} (h : n.Represents a) : n.children = a.children := by
  cases n with
  | inner p => exact InnerNode.Holds.children h
  | head4 n => exact HeadNode.Holds.children h
  | head8 n => exact HeadNode.Holds.children h

end AnyInner

def HeadedNode : ℕ → Type
  | 0 => BTreeNode Bytes
  | h + 1 => AnyInner (HeadedNode h)

instance (h : ℕ) : ChildPointer (HeadedNode h) where
  len _ := pointerSize
  len_eq _ := rfl

structure HeadedTree where
  height : ℕ
  root : HeadedNode height

namespace HeadedNode

def entries : (h : ℕ) → HeadedNode h → List (Bytes × Bytes)
  | 0, n => BTreeNode.entries n
  | h + 1, p => (AnyInner.children p).flatMap (entries h)

def leafFor : (h : ℕ) → HeadedNode h → Bytes → Except Fault (BTreeNode Bytes)
  | 0, n, _ => .ok n
  | h + 1, p, key => do
    let child ← AnyInner.lookupInner p key
    leafFor h child key

def separatorLength : (h : ℕ) → HeadedNode h → Except Fault ℕ
  | 0, n => BTreeNode.separatorLength n
  | _ + 1, p => AnyInner.separatorLength p

def split : (h : ℕ) → HeadedNode h → Except Fault (Bytes × HeadedNode h × HeadedNode h)
  | 0, n => BTreeNode.split n
  | _ + 1, p => AnyInner.split p

/-- `splitNodeWithParent` for child `i` of `p`. A parent that refuses may have changed its shape. -/
def splitNodeWithParent {h : ℕ} (p : AnyInner (HeadedNode h)) (i : ℕ) (node : HeadedNode h) :
    Except Fault (Bool × AnyInner (HeadedNode h)) :=
  p.splitChild i (separatorLength h node) (split h node)

def splitBelow {h : ℕ} (p : AnyInner (HeadedNode h)) (i : ℕ) :
    Round (HeadedNode h) → Except Fault (Round (HeadedNode (h + 1)))
  | .inserted c => .ok (.inserted (p.setChild i c))
  | .split c => .ok (.split (p.setChild i c))
  | .full c => do
    let (done, p) ← splitNodeWithParent (p.setChild i c) i c
    if done then pure (.split p) else pure (.full p)

def leafRound : Bool × BTreeNode Bytes → Round (HeadedNode 0)
  | (true, n) => .inserted n
  | (false, n) => .full n

def insertRound (key payload : Bytes) : (h : ℕ) → HeadedNode h → Except Fault (Round (HeadedNode h))
  | 0, n => do
    let res ← BTreeNode.insertPlain n key payload
    pure (leafRound res)
  | h + 1, p => do
    let pos ← AnyInner.lookupInnerIndex p key
    let child ← AnyInner.getChild p pos
    let round ← insertRound key payload h child
    splitBelow p pos round

end HeadedNode

namespace HeadedTree

def empty : HeadedTree := ⟨0, BTreeNode.init true⟩

def entries (t : HeadedTree) : List (Bytes × Bytes) := HeadedNode.entries t.height t.root

def leafFor (t : HeadedTree) (key : Bytes) : Except Fault (BTreeNode Bytes) := HeadedNode.leafFor t.height t.root key

def lookupImpl (t : HeadedTree) (key : Bytes) : Except Fault (Option Bytes) := do
  let leaf ← t.leafFor key
  leaf.lookup key

def splitRoot {h : ℕ} (node : HeadedNode h) : Except Fault HeadedTree := do
  let parent ← AnyInner.makeRoot node
  let (done, root) ← HeadedNode.splitNodeWithParent parent 0 node
  if done then pure ⟨h + 1, root⟩ else .error .assertion

def finishRound {h : ℕ} : Round (HeadedNode h) → Except Fault (Bool × HeadedTree)
  | .inserted n => .ok (true, ⟨h, n⟩)
  | .split n => .ok (false, ⟨h, n⟩)
  | .full n => do
    let t ← splitRoot n
    pure (false, t)

def insertRound (key payload : Bytes) (t : HeadedTree) : Except Fault (Bool × HeadedTree) := do
  let round ← HeadedNode.insertRound key payload t.height t.root
  finishRound round

def insertImpl (key payload : Bytes) : ℕ → HeadedTree → Except Fault HeadedTree
  | 0, _ => .error .outOfFuel
  | fuel + 1, t => do
    ensure (key.length + payload.length ≤ maxKVSize) .assertion
    let (inserted, t) ← t.insertRound key payload
    if inserted then pure t else insertImpl key payload fuel t

end HeadedTree

structure AnyInner.Keeps {γ : Type} [ChildPointer γ] (P : γ → Bytes → Bytes → Prop) (ℓ : Limits) (p : AnyInner γ)
    (a : Routing γ) (lower upper : Bytes) : Prop where
  represents : p.Represents a
  lower : a.lower = lower
  upper : a.upper = upper
  bounded : a.Bounded ℓ.key
  spans : a.Spans P

def HeadedNode.Inv (ℓ : Limits) : (h : ℕ) → HeadedNode h → Bytes → Bytes → Prop
  | 0, n, lower, upper => BTreeNode.LeafInv ℓ n lower upper
  | h + 1, p, lower, upper => ∃ a, AnyInner.Keeps (Inv ℓ h) ℓ p a lower upper

def HeadedTree.Inv (ℓ : Limits) (t : HeadedTree) : Prop := HeadedNode.Inv ℓ t.height t.root [] []

variable {ℓ : Limits} {lower upper key : Bytes}

namespace AnyInner.Keeps
variable {γ : Type} [ChildPointer γ] {P : γ → Bytes → Bytes → Prop} {E : γ → List (Bytes × Bytes)} {p : AnyInner γ}
  {a : Routing γ}

theorem entries_eq (h : Keeps P ℓ p a lower upper) : p.children.flatMap E = a.entriesOf E := by
  rw [h.represents.children]
  rfl

theorem entries_spec (h : Keeps P ℓ p a lower upper) (hP : InnerNode.Lawful P E) :
    Ascending (keys (p.children.flatMap E)) ∧ ∀ e ∈ p.children.flatMap E, InFences lower upper e.1 := by
  rw [h.entries_eq, ← h.lower, ← h.upper]
  exact h.spans.entries_spec hP

theorem focus (h : Keeps P ℓ p a lower upper) (hP : InnerNode.Lawful P E) (hk : InFences lower upper key) :
    ∃ i c x y pre post, Routing.Focus P E a key i c x y pre post ∧ p.lookupInnerIndex key = .ok i ∧
      p.getChild i = .ok c ∧ p.lookupInner key = .ok c := by
  rw [← h.lower, ← h.upper] at hk
  obtain ⟨i, c, x, y, pre, post, f⟩ := h.spans.focus hP hk
  have hindex : p.lookupInnerIndex key = .ok i := by rw [h.represents.lookupInnerIndex_spec hk, f.index]
  have hchild := h.represents.getChild_spec f.child
  exact ⟨i, c, x, y, pre, post, f, hindex, hchild, by rw [lookupInner_eq, hindex, ok_bind, hchild]⟩

theorem put (h : Keeps P ℓ p a lower upper) {i : ℕ} {c c' : γ} {x y : Bytes} {pre post : List (Bytes × Bytes)}
    (f : Routing.Focus P E a key i c x y pre post) (hc : P c' x y) :
    Keeps P ℓ (p.setChild i c') (a.set i c') lower upper :=
  ⟨h.represents.setChild_spec f.le_length c', h.lower, h.upper,
    ⟨h.bounded.lower, h.bounded.upper, h.bounded.separators⟩, f.put_spans c' hc⟩

end AnyInner.Keeps

structure HeadedNode.LeafFocus (ℓ : Limits) (es : List (Bytes × Bytes)) (key : Bytes) (n : BTreeNode Bytes)
    (a b : Bytes) (pre post : List (Bytes × Bytes)) : Prop where
  inv : n.LeafInv ℓ a b
  inFences : InFences a b key
  entries : es = pre ++ n.entries ++ post
  pre_lt : ∀ e ∈ pre, e.1 < key
  post_gt : ∀ e ∈ post, key < e.1

namespace HeadedNode

theorem lawful (ℓ : Limits) (h : ℕ) : InnerNode.Lawful (Inv ℓ h) (entries h) := by
  induction h with
  | zero =>
    intro n lower upper hn
    have hleaf : BTreeNode.LeafInv ℓ n lower upper := hn
    exact ⟨hleaf.sorted_entries, fun e he => hleaf.inFences he⟩
  | succ h ih =>
    rintro p lower upper ⟨a, hp⟩
    exact hp.entries_spec ih

theorem leafFor_spec : (h : ℕ) → {n : HeadedNode h} → {lower upper : Bytes} → Inv ℓ h n lower upper →
    InFences lower upper key →
    ∃ l a b pre post, leafFor h n key = .ok l ∧ LeafFocus ℓ (entries h n) key l a b pre post
  | 0, n, lower, upper, hn, hk =>
    ⟨n, lower, upper, [], [], rfl, hn, hk, by simp [entries], by simp, by simp⟩
  | h + 1, p, lower, upper, ⟨a, hp⟩, hk => by
    obtain ⟨i, c, x, y, pre, post, f, -, -, hinner⟩ := hp.focus (lawful ℓ h) hk
    obtain ⟨l, x', y', pre', post', hl, g⟩ := leafFor_spec h f.inv f.inFences
    refine ⟨l, x', y', pre ++ pre', post' ++ post, by simp only [leafFor, hinner, ok_bind, hl], g.inv, g.inFences, ?_,
      ?_, ?_⟩
    · change (AnyInner.children p).flatMap (entries h) = _
      rw [hp.entries_eq, f.entries, g.entries]
      simp
    · exact fun e he => (List.mem_append.mp he).elim (f.pre_lt e) (g.pre_lt e)
    · exact fun e he => (List.mem_append.mp he).elim (g.post_gt e) (f.post_gt e)

end HeadedNode

namespace HeadedTree
variable {t : HeadedTree}

theorem Inv.ascending (h : t.Inv ℓ) : Ascending (keys t.entries) := (HeadedNode.lawful ℓ t.height t.root [] [] h).1

theorem lookupImpl_spec (h : t.Inv ℓ) (key : Bytes) : t.lookupImpl key = .ok (t.entries.lookup key) := by
  obtain ⟨l, a, b, pre, post, hl, f⟩ := HeadedNode.leafFor_spec t.height h (inFences_nil key)
  have hes : t.entries = pre ++ l.entries ++ post := f.entries
  rw [lookupImpl, leafFor, hl, ok_bind, f.inv.lookup_spec f.inFences, hes,
    lookup_append_left (not_mem_keys_of_gt f.post_gt), lookup_append_right (not_mem_keys_of_lt f.pre_lt)]

theorem empty_inv : empty.Inv ℓ :=
  BTreeNode.LeafInv.of_holds (BTreeNode.init_holds true) (Nat.zero_le _) (Nat.zero_le _) fun _ he =>
    absurd he List.not_mem_nil

end HeadedTree

end BtreeRedis
