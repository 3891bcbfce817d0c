import BtreeRedis.Tree.InnerSplit
import BtreeRedis.Tree.LeafSplit

/-!
# The tree: looking up and inserting

All leaves lie at one height. `insertImpl` goes down to a leaf; if the leaf is full, it is
split where its parent has room for the separator, and otherwise the nearest ancestor on
the path whose parent has room is, a new root if there is none. Then the insertion starts
again from the root. `insertRound` is one such round.
-/

namespace BtreeRedis

open LexOrder SortedAssoc

instance : ChildPointer LeafNode where
  len _ := pointerSize
  len_eq _ := rfl

/-- The nodes at height `h` above the leaves. -/
def AnyNode : ℕ → Type
  | 0 => LeafNode
  | h + 1 => InnerNode (AnyNode h)

instance (h : ℕ) : ChildPointer (AnyNode h) where
  len _ := pointerSize
  len_eq _ := rfl

/-- How far a round has come: the key is in, some node has been split, or this one has to be. -/
inductive Round (ν : Type)
  | inserted (node : ν)
  | split (node : ν)
  | full (node : ν)

namespace AnyNode

def entries : (h : ℕ) → AnyNode h → List (Bytes × Bytes)
  | 0, l => LeafNode.entries l
  | h + 1, p => InnerNode.entriesOf (entries h) p

def leafFor : (h : ℕ) → AnyNode h → Bytes → Except Fault LeafNode
  | 0, l, _ => .ok l
  | h + 1, p, key => do
    let pos ← InnerNode.lookupInnerIndex p key
    let child ← InnerNode.getChild p pos
    leafFor h child key

def separatorLength : (h : ℕ) → AnyNode h → Except Fault ℕ
  | 0, l => LeafNode.separatorLength l
  | _ + 1, p => InnerNode.separatorLength p

def split (key : Bytes) : (h : ℕ) → AnyNode h → Except Fault (Bytes × AnyNode h × AnyNode h)
  | 0, l => LeafNode.split key l
  | _ + 1, p => InnerNode.split p

/-- `splitNodeWithParent` for child `i` of `p`. -/
def splitNodeWithParent {h : ℕ} (p : InnerNode (AnyNode h)) (i : ℕ) (node : AnyNode h) (key : Bytes) :
    Except Fault (Option (InnerNode (AnyNode h))) :=
  p.splitChild i (separatorLength h node) (split key h node)

/-- What a node makes of a round below it, given the child `i` that the round left. -/
def splitBelow {h : ℕ} (p : InnerNode (AnyNode h)) (i : ℕ) (key : Bytes) :
    Round (AnyNode h) → Except Fault (Round (AnyNode (h + 1)))
  | .inserted c => .ok (.inserted (p.setChild i c))
  | .split c => .ok (.split (p.setChild i c))
  | .full c => do
    match ← splitNodeWithParent (p.setChild i c) i c key with
    | some q => pure (.split q)
    | none => pure (.full (p.setChild i c))

def leafRound : Bool × LeafNode → Round (AnyNode 0)
  | (true, l) => .inserted l
  | (false, l) => .full l

def insertRound (enableDense : Bool) (key payload : Bytes) :
    (h : ℕ) → AnyNode h → Except Fault (Round (AnyNode h))
  | 0, l => do
    let res ← LeafNode.insert enableDense l key payload
    pure (leafRound res)
  | h + 1, p => do
    let pos ← InnerNode.lookupInnerIndex p key
    let child ← InnerNode.getChild p pos
    let round ← insertRound enableDense key payload h child
    splitBelow p pos key round

end AnyNode

structure BTree where
  height : ℕ
  root : AnyNode height

namespace BTree

def empty : BTree := ⟨0, .basic (BTreeNode.init true)⟩

def entries (t : BTree) : List (Bytes × Bytes) := AnyNode.entries t.height t.root

def leafFor (t : BTree) (key : Bytes) : Except Fault LeafNode := AnyNode.leafFor t.height t.root key

def lookupImpl (t : BTree) (key : Bytes) : Except Fault (Option Bytes) := do
  let leaf ← t.leafFor key
  leaf.lookup key

/-- A root without a parent gets one. A new root has room for any separator; splitting it instead
would trip the assertion on its count. -/
def splitRoot (key : Bytes) {h : ℕ} (node : AnyNode h) : Except Fault BTree := do
  match ← AnyNode.splitNodeWithParent (InnerNode.makeRoot node) 0 node key with
  | some root => pure ⟨h + 1, root⟩
  | none => .error .assertion

def finishRound (key : Bytes) {h : ℕ} : Round (AnyNode h) → Except Fault (Bool × BTree)
  | .inserted n => .ok (true, ⟨h, n⟩)
  | .split n => .ok (false, ⟨h, n⟩)
  | .full n => do
    let t ← splitRoot key n
    pure (false, t)

/-- One descent of `insertImpl`, with the splits up to the point where it starts again. -/
def insertRound (enableDense : Bool) (key payload : Bytes) (t : BTree) : Except Fault (Bool × BTree) := do
  let round ← AnyNode.insertRound enableDense key payload t.height t.root
  finishRound key round

def insertImpl (enableDense : Bool) (key payload : Bytes) : ℕ → BTree → Except Fault BTree
  | 0, _ => .error .outOfFuel
  | fuel + 1, t => do
    ensure (key.length + payload.length ≤ maxKVSize) .assertion
    let (inserted, t) ← t.insertRound enableDense key payload
    if inserted then pure t else insertImpl enableDense key payload fuel t

end BTree

def AnyNode.Inv (enableDense : Bool) : (h : ℕ) → AnyNode h → Bytes → Bytes → Prop
  | 0, l, lower, upper => LeafNode.Inv enableDense l lower upper
  | h + 1, p, lower, upper => InnerNode.Inv (AnyNode.Inv enableDense h) p lower upper

/-- The outer fences of a tree are empty: there is no bound. -/
def BTree.Inv (enableDense : Bool) (t : BTree) : Prop := AnyNode.Inv enableDense t.height t.root [] []

theorem inFences_nil (key : Bytes) : InFences [] [] key := ⟨Or.inl rfl, Or.inl rfl⟩

section
variable {enableDense : Bool}

namespace AnyNode

theorem lawful (h : ℕ) : InnerNode.Lawful (Inv enableDense h) (entries h) := by
  induction h with
  | zero => exact fun c a b hc => ⟨LeafNode.Inv.sorted_entries hc, fun e he => LeafNode.Inv.inFences hc he⟩
  | succ h ih => exact fun c a b hc => InnerNode.Inv.entries_spec hc ih

structure LeafFocus (enableDense : Bool) (es : List (Bytes × Bytes)) (key : Bytes) (l : LeafNode)
    (a b : Bytes) (pre post : List (Bytes × Bytes)) : Prop where
  inv : l.Inv enableDense a b
  inFences : InFences a b key
  entries : es = pre ++ l.entries ++ post
  pre_lt : ∀ e ∈ pre, e.1 < key
  post_gt : ∀ e ∈ post, key < e.1

theorem leafFor_spec : (h : ℕ) → (n : AnyNode h) → {lower upper key : Bytes} →
    Inv enableDense h n lower upper → InFences lower upper key →
    ∃ l a b pre post, leafFor h n key = .ok l ∧ LeafFocus enableDense (entries h n) key l a b pre post
  | 0, l, lower, upper, _, hn, hk =>
    ⟨l, lower, upper, [], [], rfl, hn, hk, by simp [entries], by simp, by simp⟩
  | h + 1, p, lower, upper, key, hn, hk => by
    obtain ⟨i, c, a, b, pre, post, f⟩ := InnerNode.Inv.focus (p := p) hn (lawful h) hk
    obtain ⟨l, a', b', pre', post', hl, g⟩ := leafFor_spec h c f.inv f.inFences
    refine ⟨l, a', b', pre ++ pre', post' ++ post, ?_, g.inv, g.inFences, ?_, fun e he => ?_, fun e he => ?_⟩
    · simp only [leafFor, f.index, f.child, ok_bind, hl]
    · rw [entries, f.entries, g.entries]
      simp
    · exact (List.mem_append.mp he).elim (f.pre_lt e) (g.pre_lt e)
    · exact (List.mem_append.mp he).elim (g.post_gt e) (f.post_gt e)

theorem LeafFocus.lookup {es : List (Bytes × Bytes)} {key : Bytes} {l : LeafNode} {a b : Bytes}
    {pre post : List (Bytes × Bytes)} (h : LeafFocus enableDense es key l a b pre post) :
    l.lookup key = .ok (es.lookup key) := by
  rw [LeafNode.lookup_spec h.inv h.inFences, h.entries, lookup_append_left (not_mem_keys_of_gt h.post_gt),
    lookup_append_right (not_mem_keys_of_lt h.pre_lt)]

end AnyNode

namespace BTree
variable {t : BTree}

theorem lookupImpl_spec (h : t.Inv enableDense) (key : Bytes) :
    t.lookupImpl key = .ok (t.entries.lookup key) := by
  obtain ⟨l, a, b, pre, post, hl, f⟩ := AnyNode.leafFor_spec t.height t.root h (inFences_nil key)
  rw [lookupImpl, leafFor, hl, ok_bind, f.lookup]
  rfl

theorem Inv.ascending (h : t.Inv enableDense) : Ascending (keys t.entries) :=
  (AnyNode.lawful t.height t.root [] [] h).1

theorem empty_inv : empty.Inv enableDense :=
  LeafNode.Inv.of_holds (BTreeNode.init_holds true) (Nat.zero_le _) (Nat.zero_le _) fun _ he =>
    absurd he List.not_mem_nil

end BTree

end

end BtreeRedis
