import BtreeRedis.Node.Merge
import BtreeRedis.Tree.Insert

/-!
# Removal

`removeImpl` removes from the leaf of the key. An underfull leaf is merged into its right
neighbour if that one is basic, underfull as well and not the last child; a dense leaf is
made basic for it first. Only the parent of the two leaves changes.
-/

namespace BtreeRedis

open LexOrder SortedAssoc

namespace InnerNode

def removeSlot {γ : Type} [ChildPointer γ] (p : InnerNode γ) (slotId : ℕ) : InnerNode γ :=
  { p with node := p.node.removeSlot slotId }

/-- Merges the basic leaf at `pos` into its neighbour, where the neighbour is basic and underfull. -/
def mergeBasic (p : InnerNode LeafNode) (pos : ℕ) (node : BTreeNode Bytes) :
    Except Fault (InnerNode LeafNode) := do
  match ← p.getChild (pos + 1) with
  | .dense _ => pure p
  | .basic right =>
    if underFullSize ≤ right.freeSpaceAfterCompaction then do
      match ← node.mergeLeaf right with
      | some merged => pure ((p.setChild (pos + 1) (.basic merged)).removeSlot pos)
      | none => pure p
    else pure p

def mergeRight (p : InnerNode LeafNode) (pos : ℕ) : LeafNode → Except Fault (InnerNode LeafNode)
  | .basic node =>
    if underFullSize ≤ node.freeSpaceAfterCompaction ∧ 2 ≤ p.node.count ∧ pos + 1 < p.node.count
    then p.mergeBasic pos node
    else .ok p
  | .dense node =>
    if 2 ≤ p.node.count ∧ pos + 1 < p.node.count ∧ node.isUnderfull then do
      let node ← node.convertToBasic
      (p.setChild pos (.basic node)).mergeBasic pos node
    else .ok p

/-- `removeImpl` from the parent of the leaf on. -/
def removeLeaf (p : InnerNode LeafNode) (key : Bytes) : Except Fault (Bool × InnerNode LeafNode) := do
  let pos ← p.lookupInnerIndex key
  let leaf ← p.getChild pos
  let (found, leaf) ← leaf.remove key
  if found then do
    let p ← (p.setChild pos leaf).mergeRight pos leaf
    pure (true, p)
  else pure (false, p)

end InnerNode

def AnyNode.remove (key : Bytes) : (h : ℕ) → AnyNode h → Except Fault (Bool × AnyNode h)
  | 0, l => LeafNode.remove l key
  | 1, p => InnerNode.removeLeaf p key
  | h + 2, p => do
    let pos ← InnerNode.lookupInnerIndex p key
    let child ← InnerNode.getChild p pos
    let (found, child) ← remove key (h + 1) child
    pure (found, InnerNode.setChild p pos child)

def BTree.removeImpl (t : BTree) (key : Bytes) : Except Fault (Bool × BTree) := do
  let (found, root) ← AnyNode.remove key t.height t.root
  pure (found, ⟨t.height, root⟩)

section
variable {enableDense : Bool}

namespace InnerNode
variable {p : InnerNode LeafNode} {lower upper : Bytes}

theorem set_eraseIdx {α : Type*} {cs : List α} {i : ℕ} (hi : i + 1 < cs.length) (e : α) :
    (cs.set (i + 1) e).eraseIdx i = cs.take i ++ e :: cs.drop (i + 2) := by
  rw [List.eraseIdx_eq_take_drop_succ, List.take_set_of_le (Nat.le_succ i), List.drop_set,
    if_neg (lt_irrefl _), Nat.sub_self, ← List.getElem_cons_drop hi, List.set_cons_zero]

theorem join_inv {γ : Type} [ChildPointer γ] {P : γ → Bytes → Bytes → Prop} {E : γ → List (Bytes × Bytes)}
    {p : InnerNode γ} (h : Inv P p lower upper) {pos : ℕ} (hpos : pos + 1 < p.node.count) {l r e : γ}
    (hl : p.children[pos]? = some l) (hr : p.children[pos + 1]? = some r)
    (he : ∀ a s b, s ≠ [] → P l a s → P r s b → P e a b ∧ E e = E l ++ E r) :
    Inv P ((p.setChild (pos + 1) e).removeSlot pos) lower upper ∧
      ((p.setChild (pos + 1) e).removeSlot pos).entriesOf E = p.entriesOf E := by
  have hss : pos < p.separators.length := by
    rw [length_separators]
    omega
  obtain ⟨a, b, l', r', -, -, hl', hr', hPl, hPr, hput⟩ := h.chain.join hss
  rw [hl] at hl'
  rw [hr] at hr'
  obtain rfl := Option.some.inj hl'
  obtain rfl := Option.some.inj hr'
  obtain ⟨heinv, heent⟩ := he a _ b (h.nonempty _ (List.getElem_mem hss)) hPl hPr
  obtain ⟨q, hq⟩ : ∃ q, q = p.setChild (pos + 1) e := ⟨_, rfl⟩
  have hqn : q.node.count = p.node.count := hq ▸ count_setChild p (pos + 1) e
  have hqs : q.separators = p.separators := hq ▸ separators_setChild p (pos + 1) e
  have hqc : q.children = p.children.set (pos + 1) e := hq ▸ children_setChild (Nat.le_of_lt hpos) e
  have hsame : q.node.isLeaf = p.node.isLeaf ∧ q.node.getLowerFence = p.node.getLowerFence ∧
      q.node.getUpperFence = p.node.getUpperFence := by
    rw [hq, setChild]
    split_ifs <;> exact ⟨rfl, rfl, rfl⟩
  rw [← hq]
  have hw : q.node.WF := hq ▸ setChild_wf h.wf (pos + 1) e
  have hposq : pos < q.node.count := by omega
  obtain ⟨hrw, hrl, hrlow, hrupp, -, hrent⟩ := BTreeNode.removeSlot_spec hw hposq
  have hsep : (q.removeSlot pos).separators = p.separators.eraseIdx pos := by
    rw [← hqs, separators, separators, removeSlot, hrent, keys, keys, List.eraseIdx_map]
  have hch : (q.removeSlot pos).children = (p.children.set (pos + 1) e).eraseIdx pos := by
    rw [← hqc, children, children, removeSlot, hrent, List.eraseIdx_append_of_lt_length (by simpa using hposq),
      List.eraseIdx_map]
  have hlc : pos + 1 < p.children.length := by
    rw [length_children]
    omega
  refine ⟨⟨hrw, (hrl.trans hsame.1).trans h.isLeaf, (hrlow.trans hsame.2.1).trans h.lowerFence,
    (hrupp.trans hsame.2.2).trans h.upperFence, h.lower_len, h.upper_len, fun s hs => ?_, fun s hs => ?_, ?_⟩, ?_⟩
  · rw [hsep] at hs
    exact h.sep_len s (List.mem_of_mem_eraseIdx hs)
  · rw [hsep] at hs
    exact h.nonempty s (List.mem_of_mem_eraseIdx hs)
  · rw [hsep, hch]
    exact hput e heinv
  · obtain ⟨hlp, hle⟩ := List.getElem?_eq_some_iff.mp hl
    obtain ⟨hrp, hre⟩ := List.getElem?_eq_some_iff.mp hr
    rw [entriesOf, hch, set_eraseIdx hlc]
    conv_rhs => rw [entriesOf, ← List.take_append_drop pos p.children, ← List.getElem_cons_drop hlp,
      ← List.getElem_cons_drop hrp, hle, hre]
    simp only [List.flatMap_append, List.flatMap_cons, heent, List.append_assoc]

theorem mergeBasic_spec (h : Inv (LeafNode.Inv enableDense) p lower upper) {pos : ℕ}
    (hpos : pos + 1 < p.node.count) {node : BTreeNode Bytes}
    (hc : p.children[pos]? = some (.basic node)) :
    ∃ p', p.mergeBasic pos node = .ok p' ∧ Inv (LeafNode.Inv enableDense) p' lower upper ∧
      p'.entriesOf LeafNode.entries = p.entriesOf LeafNode.entries := by
  have hlr : pos + 1 < p.children.length := by
    rw [length_children]
    omega
  have hr : p.children[pos + 1]? = some p.children[pos + 1] := List.getElem?_eq_getElem hlr
  have hget : p.getChild (pos + 1) = .ok p.children[pos + 1] :=
    (getChild_eq_ok hpos.le).mpr hr
  generalize p.children[pos + 1] = right at hr hget
  cases right with
  | dense d =>
    refine ⟨p, ?_, h, rfl⟩
    rw [mergeBasic, hget]
    rfl
  | basic right =>
    have hss : pos < p.separators.length := by
      rw [length_separators]
      omega
    obtain ⟨a, b, l', r', -, -, hl', hr', hPl, hPr, -⟩ := h.chain.join hss
    rw [hc] at hl'
    rw [hr] at hr'
    obtain rfl := Option.some.inj hl'
    obtain rfl := Option.some.inj hr'
    have hleft : node.getUpperFence = p.separators[pos] := hPl.upperFence
    have hright : right.getLowerFence = p.separators[pos] := hPr.lowerFence
    have hlow : node.getLowerFence.length ≤ maxKVSize := by
      rw [show node.getLowerFence = a from hPl.lowerFence]
      exact hPl.lower_len
    have hupp : right.getUpperFence.length ≤ maxKVSize := by
      rw [show right.getUpperFence = b from hPr.upperFence]
      exact hPr.upper_len
    obtain ⟨res, hres, hm⟩ := BTreeNode.mergeLeaf_spec hPl.kind.1 hPr.kind.1
      (hPr.kind.2.trans hPl.kind.2.symm) (hright.trans hleft.symm)
      (hleft ▸ h.nonempty _ (List.getElem_mem hss)) (by
        simp only [maxKVSize, slotsOffset, pageSize, headerSize, slotSize] at hlow hupp ⊢
        omega)
    simp only [mergeBasic, hget, ok_bind, hres]
    split_ifs with hunder
    · cases res with
      | none => exact ⟨p, rfl, h, rfl⟩
      | some merged =>
        refine ⟨_, rfl, ?_⟩
        refine join_inv h hpos hc hr fun x s y hs hx hy => ?_
        have hmerged := hm merged rfl
        rw [show node.getLowerFence = x from hx.lowerFence, show right.getUpperFence = y from hy.upperFence,
          hx.kind.2] at hmerged
        refine ⟨LeafNode.Inv.of_holds hmerged hx.lower_len hy.upper_len fun e he => ?_, hmerged.entries⟩
        exact (List.mem_append.mp he).elim (hx.entry_len e) (hy.entry_len e)
    · exact ⟨p, rfl, h, rfl⟩

theorem convert_underfull {d : DenseNode} {a b : Bytes} (h : LeafNode.Inv enableDense (.dense d) a b)
    (hu : d.isUnderfull = true) :
    ∃ n, d.convertToBasic = .ok n ∧ LeafNode.Inv enableDense (.basic n) a b ∧ n.entries = d.entries := by
  have hw := h.kind.1
  have hfit : BTreeNode.pageBytes d.lowerFence d.upperFence d.entries ≤ pageSize := by
    rw [DenseNode.pageBytes_entries hw]
    simp only [DenseNode.isUnderfull, decide_eq_true_eq, Nat.mul_comm _ d.occupiedCount] at hu
    simp only [slotsOffset, headerSize, pageSize, underFullSize] at hu ⊢
    omega
  obtain ⟨n, hn⟩ := DenseNode.convertToBasic_ok hw hfit
  have hh := DenseNode.convertToBasic_spec hw hn
  rw [show d.lowerFence = a from h.lowerFence, show d.upperFence = b from h.upperFence] at hh
  exact ⟨n, hn, LeafNode.Inv.of_holds hh h.lower_len h.upper_len h.entry_len, hh.entries⟩

theorem mergeRight_spec (h : Inv (LeafNode.Inv enableDense) p lower upper) {pos : ℕ} {l : LeafNode}
    (hc : p.children[pos]? = some l) :
    ∃ p', p.mergeRight pos l = .ok p' ∧ Inv (LeafNode.Inv enableDense) p' lower upper ∧
      p'.entriesOf LeafNode.entries = p.entriesOf LeafNode.entries := by
  cases l with
  | basic node =>
    simp only [mergeRight]
    split_ifs with hm
    · exact mergeBasic_spec h hm.2.2 hc
    · exact ⟨p, rfl, h, rfl⟩
  | dense d =>
    simp only [mergeRight]
    split_ifs with hm
    · obtain ⟨hlc, hget⟩ := List.getElem?_eq_some_iff.mp hc
      have hpos : pos ≤ p.node.count := by omega
      obtain ⟨a, b, ha, hb, hP, -⟩ := h.chain.focus hlc
      rw [hget] at hP
      obtain ⟨n, hn, hinv, hent⟩ := convert_underfull hP hm.2.2
      have hq := h.setChild hpos (c := .basic n) fun x y hx hy => by
        rw [ha] at hx
        rw [hb] at hy
        cases hx
        cases hy
        exact hinv
      have hqc : (p.setChild pos (.basic n)).children[pos]? = some (.basic n) := by
        rw [children_setChild hpos, List.getElem?_set_self hlc]
      have hqe : (p.setChild pos (.basic n)).entriesOf LeafNode.entries = p.entriesOf LeafNode.entries := by
        rw [entriesOf, children_setChild hpos, set_eq_take_append hlc]
        conv_rhs => rw [entriesOf, ← List.take_append_drop pos p.children, ← List.getElem_cons_drop hlc, hget]
        simp only [List.flatMap_append, List.flatMap_cons, List.flatMap_nil, List.append_nil,
          List.append_assoc, LeafNode.entries, hent]
      obtain ⟨p', hp', hinv', hent'⟩ := mergeBasic_spec hq (by
        rw [count_setChild]
        exact hm.2.1) hqc
      exact ⟨p', by rw [hn, ok_bind, hp'], hinv', hent'.trans hqe⟩
    · exact ⟨p, rfl, h, rfl⟩

end InnerNode

structure Removing (Q : Prop) (key : Bytes) (es es' : List (Bytes × Bytes)) (found : Bool) : Prop where
  inv : Q
  found_iff : found = true ↔ key ∈ keys es
  done : found = true → Removed key es es'
  absent : found = false → es' = es

theorem LeafNode.remove_removing {l : LeafNode} {lower upper key : Bytes}
    (h : l.Inv enableDense lower upper) (hk : InFences lower upper key) :
    ∃ found l', l.remove key = .ok (found, l') ∧
      Removing (l'.Inv enableDense lower upper) key l.entries l'.entries found := by
  rcases LeafNode.remove_spec h hk with ⟨hm, hr⟩ | ⟨l', hr, hinv, hrem⟩
  · exact ⟨false, l, hr, h, by simp [hm], fun hc => absurd hc Bool.false_ne_true, fun _ => rfl⟩
  · exact ⟨true, l', hr, hinv, by simp [hrem.key_mem], fun _ => hrem, fun hc => absurd hc.symm Bool.false_ne_true⟩

section Beside
variable {γ : Type} [ChildPointer γ] {P : γ → Bytes → Bytes → Prop} {E : γ → List (Bytes × Bytes)}
  {p : InnerNode γ} {lower upper key : Bytes} {i : ℕ} {c : γ} {a b : Bytes}
  {pre post : List (Bytes × Bytes)}

theorem InnerNode.Focus.mem_iff (f : InnerNode.Focus P E p lower upper key i c a b pre post) :
    key ∈ keys (p.entriesOf E) ↔ key ∈ keys (E c) := by
  rw [f.entries, keys_append, keys_append, List.mem_append, List.mem_append]
  refine ⟨fun h => ?_, fun h => Or.inl (Or.inr h)⟩
  rcases h with (h | h) | h
  · exact absurd h (not_mem_keys_of_lt f.pre_lt)
  · exact h
  · exact absurd h (not_mem_keys_of_gt f.post_gt)

theorem InnerNode.Focus.removing (f : InnerNode.Focus P E p lower upper key i c a b pre post) {c' : γ}
    {found : Bool} (h : Removing (P c' a b) key (E c) (E c') found) :
    Removing (InnerNode.Inv P (p.setChild i c') lower upper) key (p.entriesOf E)
      ((p.setChild i c').entriesOf E) found where
  inv := f.put_inv c' h.inv
  found_iff := by rw [h.found_iff, f.mem_iff]
  done := fun hf => by
    rw [f.entries, f.put]
    exact (h.done hf).context pre post
  absent := fun hf => by rw [f.entries, f.put, h.absent hf]

end Beside

theorem InnerNode.removeLeaf_removing {p : InnerNode LeafNode} {lower upper key : Bytes}
    (h : Inv (LeafNode.Inv enableDense) p lower upper) (hk : InFences lower upper key) :
    ∃ found p', p.removeLeaf key = .ok (found, p') ∧
      Removing (Inv (LeafNode.Inv enableDense) p' lower upper) key (p.entriesOf LeafNode.entries)
        (p'.entriesOf LeafNode.entries) found := by
  have hP : Lawful (LeafNode.Inv enableDense) LeafNode.entries := AnyNode.lawful 0
  obtain ⟨i, c, a, b, pre, post, f⟩ := h.focus hP hk
  obtain ⟨found, c', hc', hrem⟩ := LeafNode.remove_removing f.inv f.inFences
  have hput := f.removing hrem
  simp only [removeLeaf, f.index, f.child, ok_bind, hc']
  cases found with
  | false =>
    refine ⟨false, p, rfl, h, ?_, fun hc => absurd hc Bool.false_ne_true, fun _ => rfl⟩
    exact hput.found_iff
  | true =>
    have hlc : i < p.children.length := by
      rw [length_children]
      exact Nat.lt_succ_of_le f.le_count
    have hc : (p.setChild i c').children[i]? = some c' := by
      rw [children_setChild f.le_count, List.getElem?_set_self hlc]
    obtain ⟨p', hp', hinv, hent⟩ := mergeRight_spec hput.inv hc
    refine ⟨true, p', by simp only [if_true, hp', ok_bind]; rfl, hinv, hput.found_iff, fun _ => ?_,
      fun hc => absurd hc.symm Bool.false_ne_true⟩
    rw [hent]
    exact hput.done rfl

theorem AnyNode.remove_removing : (h : ℕ) → {n : AnyNode h} → {lower upper key : Bytes} →
    Inv enableDense h n lower upper → InFences lower upper key →
    ∃ found n', remove key h n = .ok (found, n') ∧
      Removing (Inv enableDense h n' lower upper) key (entries h n) (entries h n') found
  | 0, l, _, _, _, hn, hk => LeafNode.remove_removing (l := l) hn hk
  | 1, p, _, _, _, hn, hk => InnerNode.removeLeaf_removing (p := p) hn hk
  | h + 2, p, _, _, key, hn, hk => by
    obtain ⟨i, c, a, b, pre, post, f⟩ := InnerNode.Inv.focus (p := p) hn (lawful (h + 1)) hk
    obtain ⟨found, c', hc', hrem⟩ := remove_removing (h + 1) f.inv f.inFences
    refine ⟨found, _, ?_, f.removing hrem⟩
    simp only [remove, f.index, f.child, ok_bind, hc']
    rfl

theorem BTree.removeImpl_spec {t : BTree} (h : t.Inv enableDense) (key : Bytes) :
    ∃ found t', t.removeImpl key = .ok (found, t') ∧
      Removing (t'.Inv enableDense) key t.entries t'.entries found := by
  obtain ⟨found, root, hr, hrem⟩ := AnyNode.remove_removing t.height h (inFences_nil key)
  refine ⟨found, ⟨t.height, root⟩, ?_, hrem⟩
  rw [removeImpl, hr]
  rfl

theorem InnerNode.setChild_getChild {γ : Type} [ChildPointer γ] {p : InnerNode γ} {i : ℕ} {c : γ}
    (h : p.getChild i = .ok c) : p.setChild i c = p := by
  unfold getChild at h
  unfold setChild
  split_ifs at h ⊢ with hi
  · obtain rfl := Except.ok.inj h
    rfl
  · cases hs : p.node.slots[i]? with
    | none => simp [hs] at h
    | some s =>
      rw [hs] at h
      obtain rfl := Except.ok.inj h
      have hslots : p.node.slots.modify i (fun t => { t with payload := s.payload }) = p.node.slots := by
        refine List.ext_getElem? fun j => ?_
        rw [List.getElem?_modify]
        by_cases hij : i = j
        · subst hij
          simp [hs]
        · simp [hij]
      rw [BTreeNode.setPayload, hslots]

theorem LeafNode.remove_absent {l l' : LeafNode} {key : Bytes} (h : l.remove key = .ok (false, l')) :
    l' = l := by
  cases l with
  | basic n =>
    simp only [remove, BTreeNode.remove, bind_eq_ok, pure_eq_ok, Prod.exists, Prod.mk.injEq] at h
    obtain ⟨found, n', ⟨slotId, b, -, hn⟩, rfl, rfl⟩ := h
    split_ifs at hn with hb
    · obtain ⟨hf, -⟩ := Prod.mk.inj (Except.ok.inj hn)
      exact absurd hf (by decide)
    · obtain ⟨-, rfl⟩ := Prod.mk.inj (Except.ok.inj hn)
      rfl
  | dense d =>
    simp only [remove, DenseNode.remove, bind_eq_ok, pure_eq_ok, Prod.exists, Prod.mk.injEq] at h
    obtain ⟨found, d', ⟨i, -, hd⟩, rfl, rfl⟩ := h
    cases i with
    | index i =>
      simp only [bind_eq_ok, pure_eq_ok] at hd
      obtain ⟨b, -, e, -, hd⟩ := hd
      split_ifs at hd with hb
      · exact absurd (Prod.mk.inj hd).1 (by decide)
      · rw [(Prod.mk.inj hd).2]
    | _ =>
      rw [pure_eq_ok] at hd
      rw [(Prod.mk.inj hd).2]

theorem InnerNode.removeLeaf_absent {p p' : InnerNode LeafNode} {key : Bytes}
    (h : p.removeLeaf key = .ok (false, p')) : p' = p := by
  simp only [removeLeaf, bind_eq_ok, Prod.exists] at h
  obtain ⟨pos, -, leaf, -, found, leaf', -, h⟩ := h
  split_ifs at h with hf
  · simp only [bind_eq_ok, pure_eq_ok, Prod.mk.injEq] at h
    obtain ⟨-, -, ht, -⟩ := h
    exact absurd ht (by decide)
  · exact (Prod.mk.inj (Except.ok.inj h)).2.symm

theorem AnyNode.remove_absent {key : Bytes} : (h : ℕ) → {n n' : AnyNode h} →
    AnyNode.remove key h n = .ok (false, n') → n' = n
  | 0, _, _, hr => LeafNode.remove_absent hr
  | 1, _, _, hr => InnerNode.removeLeaf_absent hr
  | h + 2, p, p', hr => by
    simp only [AnyNode.remove, bind_eq_ok, pure_eq_ok, Prod.exists] at hr
    obtain ⟨pos, -, child, hc, found, child', hr, rfl, rfl⟩ := hr
    obtain rfl := AnyNode.remove_absent (h + 1) hr
    exact InnerNode.setChild_getChild hc

/-- The tree is then not even touched. -/
theorem BTree.removeImpl_absent {t t' : BTree} {key : Bytes} (h : t.removeImpl key = .ok (false, t')) :
    t' = t := by
  simp only [removeImpl, bind_eq_ok, pure_eq_ok, Prod.exists, Prod.mk.injEq] at h
  obtain ⟨found, root, hr, rfl, rfl⟩ := h
  rw [AnyNode.remove_absent t.height hr]

end

end BtreeRedis
