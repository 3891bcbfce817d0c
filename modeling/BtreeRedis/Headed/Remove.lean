import BtreeRedis.Headed.Insert

/-!
# Removal from a tree with head nodes

An underfull leaf is merged into its right neighbour if that one is underfull too and not the
last child of the parent, whatever shape the parent has. A removal never leaves more to split.
-/

namespace BtreeRedis

open LexOrder SortedAssoc

namespace HeadedNode

def mergeRight (p : AnyInner (HeadedNode 0)) (pos : ℕ) (leaf : BTreeNode Bytes) :
    Except Fault (AnyInner (HeadedNode 0)) :=
  if underFullSize ≤ leaf.freeSpaceAfterCompaction ∧ 2 ≤ p.innerCount ∧ pos + 1 < p.innerCount then do
    let right ← p.getChild (pos + 1)
    if underFullSize ≤ BTreeNode.freeSpaceAfterCompaction right then do
      match ← leaf.mergeLeaf right with
      | some merged => (p.setChild (pos + 1) merged).innerRemoveSlot pos
      | none => pure p
    else pure p
  else .ok p

def removeLeaf (p : AnyInner (HeadedNode 0)) (key : Bytes) : Except Fault (Bool × AnyInner (HeadedNode 0)) := do
  let pos ← p.lookupInnerIndex key
  let child ← p.getChild pos
  let (found, leaf) ← BTreeNode.remove child key
  if found then do
    let p ← mergeRight (p.setChild pos leaf) pos leaf
    pure (true, p)
  else pure (false, p)

def remove (key : Bytes) : (h : ℕ) → HeadedNode h → Except Fault (Bool × HeadedNode h)
  | 0, n => BTreeNode.remove n key
  | 1, p => removeLeaf p key
  | h + 2, p => do
    let pos ← AnyInner.lookupInnerIndex p key
    let child ← AnyInner.getChild p pos
    let (found, child) ← remove key (h + 1) child
    pure (found, AnyInner.setChild p pos child)

end HeadedNode

def HeadedTree.removeImpl (t : HeadedTree) (key : Bytes) : Except Fault (Bool × HeadedTree) := do
  let (found, root) ← HeadedNode.remove key t.height t.root
  pure (found, ⟨t.height, root⟩)

variable {ℓ : Limits} {lower upper key : Bytes}

namespace AnyInner.Keeps
variable {γ : Type} [ChildPointer γ] {P : γ → Bytes → Bytes → Prop} {E : γ → List (Bytes × Bytes)} {p : AnyInner γ}
  {a : Routing γ}

theorem removing (h : Keeps P ℓ p a lower upper) {i : ℕ} {c c' : γ} {x y : Bytes} {pre post : List (Bytes × Bytes)}
    (f : Routing.Focus P E a key i c x y pre post) {found : Bool} (hrem : Removing (P c' x y) key (E c) (E c') found) :
    Removing (Keeps P ℓ (p.setChild i c') (a.set i c') lower upper) key (p.children.flatMap E)
      ((p.setChild i c').children.flatMap E) found := by
  have hput := h.put f hrem.inv
  have hes : p.children.flatMap E = pre ++ E c ++ post := h.entries_eq.trans f.entries
  have hes' : (p.setChild i c').children.flatMap E = pre ++ E c' ++ post := hput.entries_eq.trans (f.put c')
  refine ⟨hput, ?_, fun hf => ?_, fun hf => ?_⟩
  · rw [hrem.found_iff, hes, keys_append, keys_append, List.mem_append, List.mem_append]
    refine ⟨fun hm => Or.inl (Or.inr hm), ?_⟩
    rintro ((hm | hm) | hm)
    · exact absurd hm (not_mem_keys_of_lt f.pre_lt)
    · exact hm
    · exact absurd hm (not_mem_keys_of_gt f.post_gt)
  · rw [hes, hes']
    exact (hrem.done hf).context pre post
  · rw [hes, hes', hrem.absent hf]

end AnyInner.Keeps

namespace HeadedNode

theorem mergeRight_spec {p : AnyInner (HeadedNode 0)} {a : Routing (HeadedNode 0)}
    (hp : AnyInner.Keeps (Inv ℓ 0) ℓ p a lower upper) {pos : ℕ} {leaf : BTreeNode Bytes}
    (hleaf : a.children[pos]? = some leaf) :
    ∃ q b, mergeRight p pos leaf = .ok q ∧ AnyInner.Keeps (Inv ℓ 0) ℓ q b lower upper ∧
      q.children.flatMap (entries 0) = p.children.flatMap (entries 0) ∧
      q.potentialOf (potential 0) + potential 0 leaf ≤ p.potentialOf (potential 0) + 3 * leaf.count := by
  have hkept : potential 0 leaf ≤ 3 * leaf.count := Nat.mul_le_mul_left 3 (Nat.sub_le _ _)
  rw [mergeRight]
  split_ifs with hm
  · obtain ⟨-, -, hpos⟩ := hm
    rw [hp.represents.innerCount_eq] at hpos
    have hs : pos < a.separators.length := Nat.lt_of_succ_lt hpos
    obtain ⟨x, y, l, right, hl, hr, hPl, hPr⟩ := hp.spans.neighbours hs
    obtain rfl := Option.some.inj (hl.symm.trans hleaf)
    have hne := a.ne_nil (List.getElem_mem hs)
    obtain ⟨res, hres, hmerged⟩ := BTreeNode.LeafInv.mergeLeaf_joined hPl hPr hne
    rw [hp.represents.getChild_spec hr, ok_bind]
    split_ifs
    · rw [hres, ok_bind]
      cases res with
      | none => exact ⟨p, a, rfl, hp, rfl, Nat.add_le_add_left hkept _⟩
      | some m =>
        have hset := hp.represents.setChild_spec hpos.le m
        obtain ⟨q, hq, hqa⟩ := AnyInner.Represents.refines hset |>.remove pos hs
        obtain ⟨hspans, hent⟩ := hp.spans.join (E := entries 0) hs hl hr (e := m) fun x' y' hx hy => by
          obtain ⟨res', hres', hm'⟩ := BTreeNode.LeafInv.mergeLeaf_joined hx hy hne
          obtain rfl := Except.ok.inj (hres.symm.trans hres')
          exact ⟨(hm' m rfl).1, (hm' m rfl).2.1⟩
        have hbound : (a.set (pos + 1) m).Bounded ℓ.key := ⟨hp.bounded.lower, hp.bounded.upper, hp.bounded.separators⟩
        have hqk : AnyInner.Keeps (Inv ℓ 0) ℓ q ((a.set (pos + 1) m).remove pos hs) lower upper :=
          ⟨hqa, hp.lower, hp.upper, hbound.remove hs, hspans⟩
        refine ⟨q, _, hq, hqk, ?_, ?_⟩
        · rw [hqk.entries_eq, hp.entries_eq]
          exact hent
        · have hcount : m.count = BTreeNode.count l + BTreeNode.count right := (hmerged m rfl).2.2
          have htotal := Routing.totalOf_join (w := potential 0) hs hl hr m
          have hseps : ((a.set (pos + 1) m).remove pos hs).separators.length = a.separators.length - 1 :=
            List.length_eraseIdx_of_lt hs
          rw [hqk.potentialOf_eq, hp.potentialOf_eq, hseps]
          change _ + (3 * (BTreeNode.count l - 1) + 3 * (BTreeNode.count right - 1)) = _ + 3 * (m.count - 1) at htotal
          change _ + 3 * (BTreeNode.count l - 1) ≤ _ + 3 * BTreeNode.count l
          omega
    · exact ⟨p, a, rfl, hp, rfl, Nat.add_le_add_left hkept _⟩
  · exact ⟨p, a, rfl, hp, rfl, Nat.add_le_add_left hkept _⟩

theorem removeLeaf_removing {p : AnyInner (HeadedNode 0)} (h : Inv ℓ 1 p lower upper) (hk : InFences lower upper key) :
    ∃ found q, removeLeaf p key = .ok (found, q) ∧
      Removing (Inv ℓ 1 q lower upper) key (entries 1 p) (entries 1 q) found ∧ potential 1 q ≤ potential 1 p := by
  obtain ⟨a, hp⟩ := h
  obtain ⟨i, c, x, y, pre, post, f, hindex, hchild, -⟩ := hp.focus (lawful ℓ 0) hk
  have hleaf : BTreeNode.LeafInv ℓ c x y := f.inv
  obtain ⟨found, m, hm, hrem⟩ := hleaf.remove_removing f.inFences
  have hput := hp.removing f hrem
  simp only [removeLeaf, hindex, hchild, ok_bind, hm]
  cases found with
  | false =>
    exact ⟨false, p, rfl, ⟨⟨a, hp⟩, hput.found_iff, fun hc => absurd hc Bool.false_ne_true, fun _ => rfl⟩, le_rfl⟩
  | true =>
    have hlt : i < a.children.length := (List.getElem?_eq_some_iff.mp f.child).1
    obtain ⟨q, b, hq, hqk, hent, hpot⟩ := mergeRight_spec hput.inv (List.getElem?_set_self hlt)
    refine ⟨true, q, by rw [if_pos rfl, hq]; rfl, ⟨⟨b, hqk⟩, hput.found_iff, fun _ => ?_,
      fun hc => absurd hc.symm Bool.false_ne_true⟩, ?_⟩
    · change Removed key _ (q.children.flatMap (entries 0))
      rw [hent]
      exact hput.done rfl
    · have hcount : BTreeNode.count c = m.count + 1 := BTreeNode.LeafInv.count_of_removing hrem
      have hset := hp.potentialOf_put (w := potential 0) f hrem.inv
      have hold : potential 0 c = 3 * m.count := by
        rw [potential, hcount, Nat.add_sub_cancel]
      change q.potentialOf (potential 0) ≤ p.potentialOf (potential 0)
      omega

theorem remove_removing : (h : ℕ) → {n : HeadedNode h} → {lower upper : Bytes} → Inv ℓ h n lower upper →
    InFences lower upper key → ∃ found m, remove key h n = .ok (found, m) ∧
      Removing (Inv ℓ h m lower upper) key (entries h n) (entries h m) found ∧ potential h m ≤ potential h n
  | 0, n, lower, upper, hn, hk => by
    have hleaf : BTreeNode.LeafInv ℓ n lower upper := hn
    obtain ⟨found, m, hm, hrem⟩ := hleaf.remove_removing hk
    refine ⟨found, m, hm, hrem, ?_⟩
    have hcount : BTreeNode.count n = m.count + found.toNat := BTreeNode.LeafInv.count_of_removing hrem
    exact Nat.mul_le_mul_left 3 (Nat.sub_le_sub_right ((Nat.le_add_right _ _).trans_eq hcount.symm) 1)
  | 1, p, _, _, hn, hk => removeLeaf_removing (p := p) hn hk
  | h + 2, p, _, _, ⟨a, hp⟩, hk => by
    obtain ⟨i, c, x, y, pre, post, f, hindex, hchild, -⟩ := hp.focus (lawful ℓ (h + 1)) hk
    obtain ⟨found, c', hr, hrem, hpot⟩ := remove_removing (h + 1) f.inv f.inFences
    have hput := hp.removing f hrem
    have hset := hp.potentialOf_put (w := potential (h + 1)) f hrem.inv
    refine ⟨found, AnyInner.setChild p i c', ?_, ⟨⟨_, hput.inv⟩, hput.found_iff, hput.done, hput.absent⟩, ?_⟩
    · simp only [remove, hindex, hchild, ok_bind, hr]
      rfl
    · change (AnyInner.setChild p i c').potentialOf (potential (h + 1)) ≤ AnyInner.potentialOf (potential (h + 1)) p
      omega

end HeadedNode

theorem HeadedTree.removeImpl_removing {t : HeadedTree} (h : t.Inv ℓ) (key : Bytes) :
    ∃ found t', t.removeImpl key = .ok (found, t') ∧ Removing (t'.Inv ℓ) key t.entries t'.entries found ∧
      t'.potential ≤ t.potential := by
  obtain ⟨found, root, hr, hrem⟩ := HeadedNode.remove_removing t.height h (inFences_nil key)
  exact ⟨found, ⟨t.height, root⟩, by rw [removeImpl, hr]; rfl, hrem⟩

end BtreeRedis
