import BtreeRedis.Adaptive.Insert

/-!
# Removal from a tree with adaptive leaves

An underfull leaf is merged into its right neighbour if that one is underfull, of the same
kind and not the last child of the parent.
-/

namespace BtreeRedis

open LexOrder SortedAssoc Outcome

variable [KeyHash]

namespace AdaptiveLeaf

def isUnderfull : AdaptiveLeaf → Bool
  | .basic _ n => decide (underFullSize ≤ n.freeSpaceAfterCompaction)
  | .hash n => decide (underFullSize ≤ n.freeSpaceAfterCompaction)

def mergeNodes (c : Config) : AdaptiveLeaf → AdaptiveLeaf → Except Fault (Option AdaptiveLeaf)
  | .basic roc n, right => do
    match ← right.tag c with
    | .basic _ r =>
      if underFullSize ≤ r.freeSpaceAfterCompaction then do
        let merged ← n.mergeLeaf r
        pure (merged.map (.basic roc))
      else pure none
    | .hash _ => pure none
  | .hash n, .hash r =>
    if underFullSize ≤ r.freeSpaceAfterCompaction then do
      let merged ← n.mergeNodes r
      pure (merged.map .hash)
    else .ok none
  | .hash _, .basic _ _ => .ok none

end AdaptiveLeaf

namespace AdaptiveNode

def mergeRight (c : Config) (p : InnerNode AdaptiveLeaf) (pos : ℕ) (leaf : AdaptiveLeaf) :
    Except Fault (InnerNode AdaptiveLeaf) :=
  if leaf.isUnderfull ∧ 2 ≤ p.node.count ∧ pos + 1 < p.node.count then do
    let right ← p.getChild (pos + 1)
    match ← leaf.mergeNodes c right with
    | some merged => pure ((p.setChild (pos + 1) merged).removeSlot pos)
    | none => pure p
  else .ok p

/-- `removeImpl` from the parent of the leaf on. -/
def removeLeaf (c : Config) (p : InnerNode AdaptiveLeaf) (key : Bytes) :
    Except Fault (Bool × InnerNode AdaptiveLeaf) := do
  let pos ← p.lookupInnerIndex key
  let child ← p.getChild pos
  let leaf ← child.tag c
  let (found, leaf) ← leaf.remove key
  if found then do
    let p ← mergeRight c (p.setChild pos leaf) pos leaf
    pure (true, p)
  else pure (false, p)

def remove (c : Config) (key : Bytes) : (h : ℕ) → AdaptiveNode h → Except Fault (Bool × AdaptiveNode h)
  | 0, l => do
    let leaf ← AdaptiveLeaf.tag c l
    leaf.remove key
  | 1, p => removeLeaf c p key
  | h + 2, p => do
    let pos ← InnerNode.lookupInnerIndex p key
    let child ← InnerNode.getChild p pos
    let (found, child) ← remove c key (h + 1) child
    pure (found, InnerNode.setChild p pos child)

end AdaptiveNode

def AdaptiveTree.removeImpl (c : Config) (t : AdaptiveTree) (key : Bytes) : Except Fault (Bool × AdaptiveTree) := do
  let (found, root) ← AdaptiveNode.remove c key t.height t.root
  pure (found, ⟨t.height, root⟩)

variable {c : Config} {lower upper key : Bytes}

namespace AdaptiveLeaf
variable {l right : AdaptiveLeaf} {a s b : Bytes}

theorem ascending_neighbours (hl : l.Inv c a s) (hr : right.Inv c s b) (hs : s ≠ []) :
    Ascending (keys (l.entries ++ right.entries)) := by
  rw [keys_append]
  apply ascending_append.mpr
  refine ⟨hl.sorted_entries, hr.sorted_entries, ?_⟩
  intro x hx y hy
  obtain ⟨e, he, rfl⟩ := List.mem_map.mp hx
  obtain ⟨f, hf, rfl⟩ := List.mem_map.mp hy
  have hle := (hl.inFences he).2.resolve_left hs
  have hlt := (hr.inFences hf).1.resolve_left hs
  exact hle.trans_lt hlt

theorem sortByKey_neighbours {n r : HashNode} (hl : Inv c (.hash n) a s) (hr : Inv c (.hash r) s b) (hs : s ≠ []) :
    sortByKey (n.restored ++ r.restored) = n.entries ++ r.entries := by
  have hasc : Ascending (keys (n.entries ++ r.entries)) := ascending_neighbours hl hr hs
  have hperm : (n.restored ++ r.restored).Perm (n.entries ++ r.entries) :=
    (sortByKey_perm n.restored).symm.append (sortByKey_perm r.restored).symm
  have hnodup : (keys (n.restored ++ r.restored)).Nodup :=
    (hperm.map Prod.fst).nodup_iff.mpr (hasc.imp fun h => h.ne)
  rw [sortByKey_eq_of_perm hnodup hperm, sortByKey_eq_self hasc]

theorem mergeNodes_joined (hl : l.Inv c a s) (hr : right.Inv c s b) (hs : s ≠ []) :
    ∃ res, l.mergeNodes c right = .ok res ∧
      ∀ m, res = some m → m.Inv c a b ∧ m.entries = l.entries ++ right.entries := by
  have hnone : ∀ m : AdaptiveLeaf, none = some m → m.Inv c a b ∧ m.entries = l.entries ++ right.entries :=
    fun m hm => absurd hm (Option.some_ne_none m).symm
  have hlow : l.lowerFence = a := hl.lowerFence
  have hmid : l.upperFence = s := hl.upperFence
  have hmid' : right.lowerFence = s := hr.lowerFence
  have hupp : right.upperFence = b := hr.upperFence
  have ha := hl.lower_len
  have hb := hr.upper_len
  cases l with
  | basic roc n =>
    simp only [mergeNodes, hr.tag, ok_bind]
    cases right with
    | hash r => exact ⟨none, rfl, hnone⟩
    | basic roc' r =>
      dsimp only
      split_ifs
      · obtain ⟨res, hres, hm⟩ := BTreeNode.mergeLeaf_spec hl.wf.1 hr.wf.1 (hr.wf.2.trans hl.wf.2.symm)
          (hmid'.trans hmid.symm) (hmid.trans_ne hs) (by
            change slotsOffset + (AdaptiveLeaf.basic roc n).lowerFence.length +
              (AdaptiveLeaf.basic roc' r).upperFence.length ≤ pageSize
            rw [hlow, hupp]
            simp only [maxKVSize, slotsOffset, pageSize, headerSize, slotSize] at ha hb ⊢
            omega)
        refine ⟨res.map (.basic roc), by rw [hres]; rfl, ?_⟩
        intro m hmm
        obtain ⟨m', rfl, rfl⟩ := Option.map_eq_some_iff.mp hmm
        have hmerged := hm m' rfl
        rw [show n.getLowerFence = a from hlow, show r.getUpperFence = b from hupp, hl.wf.2] at hmerged
        refine ⟨Inv.of_leaf (LeafNode.Inv.of_holds hmerged ha hb fun e he => ?_) hl.tagOk roc, hmerged.entries⟩
        exact (List.mem_append.mp he).elim (hl.entry_len e) (hr.entry_len e)
      · exact ⟨none, rfl, hnone⟩
  | hash n =>
    cases right with
    | basic roc' r => exact ⟨none, rfl, hnone⟩
    | hash r =>
      simp only [mergeNodes]
      split_ifs
      · have hn : n.WF := hl.wf
        have hr' : r.WF := hr.wf
        obtain ⟨res, hres, hm⟩ := HashNode.mergeNodes_spec hn hr' (hmid'.trans hmid.symm) (hmid.trans_ne hs)
          ((congrArg List.length hlow).trans_le ha) ((congrArg List.length hupp).trans_le hb)
        refine ⟨res.map .hash, by rw [hres]; rfl, ?_⟩
        intro m hmm
        obtain ⟨m', rfl, rfl⟩ := Option.map_eq_some_iff.mp hmm
        have hmerged := hm m' rfl
        rw [show n.lowerFence = a from hlow, show r.upperFence = b from hupp] at hmerged
        refine ⟨Inv.of_holds hmerged hl.tagOk ha hb fun e he => ?_,
          hmerged.entries.trans (sortByKey_neighbours hl hr hs)⟩
        rcases List.mem_append.mp he with he | he
        · exact hl.entry_len e (HashNode.mem_entries.mpr he)
        · exact hr.entry_len e (HashNode.mem_entries.mpr he)
      · exact ⟨none, rfl, hnone⟩

end AdaptiveLeaf

namespace AdaptiveNode

theorem mergeRight_spec {p : InnerNode AdaptiveLeaf} (h : InnerNode.Inv (AdaptiveLeaf.Inv c) p lower upper) {pos : ℕ}
    {l : AdaptiveLeaf} (hl : p.children[pos]? = some l) :
    ∃ p', mergeRight c p pos l = .ok p' ∧ InnerNode.Inv (AdaptiveLeaf.Inv c) p' lower upper ∧
      p'.entriesOf AdaptiveLeaf.entries = p.entriesOf AdaptiveLeaf.entries := by
  rw [mergeRight]
  split_ifs with hm
  · obtain ⟨-, -, hpos⟩ := hm
    have hlr : pos + 1 < p.children.length := by
      rw [InnerNode.length_children]
      omega
    have hss : pos < p.separators.length := by
      rw [InnerNode.length_separators]
      omega
    obtain ⟨a, b, l', right, -, -, hl', hr, hPl, hPr, -⟩ := h.chain.join hss
    obtain rfl := Option.some.inj (hl'.symm.trans hl)
    have hget := (InnerNode.getChild_eq_ok hpos.le).mpr hr
    obtain ⟨res, hres, hm⟩ := AdaptiveLeaf.mergeNodes_joined hPl hPr (h.nonempty _ (List.getElem_mem hss))
    rw [hget, ok_bind, hres, ok_bind]
    cases res with
    | none => exact ⟨p, rfl, h, rfl⟩
    | some m =>
      refine ⟨_, rfl, ?_⟩
      apply InnerNode.join_inv h hpos hl hr
      intro x s y hs hx hy
      obtain ⟨res', hres', hm'⟩ := AdaptiveLeaf.mergeNodes_joined hx hy hs
      obtain rfl := Except.ok.inj (hres.symm.trans hres')
      exact hm' m rfl
  · exact ⟨p, rfl, h, rfl⟩

theorem removeLeaf_removing {p : InnerNode AdaptiveLeaf} (h : InnerNode.Inv (AdaptiveLeaf.Inv c) p lower upper)
    (hk : InFences lower upper key) :
    ∃ found p', removeLeaf c p key = .ok (found, p') ∧
      Removing (InnerNode.Inv (AdaptiveLeaf.Inv c) p' lower upper) key (p.entriesOf AdaptiveLeaf.entries)
        (p'.entriesOf AdaptiveLeaf.entries) found := by
  have hlawful : InnerNode.Lawful (AdaptiveLeaf.Inv c) AdaptiveLeaf.entries := lawful 0
  obtain ⟨i, child, a, b, pre, post, f⟩ := h.focus hlawful hk
  obtain ⟨found, child', hc', hrem⟩ := AdaptiveLeaf.remove_removing f.inv f.inFences
  have hput := f.removing hrem
  simp only [removeLeaf, f.index, f.child, ok_bind, AdaptiveLeaf.Inv.tag f.inv, hc']
  cases found with
  | false =>
    refine ⟨false, p, rfl, h, ?_, fun hc => absurd hc Bool.false_ne_true, fun _ => rfl⟩
    exact hput.found_iff
  | true =>
    have hlc : i < p.children.length := by
      rw [InnerNode.length_children]
      exact Nat.lt_succ_of_le f.le_count
    have hc : (p.setChild i child').children[i]? = some child' := by
      rw [InnerNode.children_setChild f.le_count, List.getElem?_set_self hlc]
    obtain ⟨p', hp', hinv, hent⟩ := mergeRight_spec hput.inv hc
    refine ⟨true, p', by rw [if_pos rfl, hp']; rfl, hinv, hput.found_iff, fun _ => ?_,
      fun hc => absurd hc.symm Bool.false_ne_true⟩
    rw [hent]
    exact hput.done rfl

theorem remove_removing : (h : ℕ) → {n : AdaptiveNode h} → {lower upper : Bytes} → Inv c h n lower upper →
    InFences lower upper key → ∃ found n', remove c key h n = .ok (found, n') ∧
      Removing (Inv c h n' lower upper) key (entries h n) (entries h n') found
  | 0, l, lower, upper, hn, hk => by
    have hleaf : AdaptiveLeaf.Inv c l lower upper := hn
    obtain ⟨found, l', hr, hrem⟩ := AdaptiveLeaf.remove_removing hleaf hk
    refine ⟨found, l', ?_, hrem⟩
    rw [remove, hleaf.tag]
    exact hr
  | 1, p, _, _, hn, hk => removeLeaf_removing (p := p) hn hk
  | h + 2, p, _, _, hn, hk => by
    obtain ⟨i, child, a, b, pre, post, f⟩ := InnerNode.Inv.focus (p := p) hn (lawful (h + 1)) hk
    obtain ⟨found, child', hr, hrem⟩ := remove_removing (h + 1) f.inv f.inFences
    refine ⟨found, InnerNode.setChild p i child', ?_, f.removing hrem⟩
    simp only [remove, f.index, f.child, ok_bind, hr]
    rfl

end AdaptiveNode

theorem AdaptiveTree.removeImpl_removing {t : AdaptiveTree} (h : t.Inv c) (key : Bytes) :
    ∃ found t', t.removeImpl c key = .ok (found, t') ∧ Removing (t'.Inv c) key t.entries t'.entries found := by
  obtain ⟨found, root, hr, hrem⟩ := AdaptiveNode.remove_removing t.height h (inFences_nil key)
  exact ⟨found, ⟨t.height, root⟩, by rw [removeImpl, hr]; rfl, hrem⟩

end BtreeRedis
