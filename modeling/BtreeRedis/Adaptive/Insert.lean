import BtreeRedis.Adaptive.Tree

/-!
# Insertion into a tree with adaptive leaves

`insertImpl` as in a tree with basic leaves, but that the leaf may become a hash leaf before it
takes the key, and that a hash leaf is sorted before it is split, even where its parent turns
out to have no room for the separator.
-/

namespace BtreeRedis

open LexOrder SortedAssoc Outcome

theorem BTreeNode.findSeparatorInner_contained {π : Type} [Payload π] (n : BTreeNode π) :
    Contained (fun info => info.slot = n.count / 2 - 1 ∧ ∃ sep, n.getSep info = .ok sep) n.findSeparatorInner := by
  apply contained_check stops_assertion
  intro hc
  have hlen := keys_content_length n
  have hl : n.count / 2 - 1 < (keys n.content).length := by omega
  dsimp only
  rw [getKey_ok hl]
  refine ⟨rfl, _, restoreKey_eq_ok.mpr ⟨_, List.getElem?_eq_getElem hl, ?_, rfl⟩⟩
  exact (Nat.add_sub_cancel_left _ _).le

namespace InnerNode
variable {γ : Type} [ChildPointer γ] {P : γ → Bytes → Bytes → Prop} {E : γ → List (Bytes × Bytes)} {p : InnerNode γ}
  {lower upper : Bytes}

theorem separatorLength_contained (h : Inv P p lower upper) : Contained (fun _ => True) p.separatorLength := by
  rw [separatorLength, BTreeNode.findSeparator, h.isLeaf, if_neg Bool.false_ne_true]
  exact p.node.findSeparatorInner_contained.bind fun _ _ => trivial

theorem split_contained (h : Inv P p lower upper) :
    Contained (fun r => Halves (Inv P) (entriesOf E) (p.entriesOf E) lower upper r.1 r.2.1 r.2.2) p.split := by
  apply Yields.intro _ fun r hr => split_halves h hr
  rw [split, BTreeNode.findSeparator, h.isLeaf, if_neg Bool.false_ne_true]
  by_cases hcount : 3 < p.node.count
  · obtain ⟨info, t, hinfo, hfound, -⟩ := BTreeNode.findSeparatorInner_spec h.wf.toOrdered hcount
    obtain ⟨hseps, hin, -⟩ := hfound.full h.wf.toOrdered
    rw [hinfo, ok_bind, hfound.getSep, ok_bind]
    apply (BTreeNode.splitInner_contained h.wf hseps hin).bind
    exact fun _ _ => trivial
  · apply p.node.findSeparatorInner_contained.bind
    rintro info ⟨hslot, sep, hsep⟩
    rw [hsep, ok_bind, show info.slot = 0 by omega]
    exact stops_assertion

theorem splitChild_contained (h : Inv P p lower upper) {i : ℕ} {c : γ} (hc : p.children[i]? = some c)
    {a b : Bytes} (ha : (lower :: p.separators)[i]? = some a) (hb : (p.separators ++ [upper])[i]? = some b)
    {sepLength : Except Fault ℕ} {halves : Except Fault (Bytes × γ × γ)}
    (hlen : Contained (fun _ => True) sepLength)
    (hh : Contained (fun r => Halves P E (E c) a b r.1 r.2.1 r.2.2) halves) :
    Contained (fun o => ∀ p', o = some p' → Inv P p' lower upper ∧ p'.entriesOf E = p.entriesOf E)
      (p.splitChild i sepLength halves) := by
  have hle : i ≤ p.node.count := by
    obtain ⟨hlc, -⟩ := List.getElem?_eq_some_iff.mp hc
    rw [length_children] at hlc
    omega
  apply Yields.intro
  · apply hlen.bind
    intro length _
    rw [innerRequestSpaceFor, BTreeNode.spaceNeeded]
    apply Yields.bind (P := fun r : Bool × InnerNode γ => ∃ n : BTreeNode γ, r.2 = { p with node := n } ∧ n.WF ∧
      p.node.SameContent n)
    · apply Yields.bind (P := fun _ => True)
      · exact contained_check stops_assertion fun _ => trivial
      · intro needed _
        obtain ⟨n, hn, hw, hs, -⟩ := BTreeNode.requestSpaceFor_spec h.wf needed
        rw [hn, ok_bind]
        exact ⟨n, rfl, hw, hs⟩
    · rintro ⟨space, q⟩ ⟨n, rfl, hw, hs⟩
      dsimp only
      split_ifs
      · apply hh.bind
        rintro ⟨sep, left, right⟩ hhalves
        dsimp only
        have hq := h.sameContent hw hs
        have hin := h.inFences_of_between ha hb hhalves.between
        have hkn : InFences ({ p with node := n } : InnerNode γ).node.getLowerFence
            ({ p with node := n } : InnerNode γ).node.getUpperFence sep := by
          rwa [hq.lowerFence, hq.upperFence]
        have hfences : (({ p with node := n } : InnerNode γ).setChild i right).node.getLowerFence =
              ({ p with node := n } : InnerNode γ).node.getLowerFence ∧
            (({ p with node := n } : InnerNode γ).setChild i right).node.getUpperFence =
              ({ p with node := n } : InnerNode γ).node.getUpperFence := by
          unfold InnerNode.setChild
          split_ifs <;> exact ⟨rfl, rfl⟩
        have hkq : InFences (({ p with node := n } : InnerNode γ).setChild i right).node.getLowerFence
            (({ p with node := n } : InnerNode γ).setChild i right).node.getUpperFence sep := by
          rwa [hfences.1, hfences.2]
        have hins := BTreeNode.insertChild_contained (setChild_wf hw i right) left hkq
        apply Yields.bind (P := fun _ => True)
        · apply hins.bind
          exact fun _ _ => contained_check stops_assertion fun _ => trivial
        · exact fun _ _ => trivial
      · trivial
  · rintro o ho p' rfl
    obtain ⟨_, _, _, -, hq, he⟩ := splitChild_spec h hc ha hb (fun _ _ _ hhalves => hh.of_eq_ok hhalves) ho
    exact ⟨hq.inv, he⟩

end InnerNode

variable [KeyHash]

namespace AdaptiveNode

def prepare : (h : ℕ) → AdaptiveNode h → Except Fault (AdaptiveNode h)
  | 0, l => AdaptiveLeaf.sort l
  | _ + 1, p => .ok p

def separatorLength : (h : ℕ) → AdaptiveNode h → Except Fault ℕ
  | 0, l => AdaptiveLeaf.separatorLength l
  | _ + 1, p => InnerNode.separatorLength p

def split (c : Config) : (h : ℕ) → AdaptiveNode h → Except Fault (Bytes × AdaptiveNode h × AdaptiveNode h)
  | 0, l => AdaptiveLeaf.split c l
  | _ + 1, p => InnerNode.split p

def splitNodeWithParent (c : Config) {h : ℕ} (p : InnerNode (AdaptiveNode h)) (i : ℕ) (node : AdaptiveNode h) :
    Except Fault (Round (AdaptiveNode (h + 1))) := do
  let node ← prepare h node
  match ← (p.setChild i node).splitChild i (separatorLength h node) (split c h node) with
  | some q => pure (.split q)
  | none => pure (.full (p.setChild i node))

def splitBelow (c : Config) {h : ℕ} (p : InnerNode (AdaptiveNode h)) (i : ℕ) :
    Round (AdaptiveNode h) → Except Fault (Round (AdaptiveNode (h + 1)))
  | .inserted child => .ok (.inserted (p.setChild i child))
  | .split child => .ok (.split (p.setChild i child))
  | .full child => splitNodeWithParent c p i child

def leafRound : Bool × AdaptiveLeaf × Draws → Round (AdaptiveNode 0) × Draws
  | (true, l, draws) => (.inserted l, draws)
  | (false, l, draws) => (.full l, draws)

def insertRound (c : Config) (key payload : Bytes) :
    (h : ℕ) → AdaptiveNode h → Draws → Except Fault (Round (AdaptiveNode h) × Draws)
  | 0, l, draws => do
    let leaf ← AdaptiveLeaf.tag c l
    let res ← leaf.insert c key payload draws
    pure (leafRound res)
  | h + 1, p, draws => do
    let pos ← InnerNode.lookupInnerIndex p key
    let child ← InnerNode.getChild p pos
    let (round, draws) ← insertRound c key payload h child draws
    let round ← splitBelow c p pos round
    pure (round, draws)

end AdaptiveNode

namespace AdaptiveTree

def empty (c : Config) : Except Fault AdaptiveTree := do
  let leaf ← AdaptiveLeaf.makeRootLeaf c
  pure ⟨0, leaf⟩

/-- A root without a parent gets one, which has room for any separator; splitting that one instead
would trip the assertion on its count. -/
def splitRoot (c : Config) {h : ℕ} (node : AdaptiveNode h) : Except Fault AdaptiveTree := do
  match ← AdaptiveNode.splitNodeWithParent c (InnerNode.makeRoot node) 0 node with
  | .split root => pure ⟨h + 1, root⟩
  | _ => .error .assertion

def finishRound (c : Config) {h : ℕ} : Round (AdaptiveNode h) → Except Fault (Bool × AdaptiveTree)
  | .inserted n => .ok (true, ⟨h, n⟩)
  | .split n => .ok (false, ⟨h, n⟩)
  | .full n => do
    let t ← splitRoot c n
    pure (false, t)

def insertRound (c : Config) (key payload : Bytes) (draws : Draws) (t : AdaptiveTree) :
    Except Fault (Bool × AdaptiveTree × Draws) := do
  let (round, draws) ← AdaptiveNode.insertRound c key payload t.height t.root draws
  let (inserted, t) ← finishRound c round
  pure (inserted, t, draws)

def insertImpl (c : Config) (key payload : Bytes) : ℕ → Draws → AdaptiveTree → Except Fault (Draws × AdaptiveTree)
  | 0, _, _ => .error .outOfFuel
  | fuel + 1, draws, t => do
    ensure (key.length + payload.length ≤ maxKVSize) .assertion
    let (inserted, t, draws) ← t.insertRound c key payload draws
    if inserted then pure (draws, t) else insertImpl c key payload fuel draws t

end AdaptiveTree

variable {c : Config} {key payload lower upper : Bytes}

namespace AdaptiveNode

def Prepared : (h : ℕ) → AdaptiveNode h → Prop
  | 0, l => AdaptiveLeaf.Sorted l
  | _ + 1, _ => True

theorem prepare_spec : (h : ℕ) → {n : AdaptiveNode h} → Inv c h n lower upper → ∃ n', prepare h n = .ok n' ∧
    Inv c h n' lower upper ∧ entries h n' = entries h n ∧ Prepared h n'
  | 0, l, hn => by
    have hleaf : AdaptiveLeaf.Inv c l lower upper := hn
    obtain ⟨l', hl, hkept, hs⟩ := AdaptiveLeaf.sort_spec hleaf
    exact ⟨l', hl, hkept.inv, hkept.entries, hs⟩
  | _ + 1, p, hn => ⟨p, rfl, hn, rfl, trivial⟩

theorem separatorLength_contained : (h : ℕ) → {n : AdaptiveNode h} → Inv c h n lower upper → Prepared h n →
    Contained (fun _ => True) (separatorLength h n)
  | 0, l, hn, hs => AdaptiveLeaf.separatorLength_contained (l := l) hn hs
  | _ + 1, p, hn, _ => InnerNode.separatorLength_contained (p := p) hn

theorem split_contained : (h : ℕ) → {n : AdaptiveNode h} → Inv c h n lower upper → Prepared h n →
    Contained (fun r => Halves (Inv c h) (entries h) (entries h n) lower upper r.1 r.2.1 r.2.2) (split c h n)
  | 0, l, hn, hs => AdaptiveLeaf.split_contained (l := l) hn hs
  | _ + 1, p, hn, _ => InnerNode.split_contained (p := p) hn

def Sound (c : Config) (key payload : Bytes) (h : ℕ) (es : List (Bytes × Bytes)) (lower upper : Bytes) :
    Round (AdaptiveNode h) → Prop
  | .inserted n => Inv c h n lower upper ∧ Stored key payload es (entries h n)
  | .split n => Inv c h n lower upper ∧ entries h n = es
  | .full n => Inv c h n lower upper ∧ entries h n = es

theorem splitNodeWithParent_contained (key payload : Bytes) {h : ℕ} {p : InnerNode (AdaptiveNode h)} {i : ℕ}
    {a b : Bytes} (hi : i ≤ p.node.count) (ha : (lower :: p.separators)[i]? = some a)
    (hb : (p.separators ++ [upper])[i]? = some b) {pre post : List (Bytes × Bytes)}
    (hput : ∀ n, (p.setChild i n).entriesOf (entries h) = pre ++ entries h n ++ post)
    (hput_inv : ∀ n, Inv c h n a b → Inv c (h + 1) (p.setChild i n) lower upper) {n : AdaptiveNode h}
    (hn : Inv c h n a b) :
    Contained (Sound c key payload (h + 1) (pre ++ entries h n ++ post) lower upper)
      (splitNodeWithParent c p i n) := by
  obtain ⟨n', hn', hinv, hent, hprep⟩ := prepare_spec h hn
  have hp := hput_inv n' hinv
  have hlc : i < p.children.length := by
    rw [InnerNode.length_children]
    exact Nat.lt_succ_of_le hi
  have hc : (p.setChild i n').children[i]? = some n' := by
    rw [InnerNode.children_setChild hi, List.getElem?_set_self hlc]
  have hes : (p.setChild i n').entriesOf (entries h) = pre ++ entries h n ++ post := by rw [hput, hent]
  rw [splitNodeWithParent, hn', ok_bind]
  apply (InnerNode.splitChild_contained hp hc (InnerNode.separators_setChild p i n' ▸ ha)
    (InnerNode.separators_setChild p i n' ▸ hb) (separatorLength_contained h hinv hprep)
    (split_contained h hinv hprep)).bind
  intro o ho
  cases o with
  | none => exact ⟨hp, hes⟩
  | some q =>
    obtain ⟨hq, hqe⟩ := ho q rfl
    exact ⟨hq, hqe.trans hes⟩

theorem splitBelow_contained {h : ℕ} {p : InnerNode (AdaptiveNode h)} {i : ℕ} {n : AdaptiveNode h} {a b : Bytes}
    {pre post : List (Bytes × Bytes)} (f : InnerNode.Focus (Inv c h) (entries h) p lower upper key i n a b pre post)
    {round : Round (AdaptiveNode h)} (hround : Sound c key payload h (entries h n) a b round) :
    Contained (Sound c key payload (h + 1) (p.entriesOf (entries h)) lower upper) (splitBelow c p i round) := by
  rw [f.entries]
  cases round with
  | inserted n' =>
    refine ⟨f.put_inv n' hround.1, ?_⟩
    change Stored key payload _ ((p.setChild i n').entriesOf (entries h))
    rw [f.put]
    exact hround.2.context (not_mem_keys_of_lt f.pre_lt) (not_mem_keys_of_gt f.post_gt)
  | split n' =>
    refine ⟨f.put_inv n' hround.1, ?_⟩
    change (p.setChild i n').entriesOf (entries h) = _
    rw [f.put, hround.2]
  | full n' =>
    rw [← hround.2]
    exact splitNodeWithParent_contained key payload f.le_count f.lower_at f.upper_at f.put f.put_inv hround.1

theorem insertRound_contained : (h : ℕ) → {n : AdaptiveNode h} → {lower upper : Bytes} → Inv c h n lower upper →
    InFences lower upper key → key.length + payload.length ≤ maxKVSize → (draws : Draws) →
    Contained (fun r => Sound c key payload h (entries h n) lower upper r.1) (insertRound c key payload h n draws)
  | 0, l, lower, upper, hn, hk, hlen, draws => by
    have hleaf : AdaptiveLeaf.Inv c l lower upper := hn
    rw [insertRound, hleaf.tag]
    apply (AdaptiveLeaf.insert_contained hleaf hk hlen draws).bind
    rintro ⟨inserted, l', draws'⟩ hins
    cases inserted with
    | true => exact ⟨hins.inv, hins.done rfl⟩
    | false => exact ⟨hins.inv, hins.refused rfl⟩
  | h + 1, p, lower, upper, hn, hk, hlen, draws => by
    obtain ⟨i, child, a, b, pre, post, f⟩ := InnerNode.Inv.focus (p := p) hn (lawful h) hk
    simp only [insertRound, f.index, f.child, ok_bind]
    apply (insertRound_contained h f.inv f.inFences hlen draws).bind
    rintro ⟨round, draws'⟩ hround
    apply (splitBelow_contained f hround).bind
    exact fun _ hres => hres

end AdaptiveNode

namespace AdaptiveTree
variable {t : AdaptiveTree}

theorem empty_spec (c : Config) : ∃ t, empty c = .ok t ∧ t.Inv c ∧ t.entries = [] := by
  obtain ⟨l, hl, hinv, hent⟩ := AdaptiveLeaf.makeRootLeaf_spec c
  exact ⟨⟨0, l⟩, by rw [empty, hl]; rfl, hinv, hent⟩

theorem makeRoot_inv {h : ℕ} {n : AdaptiveNode h} (hn : AdaptiveNode.Inv c h n [] []) :
    InnerNode.Inv (AdaptiveNode.Inv c h) (InnerNode.makeRoot n) [] [] :=
  InnerNode.Inv.of_holds (BTreeNode.init_holds false) (Nat.zero_le _) (Nat.zero_le _)
    (fun _ hs => absurd hs List.not_mem_nil) hn

theorem splitRoot_contained {h : ℕ} {n : AdaptiveNode h} (hn : AdaptiveNode.Inv c h n [] []) :
    Contained (fun t => t.Inv c ∧ t.entries = AdaptiveNode.entries h n) (splitRoot c n) := by
  have hput : ∀ n', ((InnerNode.makeRoot n).setChild 0 n').entriesOf (AdaptiveNode.entries h) =
      [] ++ AdaptiveNode.entries h n' ++ [] := fun n' => by
    rw [List.nil_append, List.append_nil]
    exact List.flatMap_singleton ..
  apply (AdaptiveNode.splitNodeWithParent_contained [] [] (Nat.zero_le _) rfl rfl hput
    (fun n' hn' => makeRoot_inv hn') hn).bind
  intro round hround
  cases round with
  | inserted _ => exact stops_assertion
  | split root =>
    refine ⟨hround.1, hround.2.trans ?_⟩
    rw [List.nil_append, List.append_nil]
  | full _ => exact stops_assertion

theorem insertRound_contained (h : t.Inv c) (hlen : key.length + payload.length ≤ maxKVSize) (draws : Draws) :
    Contained (fun r => r.2.1.Inv c ∧ (r.1 = true → Stored key payload t.entries r.2.1.entries) ∧
      (r.1 = false → r.2.1.entries = t.entries)) (t.insertRound c key payload draws) := by
  apply (AdaptiveNode.insertRound_contained t.height h (inFences_nil key) hlen draws).bind
  rintro ⟨round, draws'⟩ hround
  cases round with
  | inserted n => exact ⟨hround.1, fun _ => hround.2, fun hc => absurd hc.symm Bool.false_ne_true⟩
  | split n => exact ⟨hround.1, fun hc => absurd hc Bool.false_ne_true, fun _ => hround.2⟩
  | full n =>
    apply Yields.bind (P := fun r : Bool × AdaptiveTree => r.1 = false ∧ r.2.Inv c ∧ r.2.entries = t.entries)
    · apply (splitRoot_contained hround.1).bind
      exact fun t' ht => ⟨rfl, ht.1, ht.2.trans hround.2⟩
    · rintro ⟨inserted, t'⟩ ⟨rfl, hinv, hent⟩
      exact ⟨hinv, fun hc => absurd hc Bool.false_ne_true, fun _ => hent⟩

/-- What ends a call early: a failed check, or the want of fuel of the model. -/
def Halts (e : Fault) : Prop := e.Stops ∨ e = .outOfFuel

theorem insertImpl_yields (fuel : ℕ) (h : t.Inv c) (draws : Draws) :
    Yields Halts (fun r => r.2.Inv c ∧ Stored key payload t.entries r.2.entries)
      (insertImpl c key payload fuel draws t) := by
  induction fuel generalizing t draws with
  | zero => exact Or.inr rfl
  | succ fuel ih =>
    rw [insertImpl]
    by_cases hlen : key.length + payload.length ≤ maxKVSize
    · rw [ensure_of hlen, ok_bind]
      apply ((insertRound_contained h hlen draws).weaken fun e he => Or.inl he).bind
      rintro ⟨inserted, t', draws'⟩ ⟨hinv, hdone, hkept⟩
      cases inserted with
      | true => exact ⟨hinv, hdone rfl⟩
      | false =>
        rw [← hkept rfl]
        exact ih hinv draws'
    · rw [ensure, if_neg hlen]
      exact Or.inl stops_assertion

end AdaptiveTree

end BtreeRedis
