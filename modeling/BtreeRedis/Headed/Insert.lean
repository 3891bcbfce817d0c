import BtreeRedis.Headed.Tree

/-!
# Insertion into a tree with head nodes

A round stores the entry, aborts on a key that is there, or splits a node. What is left to split
is measured: each split of a node takes three from the measure and gives its parent two at most.
So an insertion within the limits comes to an end.
-/

namespace BtreeRedis

open LexOrder SortedAssoc

variable {ℓ : Limits} {lower upper key payload : Bytes}

/-- Two for each separator, but one for the first of them, and what is left below. -/
def AnyInner.potentialOf {γ : Type} [ChildPointer γ] (w : γ → ℕ) (p : AnyInner γ) : ℕ :=
  2 * p.innerCount - 1 + (p.children.map w).sum

namespace HeadedNode

/-- Three for each entry of a leaf beside its first one. -/
def potential : (h : ℕ) → HeadedNode h → ℕ
  | 0, n => 3 * (BTreeNode.count n - 1)
  | h + 1, p => AnyInner.potentialOf (potential h) p

def Splittable : (h : ℕ) → HeadedNode h → Prop
  | 0, n => 2 < BTreeNode.count n
  | _ + 1, p => 3 < AnyInner.innerCount p

structure Splitting (ℓ : Limits) (h : ℕ) (n : HeadedNode h) (lower upper sep : Bytes) (left right : HeadedNode h) :
    Prop where
  halves : Halves (Inv ℓ h) (entries h) (entries h n) lower upper sep left right
  fresh : sep ≠ upper
  length_le : sep.length ≤ ℓ.key
  potential_le : potential h left + potential h right + 3 ≤ potential h n

end HeadedNode

def HeadedTree.potential (t : HeadedTree) : ℕ := HeadedNode.potential t.height t.root

namespace AnyInner.Keeps
variable {γ : Type} [ChildPointer γ] {P : γ → Bytes → Bytes → Prop} {E : γ → List (Bytes × Bytes)} {w : γ → ℕ}
  {p : AnyInner γ} {a : Routing γ}

theorem potentialOf_eq (h : Keeps P ℓ p a lower upper) :
    p.potentialOf w = 2 * a.separators.length - 1 + a.totalOf w := by
  rw [potentialOf, h.represents.innerCount_eq, h.represents.children]
  rfl

theorem potentialOf_put (h : Keeps P ℓ p a lower upper) {i : ℕ} {c c' : γ} {x y : Bytes}
    {pre post : List (Bytes × Bytes)} (f : Routing.Focus P E a key i c x y pre post) (hc : P c' x y) :
    (p.setChild i c').potentialOf w + w c = p.potentialOf w + w c' := by
  have hlt : i < a.children.length := (List.getElem?_eq_some_iff.mp f.child).1
  have hset := (h.put f hc).potentialOf_eq (w := w)
  have hold := Routing.totalOf_eq (w := w) f.child
  have hnew := Routing.totalOf_set (w := w) hlt c'
  have hseps : (a.set i c').separators = a.separators := rfl
  rw [hseps] at hset
  rw [hset, h.potentialOf_eq]
  omega

theorem split_spec (h : Keeps P ℓ p a lower upper) (hcount : 3 < p.innerCount) :
    ∃ sep l r b d, p.separatorLength = .ok sep.length ∧ p.split = .ok (sep, l, r) ∧ Keeps P ℓ l b lower sep ∧
      Keeps P ℓ r d sep upper ∧ Within lower upper sep ∧ sep ≠ upper ∧
      l.children.flatMap E ++ r.children.flatMap E = p.children.flatMap E ∧
      l.potentialOf w + r.potentialOf w + 3 ≤ p.potentialOf w := by
  rw [h.represents.innerCount_eq] at hcount
  obtain ⟨i, hi, hpos, hlt, l, r, hlen, hlr, hl, hr⟩ := h.represents.split_spec hcount
  obtain ⟨hbl, hbr⟩ := h.bounded.halves hi
  obtain ⟨hsl, hsr⟩ := h.spans.halves hi
  have hkl : Keeps P ℓ l (a.left i hi) lower a.separators[i] := ⟨hl, h.lower, rfl, hbl, hsl⟩
  have hkr : Keeps P ℓ r (a.right i hi) a.separators[i] upper := ⟨hr, rfl, h.upper, hbr, hsr⟩
  have hwithin : Within lower upper a.separators[i] := h.lower ▸ h.upper ▸ a.within _ (List.getElem_mem hi)
  refine ⟨_, l, r, _, _, hlen, hlr, hkl, hkr, hwithin, ?_, ?_, ?_⟩
  · have hmem : a.separators[i + 1] ∈ (a.right i hi).separators := by
      change _ ∈ a.separators.drop (i + 1)
      rw [← List.getElem_cons_drop hlt]
      exact List.mem_cons_self
    exact ne_upper_of_inFences (a.ne_nil (List.getElem_mem hi)) (h.upper ▸ ((a.right i hi).within _ hmem).inFences)
  · rw [hkl.entries_eq, hkr.entries_eq, h.entries_eq]
    exact Routing.entriesOf_halves hi
  · have htotal := Routing.totalOf_halves (w := w) hi
    have hleft : (a.left i hi).separators.length = i := by
      change (a.separators.take i).length = i
      rw [List.length_take]
      omega
    have hright : (a.right i hi).separators.length = a.separators.length - (i + 1) := List.length_drop
    rw [hkl.potentialOf_eq, hkr.potentialOf_eq, h.potentialOf_eq, hleft, hright]
    omega

end AnyInner.Keeps

namespace HeadedNode

theorem split_spec : (h : ℕ) → {n : HeadedNode h} → {lower upper : Bytes} → Inv ℓ h n lower upper → Splittable h n →
    ∃ sep l r, separatorLength h n = .ok sep.length ∧ split h n = .ok (sep, l, r) ∧
      Splitting ℓ h n lower upper sep l r
  | 0, n, lower, upper, hn, hs => by
    have hleaf : BTreeNode.LeafInv ℓ n lower upper := hn
    obtain ⟨sep, l, r, hlen, hlr, hh, hfresh, hl, hr, hcount⟩ := hleaf.split_spec hs
    refine ⟨sep, l, r, hlen, hlr, hh, hfresh, hh.left_inv.upper_len, ?_⟩
    change 3 * (l.count - 1) + 3 * (r.count - 1) + 3 ≤ 3 * (BTreeNode.count n - 1)
    omega
  | h + 1, p, lower, upper, ⟨a, hp⟩, hs => by
    obtain ⟨sep, l, r, b, d, hlen, hlr, hl, hr, hwithin, hfresh, hent, hpot⟩ := hp.split_spec (E := entries h)
      (w := potential h) hs
    have hle : sep.length ≤ ℓ.key := by
      rw [← hr.lower]
      exact hr.bounded.lower
    exact ⟨sep, l, r, hlen, hlr, ⟨hwithin.inFences, ne_nil_of_lt hwithin.1, hwithin.2.2, ⟨b, hl⟩, ⟨d, hr⟩, hent⟩,
      hfresh, hle, hpot⟩

theorem splitNodeWithParent_spec {h : ℕ} {p : AnyInner (HeadedNode h)} {a : Routing (HeadedNode h)}
    (hp : AnyInner.Keeps (Inv ℓ h) ℓ p a lower upper) {i : ℕ} {c : HeadedNode h} {x y : Bytes}
    (hc : a.children[i]? = some c) (hx : (a.lower :: a.separators)[i]? = some x)
    (hy : (a.separators ++ [a.upper])[i]? = some y) (hinv : Inv ℓ h c x y) (hs : Splittable h c) :
    ∃ done q b, splitNodeWithParent p i c = .ok (done, q) ∧ AnyInner.Keeps (Inv ℓ h) ℓ q b lower upper ∧
      b.entriesOf (entries h) = a.entriesOf (entries h) ∧
      (done = true → q.potentialOf (potential h) < p.potentialOf (potential h)) ∧
      (done = false → b = a ∧ 3 < a.separators.length) := by
  obtain ⟨sep, l, r, hlen, hlr, hsplit⟩ := split_spec h hinv hs
  have hh := hsplit.halves
  have hi : i ≤ a.separators.length := by
    obtain ⟨hlt, -⟩ := List.getElem?_eq_some_iff.mp hc
    have hchildren := a.length
    omega
  obtain ⟨done, q, hq, hrefused, hdone⟩ := hp.represents.splitChild_spec hi hx hy hh hsplit.fresh hp.bounded
    ℓ.fourFit hsplit.length_le
  rw [← hlen, ← hlr] at hq
  cases done with
  | false =>
    obtain ⟨hqa, hcount⟩ := hrefused rfl
    have hqk : AnyInner.Keeps (Inv ℓ h) ℓ q a lower upper := ⟨hqa, hp.lower, hp.upper, hp.bounded, hp.spans⟩
    exact ⟨false, q, a, hq, hqk, rfl, fun hc => absurd hc Bool.false_ne_true, fun _ => ⟨rfl, hcount⟩⟩
  | true =>
    obtain ⟨hk, hnew, hqb⟩ := hdone rfl
    obtain ⟨hspans, hent⟩ := hp.spans.insertHalves hc hx hy hh hk hnew
    have hbound : (a.set i r).Bounded ℓ.key := ⟨hp.bounded.lower, hp.bounded.upper, hp.bounded.separators⟩
    have hqk : AnyInner.Keeps (Inv ℓ h) ℓ q ((a.set i r).insert sep l hk hnew) lower upper :=
      ⟨hqb, hp.lower, hp.upper, hbound.insert hsplit.length_le, hspans⟩
    refine ⟨true, q, _, hq, hqk, hent, fun _ => ?_, fun hc => absurd hc.symm Bool.false_ne_true⟩
    have htotal := Routing.totalOf_insertHalves (w := potential h) hc hx hy hh hk hnew
    have hpot := hsplit.potential_le
    have hseps : ((a.set i r).insert sep l hk hnew).separators.length = a.separators.length + 1 :=
      List.length_insertIdx_of_le_length (lowerIndex_le_length _ _) _
    rw [hqk.potentialOf_eq, hp.potentialOf_eq, hseps]
    omega

def Sound (ℓ : Limits) (key payload : Bytes) (h : ℕ) (es : List (Bytes × Bytes)) (lower upper : Bytes) (size : ℕ) :
    Round (HeadedNode h) → Prop
  | .inserted n => Inv ℓ h n lower upper ∧ key ∉ keys es ∧ Stored key payload es (entries h n) ∧
      potential h n ≤ size + 3
  | .split n => Inv ℓ h n lower upper ∧ entries h n = es ∧ potential h n < size
  | .full n => Inv ℓ h n lower upper ∧ entries h n = es ∧ potential h n = size ∧ Splittable h n

def Rounds (ℓ : Limits) (key payload : Bytes) (h : ℕ) (n : HeadedNode h) (lower upper : Bytes)
    (round : Except Fault (Round (HeadedNode h))) : Prop :=
  (round = .error .abort ∧ key ∈ keys (entries h n)) ∨
    ∃ r, round = .ok r ∧ Sound ℓ key payload h (entries h n) lower upper (potential h n) r

theorem splitBelow_spec {h : ℕ} {p : AnyInner (HeadedNode h)} {a : Routing (HeadedNode h)}
    (hp : AnyInner.Keeps (Inv ℓ h) ℓ p a lower upper) {i : ℕ} {c : HeadedNode h} {x y : Bytes}
    {pre post : List (Bytes × Bytes)} (f : Routing.Focus (Inv ℓ h) (entries h) a key i c x y pre post)
    {round : Round (HeadedNode h)} (hround : Sound ℓ key payload h (entries h c) x y (potential h c) round) :
    ∃ r, splitBelow p i round = .ok r ∧
      Sound ℓ key payload (h + 1) (entries (h + 1) p) lower upper (potential (h + 1) p) r := by
  have hlt : i < a.children.length := (List.getElem?_eq_some_iff.mp f.child).1
  have hes : entries (h + 1) p = pre ++ entries h c ++ post := hp.entries_eq.trans f.entries
  have hput : ∀ c', Inv ℓ h c' x y → entries (h + 1) (p.setChild i c') = pre ++ entries h c' ++ post :=
    fun c' hc' => (hp.put f hc').entries_eq.trans (f.put c')
  have hpot : ∀ c', Inv ℓ h c' x y → (p.setChild i c').potentialOf (potential h) + potential h c =
      p.potentialOf (potential h) + potential h c' := fun c' hc' => hp.potentialOf_put f hc'
  cases round with
  | inserted c' =>
    obtain ⟨hc', habsent, hstored, hgrown⟩ := hround
    refine ⟨_, rfl, ⟨_, hp.put f hc'⟩, ?_, ?_, ?_⟩
    · rw [hes, keys_append, keys_append, List.mem_append, List.mem_append]
      rintro ((hm | hm) | hm)
      · exact not_mem_keys_of_lt f.pre_lt hm
      · exact habsent hm
      · exact not_mem_keys_of_gt f.post_gt hm
    · rw [hput c' hc', hes]
      exact hstored.context (not_mem_keys_of_lt f.pre_lt) (not_mem_keys_of_gt f.post_gt)
    · have heq := hpot c' hc'
      change (p.setChild i c').potentialOf (potential h) ≤ p.potentialOf (potential h) + 3
      omega
  | split c' =>
    obtain ⟨hc', hent, hless⟩ := hround
    refine ⟨_, rfl, ⟨_, hp.put f hc'⟩, ?_, ?_⟩
    · rw [hput c' hc', hes, hent]
    · have heq := hpot c' hc'
      change (p.setChild i c').potentialOf (potential h) < p.potentialOf (potential h)
      omega
  | full c' =>
    obtain ⟨hc', hent, hsame, hs⟩ := hround
    have hset := hp.put f hc'
    have hchild : (a.set i c').children[i]? = some c' := List.getElem?_set_self hlt
    obtain ⟨done, q, b, hq, hqk, hqe, hdone, hrefused⟩ :=
      splitNodeWithParent_spec hset hchild f.lower_at f.upper_at hc' hs
    have heq := hpot c' hc'
    have hqes : entries (h + 1) q = entries (h + 1) p := by
      rw [hes, ← hent, ← f.put c', ← hqe]
      exact hqk.entries_eq
    cases done with
    | true =>
      refine ⟨.split q, by rw [splitBelow, hq]; rfl, ⟨b, hqk⟩, hqes, ?_⟩
      have hless := hdone rfl
      change q.potentialOf (potential h) < p.potentialOf (potential h)
      omega
    | false =>
      obtain ⟨rfl, hcount⟩ := hrefused rfl
      refine ⟨.full q, by rw [splitBelow, hq]; rfl, ⟨_, hqk⟩, hqes, ?_, ?_⟩
      · change q.potentialOf (potential h) = p.potentialOf (potential h)
        rw [hqk.potentialOf_eq, ← hset.potentialOf_eq]
        omega
      · change 3 < q.innerCount
        rwa [hqk.represents.innerCount_eq]

theorem insertRound_spec (ha : ℓ.Admits key payload) : (h : ℕ) → {n : HeadedNode h} → {lower upper : Bytes} →
    Inv ℓ h n lower upper → InFences lower upper key →
    Rounds ℓ key payload h n lower upper (insertRound key payload h n)
  | 0, n, lower, upper, hn, hk => by
    have hleaf : BTreeNode.LeafInv ℓ n lower upper := hn
    rcases hleaf.insertPlain_spec hk ha with ⟨hr, hcount⟩ | ⟨hr, hmem⟩ | ⟨m, hr, habsent, hm, hstored, hcount⟩
    · exact Or.inr ⟨.full n, by rw [insertRound, hr]; rfl, hn, rfl, rfl, hcount⟩
    · exact Or.inl ⟨by rw [insertRound, hr]; rfl, hmem⟩
    · refine Or.inr ⟨.inserted m, by rw [insertRound, hr]; rfl, hm, habsent, hstored, ?_⟩
      change 3 * (m.count - 1) ≤ 3 * (BTreeNode.count n - 1) + 3
      omega
  | h + 1, p, lower, upper, ⟨a, hp⟩, hk => by
    obtain ⟨i, c, x, y, pre, post, f, hindex, hchild, -⟩ := hp.focus (lawful ℓ h) hk
    rcases insertRound_spec ha h f.inv f.inFences with ⟨hr, hmem⟩ | ⟨round, hr, hsound⟩
    · refine Or.inl ⟨?_, ?_⟩
      · simp only [insertRound, hindex, hchild, ok_bind, hr]
        rfl
      · change key ∈ keys ((AnyInner.children p).flatMap (entries h))
        rw [hp.entries_eq, f.entries, keys_append, keys_append]
        exact List.mem_append_left _ (List.mem_append_right _ hmem)
    · obtain ⟨r, hbelow, hres⟩ := splitBelow_spec hp f hsound
      refine Or.inr ⟨r, ?_, hres⟩
      simp only [insertRound, hindex, hchild, ok_bind, hr, hbelow]

end HeadedNode

namespace HeadedTree
variable {t : HeadedTree}

theorem splitRoot_spec {h : ℕ} {n : HeadedNode h} (hn : HeadedNode.Inv ℓ h n [] []) (hs : HeadedNode.Splittable h n) :
    ∃ t, splitRoot n = .ok t ∧ t.Inv ℓ ∧ t.entries = HeadedNode.entries h n ∧
      t.potential < HeadedNode.potential h n := by
  obtain ⟨parent, hparent, hrep⟩ := AnyInner.makeRoot_spec n
  have hspans : (Routing.root n).Spans (HeadedNode.Inv ℓ h) := hn
  have hkeeps : AnyInner.Keeps (HeadedNode.Inv ℓ h) ℓ parent (.root n) [] [] :=
    ⟨hrep, rfl, rfl, ⟨Nat.zero_le _, Nat.zero_le _, fun s hs => absurd hs List.not_mem_nil⟩, hspans⟩
  obtain ⟨done, q, b, hq, hqk, hqe, hdone, hrefused⟩ :=
    HeadedNode.splitNodeWithParent_spec hkeeps (i := 0) rfl rfl rfl hn hs
  have hsize : parent.potentialOf (HeadedNode.potential h) = HeadedNode.potential h n := by
    rw [hkeeps.potentialOf_eq]
    change 2 * 0 - 1 + [HeadedNode.potential h n].sum = _
    simp
  have hent : (Routing.root n).entriesOf (HeadedNode.entries h) = HeadedNode.entries h n := List.flatMap_singleton ..
  cases done with
  | false => exact absurd (hrefused rfl).2 (Nat.not_lt_zero 3)
  | true =>
    refine ⟨⟨h + 1, q⟩, by rw [splitRoot, hparent, ok_bind, hq]; rfl, ⟨b, hqk⟩, ?_, hsize ▸ hdone rfl⟩
    exact (hqk.entries_eq.trans hqe).trans hent

theorem insertRound_spec (h : t.Inv ℓ) (ha : ℓ.Admits key payload) :
    (t.insertRound key payload = .error .abort ∧ key ∈ keys t.entries) ∨
      (∃ t', t.insertRound key payload = .ok (true, t') ∧ t'.Inv ℓ ∧ key ∉ keys t.entries ∧
        Stored key payload t.entries t'.entries ∧ t'.potential ≤ t.potential + 3) ∨
      ∃ t', t.insertRound key payload = .ok (false, t') ∧ t'.Inv ℓ ∧ t'.entries = t.entries ∧
        t'.potential < t.potential := by
  rcases HeadedNode.insertRound_spec ha t.height h (inFences_nil key) with ⟨hr, hmem⟩ | ⟨round, hr, hsound⟩
  · exact Or.inl ⟨by rw [insertRound, hr]; rfl, hmem⟩
  · rw [insertRound, hr, ok_bind]
    cases round with
    | inserted n => exact Or.inr (Or.inl ⟨⟨t.height, n⟩, rfl, hsound⟩)
    | split n => exact Or.inr (Or.inr ⟨⟨t.height, n⟩, rfl, hsound⟩)
    | full n =>
      obtain ⟨hn, hent, hsame, hs⟩ := hsound
      obtain ⟨t', ht, hinv, hes, hless⟩ := splitRoot_spec hn hs
      exact Or.inr (Or.inr ⟨t', by rw [finishRound, ht]; rfl, hinv, hes.trans hent, hless.trans_eq hsame⟩)

theorem insertImpl_spec {fuel : ℕ} (h : t.Inv ℓ) (ha : ℓ.Admits key payload) (hfuel : t.potential < fuel) :
    (insertImpl key payload fuel t = .error .abort ∧ key ∈ keys t.entries) ∨
      ∃ t', insertImpl key payload fuel t = .ok t' ∧ t'.Inv ℓ ∧ key ∉ keys t.entries ∧
        t'.entries = store key payload t.entries ∧ t'.potential ≤ t.potential + 3 := by
  induction fuel generalizing t with
  | zero => exact absurd hfuel (Nat.not_lt_zero _)
  | succ fuel ih =>
    rw [insertImpl, ensure_of ha.le_max, ok_bind]
    rcases insertRound_spec h ha with ⟨hr, hmem⟩ | ⟨t', hr, hinv, habsent, hstored, hgrown⟩ |
      ⟨t', hr, hinv, hent, hless⟩
    · exact Or.inl ⟨by rw [hr]; rfl, hmem⟩
    · exact Or.inr ⟨t', by rw [hr]; rfl, hinv, habsent, hstored.eq_store h.ascending hinv.ascending, hgrown⟩
    · rw [hr, ok_bind, ← hent]
      refine (ih hinv (by omega)).imp_right ?_
      rintro ⟨t'', hr', hinv', habsent, hstored, hgrown⟩
      exact ⟨t'', hr', hinv', habsent, hstored, hgrown.trans (by omega)⟩

end HeadedTree

end BtreeRedis
