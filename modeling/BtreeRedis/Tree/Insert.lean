import BtreeRedis.Lib.Outcome
import BtreeRedis.Tree.BTree

/-!
# Insertion keeps the invariant

A round either puts the entry into the leaf of its key or splits one node and keeps the
entries. The one thing the source does not look after is the boundary of a dense leaf that
is split, so `BoundaryOk` is asked of every tree that a round starts from.
-/

namespace BtreeRedis

open LexOrder SortedAssoc

variable {enableDense : Bool} {key payload : Bytes}

namespace AnyNode

/-- Where the leaf of the key refuses the entry, it can be split soundly. -/
def BoundaryOk (enableDense : Bool) (key payload : Bytes) (h : ℕ) (n : AnyNode h) : Prop :=
  ∀ l l', leafFor h n key = .ok l → l.insert enableDense key payload = .ok (false, l') → l'.BoundaryOk

instance (enableDense : Bool) (key payload : Bytes) (h : ℕ) (n : AnyNode h) :
    Decidable (BoundaryOk enableDense key payload h n) :=
  decidable_of_iff (∀ l, leafFor h n key = .ok l →
      ∀ l', l.insert enableDense key payload = .ok (false, l') → l'.BoundaryOk)
    ⟨fun hl l l' h₁ h₂ => hl l h₁ l' h₂, fun hl l h₁ l' h₂ => hl l l' h₁ h₂⟩

def SplitOk : (h : ℕ) → AnyNode h → Prop
  | 0, l => LeafNode.BoundaryOk l
  | _ + 1, _ => True

theorem split_halves : (h : ℕ) → {n left right : AnyNode h} → {lower upper sep : Bytes} →
    Inv enableDense h n lower upper → SplitOk h n → split key h n = .ok (sep, left, right) →
    Halves (Inv enableDense h) (entries h) (entries h n) lower upper sep left right
  | 0, _, _, _, _, _, _, hn, hs, hr => LeafNode.split_halves hn hs hr
  | _ + 1, _, _, _, _, _, _, hn, _, hr => InnerNode.split_halves hn hr

/-- What a round leaves of a node between `lower` and `upper` with entries `es`. -/
def Sound (enableDense : Bool) (key payload : Bytes) (h : ℕ) (es : List (Bytes × Bytes))
    (lower upper : Bytes) : Round (AnyNode h) → Prop
  | .inserted n => Inv enableDense h n lower upper ∧ Inserted key payload es (entries h n)
  | .split n => Inv enableDense h n lower upper ∧ entries h n = es
  | .full n => Inv enableDense h n lower upper ∧ entries h n = es ∧ SplitOk h n

theorem leafRound_sound {l : LeafNode} {lower upper : Bytes} (hl : l.Inv enableDense lower upper)
    (hk : InFences lower upper key) (hnew : key ∉ keys l.entries)
    (hlen : key.length + payload.length ≤ maxKVSize)
    (hb : ∀ l', l.insert enableDense key payload = .ok (false, l') → l'.BoundaryOk)
    {res : Bool × LeafNode} (hr : l.insert enableDense key payload = .ok res) :
    Sound enableDense key payload 0 l.entries lower upper (leafRound res) := by
  obtain ⟨inserted, l'⟩ := res
  have hins := LeafNode.insert_inserting hl hk hnew hlen hr
  cases inserted with
  | true => exact ⟨hins.inv, hins.done rfl⟩
  | false => exact ⟨hins.inv, hins.refused rfl, hb l' hr⟩

theorem splitBelow_sound {h : ℕ} {p : InnerNode (AnyNode h)} {lower upper : Bytes} {i : ℕ} {c : AnyNode h}
    {a b : Bytes} {pre post : List (Bytes × Bytes)}
    (f : InnerNode.Focus (Inv enableDense h) (entries h) p lower upper key i c a b pre post)
    {round : Round (AnyNode h)} (hround : Sound enableDense key payload h (entries h c) a b round)
    {res : Round (AnyNode (h + 1))} (hr : splitBelow p i key round = .ok res) :
    Sound enableDense key payload (h + 1) (p.entriesOf (entries h)) lower upper res := by
  cases round with
  | inserted c' =>
    obtain rfl := Except.ok.inj hr
    refine ⟨f.put_inv c' hround.1, ?_⟩
    change Inserted key payload _ ((p.setChild i c').entriesOf (entries h))
    rw [f.entries, f.put]
    exact hround.2.context pre post
  | split c' =>
    obtain rfl := Except.ok.inj hr
    refine ⟨f.put_inv c' hround.1, ?_⟩
    change (p.setChild i c').entriesOf (entries h) = _
    rw [f.entries, f.put, hround.2]
  | full c' =>
    have hinv := f.put_inv c' hround.1
    have hent : (p.setChild i c').entriesOf (entries h) = p.entriesOf (entries h) := by
      rw [f.entries, f.put, hround.2.1]
    simp only [splitBelow, splitNodeWithParent, bind_eq_ok] at hr
    obtain ⟨o, ho, hr⟩ := hr
    cases o with
    | none =>
      obtain rfl := Except.ok.inj hr
      exact ⟨hinv, hent, trivial⟩
    | some q =>
      obtain rfl := Except.ok.inj hr
      have hlc : i < p.children.length := by
        rw [InnerNode.length_children]
        exact Nat.lt_succ_of_le f.le_count
      have hc : (p.setChild i c').children[i]? = some c' := by
        rw [InnerNode.children_setChild f.le_count, List.getElem?_set_self hlc]
      obtain ⟨_, _, _, -, hq, he⟩ := InnerNode.splitChild_spec (E := entries h) hinv hc
        (InnerNode.separators_setChild p i c' ▸ f.lower_at)
        (InnerNode.separators_setChild p i c' ▸ f.upper_at)
        (fun sep left right hlr => split_halves h hround.1 hround.2.2 hlr) ho
      exact ⟨hq.inv, he.trans hent⟩

theorem insertRound_sound : (h : ℕ) → {n : AnyNode h} → {lower upper : Bytes} →
    Inv enableDense h n lower upper → InFences lower upper key → key ∉ keys (entries h n) →
    key.length + payload.length ≤ maxKVSize → BoundaryOk enableDense key payload h n →
    {res : Round (AnyNode h)} → insertRound enableDense key payload h n = .ok res →
    Sound enableDense key payload h (entries h n) lower upper res
  | 0, l, _, _, hn, hk, hnew, hlen, hb, res, hr => by
    simp only [insertRound, bind_eq_ok, pure_eq_ok] at hr
    obtain ⟨r, hr, rfl⟩ := hr
    exact leafRound_sound (l := l) hn hk hnew hlen (fun l' hl' => hb l l' rfl hl') hr
  | h + 1, p, lower, upper, hn, hk, hnew, hlen, hb, res, hr => by
    obtain ⟨i, c, a, b, pre, post, f⟩ := InnerNode.Inv.focus (p := p) hn (lawful h) hk
    simp only [insertRound, f.index, f.child, ok_bind, bind_eq_ok] at hr
    obtain ⟨round, hround, hr⟩ := hr
    have hnewc : key ∉ keys (entries h c) := by
      intro hm
      rw [entries, f.entries, keys_append, keys_append] at hnew
      exact hnew (List.mem_append_left _ (List.mem_append_right _ hm))
    refine splitBelow_sound f (insertRound_sound h f.inv f.inFences hnewc hlen (fun l l' hl hl' => ?_) hround) hr
    refine hb l l' ?_ hl'
    simp only [leafFor, f.index, f.child, ok_bind, hl]

end AnyNode

namespace BTree

theorem makeRoot_inv {h : ℕ} {n : AnyNode h} (hn : AnyNode.Inv enableDense h n [] []) :
    InnerNode.Inv (AnyNode.Inv enableDense h) (InnerNode.makeRoot n) [] [] :=
  InnerNode.Inv.of_holds (BTreeNode.init_holds false) (Nat.zero_le _) (Nat.zero_le _)
    (fun _ hs => absurd hs List.not_mem_nil) hn

def BoundaryOk (enableDense : Bool) (key payload : Bytes) (t : BTree) : Prop :=
  AnyNode.BoundaryOk enableDense key payload t.height t.root

instance (enableDense : Bool) (key payload : Bytes) (t : BTree) : Decidable (t.BoundaryOk enableDense key payload) :=
  inferInstanceAs (Decidable (AnyNode.BoundaryOk _ _ _ _ _))

def Restarts (enableDense : Bool) (key payload : Bytes) (t t' : BTree) : Prop :=
  t.insertRound enableDense key payload = .ok (false, t')

/-- The boundary is in range in every tree that a round of the insertion starts from. -/
def BoundariesOk (enableDense : Bool) (key payload : Bytes) (t : BTree) : Prop :=
  ∀ t', Relation.ReflTransGen (Restarts enableDense key payload) t t' →
    t'.BoundaryOk enableDense key payload

def Rounds (enableDense : Bool) (key payload : Bytes) (P : BTree → Prop) : ℕ → BTree → Prop
  | 0, _ => False
  | fuel + 1, t => P t ∧ ∀ t', Restarts enableDense key payload t t' → Rounds enableDense key payload P fuel t'

instance (enableDense : Bool) (key payload : Bytes) (P : BTree → Prop) [∀ t, Decidable (P t)] :
    (fuel : ℕ) → (t : BTree) → Decidable (Rounds enableDense key payload P fuel t)
  | 0, _ => isFalse id
  | fuel + 1, t =>
    have : DecidablePred (Rounds enableDense key payload P fuel) :=
      instDecidableRounds enableDense key payload P fuel
    inferInstanceAs (Decidable (P t ∧ ∀ t', t.insertRound enableDense key payload = .ok (false, t') → _))

theorem Rounds.forall {P : BTree → Prop} {fuel : ℕ} {t t' : BTree} (h : Rounds enableDense key payload P fuel t)
    (ht' : Relation.ReflTransGen (Restarts enableDense key payload) t t') : P t' := by
  induction fuel generalizing t with
  | zero => exact h.elim
  | succ fuel ih =>
    rcases ht'.cases_head with rfl | ⟨t₁, hround, hrest⟩
    · exact h.1
    · exact ih (h.2 t₁ hround) hrest

theorem BoundariesOk.of_rounds {fuel : ℕ} {t : BTree}
    (h : Rounds enableDense key payload (BoundaryOk enableDense key payload) fuel t) :
    t.BoundariesOk enableDense key payload := fun _ ht' => h.forall ht'

theorem eq_of_inserted {t t' t₁ : BTree} (h : t.insertRound enableDense key payload = .ok (true, t'))
    (h₁ : Relation.ReflTransGen (Restarts enableDense key payload) t t₁) : t₁ = t := by
  cases h₁.cases_head with
  | inl he => exact he.symm
  | inr hs =>
    obtain ⟨t₂, hstep, -⟩ := hs
    rw [Restarts, h] at hstep
    cases hstep

theorem splitRoot_spec {h : ℕ} {n : AnyNode h} {t : BTree} (hn : AnyNode.Inv enableDense h n [] [])
    (hs : AnyNode.SplitOk h n) (ht : splitRoot key n = .ok t) :
    t.Inv enableDense ∧ t.entries = AnyNode.entries h n := by
  simp only [splitRoot, AnyNode.splitNodeWithParent, bind_eq_ok] at ht
  obtain ⟨o, ho, ht⟩ := ht
  cases o with
  | none => cases ht
  | some q =>
    obtain rfl := Except.ok.inj ht
    obtain ⟨_, _, _, -, hq, he⟩ := InnerNode.splitChild_spec (E := AnyNode.entries h) (makeRoot_inv hn) (c := n)
      (a := []) (b := []) rfl rfl rfl
      (fun sep left right hlr => AnyNode.split_halves h hn hs hlr) ho
    refine ⟨hq.inv, he.trans ?_⟩
    simp [InnerNode.entriesOf, InnerNode.children, InnerNode.makeRoot, BTreeNode.entries, BTreeNode.content,
      BTreeNode.init]

theorem insertRound_spec {t t' : BTree} {inserted : Bool} (h : t.Inv enableDense)
    (hnew : key ∉ keys t.entries) (hlen : key.length + payload.length ≤ maxKVSize)
    (hb : t.BoundaryOk enableDense key payload)
    (ht : t.insertRound enableDense key payload = .ok (inserted, t')) :
    t'.Inv enableDense ∧ (inserted = true → Inserted key payload t.entries t'.entries) ∧
      (inserted = false → t'.entries = t.entries) := by
  simp only [insertRound, bind_eq_ok] at ht
  obtain ⟨round, hround, ht⟩ := ht
  have hsound := AnyNode.insertRound_sound t.height h (inFences_nil key) hnew hlen hb hround
  cases round with
  | inserted n =>
    cases ht
    exact ⟨hsound.1, fun _ => hsound.2, fun hc => absurd hc.symm Bool.false_ne_true⟩
  | split n =>
    cases ht
    exact ⟨hsound.1, fun hc => absurd hc Bool.false_ne_true, fun _ => hsound.2⟩
  | full n =>
    simp only [finishRound, bind_eq_ok, pure_eq_ok, Prod.mk.injEq] at ht
    obtain ⟨t₁, ht₁, rfl, rfl⟩ := ht
    obtain ⟨hinv, hent⟩ := splitRoot_spec hsound.1 hsound.2.2 ht₁
    exact ⟨hinv, fun hc => absurd hc Bool.false_ne_true, fun _ => hent.trans hsound.2.1⟩

theorem insertImpl_spec (fuel : ℕ) {t t' : BTree} (h : t.Inv enableDense) (hnew : key ∉ keys t.entries)
    (hb : t.BoundariesOk enableDense key payload)
    (ht : insertImpl enableDense key payload fuel t = .ok t') :
    t'.Inv enableDense ∧ Inserted key payload t.entries t'.entries := by
  induction fuel generalizing t with
  | zero => cases ht
  | succ fuel ih =>
    simp only [insertImpl, bind_eq_ok, Prod.exists, ensure_eq_ok, exists_const] at ht
    obtain ⟨hlen, inserted, t₁, hround, ht⟩ := ht
    obtain ⟨hinv, hdone, hkept⟩ := insertRound_spec h hnew hlen (hb t .refl) hround
    cases inserted with
    | true =>
      obtain rfl := Except.ok.inj ht
      exact ⟨hinv, hdone rfl⟩
    | false =>
      rw [← hkept rfl]
      exact ih hinv (by rwa [hkept rfl]) (fun t₂ h₂ => hb t₂ (.head hround h₂)) ht

theorem insertImpl_mono {fuel fuel' : ℕ} (hle : fuel ≤ fuel') {t t' : BTree}
    (h : insertImpl enableDense key payload fuel t = .ok t') :
    insertImpl enableDense key payload fuel' t = .ok t' := by
  induction fuel generalizing fuel' t with
  | zero => cases h
  | succ fuel ih =>
    obtain ⟨fuel', rfl⟩ : ∃ n, fuel' = n + 1 := ⟨fuel' - 1, by omega⟩
    simp only [insertImpl, bind_eq_ok, Prod.exists] at h ⊢
    obtain ⟨u, hlen, inserted, t₁, hround, h⟩ := h
    refine ⟨u, hlen, inserted, t₁, hround, ?_⟩
    cases inserted with
    | true => exact h
    | false => exact ih (Nat.le_of_succ_le_succ hle) h

end BTree

end BtreeRedis
