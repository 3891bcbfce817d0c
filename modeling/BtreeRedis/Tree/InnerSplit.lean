import BtreeRedis.Tree.Inner

/-!
# Splitting below and at an inner node

`splitChild` is `splitNodeWithParent` seen from the parent: it makes room for the
separator before the child is split, the right half takes the place of the child and the
left half is inserted before it. An inner node that has no room is split itself; its
middle separator moves up.
-/

namespace BtreeRedis.InnerNode

open LexOrder SortedAssoc

variable {γ : Type} [ChildPointer γ]

def splitChild (p : InnerNode γ) (i : ℕ) (sepLength : Except Fault ℕ)
    (halves : Except Fault (Bytes × γ × γ)) : Except Fault (Option (InnerNode γ)) := do
  let length ← sepLength
  let (space, p) ← p.innerRequestSpaceFor length
  if space then do
    let (sep, left, right) ← halves
    let p ← (p.setChild i right).insertChild sep left
    pure (some p)
  else pure none

section Entries
variable {P : γ → Bytes → Bytes → Prop} {β : Type} {E : γ → List (Bytes × β)} {p : InnerNode γ}
  {lower upper : Bytes}

theorem Inv.sameContent (h : Inv P p lower upper) {n : BTreeNode γ} (hw : n.WF)
    (hs : p.node.SameContent n) : Inv P { p with node := n } lower upper := by
  have hsep : ({ p with node := n } : InnerNode γ).separators = p.separators := by
    rw [separators, separators, hs.entries]
  have hch : ({ p with node := n } : InnerNode γ).children = p.children := by
    rw [children, children, hs.entries]
  refine ⟨hw, hs.isLeaf.trans h.isLeaf, hs.lower.trans h.lowerFence, hs.upper.trans h.upperFence,
    h.lower_len, h.upper_len, hsep ▸ h.sep_len, hsep ▸ h.nonempty, ?_⟩
  rw [hsep, hch]
  exact h.chain

theorem eq_lowerIndex_of_between (h : Inv P p lower upper) {i : ℕ} (hi : i ≤ p.node.count) {a b sep : Bytes}
    (ha : (lower :: p.separators)[i]? = some a) (hb : (p.separators ++ [upper])[i]? = some b)
    (hsep : InFences a b sep) : i = lowerIndex p.separators sep := by
  refine eq_lowerIndex h.ascending (by rwa [length_separators]) (fun j hj hji => ?_) fun j hj hij => ?_
  · obtain ⟨k, rfl⟩ : ∃ k, i = k + 1 := ⟨i - 1, by omega⟩
    have hk : k < p.separators.length := by
      rw [length_separators]
      omega
    rw [List.getElem?_cons_succ, List.getElem?_eq_getElem hk] at ha
    obtain rfl := Option.some.inj ha
    have hlt := hsep.1.resolve_left (h.nonempty _ (List.getElem_mem hk))
    exact (h.ascending.getElem_le (by omega) hk).trans_lt hlt
  · have hi' : i < p.separators.length := by omega
    rw [List.getElem?_append_left hi', List.getElem?_eq_getElem hi'] at hb
    obtain rfl := Option.some.inj hb
    have hle := hsep.2.resolve_left (h.nonempty _ (List.getElem_mem hi'))
    exact hle.trans (h.ascending.getElem_le hij hj)

theorem Inv.inFences_of_between (h : Inv P p lower upper) {i : ℕ} {a b sep : Bytes}
    (ha : (lower :: p.separators)[i]? = some a) (hb : (p.separators ++ [upper])[i]? = some b)
    (hsep : InFences a b sep) : InFences lower upper sep := by
  refine hsep.mono ?_ ?_
  · rcases List.mem_cons.mp (List.mem_of_getElem? ha) with rfl | hm
    · exact le_rfl
    · exact (h.sep_inFences hm).lower_le
  · rcases List.mem_append.mp (List.mem_of_getElem? hb) with hm | hm
    · exact (h.sep_inFences hm).2.imp id fun hle => ⟨h.nonempty b hm, hle⟩
    · obtain rfl := List.mem_singleton.mp hm
      exact (eq_or_ne b []).imp id fun hne => ⟨hne, le_rfl⟩

section
omit [ChildPointer γ]

theorem map_snd_insertIdx_append {l : List (Bytes × γ)} {i : ℕ} (hi : i ≤ l.length) (k : Bytes) (c u : γ) :
    (l.insertIdx i (k, c)).map Prod.snd ++ [u] = (l.map Prod.snd ++ [u]).insertIdx i c := by
  rw [insertIdx_eq_take_append hi, insertIdx_eq_take_append (by simp; omega),
    List.take_append_of_le_length (by simpa using hi), List.drop_append_of_le_length (by simpa using hi)]
  simp

end

theorem set_insertIdx {α : Type*} {l : List α} {i : ℕ} (hi : i < l.length) (a b : α) :
    (l.set i b).insertIdx i a = l.take i ++ [a, b] ++ l.drop (i + 1) := by
  rw [insertIdx_eq_take_append (by simpa using hi.le), set_eq_take_append hi]
  have hlen : (l.take i).length = i := by simpa using hi.le
  rw [List.append_assoc, List.take_append_of_le_length hlen.ge, List.drop_append_of_le_length hlen.ge,
    List.take_of_length_le hlen.le, List.drop_of_length_le hlen.le]
  simp

theorem insertHalves_inv (h : Inv P p lower upper) {i : ℕ} (hi : i ≤ p.node.count) {a b sep : Bytes}
    (ha : (lower :: p.separators)[i]? = some a) (hb : (p.separators ++ [upper])[i]? = some b)
    {es : List (Bytes × β)} {left right : γ} (hh : Halves P E es a b sep left right) {p' : InnerNode γ}
    (hp' : (p.setChild i right).insertChild sep left = .ok p') :
    Inv P p' lower upper ∧ p'.separators = p.separators.take i ++ [sep] ++ p.separators.drop i ∧
      p'.children = p.children.take i ++ [left, right] ++ p.children.drop (i + 1) := by
  have hw := setChild_wf h.wf i right
  obtain ⟨q, hq⟩ : ∃ q, q = p.setChild i right := ⟨_, rfl⟩
  have hqs : q.separators = p.separators := hq ▸ separators_setChild p i right
  have hqc : q.children = p.children.set i right := hq ▸ children_setChild hi right
  have hqn : q.node.count = p.node.count := hq ▸ count_setChild p i right
  have hsame : q.node.isLeaf = p.node.isLeaf ∧ q.node.getLowerFence = p.node.getLowerFence ∧
      q.node.getUpperFence = p.node.getUpperFence := by
    rw [hq, setChild]
    split_ifs <;> exact ⟨rfl, rfl, rfl⟩
  rw [← hq] at hp' hw
  have hin := h.inFences_of_between ha hb hh.between
  have hk : InFences q.node.getLowerFence q.node.getUpperFence sep := by
    rwa [hsame.2.1, hsame.2.2, h.lowerFence, h.upperFence]
  simp only [insertChild, BTreeNode.insertChild, bind_eq_ok, Prod.exists, ensure_eq_ok, exists_const,
    pure_eq_ok] at hp'
  obtain ⟨succ, n, ⟨needed, hneed, space, m, hm, hn⟩, rfl, rfl⟩ := hp'
  simp only [BTreeNode.spaceNeeded, bind_eq_ok, ensure_eq_ok, exists_const, pure_eq_ok] at hneed
  obtain ⟨-, rfl⟩ := hneed
  obtain ⟨m', hm', hmw, hms, hfree⟩ := BTreeNode.requestSpaceFor_spec hw
    (slotSize + (sep.length - q.node.prefixLength) + Payload.len left)
  rw [hm] at hm'
  obtain ⟨rfl, rfl⟩ := Prod.mk.inj (Except.ok.inj hm')
  split_ifs at hn with hroom
  · simp only [bind_eq_ok, pure_eq_ok, Prod.mk.injEq, true_and, exists_eq_right] at hn
    have hkm : InFences m.getLowerFence m.getUpperFence sep := by rwa [hms.lower, hms.upper]
    have hnew := BTreeNode.insertSlot_eq_ok_new hmw hkm hn
    have hneed : slotSize + (sep.length - m.prefixLength) + Payload.len left ≤ m.freeSpace := by
      rw [hms.prefixLength]
      exact hfree (of_decide_eq_true hroom)
    obtain ⟨n', hn', hnw, hnl, hnlow, hnupp, -, hent⟩ := BTreeNode.insertSlot_spec hmw hkm hnew hneed
    rw [hn] at hn'
    obtain rfl := Except.ok.inj hn'
    have hidx : lowerIndex (keys m.entries) sep = i := by
      rw [hms.entries]
      change lowerIndex q.separators sep = i
      rw [hqs]
      exact (eq_lowerIndex_of_between h hi ha hb hh.between).symm
    have hlen : i ≤ q.node.entries.length := by
      rw [BTreeNode.entries_length, hqn]
      exact hi
    rw [hidx, hms.entries] at hent
    have hlc : i < p.children.length := by
      rw [length_children]
      omega
    have hsep : ({ q with node := n } : InnerNode γ).separators =
        p.separators.take i ++ [sep] ++ p.separators.drop i := by
      change keys n.entries = _
      rw [hent, keys, List.map_insertIdx]
      change q.separators.insertIdx i sep = _
      rw [hqs, insertIdx_eq_take_append (by rwa [length_separators])]
      simp
    have hchild : ({ q with node := n } : InnerNode γ).children =
        p.children.take i ++ [left, right] ++ p.children.drop (i + 1) := by
      change n.entries.map Prod.snd ++ [q.upper] = _
      rw [hent, map_snd_insertIdx_append hlen]
      change q.children.insertIdx i left = _
      rw [hqc, set_insertIdx hlc]
    obtain ⟨a', b', ha', hb', -, hput⟩ := h.chain.focus hlc
    rw [ha] at ha'
    rw [hb] at hb'
    cases ha'
    cases hb'
    have hmem : ∀ s ∈ ({ q with node := n } : InnerNode γ).separators, s = sep ∨ s ∈ p.separators := by
      intro s hs
      rw [hsep, List.mem_append, List.mem_append, List.mem_singleton] at hs
      rcases hs with (hs | hs) | hs
      · exact Or.inr (List.mem_of_mem_take hs)
      · exact Or.inl hs
      · exact Or.inr (List.mem_of_mem_drop hs)
    refine ⟨⟨hnw, ?_, ?_, ?_, h.lower_len, h.upper_len, fun s hs => ?_, fun s hs => ?_, ?_⟩, hsep, hchild⟩
    · exact ((hnl.trans hms.isLeaf).trans hsame.1).trans h.isLeaf
    · exact ((hnlow.trans hms.lower).trans hsame.2.1).trans h.lowerFence
    · exact ((hnupp.trans hms.upper).trans hsame.2.2).trans h.upperFence
    · rcases hmem s hs with rfl | hs
      · exact hh.sep_len
      · exact h.sep_len s hs
    · rcases hmem s hs with rfl | hs
      · exact hh.nonempty
      · exact h.nonempty s hs
    · rw [hsep, hchild]
      exact hput [sep] [left, right] ⟨hh.left_inv, hh.right_inv⟩
  · cases hn

structure SplitBelow (P : γ → Bytes → Bytes → Prop) (p p' : InnerNode γ) (lower upper : Bytes) (i : ℕ)
    (sep : Bytes) (left right : γ) : Prop where
  inv : Inv P p' lower upper
  separators : p'.separators = p.separators.take i ++ [sep] ++ p.separators.drop i
  children : p'.children = p.children.take i ++ [left, right] ++ p.children.drop (i + 1)

theorem splitChild_spec (h : Inv P p lower upper) {i : ℕ} {c : γ} (hc : p.children[i]? = some c)
    {a b : Bytes} (ha : (lower :: p.separators)[i]? = some a)
    (hb : (p.separators ++ [upper])[i]? = some b) {sepLength : Except Fault ℕ}
    {halves : Except Fault (Bytes × γ × γ)}
    (hh : ∀ sep left right, halves = .ok (sep, left, right) → Halves P E (E c) a b sep left right)
    {p' : InnerNode γ} (hp' : p.splitChild i sepLength halves = .ok (some p')) :
    ∃ sep left right, halves = .ok (sep, left, right) ∧ SplitBelow P p p' lower upper i sep left right ∧
      p'.entriesOf E = p.entriesOf E := by
  obtain ⟨hlc, rfl⟩ := List.getElem?_eq_some_iff.mp hc
  have hi : i ≤ p.node.count := by
    rw [length_children] at hlc
    omega
  simp only [splitChild, innerRequestSpaceFor, BTreeNode.spaceNeeded, bind_eq_ok, ensure_eq_ok,
    exists_const, pure_eq_ok, Prod.exists, Prod.mk.injEq] at hp'
  obtain ⟨len, -, space, q, ⟨_, ⟨-, rfl⟩, _, n, hn, rfl, rfl⟩, hq⟩ := hp'
  obtain ⟨n', hn', hnw, hns, -⟩ := BTreeNode.requestSpaceFor_spec h.wf
    (slotSize + (len - p.node.prefixLength) + pointerSize)
  rw [hn] at hn'
  obtain ⟨rfl, rfl⟩ := Prod.mk.inj (Except.ok.inj hn')
  split_ifs at hq with hroom
  · simp only [bind_eq_ok, Prod.exists, pure_eq_ok, Option.some.injEq, exists_eq_right] at hq
    obtain ⟨sep, left, right, hlr, hq⟩ := hq
    have hinv := h.sameContent hnw hns
    have hsep : ({ p with node := n } : InnerNode γ).separators = p.separators := by
      rw [separators, separators, hns.entries]
    have hch : ({ p with node := n } : InnerNode γ).children = p.children := by
      rw [children, children, hns.entries]
    have hhalves := hh sep left right hlr
    obtain ⟨hp, hps, hpc⟩ := insertHalves_inv hinv (hns.count ▸ hi) (hsep ▸ ha) (hsep ▸ hb) hhalves hq
    rw [hsep] at hps
    rw [hch] at hpc
    refine ⟨sep, left, right, hlr, ⟨hp, hps, hpc⟩, ?_⟩
    rw [entriesOf, hpc]
    conv_rhs => rw [entriesOf, ← List.take_append_drop i p.children, ← List.getElem_cons_drop hlc]
    simp only [List.flatMap_append, List.flatMap_cons, List.flatMap_nil, List.append_nil, hhalves.entries,
      List.append_assoc]
  · simp [pure_eq_ok] at hq

def Room (p : InnerNode γ) (length : ℕ) : Prop :=
  slotSize + (length - p.node.prefixLength) + pointerSize ≤ p.node.freeSpaceAfterCompaction

instance (p : InnerNode γ) (length : ℕ) : Decidable (p.Room length) := inferInstanceAs (Decidable (_ ≤ _))

section
omit [ChildPointer γ]

theorem freeSpaceAfterCompaction_setChild (p : InnerNode γ) (i : ℕ) (c : γ) :
    (p.setChild i c).node.freeSpaceAfterCompaction = p.node.freeSpaceAfterCompaction := by
  have hc := count_setChild p i c
  have hs : (p.setChild i c).node.spaceUsed = p.node.spaceUsed := by
    unfold setChild
    split_ifs <;> rfl
  rw [BTreeNode.freeSpaceAfterCompaction, BTreeNode.freeSpaceAfterCompaction, hc, hs]

end

theorem freeSpaceAfterCompaction_sameContent {n m : BTreeNode γ} (hn : n.WF) (hm : m.WF)
    (hs : n.SameContent m) : m.freeSpaceAfterCompaction = n.freeSpaceAfterCompaction := by
  rw [hn.freeSpaceAfterCompaction_eq, hm.freeSpaceAfterCompaction_eq, hs.lower, hs.upper, hs.entries]

/-- A separator that is not the upper bound of its child is new in the parent. -/
theorem not_mem_separators (h : Inv P p lower upper) {i : ℕ} (hi : i ≤ p.node.count) {a b sep : Bytes}
    (ha : (lower :: p.separators)[i]? = some a) (hb : (p.separators ++ [upper])[i]? = some b)
    (hsep : InFences a b sep) (hfresh : sep ≠ b) : sep ∉ p.separators := by
  intro hm
  obtain ⟨j, hj, hjs⟩ := List.mem_iff_getElem.mp hm
  have hij := eq_lowerIndex_of_between h hi ha hb hsep
  have hjl := (BTreeNode.lowerIndex_of_getElem_eq h.ascending hj hjs).1
  obtain rfl : i = j := hij.trans hjl.symm
  rw [List.getElem?_append_left hj, List.getElem?_eq_getElem hj, hjs] at hb
  exact hfresh (Option.some.inj hb)

theorem splitChild_room (h : Inv P p lower upper) {i : ℕ} (hi : i ≤ p.node.count) {a b sep : Bytes}
    (ha : (lower :: p.separators)[i]? = some a) (hb : (p.separators ++ [upper])[i]? = some b)
    (hsep : InFences a b sep) (hfresh : sep ≠ b) (hroom : p.Room sep.length) (left right : γ) :
    ∃ q, p.splitChild i (.ok sep.length) (.ok (sep, left, right)) = .ok (some q) := by
  have hin := h.inFences_of_between ha hb hsep
  have hk : InFences p.node.getLowerFence p.node.getUpperFence sep := by
    rwa [h.lowerFence, h.upperFence]
  have hpk := h.wf.prefixLength_le_key hk
  rw [Room] at hroom
  obtain ⟨n, hn, hnw, hns, -⟩ := BTreeNode.requestSpaceFor_spec h.wf
    (slotSize + (sep.length - p.node.prefixLength) + pointerSize)
  rw [decide_eq_true hroom] at hn
  obtain ⟨q, hq⟩ : ∃ q, q = ({ p with node := n } : InnerNode γ).setChild i right := ⟨_, rfl⟩
  have hqw : q.node.WF := hq ▸ setChild_wf (p := { p with node := n }) hnw i right
  have hqs : q.separators = p.separators := by
    rw [hq, separators_setChild, separators, separators, hns.entries]
  have hqf : q.node.getLowerFence = p.node.getLowerFence ∧ q.node.getUpperFence = p.node.getUpperFence ∧
      q.node.prefixLength = p.node.prefixLength := by
    rw [hq, setChild]
    split_ifs <;> exact ⟨hns.lower, hns.upper, hns.prefixLength⟩
  have hqr : q.node.freeSpaceAfterCompaction = p.node.freeSpaceAfterCompaction := by
    rw [hq, freeSpaceAfterCompaction_setChild, freeSpaceAfterCompaction_sameContent h.wf hnw hns]
  have hlen : Payload.len left = pointerSize := ChildPointer.len_eq left
  have hqroom : slotSize + (sep.length - q.node.prefixLength) + Payload.len left ≤
      q.node.freeSpaceAfterCompaction := by
    rw [hqr, hqf.2.2, hlen]
    exact hroom
  obtain ⟨m, hm, hmw, hms, hfree⟩ := BTreeNode.requestSpaceFor_spec hqw
    (slotSize + (sep.length - q.node.prefixLength) + Payload.len left)
  rw [decide_eq_true hqroom] at hm
  have hnew : sep ∉ keys m.entries := by
    rw [hms.entries]
    change sep ∉ q.separators
    rw [hqs]
    exact not_mem_separators h hi ha hb hsep hfresh
  have hkm : InFences m.getLowerFence m.getUpperFence sep := by
    rwa [hms.lower, hms.upper, hqf.1, hqf.2.1]
  have hneed : slotSize + (sep.length - m.prefixLength) + Payload.len left ≤ m.freeSpace := by
    rw [hms.prefixLength]
    exact hfree hqroom
  obtain ⟨m', hm', -⟩ := BTreeNode.insertSlot_spec hmw hkm hnew hneed
  refine ⟨{ q with node := m' }, ?_⟩
  simp only [splitChild, innerRequestSpaceFor, insertChild, BTreeNode.spaceNeeded, BTreeNode.insertChild,
    ensure_of hpk, ok_bind, pure_bind, hn, if_true, ← hq, hqf.2.2 ▸ ensure_of hpk, hm, hm']
  rfl

theorem splitChild_full (h : Inv P p lower upper) (i : ℕ) {sep : Bytes} (hin : InFences lower upper sep)
    (hroom : ¬ p.Room sep.length) (halves : Except Fault (Bytes × γ × γ)) :
    p.splitChild i (.ok sep.length) halves = .ok none := by
  have hk : InFences p.node.getLowerFence p.node.getUpperFence sep := by
    rwa [h.lowerFence, h.upperFence]
  have hpk := h.wf.prefixLength_le_key hk
  rw [Room] at hroom
  obtain ⟨n, hn, -⟩ := BTreeNode.requestSpaceFor_spec h.wf
    (slotSize + (sep.length - p.node.prefixLength) + pointerSize)
  rw [decide_eq_false hroom] at hn
  simp only [splitChild, innerRequestSpaceFor, BTreeNode.spaceNeeded, ensure_of hpk, ok_bind, pure_bind, hn]
  rfl

theorem Inv.of_holds {n : BTreeNode γ} {u : γ} {es : List (Bytes × γ)}
    (hn : BTreeNode.Holds n false lower upper es) (hl : lower.length ≤ maxKVSize)
    (hu : upper.length ≤ maxKVSize) (hs : ∀ s ∈ keys es, s.length ≤ maxKVSize ∧ s ≠ [])
    (hc : Chain P lower (keys es) (es.map Prod.snd ++ [u]) upper) : Inv P ⟨n, u⟩ lower upper := by
  have hsep : (⟨n, u⟩ : InnerNode γ).separators = keys es := by rw [separators, hn.entries]
  have hch : (⟨n, u⟩ : InnerNode γ).children = es.map Prod.snd ++ [u] := by rw [children, hn.entries]
  exact ⟨hn.wf, hn.isLeaf, hn.lower, hn.upper, hl, hu, fun s h => (hs s (hsep ▸ h)).1,
    fun s h => (hs s (hsep ▸ h)).2, by rwa [hsep, hch]⟩

structure SplitAt (p : InnerNode γ) (slot : ℕ) (sep : Bytes) (left right : InnerNode γ) : Prop where
  slot_eq : slot = p.node.count / 2 - 1
  count : 3 < p.node.count
  sep_at : p.separators[slot]? = some sep
  left_separators : left.separators = p.separators.take slot
  left_children : left.children = p.children.take (slot + 1)
  right_separators : right.separators = p.separators.drop (slot + 1)
  right_children : right.children = p.children.drop (slot + 1)

theorem split_spec (h : Inv P p lower upper) {sep : Bytes} {left right : InnerNode γ}
    (hs : p.split = .ok (sep, left, right)) :
    Halves (Inv P) (entriesOf E) (p.entriesOf E) lower upper sep left right ∧
      ∃ slot, SplitAt p slot sep left right := by
  simp only [split, bind_eq_ok, Prod.exists, pure_eq_ok, Prod.mk.injEq] at hs
  obtain ⟨info, hinfo, sepKey, hsep, l, c, r, hlcr, rfl, rfl, rfl⟩ := hs
  rw [BTreeNode.findSeparator, h.isLeaf, if_neg Bool.false_ne_true] at hinfo
  have hcount : 3 < p.node.count := by
    simp only [BTreeNode.findSeparatorInner, bind_eq_ok, ensure_eq_ok, exists_const, pure_eq_ok] at hinfo
    obtain ⟨-, k, -, rfl⟩ := hinfo
    simp only [BTreeNode.splitInner, BTreeNode.splitPages, bind_eq_ok, ensure_eq_ok, exists_const] at hlcr
    obtain ⟨_, ⟨hpos, -⟩, -⟩ := hlcr
    omega
  obtain ⟨info', t, hinfo', hfound, hmid, hkey⟩ :=
    BTreeNode.findSeparatorInner_spec h.wf.toOrdered hcount
  rw [hinfo] at hinfo'
  obtain rfl := Except.ok.inj hinfo'
  rw [hfound.getSep] at hsep
  obtain rfl := Except.ok.inj hsep
  obtain ⟨hseps, hin, hne, -⟩ := hfound.full h.wf.toOrdered
  obtain ⟨hl, hc, hr⟩ := BTreeNode.splitInner_spec h.wf hseps hin hlcr
  rw [h.isLeaf, h.lowerFence] at hl
  rw [h.isLeaf, h.upperFence] at hr
  rw [h.lowerFence, h.upperFence] at hin
  obtain ⟨slot, hslot⟩ : ∃ slot, slot = info.slot := ⟨_, rfl⟩
  rw [← hslot] at hl hc hr
  have hss : slot < p.separators.length := by
    rw [length_separators]
    omega
  have hsepAt : p.separators[slot] = p.node.getPrefix ++ t := by
    have hfull : p.separators[slot]? = some (p.node.getPrefix ++ t) := by
      rw [separators, BTreeNode.Ordered.keys_entries, List.getElem?_map, hslot, hmid, hkey]
      rfl
    rw [List.getElem?_eq_getElem hss] at hfull
    exact Option.some.inj hfull
  have hent : slot < p.node.entries.length := by
    rw [BTreeNode.entries_length]
    omega
  have hleft : (p.node.entries.take slot).map Prod.snd ++ [c] = p.children.take (slot + 1) := by
    rw [List.getElem?_eq_getElem hent] at hc
    obtain rfl := Option.some.inj hc
    rw [children, List.take_append_of_le_length (by simpa using hent), ← List.map_take,
      List.take_succ_eq_append_getElem hent, List.map_append]
    rfl
  have hright : (p.node.entries.drop (slot + 1)).map Prod.snd ++ [p.upper] = p.children.drop (slot + 1) := by
    rw [children, List.drop_append_of_le_length (by simpa using hent), List.map_drop]
  have hseps : ∀ s ∈ p.separators, s.length ≤ maxKVSize ∧ s ≠ [] :=
    fun s hs => ⟨h.sep_len s hs, h.nonempty s hs⟩
  have hlen := (hseps _ (List.getElem_mem hss)).1
  have hcut := h.chain.cut hss
  rw [hsepAt] at hlen hcut
  refine ⟨⟨hin, hne, hlen, ?_, ?_, ?_⟩, slot, hslot.trans hmid, hcount, ?_, ?_, ?_, ?_, ?_⟩
  · refine Inv.of_holds hl h.lower_len hlen (fun s hs => hseps s ?_) ?_
    · rw [keys, List.map_take] at hs
      exact List.mem_of_mem_take hs
    · rw [hleft, keys, List.map_take]
      exact hcut.1
  · refine Inv.of_holds hr hlen h.upper_len (fun s hs => hseps s ?_) ?_
    · rw [keys, List.map_drop] at hs
      exact List.mem_of_mem_drop hs
    · rw [hright, keys, List.map_drop]
      exact hcut.2
  · rw [entriesOf, entriesOf, entriesOf, children, children, hl.entries, hr.entries, hleft, hright,
      ← List.flatMap_append, List.take_append_drop]
  · rw [List.getElem?_eq_getElem hss, hsepAt]
  · rw [separators, hl.entries, keys, List.map_take]
    rfl
  · rw [children, hl.entries, hleft]
  · rw [separators, hr.entries, keys, List.map_drop]
    rfl
  · rw [children, hr.entries, hright]

theorem split_halves (h : Inv P p lower upper) {sep : Bytes} {left right : InnerNode γ}
    (hs : p.split = .ok (sep, left, right)) :
    Halves (Inv P) (entriesOf E) (p.entriesOf E) lower upper sep left right := (split_spec h hs).1

theorem entryBytes_truncate_mono {lower upper lower' upper' : Bytes}
    (hp : commonPrefixLength lower upper ≤ commonPrefixLength lower' upper') (es : List (Bytes × γ)) :
    BTreeNode.entryBytes (BTreeNode.truncate lower' upper' es) ≤
      BTreeNode.entryBytes (BTreeNode.truncate lower upper es) := by
  induction es with
  | nil => exact le_rfl
  | cons e es ih =>
    simp only [BTreeNode.truncate, List.map_cons, BTreeNode.entryBytes_cons, List.length_drop] at ih ⊢
    omega

theorem splitInner_fits {n : BTreeNode γ} (h : n.WF) {slot : ℕ} {sep : Bytes}
    (hs : BTreeNode.Separates (keys n.entries) slot sep)
    (hin : InFences n.getLowerFence n.getUpperFence sep) (hsep : (keys n.entries)[slot]? = some sep) :
    BTreeNode.pageBytes n.getLowerFence sep (n.entries.take slot) ≤ pageSize ∧
      BTreeNode.pageBytes sep n.getUpperFence (n.entries.drop (slot + 1)) ≤ pageSize := by
  have hpage := h.pageBytes_le
  have hlt := hs.lt
  rw [keys, List.length_map] at hlt
  have hkey : n.entries[slot].1 = sep := by
    rw [keys, List.getElem?_map, List.getElem?_eq_getElem hlt] at hsep
    exact Option.some.inj hsep
  have hlow := hin.lower_le
  have hpre : commonPrefixLength n.getLowerFence n.getUpperFence ≤ commonPrefixLength n.getLowerFence sep ∧
      commonPrefixLength n.getLowerFence n.getUpperFence ≤ commonPrefixLength sep n.getUpperFence := by
    rcases hin.2 with hu | hu
    · simp [hu]
    · exact ⟨commonPrefixLength_mono le_rfl hlow hu, commonPrefixLength_mono hlow hu le_rfl⟩
  have hpl := commonPrefixLength_le_left n.getLowerFence n.getUpperFence
  have hpu := commonPrefixLength_le_right n.getLowerFence n.getUpperFence
  have hleft := entryBytes_truncate_mono hpre.1 (n.entries.take slot)
  have hright := entryBytes_truncate_mono hpre.2 (n.entries.drop (slot + 1))
  have hcut : BTreeNode.entryBytes (BTreeNode.truncate n.getLowerFence n.getUpperFence n.entries) =
      BTreeNode.entryBytes (BTreeNode.truncate n.getLowerFence n.getUpperFence (n.entries.take slot)) +
        (sep.length - commonPrefixLength n.getLowerFence n.getUpperFence + pointerSize +
          BTreeNode.entryBytes
            (BTreeNode.truncate n.getLowerFence n.getUpperFence (n.entries.drop (slot + 1)))) := by
    conv_lhs => rw [← List.take_append_drop slot n.entries, ← List.getElem_cons_drop hlt,
      BTreeNode.truncate_append, BTreeNode.entryBytes_append]
    rw [BTreeNode.truncate, BTreeNode.truncate, List.map_cons, BTreeNode.entryBytes_cons,
      ChildPointer.len_eq, List.length_drop, hkey]
    rfl
  simp only [BTreeNode.pageBytes, List.length_take, List.length_drop, slotSize, pointerSize] at hpage hcut ⊢
  omega

theorem split_ok (h : Inv P p lower upper) (hc : 3 < p.node.count) :
    ∃ sep left right, p.separatorLength = .ok sep.length ∧ p.split = .ok (sep, left, right) := by
  obtain ⟨info, t, hinfo, hfound, hslot, hkey⟩ := BTreeNode.findSeparatorInner_spec h.wf.toOrdered hc
  obtain ⟨hseps, hin, hne, hlen⟩ := hfound.full h.wf.toOrdered
  have hfind : p.node.findSeparator = .ok info := by
    rw [BTreeNode.findSeparator, h.isLeaf, if_neg Bool.false_ne_true]
    exact hinfo
  have hat : (keys p.node.entries)[info.slot]? = some (p.node.getPrefix ++ t) := by
    rw [BTreeNode.Ordered.keys_entries, List.getElem?_map, hslot, hkey]
    rfl
  have hfits := splitInner_fits h.wf hseps hin hat
  obtain ⟨l, c, r, hlcr⟩ := BTreeNode.splitInner_ok h.wf hseps hfits.1 hfits.2
  refine ⟨p.node.getPrefix ++ t, ⟨l, c⟩, ⟨r, p.upper⟩, ?_, ?_⟩
  · simp only [separatorLength, hfind, ok_bind, hlen]
    rfl
  · simp only [split, hfind, hfound.getSep, hlcr, ok_bind]
    rfl

end Entries

end BtreeRedis.InnerNode
