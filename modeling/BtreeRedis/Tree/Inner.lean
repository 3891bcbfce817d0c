import BtreeRedis.Lib.Chain
import BtreeRedis.Node.Split

/-!
# Inner nodes over any kind of child

An inner node is a slotted node whose payloads are children, with one more child, `upper`,
behind the last separator. The children form a chain between the fences. Everything an
operation needs to know about the way down is stated once, as `Focus`: the child that the
key leads to, its fences, what may be put in its place and what lies beside it.
-/

namespace BtreeRedis

open LexOrder SortedAssoc

/-- Children are stored as pointers. -/
class ChildPointer (γ : Type) extends Payload γ where
  len_eq : ∀ c : γ, Payload.len c = pointerSize

structure InnerNode (γ : Type) where
  node : BTreeNode γ
  upper : γ

namespace BTreeNode
variable {γ : Type} [ChildPointer γ]

def setPayload (n : BTreeNode γ) (i : ℕ) (c : γ) : BTreeNode γ :=
  { n with slots := n.slots.modify i fun s => { s with payload := c } }

theorem entryBytes_eq (es : List (Bytes × γ)) :
    entryBytes es = ((keys es).map List.length).sum + pointerSize * es.length := by
  induction es with
  | nil => rfl
  | cons e es ih =>
    rw [entryBytes_cons, ih, ChildPointer.len_eq, keys_cons, List.map_cons, List.sum_cons,
      List.length_cons]
    simp only [pointerSize]
    omega

section
omit [ChildPointer γ]

theorem content_setPayload (n : BTreeNode γ) (i : ℕ) (c : γ) :
    (n.setPayload i c).content = n.content.modify i fun e => (e.1, c) := by
  rw [content, content, setPayload]
  refine List.ext_getElem? fun j => ?_
  simp only [List.getElem?_map, List.getElem?_modify, Option.map_eq_map, Option.map_map]
  congr 1
  funext s
  by_cases hij : i = j <;> simp [hij, Slot.entry]

end

theorem keys_modify {β : Type*} (es : List (Bytes × β)) (i : ℕ) (c : β) :
    keys (es.modify i fun e => (e.1, c)) = keys es := by
  rw [keys, keys]
  refine List.ext_getElem? fun j => ?_
  simp only [List.getElem?_map, List.getElem?_modify, Option.map_eq_map, Option.map_map]
  congr 1
  funext e
  by_cases hij : i = j <;> simp [hij]

theorem map_snd_modify {β : Type*} (es : List (Bytes × β)) (i : ℕ) (c : β) :
    (es.modify i fun e => (e.1, c)).map Prod.snd = (es.map Prod.snd).set i c := by
  refine List.ext_getElem? fun j => ?_
  rw [List.getElem?_map, List.getElem?_modify, List.getElem?_set]
  by_cases hij : i = j
  · subst hij
    rcases Nat.lt_or_ge i es.length with hi | hi
    · simp [hi]
    · simp [hi]
  · simp [hij]

section
omit [ChildPointer γ]

@[simp] theorem count_setPayload (n : BTreeNode γ) (i : ℕ) (c : γ) : (n.setPayload i c).count = n.count :=
  List.length_modify _ _ _

theorem entries_setPayload (n : BTreeNode γ) (i : ℕ) (c : γ) :
    (n.setPayload i c).entries = n.entries.modify i fun e => (e.1, c) := by
  rw [entries, content_setPayload]
  change (n.content.modify i _).map (fun e => (n.getPrefix ++ e.1, e.2)) = (n.content.map _).modify i _
  refine List.ext_getElem? fun j => ?_
  simp only [List.getElem?_map, List.getElem?_modify, Option.map_eq_map, Option.map_map]
  congr 1
  funext e
  by_cases hij : i = j <;> simp [hij]

end

theorem setPayload_wf {n : BTreeNode γ} (h : WF n) (i : ℕ) (c : γ) : WF (n.setPayload i c) := by
  have hkeys : keys (n.setPayload i c).content = keys n.content := by
    rw [content_setPayload, keys_modify]
  have hslot : ∀ j : ℕ,
      Option.map Slot.head (n.setPayload i c).slots[j]? = Option.map Slot.head n.slots[j]? := by
    intro j
    simp only [setPayload, List.getElem?_modify, Option.map_eq_map, Option.map_map]
    congr 1
    funext s
    by_cases hij : i = j <;> simp [hij]
  refine ⟨⟨?_, ?_, h.fits⟩, ⟨h.prefixLen, h.fences, ?_, ?_, ?_⟩, ?_⟩
  · change n.spaceUsed = n.getLowerFence.length + n.getUpperFence.length + _
    rw [h.space, entryBytes_eq, entryBytes_eq, hkeys, content_length, content_length, count_setPayload]
  · rw [count_setPayload]
    exact h.room
  · rw [hkeys]
    exact h.sorted
  · intro e he
    have hk : e.1 ∈ keys n.content := hkeys ▸ List.mem_map_of_mem he
    obtain ⟨f, hf, hfe⟩ := List.mem_map.mp hk
    rw [← hfe]
    exact h.inFences f hf
  · intro s hs
    obtain ⟨j, hj, rfl⟩ := List.mem_iff_getElem.mp hs
    simp only [setPayload, List.getElem_modify]
    have hjn : j < n.slots.length := by simpa [setPayload] using hj
    have hhead : n.slots[j].head = head n.slots[j].key := h.heads _ (List.getElem_mem hjn)
    split_ifs <;> exact hhead
  · intro hne
    have hne' : n.slots ≠ [] := fun he => hne (by rw [setPayload, he]; simp)
    rw [count_setPayload]
    refine (h.hints hne').trans (List.map_congr_left fun j _ => ?_)
    rw [headAt, headAt, hslot]

end BTreeNode

namespace InnerNode
variable {γ : Type} [ChildPointer γ]

def separators (p : InnerNode γ) : List Bytes := keys p.node.entries

def children (p : InnerNode γ) : List γ := p.node.entries.map Prod.snd ++ [p.upper]

def entriesOf {β : Type*} (E : γ → List β) (p : InnerNode γ) : List β := p.children.flatMap E

def makeRoot (child : γ) : InnerNode γ := ⟨BTreeNode.init false, child⟩

def lookupInnerIndex (p : InnerNode γ) (key : Bytes) : Except Fault ℕ := do
  let (pos, _) ← p.node.lowerBound key
  pure pos

def getChild (p : InnerNode γ) (index : ℕ) : Except Fault γ :=
  if index = p.node.count then .ok p.upper
  else match p.node.slots[index]? with
    | some s => .ok s.payload
    | none => .error .undefined

def setChild (p : InnerNode γ) (index : ℕ) (c : γ) : InnerNode γ :=
  if index = p.node.count then { p with upper := c } else { p with node := p.node.setPayload index c }

def innerRequestSpaceFor (p : InnerNode γ) (keyLen : ℕ) : Except Fault (Bool × InnerNode γ) := do
  let needed ← p.node.spaceNeeded keyLen pointerSize
  let (space, n) ← p.node.requestSpaceFor needed
  pure (space, { p with node := n })

/-- `insertChild` with the assertion that it succeeds. -/
def insertChild (p : InnerNode γ) (key : Bytes) (child : γ) : Except Fault (InnerNode γ) := do
  let (succ, n) ← p.node.insertChild key child
  ensure (succ = true) .assertion
  pure { p with node := n }

def separatorLength (p : InnerNode γ) : Except Fault ℕ := do
  let info ← p.node.findSeparator
  pure info.length

def split (p : InnerNode γ) : Except Fault (Bytes × InnerNode γ × InnerNode γ) := do
  let info ← p.node.findSeparator
  let sepKey ← p.node.getSep info
  let (left, child, right) ← p.node.splitInner info.slot sepKey
  pure (sepKey, ⟨left, child⟩, ⟨right, p.upper⟩)

section
omit [ChildPointer γ]

@[simp] theorem length_separators (p : InnerNode γ) : p.separators.length = p.node.count := by
  simp [separators, keys]

@[simp] theorem length_children (p : InnerNode γ) : p.children.length = p.node.count + 1 := by
  simp [children]

theorem getChild_eq_ok {p : InnerNode γ} {i : ℕ} {c : γ} (hi : i ≤ p.node.count) :
    p.getChild i = .ok c ↔ p.children[i]? = some c := by
  unfold getChild children
  split_ifs with he
  · subst he
    rw [List.getElem?_append_right (by simp)]
    simp
  · have hlt : i < p.node.slots.length := lt_of_le_of_ne hi he
    rw [List.getElem?_append_left (by simpa using hlt), List.getElem?_eq_getElem hlt]
    simp [BTreeNode.entries, BTreeNode.content, Slot.entry, List.getElem?_eq_getElem hlt]

theorem separators_setChild (p : InnerNode γ) (i : ℕ) (c : γ) :
    (p.setChild i c).separators = p.separators := by
  unfold setChild separators
  split_ifs
  · rfl
  · rw [BTreeNode.entries_setPayload, BTreeNode.keys_modify]

theorem children_setChild {p : InnerNode γ} {i : ℕ} (hi : i ≤ p.node.count) (c : γ) :
    (p.setChild i c).children = p.children.set i c := by
  unfold setChild children
  split_ifs with he
  · subst he
    rw [List.set_append_right _ _ (by simp)]
    simp
  · have hlt : i < (p.node.entries.map Prod.snd).length := by
      rw [List.length_map, BTreeNode.entries_length]
      omega
    rw [BTreeNode.entries_setPayload, BTreeNode.map_snd_modify, List.set_append_left _ _ hlt]

theorem count_setChild (p : InnerNode γ) (i : ℕ) (c : γ) : (p.setChild i c).node.count = p.node.count := by
  unfold setChild
  split_ifs
  · rfl
  · exact BTreeNode.count_setPayload _ _ _

end

/-- What an inner node between `lower` and `upper` satisfies when `P` is said of its children. -/
structure Inv (P : γ → Bytes → Bytes → Prop) (p : InnerNode γ) (lower upper : Bytes) : Prop where
  wf : p.node.WF
  isLeaf : p.node.isLeaf = false
  lowerFence : p.node.getLowerFence = lower
  upperFence : p.node.getUpperFence = upper
  lower_len : lower.length ≤ maxKVSize
  upper_len : upper.length ≤ maxKVSize
  sep_len : ∀ s ∈ p.separators, s.length ≤ maxKVSize
  nonempty : ∀ s ∈ p.separators, s ≠ []
  chain : Chain P lower p.separators p.children upper

section Entries
variable {P : γ → Bytes → Bytes → Prop} {β : Type} {E : γ → List (Bytes × β)}

def Lawful (P : γ → Bytes → Bytes → Prop) (E : γ → List (Bytes × β)) : Prop :=
  ∀ c a b, P c a b → Ascending (keys (E c)) ∧ ∀ e ∈ E c, InFences a b e.1

section
omit [ChildPointer γ]

theorem chain_entries (hP : Lawful P E) {lo hi : Bytes} {ss : List Bytes} {cs : List γ}
    (hc : Chain P lo ss cs hi) (hs : Ascending ss)
    (hin : ∀ s ∈ ss, s ≠ [] ∧ InFences lo hi s) :
    Ascending (keys (cs.flatMap E)) ∧ ∀ e ∈ cs.flatMap E, InFences lo hi e.1 := by
  induction ss generalizing lo cs with
  | nil =>
    obtain ⟨c, rfl, h⟩ := Chain.nil_iff.mp hc
    simpa using hP c lo hi h
  | cons s ss ih =>
    obtain ⟨c, ds, rfl, h, hd⟩ := Chain.cons_iff.mp hc
    have hp := List.pairwise_cons.mp hs
    obtain ⟨hne, hsin⟩ := hin s (by simp)
    obtain ⟨hca, hcin⟩ := hP c lo s h
    obtain ⟨hda, hdin⟩ := ih hd hp.2 fun t ht =>
      ⟨(hin t (List.mem_cons_of_mem s ht)).1, Or.inr (hp.1 t ht), (hin t (List.mem_cons_of_mem s ht)).2.2⟩
    rw [List.flatMap_cons, keys_append]
    refine ⟨ascending_append.mpr ⟨hca, hda, fun x hx y hy => ?_⟩, fun e he => ?_⟩
    · obtain ⟨e, he, rfl⟩ := List.mem_map.mp hx
      obtain ⟨f, hf, rfl⟩ := List.mem_map.mp hy
      exact ((hcin e he).2.resolve_left hne).trans_lt ((hdin f hf).1.resolve_left hne)
    · rcases List.mem_append.mp he with he | he
      · exact (hcin e he).mono le_rfl (hsin.2.imp id fun hle => ⟨hne, hle⟩)
      · exact (hdin e he).mono hsin.lower_le ((eq_or_ne hi []).imp id fun h => ⟨h, le_rfl⟩)

end

namespace Inv
variable {p : InnerNode γ} {lower upper : Bytes}

theorem sep_inFences (h : Inv P p lower upper) {s : Bytes} (hs : s ∈ p.separators) :
    InFences lower upper s := by
  obtain ⟨e, he, rfl⟩ := List.mem_map.mp hs
  rw [← h.lowerFence, ← h.upperFence]
  exact h.wf.entries_inFences he

theorem ascending (h : Inv P p lower upper) : Ascending p.separators := h.wf.sorted_entries

theorem not_mem_separators (h : Inv P p lower upper) {i : ℕ} {a b s : Bytes}
    (ha : (lower :: p.separators)[i]? = some a) (hb : (p.separators ++ [upper])[i]? = some b)
    (hlt : a < s) (hgt : b = [] ∨ s < b) : s ∉ p.separators := by
  intro hs
  obtain ⟨j, hj, rfl⟩ := List.mem_iff_getElem.mp hs
  rcases Nat.lt_or_ge j i with hji | hij
  · obtain ⟨k, rfl⟩ := Nat.exists_eq_succ_of_ne_zero (Nat.ne_zero_of_lt hji)
    obtain ⟨hk, rfl⟩ := List.getElem?_eq_some_iff.mp (List.getElem?_cons_succ ▸ ha)
    exact absurd hlt (h.ascending.getElem_le (by omega) hk).not_gt
  · rw [List.getElem?_append_left (by omega), List.getElem?_eq_getElem (by omega)] at hb
    obtain rfl := Option.some.inj hb
    have hb' := hgt.resolve_left (h.nonempty _ (List.getElem_mem _))
    exact absurd hb' (h.ascending.getElem_le hij hj).not_gt

theorem entries_spec (h : Inv P p lower upper) (hP : Lawful P E) :
    Ascending (keys (p.entriesOf E)) ∧ ∀ e ∈ p.entriesOf E, InFences lower upper e.1 :=
  chain_entries hP h.chain h.ascending fun s hs => ⟨h.nonempty s hs, h.sep_inFences hs⟩

end Inv

theorem set_eq_take_append {α : Type*} {l : List α} {i : ℕ} (hi : i < l.length) (a : α) :
    l.set i a = l.take i ++ [a] ++ l.drop (i + 1) := by
  rw [List.set_eq_take_append_cons_drop, if_pos hi]
  simp

theorem setChild_wf {p : InnerNode γ} (h : p.node.WF) (i : ℕ) (c : γ) : (p.setChild i c).node.WF := by
  unfold setChild
  split_ifs
  · exact h
  · exact BTreeNode.setPayload_wf h i c

theorem Inv.setChild {p : InnerNode γ} {lower upper : Bytes} (h : Inv P p lower upper) {i : ℕ}
    (hi : i ≤ p.node.count) {c : γ}
    (hc : ∀ a b, (lower :: p.separators)[i]? = some a → (p.separators ++ [upper])[i]? = some b → P c a b) :
    Inv P (p.setChild i c) lower upper := by
  have hlc : i < p.children.length := by
    rw [length_children]
    omega
  obtain ⟨a, b, ha, hb, -, hput⟩ := h.chain.focus hlc
  have hchain := hput [] [c] (hc a b ha hb)
  rw [List.append_nil, List.take_append_drop, ← set_eq_take_append hlc, ← children_setChild hi,
    ← separators_setChild p i c] at hchain
  have hsame : (p.setChild i c).node.isLeaf = p.node.isLeaf ∧
      (p.setChild i c).node.getLowerFence = p.node.getLowerFence ∧
      (p.setChild i c).node.getUpperFence = p.node.getUpperFence := by
    unfold InnerNode.setChild
    split_ifs <;> exact ⟨rfl, rfl, rfl⟩
  refine ⟨setChild_wf h.wf i c, hsame.1.trans h.isLeaf, hsame.2.1.trans h.lowerFence,
    hsame.2.2.trans h.upperFence, h.lower_len, h.upper_len, ?_, ?_, hchain⟩
  · rw [separators_setChild]
    exact h.sep_len
  · rw [separators_setChild]
    exact h.nonempty

structure Focus (P : γ → Bytes → Bytes → Prop) (E : γ → List (Bytes × β)) (p : InnerNode γ)
    (lower upper key : Bytes) (i : ℕ) (c : γ) (a b : Bytes) (pre post : List (Bytes × β)) : Prop where
  index : p.lookupInnerIndex key = .ok i
  child : p.getChild i = .ok c
  le_count : i ≤ p.node.count
  eq_lowerIndex : i = lowerIndex p.separators key
  inv : P c a b
  inFences : InFences a b key
  lower_at : (lower :: p.separators)[i]? = some a
  upper_at : (p.separators ++ [upper])[i]? = some b
  entries : p.entriesOf E = pre ++ E c ++ post
  put : ∀ c', (p.setChild i c').entriesOf E = pre ++ E c' ++ post
  put_inv : ∀ c', P c' a b → Inv P (p.setChild i c') lower upper
  pre_lt : ∀ e ∈ pre, e.1 < key
  post_gt : ∀ e ∈ post, key < e.1

theorem Inv.focus {p : InnerNode γ} {lower upper key : Bytes} (h : Inv P p lower upper)
    (hP : Lawful P E) (hk : InFences lower upper key) :
    ∃ i c a b pre post, Focus P E p lower upper key i c a b pre post := by
  have hk' : InFences p.node.getLowerFence p.node.getUpperFence key := by
    rwa [h.lowerFence, h.upperFence]
  have hidx : p.lookupInnerIndex key = .ok (lowerIndex p.separators key) := by
    rw [lookupInnerIndex, BTreeNode.lowerBound_spec h.wf hk']
    rfl
  have hle : lowerIndex p.separators key ≤ p.node.count := by
    have hl := lowerIndex_le_length p.separators key
    rwa [length_separators] at hl
  have hlc : lowerIndex p.separators key < p.children.length := by
    rw [length_children]
    omega
  obtain ⟨i, hi⟩ : ∃ i, i = lowerIndex p.separators key := ⟨_, rfl⟩
  rw [← hi] at hidx hle hlc
  obtain ⟨a, b, ha, hb, hPc, -⟩ := h.chain.focus hlc
  have hsin : ∀ s ∈ p.separators, s ≠ [] ∧ InFences lower upper s :=
    fun s hs => ⟨h.nonempty s hs, h.sep_inFences hs⟩
  have hlow : (a = [] ∨ a < key) ∧ ∀ e ∈ (p.children.take i).flatMap E, e.1 < key := by
    cases i with
    | zero =>
      obtain rfl : lower = a := by simpa using ha
      exact ⟨hk.1, by simp⟩
    | succ j =>
      have hj : j < p.separators.length := by rw [length_separators]; omega
      have haj : a = p.separators[j] := by
        rw [List.getElem?_cons_succ, List.getElem?_eq_getElem hj] at ha
        exact (Option.some.inj ha).symm
      have hlt : p.separators[j] < key := lt_of_lt_lowerIndex (by omega) hj
      have hcut := (h.chain.cut hj).1
      have hent := (chain_entries hP hcut (h.ascending.sublist (List.take_sublist _ _)) fun s hs => by
        have hm := List.mem_of_mem_take hs
        obtain ⟨k, hk, rfl⟩ := List.mem_iff_getElem.mp hs
        rw [List.length_take] at hk
        refine ⟨(hsin _ hm).1, (hsin _ hm).2.1, Or.inr ?_⟩
        rw [List.getElem_take]
        exact h.ascending.getElem_le (by omega) hj).2
      refine ⟨Or.inr (haj ▸ hlt), fun e he => ?_⟩
      exact ((hent e he).2.resolve_left (hsin _ (List.getElem_mem hj)).1).trans_lt hlt
  have hupp : (b = [] ∨ key ≤ b) ∧ ∀ e ∈ (p.children.drop (i + 1)).flatMap E, key < e.1 := by
    rcases Nat.lt_or_ge i p.separators.length with hj | hj
    · have hbj : b = p.separators[i] := by
        rw [List.getElem?_append_left hj, List.getElem?_eq_getElem hj] at hb
        exact (Option.some.inj hb).symm
      have hle' : key ≤ p.separators[i] := le_of_lowerIndex_le h.ascending hi.ge hj
      have hcut := (h.chain.cut hj).2
      have hent := (chain_entries hP hcut (h.ascending.sublist (List.drop_sublist _ _)) fun s hs => by
        have hm := List.mem_of_mem_drop hs
        obtain ⟨k, hk, rfl⟩ := List.mem_iff_getElem.mp hs
        rw [List.length_drop] at hk
        refine ⟨(hsin _ hm).1, Or.inr ?_, (hsin _ hm).2.2⟩
        rw [List.getElem_drop]
        exact h.ascending.getElem_lt (by omega) _).2
      refine ⟨Or.inr (hbj ▸ hle'), fun e he => ?_⟩
      exact hle'.trans_lt ((hent e he).1.resolve_left (hsin _ (List.getElem_mem hj)).1)
    · have hbu : b = upper := by
        rw [length_separators] at hj
        rw [List.getElem?_append_right (by rw [length_separators]; exact hj)] at hb
        have hz : i - p.separators.length = 0 := by rw [length_separators]; omega
        rw [hz] at hb
        exact (Option.some.inj hb).symm
      refine ⟨hbu ▸ hk.2, fun e he => ?_⟩
      rw [length_separators] at hj
      rw [List.drop_of_length_le (by rw [length_children]; omega)] at he
      exact absurd he List.not_mem_nil
  refine ⟨i, p.children[i], a, b, (p.children.take i).flatMap E, (p.children.drop (i + 1)).flatMap E,
    hidx, ?_, hle, hi, hPc, ⟨hlow.1, hupp.1⟩, ha, hb, ?_, fun c' => ?_, fun c' hc' => ?_, hlow.2, hupp.2⟩
  · rw [getChild_eq_ok hle, List.getElem?_eq_getElem hlc]
  · rw [entriesOf]
    conv_lhs => rw [← List.take_append_drop i p.children, ← List.getElem_cons_drop hlc]
    rw [List.flatMap_append, List.flatMap_cons, List.append_assoc]
  · rw [entriesOf, children_setChild hle, set_eq_take_append hlc, List.flatMap_append,
      List.flatMap_append]
    simp
  · refine h.setChild hle fun x y hx hy => ?_
    rw [ha] at hx
    rw [hb] at hy
    cases hx
    cases hy
    exact hc'

end Entries

end InnerNode

end BtreeRedis
