import BtreeRedis.Tree.Leaf

/-!
# A dense leaf as a map over its key window

The window of a dense leaf is the keys between its fences. `Window` is the map that
the calls on such a leaf amount to, with the keys that have an array index as a
parameter. What carries the comparison is `Counted`: the header computed from the lower
fence, and the count of the set bits. It survives every split, also the one whose
boundary wraps, since nothing in it speaks about the order of the fences.
-/

namespace BtreeRedis

open LexOrder SortedAssoc BigEndian

inductive WindowCall
  | insert (key payload : Bytes)
  | remove (key : Bytes)
  | lookup (key : Bytes)

inductive WindowReply
  | inserted (success : Bool)
  | removed (found : Bool)
  | payload (found : Option Bytes)
  deriving DecidableEq

namespace Window

def answer (hasIndex : Bytes → Bool) (m : Bytes → Option Bytes) :
    WindowCall → WindowReply × (Bytes → Option Bytes)
  | .insert key payload =>
    if hasIndex key then (.inserted true, Function.update m key (some payload))
    else (.inserted false, m)
  | .remove key => (.removed (m key).isSome, Function.update m key none)
  | .lookup key => (.payload (m key), m)

def answers (hasIndex : Bytes → Bool) : (Bytes → Option Bytes) → List WindowCall → List WindowReply
  | _, [] => []
  | m, c :: cs => (answer hasIndex m c).1 :: answers hasIndex (answer hasIndex m c).2 cs

end Window

namespace LeafNode

def answer (enableDense : Bool) (l : LeafNode) : WindowCall → Except Fault (WindowReply × LeafNode)
  | .insert key payload => do
    let (success, l) ← l.insert enableDense key payload
    pure (.inserted success, l)
  | .remove key => do
    let (found, l) ← l.remove key
    pure (.removed found, l)
  | .lookup key => do
    let found ← l.lookup key
    pure (.payload found, l)

def answers (enableDense : Bool) : LeafNode → List WindowCall → Except Fault (List WindowReply × LeafNode)
  | l, [] => pure ([], l)
  | l, c :: cs => do
    let (r, l) ← l.answer enableDense c
    let (rs, l) ← l.answers enableDense cs
    pure (r :: rs, l)

end LeafNode

namespace DenseNode

def bits (d : DenseNode) : Finset ℕ :=
  (Finset.range (maskBitsPerWord * d.mask.length)).filter fun i => d.present i = true

def setBits (d : DenseNode) : ℕ := d.bits.card

theorem lt_of_present {d : DenseNode} {i : ℕ} (h : d.present i = true) :
    i < maskBitsPerWord * d.mask.length := by
  unfold present at h
  split at h
  · next word hw =>
    have hlt := (List.getElem?_eq_some_iff.mp hw).1
    simp only [maskBitsPerWord] at hlt ⊢
    omega
  · exact absurd h Bool.false_ne_true

@[simp] theorem mem_bits {d : DenseNode} {i : ℕ} : i ∈ d.bits ↔ d.present i = true := by
  rw [bits, Finset.mem_filter, Finset.mem_range]
  exact ⟨And.right, fun h => ⟨lt_of_present h, h⟩⟩

theorem setBits_set {d e : DenseNode} {i : ℕ}
    (hp : ∀ j, e.present j = if j = i then true else d.present j) :
    e.setBits = d.setBits + if d.present i then 0 else 1 := by
  have he : e.bits = Insert.insert i d.bits := by
    ext j
    rw [Finset.mem_insert, mem_bits, mem_bits, hp]
    by_cases hj : j = i <;> simp [hj]
  rw [setBits, setBits, he]
  by_cases hi : d.present i = true
  · rw [Finset.insert_eq_of_mem (mem_bits.mpr hi), if_pos hi, Nat.add_zero]
  · rw [Finset.card_insert_of_notMem fun hm => hi (mem_bits.mp hm), if_neg hi]

theorem setBits_clear {d e : DenseNode} {i : ℕ} (hi : d.present i = true)
    (hp : ∀ j, e.present j = if j = i then false else d.present j) :
    e.setBits = d.setBits - 1 := by
  have he : e.bits = d.bits.erase i := by
    ext j
    rw [Finset.mem_erase, mem_bits, mem_bits, hp]
    by_cases hj : j = i <;> simp [hj]
  rw [setBits, setBits, he, Finset.card_erase_of_mem (mem_bits.mpr hi)]

theorem setBits_congr {d e : DenseNode} (hm : e.mask = d.mask) : e.setBits = d.setBits := by
  rw [setBits, setBits, bits, bits, hm]
  congr 2
  funext i
  rw [present, present, hm]

theorem setBits_blank (full start val slots : ℕ) (lower upper : Bytes) (p : ℕ) :
    (blank full start val slots lower upper p).setBits = 0 := by
  rw [setBits, Finset.card_eq_zero, Finset.eq_empty_iff_forall_notMem]
  intro i hi
  rw [mem_bits, present_blank] at hi
  exact Bool.false_ne_true hi

theorem setBits_eq {d : DenseNode} (h : Filled d) : d.setBits = d.entries.length := by
  have hb : d.bits = ((List.range d.slotCount).filter d.present).toFinset := by
    ext i
    rw [mem_bits, List.mem_toFinset, List.mem_filter, List.mem_range]
    exact ⟨fun hp => ⟨h.present_lt i hp, hp⟩, And.right⟩
  rw [setBits, hb, List.toFinset_card_of_nodup (List.nodup_range.filter _), entries_eq_map,
    List.length_map]

structure Counted (d : DenseNode) : Prop extends Headed d where
  counted : d.occupiedCount = d.setBits

theorem WF.isCounted {d : DenseNode} (h : WF d) : Counted d :=
  ⟨h.headed, h.occupied.trans (setBits_eq h.toFilled).symm⟩

def hasIndex (d : DenseNode) (key : Bytes) : Bool :=
  match d.keyToIndex key with
  | .ok (.index _) => true
  | _ => false

def stored (d : DenseNode) (key : Bytes) : Option Bytes :=
  match d.keyToIndex key with
  | .ok (.index i) => if d.present i then some (d.vals.getD i []) else none
  | _ => none

theorem SameFrame.keyToIndex {d e : DenseNode} (h : SameFrame d e) : e.keyToIndex = d.keyToIndex := by
  obtain ⟨h₁, h₂, h₃, h₄, h₅, h₆, h₇⟩ := h
  cases d
  cases e
  simp only at h₁ h₂ h₃ h₄ h₅ h₆ h₇
  subst h₁ h₂ h₃ h₄ h₅ h₆ h₇
  rfl

theorem SameFrame.hasIndex {d e : DenseNode} (h : SameFrame d e) : e.hasIndex = d.hasIndex := by
  funext key
  rw [DenseNode.hasIndex, DenseNode.hasIndex, h.keyToIndex]

theorem stored_of_index {d : DenseNode} {key : Bytes} {i : ℕ} (h : d.keyToIndex key = .ok (.index i)) :
    d.stored key = if d.present i then some (d.vals.getD i []) else none := by
  rw [stored, h]

theorem stored_of_not_hasIndex {d : DenseNode} {key : Bytes} (h : d.hasIndex key = false) :
    d.stored key = none := by
  unfold hasIndex at h
  unfold stored
  split
  · next i hi => rw [hi] at h; exact absurd h.symm Bool.false_ne_true
  · rfl

namespace Headed
variable {d : DenseNode} {key other payload : Bytes}

theorem cases_index (h : Headed d) (hk : InFences d.lowerFence d.upperFence key) :
    (∃ i, d.keyToIndex key = .ok (.index i) ∧ i < d.slotCount ∧ d.InRange i ∧ d.slotKey i = key) ∨
      d.hasIndex key = false ∧ ∃ r, d.keyToIndex key = .ok r ∧ (∀ i, r ≠ .index i) ∧
        (r = .wrongLen → key.length ≠ d.fullKeyLen) := by
  obtain ⟨r, hr, hs⟩ := h.keyToIndex_spec hk
  cases hs with
  | @index i hl hi hrange hslot => exact Or.inl ⟨i, hr, hi, hrange, hslot⟩
  | wrongLen hl => exact Or.inr ⟨by rw [hasIndex, hr], _, hr, by simp, fun _ => hl⟩
  | notNumericRange => exact Or.inr ⟨by rw [hasIndex, hr], _, hr, by simp, by simp⟩
  | slightlyTooLarge => exact Or.inr ⟨by rw [hasIndex, hr], _, hr, by simp, by simp⟩
  | farTooLarge => exact Or.inr ⟨by rw [hasIndex, hr], _, hr, by simp, by simp⟩

theorem index_spec (h : Headed d) (hk : InFences d.lowerFence d.upperFence key) {i : ℕ}
    (hi : d.keyToIndex key = .ok (.index i)) : i < d.slotCount ∧ d.InRange i ∧ d.slotKey i = key := by
  rcases h.cases_index hk with ⟨j, hj, hs⟩ | ⟨-, r, hr, hne, -⟩
  · rw [hi] at hj
    cases hj
    exact hs
  · rw [hi] at hr
    cases hr
    exact absurd rfl (hne i)

theorem index_lt_iff (h : Headed d) (hk : InFences d.lowerFence d.upperFence key)
    (ho : InFences d.lowerFence d.upperFence other) {i j : ℕ} (hi : d.keyToIndex key = .ok (.index i))
    (hj : d.keyToIndex other = .ok (.index j)) : i < j ↔ key < other := by
  obtain ⟨-, hri, rfl⟩ := h.index_spec hk hi
  obtain ⟨-, hrj, rfl⟩ := h.index_spec ho hj
  refine ⟨fun hij => d.slotKey_lt hij hrj, fun hlt => ?_⟩
  rcases Nat.lt_trichotomy i j with hij | hij | hij
  · exact hij
  · exact absurd (hij ▸ hlt) (lt_irrefl _)
  · exact absurd (hlt.trans (d.slotKey_lt hij hri)) (lt_irrefl _)

theorem lookup_eq (h : Headed d) (hk : InFences d.lowerFence d.upperFence key) :
    d.lookup key = .ok (d.stored key) := by
  rcases h.cases_index hk with ⟨i, hi, hlt, -⟩ | ⟨hno, r, hr, hne, -⟩
  · rw [lookup, stored_of_index hi, hi, ok_bind]
    simp only [isSlotPresent, getVal, ensure_of hlt, ok_bind, pure_bind]
    rfl
  · rw [lookup, stored_of_not_hasIndex hno, hr, ok_bind]
    cases r with
    | index i => exact absurd rfl (hne i)
    | _ => rfl

theorem stored_update {e : DenseNode} (h : Headed d) (hf : SameFrame d e)
    (hk : InFences d.lowerFence d.upperFence key) (ho : InFences d.lowerFence d.upperFence other) {i : ℕ}
    (hi : d.keyToIndex key = .ok (.index i)) {bit : Bool}
    (hp : ∀ j, e.present j = if j = i then bit else d.present j)
    (hv : ∀ j, j ≠ i → e.vals.getD j [] = d.vals.getD j []) :
    e.stored other = if other = key then (if bit then some (e.vals.getD i []) else none)
      else d.stored other := by
  by_cases hok : other = key
  · subst hok
    rw [if_pos rfl, stored_of_index (by rw [hf.keyToIndex, hi]), hp, if_pos rfl]
  · rw [if_neg hok]
    rcases h.cases_index ho with ⟨j, hj, -, hrj, hslot⟩ | ⟨hno, -⟩
    · have hne : j ≠ i := fun he => hok (hslot.symm.trans (he ▸ (h.index_spec hk hi).2.2))
      rw [stored_of_index (by rw [hf.keyToIndex, hj]), stored_of_index hj, hp, if_neg hne, hv j hne]
    · rw [stored_of_not_hasIndex hno, stored_of_not_hasIndex (by rw [hf.hasIndex, hno])]

end Headed

namespace Counted
variable {d : DenseNode} {key payload : Bytes}

theorem insertMatching_spec (h : Counted d) (hk : InFences d.lowerFence d.upperFence key)
    (hkl : key.length = d.fullKeyLen) (payload : Bytes) :
    ∃ e, d.insertMatching key payload = .ok (d.hasIndex key, e) ∧ Counted e ∧ SameFrame d e ∧
      ∀ other, InFences d.lowerFence d.upperFence other →
        e.stored other = if d.hasIndex key ∧ other = key then some payload else d.stored other := by
  rcases h.cases_index hk with ⟨i, hi, hlt, -⟩ | ⟨hno, r, hr, hne, hlen⟩
  · obtain ⟨mask, hset, hml, hp⟩ := setSlotPresent_spec h.mask_len hlt
    let e : DenseNode := { d with
      mask := mask
      occupiedCount := d.occupiedCount + if d.present i then 0 else 1
      vals := d.vals.set i payload }
    have hhas : d.hasIndex key = true := by rw [hasIndex, hi]
    have hframe : SameFrame d e := ⟨rfl, rfl, rfl, rfl, rfl, rfl, rfl⟩
    have hval : e.vals.getD i [] = payload := by
      rw [List.getD_eq_getElem?_getD, List.getElem?_set_self (by rw [h.vals_len]; exact hlt)]
      rfl
    refine ⟨e, ?_, ⟨⟨h.full_pos, h.lower_len, h.start, h.prefixLen, hml.trans h.mask_len, ?_⟩, ?_⟩, hframe,
      fun other ho => ?_⟩
    · rw [insertMatching, hi, ok_bind, hhas]
      simp only [isSlotPresent, ensure_of hlt, hset, ok_bind, pure_bind]
      rfl
    · exact (List.length_set).trans h.vals_len
    · have hbits : e.setBits = d.setBits + if d.present i then 0 else 1 := setBits_set hp
      rw [hbits, ← h.counted]
    · rw [h.stored_update hframe hk ho hi hp fun j hj => by
        rw [List.getD_eq_getElem?_getD, List.getElem?_set_ne hj.symm, ← List.getD_eq_getElem?_getD]]
      simp only [hhas, hval, if_true, true_and]
  · refine ⟨d, ?_, h, SameFrame.refl d, fun other _ => by simp [hno]⟩
    rw [insertMatching, hr, ok_bind, hno]
    cases r with
    | index i => exact absurd rfl (hne i)
    | wrongLen => exact absurd hkl (hlen rfl)
    | notNumericRange => rfl
    | slightlyTooLarge => rfl
    | farTooLarge => rfl

theorem remove_spec (h : Counted d) (hk : InFences d.lowerFence d.upperFence key) :
    ∃ e, d.remove key = .ok ((d.stored key).isSome, e) ∧ Counted e ∧ SameFrame d e ∧
      ∀ other, InFences d.lowerFence d.upperFence other →
        e.stored other = if other = key then none else d.stored other := by
  rcases h.cases_index hk with ⟨i, hi, hlt, -⟩ | ⟨hno, r, hr, hne, -⟩
  · obtain ⟨mask, hunset, hml, hp⟩ := unsetSlotPresent_spec h.mask_len hlt
    by_cases hpr : d.present i = true
    · let e : DenseNode := { d with mask := mask, occupiedCount := d.occupiedCount - 1 }
      have hframe : SameFrame d e := ⟨rfl, rfl, rfl, rfl, rfl, rfl, rfl⟩
      refine ⟨e, ?_, ⟨⟨h.full_pos, h.lower_len, h.start, h.prefixLen, hml.trans h.mask_len, h.vals_len⟩, ?_⟩,
        hframe, fun other ho => ?_⟩
      · rw [remove, stored_of_index hi, hi, ok_bind]
        simp only [isSlotPresent, ensure_of hlt, hunset, hpr, ok_bind, pure_bind]
        rfl
      · have hbits : e.setBits = d.setBits - 1 := setBits_clear hpr hp
        rw [hbits, ← h.counted]
      · rw [h.stored_update hframe hk ho hi hp fun _ _ => rfl]
        simp only [Bool.false_eq_true, if_false]
    · have hnone : d.stored key = none := by rw [stored_of_index hi, if_neg hpr]
      refine ⟨d, ?_, h, SameFrame.refl d, fun other _ => ?_⟩
      · rw [remove, hnone, hi, ok_bind]
        simp only [isSlotPresent, ensure_of hlt, hunset, hpr, ok_bind, pure_bind]
        rfl
      · by_cases ho : other = key
        · rw [if_pos ho, ho, hnone]
        · rw [if_neg ho]
  · have hnone := stored_of_not_hasIndex hno
    refine ⟨d, ?_, h, SameFrame.refl d, fun other _ => ?_⟩
    · rw [remove, hnone, hr, ok_bind]
      cases r with
      | index i => exact absurd rfl (hne i)
      | _ => rfl
    · by_cases ho : other = key
      · rw [if_pos ho, ho, hnone]
      · rw [if_neg ho]

end Counted

/-- Keys between the fences; what is inserted has the lengths of the leaf. -/
def Admits (d : DenseNode) : WindowCall → Prop
  | .insert key payload => InFences d.lowerFence d.upperFence key ∧ key.length = d.fullKeyLen ∧
      payload.length = d.valLen
  | .remove key => InFences d.lowerFence d.upperFence key
  | .lookup key => InFences d.lowerFence d.upperFence key

instance (d : DenseNode) : (c : WindowCall) → Decidable (d.Admits c)
  | .insert _ _ => inferInstanceAs (Decidable (_ ∧ _ ∧ _))
  | .remove _ => inferInstanceAs (Decidable (InFences _ _ _))
  | .lookup _ => inferInstanceAs (Decidable (InFences _ _ _))

def Agrees (d : DenseNode) (m : Bytes → Option Bytes) : Prop :=
  ∀ key, InFences d.lowerFence d.upperFence key → d.stored key = m key

theorem SameFrame.admits {d e : DenseNode} (h : SameFrame d e) : e.Admits = d.Admits := by
  funext c
  cases c <;> simp only [Admits, h.lower, h.upper, h.fullKeyLen, h.valLen]

variable {enableDense : Bool}

theorem Counted.insert_eq {d : DenseNode} (h : Counted d) {key payload : Bytes}
    (hk : InFences d.lowerFence d.upperFence key) (hkl : key.length = d.fullKeyLen)
    (hpl : payload.length = d.valLen) {r : Bool} {e : DenseNode}
    (he : d.insertMatching key payload = .ok (r, e)) :
    d.insert enableDense key payload = .ok (r, .dense e) := by
  rw [DenseNode.insert, ensure_of (h.prefixLength_le hk), ok_bind,
    if_neg (by simp only [hkl, hpl, ne_eq, not_true, or_self, not_false_eq_true]), he]
  rfl

theorem Counted.answer_spec {d : DenseNode} {m : Bytes → Option Bytes} {c : WindowCall} (h : Counted d)
    (hm : d.Agrees m) (hc : d.Admits c) :
    ∃ e, (LeafNode.dense d).answer enableDense c = .ok ((Window.answer d.hasIndex m c).1, .dense e) ∧
      Counted e ∧ SameFrame d e ∧ e.Agrees (Window.answer d.hasIndex m c).2 := by
  cases c with
  | insert key payload =>
    obtain ⟨hk, hkl, hpl⟩ := hc
    obtain ⟨e, he, hcount, hframe, hstored⟩ := h.insertMatching_spec hk hkl payload
    refine ⟨e, ?_, hcount, hframe, fun other ho => ?_⟩
    · rw [LeafNode.answer, LeafNode.insert, h.insert_eq hk hkl hpl he, ok_bind]
      cases hi : d.hasIndex key <;> simp only [Window.answer, hi] <;> rfl
    · rw [hframe.lower, hframe.upper] at ho
      rw [hstored other ho, hm other ho]
      cases hi : d.hasIndex key <;> simp [Window.answer, hi, Function.update_apply]
  | remove key =>
    obtain ⟨e, he, hcount, hframe, hstored⟩ := h.remove_spec hc
    refine ⟨e, ?_, hcount, hframe, fun other ho => ?_⟩
    · rw [LeafNode.answer, LeafNode.remove, he, hm key hc]
      rfl
    · rw [hframe.lower, hframe.upper] at ho
      rw [hstored other ho, hm other ho]
      exact (Function.update_apply m key none other).symm
  | lookup key =>
    refine ⟨d, ?_, h, SameFrame.refl d, hm⟩
    rw [LeafNode.answer, LeafNode.lookup, h.lookup_eq hc, hm key hc]
    rfl

theorem Counted.answers_spec {calls : List WindowCall} :
    ∀ {d : DenseNode} {m : Bytes → Option Bytes}, Counted d → d.Agrees m → (∀ c ∈ calls, d.Admits c) →
      ∃ e, (LeafNode.dense d).answers enableDense calls =
          .ok (Window.answers d.hasIndex m calls, .dense e) ∧ Counted e ∧ SameFrame d e := by
  induction calls with
  | nil => exact fun {d m} h _ _ => ⟨d, rfl, h, SameFrame.refl d⟩
  | cons c calls ih =>
    intro d m h hm hc
    obtain ⟨e, he, hcount, hframe, hagree⟩ :=
      h.answer_spec hm (hc c List.mem_cons_self)
    obtain ⟨e', he', hcount', hframe'⟩ := ih hcount hagree fun c' hc' => by
      rw [hframe.admits]
      exact hc c' (List.mem_cons_of_mem c hc')
    refine ⟨e', ?_, hcount', hframe.trans hframe'⟩
    rw [LeafNode.answers, he, ok_bind]
    simp only [he', ok_bind, hframe.hasIndex]
    rfl

/-- A densified leaf, what calls with keys between the fences make of it, and both halves of
`splitNode1`, wherever their boundary lies. -/
inductive Reachable (enableDense : Bool) : DenseNode → Prop
  | densified {n : BTreeNode Bytes} {d : DenseNode} : n.WF → densify1 n = .ok (some d) →
      Reachable enableDense d
  | call {d e : DenseNode} {c : WindowCall} {r : WindowReply} : Reachable enableDense d → d.Admits c →
      (LeafNode.dense d).answer enableDense c = .ok (r, .dense e) → Reachable enableDense e
  | left {d e : DenseNode} {key : Bytes} {right : LeafNode} : Reachable enableDense d →
      d.splitNode1 key = .ok (e, right) → Reachable enableDense e
  | right {d e left : DenseNode} {key : Bytes} : Reachable enableDense d →
      d.splitNode1 key = .ok (left, .dense e) → Reachable enableDense e

theorem densified_of_densify1 {n : BTreeNode Bytes} (h : n.WF) {d : DenseNode}
    (hd : densify1 n = .ok (some d)) : Densified n d := by
  obtain ⟨s, ss, start, count, hb⟩ := densify1_eq_some hd
  exact (densify1_spec h hb.slots hb.pos).1 d hd

theorem Headed.length_fullBoundary {d : DenseNode} (h : Headed d) :
    d.fullBoundary.length = d.fullKeyLen := length_restoreKey h.lower_len _

theorem Counted.changeUpperFence {d e : DenseNode} (h : Counted d)
    (he : d.changeUpperFence d.fullBoundary = .ok e) : Counted e := by
  simp only [DenseNode.changeUpperFence, bind_eq_ok, ensure_eq_ok, exists_const, pure_eq_ok] at he
  obtain ⟨-, rfl⟩ := he
  exact ⟨⟨h.full_pos, h.lower_len, h.start, rfl, h.mask_len, h.vals_len⟩,
    h.counted.trans (setBits_congr rfl).symm⟩

theorem Counted.changeLowerFence {d e : DenseNode} (h : Counted d) {upper : Bytes}
    (he : d.changeLowerFence d.fullBoundary upper = .ok e) : Counted e := by
  simp only [DenseNode.changeLowerFence, bind_eq_ok, ensure_eq_ok, exists_const, pure_eq_ok] at he
  obtain ⟨slots, -, -, start, hstart, rfl⟩ := he
  refine ⟨⟨h.full_pos, ?_, hstart, rfl, List.length_replicate, List.length_replicate⟩, ?_⟩
  · exact h.length_fullBoundary.symm.le.trans (Nat.le_add_right _ _)
  · exact (setBits_blank ..).symm

theorem Counted.splitNode1 {d left : DenseNode} (h : Counted d) {key : Bytes} {right : LeafNode}
    (hs : d.splitNode1 key = .ok (left, right)) : Counted left ∧ ∀ e, right = .dense e → Counted e := by
  simp only [DenseNode.splitNode1, bind_eq_ok, pure_eq_ok, Prod.mk.injEq] at hs
  obtain ⟨self, -, right', hr, left', hl, rfl, rfl⟩ := hs
  refine ⟨h.changeUpperFence hl, fun e he => ?_⟩
  cases self with
  | true =>
    simp only [splitRight, bind_eq_ok, pure_eq_ok] at hr
    obtain ⟨r, hr, rfl⟩ := hr
    cases he
    exact h.changeLowerFence hr
  | false =>
    simp only [splitRight, bind_eq_ok, pure_eq_ok] at hr
    obtain ⟨r, -, rfl⟩ := hr
    cases he

theorem Reachable.isCounted {d : DenseNode} (h : Reachable enableDense d) : Counted d := by
  induction h with
  | densified hn hd => exact (densified_of_densify1 hn hd).wf.isCounted
  | @call d e c r _ hc hr ih =>
    obtain ⟨e', he', hcount, -⟩ := ih.answer_spec (m := d.stored) (fun _ _ => rfl) hc
    rw [hr] at he'
    obtain ⟨-, he⟩ := Prod.mk.inj (Except.ok.inj he')
    cases he
    exact hcount
  | left _ hs ih => exact (ih.splitNode1 hs).1
  | right _ hs ih => exact (ih.splitNode1 hs).2 _ rfl

/-- What `keyToIndex` computes between the fences: an order-preserving numbering that `restoreKey`
undoes. -/
structure Numbered (d : DenseNode) : Prop where
  restore : ∀ key i, InFences d.lowerFence d.upperFence key → d.keyToIndex key = .ok (.index i) →
    i < d.slotCount ∧ d.slotKey i = key
  order : ∀ key other i j, InFences d.lowerFence d.upperFence key →
    InFences d.lowerFence d.upperFence other → d.keyToIndex key = .ok (.index i) →
    d.keyToIndex other = .ok (.index j) → (i < j ↔ key < other) ∧ (i = j ↔ key = other)

theorem Headed.numbered {d : DenseNode} (h : Headed d) : Numbered d where
  restore key i hk hi := ⟨(h.index_spec hk hi).1, (h.index_spec hk hi).2.2⟩
  order key other i j hk ho hi hj := by
    refine ⟨h.index_lt_iff hk ho hi hj, fun hij => ?_, fun he => ?_⟩
    · rw [← (h.index_spec hk hi).2.2, ← (h.index_spec ho hj).2.2, hij]
    · rw [he, hj] at hi
      cases hi
      rfl

/-- Every sequence of calls on a reachable dense leaf is answered by the map over its window that
starts with what is stored; an insertion succeeds where its key has an index, the numbering is that
of the leaf at all times, and the count is that of the set bits. -/
theorem answers_window {d : DenseNode} (h : Reachable enableDense d) (calls : List WindowCall)
    (hc : ∀ c ∈ calls, d.Admits c) :
    ∃ e, (LeafNode.dense d).answers enableDense calls =
        .ok (Window.answers d.hasIndex d.stored calls, .dense e) ∧
      e.keyToIndex = d.keyToIndex ∧ Numbered e ∧ e.occupiedCount = e.setBits := by
  obtain ⟨e, he, hcount, hframe⟩ := h.isCounted.answers_spec (m := d.stored) (fun _ _ => rfl) hc
  exact ⟨e, he, hframe.keyToIndex, hcount.toHeaded.numbered, hcount.counted⟩

/-- What a full leaf with the keys `00`, `01` and `03` becomes: four array slots, three of them taken. -/
def fourSlots : DenseNode where
  fullKeyLen := 1
  arrayStart := 0
  valLen := 1000
  slotCount := 4
  occupiedCount := 3
  lowerFence := []
  upperFence := []
  prefixLength := 0
  mask := [11]
  vals := [List.replicate 1000 5, List.replicate 1000 6, [], List.replicate 1000 7]

deriving instance DecidableEq for DenseNode

def putAll : List (Bytes × Bytes) → BTreeNode Bytes → Except Fault (BTreeNode Bytes)
  | [], n => pure n
  | (key, payload) :: es, n => do
    ensure (n.getLowerFence = [] ∧ n.getUpperFence = [] ∧ key ∉ keys n.entries ∧
      slotSize + (key.length - n.prefixLength) + payload.length ≤ n.freeSpace) .assertion
    let n ← n.insertSlot key payload
    putAll es n

theorem putAll_wf (es : List (Bytes × Bytes)) {n m : BTreeNode Bytes} (h : n.WF) (hm : putAll es n = .ok m) : m.WF := by
  induction es generalizing n with
  | nil => exact Except.ok.inj hm ▸ h
  | cons e es ih =>
    obtain ⟨key, payload⟩ := e
    simp only [putAll, bind_eq_ok, ensure_eq_ok, exists_const] at hm
    obtain ⟨⟨hl, hu, hnew, hroom⟩, r, hr, hm⟩ := hm
    obtain ⟨r', hr', hw, -⟩ := BTreeNode.insertSlot_spec h ⟨Or.inl hl, Or.inl hu⟩ hnew hroom
    obtain rfl := Except.ok.inj (hr'.symm.trans hr)
    exact ih hw hm

def becomes (es : List (Bytes × Bytes)) (d : DenseNode) : Bool :=
  match putAll es (.init true) with
  | .ok n => decide (n.getLowerFence = [] ∧ n.getUpperFence = []) &&
    decide (∀ s ∈ n.slots, n.prefixLength + s.key.length + s.payload.length ≤ maxKVSize) &&
    match densify1 n with
    | .ok e => decide (e = some d)
    | .error _ => false
  | .error _ => false

theorem fourSlots_of_leaf : ∃ n : BTreeNode Bytes, n.WF ∧ n.getLowerFence = [] ∧ n.getUpperFence = [] ∧
    (∀ s ∈ n.slots, n.prefixLength + s.key.length + s.payload.length ≤ maxKVSize) ∧
    densify1 n = .ok (some fourSlots) := by
  have hbecomes : becomes [([1], List.replicate 1000 6), ([3], List.replicate 1000 7), ([0], List.replicate 1000 5)]
      fourSlots = true := by
    decide +kernel
  rw [becomes] at hbecomes
  split at hbecomes
  · next n hn =>
    rw [Bool.and_eq_true, Bool.and_eq_true, decide_eq_true_eq, decide_eq_true_eq] at hbecomes
    obtain ⟨⟨⟨hl, hu⟩, hs⟩, hd⟩ := hbecomes
    refine ⟨n, putAll_wf _ (BTreeNode.init_holds (π := Bytes) true).wf hn, hl, hu, hs, ?_⟩
    split at hd
    · next e he => rw [he, of_decide_eq_true hd]
    · cases hd
  · cases hbecomes

theorem fourSlots_densified : ∃ n : BTreeNode Bytes, n.WF ∧ densify1 n = .ok (some fourSlots) := by
  obtain ⟨n, hn, -, -, -, hd⟩ := fourSlots_of_leaf
  exact ⟨n, hn, hd⟩

theorem fourSlots_reachable : Reachable true fourSlots := by
  obtain ⟨n, hn, hd⟩ := fourSlots_densified
  exact .densified hn hd

theorem answers_window_fourSlots :
    ∃ e, (LeafNode.dense fourSlots).answers true [.lookup [3], .insert [2] (List.replicate 1000 8),
          .insert [9] (List.replicate 1000 9), .remove [1], .remove [4], .lookup [2], .lookup [1]] =
        .ok ([.payload (some (List.replicate 1000 7)), .inserted true, .inserted false, .removed true, .removed false,
          .payload (some (List.replicate 1000 8)), .payload none], .dense e) ∧
      e.keyToIndex = fourSlots.keyToIndex ∧ Numbered e ∧ e.occupiedCount = e.setBits :=
  answers_window fourSlots_reachable _ (by decide +kernel)

end DenseNode

end BtreeRedis
