import BtreeRedis.Lib.Outcome
import BtreeRedis.Node.Split

/-!
# Ways in which the program stops itself

An operation on a well-formed node may stop in an abort or an assertion, those of a page's
capacity included. `Contained` says that it does nothing worse, and what it leaves if it
returns.
-/

namespace BtreeRedis

open LexOrder SortedAssoc Outcome

/-- The faults that the program raises itself. -/
def Fault.Stops : Fault → Prop
  | .abort | .assertion | .pageOverflow => True
  | .undefined | .outOfFuel => False

instance : DecidablePred Fault.Stops := fun e => by
  cases e <;> unfold Fault.Stops <;> infer_instance

theorem stops_abort : Fault.abort.Stops := trivial
theorem stops_assertion : Fault.assertion.Stops := trivial
theorem stops_pageOverflow : Fault.pageOverflow.Stops := trivial

abbrev Contained {α : Type*} (Q : α → Prop) (x : Except Fault α) : Prop := Yields Fault.Stops Q x

theorem contained_ensure {p : Prop} [Decidable p] {e : Fault} (he : ¬ p → e.Stops) :
    Contained (fun _ => p) (ensure p e) := by
  by_cases h : p
  · rw [ensure_of h]
    exact h
  · rw [ensure, if_neg h]
    exact he h

theorem contained_check {α : Type} {p : Prop} [Decidable p] {e : Fault} (he : e.Stops) {f : Unit → Except Fault α}
    {Q : α → Prop} (h : p → Contained Q (f ())) : Contained Q (ensure p e >>= f) :=
  (contained_ensure fun _ => he).bind fun _ hp => h hp

namespace BTreeNode
variable {π : Type} [Payload π]

section
omit [Payload π]

theorem setFences_contained (isLeaf : Bool) (lower upper : Bytes) :
    Contained (fun m : BTreeNode π => slotsOffset + lower.length + upper.length ≤ pageSize ∧
      m = fenced isLeaf lower upper) ((init isLeaf).setFences lower upper) := by
  refine Yields.intro ?_ fun m hm => setFences_init_eq_ok.mp hm
  unfold setFences insertFence
  refine Yields.bind (P := fun _ => True) (contained_check stops_pageOverflow fun _ => trivial) fun _ _ => ?_
  exact Yields.bind (P := fun _ => True) (contained_check stops_pageOverflow fun _ => trivial) fun _ _ => trivial

end

theorem copySlots_contained {n dst : BTreeNode π} {src : List (Slot π)}
    (hn : n.getPrefix.length = n.prefixLength)
    (hk : ∀ s ∈ src, dst.prefixLength ≤ (n.getPrefix ++ s.key).length) :
    Contained (fun _ => True) (n.copySlots dst src) := by
  unfold copySlots
  split_ifs with hp
  · refine Yields.mono (Yields.foldlM (I := fun _ (m : BTreeNode π) => m.prefixLength = dst.prefixLength) rfl
      fun _ s _ hs a ha => ?_) fun _ _ => trivial
    have hl := hk s (hs ▸ List.mem_append_right _ List.mem_cons_self)
    rw [List.length_append, hn] at hl
    rw [copyTruncated, ensure_of (by omega), ok_bind]
    exact contained_check stops_pageOverflow fun _ => ha
  · refine Yields.mono (Yields.foldlM (I := fun _ (m : BTreeNode π) => m.prefixLength = dst.prefixLength) rfl
      fun _ s _ hs a ha => ?_) fun _ _ => trivial
    have hl := hk s (hs ▸ List.mem_append_right _ List.mem_cons_self)
    rw [copyKeyValue, storeKeyValue, ensure_of (ha.trans_le hl), ok_bind]
    refine Yields.bind (P := fun r : BTreeNode π × Slot π => r.1.prefixLength = dst.prefixLength) ?_ ?_
    · exact contained_check stops_pageOverflow fun _ => contained_check stops_pageOverflow fun _ => ha
    · intro r hr
      exact hr

theorem copyKeyValueRange_contained {n dst : BTreeNode π} {srcSlot srcCount : ℕ}
    (hn : n.getPrefix.length = n.prefixLength)
    (hk : ∀ s ∈ (n.slots.drop srcSlot).take srcCount, dst.prefixLength ≤ (n.getPrefix ++ s.key).length) :
    Contained (fun _ => True) (n.copyKeyValueRange dst srcSlot srcCount) :=
  (copySlots_contained hn hk).bind fun _ _ => contained_check stops_pageOverflow fun _ => trivial

theorem copy_contained {n p : BTreeNode π} (h : Ordered n) {lower upper : Bytes}
    (hp : p.prefixLength = commonPrefixLength lower upper) {i c : ℕ}
    (hin : ∀ e ∈ (n.entries.drop i).take c, InFences lower upper e.1) :
    Contained (fun _ => True) (n.copyKeyValueRange p i c) := by
  refine copyKeyValueRange_contained h.length_getPrefix fun s hs => ?_
  have he : (n.getPrefix ++ s.key, s.payload) ∈ (n.entries.drop i).take c := by
    rw [entries, content, List.map_map, ← List.map_drop, ← List.map_take]
    exact List.mem_map_of_mem hs
  have hp' := (hin _ he).isPrefix.length_le
  rwa [List.length_take, Nat.min_eq_left (commonPrefixLength_le_left _ _), ← hp] at hp'

section
omit [Payload π]

theorem splitPages_contained (n : BTreeNode π) (slot : ℕ) (sep : Bytes) :
    Contained (fun p => (init n.isLeaf).setFences n.getLowerFence sep = .ok p.1 ∧
      (init n.isLeaf).setFences sep n.getUpperFence = .ok p.2) (n.splitPages slot sep) := by
  refine contained_check stops_assertion fun _ => contained_check stops_assertion fun _ => ?_
  refine (setFences_contained _ _ _).bind fun l hl => (setFences_contained _ _ _).bind fun r hr => ?_
  exact ⟨setFences_init_eq_ok.mpr hl, setFences_init_eq_ok.mpr hr⟩

end

theorem splitLeaf_contained {n : BTreeNode π} (h : WF n) {slot : ℕ} {sep : Bytes}
    (hs : Separates (keys n.entries) slot sep) (hk : InFences n.getLowerFence n.getUpperFence sep) :
    Contained (fun p => Holds p.1 n.isLeaf n.getLowerFence sep (n.entries.take (slot + 1)) ∧
      Holds p.2 n.isLeaf sep n.getUpperFence (n.entries.drop (slot + 1))) (n.splitLeaf slot sep) := by
  refine Yields.intro ?_ fun p hp => splitLeaf_spec h hs hk hp
  refine (splitPages_contained n slot sep).bind fun p hp => ?_
  have hlt := hs.lt
  rw [keys, List.length_map, entries_length] at hlt
  have hleft : ∀ e ∈ (n.entries.drop 0).take (slot + 1), InFences n.getLowerFence sep e.1 :=
    fun e he => hs.left h.toOrdered (by simpa using he)
  have hpl := (setFences_init_eq_ok.mp hp.1).2
  have hpr := (setFences_init_eq_ok.mp hp.2).2
  refine Yields.bind (P := fun m => m.count = slot + 1) (Yields.intro (copy_contained h.toOrdered
    (by rw [hpl]; rfl) hleft) fun m hm => ?_) fun m hm => ?_
  · rw [(copy_page h.toOrdered (Or.inr hk.lower_le) hleft hp.1 hm).2, List.drop_zero, List.length_take,
      entries_length]
    omega
  · have hall : (n.entries.drop (slot + 1)).take (n.count - (slot + 1)) = n.entries.drop (slot + 1) := by
      rw [← entries_length, ← List.length_drop, List.take_length]
    rw [hm]
    exact (copy_contained h.toOrdered (by rw [hpr]; rfl) fun e he =>
      hs.right h.toOrdered (hall ▸ he)).bind fun _ _ => trivial

theorem splitInner_contained {n : BTreeNode π} (h : WF n) {slot : ℕ} {sep : Bytes}
    (hs : Separates (keys n.entries) slot sep) (hk : InFences n.getLowerFence n.getUpperFence sep) :
    Contained (fun _ => True) (n.splitInner slot sep) := by
  refine (splitPages_contained n slot sep).bind fun p hp => ?_
  have hlt := hs.lt
  rw [keys, List.length_map, entries_length] at hlt
  have hsub : ∀ e ∈ n.entries.take slot, e ∈ n.entries.take (slot + 1) := fun e he =>
    List.take_subset_take_left _ (Nat.le_succ slot) he
  have hleft : ∀ e ∈ (n.entries.drop 0).take slot, InFences n.getLowerFence sep e.1 :=
    fun e he => hs.left h.toOrdered (hsub e (by simpa using he))
  have hpl := (setFences_init_eq_ok.mp hp.1).2
  have hpr := (setFences_init_eq_ok.mp hp.2).2
  refine Yields.bind (P := fun m => m.count = slot) (Yields.intro (copy_contained h.toOrdered
    (by rw [hpl]; rfl) hleft) fun m hm => ?_) fun m hm => ?_
  · rw [(copy_page h.toOrdered (Or.inr hk.lower_le) hleft hp.1 hm).2, List.drop_zero, List.length_take,
      entries_length]
    omega
  · have hall : (n.entries.drop (slot + 1)).take (n.count - slot - 1) = n.entries.drop (slot + 1) := by
      rw [Nat.sub_sub, ← entries_length, ← List.length_drop, List.take_length]
    rw [hm]
    refine (copy_contained h.toOrdered (by rw [hpr]; rfl) fun e he =>
      hs.right h.toOrdered (hall ▸ he)).bind fun _ _ => ?_
    rw [List.getElem?_eq_getElem hlt]
    trivial

section
omit [Payload π]

theorem findSeparatorLeaf_contained {n : BTreeNode π} (h : Ordered n) :
    Contained (fun info => ∃ sep, FoundSeparator n info sep) n.findSeparatorLeaf := by
  by_cases hc : 1 < n.count
  · obtain ⟨info, sep, hinfo, hf⟩ := findSeparatorLeaf_spec h.sorted hc
    exact Yields.of_ok hinfo ⟨sep, hf⟩
  · rw [findSeparatorLeaf, ensure, if_neg hc]
    exact stops_assertion

end

theorem insertSlot_contained {n : BTreeNode π} (h : WF n) {key : Bytes} (payload : π)
    (hk : InFences n.getLowerFence n.getUpperFence key) : Contained (fun _ => True) (n.insertSlot key payload) := by
  rw [insertSlot, lowerBound_spec h hk, ok_bind]
  refine contained_check stops_abort fun _ => ?_
  refine Yields.bind (P := fun _ => True) ?_ fun _ _ => trivial
  rw [storeKeyValue, ensure_of (h.prefixLength_le_key hk), ok_bind]
  exact contained_check stops_pageOverflow fun _ => contained_check stops_pageOverflow fun _ => trivial

theorem insertChild_contained {n : BTreeNode π} (h : WF n) {key : Bytes} (payload : π)
    (hk : InFences n.getLowerFence n.getUpperFence key) :
    Contained (fun _ => True) (n.insertChild key payload) := by
  rw [insertChild, spaceNeeded, ensure_of (h.prefixLength_le_key hk), ok_bind, pure_bind]
  obtain ⟨m, hm, hw, hs, -⟩ := requestSpaceFor_spec h
    (slotSize + (key.length - n.prefixLength) + Payload.len payload)
  rw [hm, ok_bind]
  dsimp only
  split_ifs
  · exact (insertSlot_contained hw payload (by rwa [hs.lower, hs.upper])).bind fun _ _ => trivial
  · trivial

end BTreeNode

end BtreeRedis
