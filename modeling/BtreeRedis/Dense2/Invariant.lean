import BtreeRedis.Dense2.Insert

/-!
# Runs of inserts into a dense leaf with records

A leaf that has just been made holds the entries of the basic one, and its records lie apart from
each other. An insert keeps that if its record fits below the others, or if it is refused and had
nothing to give up. Every other insert breaks it: one that compacts the leaf fails, one that is
refused behind a lost record has lost it, and one of another length turns the leaf into a basic
one without its entries.
-/

namespace BtreeRedis

open LexOrder SortedAssoc BigEndian Memory

namespace Dense2Node

variable {d e : Dense2Node} {key payload : Bytes} {i : ℕ}

theorem Placed.lowest (h : Placed d i payload e) : IsLeast {o | o ∈ e.live} e.dataOffset := by
  have hend := h.recorded.slots_end
  have hpos : e.slotAt i ≠ 0 := by
    rw [h.slotAt]
    simp only [slotEndOffset, recordSlotsOffset] at hend
    omega
  exact ⟨h.slotAt ▸ slotAt_mem_live hpos, fun o ho => (h.recorded.inside ho).1⟩

theorem Placed.mem_entries (h : Placed d i payload e) (hd : Windowed d) (hi : i < d.slotCount) {x : Bytes × Bytes} :
    x ∈ e.entries ↔ x = (d.slotKey i, payload) ∨ x ∈ d.entries ∧ x.1 ≠ d.slotKey i := by
  simp only [Dense2Node.mem_entries, h.framed.slotCount, h.framed.slotKey, h.payloadAt]
  constructor
  · rintro ⟨j, hj, hval, hkey⟩
    by_cases hji : j = i
    · rw [if_pos hji] at hval
      refine Or.inl (Prod.ext ?_ (Option.some.inj hval).symm)
      rw [← hkey, hji]
    · rw [if_neg hji] at hval
      refine Or.inr ⟨⟨j, hj, hval, hkey⟩, fun he => hji ?_⟩
      exact hd.slotKey_inj hj hi (hkey.trans he)
  · rintro (rfl | ⟨⟨j, hj, hval, hkey⟩, hne⟩)
    · exact ⟨i, hi, if_pos rfl, rfl⟩
    · refine ⟨j, hj, ?_, hkey⟩
      rw [if_neg fun hji => hne (by rw [← hkey, hji])]
      exact hval

theorem Windowed.arrayIndex_spec (h : Windowed d) {pre rest : Bytes} (hl : (pre ++ rest).length = d.fullKeyLen)
    (hp : d.prefixLength = pre.length) (hk : InFences d.lowerFence d.upperFence (pre ++ rest)) :
    ∃ i, i < d.slotCount ∧ d.slotKey i = pre ++ rest ∧
      arrayIndex (getNumericPart pre d.fullKeyLen) (getNumericPart rest (d.fullKeyLen - d.prefixLength)) d.arrayStart =
        i := by
  obtain ⟨i, hi, -, hkey⟩ := h.keyToIndex_of_inFences hk hl
  have hnum := h.number_slotKey hi
  rw [hkey] at hnum
  have hlen : pre.length + rest.length = d.fullKeyLen := by rw [← hl, List.length_append]
  have hrest : d.fullKeyLen - d.prefixLength = rest.length := by omega
  refine ⟨i, hi, hkey, ?_⟩
  have hge : d.arrayStart ≤ getNumericPart (pre ++ rest) (pre.length + rest.length) := by
    rw [hlen, hnum]
    exact Nat.le_add_right _ _
  have hindex := DenseNode.arrayIndex_eq hge
  rw [hlen, hnum] at hindex
  rw [hrest, hindex]
  omega

theorem foldlM_fillSlot {pre : Bytes} {ss : List (Slot Bytes)} (h : WF d) (hp : d.prefixLength = pre.length)
    (hlen : ∀ t ∈ ss, (pre ++ t.key).length = d.fullKeyLen)
    (hin : ∀ t ∈ ss, InFences d.lowerFence d.upperFence (pre ++ t.key)) (hnd : (ss.map Slot.key).Nodup)
    (hnew : ∀ t ∈ ss, pre ++ t.key ∉ keys d.entries)
    (hroom : d.slotEndOffset + (ss.map fun t => t.payload.length + 2).sum ≤ d.dataOffset) :
    ∃ e, ss.foldlM (fillSlot (getNumericPart pre d.fullKeyLen)) d = .ok e ∧ WF e ∧ Framed d e ∧
      (∀ x, x ∈ e.entries ↔ x ∈ d.entries ∨ ∃ t ∈ ss, x = (pre ++ t.key, t.payload)) ∧
      (ss ≠ [] → IsLeast {o | o ∈ e.live} e.dataOffset) := by
  induction ss generalizing d with
  | nil =>
    refine ⟨d, rfl, h, .refl d, fun x => ?_, fun hne => absurd rfl hne⟩
    exact ⟨Or.inl, fun hx => hx.resolve_right (by rintro ⟨t, ht, -⟩; cases ht)⟩
  | cons s ss ih =>
    rw [List.map_cons, List.sum_cons] at hroom
    rw [List.map_cons, List.nodup_cons] at hnd
    obtain ⟨i, hi, hkey, hindex⟩ := h.arrayIndex_spec (hlen s List.mem_cons_self) hp (hin s List.mem_cons_self)
    have hfree : d.slotAt i = 0 := by
      by_contra hne
      apply hnew s List.mem_cons_self
      have hsome : d.payloadAt i ≠ none := fun hn => hne (payloadAt_eq_none.mp hn)
      obtain ⟨val, hval⟩ := Option.ne_none_iff_exists'.mp hsome
      exact List.mem_map.mpr ⟨(d.slotKey i, val), Dense2Node.mem_entries.mpr ⟨i, hi, hval, rfl⟩, hkey⟩
    obtain ⟨e, he, hplaced⟩ := insertSlotWithSpace_spec h.toRecorded s.payload hi hfree (by omega)
    have hframed := hplaced.framed
    have hoff := hplaced.dataOffset
    have hend := hframed.slotEndOffset
    have hmem := fun x => hplaced.mem_entries (x := x) h.toWindowed hi
    obtain ⟨f, hf, hwf, hframed', hmem', hleast⟩ := ih (h.placed hplaced) (hframed.prefixLength.trans hp)
      (fun t ht => (hlen t (List.mem_cons_of_mem s ht)).trans hframed.fullKeyLen.symm)
      (fun t ht => by
        rw [hframed.lowerFence, hframed.upperFence]
        exact hin t (List.mem_cons_of_mem s ht))
      hnd.2
      (fun t ht hmemt => by
        obtain ⟨x, hx, hxk⟩ := List.mem_map.mp hmemt
        rcases (hmem x).mp hx with rfl | ⟨hx, -⟩
        · have hsame : t.key = s.key := (List.append_cancel_left (hkey.symm.trans hxk)).symm
          exact hnd.1 (hsame ▸ List.mem_map_of_mem ht)
        · exact hnew t (List.mem_cons_of_mem s ht) (hxk ▸ List.mem_map_of_mem hx))
      (by omega)
    refine ⟨f, ?_, hwf, hframed.trans hframed', fun x => ?_, fun _ => ?_⟩
    · rw [List.foldlM_cons, fillSlot, hindex, he, ok_bind, ← hframed.fullKeyLen]
      exact hf
    · rw [hmem', hmem]
      constructor
      · rintro ((rfl | ⟨hx, -⟩) | ⟨t, ht, rfl⟩)
        · exact Or.inr ⟨s, List.mem_cons_self, by rw [hkey]⟩
        · exact Or.inl hx
        · exact Or.inr ⟨t, List.mem_cons_of_mem s ht, rfl⟩
      · rintro (hx | ⟨t, ht, rfl⟩)
        · refine Or.inl (Or.inr ⟨hx, fun hxk => ?_⟩)
          exact hnew s List.mem_cons_self (hkey ▸ hxk ▸ List.mem_map_of_mem hx)
        · rcases List.mem_cons.mp ht with rfl | ht
          · exact Or.inl (Or.inl (by rw [hkey]))
          · exact Or.inr ⟨t, ht, rfl⟩
    · cases ss with
      | nil =>
        obtain rfl := Except.ok.inj hf
        exact hplaced.lowest
      | cons t ss => exact hleast (List.cons_ne_nil t ss)

theorem upper_agrees {n : BTreeNode Bytes} (h : n.WF) {keyLen : ℕ} (hlt : n.getLowerFence < n.getUpperFence)
    (hin : upperOutsideRange n keyLen = false) :
    keyLen ≤ n.getUpperFence.length + maxNumericPartLen ∧
      n.getLowerFence.take (computeNumericPrefixLength keyLen) =
        n.getUpperFence.take (computeNumericPrefixLength keyLen) := by
  have hcommon := take_commonPrefix_eq n.getLowerFence n.getUpperFence
  rw [← h.prefixLen] at hcommon
  rw [upperOutsideRange, decide_eq_false_iff_not, not_not] at hin
  set stop := min n.getUpperFence.length (keyLen - maxNumericPartLen) with hstop
  -- Up to `stop` the fences have the same bytes.
  have hsame : n.getUpperFence.take stop = n.getLowerFence.take stop := by
    have hswap : ∀ l : Bytes, (l.take stop).take n.prefixLength = (l.take n.prefixLength).take stop := fun l => by
      rw [List.take_take, List.take_take, Nat.min_comm]
    have hfront : (n.getUpperFence.take stop).take n.prefixLength =
        (n.getLowerFence.take stop).take n.prefixLength := by
      rw [hswap, hswap, hcommon]
    rw [← List.take_append_drop n.prefixLength (n.getUpperFence.take stop), hin, hfront, List.take_append_drop]
  have hlong : keyLen - maxNumericPartLen ≤ n.getUpperFence.length := by
    by_contra hshort
    have hstop' : stop = n.getUpperFence.length := by omega
    rw [hstop', List.take_length] at hsame
    have hpre : n.getUpperFence <+: n.getLowerFence := hsame ▸ List.take_prefix _ _
    exact absurd hlt (not_lt.mpr (le_of_isPrefix hpre))
  have hstop' : stop = computeNumericPrefixLength keyLen := by
    rw [numericPrefixLength_eq]
    omega
  exact ⟨by omega, by rw [← hstop', hsame]⟩

structure Densified (n : BTreeNode Bytes) (d : Dense2Node) : Prop where
  wf : WF d
  lower : d.lowerFence = n.getLowerFence
  upper : d.upperFence = n.getUpperFence
  entries : d.entries = n.entries
  lowest : IsLeast {o | o ∈ d.live} d.dataOffset

theorem WF.recount (h : WF d) (count : ℕ) : WF { d with occupiedCount := count } :=
  ⟨⟨h.full_pos, h.lower_len, h.upper_len, h.start, h.stop, h.agree, h.prefixLen, h.fences⟩,
    ⟨h.slots_len, h.slots_end, h.carved, h.used, h.room⟩, h.slack⟩

structure Built (n : BTreeNode Bytes) (page : ℕ → Byte) (s : Slot Bytes) (ss : List (Slot Bytes)) (start stop : ℕ)
    (d : Dense2Node) : Prop where
  slots : n.slots = s :: ss
  lower_len : s.key.length + n.prefixLength ≤ n.getLowerFence.length + maxNumericPartLen
  upper_ne : n.getUpperFence ≠ []
  inside : upperOutsideRange n (s.key.length + n.prefixLength) = false
  start_eq : leastGreaterKey n.getLowerFence (s.key.length + n.prefixLength) = .ok start
  stop_eq : leastGreaterKey n.getUpperFence (s.key.length + n.prefixLength) = .ok stop
  start_lt : start < stop
  lengths : ∀ t ∈ n.slots, t.key.length = s.key.length
  room : recordSlotsOffset + 2 * (stop - start) + (n.slots.map fun t => t.payload.length).sum + 2 * n.count ≤
    fencesStart n.getLowerFence.length n.getUpperFence.length (s.key.length + n.prefixLength)
  filled : ∃ e, n.slots.foldlM (fillSlot (getNumericPart n.getPrefix (s.key.length + n.prefixLength)))
    (blank n.getLowerFence n.getUpperFence n.prefixLength (s.key.length + n.prefixLength) start (stop - start) page) =
      .ok e ∧ d = { e with occupiedCount := n.count }

theorem densify2_eq_some {n : BTreeNode Bytes} {page : ℕ → Byte} (hd : densify2 n page = .ok (some d)) :
    ∃ s ss start stop, Built n page s ss start stop d := by
  unfold densify2 at hd
  split at hd
  · cases hd
  · next s ss hs =>
    dsimp only at hd
    split_ifs at hd with hlow hupp hout hother
    · cases hd
    · cases hd
    · cases hd
    · simp only [bind_eq_ok, ite_self] at hd
      obtain ⟨start, -, stop, -, -, -, hd⟩ := hd
      cases hd
    · simp only [bind_eq_ok, ensure_eq_ok, exists_const] at hd
      obtain ⟨start, hstart, stop, hstop, hlt, hd⟩ := hd
      split_ifs at hd with hbig hspace
      · cases hd
      · cases hd
      · simp only [bind_eq_ok, pure_eq_ok, Option.some.injEq] at hd
        obtain ⟨e, he, rfl⟩ := hd
        refine ⟨s, ss, start, stop, hs, not_lt.mp hlow, fun hnil => hupp (by rw [hnil]; rfl),
          Bool.eq_false_of_not_eq_true hout, hstart, hstop, hlt, fun t ht => ?_, not_lt.mp hspace, e, he, rfl⟩
        rcases List.mem_cons.mp (hs ▸ ht) with rfl | ht
        · rfl
        · have hany := List.any_eq_false.mp (Bool.eq_false_of_not_eq_true hother) t ht
          simpa using hany

section
variable {n : BTreeNode Bytes} {page : ℕ → Byte} {s : Slot Bytes} {ss : List (Slot Bytes)} {start stop : ℕ}

theorem Built.pos (hb : Built n page s ss start stop d) : 0 < s.key.length + n.prefixLength := by
  by_contra hzero
  have hstart := hb.start_eq
  have hstop := hb.stop_eq
  have hlt := hb.start_lt
  have hz : s.key.length + n.prefixLength = 0 := by omega
  rw [hz] at hstart hstop
  simp only [leastGreaterKey, bind_eq_ok, ensure_eq_ok, exists_const, pure_eq_ok, Nat.zero_le, if_true,
    getNumericPart, List.take_zero, List.length_nil, List.drop_nil, value_nil, Nat.zero_mul, Nat.zero_mod,
    ite_self] at hstart hstop
  omega

theorem Built.length (hb : Built n page s ss start stop d) (h : n.WF) {t : Slot Bytes} (ht : t ∈ n.slots) :
    (n.getPrefix ++ t.key).length = s.key.length + n.prefixLength := by
  rw [List.length_append, h.length_getPrefix, hb.lengths t ht, Nat.add_comm]

theorem Built.fences (hb : Built n page s ss start stop d) (h : n.WF) : n.getLowerFence < n.getUpperFence := by
  have hsmem : s ∈ n.slots := hb.slots ▸ List.mem_cons_self
  have hin : InFences n.getLowerFence n.getUpperFence (n.getPrefix ++ s.key) :=
    h.inFences s.entry (List.mem_map_of_mem hsmem)
  refine lt_of_lt_of_le ?_ (hin.2.resolve_left hb.upper_ne)
  refine hin.1.elim (fun he => ?_) id
  rw [he]
  refine pos_of_ne_nil fun hnil => ?_
  have hl := hb.length h hsmem
  have hpos := hb.pos
  rw [hnil, List.length_nil] at hl
  omega

theorem Built.count_pos (hb : Built n page s ss start stop d) : 1 ≤ n.count := by
  rw [BTreeNode.count, hb.slots]
  exact Nat.succ_pos _

theorem Built.blank_wf (hb : Built n page s ss start stop d) (h : n.WF) :
    WF (blank n.getLowerFence n.getUpperFence n.prefixLength (s.key.length + n.prefixLength) start (stop - start)
      page) := by
  have hfences := hb.fences h
  have hcount := hb.count_pos
  have hroom := hb.room
  have hfour : maxNumericPartLen = 4 := rfl
  have hlow := hb.lower_len
  obtain ⟨hupp, hagree⟩ := upper_agrees h hfences hb.inside
  refine ⟨⟨hb.pos, hb.lower_len, hupp, hb.start_eq, ?_, hagree, h.prefixLen, hfences⟩, ?_, ?_⟩
  · change leastGreaterKey n.getUpperFence (s.key.length + n.prefixLength) = .ok (start + (stop - start))
    rw [Nat.add_sub_of_le hb.start_lt.le]
    exact hb.stop_eq
  · exact blank_recorded _ _ _ (by omega)
  · change recordSlotsOffset + 2 * (stop - start) + (s.key.length + n.prefixLength - n.getLowerFence.length) ≤
      fencesStart n.getLowerFence.length n.getUpperFence.length (s.key.length + n.prefixLength) + 2
    omega

theorem sum_recordLen (ss : List (Slot Bytes)) :
    (ss.map fun t => t.payload.length + 2).sum = (ss.map fun t => t.payload.length).sum + 2 * ss.length := by
  induction ss with
  | nil => rfl
  | cons t ts ih =>
    rw [List.map_cons, List.sum_cons, ih, List.map_cons, List.sum_cons, List.length_cons]
    omega

end

theorem densify2_spec {n : BTreeNode Bytes} (h : n.WF) {page : ℕ → Byte} (hd : densify2 n page = .ok (some d)) :
    Densified n d := by
  obtain ⟨s, ss, start, stop, hb⟩ := densify2_eq_some hd
  obtain ⟨e, he, rfl⟩ := hb.filled
  have hroom := hb.room
  have hsum := sum_recordLen n.slots
  have hlen : n.slots.length = n.count := rfl
  have hwf := hb.blank_wf h
  have hempty : (blank n.getLowerFence n.getUpperFence n.prefixLength (s.key.length + n.prefixLength) start
      (stop - start) page).entries = [] := by
    rw [Dense2Node.entries, List.filterMap_eq_nil_iff]
    intro i _
    rw [entryAt, payloadAt_eq_none.mpr (slotAt_blank i)]
    rfl
  have hnd : (n.slots.map Slot.key).Nodup := by
    rw [← DenseNode.content_map_key]
    exact h.sorted.imp ne_of_lt
  obtain ⟨e', he', hwf', hframed, hmem, hleast⟩ := foldlM_fillSlot hwf h.length_getPrefix.symm
    (fun t ht => hb.length h ht) (fun t ht => h.inFences t.entry (List.mem_map_of_mem ht)) hnd
    (fun t _ => by rw [hempty]; exact List.not_mem_nil)
    (show recordSlotsOffset + 2 * (stop - start) + (n.slots.map fun t => t.payload.length + 2).sum ≤
      fencesStart n.getLowerFence.length n.getUpperFence.length (s.key.length + n.prefixLength) by omega)
  obtain rfl : e' = e := Except.ok.inj (he'.symm.trans he)
  refine ⟨hwf'.recount _, hframed.lowerFence, hframed.upperFence, ?_,
    hleast (by rw [hb.slots]; exact List.cons_ne_nil _ _)⟩
  refine ascending_ext (hwf'.recount n.count).sorted_entries h.sorted_entries fun x => ?_
  have hx : x ∈ Dense2Node.entries { e' with occupiedCount := n.count } ↔ x ∈ e'.entries := Iff.rfl
  rw [hx, hmem, hempty, BTreeNode.entries, BTreeNode.content, List.map_map]
  simp [Slot.entry, eq_comm]

theorem sub16_eq {a b : ℕ} (hb : b ≤ a) (ha : a < 2 ^ 16) : sub16 a b = a - b := by
  rw [sub16]
  omega

structure Cleared (d : Dense2Node) (i : ℕ) (e : Dense2Node) : Prop where
  wf : WF e
  framed : Framed d e
  slotAt : e.slotAt i = 0
  payloadAt : ∀ j, e.payloadAt j = if j = i then none else d.payloadAt j
  dataOffset : e.dataOffset = d.dataOffset
  spaceUsed : e.spaceUsed = d.spaceUsed - ((d.payloadAt i).map fun val => val.length + 2).getD 0

theorem clearSlot_spec (h : WF d) (hi : i < d.slotCount) : Cleared d i (d.clearSlot i) := by
  rw [clearSlot]
  split_ifs with hzero
  · refine ⟨h, .refl d, hzero, fun j => ?_, rfl, ?_⟩
    · split_ifs with hj
      · rw [hj, payloadAt_eq_none, hzero]
      · rfl
    · rw [payloadAt_eq_none.mpr hzero]
      rfl
  · have hlen : i < d.slots.length := by rw [h.slots_len]; exact hi
    have hfences := fencesOffset_le d
    have hroom := h.room
    have hpage : pageSize = 4096 := rfl
    set slots := d.slots.set i 0 with hslots
    have hback : slots.set i (d.slotAt i) = d.slots := by
      rw [hslots, List.set_set, slotAt, List.getD_eq_getElem _ _ hlen, List.set_getElem_self]
    have hlive : d.live.Perm (d.slotAt i :: slots.filter (· ≠ 0)) := by
      have hset : i < slots.length := by
        rw [hslots, List.length_set]
        exact hlen
      have hfree : slots.getD i 0 = 0 := by rw [hslots, slotAt_set hlen, if_pos rfl]
      have hperm := filter_set hset hfree hzero
      rwa [hback] at hperm
    have hregions : d.regions.Perm (⟨d.slotAt i, d.slotValLen i + 2⟩ ::
        (slots.filter (· ≠ 0)).map fun o => ⟨o, load16 d.page o + 2⟩) := hlive.map _
    have hused := h.used
    rw [(hregions.map Region.length).sum_eq, List.map_cons, List.sum_cons] at hused
    change d.spaceUsed = d.slotValLen i + 2 + _ at hused
    have hsub : sub16 d.spaceUsed (d.slotValLen i + 2) = d.spaceUsed - (d.slotValLen i + 2) :=
      sub16_eq (by omega) (by omega)
    have hat : ∀ j, slots.getD j 0 = if j = i then 0 else d.slotAt j := fun j => slotAt_set hlen j 0
    refine ⟨⟨⟨h.full_pos, h.lower_len, h.upper_len, h.start, h.stop, h.agree, h.prefixLen, h.fences⟩, ?_, h.slack⟩,
      ⟨rfl, rfl, rfl, rfl, rfl, rfl⟩, (hat i).trans (if_pos rfl), fun j => ?_, rfl, ?_⟩
    · refine ⟨(List.length_set ..).trans h.slots_len, h.slots_end, ?_, ?_, ?_⟩
      · exact (h.carved.perm hregions).sublist (List.sublist_cons_self _ _)
      · change sub16 d.spaceUsed (d.slotValLen i + 2) =
          (((slots.filter (· ≠ 0)).map fun o => (⟨o, load16 d.page o + 2⟩ : Region)).map Region.length).sum
        omega
      · change d.dataOffset + sub16 d.spaceUsed (d.slotValLen i + 2) ≤ d.fencesOffset
        omega
    · change (if slots.getD j 0 = 0 then none else some (record d.page (slots.getD j 0))) = _
      rw [hat]
      by_cases hj : j = i
      · rw [if_pos hj, if_pos hj, if_pos rfl]
      · rw [if_neg hj, if_neg hj]
        rfl
    · change sub16 d.spaceUsed (d.slotValLen i + 2) = _
      rw [hsub, payloadAt, if_neg hzero, Option.map_some, Option.getD_some, length_record, slotValLen]

theorem insertSlotWithSpace_fails (h : ¬ payload.length + 2 ≤ d.dataOffset - d.slotEndOffset) (i : ℕ) (e : Dense2Node) :
    d.insertSlotWithSpace i payload ≠ .ok e := by
  intro hr
  simp only [insertSlotWithSpace, bind_eq_ok, ensure_eq_ok, exists_const] at hr
  omega

/-- The record goes below the others, or the leaf refuses it and has given up nothing. -/
def Fitting (d : Dense2Node) (key payload : Bytes) : Prop :=
  payload.length + 2 ≤ d.dataOffset - d.slotEndOffset ∨
    key ∉ keys d.entries ∧ d.fencesOffset < d.slotEndOffset + d.spaceUsed + payload.length + 2

instance (d : Dense2Node) (key payload : Bytes) : Decidable (d.Fitting key payload) :=
  inferInstanceAs (Decidable (_ ∨ _))

structure Keeps (d : Dense2Node) (m : Bytes → Option Bytes) : Prop where
  wf : WF d
  lowest : IsLeast {o | o ∈ d.live} d.dataOffset
  entries : ∀ key, d.entries.lookup key = m key
  lookup : ∀ key, InFences d.lowerFence d.upperFence key → key.length = d.fullKeyLen → d.lookup key = .ok (m key)

theorem WF.keeps (h : WF d) (hl : IsLeast {o | o ∈ d.live} d.dataOffset) : Keeps d fun key => d.entries.lookup key :=
  ⟨h, hl, fun _ => rfl, fun _ hk hlen => h.lookup_spec hk hlen⟩

theorem mem_keys_slotKey (h : WF d) (hi : i < d.slotCount) : d.slotKey i ∈ keys d.entries ↔ d.slotAt i ≠ 0 := by
  rw [← lookup_isSome, h.lookup_slotKey hi, payloadAt]
  split_ifs with hzero
  · exact iff_of_false Bool.false_ne_true fun hne => hne hzero
  · exact iff_of_true rfl hzero

theorem insertMatching_room {m : Bytes → Option Bytes} (h : Keeps d m) (hi : i < d.slotCount)
    (hkey : d.slotKey i = key) (hroom : payload.length + 2 ≤ d.dataOffset - d.slotEndOffset) :
    ∃ e, d.insertMatching key payload = .ok (true, e) ∧ Keeps e (Function.update m key (some payload)) := by
  have hindex := h.wf.keyToIndex_slotKey hi
  have hclear := clearSlot_spec h.wf hi
  have hend := hclear.framed.slotEndOffset
  have hoff := hclear.dataOffset
  have hdata := h.wf.slots_end
  obtain ⟨e, he, hplaced⟩ := insertSlotWithSpace_spec hclear.wf.toRecorded payload
    (hclear.framed.slotCount ▸ hi) hclear.slotAt (by omega)
  have hwf := hclear.wf.placed hplaced
  have hframed := hclear.framed.trans hplaced.framed
  have hkeeps : Keeps e (Function.update m key (some payload)) := by
    have hentries : ∀ other, e.entries.lookup other = Function.update m key (some payload) other := by
      intro other
      by_cases hother : ∃ j, j < d.slotCount ∧ d.slotKey j = other
      · obtain ⟨j, hj, rfl⟩ := hother
        have hlook := hwf.lookup_slotKey (hframed.slotCount ▸ hj)
        rw [hframed.slotKey] at hlook
        rw [hlook, hplaced.payloadAt, hclear.payloadAt]
        by_cases hji : j = i
        · rw [if_pos hji, hji, hkey, Function.update_self]
        · rw [if_neg hji, if_neg hji, ← h.wf.lookup_slotKey hj, h.entries, Function.update_of_ne]
          exact fun he => hji (h.wf.slotKey_inj hj hi (he.trans hkey.symm))
      · have hnot : ∀ {f : Dense2Node}, Framed d f → other ∉ keys f.entries := by
          intro f hf hmem
          obtain ⟨x, hx, hxk⟩ := List.mem_map.mp hmem
          obtain ⟨j, hj, -, hjk⟩ := Dense2Node.mem_entries.mp hx
          rw [hf.slotCount] at hj
          rw [hf.slotKey, hxk] at hjk
          exact hother ⟨j, hj, hjk⟩
        have hne : other ≠ key := fun he => hother ⟨i, hi, hkey.trans he.symm⟩
        rw [lookup_eq_none (hnot hframed), Function.update_of_ne hne, ← h.entries, lookup_eq_none (hnot (.refl d))]
    refine ⟨hwf, hplaced.lowest, hentries, fun other hk hl => ?_⟩
    rw [hwf.lookup_spec hk hl, hentries]
  refine ⟨{ e with occupiedCount := (e.occupiedCount + 1) % 2 ^ 16 }, ?_, ?_⟩
  · have hspace : (d.clearSlot i).requestSpaceFor payload.length = (true, d.clearSlot i) := if_pos (by omega)
    rw [← hkey, insertMatching, hindex, ok_bind]
    simp only [hspace, if_true, he, ok_bind]
    rfl
  · exact ⟨hkeeps.wf.recount _, hkeeps.lowest, hkeeps.entries, hkeeps.lookup⟩

theorem insertMatching_iff {m : Bytes → Option Bytes} (h : Keeps d m) (hk : InFences d.lowerFence d.upperFence key)
    (hl : key.length = d.fullKeyLen) :
    (∃ r e, d.insertMatching key payload = .ok (r, e) ∧
      Keeps e (if r then Function.update m key (some payload) else m)) ↔ d.Fitting key payload := by
  obtain ⟨i, hi, hindex, hkey⟩ := h.wf.keyToIndex_of_inFences hk hl
  have hclear := clearSlot_spec h.wf hi
  have hend := hclear.framed.slotEndOffset
  have hfences := hclear.framed.fencesOffset
  have hoff := hclear.dataOffset
  have hspace := hclear.spaceUsed
  have hrun : ∀ {space c}, (d.clearSlot i).requestSpaceFor payload.length = (space, c) →
      d.insertMatching key payload = if space then do
          let c ← c.insertSlotWithSpace i payload
          pure (true, { c with occupiedCount := (c.occupiedCount + 1) % 2 ^ 16 })
        else pure (false, c) := by
    intro space c hgrant
    simp only [insertMatching, hindex, ok_bind, hgrant]
  have hmem : key ∈ keys d.entries ↔ d.slotAt i ≠ 0 := hkey ▸ mem_keys_slotKey h.wf hi
  by_cases hroom : payload.length + 2 ≤ d.dataOffset - d.slotEndOffset
  · obtain ⟨e, he, hkeeps⟩ := insertMatching_room h hi hkey hroom
    exact iff_of_true ⟨true, e, he, hkeeps⟩ (Or.inl hroom)
  · have hfull : ¬ payload.length + 2 ≤ (d.clearSlot i).dataOffset - (d.clearSlot i).slotEndOffset := by
      omega
    rw [Fitting, or_iff_right hroom]
    by_cases hcompact : (d.clearSlot i).slotEndOffset + (d.clearSlot i).spaceUsed + payload.length + 2 ≤
        (d.clearSlot i).fencesOffset
    · -- After the compaction there is no more room below the records than before.
      obtain ⟨c, hgrant, hsame⟩ : ∃ c, (d.clearSlot i).requestSpaceFor payload.length = (true, c) ∧
          c.dataOffset - c.slotEndOffset = (d.clearSlot i).dataOffset - (d.clearSlot i).slotEndOffset := by
        rw [requestSpaceFor, if_neg hfull, if_pos hcompact]
        exact ⟨_, rfl, rfl⟩
      refine iff_of_false ?_ ?_
      · rintro ⟨r, e, he, -⟩
        rw [hrun hgrant, if_pos rfl] at he
        obtain ⟨f, hf, -⟩ := bind_eq_ok.mp he
        exact insertSlotWithSpace_fails (hsame ▸ hfull) i f hf
      · rintro ⟨hnot, hfull⟩
        have hzero : d.slotAt i = 0 := not_not.mp fun hne => hnot (hmem.mpr hne)
        rw [payloadAt_eq_none.mpr hzero] at hspace
        simp only [Option.map_none, Option.getD_none, Nat.sub_zero] at hspace
        omega
    · have hrun' : d.insertMatching key payload = .ok (false, d.clearSlot i) := by
        refine (hrun ?_).trans (if_neg Bool.false_ne_true)
        rw [requestSpaceFor, if_neg hfull, if_neg hcompact]
      constructor
      · rintro ⟨r, e, he, hkeeps⟩
        obtain ⟨rfl, rfl⟩ := Prod.mk.inj (Except.ok.inj (hrun'.symm.trans he))
        have hlost := hkeeps.entries key
        have hlook := hclear.wf.lookup_slotKey (hclear.framed.slotCount ▸ hi)
        rw [hclear.framed.slotKey, hkey, payloadAt_eq_none.mpr hclear.slotAt] at hlook
        rw [hlook, if_neg Bool.false_ne_true, ← h.entries key, ← hkey, h.wf.lookup_slotKey hi] at hlost
        have hzero := payloadAt_eq_none.mp hlost.symm
        refine ⟨fun hm => hmem.mp hm hzero, ?_⟩
        rw [hlost.symm] at hspace
        simp only [Option.map_none, Option.getD_none, Nat.sub_zero] at hspace
        omega
      · rintro ⟨hnot, -⟩
        have hzero : d.slotAt i = 0 := not_not.mp fun hne => hnot (hmem.mpr hne)
        have hsame : d.clearSlot i = d := if_pos hzero
        rw [hsame] at hrun'
        exact ⟨false, d, hrun', h⟩

theorem Keeps.exists_key {m : Bytes → Option Bytes} (h : Keeps d m) : ∃ key, m key ≠ none := by
  obtain ⟨hslot, hne⟩ := mem_live.mp h.lowest.1
  obtain ⟨i, hi, hget⟩ := List.mem_iff_getElem.mp hslot
  have hat : d.slotAt i = d.dataOffset := (List.getD_eq_getElem _ _ hi).trans hget
  have hcount : i < d.slotCount := h.wf.slots_len ▸ hi
  refine ⟨d.slotKey i, ?_⟩
  rw [← h.entries, h.wf.lookup_slotKey hcount]
  exact fun hnone => hne (hat ▸ payloadAt_eq_none.mp hnone)

/-- No record is as long as all of them with their lengths. -/
theorem copyRecord_fails (h : WF d) (hi : i < d.slotCount) (dst b : BTreeNode Bytes) : d.copyRecord dst i ≠ .ok b := by
  intro hr
  simp only [copyRecord, bind_eq_ok, ensure_eq_ok, exists_const] at hr
  obtain ⟨⟨hne, hlen⟩, -⟩ := hr
  have hclear := (clearSlot_spec h hi).spaceUsed
  have hmem : (⟨d.slotAt i, d.slotValLen i + 2⟩ : Region) ∈ d.regions :=
    List.mem_map.mpr ⟨d.slotAt i, slotAt_mem_live hne, rfl⟩
  have hle := List.single_le_sum (fun _ _ => Nat.zero_le _) _ (List.mem_map_of_mem (f := Region.length) hmem)
  rw [← h.used] at hle
  change d.slotValLen i + 2 ≤ d.spaceUsed at hle
  omega

theorem convertToBasic_empty (h : WF d) {n : BTreeNode Bytes} (hn : d.convertToBasic = .ok n) : n.entries = [] := by
  simp only [convertToBasic, copyKeyValueRangeToBasic, bind_eq_ok, ensure_eq_ok, exists_const, pure_eq_ok] at hn
  obtain ⟨tmp, htmp, dst, ⟨-, -, dst', hdst, -, rfl⟩, rfl⟩ := hn
  obtain ⟨-, rfl⟩ := BTreeNode.setFences_init_eq_ok.mp htmp
  cases hbits : (List.range' 0 (d.slotCount - 0)).filter d.maskBit with
  | nil =>
    rw [hbits] at hdst
    obtain rfl := Except.ok.inj hdst
    rfl
  | cons i is =>
    have hi : i ∈ List.range' 0 (d.slotCount - 0) := List.mem_of_mem_filter (hbits ▸ List.mem_cons_self)
    rw [hbits, List.foldlM_cons, bind_eq_ok] at hdst
    obtain ⟨b, hb, -⟩ := hdst
    exact absurd hb (copyRecord_fails h (by simpa using hi) _ b)

theorem requestSpaceFor_framed (payloadLen : ℕ) : Framed d (d.requestSpaceFor payloadLen).2 := by
  rw [requestSpaceFor]
  split_ifs <;> exact ⟨rfl, rfl, rfl, rfl, rfl, rfl⟩

theorem insertMatching_framed {r : Bool} (h : d.insertMatching key payload = .ok (r, e)) : Framed d e := by
  rw [insertMatching, bind_eq_ok] at h
  obtain ⟨index, -, h⟩ := h
  have hpair : ∀ {r' : Bool}, (pure (r', d) : Except Fault (Bool × Dense2Node)) = .ok (r, e) → Framed d e := by
    intro r' he
    obtain ⟨-, rfl⟩ := Prod.mk.inj (Except.ok.inj he)
    exact .refl d
  cases index with
  | wrongLen => cases h
  | notNumericRange => exact hpair h
  | slightlyTooLarge => exact hpair h
  | farTooLarge => exact hpair h
  | index i =>
    have hclear : Framed d (d.clearSlot i) := by
      rw [clearSlot]
      split_ifs <;> exact ⟨rfl, rfl, rfl, rfl, rfl, rfl⟩
    have hspace := hclear.trans (requestSpaceFor_framed payload.length)
    dsimp only at h
    split_ifs at h
    · simp only [bind_eq_ok, insertSlotWithSpace, ensure_eq_ok, exists_const, pure_eq_ok, Prod.mk.injEq] at h
      obtain ⟨f, ⟨-, -, -, rfl⟩, -, rfl⟩ := h
      exact ⟨hspace.fullKeyLen, hspace.arrayStart, hspace.slotCount, hspace.lowerFence, hspace.upperFence,
        hspace.prefixLength⟩
    · obtain ⟨-, rfl⟩ := Prod.mk.inj (Except.ok.inj h)
      exact hspace

/-- The leaf keeps its map over a run of inserts, which ends where one of another length makes it a basic leaf with
the same map. -/
def InsertsRight (page : ℕ → Byte) : List (Bytes × Bytes) → Dense2Node → (Bytes → Option Bytes) → Prop
  | [], d, m => Keeps d m
  | (key, payload) :: calls, d, m => Keeps d m ∧
      if key.length ≠ d.fullKeyLen ∧ d.convertible then
        ∃ n, d.convertToBasic = .ok n ∧ ∀ other, n.entries.lookup other = m other
      else ∃ r e, d.insert key payload page = .ok (r, .dense2 e) ∧
        InsertsRight page calls e (if r then Function.update m key (some payload) else m)

/-- At every insert of the run, a key of the leaf's length fits, and one of another length finds the leaf too large
to become a basic one. -/
def InsertsFitting (page : ℕ → Byte) : List (Bytes × Bytes) → Dense2Node → Prop
  | [], _ => True
  | (key, payload) :: calls, d => (if key.length = d.fullKeyLen then d.Fitting key payload else ¬ d.convertible) ∧
      ∀ r e, d.insert key payload page = .ok (r, .dense2 e) → InsertsFitting page calls e

theorem InsertsRight.keeps {page : ℕ → Byte} {calls : List (Bytes × Bytes)} {m : Bytes → Option Bytes}
    (h : InsertsRight page calls d m) : Keeps d m := by
  cases calls with
  | nil => exact h
  | cons call calls => exact h.1

theorem Keeps.insertsRight_iff {page : ℕ → Byte} {calls : List (Bytes × Bytes)} {m : Bytes → Option Bytes}
    (h : Keeps d m) (hk : ∀ call ∈ calls, InFences d.lowerFence d.upperFence call.1) :
    InsertsRight page calls d m ↔ InsertsFitting page calls d := by
  induction calls generalizing d m with
  | nil => exact iff_of_true h trivial
  | cons call calls ih =>
    obtain ⟨key, payload⟩ := call
    have hkey : InFences d.lowerFence d.upperFence key := hk _ List.mem_cons_self
    have hpre : d.prefixLength ≤ key.length := h.wf.headed.prefixLength_le hkey
    have hcalls : ∀ {e : Dense2Node}, Framed d e → ∀ call ∈ calls, InFences e.lowerFence e.upperFence call.1 := by
      intro e hframed call hcall
      rw [hframed.lowerFence, hframed.upperFence]
      exact hk call (List.mem_cons_of_mem _ hcall)
    rw [InsertsRight, InsertsFitting, and_iff_right h]
    by_cases hl : key.length = d.fullKeyLen
    · have hinsert : ∀ {r : Bool} {e : Dense2Node}, d.insert key payload page = .ok (r, .dense2 e) ↔
          d.insertMatching key payload = .ok (r, e) := by
        intro r e
        rw [insert, ensure_of hpre, ok_bind, if_neg (not_not.mpr hl)]
        simp only [bind_eq_ok, pure_eq_ok, Prod.exists, Prod.mk.injEq, Dense2Leaf.dense2.injEq]
        exact ⟨fun ⟨_, _, he, hr, hd⟩ => hr ▸ hd ▸ he, fun he => ⟨r, e, he, rfl, rfl⟩⟩
      rw [if_neg fun hc => hc.1 hl, if_pos hl]
      simp only [hinsert]
      constructor
      · rintro ⟨r, e, he, hright⟩
        have hframed := insertMatching_framed he
        refine ⟨(insertMatching_iff h hkey hl).mp ⟨r, e, he, hright.keeps⟩, fun r' e' he' => ?_⟩
        obtain ⟨rfl, rfl⟩ := Prod.mk.inj (Except.ok.inj (he.symm.trans he'))
        exact (ih hright.keeps (hcalls hframed)).mp hright
      · rintro ⟨hfit, hrest⟩
        obtain ⟨r, e, he, hkeeps⟩ := (insertMatching_iff h hkey hl).mpr hfit
        exact ⟨r, e, he, (ih hkeeps (hcalls (insertMatching_framed he))).mpr (hrest r e he)⟩
    · rw [if_neg hl]
      by_cases hconv : d.convertible
      · rw [if_pos ⟨hl, hconv⟩]
        refine iff_of_false ?_ fun hc => hc.1 hconv
        rintro ⟨n, hn, hsame⟩
        obtain ⟨other, hother⟩ := h.exists_key
        rw [← hsame, convertToBasic_empty h.wf hn] at hother
        exact hother rfl
      · have hinsert : d.insert key payload page = .ok (false, .dense2 d) := by
          rw [insert, ensure_of hpre, ok_bind, if_pos hl, if_neg hconv]
          rfl
        rw [if_neg fun hc => hconv hc.2, and_iff_right hconv, hinsert]
        constructor
        · rintro ⟨r, e, he, hright⟩ r' e' he'
          cases he
          cases he'
          exact (ih h (hcalls (.refl d))).mp hright
        · exact fun hrest => ⟨false, d, rfl, (ih h (hcalls (.refl d))).mpr (hrest false d rfl)⟩

/-- From a leaf that `densify2` has made, a run of inserts between the fences keeps the map and the records apart
exactly if every insert fits. -/
theorem inserts_iff {n : BTreeNode Bytes} (h : n.WF) {page : ℕ → Byte} (hd : densify2 n page = .ok (some d))
    {calls : List (Bytes × Bytes)} (hk : ∀ call ∈ calls, InFences n.getLowerFence n.getUpperFence call.1) :
    InsertsRight page calls d (fun key => n.entries.lookup key) ↔ InsertsFitting page calls d := by
  have hdens := densify2_spec h hd
  have hkeeps := hdens.wf.keeps hdens.lowest
  rw [hdens.entries] at hkeeps
  refine hkeeps.insertsRight_iff ?_
  rw [hdens.lower, hdens.upper]
  exact hk

set_option maxRecDepth 20000 in
theorem threeRecords_densified : ∃ (n : BTreeNode Bytes) (d : Dense2Node), n.WF ∧
    n.requestSpaceFor (slotSize + 1 + 100) = .ok (false, n) ∧ densify2 n (fun _ => 0) = .ok (some d) ∧
    n.getLowerFence = [] ∧ n.getUpperFence = [3] ∧ [0] ∈ keys n.entries ∧ d.fullKeyLen = 1 ∧
    d.dataOffset - d.slotEndOffset = 159 := by
  have hempty : (BTreeNode.fenced true [] [3] : BTreeNode Bytes).WF :=
    (BTreeNode.fenced_holds true (Or.inr (by decide)) (by decide)).wf
  obtain ⟨a, ha, haw, -⟩ := BTreeNode.insertSlot_spec hempty (by decide : InFences [] [3] [0]) List.not_mem_nil
    (by decide +kernel : slotSize + (1 - 0) + Payload.len (List.replicate 1300 (0 : Byte)) ≤ _)
  obtain rfl : _ = a := Except.ok.inj ha
  obtain ⟨b, hb, hbw, -⟩ := BTreeNode.insertSlot_spec haw (by decide : InFences [] [3] [1]) (by decide +kernel)
    (by decide +kernel : slotSize + (1 - 0) + Payload.len (List.replicate 1300 (0 : Byte)) ≤ _)
  obtain rfl : _ = b := Except.ok.inj hb
  obtain ⟨c, hc, hcw, -⟩ := BTreeNode.insertSlot_spec hbw (by decide : InFences [] [3] [2]) (by decide +kernel)
    (by decide +kernel : slotSize + (1 - 0) + Payload.len (List.replicate 1300 (0 : Byte)) ≤ _)
  obtain rfl : _ = c := Except.ok.inj hc
  exact ⟨_, _, hcw, rfl, rfl, rfl, rfl, by decide +kernel, rfl, by decide +kernel⟩

/-- One payload of 100 bytes still fits. -/
theorem insertsRight_fourth : ∃ (n : BTreeNode Bytes) (d : Dense2Node), densify2 n (fun _ => 0) = .ok (some d) ∧
    InsertsRight (fun _ => 0) [([3], List.replicate 100 7)] d (fun key => n.entries.lookup key) := by
  obtain ⟨n, d, hn, -, hd, hlow, hupp, -, hlen, hspace⟩ := threeRecords_densified
  refine ⟨n, d, hd, (inserts_iff hn hd ?_).mpr ⟨?_, fun _ _ _ => trivial⟩⟩
  · rw [hlow, hupp]
    decide
  · rw [if_pos (by rw [hlen]; rfl), Fitting, hspace]
    exact Or.inl (by decide)

/-- The overwrite of a long payload by a shorter one, for which the leaf has to be compacted. -/
theorem not_insertsRight_shrinking :
    ¬ ∀ (n : BTreeNode Bytes) (page : ℕ → Byte) (d : Dense2Node) (calls : List (Bytes × Bytes)), n.WF →
      densify2 n page = .ok (some d) →
      (∀ call ∈ calls, InFences n.getLowerFence n.getUpperFence call.1 ∧ call.1.length = d.fullKeyLen) →
      InsertsRight page calls d fun key => n.entries.lookup key := by
  intro hall
  obtain ⟨n, d, hn, -, hd, hlow, hupp, hmem, hlen, hspace⟩ := threeRecords_densified
  have hcalls : ∀ call ∈ [(([0] : Bytes), List.replicate 200 (7 : Byte))],
      InFences n.getLowerFence n.getUpperFence call.1 ∧ call.1.length = d.fullKeyLen := by
    rw [hlow, hupp, hlen]
    decide
  have hdens := densify2_spec hn hd
  have hright := hall n _ d _ hn hd hcalls
  rw [← hdens.entries] at hright
  have hfit := ((hdens.wf.keeps hdens.lowest).insertsRight_iff fun call hcall => by
    rw [hdens.lower, hdens.upper]
    exact (hcalls call hcall).1).mp hright
  rw [InsertsFitting, if_pos (by rw [hlen]; rfl), Fitting, hspace] at hfit
  obtain ⟨hroom | ⟨hnot, -⟩, -⟩ := hfit
  · rw [List.length_replicate] at hroom
    omega
  · rw [hdens.entries] at hnot
    exact hnot hmem

end Dense2Node

end BtreeRedis
