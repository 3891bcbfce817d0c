import BtreeRedis.Dense.Convert

/-!
# Making a leaf dense

`densify1` turns a full basic leaf whose keys and payloads have one length each into an
array, provided the last key falls inside it. Every key then has an array slot of its
own, so that the fences and the entries stay.
-/

namespace BtreeRedis

open LexOrder SortedAssoc BigEndian

/-- The array index as `NumericPart` arithmetic computes it. -/
def arrayIndex (prefixNumericPart keyNumericPart arrayStart : ℕ) : ℕ :=
  (prefixNumericPart + keyNumericPart + (numericRange - arrayStart)) % numericRange

def zeroMask (slotCount : ℕ) : List Mask := List.replicate (maskWords slotCount) 0

namespace DenseNode

def blank (fullKeyLen arrayStart valLen slotCount : ℕ) (lower upper : Bytes) (prefixLength : ℕ) :
    DenseNode where
  fullKeyLen := fullKeyLen
  arrayStart := arrayStart
  valLen := valLen
  slotCount := slotCount
  occupiedCount := 0
  lowerFence := lower
  upperFence := upper
  prefixLength := prefixLength
  mask := zeroMask slotCount
  vals := List.replicate slotCount []

/-- The loop body of `densify1`. -/
def fillSlot (prefixNumericPart : ℕ) (d : DenseNode) (s : Slot Bytes) : Except Fault DenseNode := do
  let keyNumericPart := getNumericPart s.key (d.fullKeyLen - d.prefixLength)
  let index := arrayIndex prefixNumericPart keyNumericPart d.arrayStart
  let e ← d.setSlotPresent index
  pure { e with vals := d.vals.set index s.payload }

/-- Whether the last key leaves the array: by its numeric prefix or by its number. -/
def lastOutsideRange (n : BTreeNode Bytes) (lastKey : Bytes) (d : DenseNode) (prefixNumericPart : ℕ) :
    Bool :=
  decide (lastKey.take (d.fullKeyLen - maxNumericPartLen - n.prefixLength) ≠
    (n.getLowerFence.drop n.prefixLength).take (d.fullKeyLen - maxNumericPartLen - n.prefixLength)) ||
  decide (d.slotCount ≤
    arrayIndex prefixNumericPart (getNumericPart lastKey lastKey.length) d.arrayStart)

def densify1 (n : BTreeNode Bytes) : Except Fault (Option DenseNode) :=
  match n.slots with
  | [] => .error .assertion
  | s :: ss =>
    let fullKeyLen := s.key.length + n.prefixLength
    if n.getLowerFence.length + maxNumericPartLen < fullKeyLen then .ok none
    else if ss.any fun t => t.key.length ≠ s.key.length || t.payload.length ≠ s.payload.length then
      .ok none
    else do
      let arrayStart ← leastGreaterKey n.getLowerFence fullKeyLen
      let slotCount ← computeSlotCount s.payload.length
        (fencesStart n.getLowerFence.length n.getUpperFence.length fullKeyLen)
      let prefixNumericPart := getNumericPart n.getPrefix fullKeyLen
      let out := blank fullKeyLen arrayStart s.payload.length slotCount n.getLowerFence n.getUpperFence
        n.prefixLength
      if lastOutsideRange n (ss.getLastD s).key out prefixNumericPart then pure none
      else do
        ensure (computeNumericPrefixLength fullKeyLen ≤ n.getLowerFence.length) .assertion
        let out ← n.slots.foldlM (fillSlot prefixNumericPart) out
        pure (some { out with occupiedCount := n.count })

structure Fits (d : DenseNode) (prefixNumericPart : ℕ) (pre : Bytes) (s : Slot Bytes) : Prop where
  exists_index : ∃ i, i = arrayIndex prefixNumericPart
      (getNumericPart s.key (d.fullKeyLen - d.prefixLength)) d.arrayStart ∧
    i < d.slotCount ∧ d.InRange i ∧ d.slotKey i = pre ++ s.key
  inFences : InFences d.lowerFence d.upperFence (pre ++ s.key)
  val_len : s.payload.length = d.valLen

theorem Fits.frame {d e : DenseNode} {p : ℕ} {pre : Bytes} {s : Slot Bytes} (h : Fits d p pre s)
    (g : SameFrame d e) : Fits e p pre s := by
  obtain ⟨hi, hf, hv⟩ := h
  exact ⟨by rwa [g.fullKeyLen, g.prefixLength, g.arrayStart, g.slotCount, g.inRange, g.slotKey],
    by rwa [g.lower, g.upper], by rwa [g.valLen]⟩

theorem fillSlot_spec {d : DenseNode} (h : Filled d) {p : ℕ} {pre : Bytes} {s : Slot Bytes}
    (hs : Fits d p pre s) (hnew : pre ++ s.key ∉ keys d.entries) :
    ∃ e, fillSlot p d s = .ok e ∧ Filled e ∧ SameFrame d e ∧
      Inserted (pre ++ s.key) s.payload d.entries e.entries := by
  obtain ⟨⟨i, hidx, hi, hr, hk⟩, hf, hv⟩ := hs
  have hfree : d.present i = false := by
    rw [← Bool.not_eq_true]
    exact fun hp => hnew ((mem_keys_iff_present h hr hk).mpr hp)
  obtain ⟨mask, hset, hfill, hins⟩ := h.store hi hr (hk.symm ▸ hf) hv hfree d.occupiedCount
  rw [hk] at hins
  refine ⟨_, ?_, hfill, ⟨rfl, rfl, rfl, rfl, rfl, rfl, rfl⟩, hins⟩
  rw [fillSlot, ← hidx, hset, ok_bind]
  rfl

theorem foldlM_fillSlot {p : ℕ} {pre : Bytes} {ss : List (Slot Bytes)} :
    ∀ {d : DenseNode}, Filled d → (∀ s ∈ ss, Fits d p pre s) →
      (∀ s ∈ ss, pre ++ s.key ∉ keys d.entries) → (ss.map Slot.key).Nodup →
      ∃ e, ss.foldlM (fillSlot p) d = .ok e ∧ Filled e ∧ SameFrame d e ∧
        ∀ x, x ∈ e.entries ↔ x ∈ d.entries ∨ x ∈ ss.map fun s => (pre ++ s.key, s.payload) := by
  induction ss with
  | nil => exact fun {d} h _ _ _ => ⟨d, rfl, h, SameFrame.refl d, by simp⟩
  | cons s ss ih =>
    intro d h hfits hnew hnd
    obtain ⟨e, he, hfill, hframe, hins⟩ :=
      fillSlot_spec h (hfits s (by simp)) (hnew s (by simp))
    have hnd' := List.nodup_cons.mp hnd
    obtain ⟨e', he', hfill', hframe', hmem⟩ := ih hfill
      (fun t ht => (hfits t (List.mem_cons_of_mem s ht)).frame hframe)
      (fun t ht hm => by
        obtain ⟨x, hx, hxk⟩ := List.mem_map.mp hm
        rcases hins.mem_iff.mp hx with rfl | hx
        · exact hnd'.1 (List.append_cancel_left hxk ▸ List.mem_map_of_mem ht)
        · exact hnew t (List.mem_cons_of_mem s ht) (hxk ▸ List.mem_map_of_mem hx)) hnd'.2
    refine ⟨e', ?_, hfill', hframe.trans hframe', fun x => ?_⟩
    · rw [List.foldlM_cons, he, ok_bind, he']
    · rw [hmem, hins.mem_iff, List.map_cons, List.mem_cons]
      tauto

theorem present_blank (full start val slots : ℕ) (lower upper : Bytes) (p i : ℕ) :
    (blank full start val slots lower upper p).present i = false := by
  unfold present
  rcases h : (blank full start val slots lower upper p).mask[i / maskBitsPerWord]? with _ | w
  · rfl
  · have hw : w = 0 := List.eq_of_mem_replicate (List.mem_of_getElem? h)
    simp [hw]

theorem entries_blank (full start val slots : ℕ) (lower upper : Bytes) (p : ℕ) :
    (blank full start val slots lower upper p).entries = [] := by
  rw [entries, List.filterMap_eq_nil_iff]
  intro i _
  rw [entryAt, present_blank]
  rfl

theorem blank_wf {full start slots : ℕ} (val : ℕ) {lower upper : Bytes} (hpos : 0 < full)
    (hlow : full ≤ lower.length + maxNumericPartLen) (hstart : leastGreaterKey lower full = .ok start)
    (hp : commonPrefixLength lower upper ≤ full) (hf : FencesOrdered lower upper)
    (hs : slots < 2 ^ 16) :
    WF (blank full start val slots lower upper (commonPrefixLength lower upper)) where
  full_pos := hpos
  lower_len := hlow
  start := hstart
  prefixLen := rfl
  prefix_le := hp
  fences := hf
  slots := hs
  mask_len := List.length_replicate
  vals_len := List.length_replicate
  present_lt i h := by rw [present_blank] at h; exact absurd h Bool.false_ne_true
  inRange i h := by rw [present_blank] at h; exact absurd h Bool.false_ne_true
  inFences i h := by rw [present_blank] at h; exact absurd h Bool.false_ne_true
  val_len i h := by rw [present_blank] at h; exact absurd h Bool.false_ne_true
  occupied := by rw [entries_blank]; rfl

theorem arrayIndex_eq {pre rest : Bytes} {start : ℕ}
    (h : start ≤ getNumericPart (pre ++ rest) (pre.length + rest.length)) :
    arrayIndex (getNumericPart pre (pre.length + rest.length)) (getNumericPart rest rest.length) start =
      getNumericPart (pre ++ rest) (pre.length + rest.length) - start := by
  have hsum := getNumericPart_append pre rest
  simp only [arrayIndex, numericRange] at hsum ⊢
  omega

theorem le_getLastD {a : Bytes} {s : Slot Bytes} {ss : List (Slot Bytes)}
    (hs : Ascending ((s :: ss).map Slot.key)) {t : Slot Bytes} (ht : t ∈ s :: ss)
    (ha : a = (ss.getLastD s).key) : t.key ≤ a := by
  subst ha
  induction ss generalizing s t with
  | nil =>
    obtain rfl := List.mem_singleton.mp ht
    exact le_rfl
  | cons u ss ih =>
    have hp := List.pairwise_cons.mp hs
    rw [List.getLastD_cons]
    rcases List.mem_cons.mp ht with rfl | ht
    · exact (hp.1 u.key (by simp)).le.trans (ih hp.2 (by simp))
    · exact ih hp.2 ht

theorem content_map_key (n : BTreeNode Bytes) : keys n.content = n.slots.map Slot.key := by
  simp [keys, BTreeNode.content, Slot.entry, Function.comp_def]

theorem fits_of_inside {n : BTreeNode Bytes} (h : n.WF) {s : Slot Bytes} {ss : List (Slot Bytes)}
    (hs : n.slots = s :: ss) (hpos : 0 < s.key.length + n.prefixLength)
    (hlow : s.key.length + n.prefixLength ≤ n.getLowerFence.length + maxNumericPartLen)
    (heq : ∀ t ∈ n.slots, t.key.length = s.key.length ∧ t.payload.length = s.payload.length)
    {start count : ℕ}
    (hstart : leastGreaterKey n.getLowerFence (s.key.length + n.prefixLength) = .ok start)
    (hin : lastOutsideRange n (ss.getLastD s).key
      (blank (s.key.length + n.prefixLength) start s.payload.length count n.getLowerFence
        n.getUpperFence n.prefixLength)
      (getNumericPart n.getPrefix (s.key.length + n.prefixLength)) = false) :
    ∀ t ∈ n.slots, Fits (blank (s.key.length + n.prefixLength) start s.payload.length count
        n.getLowerFence n.getUpperFence n.prefixLength)
      (getNumericPart n.getPrefix (s.key.length + n.prefixLength)) n.getPrefix t := by
  set full := s.key.length + n.prefixLength with hfull
  have hpre := h.length_getPrefix
  have hP := numericPrefixLength_eq full
  have h4 : maxNumericPartLen = 4 := rfl
  obtain ⟨last, hlast⟩ : ∃ t, t = ss.getLastD s := ⟨_, rfl⟩
  have hlm : last ∈ n.slots := by
    rw [hlast, hs, ← List.getLast_eq_getLastD]
    exact List.getLast_mem (List.cons_ne_nil s ss)
  simp only [lastOutsideRange, blank, Bool.or_eq_false_iff, decide_eq_false_iff_not, not_not, not_le,
    ← hlast] at hin
  obtain ⟨hslice, hindex⟩ := hin
  have hlen : ∀ t ∈ n.slots, (n.getPrefix ++ t.key).length = full := by
    intro t ht
    rw [List.length_append, hpre, (heq t ht).1, Nat.add_comm]
  have hinf : ∀ t ∈ n.slots, InFences n.getLowerFence n.getUpperFence (n.getPrefix ++ t.key) :=
    fun t ht => h.inFences t.entry (List.mem_map_of_mem ht)
  have hlt : ∀ t ∈ n.slots, n.getLowerFence < n.getPrefix ++ t.key := by
    intro t ht
    refine (hinf t ht).1.elim (fun he => ?_) id
    rw [he]
    exact pos_of_ne_nil fun hn => by
      have hl := hlen t ht
      rw [hn] at hl
      simp only [List.length_nil] at hl
      omega
  have hle : ∀ t ∈ n.slots, n.getPrefix ++ t.key ≤ n.getPrefix ++ last.key := fun t ht =>
    append_le_append_iff.mpr
      (le_getLastD (by rw [← hs, ← content_map_key]; exact h.sorted) (hs ▸ ht) (by rw [hlast]))
  have hlastP : n.getLowerFence.take (computeNumericPrefixLength full) =
      (n.getPrefix ++ last.key).take (computeNumericPrefixLength full) := by
    rw [hP]
    conv_lhs => rw [← List.take_append_drop n.prefixLength n.getLowerFence]
    change (n.getPrefix ++ _).take _ = _
    rw [List.take_append, List.take_append, hpre, hslice]
  have htake : ∀ t ∈ n.slots, n.getLowerFence.take (computeNumericPrefixLength full) =
      (n.getPrefix ++ t.key).take (computeNumericPrefixLength full) := by
    intro t ht
    have hp : n.getLowerFence.take (computeNumericPrefixLength full) <+: n.getPrefix ++ t.key :=
      prefix_of_between (List.take_prefix _ _) (hlastP ▸ List.take_prefix _ _) (hlt t ht).le (hle t ht)
    have he := List.prefix_iff_eq_take.mp hp
    rwa [List.length_take, Nat.min_eq_left (by omega)] at he
  simp only [leastGreaterKey, bind_eq_ok, ensure_eq_ok, exists_const, pure_eq_ok] at hstart
  have hge : ∀ t ∈ n.slots, start ≤ getNumericPart (n.getPrefix ++ t.key) full := by
    intro t ht
    have hg := (lt_iff_leastGreaterKey hlow (hlen t ht) (htake t ht)).mp (hlt t ht)
    rwa [hstart.2] at hg
  have hidx : ∀ t ∈ n.slots, arrayIndex (getNumericPart n.getPrefix full)
      (getNumericPart t.key t.key.length) start = getNumericPart (n.getPrefix ++ t.key) full - start := by
    intro t ht
    have hl : n.getPrefix.length + t.key.length = full := by
      rw [← hlen t ht, List.length_append]
    have hstart' : start ≤ getNumericPart (n.getPrefix ++ t.key) (n.getPrefix.length + t.key.length) := by
      rw [hl]
      exact hge t ht
    have hi := arrayIndex_eq hstart'
    rwa [hl] at hi
  rw [hidx last hlm] at hindex
  intro t ht
  have hmono : getNumericPart (n.getPrefix ++ t.key) full ≤
      getNumericPart (n.getPrefix ++ last.key) full := by
    rw [getNumericPart_of_length (hlen t ht), getNumericPart_of_length (hlen last hlm),
      ← le_iff_value_le (by rw [List.length_drop, List.length_drop, hlen t ht, hlen last hlm]),
      ← not_lt, ← lt_iff_drop_lt ((htake last hlm).symm.trans (htake t ht)), not_lt]
    exact hle t ht
  have hbound : getNumericPart (n.getPrefix ++ t.key) full < 256 ^ computeNumericPartLen full :=
    getNumericPart_lt (by rw [hlen t ht]; omega)
  have hget := hge t ht
  have hsum : start + (getNumericPart (n.getPrefix ++ t.key) full - start) =
      getNumericPart (n.getPrefix ++ t.key) full := by omega
  have hrest : full - n.prefixLength = t.key.length := by rw [(heq t ht).1]; omega
  refine ⟨⟨_, rfl, ?_, ?_, ?_⟩, hinf t ht, (heq t ht).2⟩
  · simp only [blank, hrest, hidx t ht]
    omega
  · simp only [InRange, blank, hrest, hidx t ht, hsum]
    exact hbound
  · simp only [slotKey, blank, hrest, hidx t ht]
    exact restoreKey_getNumericPart (hlen t ht) (htake t ht) hsum.symm

theorem densify_fill {n : BTreeNode Bytes} (h : n.WF) {d₀ : DenseNode} (hw : Filled d₀)
    (hempty : d₀.entries = []) {p : ℕ} (hfits : ∀ t ∈ n.slots, Fits d₀ p n.getPrefix t) :
    ∃ e, n.slots.foldlM (fillSlot p) d₀ = .ok e ∧
      WF { e with occupiedCount := n.count } ∧ SameFrame d₀ e ∧ e.entries = n.entries := by
  have hnd : (n.slots.map Slot.key).Nodup := by
    rw [← content_map_key]
    exact h.sorted.imp ne_of_lt
  obtain ⟨e, he, hfill, hframe, hmem⟩ := foldlM_fillSlot hw hfits
    (fun t _ => by rw [hempty]; exact List.not_mem_nil) hnd
  have hent : e.entries = n.entries := by
    refine ascending_ext (sorted_entries hfill) h.sorted_entries fun x => ?_
    rw [hmem, hempty, BTreeNode.entries, BTreeNode.content, List.map_map]
    simp [Slot.entry]
  refine ⟨e, he, ⟨?_, ?_⟩, hframe, hent⟩
  · exact ⟨hfill.full_pos, hfill.lower_len, hfill.start, hfill.prefixLen, hfill.prefix_le, hfill.fences,
      hfill.slots, hfill.mask_len, hfill.vals_len, hfill.present_lt, hfill.inRange, hfill.inFences,
      hfill.val_len⟩
  · change n.count = e.entries.length
    rw [hent, BTreeNode.entries_length]

structure Densified (n : BTreeNode Bytes) (d : DenseNode) : Prop where
  wf : WF d
  lower : d.lowerFence = n.getLowerFence
  upper : d.upperFence = n.getUpperFence
  entries : d.entries = n.entries
  lengths : ∀ s ∈ n.slots, d.fullKeyLen = s.key.length + n.prefixLength ∧ d.valLen = s.payload.length

structure Built (n : BTreeNode Bytes) (s : Slot Bytes) (ss : List (Slot Bytes)) (start count : ℕ)
    (d : DenseNode) : Prop where
  slots : n.slots = s :: ss
  lower_len : s.key.length + n.prefixLength ≤ n.getLowerFence.length + maxNumericPartLen
  lengths : ∀ t ∈ n.slots, t.key.length = s.key.length ∧ t.payload.length = s.payload.length
  start_eq : leastGreaterKey n.getLowerFence (s.key.length + n.prefixLength) = .ok start
  count_eq : computeSlotCount s.payload.length (fencesStart n.getLowerFence.length n.getUpperFence.length
    (s.key.length + n.prefixLength)) = .ok count
  inside : lastOutsideRange n (ss.getLastD s).key
    (blank (s.key.length + n.prefixLength) start s.payload.length count n.getLowerFence n.getUpperFence
      n.prefixLength) (getNumericPart n.getPrefix (s.key.length + n.prefixLength)) = false
  filled : ∃ e, n.slots.foldlM (fillSlot (getNumericPart n.getPrefix (s.key.length + n.prefixLength)))
    (blank (s.key.length + n.prefixLength) start s.payload.length count n.getLowerFence n.getUpperFence
      n.prefixLength) = .ok e ∧ d = { e with occupiedCount := n.count }

theorem densify1_eq_some {n : BTreeNode Bytes} {d : DenseNode} (hd : densify1 n = .ok (some d)) :
    ∃ s ss start count, Built n s ss start count d := by
  unfold densify1 at hd
  split at hd
  · cases hd
  · next s ss hs =>
    dsimp only at hd
    split_ifs at hd with hlow hlens
    · cases hd
    · cases hd
    · simp only [bind_eq_ok] at hd
      obtain ⟨start, hstart, count, hcount, hd⟩ := hd
      split_ifs at hd with hout
      · cases hd
      · simp only [bind_eq_ok, ensure_eq_ok, exists_const, pure_eq_ok, Option.some.injEq] at hd
        obtain ⟨-, e, he, rfl⟩ := hd
        refine ⟨s, ss, start, count, hs, not_lt.mp hlow, fun t ht => ?_, hstart, hcount,
          Bool.eq_false_of_not_eq_true hout, e, hs ▸ he, rfl⟩
        rw [hs] at ht
        rcases List.mem_cons.mp ht with rfl | ht
        · exact ⟨rfl, rfl⟩
        · have hany := List.any_eq_false.mp (Bool.eq_false_of_not_eq_true hlens) t ht
          simpa using hany

theorem Built.last_mem {n : BTreeNode Bytes} {s : Slot Bytes} {ss : List (Slot Bytes)} {start count : ℕ}
    {d : DenseNode} (h : Built n s ss start count d) : ss.getLastD s ∈ n.slots := by
  rw [h.slots, ← List.getLast_eq_getLastD]
  exact List.getLast_mem (List.cons_ne_nil s ss)

theorem Built.count_lt {n : BTreeNode Bytes} {s : Slot Bytes} {ss : List (Slot Bytes)} {start count : ℕ}
    {d : DenseNode} (h : Built n s ss start count d) : count < 2 ^ 16 :=
  computeSlotCount_lt (fencesStart_le _ _ _) h.count_eq

theorem Built.pos {n : BTreeNode Bytes} {s : Slot Bytes} {ss : List (Slot Bytes)} {start count : ℕ}
    {d : DenseNode} (h : Built n s ss start count d) : 0 < s.key.length + n.prefixLength := by
  by_contra hz
  have hp : n.prefixLength = 0 := by omega
  have hzero : ∀ key : Bytes, getNumericPart key 0 = 0 := fun key => by
    rw [getNumericPart, List.take_zero]
    rfl
  have hlast : (ss.getLastD s).key.length = 0 := by
    rw [(h.lengths _ h.last_mem).1]
    omega
  have hin := h.inside
  have hstart := h.start_eq
  have hcount := h.count_lt
  rw [show s.key.length + n.prefixLength = 0 by omega] at hin hstart
  simp only [leastGreaterKey, hzero, bind_eq_ok, ensure_eq_ok, exists_const, pure_eq_ok,
    Nat.zero_le, if_true] at hstart
  simp only [lastOutsideRange, blank, hlast, hzero, Bool.or_eq_false_iff, decide_eq_false_iff_not,
    arrayIndex, numericRange, ← hstart.2] at hin
  omega

theorem fillSlot_frame {p : ℕ} {d e : DenseNode} {s : Slot Bytes} (h : fillSlot p d s = .ok e) :
    SameFrame d e := by
  simp only [fillSlot, setSlotPresent, bind_eq_ok, ensure_eq_ok, exists_const, pure_eq_ok] at h
  obtain ⟨_, ⟨-, rfl⟩, rfl⟩ := h
  exact ⟨rfl, rfl, rfl, rfl, rfl, rfl, rfl⟩

theorem foldlM_fillSlot_frame {p : ℕ} {ss : List (Slot Bytes)} :
    ∀ {d e : DenseNode}, ss.foldlM (fillSlot p) d = .ok e → SameFrame d e := by
  induction ss with
  | nil =>
    intro d e h
    obtain rfl : d = e := Except.ok.inj h
    exact SameFrame.refl d
  | cons s ss ih =>
    intro d e h
    rw [List.foldlM_cons, bind_eq_ok] at h
    obtain ⟨c, hc, h⟩ := h
    exact (fillSlot_frame hc).trans (ih h)

theorem Built.room {n : BTreeNode Bytes} {s : Slot Bytes} {ss : List (Slot Bytes)} {start count : ℕ}
    {d : DenseNode} (h : Built n s ss start count d) :
    maskOffset + d.maskWordCount * maskBytesPerWord + d.slotCount * d.valLen ≤ d.fencesOffset := by
  obtain ⟨e, he, rfl⟩ := h.filled
  have hframe := foldlM_fillSlot_frame he
  have hroom := (slotCountLoop_spec h.count_eq).2
  simp only [maskWordCount, fencesOffset, hframe.slotCount, hframe.valLen, hframe.lower, hframe.upper,
    hframe.fullKeyLen]
  exact hroom

/-- `densify1` returns, provided its own assertion about the lower fence holds, and what it returns
is the same leaf. -/
theorem densify1_spec {n : BTreeNode Bytes} (h : n.WF) {s : Slot Bytes} {ss : List (Slot Bytes)}
    (hs : n.slots = s :: ss) (hpos : 0 < s.key.length + n.prefixLength) :
    (∀ d, densify1 n = .ok (some d) → Densified n d) ∧
      (getNumericPart n.getLowerFence (s.key.length + n.prefixLength) < numericRange - 1 →
        maskOffset ≤ fencesStart n.getLowerFence.length n.getUpperFence.length
          (s.key.length + n.prefixLength) → ∃ res, densify1 n = .ok res) := by
  have hple : commonPrefixLength n.getLowerFence n.getUpperFence ≤ s.key.length + n.prefixLength := by
    rw [← h.prefixLen]
    exact Nat.le_add_left _ _
  rw [densify1, hs]
  dsimp only
  split_ifs with hlow hlens
  · exact ⟨fun d hd => absurd hd (by simp), fun _ _ => ⟨_, rfl⟩⟩
  · exact ⟨fun d hd => absurd hd (by simp), fun _ _ => ⟨_, rfl⟩⟩
  · have heq : ∀ t ∈ n.slots, t.key.length = s.key.length ∧ t.payload.length = s.payload.length := by
      intro t ht
      rw [hs] at ht
      rcases List.mem_cons.mp ht with rfl | ht
      · exact ⟨rfl, rfl⟩
      · have hany := List.any_eq_false.mp (Bool.eq_false_of_not_eq_true hlens) t ht
        simpa using hany
    have hprefix : computeNumericPrefixLength (s.key.length + n.prefixLength) ≤ n.getLowerFence.length := by
      rw [numericPrefixLength_eq]
      omega
    have hbody : ∀ start count, leastGreaterKey n.getLowerFence (s.key.length + n.prefixLength) = .ok start →
        computeSlotCount s.payload.length (fencesStart n.getLowerFence.length n.getUpperFence.length
          (s.key.length + n.prefixLength)) = .ok count →
        lastOutsideRange n (ss.getLastD s).key
          (blank (s.key.length + n.prefixLength) start s.payload.length count n.getLowerFence
            n.getUpperFence n.prefixLength)
          (getNumericPart n.getPrefix (s.key.length + n.prefixLength)) = false →
        ∃ e, (s :: ss).foldlM (fillSlot (getNumericPart n.getPrefix (s.key.length + n.prefixLength)))
            (blank (s.key.length + n.prefixLength) start s.payload.length count n.getLowerFence
              n.getUpperFence n.prefixLength) = .ok e ∧
          Densified n { e with occupiedCount := n.count } := by
      intro start count hstart hcount hin
      have hfits := fits_of_inside h hs hpos (not_lt.mp hlow) heq hstart hin
      have hcount' : count < 2 ^ 16 :=
        computeSlotCount_lt (fencesStart_le _ _ _) hcount
      have hw := blank_wf s.payload.length hpos (not_lt.mp hlow) hstart hple h.fences hcount'
      rw [← h.prefixLen] at hw
      obtain ⟨e, he, hwf, hframe, hent⟩ := densify_fill h hw.toFilled (entries_blank ..) hfits
      rw [hs] at he
      exact ⟨e, he, hwf, hframe.lower, hframe.upper, hent, fun t ht =>
        ⟨hframe.fullKeyLen.trans (by rw [(heq t ht).1]; rfl), hframe.valLen.trans (heq t ht).2.symm⟩⟩
    constructor
    · intro d hd
      simp only [bind_eq_ok] at hd
      obtain ⟨start, hstart, count, hcount, hd⟩ := hd
      split_ifs at hd with hout
      · cases hd
      · simp only [bind_eq_ok, ensure_eq_ok, exists_const, pure_eq_ok, Option.some.injEq] at hd
        obtain ⟨-, e', he', rfl⟩ := hd
        obtain ⟨e, he, hden⟩ := hbody start count hstart hcount (Bool.eq_false_of_not_eq_true hout)
        rw [he'] at he
        cases he
        exact hden
    · intro hmax hroom
      obtain ⟨count, hcount⟩ := computeSlotCount_ok s.payload.length hroom
      obtain ⟨start, hstart⟩ : ∃ start,
          leastGreaterKey n.getLowerFence (s.key.length + n.prefixLength) = .ok start :=
        ⟨_, by rw [leastGreaterKey, ensure_of hmax]; rfl⟩
      rw [hstart, ok_bind, hcount, ok_bind]
      split_ifs with hout
      · exact ⟨_, rfl⟩
      · obtain ⟨e, he, -⟩ := hbody _ count hstart hcount (Bool.eq_false_of_not_eq_true hout)
        rw [ensure_of hprefix, ok_bind, he]
        exact ⟨_, rfl⟩

end DenseNode

end BtreeRedis
