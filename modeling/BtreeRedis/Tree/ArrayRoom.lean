import BtreeRedis.Tree.Window

/-!
# The array of a dense leaf ends below the fences

`computeSlotCount` starts from an estimate that counts neither the header nor the rounding of the
mask to whole words, and comes down from it. The estimate is never too small, and one array slot
always fits between keys and payloads of the lengths that the tree accepts. A new upper fence leaves
the array where it is and moves the fences up; behind a new lower fence the array is sized again.
-/

namespace BtreeRedis

def arrayEnd (valLen count : ℕ) : ℕ := maskOffset + maskWords count * maskBytesPerWord + count * valLen

theorem le_maskBits (count : ℕ) : count ≤ maskWords count * maskBytesPerWord * 8 := by
  simp only [maskWords, maskBitsPerWord, maskBytesPerWord]
  omega

theorem maskBytes_le (count : ℕ) : maskWords count * maskBytesPerWord ≤ count + maskBytesPerWord := by
  simp only [maskWords, maskBitsPerWord, maskBytesPerWord]
  omega

theorem le_estimate {valLen start count : ℕ} (h : arrayEnd valLen count ≤ start) :
    count ≤ start * 8 / (valLen * 8 + 1) := by
  have hbits := le_maskBits count
  rw [Nat.le_div_iff_mul_le (by omega)]
  calc count * (valLen * 8 + 1) = count * valLen * 8 + count := by ring
    _ ≤ count * valLen * 8 + maskWords count * maskBytesPerWord * 8 := Nat.add_le_add_left hbits _
    _ ≤ start * 8 := by
      rw [arrayEnd] at h
      omega

theorem computeSlotCount_isGreatest (valLen : ℕ) {start : ℕ} (h : maskOffset ≤ start) :
    ∃ count, computeSlotCount valLen start = .ok count ∧ IsGreatest {k | arrayEnd valLen k ≤ start} count := by
  obtain ⟨count, hcount⟩ := computeSlotCount_ok valLen h
  refine ⟨count, hcount, (slotCountLoop_spec hcount).2, fun k hk => ?_⟩
  exact slotCountLoop_max hcount (le_estimate hk) hk

theorem arrayEnd_lt {valLen start count : ℕ} (hs : start ≤ pageSize) (h : count ≤ start * 8 / (valLen * 8 + 1)) :
    arrayEnd valLen count < 2 ^ 16 := by
  have hmask := maskBytes_le count
  rw [Nat.le_div_iff_mul_le (by omega)] at h
  have hvals : count * valLen * 8 + count ≤ start * 8 := by
    calc count * valLen * 8 + count = count * (valLen * 8 + 1) := by ring
      _ ≤ start * 8 := h
  rw [arrayEnd]
  simp only [maskOffset, maskBytesPerWord, pageSize] at *
  omega

theorem one_slot_le_fencesStart {valLen lowerFenceLen upperFenceLen fullKeyLen : ℕ} (hv : valLen ≤ maxKVSize)
    (hl : lowerFenceLen ≤ maxKVSize) (hu : upperFenceLen ≤ maxKVSize) (hf : fullKeyLen ≤ maxKVSize) :
    maskOffset + maskBytesPerWord + valLen ≤ fencesStart lowerFenceLen upperFenceLen fullKeyLen := by
  have hmax : max upperFenceLen fullKeyLen ≤ maxKVSize := max_le hu hf
  rw [fencesStart]
  simp only [maxKVSize, maskOffset, maskBytesPerWord, pageSize, headerSize, slotSize] at *
  omega

namespace DenseNode
variable {d e : DenseNode}

def valOffset (d : DenseNode) (i : ℕ) : ℕ := maskOffset + d.maskWordCount * maskBytesPerWord + i * d.valLen

/-- The dense leaves that the code makes of basic leaves with entries and fences of the lengths that the tree
accepts. Both fences are changed to any others; the upper one keeps its length where the lower one is changed, as
`splitNode1` keeps it. -/
inductive Laid : DenseNode → Prop
  | densified {n : BTreeNode Bytes} {d : DenseNode} (hn : n.WF) (hl : n.getLowerFence.length ≤ maxKVSize)
      (hu : n.getUpperFence.length ≤ maxKVSize)
      (hs : ∀ s ∈ n.slots, n.prefixLength + s.key.length + s.payload.length ≤ maxKVSize)
      (hd : densify1 n = .ok (some d)) : Laid d
  | insert {d e : DenseNode} {key payload : Bytes} {b : Bool} (h : Laid d)
      (he : d.insertMatching key payload = .ok (b, e)) : Laid e
  | remove {d e : DenseNode} {key : Bytes} {b : Bool} (h : Laid d) (he : d.remove key = .ok (b, e)) : Laid e
  | changeUpperFence {d e : DenseNode} {fence : Bytes} (h : Laid d) (he : d.changeUpperFence fence = .ok e) : Laid e
  | changeLowerFence {d e : DenseNode} {lower upper : Bytes} (h : Laid d) (hl : lower.length ≤ maxKVSize)
      (hu : upper.length = d.upperFence.length) (he : d.changeLowerFence lower upper = .ok e) : Laid e

structure ArrayRoom (d : DenseNode) : Prop where
  lower_len : d.lowerFence.length ≤ maxKVSize
  upper_len : d.upperFence.length ≤ maxKVSize
  entry_len : d.fullKeyLen + d.valLen ≤ maxKVSize
  pos : 0 < d.slotCount
  slots : d.slotCount < 2 ^ 16
  room : arrayEnd d.valLen d.slotCount ≤ d.fencesOffset

theorem ArrayRoom.frame (h : ArrayRoom d) (g : SameFrame d e) : ArrayRoom e := by
  refine ⟨?_, ?_, ?_, ?_, ?_, ?_⟩
  · exact g.lower ▸ h.lower_len
  · exact g.upper ▸ h.upper_len
  · rw [g.fullKeyLen, g.valLen]
    exact h.entry_len
  · exact g.slotCount ▸ h.pos
  · exact g.slotCount ▸ h.slots
  · rw [g.valLen, g.slotCount, fencesOffset, g.lower, g.upper, g.fullKeyLen]
    exact h.room

theorem ArrayRoom.of_sized (hl : d.lowerFence.length ≤ maxKVSize) (hu : d.upperFence.length ≤ maxKVSize)
    (he : d.fullKeyLen + d.valLen ≤ maxKVSize) (hc : computeSlotCount d.valLen d.fencesOffset = .ok d.slotCount) :
    ArrayRoom d := by
  have hval : d.valLen ≤ maxKVSize := by omega
  have hone := one_slot_le_fencesStart hval hl hu (show d.fullKeyLen ≤ maxKVSize by omega)
  exact ⟨hl, hu, he, computeSlotCount_pos hone hc, computeSlotCount_lt (fencesStart_le _ _ _) hc,
    (slotCountLoop_spec hc).2⟩

theorem insertMatching_frame {key payload : Bytes} {b : Bool} (h : d.insertMatching key payload = .ok (b, e)) :
    SameFrame d e := by
  simp only [insertMatching, bind_eq_ok] at h
  obtain ⟨r, -, h⟩ := h
  cases r with
  | index i =>
    simp only [isSlotPresent, setSlotPresent, bind_eq_ok, ensure_eq_ok, exists_const, pure_eq_ok, Prod.mk.injEq] at h
    obtain ⟨_, -, _, ⟨-, rfl⟩, -, rfl⟩ := h
    exact ⟨rfl, rfl, rfl, rfl, rfl, rfl, rfl⟩
  | wrongLen => cases h
  | notNumericRange =>
    cases h
    exact SameFrame.refl d
  | slightlyTooLarge =>
    cases h
    exact SameFrame.refl d
  | farTooLarge =>
    cases h
    exact SameFrame.refl d

theorem remove_frame {key : Bytes} {b : Bool} (h : d.remove key = .ok (b, e)) : SameFrame d e := by
  simp only [remove, bind_eq_ok] at h
  obtain ⟨r, -, h⟩ := h
  cases r with
  | index i =>
    simp only [isSlotPresent, unsetSlotPresent, bind_eq_ok, ensure_eq_ok, exists_const, pure_eq_ok] at h
    obtain ⟨found, -, _, ⟨-, rfl⟩, h⟩ := h
    cases found with
    | true =>
      obtain ⟨-, rfl⟩ := Prod.mk.inj h
      exact ⟨rfl, rfl, rfl, rfl, rfl, rfl, rfl⟩
    | false =>
      obtain ⟨-, rfl⟩ := Prod.mk.inj h
      exact SameFrame.refl d
  | wrongLen =>
    cases h
    exact SameFrame.refl d
  | notNumericRange =>
    cases h
    exact SameFrame.refl d
  | slightlyTooLarge =>
    cases h
    exact SameFrame.refl d
  | farTooLarge =>
    cases h
    exact SameFrame.refl d

theorem densify1_arrayRoom {n : BTreeNode Bytes} (hl : n.getLowerFence.length ≤ maxKVSize)
    (hu : n.getUpperFence.length ≤ maxKVSize)
    (hs : ∀ s ∈ n.slots, n.prefixLength + s.key.length + s.payload.length ≤ maxKVSize)
    (hd : densify1 n = .ok (some d)) : ArrayRoom d := by
  obtain ⟨s, ss, start, count, hb⟩ := densify1_eq_some hd
  have hlen := hs s (hb.slots ▸ List.mem_cons_self)
  obtain ⟨e, he, rfl⟩ := hb.filled
  have hframe := foldlM_fillSlot_frame he
  have hsized : ArrayRoom (blank (s.key.length + n.prefixLength) start s.payload.length count n.getLowerFence
      n.getUpperFence n.prefixLength) := by
    refine ArrayRoom.of_sized hl hu ?_ hb.count_eq
    change s.key.length + n.prefixLength + s.payload.length ≤ maxKVSize
    omega
  exact (hsized.frame hframe).frame ⟨rfl, rfl, rfl, rfl, rfl, rfl, rfl⟩

theorem changeUpperFence_arrayRoom {fence : Bytes} (h : ArrayRoom d) (he : d.changeUpperFence fence = .ok e) :
    ArrayRoom e := by
  simp only [changeUpperFence, bind_eq_ok, ensure_eq_ok, exists_const, pure_eq_ok] at he
  obtain ⟨hlen, rfl⟩ := he
  have hentry := h.entry_len
  have hroom := h.room
  refine ⟨h.lower_len, ?_, h.entry_len, h.pos, h.slots, ?_⟩
  · change fence.length ≤ maxKVSize
    omega
  · refine hroom.trans ?_
    change fencesStart _ _ _ ≤ fencesStart d.lowerFence.length fence.length d.fullKeyLen
    rw [fencesStart, fencesStart, max_eq_right hlen]
    exact Nat.sub_le_sub_left (le_max_right _ _) _

theorem changeLowerFence_arrayRoom {lower upper : Bytes} (h : ArrayRoom d) (hl : lower.length ≤ maxKVSize)
    (hu : upper.length = d.upperFence.length) (he : d.changeLowerFence lower upper = .ok e) : ArrayRoom e := by
  simp only [changeLowerFence, bind_eq_ok, ensure_eq_ok, exists_const, pure_eq_ok] at he
  obtain ⟨count, hcount, -, start, -, rfl⟩ := he
  exact ArrayRoom.of_sized hl (hu.trans_le h.upper_len) h.entry_len hcount

theorem Laid.arrayRoom (h : Laid d) : ArrayRoom d := by
  induction h with
  | densified _ hl hu hs hd => exact densify1_arrayRoom hl hu hs hd
  | insert _ he ih => exact ih.frame (insertMatching_frame he)
  | remove _ he ih => exact ih.frame (remove_frame he)
  | changeUpperFence _ he ih => exact changeUpperFence_arrayRoom ih he
  | changeLowerFence _ hl hu he ih => exact changeLowerFence_arrayRoom ih hl hu he

theorem ArrayRoom.valOffset_le (h : ArrayRoom d) {i : ℕ} (hi : i < d.slotCount) :
    d.valOffset i + d.valLen ≤ d.fencesOffset := by
  have hvals : (i + 1) * d.valLen ≤ d.slotCount * d.valLen := Nat.mul_le_mul_right _ hi
  have hroom := h.room
  rw [Nat.succ_mul] at hvals
  rw [arrayEnd] at hroom
  rw [valOffset, maskWordCount]
  omega

/-- The loop yields the largest count that fits, at least one and small enough for its field, without an
intermediate value that wraps; and no value of a leaf that the code makes reaches the fences. -/
theorem array_below_fences :
    (∀ valLen lowerFenceLen upperFenceLen fullKeyLen, valLen ≤ maxKVSize → lowerFenceLen ≤ maxKVSize →
      upperFenceLen ≤ maxKVSize → fullKeyLen ≤ maxKVSize →
      ∃ count, computeSlotCount valLen (fencesStart lowerFenceLen upperFenceLen fullKeyLen) = .ok count ∧
        IsGreatest {k | arrayEnd valLen k ≤ fencesStart lowerFenceLen upperFenceLen fullKeyLen} count ∧
        1 ≤ count ∧ count < 2 ^ 16 ∧
        fencesStart lowerFenceLen upperFenceLen fullKeyLen * 8 < 2 ^ 32 ∧
        ∀ k ≤ fencesStart lowerFenceLen upperFenceLen fullKeyLen * 8 / (valLen * 8 + 1),
          arrayEnd valLen k < 2 ^ 32) ∧
    ∀ d : DenseNode, d.Laid → 1 ≤ d.slotCount ∧ d.slotCount < 2 ^ 16 ∧
      ∀ i < d.slotCount, d.valOffset i + d.valLen ≤ d.fencesOffset := by
  constructor
  · intro valLen lowerFenceLen upperFenceLen fullKeyLen hv hl hu hf
    have hone := one_slot_le_fencesStart hv hl hu hf
    have hpage := fencesStart_le lowerFenceLen upperFenceLen fullKeyLen
    obtain ⟨count, hcount, hgreatest⟩ := computeSlotCount_isGreatest valLen
      (show maskOffset ≤ fencesStart lowerFenceLen upperFenceLen fullKeyLen by omega)
    refine ⟨count, hcount, hgreatest, computeSlotCount_pos hone hcount, computeSlotCount_lt hpage hcount, ?_, ?_⟩
    · simp only [pageSize] at hpage
      omega
    · exact fun k hk => (arrayEnd_lt hpage hk).trans (by norm_num)
  · intro d h
    exact ⟨h.arrayRoom.pos, h.arrayRoom.slots, fun i hi => h.arrayRoom.valOffset_le hi⟩

def fourSlotsLeft : DenseNode := { fourSlots with upperFence := [3] }

theorem fourSlotsLeft_laid : Laid fourSlotsLeft := by
  obtain ⟨n, hn, hl, hu, hs, hd⟩ := fourSlots_of_leaf
  refine (Laid.densified hn ?_ ?_ hs hd).changeUpperFence (show fourSlots.changeUpperFence [3] = _ from rfl)
  · rw [hl]
    exact Nat.zero_le _
  · rw [hu]
    exact Nat.zero_le _

theorem array_below_fences_left :
    (∃ count, computeSlotCount 0 (fencesStart maxKVSize maxKVSize maxKVSize) = .ok count ∧ 1 ≤ count) ∧
      ∀ i < 4, fourSlotsLeft.valOffset i + 1000 ≤ fourSlotsLeft.fencesOffset := by
  constructor
  · obtain ⟨count, hcount, -, hpos, -⟩ := array_below_fences.1 0 maxKVSize maxKVSize maxKVSize (Nat.zero_le _) le_rfl
      le_rfl le_rfl
    exact ⟨count, hcount, hpos⟩
  · exact (array_below_fences.2 fourSlotsLeft fourSlotsLeft_laid).2.2

end DenseNode

end BtreeRedis
