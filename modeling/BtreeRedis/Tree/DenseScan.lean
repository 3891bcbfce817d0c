import BtreeRedis.Tree.ScanBuffer
import BtreeRedis.Tree.Calls
import BtreeRedis.Tree.LeafSplit
import BtreeRedis.Tree.Window

/-!
# Scanning a dense leaf

The scan of a dense leaf goes through the set bits of its mask from the first index on.
`segment` is what it still has to hand out; a round of the loop either skips bits that
are not set or hands out one entry. Where the first index comes from a start key, the
segment is the entries that are no smaller.
-/

namespace BtreeRedis

open LexOrder SortedAssoc BigEndian

def emit {σ : Type} (found : Callback σ) : List (Bytes × Bytes) → σ → σ × Bool
  | [], state => (state, true)
  | e :: es, state =>
    match found state e.1 e.2 with
    | (state, true) => emit found es state
    | (state, false) => (state, false)

namespace DenseNode
variable {d : DenseNode}

def segment (d : DenseNode) (i : ℕ) : List (Bytes × Bytes) :=
  (List.range' i (maskBitsPerWord * d.mask.length - i)).filterMap d.entryAt

theorem segment_end {i : ℕ} (h : maskBitsPerWord * d.mask.length ≤ i) : d.segment i = [] := by
  rw [segment, Nat.sub_eq_zero_of_le h]
  rfl

theorem segment_succ {i : ℕ} (h : i < maskBitsPerWord * d.mask.length) :
    d.segment i = (d.entryAt i).toList ++ d.segment (i + 1) := by
  have hlen : maskBitsPerWord * d.mask.length - i = maskBitsPerWord * d.mask.length - (i + 1) + 1 := by
    omega
  rw [segment, segment, hlen, List.range'_succ, List.filterMap_cons]
  cases d.entryAt i <;> rfl

theorem segment_hit {i : ℕ} (h : d.present i = true) :
    d.segment i = (d.slotKey i, d.vals.getD i []) :: d.segment (i + 1) := by
  rw [segment_succ (lt_of_present h), entryAt, if_pos h]
  rfl

theorem segment_skip {i k : ℕ} (hik : i ≤ k) (h : ∀ j, i ≤ j → j < k → d.present j = false) :
    d.segment i = d.segment k := by
  induction k, hik using Nat.le_induction with
  | base => rfl
  | succ k hik ih =>
    rw [ih fun j hj hjk => h j hj (Nat.lt_succ_of_lt hjk)]
    rcases Nat.lt_or_ge k (maskBitsPerWord * d.mask.length) with hk | hk
    · rw [segment_succ hk, entryAt, h k hik (Nat.lt_succ_self k)]
      rfl
    · rw [segment_end hk, segment_end (hk.trans (Nat.le_succ k))]

theorem countrZero_le (word : Mask) : countrZero word ≤ maskBitsPerWord := by
  rw [countrZero]
  exact List.findIdx_le_length.trans_eq List.length_range

theorem getLsbD_countrZero {word : Mask} (h : countrZero word ≠ maskBitsPerWord) :
    word.getLsbD (countrZero word) = true := by
  have hlt : countrZero word < (List.range maskBitsPerWord).length := by
    rw [List.length_range]
    exact lt_of_le_of_ne (countrZero_le word) h
  have hf := List.findIdx_getElem (w := hlt)
  exact (congrArg word.getLsbD (List.getElem_range hlt)).symm.trans hf

theorem getLsbD_of_lt_countrZero {word : Mask} {j : ℕ} (h : j < countrZero word) :
    word.getLsbD j = false := by
  have hf := List.not_of_lt_findIdx h
  rwa [List.getElem_range] at hf

theorem present_word {w k : ℕ} {m : Mask} (hm : d.mask[w]? = some m) (hk : k < maskBitsPerWord) :
    d.present (w * maskBitsPerWord + k) = m.getLsbD k := by
  have hdiv : (w * maskBitsPerWord + k) / maskBitsPerWord = w := by
    simp only [maskBitsPerWord] at hk ⊢
    omega
  have hmod : (w * maskBitsPerWord + k) % maskBitsPerWord = k := by
    simp only [maskBitsPerWord] at hk ⊢
    omega
  rw [present, hdiv, hmod, hm]

structure Buffered (d : DenseNode) (keyOut : Bytes) : Prop where
  pre : keyOut.take (computeNumericPrefixLength d.fullKeyLen) =
    d.lowerFence.take (computeNumericPrefixLength d.fullKeyLen)
  room : d.fullKeyLen ≤ keyOut.length

theorem Buffered.put {keyOut : Bytes} (h : Buffered d keyOut) (i : ℕ) :
    ∃ k, blit keyOut (computeNumericPrefixLength d.fullKeyLen) (d.keyBytes i) = .ok k ∧ Buffered d k ∧
      k.take d.fullKeyLen = d.slotKey i ∧ k.length = keyOut.length := by
  have hsum := numericLen_add d.fullKeyLen
  have hlen := length_keyBytes d i
  have hroom := h.room
  have hle : computeNumericPrefixLength d.fullKeyLen + (d.keyBytes i).length ≤ keyOut.length := by omega
  have hk := blit_eq_ok.mpr ⟨hle, rfl⟩
  have htake := take_blit hle
  refine ⟨_, hk, ⟨?_, (length_blit hk).symm ▸ hroom⟩, ?_, length_blit hk⟩
  · rw [List.append_assoc, List.take_left' (by rw [List.length_take]; omega), h.pre]
  · rw [hlen, hsum, h.pre] at htake
    rw [hlen, hsum, h.pre, htake]
    rfl

variable {σ : Type} {found : Callback σ}

def Scans (found : Callback σ) (es : List (Bytes × Bytes)) (state : σ)
    (res : Except Fault (Scanned σ)) : Prop :=
  ∃ r, res = .ok r ∧ r.state = (emit found es state).1 ∧ r.more = (emit found es state).2

/-- The scan meets no fault exactly if `P` holds, and then it hands out the entries. -/
structure ScansWhen (P : Prop) (found : Callback σ) (es : List (Bytes × Bytes)) (state : σ)
    (res : Except Fault (Scanned σ)) : Prop where
  scans : P → Scans found es state res
  safe : ∀ r, res = .ok r → P

namespace ScansWhen
variable {P Q : Prop} {es : List (Bytes × Bytes)} {state : σ} {res : Except Fault (Scanned σ)}

theorem iff (h : ScansWhen P found es state res) : Scans found es state res ↔ P :=
  ⟨fun ⟨r, hr, _⟩ => h.safe r hr, h.scans⟩

theorem of_ok (h : ScansWhen P found es state res) {r : Scanned σ} (hr : res = .ok r) :
    r.state = (emit found es state).1 ∧ r.more = (emit found es state).2 := by
  obtain ⟨r', hr', hscans⟩ := h.scans (h.safe r hr)
  obtain rfl := Except.ok.inj (hr'.symm.trans hr)
  exact hscans

theorem congr (h : ScansWhen P found es state res) (hPQ : P ↔ Q) : ScansWhen Q found es state res :=
  ⟨fun hQ => h.scans (hPQ.mpr hQ), fun r hr => hPQ.mp (h.safe r hr)⟩

theorem always (h : Scans found es state res) (hP : P) : ScansWhen P found es state res :=
  ⟨fun _ => h, fun _ _ => hP⟩

theorem never (h : ∀ r, res ≠ .ok r) (hP : ¬ P) : ScansWhen P found es state res :=
  ⟨fun hc => absurd hc hP, fun r hr => absurd hr (h r)⟩

end ScansWhen

theorem getLsbD_shift (m : Mask) (shift j : ℕ) : (m >>> shift).getLsbD j = m.getLsbD (shift + j) := by
  rw [BitVec.getLsbD_ushiftRight]

theorem segment_word {w shift : ℕ} {m : Mask} (hm : d.mask[w]? = some m) (hs : shift ≤ maskBitsPerWord)
    (hz : countrZero (m >>> shift) = maskBitsPerWord) :
    d.segment (w * maskBitsPerWord + shift) = d.segment ((w + 1) * maskBitsPerWord) := by
  rw [Nat.succ_mul]
  refine segment_skip (Nat.add_le_add_left hs _) fun j hj hjw => ?_
  obtain ⟨k, rfl⟩ := Nat.exists_eq_add_of_le (show w * maskBitsPerWord ≤ j by omega)
  rw [present_word hm (by omega)]
  obtain ⟨l, rfl⟩ := Nat.exists_eq_add_of_le (show shift ≤ k by omega)
  rw [← getLsbD_shift]
  exact getLsbD_of_lt_countrZero (by omega)

theorem segment_bit {w shift : ℕ} {m : Mask} (hm : d.mask[w]? = some m)
    (hz : countrZero (m >>> shift) ≠ maskBitsPerWord) :
    shift + countrZero (m >>> shift) < maskBitsPerWord ∧
      d.present (w * maskBitsPerWord + (shift + countrZero (m >>> shift))) = true ∧
      d.segment (w * maskBitsPerWord + shift) =
        d.segment (w * maskBitsPerWord + (shift + countrZero (m >>> shift))) := by
  have hset := getLsbD_countrZero hz
  rw [getLsbD_shift] at hset
  have hin : shift + countrZero (m >>> shift) < maskBitsPerWord := by
    by_contra hge
    rw [BitVec.getLsbD_of_ge m _ (not_lt.mp hge)] at hset
    exact Bool.false_ne_true hset
  refine ⟨hin, by rw [present_word hm hin, hset], segment_skip (by omega) fun j hj hjw => ?_⟩
  obtain ⟨k, rfl⟩ := Nat.exists_eq_add_of_le hj
  rw [Nat.add_assoc, present_word hm (by omega), ← getLsbD_shift]
  exact getLsbD_of_lt_countrZero (by omega)

theorem segment_last (h : WF d) {w : ℕ} (hend : d.maskWordCount ≤ w + 1) :
    d.segment ((w + 1) * maskBitsPerWord) = [] := by
  apply segment_end
  rw [h.mask_len, Nat.mul_comm]
  exact Nat.mul_le_mul_right _ hend

theorem maskLoop_spec (h : WF d) (fuel : ℕ) :
    ∀ {w shift : ℕ} {m : Mask} {keyOut : Bytes} {state : σ}, d.mask[w]? = some m → shift ≤ maskBitsPerWord →
      (maskBitsPerWord + 1) * (d.maskWordCount - w) < fuel + shift →
      (d.segment (w * maskBitsPerWord + shift) ≠ [] → Buffered d keyOut) →
      Scans found (d.segment (w * maskBitsPerWord + shift)) state
        (maskLoop found d fuel w shift (m >>> shift) keyOut state) := by
  induction fuel with
  | zero =>
    intro w shift m keyOut state hm hs hfuel hb
    have hw := (List.getElem?_eq_some_iff.mp hm).1
    rw [h.mask_len] at hw
    have hmul := Nat.mul_le_mul_left (maskBitsPerWord + 1) (show 1 ≤ d.maskWordCount - w by omega)
    simp only [maskBitsPerWord] at hs hfuel hmul
    omega
  | succ fuel ih =>
    intro w shift m keyOut state hm hs hfuel hb
    have hw := (List.getElem?_eq_some_iff.mp hm).1
    rw [maskLoop]
    dsimp only
    by_cases hz : countrZero (m >>> shift) = maskBitsPerWord
    · -- nothing is left of this word
      have hskip := segment_word hm hs hz
      rw [hskip] at hb
      rw [if_pos hz, hskip]
      by_cases hend : d.maskWordCount ≤ w + 1
      · rw [if_pos hend, segment_last h hend]
        exact ⟨_, rfl, rfl, rfl⟩
      · rw [if_neg hend]
        have hnext : w + 1 < d.mask.length := by rw [h.mask_len]; omega
        have hm' := List.getElem?_eq_getElem hnext
        rw [hm']
        have hmul : (maskBitsPerWord + 1) * (d.maskWordCount - w) =
            (maskBitsPerWord + 1) * (d.maskWordCount - (w + 1)) + (maskBitsPerWord + 1) := by
          rw [← Nat.mul_succ]
          congr 1
          omega
        have hspec := @ih (w + 1) 0 d.mask[w + 1] keyOut state hm' (Nat.zero_le _) (by omega) hb
        rwa [BitVec.ushiftRight_zero, Nat.add_zero] at hspec
    · -- the next set bit is handed out
      obtain ⟨hin, hp, hskip⟩ := segment_bit hm hz
      set tz := countrZero (m >>> shift) with htz
      have hslot := h.present_lt _ hp
      rw [hskip, segment_hit hp] at hb ⊢
      obtain ⟨k, hk, hbk, hkey, -⟩ := (hb (List.cons_ne_nil _ _)).put (w * maskBitsPerWord + (shift + tz))
      rw [if_neg hz, if_neg (by omega), hk, ok_bind, getVal, ensure_of hslot, ok_bind, pure_bind, hkey]
      cases hf : found state (d.slotKey (w * maskBitsPerWord + (shift + tz)))
          (d.vals.getD (w * maskBitsPerWord + (shift + tz)) []) with
      | mk state' more =>
        cases more with
        | true =>
          have hspec := @ih w (shift + tz + 1) m k state' hm (by omega) (by omega) fun _ => hbk
          have hword : m >>> shift >>> tz >>> 1 = m >>> (shift + tz + 1) := by
            rw [← BitVec.shiftRight_add, ← BitVec.shiftRight_add, Nat.add_assoc]
          rw [hword]
          simpa only [Scans, emit, hf, Nat.add_assoc] using hspec
        | false => exact ⟨_, rfl, by simp only [emit, hf], by simp only [emit, hf]⟩

theorem maskLoop_narrow (h : WF d) (fuel : ℕ) {w shift : ℕ} {m : Mask} {keyOut : Bytes} {state : σ}
    {r : Scanned σ} (hm : d.mask[w]? = some m) (hs : shift ≤ maskBitsPerWord)
    (hroom : ¬ d.fullKeyLen ≤ keyOut.length)
    (hr : maskLoop found d fuel w shift (m >>> shift) keyOut state = .ok r) :
    d.segment (w * maskBitsPerWord + shift) = [] := by
  induction fuel generalizing w shift m with
  | zero => cases hr
  | succ fuel ih =>
    rw [maskLoop] at hr
    dsimp only at hr
    by_cases hz : countrZero (m >>> shift) = maskBitsPerWord
    · rw [segment_word hm hs hz]
      rw [if_pos hz] at hr
      split_ifs at hr with hend
      · exact segment_last h hend
      · split at hr
        · next m' hm' =>
          have hrest := @ih (w + 1) 0 m' hm' (Nat.zero_le _) (by rwa [BitVec.ushiftRight_zero])
          rwa [Nat.add_zero] at hrest
        · cases hr
    · obtain ⟨-, hp, -⟩ := segment_bit hm hz
      have hslot := h.present_lt _ hp
      rw [if_neg hz, if_neg (by omega)] at hr
      obtain ⟨k, hk, -⟩ := bind_eq_ok.mp hr
      have hle := (blit_eq_ok.mp hk).1
      rw [length_keyBytes, numericLen_add] at hle
      exact absurd hle hroom

theorem segment_zero (h : WF d) : d.segment 0 = d.entries := by
  have hle : d.slotCount ≤ maskBitsPerWord * d.mask.length := by
    rw [h.mask_len, maskWordCount, maskWords]
    simp only [maskBitsPerWord]
    omega
  obtain ⟨r, hr⟩ := Nat.exists_eq_add_of_le hle
  have hnil : (List.range' (0 + d.slotCount) r).filterMap d.entryAt = [] := by
    rw [List.filterMap_eq_nil_iff]
    intro i hi
    have hi := (List.mem_range'_1.mp hi).1
    rw [entryAt, if_neg fun hp => absurd (h.present_lt i hp) (by omega)]
  rw [segment, Nat.sub_zero, hr, ← List.range'_append_1, List.filterMap_append, hnil, List.append_nil,
    entries, List.range_eq_range']

theorem segment_eq_filter (h : WF d) {first : ℕ} {key : Bytes}
    (hkey : ∀ i, d.present i = true → (key ≤ d.slotKey i ↔ first ≤ i)) :
    d.segment first = d.entries.filter fun e => decide (key ≤ e.1) := by
  rcases Nat.lt_or_ge (maskBitsPerWord * d.mask.length) first with hlast | hf
  · rw [segment_end hlast.le, eq_comm, List.filter_eq_nil_iff]
    intro e he hle
    obtain ⟨i, hi, rfl⟩ := (mem_entries h.toFilled).mp he
    have hlt := lt_of_present hi
    have hge := (hkey i hi).mp (of_decide_eq_true hle)
    omega
  obtain ⟨r, hr⟩ := Nat.exists_eq_add_of_le hf
  have hsplit : d.entries = (List.range' 0 first).filterMap d.entryAt ++ d.segment first := by
    rw [← segment_zero h, segment, segment, hr, Nat.sub_zero, Nat.add_sub_cancel_left,
      ← List.range'_append_1, List.filterMap_append, Nat.zero_add]
  have hbefore : ((List.range' 0 first).filterMap d.entryAt).filter (fun e => decide (key ≤ e.1)) = [] := by
    rw [List.filter_eq_nil_iff]
    intro e he hle
    obtain ⟨i, hi, hei⟩ := List.mem_filterMap.mp he
    obtain ⟨hp, rfl⟩ := entryAt_eq_some.mp hei
    have hlt := (List.mem_range'_1.mp hi).2
    have hge := (hkey i hp).mp (of_decide_eq_true hle)
    omega
  have hfrom : (d.segment first).filter (fun e => decide (key ≤ e.1)) = d.segment first := by
    rw [List.filter_eq_self]
    intro e he
    obtain ⟨i, hi, hei⟩ := List.mem_filterMap.mp he
    obtain ⟨hp, rfl⟩ := entryAt_eq_some.mp hei
    exact decide_eq_true ((hkey i hp).mpr (List.mem_range'_1.mp hi).1)
  rw [hsplit, List.filter_append, hbefore, hfrom, List.nil_append]

def startNumber (d : DenseNode) (key : Bytes) : ℕ :=
  getNumericPart key d.fullKeyLen + if d.fullKeyLen < key.length then 1 else 0

theorem le_iff_startNumber {key full : Bytes} (hfull : full.length = d.fullKeyLen)
    (hl : d.fullKeyLen ≤ key.length + maxNumericPartLen)
    (hp : key.take (computeNumericPrefixLength d.fullKeyLen) =
      full.take (computeNumericPrefixLength d.fullKeyLen)) :
    key ≤ full ↔ d.startNumber key ≤ getNumericPart full d.fullKeyLen := by
  rw [startNumber]
  by_cases he : key.length = d.fullKeyLen
  · have hdrop : (key.drop (computeNumericPrefixLength d.fullKeyLen)).length =
        (full.drop (computeNumericPrefixLength d.fullKeyLen)).length := by
      rw [List.length_drop, List.length_drop, he, hfull]
    rw [if_neg (by omega), Nat.add_zero, getNumericPart_of_length he, getNumericPart_of_length hfull,
      ← le_iff_value_le hdrop, ← not_lt, ← not_lt, lt_iff_drop_lt hp.symm]
  · have hne : key ≠ full := fun h => he (h ▸ hfull)
    have hif : (if d.fullKeyLen < key.length then 1 else 0) = if d.fullKeyLen ≤ key.length then 1 else 0 := by
      split_ifs <;> omega
    rw [hif, ← lt_iff_leastGreaterKey hl hfull hp]
    exact ⟨fun h => lt_of_le_of_ne h hne, le_of_lt⟩

theorem arrayStart_le (h : WF d) {key : Bytes} (hk : InFences d.lowerFence d.upperFence key)
    (hl : d.fullKeyLen ≤ key.length + maxNumericPartLen)
    (hp : key.take (computeNumericPrefixLength d.fullKeyLen) =
      d.lowerFence.take (computeNumericPrefixLength d.fullKeyLen)) : d.arrayStart ≤ d.startNumber key := by
  have hlow := h.lower_len
  have hnum := getNumericPart_lt hlow
  rcases Nat.lt_or_ge (d.startNumber key) (256 ^ computeNumericPartLen d.fullKeyLen) with hs | hs
  · obtain ⟨full, hfull⟩ : ∃ full, full = BtreeRedis.restoreKey (d.startNumber key) d.fullKeyLen
        d.lowerFence 0 := ⟨_, rfl⟩
    have hlen : full.length = d.fullKeyLen := hfull ▸ length_restoreKey hlow 0
    have htake : full.take (computeNumericPrefixLength d.fullKeyLen) =
        d.lowerFence.take (computeNumericPrefixLength d.fullKeyLen) := hfull ▸ take_restoreKey hlow 0
    have hval : getNumericPart full d.fullKeyLen = d.startNumber key :=
      hfull ▸ getNumericPart_restoreKey hlow (by rwa [Nat.add_zero])
    have hle : key ≤ full := (le_iff_startNumber hlen hl (hp.trans htake.symm)).mpr hval.ge
    rw [arrayStart_eq h, ← hval]
    refine (lt_iff_leastGreaterKey hlow hlen htake.symm).mp ?_
    rcases hk.1 with he | hlt
    · rw [he]
      refine pos_of_ne_nil fun hn => ?_
      have hpos := h.full_pos
      rw [hn] at hlen
      simp only [List.length_nil] at hlen
      omega
    · exact hlt.trans_le hle
  · refine le_trans ?_ hs
    rw [arrayStart_eq h]
    split_ifs <;> omega

theorem firstIndex_eq {key : Bytes} (hle : d.arrayStart ≤ d.startNumber key)
    (hnum : getNumericPart key d.fullKeyLen < numericRange - 1) :
    d.firstIndex (some key) = .ok (d.startNumber key - d.arrayStart) := by
  have hstart : d.startNumber key = getNumericPart key d.fullKeyLen +
      (if d.fullKeyLen ≤ key.length then 1 else 0) - if key.length = d.fullKeyLen then 1 else 0 := by
    rw [startNumber]
    split_ifs <;> omega
  have hge : (if key.length = d.fullKeyLen then 1 else 0) ≤ getNumericPart key d.fullKeyLen +
      if d.fullKeyLen ≤ key.length then 1 else 0 := by
    split_ifs <;> omega
  have hlt : d.startNumber key < numericRange := by
    rw [startNumber]
    split_ifs <;> omega
  rw [firstIndex, leastGreaterKey, ensure_of hnum, ok_bind, pure_bind]
  refine congrArg Except.ok ?_
  generalize getNumericPart key d.fullKeyLen + (if d.fullKeyLen ≤ key.length then 1 else 0) = least at *
  generalize (if key.length = d.fullKeyLen then 1 else 0) = eq at *
  simp only [numericRange] at hlt ⊢
  omega

theorem firstIndex_error {key : Bytes} (hnum : ¬ getNumericPart key d.fullKeyLen < numericRange - 1) :
    d.firstIndex (some key) = .error .assertion := by
  rw [firstIndex, leastGreaterKey, ensure, if_neg hnum]
  rfl

theorem startByte_some (key : Bytes) (i : ℕ) : startByte (some key) key.length i = .ok (key.getD i 0) := by
  rw [startByte]
  split_ifs with hi
  · rfl
  · rw [List.getD_eq_default _ _ (not_lt.mp hi)]
    rfl

theorem numericRangeLoop_spec (key : Bytes) {is : List ℕ} (hall : ∀ i ∈ is, i < d.lowerFence.length) :
    d.numericRangeLoop (some key) key.length is =
      .ok (decide (∀ i ∈ is, d.lowerFence.getD i 0 = key.getD i 0)) := by
  induction is with
  | nil => rfl
  | cons i is ih =>
    have hi := hall i List.mem_cons_self
    have hget : d.lowerFence.getD i 0 = d.lowerFence[i] := List.getD_eq_getElem _ _ hi
    have ih := ih fun j hj => hall j (List.mem_cons_of_mem i hj)
    rw [numericRangeLoop, startByte_some, ok_bind, List.getElem?_eq_getElem hi]
    dsimp only
    rw [← hget]
    split_ifs with hne
    · refine congrArg Except.ok (decide_eq_false fun hc => hne (hc i List.mem_cons_self)).symm
    · rw [ih]
      refine congrArg Except.ok (decide_eq_decide.mpr ?_)
      rw [List.forall_mem_cons]
      exact ⟨fun hc => ⟨not_not.mp hne, hc⟩, And.right⟩

/-- A start key between the fences is not a proper prefix of the numeric prefix, so that padding it
with zeros changes nothing. -/
theorem isNumericRangeAnyLen_some (h : WF d) {key : Bytes} (hk : InFences d.lowerFence d.upperFence key) :
    d.isNumericRangeAnyLen (some key) key.length =
      .ok (decide (key.take (computeNumericPrefixLength d.fullKeyLen) =
        d.lowerFence.take (computeNumericPrefixLength d.fullKeyLen))) := by
  have hP := numericPrefixLength_eq d.fullKeyLen
  have hlow := h.lower_len
  set P := computeNumericPrefixLength d.fullKeyLen with hPdef
  have hpre := hk.isPrefix
  rw [← h.prefixLen] at hpre
  have hpl : d.prefixLength ≤ d.lowerFence.length := by
    rw [h.prefixLen]
    exact commonPrefixLength_le_left _ _
  have hsame : ∀ i, i < d.prefixLength → d.lowerFence[i]? = key[i]? := by
    intro i hi
    have ht := congrArg (fun s : Bytes => s[i]?) (List.prefix_iff_eq_take.mp hpre)
    simp only [List.length_take, Nat.min_eq_left hpl] at ht
    rwa [List.getElem?_take_of_lt hi, List.getElem?_take_of_lt hi] at ht
  have hrange : ∀ i, i ∈ List.range' d.prefixLength (P - d.prefixLength) ↔ d.prefixLength ≤ i ∧ i < P := by
    intro i
    rw [List.mem_range'_1]
    omega
  rw [isNumericRangeAnyLen, ← hPdef, numericRangeLoop_spec key fun i hi => by have := (hrange i).mp hi; omega]
  refine congrArg Except.ok (decide_eq_decide.mpr ?_)
  simp only [hrange]
  constructor
  · intro hall
    have hD : ∀ i, i < P → d.lowerFence.getD i 0 = key.getD i 0 := by
      intro i hi
      rcases Nat.lt_or_ge i d.prefixLength with hip | hip
      · rw [List.getD_eq_getElem?_getD, List.getD_eq_getElem?_getD, hsame i hip]
      · exact hall i ⟨hip, hi⟩
    have hget : ∀ i, i < P → i < key.length → d.lowerFence[i]? = key[i]? := by
      intro i hi hik
      have hil : i < d.lowerFence.length := by omega
      have := hD i hi
      rw [List.getD_eq_getElem _ _ hil, List.getD_eq_getElem _ _ hik] at this
      rw [List.getElem?_eq_getElem hil, List.getElem?_eq_getElem hik, this]
    rcases Nat.lt_or_ge key.length P with hshort | hlong
    · have hkp : key <+: d.lowerFence := by
        rw [List.prefix_iff_eq_take]
        refine List.ext_getElem? fun i => ?_
        rcases Nat.lt_or_ge i key.length with hi | hi
        · rw [List.getElem?_take_of_lt hi, hget i (by omega) hi]
        · rw [List.getElem?_eq_none hi, List.getElem?_eq_none (by rw [List.length_take]; omega)]
      rcases hk.1 with he | hlt
      · rw [he] at hlow
        simp only [List.length_nil] at hlow
        omega
      · exact absurd (le_of_isPrefix hkp) (not_le.mpr hlt)
    · refine List.ext_getElem? fun i => ?_
      rcases Nat.lt_or_ge i P with hi | hi
      · rw [List.getElem?_take_of_lt hi, List.getElem?_take_of_lt hi, hget i hi (by omega)]
      · rw [List.getElem?_eq_none (by rw [List.length_take]; omega),
          List.getElem?_eq_none (by rw [List.length_take]; omega)]
  · intro htake i hi
    have ht := congrArg (fun s : Bytes => s[i]?) htake
    simp only [List.getElem?_take_of_lt hi.2] at ht
    rw [List.getD_eq_getElem?_getD, List.getD_eq_getElem?_getD, ht]

theorem isNumericRangeAnyLen_none (h : WF d) : d.isNumericRangeAnyLen none (d.lowerFence.length + 1) =
    if computeNumericPrefixLength d.fullKeyLen ≤ d.prefixLength then .ok true else .error .undefined := by
  have hpl : d.prefixLength ≤ d.lowerFence.length := by
    rw [h.prefixLen]
    exact commonPrefixLength_le_left _ _
  rw [isNumericRangeAnyLen]
  split_ifs with hle
  · rw [Nat.sub_eq_zero_of_le hle]
    rfl
  · obtain ⟨r, hr⟩ := Nat.exists_eq_add_of_lt (not_le.mp hle)
    rw [show computeNumericPrefixLength d.fullKeyLen - d.prefixLength = r + 1 by omega, List.range'_succ,
      numericRangeLoop, startByte, if_pos (by omega)]
    rfl

/-- A scan calls a leaf with its start key, which the buffer begins with, or with none and the lower
fence in the buffer. -/
inductive ScanStart (d : DenseNode) (keyOut : Bytes) : Option Bytes → ℕ → Prop
  | key {key : Bytes} (hk : InFences d.lowerFence d.upperFence key) (hb : key <+: keyOut) :
      ScanStart d keyOut (some key) key.length
  | next (hb : d.lowerFence ++ [0] <+: keyOut) : ScanStart d keyOut none (d.lowerFence.length + 1)

def entriesFrom (d : DenseNode) : Option Bytes → List (Bytes × Bytes)
  | some key => d.entries.filter fun e => decide (key ≤ e.1)
  | none => d.entries

/-- A start key has another numeric prefix than the leaf, or a number that can be counted on from and
an index inside the mask; without one, the numeric prefix is common to the fences. -/
def ScanSafe (d : DenseNode) : Option Bytes → Prop
  | some key => key.take (computeNumericPrefixLength d.fullKeyLen) ≠
      d.lowerFence.take (computeNumericPrefixLength d.fullKeyLen) ∨
    getNumericPart key d.fullKeyLen < numericRange - 1 ∧
      d.startNumber key - d.arrayStart < maskBitsPerWord * d.maskWordCount
  | none => computeNumericPrefixLength d.fullKeyLen ≤ d.prefixLength

/-- What stands behind the mask shows no entry at index `i`. An entry at the index `slotCount` would trip the
assertion of `getVal`, one behind it ends the scan. -/
def EmptyBehind (d : DenseNode) (behind : ℕ → Except Fault Mask) (i : ℕ) : Prop :=
  match behind (i / maskBitsPerWord) with
  | .ok word => i = d.slotCount → word.getLsbD (i % maskBitsPerWord) = false
  | .error _ => False

instance (d : DenseNode) (behind : ℕ → Except Fault Mask) (i : ℕ) : Decidable (d.EmptyBehind behind i) :=
  match h : behind (i / maskBitsPerWord) with
  | .ok word => decidable_of_iff (i = d.slotCount → word.getLsbD (i % maskBitsPerWord) = false) (by rw [EmptyBehind, h])
  | .error _ => isFalse (by rw [EmptyBehind, h]; exact id)

def Enterable (d : DenseNode) (behind : ℕ → Except Fault Mask) : Option Bytes → Prop
  | some key => key.take (computeNumericPrefixLength d.fullKeyLen) ≠
      d.lowerFence.take (computeNumericPrefixLength d.fullKeyLen) ∨
    getNumericPart key d.fullKeyLen < numericRange - 1 ∧
      (d.startNumber key - d.arrayStart < maskBitsPerWord * d.maskWordCount ∨
        d.EmptyBehind behind (d.startNumber key - d.arrayStart))
  | none => computeNumericPrefixLength d.fullKeyLen ≤ d.prefixLength

instance (d : DenseNode) (behind : ℕ → Except Fault Mask) : (key : Option Bytes) → Decidable (d.Enterable behind key)
  | some _ => inferInstanceAs (Decidable (_ ∨ _))
  | none => inferInstanceAs (Decidable (_ ≤ _))

theorem enterable_noWord {key : Option Bytes} : d.Enterable noWord key ↔ d.ScanSafe key := by
  cases key with
  | none => exact Iff.rfl
  | some key => exact or_congr_right (and_congr_right fun _ => or_iff_left id)

theorem ScanStart.pre (h : WF d) {keyOut : Bytes} {key : Option Bytes} {keyLen : ℕ}
    (hs : ScanStart d keyOut key keyLen) : keyOut.take d.prefixLength = d.lowerFence.take d.prefixLength := by
  have hpl : d.prefixLength ≤ d.lowerFence.length := by
    rw [h.prefixLen]
    exact commonPrefixLength_le_left _ _
  have hpre : d.lowerFence.take d.prefixLength <+: keyOut := by
    cases hs with
    | key hk hb =>
      have hp := hk.isPrefix
      rw [← h.prefixLen] at hp
      exact hp.trans hb
    | next hb => exact ((List.take_prefix _ _).trans (List.prefix_append _ _)).trans hb
  have ht := List.prefix_iff_eq_take.mp hpre
  rw [List.length_take, Nat.min_eq_left hpl] at ht
  exact ht.symm

theorem putPrefix_spec (h : WF d) {keyOut : Bytes}
    (hpre : keyOut.take d.prefixLength = d.lowerFence.take d.prefixLength)
    (hroom : computeNumericPrefixLength d.fullKeyLen ≤ keyOut.length) : ∃ k, d.putPrefix keyOut = .ok k ∧
      k.take (computeNumericPrefixLength d.fullKeyLen) =
        d.lowerFence.take (computeNumericPrefixLength d.fullKeyLen) ∧ k.length = keyOut.length := by
  have hP := numericPrefixLength_eq d.fullKeyLen
  have hlow := h.lower_len
  have h4 : maxNumericPartLen = 4 := rfl
  rw [putPrefix]
  split_ifs with hlt
  · have hlen : ((d.lowerFence.take (computeNumericPrefixLength d.fullKeyLen)).drop d.prefixLength).length =
        computeNumericPrefixLength d.fullKeyLen - d.prefixLength := by
      rw [List.length_drop, List.length_take]
      omega
    have hle : d.prefixLength + ((d.lowerFence.take (computeNumericPrefixLength d.fullKeyLen)).drop
        d.prefixLength).length ≤ keyOut.length := by omega
    have hk := blit_eq_ok.mpr ⟨hle, rfl⟩
    refine ⟨_, hk, ?_, length_blit hk⟩
    have htake := take_blit hle
    rw [hlen, Nat.add_sub_cancel' hlt.le, hpre] at htake
    rw [hlen, Nat.add_sub_cancel' hlt.le, hpre, htake]
    have hcut : d.lowerFence.take d.prefixLength =
        (d.lowerFence.take (computeNumericPrefixLength d.fullKeyLen)).take d.prefixLength := by
      rw [List.take_take, Nat.min_eq_left hlt.le]
    rw [hcut, List.take_append_drop]
  · refine ⟨keyOut, rfl, ?_, rfl⟩
    have hp := congrArg (List.take (computeNumericPrefixLength d.fullKeyLen)) hpre
    rwa [List.take_take, List.take_take, Nat.min_eq_left (not_lt.mp hlt)] at hp

theorem scanMask_scansWhen {σ : Type} {found : Callback σ} (h : WF d) {behind : ℕ → Except Fault Mask} {first : ℕ}
    {keyOut : Bytes} {state : σ} (hf : first < maskBitsPerWord * d.maskWordCount)
    (hpre : keyOut.take (computeNumericPrefixLength d.fullKeyLen) =
      d.lowerFence.take (computeNumericPrefixLength d.fullKeyLen)) :
    ScansWhen (d.segment first ≠ [] → d.fullKeyLen ≤ keyOut.length) found (d.segment first) state
      (d.scanMask found behind first keyOut state) := by
  have hw : first / maskBitsPerWord < d.mask.length := by
    rw [h.mask_len]
    exact Nat.div_lt_of_lt_mul hf
  have hm := List.getElem?_eq_getElem hw
  have hmod := (Nat.mod_lt first (by decide : 0 < maskBitsPerWord)).le
  have hfirst : first / maskBitsPerWord * maskBitsPerWord + first % maskBitsPerWord = first := by
    rw [Nat.mul_comm, Nat.div_add_mod]
  rw [scanMask, maskWord, hm, pure_bind]
  refine ⟨fun hroom => ?_, fun r hr hne => ?_⟩
  · -- each round moves past a bit or a word
    have hfuel : (maskBitsPerWord + 1) * (d.maskWordCount - first / maskBitsPerWord) <
        d.scanFuel + first % maskBitsPerWord := by
      rw [scanFuel]
      calc (maskBitsPerWord + 1) * (d.maskWordCount - first / maskBitsPerWord)
          ≤ (maskBitsPerWord + 1) * d.maskWordCount := Nat.mul_le_mul_left _ (Nat.sub_le _ _)
        _ < (maskBitsPerWord + 1) * (d.maskWordCount + 1) := by
          rw [Nat.mul_succ]
          exact Nat.lt_add_of_pos_right (by decide)
        _ ≤ _ := Nat.le_add_right _ _
    have hspec := @maskLoop_spec d σ found h d.scanFuel _ _ _ keyOut state hm hmod hfuel
    rw [hfirst] at hspec
    exact hspec fun hne => ⟨hpre, hroom hne⟩
  · by_contra hroom
    have hnil := maskLoop_narrow h d.scanFuel hm hmod hroom hr
    rw [hfirst] at hnil
    exact hne hnil

theorem scanMask_behind {σ : Type} {found : Callback σ} (h : WF d) {behind : ℕ → Except Fault Mask} {first : ℕ}
    {keyOut : Bytes} {state : σ} (hf : ¬ first < maskBitsPerWord * d.maskWordCount) :
    (d.EmptyBehind behind first → d.scanMask found behind first keyOut state = .ok ⟨true, keyOut, state⟩) ∧
      ∀ r, d.scanMask found behind first keyOut state = .ok r →
        d.EmptyBehind behind first ∧ r = ⟨true, keyOut, state⟩ := by
  have hword : d.maskWordCount ≤ first / maskBitsPerWord := by
    rw [Nat.le_div_iff_mul_le (by decide), Nat.mul_comm]
    exact not_lt.mp hf
  have hslots : d.slotCount ≤ first := by
    refine le_trans ?_ (not_lt.mp hf)
    rw [maskWordCount, maskWords]
    simp only [maskBitsPerWord]
    omega
  have hfirst : first / maskBitsPerWord * maskBitsPerWord + first % maskBitsPerWord = first := by
    rw [Nat.mul_comm, Nat.div_add_mod]
  have hfuel : d.scanFuel = (maskBitsPerWord + 1) * d.maskWordCount + maskBitsPerWord + 1 := rfl
  rw [scanMask, maskWord, List.getElem?_eq_none (h.mask_len.trans_le hword), EmptyBehind, hfuel]
  dsimp only
  cases behind (first / maskBitsPerWord) with
  | error e => exact ⟨False.elim, fun r hr => by cases hr⟩
  | ok word =>
    rw [ok_bind, maskLoop]
    dsimp only
    by_cases hz : countrZero (word >>> (first % maskBitsPerWord)) = maskBitsPerWord
    · rw [if_pos hz, if_pos (hword.trans (Nat.le_succ _))]
      refine ⟨fun _ => rfl, fun r hr => ⟨fun _ => ?_, (Except.ok.inj hr).symm⟩⟩
      have hpos : 0 < countrZero (word >>> (first % maskBitsPerWord)) := by
        rw [hz]
        decide
      have hbit := getLsbD_of_lt_countrZero hpos
      rwa [getLsbD_shift, Nat.add_zero] at hbit
    · rw [if_neg hz]
      rcases Nat.eq_zero_or_pos (countrZero (word >>> (first % maskBitsPerWord))) with htz | hpos
      · have hbit := getLsbD_countrZero hz
        rw [getLsbD_shift, htz, Nat.add_zero] at hbit
        rw [htz, Nat.add_zero, hfirst]
        split_ifs with hlt
        · exact ⟨fun _ => rfl, fun r hr => ⟨fun he => absurd he hlt.ne', (Except.ok.inj hr).symm⟩⟩
        · have he : first = d.slotCount := by omega
          refine ⟨fun hempty => absurd (hbit.symm.trans (hempty he)) (by decide), fun r hr => ?_⟩
          obtain ⟨k, -, hr⟩ := bind_eq_ok.mp hr
          obtain ⟨val, hval, -⟩ := bind_eq_ok.mp hr
          obtain ⟨_, hin, _⟩ := bind_eq_ok.mp hval
          exact absurd (ensure_eq_ok.mp hin) (by omega)
      · rw [if_pos (by omega)]
        refine ⟨fun _ => rfl, fun r hr => ⟨fun _ => ?_, (Except.ok.inj hr).symm⟩⟩
        have hbit := getLsbD_of_lt_countrZero hpos
        rwa [getLsbD_shift, Nat.add_zero] at hbit

section Leaf
variable {σ : Type} {found : Callback σ} {behind : ℕ → Except Fault Mask} {keyOut : Bytes} {state : σ}

theorem scan_numeric (h : WF d) {key : Option Bytes} {keyLen first : ℕ}
    (hpre : keyOut.take d.prefixLength = d.lowerFence.take d.prefixLength)
    (hroom : computeNumericPrefixLength d.fullKeyLen ≤ keyOut.length)
    (hin : d.isNumericRangeAnyLen key keyLen = .ok true) (hfirst : d.firstIndex key = .ok first) :
    ∃ k, k.take (computeNumericPrefixLength d.fullKeyLen) =
        d.lowerFence.take (computeNumericPrefixLength d.fullKeyLen) ∧ k.length = keyOut.length ∧
      d.rangeLookup1 found behind key keyLen keyOut state = d.scanMask found behind first k state := by
  obtain ⟨k, hk, htake, hlen⟩ := putPrefix_spec h hpre hroom
  have hle : computeNumericPrefixLength d.fullKeyLen ≤ d.lowerFence.length := by
    have hP := numericPrefixLength_eq d.fullKeyLen
    have hlow := h.lower_len
    omega
  refine ⟨k, htake, hlen, ?_⟩
  rw [rangeLookup1_eq, hin, ok_bind, if_pos rfl, hfirst, ok_bind, ensure_of hle, ok_bind, hk, ok_bind]

theorem entriesFrom_numeric (h : WF d) {key : Bytes} (hk : InFences d.lowerFence d.upperFence key)
    (hp : key.take (computeNumericPrefixLength d.fullKeyLen) =
      d.lowerFence.take (computeNumericPrefixLength d.fullKeyLen)) :
    d.arrayStart ≤ d.startNumber key ∧
      d.segment (d.startNumber key - d.arrayStart) = d.entriesFrom (some key) := by
  have hlow := h.lower_len
  have hP := numericPrefixLength_eq d.fullKeyLen
  have hl : d.fullKeyLen ≤ key.length + maxNumericPartLen := by
    have hlen := congrArg List.length hp
    simp only [List.length_take] at hlen
    omega
  have hle := arrayStart_le h hk hl hp
  refine ⟨hle, segment_eq_filter h fun i hi => ?_⟩
  have htake := hp.trans (@take_restoreKey d.arrayStart _ _ hlow i).symm
  rw [le_iff_startNumber (length_slotKey h.toFilled i) hl htake, slotKey,
    getNumericPart_restoreKey hlow (h.inRange i hi)]
  omega

theorem entriesFrom_other (h : WF d) {key : Bytes} (hk : InFences d.lowerFence d.upperFence key)
    (hp : key.take (computeNumericPrefixLength d.fullKeyLen) ≠
      d.lowerFence.take (computeNumericPrefixLength d.fullKeyLen)) : d.entriesFrom (some key) = [] := by
  rw [entriesFrom, List.filter_eq_nil_iff]
  intro e he hle
  obtain ⟨i, hi, rfl⟩ := (mem_entries h.toFilled).mp he
  have hlow := h.lower_len
  have hP := numericPrefixLength_eq d.fullKeyLen
  have hslot : d.lowerFence.take (computeNumericPrefixLength d.fullKeyLen) <+: d.slotKey i := by
    rw [slotKey, ← @take_restoreKey d.arrayStart _ _ hlow i]
    exact List.take_prefix _ _
  have hpre := prefix_of_between (List.take_prefix _ _) hslot hk.lower_le (of_decide_eq_true hle)
  have ht := List.prefix_iff_eq_take.mp hpre
  rw [List.length_take, Nat.min_eq_left (by omega)] at ht
  exact hp ht.symm

theorem maskWordCount_pos (hs : 0 < d.slotCount) : 0 < maskBitsPerWord * d.maskWordCount := by
  rw [maskWordCount, maskWords]
  simp only [maskBitsPerWord]
  omega

theorem rangeLookup1_scansWhen (h : WF d) (hs : 0 < d.slotCount) {key : Option Bytes} {keyLen : ℕ}
    (hstart : ScanStart d keyOut key keyLen) :
    ScansWhen (d.Enterable behind key ∧ (d.entriesFrom key ≠ [] → d.fullKeyLen ≤ keyOut.length)) found
      (d.entriesFrom key) state (d.rangeLookup1 found behind key keyLen keyOut state) := by
  have hpre := hstart.pre h
  have hP := numericPrefixLength_eq d.fullKeyLen
  have hlow := h.lower_len
  cases hstart with
  | next hb =>
    have hnum := isNumericRangeAnyLen_none h
    by_cases hle : computeNumericPrefixLength d.fullKeyLen ≤ d.prefixLength
    · have hroom : computeNumericPrefixLength d.fullKeyLen ≤ keyOut.length := by
        have hlen := hb.length_le
        rw [List.length_append] at hlen
        omega
      rw [if_pos hle] at hnum
      obtain ⟨k, htake, hlen, heq⟩ := @scan_numeric d σ found behind _ state h _ _ _ hpre hroom hnum rfl
      rw [heq, entriesFrom, ← segment_zero h, ← hlen]
      exact (scanMask_scansWhen h (maskWordCount_pos hs) htake).congr (and_iff_right hle).symm
    · refine .never (fun r hr => ?_) fun hc => hle hc.1
      rw [rangeLookup1_eq, hnum, if_neg hle] at hr
      cases hr
  | @key key hk hb =>
    have hnum := isNumericRangeAnyLen_some h hk
    by_cases hp : key.take (computeNumericPrefixLength d.fullKeyLen) =
        d.lowerFence.take (computeNumericPrefixLength d.fullKeyLen)
    · rw [decide_eq_true hp] at hnum
      obtain ⟨hle, hseg⟩ := entriesFrom_numeric h hk hp
      have hroom : computeNumericPrefixLength d.fullKeyLen ≤ keyOut.length := by
        have hlen := congrArg List.length hp
        have hkey := hb.length_le
        rw [List.length_take, List.length_take] at hlen
        omega
      by_cases hlt : getNumericPart key d.fullKeyLen < numericRange - 1
      · obtain ⟨k, htake, hlen, heq⟩ := @scan_numeric d σ found behind _ state h _ _ _ hpre hroom hnum
          (firstIndex_eq hle hlt)
        rw [heq]
        by_cases hf : d.startNumber key - d.arrayStart < maskBitsPerWord * d.maskWordCount
        · rw [← hseg, ← hlen]
          exact (scanMask_scansWhen h hf htake).congr (and_iff_right (Or.inr ⟨hlt, Or.inl hf⟩)).symm
        · -- behind the mask there is no entry
          have hnil : d.entriesFrom (some key) = [] := by
            rw [← hseg]
            exact segment_end (by rw [h.mask_len]; exact not_lt.mp hf)
          obtain ⟨hempty, hback⟩ := @scanMask_behind d σ found h behind _ k state hf
          rw [hnil]
          refine ⟨fun hc => ?_, fun r hr => ⟨Or.inr ⟨hlt, Or.inr (hback r hr).1⟩, fun hne => absurd rfl hne⟩⟩
          have hin := hc.1.resolve_left fun hne => hne hp
          exact ⟨_, hempty (hin.2.resolve_left hf), rfl, rfl⟩
      · refine .never (fun r hr => ?_) fun hc => hc.1.elim (fun hne => hne hp) fun hc => hlt hc.1
        rw [rangeLookup1_eq, hnum, ok_bind, if_pos rfl, firstIndex_error hlt] at hr
        cases hr
    · rw [decide_eq_false hp] at hnum
      rw [rangeLookup1_eq, hnum, ok_bind, entriesFrom_other h hk hp]
      exact .always ⟨_, rfl, rfl, rfl⟩ ⟨Or.inl hp, fun hne => absurd rfl hne⟩

/-- In a buffer with room for a key nothing but the place to start from decides, if reading a word that the
mask does not have is a fault. -/
theorem rangeLookup1_iff (h : WF d) (hs : 0 < d.slotCount) {key : Option Bytes} {keyLen : ℕ}
    (hstart : ScanStart d keyOut key keyLen) (hroom : d.fullKeyLen ≤ keyOut.length) :
    Scans found (d.entriesFrom key) state (d.rangeLookup1 found noWord key keyLen keyOut state) ↔
      d.ScanSafe key :=
  (rangeLookup1_scansWhen h hs hstart).iff.trans ((and_iff_left fun _ => hroom).trans enterable_noWord)

end Leaf

def collect : Callback (List (Bytes × Bytes)) := fun es key payload => (es ++ [(key, payload)], true)

theorem rangeLookup1_iff_fourSlots :
    Scans collect (fourSlots.entriesFrom (some [0])) []
      (fourSlots.rangeLookup1 collect noWord (some [0]) 1 [0, 0] []) := by
  obtain ⟨n, hn, hd⟩ := fourSlots_densified
  have hstart : ScanStart fourSlots [0, 0] (some [0]) 1 := @ScanStart.key fourSlots [0, 0] [0] (by decide) (by decide)
  exact (rangeLookup1_iff (densified_of_densify1 hn hd).wf (by decide) hstart (by decide)).mpr
    (Or.inr (by decide))

def faultsAt (key : Bytes) (t : BTree) : Bool :=
  match t.leafFor key with
  | .ok (.dense d) => decide (d.lowerFence ++ [0] = key) && decide (d.fullKeyLen ≤ key.length) &&
    (match d.rangeLookup1 collect noWord none key.length key [] with
    | .error e => e == .undefined
    | .ok _ => false) &&
    match t.rangeLookupImpl collect (fun _ _ => 0) 3 [] (List.replicate key.length 0) [] with
    | .error e => e == .undefined
    | .ok _ => false
  | _ => false

theorem faultsAt_spec {key : Bytes} {t : BTree} (h : faultsAt key t = true) :
    ∃ d, t.leafFor key = .ok (.dense d) ∧ ScanStart d key none key.length ∧ d.fullKeyLen ≤ key.length ∧
      d.rangeLookup1 collect noWord none key.length key [] = .error .undefined ∧
      t.rangeLookupImpl collect (fun _ _ => 0) 3 [] (List.replicate key.length 0) [] = .error .undefined := by
  unfold faultsAt at h
  split at h
  · next d hd =>
    simp only [Bool.and_eq_true, decide_eq_true_eq] at h
    obtain ⟨⟨⟨hkey, hlen⟩, h₁⟩, h₂⟩ := h
    have hstart : ScanStart d key none (d.lowerFence.length + 1) := .next (by rw [hkey])
    have hl := congrArg List.length hkey
    rw [List.length_append, List.length_singleton] at hl
    rw [hl] at hstart
    refine ⟨d, hd, hstart, hlen, ?_, ?_⟩
    · split at h₁
      · next e he => rw [he, eq_of_beq h₁]
      · cases h₁
    · split at h₂
      · next e he => rw [he, eq_of_beq h₂]
      · cases h₂
  · cases h

/-- Behind the leaf with the keys up to `000000000001` comes a dense leaf without an upper fence: its
numeric prefix is compared with a start key of no address. -/
theorem rangeLookup1_faults : ∃ t d, BTree.Reachable true (fun _ _ _ => True) t ∧
    t.leafFor [0, 0, 0, 0, 0, 1, 0] = .ok (.dense d) ∧
    ScanStart d [0, 0, 0, 0, 0, 1, 0] none 7 ∧ d.fullKeyLen ≤ 7 ∧
    ¬ Scans collect (d.entriesFrom none) [] (d.rangeLookup1 collect noWord none 7 [0, 0, 0, 0, 0, 1, 0] []) ∧
    t.rangeLookupImpl collect (fun _ _ => 0) 3 [] (List.replicate 7 0) [] = .error .undefined := by
  have hrun : BTree.reaches true 3 ((List.range 6).map fun k =>
      ([0, 0, 0, 0, 0, Fin.ofNat 256 k], List.replicate 1000 0)) (faultsAt [0, 0, 0, 0, 0, 1, 0]) = true := by
    decide +kernel
  obtain ⟨t, ht, hc⟩ := BTree.reaches_spec hrun
  obtain ⟨d, hd, hstart, hlen, herr, himpl⟩ := faultsAt_spec hc
  refine ⟨t, d, ht, hd, hstart, hlen, ?_, himpl⟩
  rintro ⟨r, hr, -⟩
  exact nomatch herr.symm.trans hr

end DenseNode

end BtreeRedis
