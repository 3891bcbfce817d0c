import BtreeRedis.Tree.Scan

/-!
# What a scan finds in the buffer does not matter

A scan writes into the buffer of the caller behind the common prefix of a leaf only. What
stands before that is the search key of the descent, which carries the prefix; so two scans
from the same key do the same, whatever else is in their buffers.
-/

namespace BtreeRedis

open LexOrder BigEndian

structure AgreeOn (size n : ℕ) (keyOut keyOut' : Bytes) : Prop where
  length : keyOut.length = size
  length' : keyOut'.length = size
  take : keyOut'.take n = keyOut.take n

theorem blit_eq_ok {keyOut src r : Bytes} {offset : ℕ} :
    blit keyOut offset src = .ok r ↔ offset + src.length ≤ keyOut.length ∧
      r = keyOut.take offset ++ src ++ keyOut.drop (offset + src.length) := by
  simp only [blit, bind_eq_ok, ensure_eq_ok, pure_eq_ok, exists_const]
  exact and_congr_right fun _ => eq_comm

theorem take_blit {keyOut src : Bytes} {offset : ℕ} (h : offset + src.length ≤ keyOut.length) :
    (keyOut.take offset ++ src ++ keyOut.drop (offset + src.length)).take (offset + src.length) =
      keyOut.take offset ++ src := by
  have hl : (keyOut.take offset ++ src).length = offset + src.length := by
    rw [List.length_append, List.length_take]
    omega
  rw [← hl, List.take_left]

theorem length_blit {keyOut src r : Bytes} {offset : ℕ} (h : blit keyOut offset src = .ok r) :
    r.length = keyOut.length := by
  obtain ⟨hle, rfl⟩ := blit_eq_ok.mp h
  simp only [List.length_append, List.length_take, List.length_drop]
  omega

namespace AgreeOn
variable {size n p : ℕ} {keyOut keyOut' src r : Bytes}

theorem mono (h : AgreeOn size n keyOut keyOut') (hp : p ≤ n) : AgreeOn size p keyOut keyOut' := by
  refine ⟨h.length, h.length', ?_⟩
  have ht := congrArg (List.take p) h.take
  rwa [List.take_take, List.take_take, min_eq_left hp] at ht

theorem blit {offset : ℕ} (h : AgreeOn size n keyOut keyOut') (ho : offset ≤ n)
    (hr : blit keyOut offset src = .ok r) : ∃ r', BtreeRedis.blit keyOut' offset src = .ok r' ∧
      AgreeOn size n r r' ∧ AgreeOn size (offset + src.length) r r' := by
  obtain ⟨hle, rfl⟩ := blit_eq_ok.mp hr
  have hle' : offset + src.length ≤ keyOut'.length := by rw [h.length', ← h.length]; exact hle
  have hr' := blit_eq_ok.mpr ⟨hle', rfl⟩
  have hlen := (length_blit hr).trans h.length
  have hlen' := (length_blit hr').trans h.length'
  have hhead := (h.mono ho).take
  have hnear : AgreeOn size (offset + src.length)
      (keyOut.take offset ++ src ++ keyOut.drop (offset + src.length))
      (keyOut'.take offset ++ src ++ keyOut'.drop (offset + src.length)) := by
    refine ⟨hlen, hlen', ?_⟩
    rw [take_blit hle', take_blit hle, hhead]
  refine ⟨_, hr', ?_, hnear⟩
  rcases Nat.le_total n (offset + src.length) with hn | hn
  · exact hnear.mono hn
  · refine ⟨hlen, hlen', ?_⟩
    have hdrop : ∀ b : Bytes, (b.drop (offset + src.length)).take (n - (offset + src.length)) =
        (b.take n).drop (offset + src.length) := fun b => List.drop_take.symm
    have hl : (keyOut.take offset ++ src).length = offset + src.length := by
      rw [List.length_append, List.length_take]
      omega
    have happ : ∀ b : Bytes, (keyOut.take offset ++ src ++ b).take n =
        keyOut.take offset ++ src ++ b.take (n - (offset + src.length)) := by
      intro b
      rw [List.take_append, hl, List.take_of_length_le (hl.trans_le hn)]
    rw [hhead, happ, happ, hdrop, hdrop, h.take]

end AgreeOn

structure Scanned.Agree {σ : Type} (size n : ℕ) (r r' : Scanned σ) : Prop where
  more : r'.more = r.more
  state : r'.state = r.state
  keyOut : AgreeOn size n r.keyOut r'.keyOut

section
variable {σ : Type} {found : Callback σ} {size : ℕ} {keyOut keyOut' : Bytes} {state : σ} {r : Scanned σ}

theorem BTreeNode.scanSlots_agree {p : ℕ} (slots : List (Slot Bytes)) (h : AgreeOn size p keyOut keyOut')
    (hr : scanSlots found p slots keyOut state = .ok r) :
    ∃ r', scanSlots found p slots keyOut' state = .ok r' ∧ r.Agree size p r' := by
  induction slots generalizing keyOut keyOut' state with
  | nil =>
    obtain rfl := Except.ok.inj hr
    exact ⟨_, rfl, rfl, rfl, h⟩
  | cons s slots ih =>
    obtain ⟨k, hk, hr⟩ := bind_eq_ok.mp hr
    obtain ⟨k', hk', hagree, hwritten⟩ := h.blit le_rfl hk
    have hkey : k'.take (s.key.length + p) = k.take (s.key.length + p) := by
      rw [Nat.add_comm]
      exact hwritten.take
    simp only [scanSlots, hk', ok_bind, hkey]
    split at hr
    · exact ih hagree hr
    · obtain rfl := Except.ok.inj hr
      exact ⟨_, rfl, rfl, rfl, hagree⟩

def BTreeNode.startSlot (n : BTreeNode Bytes) : Option Bytes → Except Fault ℕ
  | some key => (n.lowerBound key).map Prod.fst
  | none => pure 0

theorem BTreeNode.rangeLookup_eq (n : BTreeNode Bytes) (key : Option Bytes) (keyOut : Bytes) (state : σ) :
    n.rangeLookup found key keyOut state =
      n.startSlot key >>= fun start => scanSlots found n.prefixLength (n.slots.drop start) keyOut state := by
  cases key <;> rfl

theorem BTreeNode.rangeLookup_agree {n : BTreeNode Bytes} {key : Option Bytes}
    (h : AgreeOn size n.prefixLength keyOut keyOut') (hr : n.rangeLookup found key keyOut state = .ok r) :
    ∃ r', n.rangeLookup found key keyOut' state = .ok r' ∧ r.Agree size n.prefixLength r' := by
  rw [rangeLookup_eq] at hr ⊢
  obtain ⟨start, hstart, hr⟩ := bind_eq_ok.mp hr
  obtain ⟨r', hr', hagree⟩ := scanSlots_agree _ h hr
  exact ⟨r', bind_eq_ok.mpr ⟨start, hstart, hr'⟩, hagree⟩

namespace DenseNode
variable {d : DenseNode}

theorem length_keyBytes (d : DenseNode) (i : ℕ) : (d.keyBytes i).length = computeNumericPartLen d.fullKeyLen :=
  length_digits _ _

theorem maskLoop_agree (fuel : ℕ) {n wordIndex shift : ℕ} {word : Mask} (h : AgreeOn size n keyOut keyOut')
    (hn : computeNumericPrefixLength d.fullKeyLen ≤ n)
    (hr : maskLoop found d fuel wordIndex shift word keyOut state = .ok r) :
    ∃ r', maskLoop found d fuel wordIndex shift word keyOut' state = .ok r' ∧ r.Agree size n r' := by
  induction fuel generalizing wordIndex shift word keyOut keyOut' state with
  | zero => cases hr
  | succ fuel ih =>
    rw [maskLoop] at hr ⊢
    dsimp only at hr ⊢
    split_ifs at hr ⊢
    · obtain rfl := Except.ok.inj hr
      exact ⟨_, rfl, rfl, rfl, h⟩
    · split at hr
      · exact ih h hr
      · cases hr
    · obtain rfl := Except.ok.inj hr
      exact ⟨_, rfl, rfl, rfl, h⟩
    · obtain ⟨k, hk, hr⟩ := bind_eq_ok.mp hr
      obtain ⟨val, hval, hr⟩ := bind_eq_ok.mp hr
      obtain ⟨k', hk', hagree, hwritten⟩ := h.blit hn hk
      have hkey : k'.take d.fullKeyLen = k.take d.fullKeyLen := by
        have hfull := hwritten.take
        rwa [length_keyBytes, numericLen_add] at hfull
      simp only [hk', hval, ok_bind, hkey]
      split at hr
      · exact ih hagree hr
      · obtain rfl := Except.ok.inj hr
        exact ⟨_, rfl, rfl, rfl, hagree⟩

/-- The bytes of the numeric prefix behind the common one are put into the buffer first. -/
def putPrefix (d : DenseNode) (keyOut : Bytes) : Except Fault Bytes :=
  if d.prefixLength < computeNumericPrefixLength d.fullKeyLen
  then blit keyOut d.prefixLength ((d.lowerFence.take (computeNumericPrefixLength d.fullKeyLen)).drop d.prefixLength)
  else pure keyOut

def scanMask (d : DenseNode) (found : Callback σ) (behind : ℕ → Except Fault Mask) (firstIndex : ℕ) (keyOut : Bytes)
    (state : σ) : Except Fault (Scanned σ) :=
  d.maskWord behind (firstIndex / maskBitsPerWord) >>= fun word =>
    maskLoop found d d.scanFuel (firstIndex / maskBitsPerWord) (firstIndex % maskBitsPerWord)
      (word >>> (firstIndex % maskBitsPerWord)) keyOut state

variable {behind : ℕ → Except Fault Mask}

theorem rangeLookup1_eq (d : DenseNode) (key : Option Bytes) (keyLen : ℕ) (keyOut : Bytes) (state : σ) :
    d.rangeLookup1 found behind key keyLen keyOut state = d.isNumericRangeAnyLen key keyLen >>= fun inRange =>
      if inRange then d.firstIndex key >>= fun firstIndex =>
        ensure (computeNumericPrefixLength d.fullKeyLen ≤ d.lowerFence.length) .undefined >>= fun _ =>
        d.putPrefix keyOut >>= fun keyOut => d.scanMask found behind firstIndex keyOut state
      else pure ⟨true, keyOut, state⟩ := by
  unfold rangeLookup1 putPrefix
  by_cases hp : d.prefixLength < computeNumericPrefixLength d.fullKeyLen
  · simp only [if_pos hp]
    rfl
  · simp only [if_neg hp]
    rfl

theorem putPrefix_agree {k : Bytes} (h : AgreeOn size d.prefixLength keyOut keyOut')
    (hlen : computeNumericPrefixLength d.fullKeyLen ≤ d.lowerFence.length)
    (hk : d.putPrefix keyOut = .ok k) : ∃ k', d.putPrefix keyOut' = .ok k' ∧
      AgreeOn size (max d.prefixLength (computeNumericPrefixLength d.fullKeyLen)) k k' := by
  unfold putPrefix at hk ⊢
  split_ifs at hk ⊢ with hp
  · obtain ⟨k', hk', -, hagree⟩ := h.blit le_rfl hk
    rw [List.length_drop, List.length_take, min_eq_left hlen, Nat.add_sub_cancel' hp.le] at hagree
    exact ⟨k', hk', by rwa [max_eq_right hp.le]⟩
  · obtain rfl := Except.ok.inj hk
    exact ⟨keyOut', rfl, by rwa [max_eq_left (not_lt.mp hp)]⟩

theorem rangeLookup1_agree {key : Option Bytes} {keyLen : ℕ} (h : AgreeOn size d.prefixLength keyOut keyOut')
    (hr : d.rangeLookup1 found behind key keyLen keyOut state = .ok r) :
    ∃ r', d.rangeLookup1 found behind key keyLen keyOut' state = .ok r' ∧ r.Agree size d.prefixLength r' := by
  rw [rangeLookup1_eq] at hr ⊢
  obtain ⟨inRange, hin, hr⟩ := bind_eq_ok.mp hr
  rw [hin, ok_bind]
  cases inRange with
  | false =>
    obtain rfl := Except.ok.inj hr
    exact ⟨_, rfl, rfl, rfl, h⟩
  | true =>
    rw [if_pos rfl] at hr ⊢
    obtain ⟨firstIndex, hfirst, hr⟩ := bind_eq_ok.mp hr
    obtain ⟨_, hlen, hr⟩ := bind_eq_ok.mp hr
    obtain ⟨k, hk, hr⟩ := bind_eq_ok.mp hr
    obtain ⟨k', hk', hagree⟩ := putPrefix_agree h (ensure_eq_ok.mp hlen) hk
    rw [hfirst, ok_bind, hlen, ok_bind, hk', ok_bind]
    obtain ⟨word, hword, hr⟩ := bind_eq_ok.mp hr
    obtain ⟨r', hr', ha⟩ := maskLoop_agree _ hagree (le_max_right ..) hr
    exact ⟨r', bind_eq_ok.mpr ⟨word, hword, hr'⟩, ha.more, ha.state, ha.keyOut.mono (le_max_left ..)⟩

end DenseNode

variable {free : FreeBytes}

theorem LeafNode.rangeLookup_agree {l : LeafNode} {key : Option Bytes} {keyLen : ℕ}
    (h : AgreeOn size l.prefixLength keyOut keyOut') (hr : l.rangeLookup found free key keyLen keyOut state = .ok r) :
    ∃ r', l.rangeLookup found free key keyLen keyOut' state = .ok r' ∧ r.Agree size l.prefixLength r' := by
  cases l with
  | basic n => exact BTreeNode.rangeLookup_agree h hr
  | dense d => exact DenseNode.rangeLookup1_agree h hr

theorem LeafNode.Inv.prefixLength_eq {enableDense : Bool} {l : LeafNode} {lower upper : Bytes}
    (h : l.Inv enableDense lower upper) : l.prefixLength = commonPrefixLength lower upper := by
  rw [← h.lowerFence, ← h.upperFence]
  cases l with
  | basic n => exact h.kind.1.prefixLen
  | dense d => exact h.kind.1.prefixLen

theorem LeafNode.Inv.prefixLength_le {enableDense : Bool} {l : LeafNode} {lower upper key : Bytes}
    (h : l.Inv enableDense lower upper) (hk : InFences lower upper key) : l.prefixLength ≤ key.length := by
  rw [h.prefixLength_eq]
  have hp := hk.isPrefix.length_le
  rwa [List.length_take, min_eq_left (commonPrefixLength_le_left _ _)] at hp

theorem LeafNode.Inv.prefixLength_le_upper {enableDense : Bool} {l : LeafNode} {lower upper : Bytes}
    (h : l.Inv enableDense lower upper) : l.prefixLength ≤ l.upperFence.length := by
  rw [h.prefixLength_eq, h.upperFence]
  exact commonPrefixLength_le_right _ _

namespace BTree
variable {t : BTree} {enableDense : Bool}

theorem rangeLoop_agree (ht : t.Inv enableDense) (fuel : ℕ) {leafKey : Option Bytes} {keyLen : ℕ}
    {res : Bytes × σ} (h : AgreeOn size keyLen keyOut keyOut')
    (hr : t.rangeLoop found free fuel leafKey keyLen keyOut state = .ok res) :
    ∃ res', t.rangeLoop found free fuel leafKey keyLen keyOut' state = .ok res' ∧ res'.2 = res.2 ∧
      res.1.length = size ∧ res'.1.length = size := by
  induction fuel generalizing leafKey keyLen keyOut keyOut' state with
  | zero => cases hr
  | succ fuel ih =>
    rw [rangeLoop] at hr ⊢
    obtain ⟨l, a, b, pre, post, hl, f⟩ :=
      AnyNode.leafFor_spec t.height t.root ht (inFences_nil (keyOut.take keyLen))
    have hleaf : t.leafFor (keyOut.take keyLen) = .ok l := hl
    have hp : l.prefixLength ≤ keyLen :=
      (f.inv.prefixLength_le f.inFences).trans (List.length_take_le ..)
    rw [h.take]
    rw [hleaf, ok_bind] at hr ⊢
    obtain ⟨scanned, hscan, hr⟩ := bind_eq_ok.mp hr
    obtain ⟨scanned', hscan', hagree⟩ := LeafNode.rangeLookup_agree (h.mono hp) hscan
    rw [hscan', ok_bind, hagree.more, hagree.state]
    by_cases hmore : scanned.more = true
    · rw [if_pos hmore] at hr ⊢
      obtain ⟨k, hk, hr⟩ := bind_eq_ok.mp hr
      obtain ⟨k₂, hk₂, hr⟩ := bind_eq_ok.mp hr
      obtain ⟨k', hk', -, hupper⟩ := hagree.keyOut.blit le_rfl hk
      rw [List.length_drop, Nat.add_sub_cancel' f.inv.prefixLength_le_upper] at hupper
      obtain ⟨k₂', hk₂', -, hnext⟩ := hupper.blit le_rfl hk₂
      rw [hk', ok_bind, hk₂', ok_bind]
      split_ifs at hr ⊢
      · obtain rfl := Except.ok.inj hr
        exact ⟨_, rfl, rfl, hnext.length, hnext.length'⟩
      · exact ih hnext hr
    · rw [if_neg hmore] at hr ⊢
      obtain rfl := Except.ok.inj hr
      exact ⟨_, rfl, rfl, hagree.keyOut.length, hagree.keyOut.length'⟩

theorem rangeLookupImpl_agree (ht : t.Inv enableDense) {fuel : ℕ} {startKey : Bytes} {res : Bytes × σ}
    (hlen : keyOut.length = size) (hlen' : keyOut'.length = size)
    (hr : t.rangeLookupImpl found free fuel startKey keyOut state = .ok res) :
    ∃ res', t.rangeLookupImpl found free fuel startKey keyOut' state = .ok res' ∧ res'.2 = res.2 ∧
      res.1.length = size ∧ res'.1.length = size := by
  have hstart : AgreeOn size 0 keyOut keyOut' := ⟨hlen, hlen', by rw [List.take_zero, List.take_zero]⟩
  obtain ⟨k, hk, hr⟩ := bind_eq_ok.mp hr
  obtain ⟨k', hk', -, hagree⟩ := hstart.blit le_rfl hk
  rw [Nat.zero_add] at hagree
  obtain ⟨res', hres', heq⟩ := rangeLoop_agree ht fuel hagree hr
  exact ⟨res', bind_eq_ok.mpr ⟨k', hk', hres'⟩, heq⟩

end BTree

end

end BtreeRedis
