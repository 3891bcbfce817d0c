import BtreeRedis.Head.Inner

/-!
# Head nodes as separators and children

Widening, narrowing and shifting a head yields the head of the same separator, or of what is left
of it behind a longer prefix. So a head node keeps its separators, its children and its fences in
every shape, and its halves share them out.
-/

namespace BtreeRedis

open LexOrder SortedAssoc BigEndian

theorem head_lor {a l : ℕ} (h : l < 256) : a * 256 ||| l = a * 256 + l := by
  rw [Nat.mul_comm]
  exact (Nat.two_pow_add_eq_or_of_lt (i := 8) h a).symm

theorem makeNeedleHead_parts {T : HeadType} {s : Bytes} (h : s.length < T.size) :
    makeNeedleHead T s % 256 = s.length ∧
      makeNeedleHead T s - makeNeedleHead T s % 256 = padded s (T.size - 1) * 256 ∧
      makeNeedleHead T s = padded s (T.size - 1) * 256 + s.length := by
  have hlt := T.size_lt
  have heq := makeNeedleHead_eq T s
  rw [Nat.min_eq_left h.le] at heq
  omega

theorem widenHead_eq {s : Bytes} (h : s.length < 4) :
    widenHead (makeNeedleHead .uint32 s) = makeNeedleHead .uint64 s := by
  obtain ⟨hmod, hsub, -⟩ := makeNeedleHead_parts (T := .uint32) h
  obtain ⟨-, -, heq⟩ := makeNeedleHead_parts (T := .uint64) (s := s) (show s.length < 8 by omega)
  have hpad : padded s 7 = padded s 3 * 256 ^ 4 := padded_add (show s.length ≤ 3 by omega) 4
  have hshift : padded s 3 * 256 * 2 ^ 32 = padded s 7 * 256 := by
    rw [hpad]
    ring
  rw [widenHead, hsub, hmod, heq]
  change padded s 3 * 256 * 2 ^ 32 ||| s.length = padded s 7 * 256 + s.length
  rw [hshift, head_lor (by omega)]

theorem narrowHead_eq {s : Bytes} (h : s.length < 4) :
    narrowHead (makeNeedleHead .uint64 s) = makeNeedleHead .uint32 s := by
  obtain ⟨hmod, -, hhead⟩ := makeNeedleHead_parts (T := .uint64) (s := s) (show s.length < 8 by omega)
  obtain ⟨-, -, heq⟩ := makeNeedleHead_parts (T := .uint32) h
  have hpad : padded s 7 = padded s 3 * 256 ^ 4 := padded_add (show s.length ≤ 3 by omega) 4
  have hdiv : makeNeedleHead .uint64 s / 2 ^ 32 = padded s 3 * 256 := by
    rw [hhead]
    change (padded s 7 * 256 + s.length) / 2 ^ 32 = _
    rw [hpad]
    omega
  rw [narrowHead, hmod, hdiv, heq, head_lor (by omega)]
  rfl

theorem shiftHead_eq {T : HeadType} {d s : Bytes} (h : (d ++ s).length < T.size) :
    shiftHead T d.length (makeNeedleHead T (d ++ s)) = makeNeedleHead T s := by
  have hpos := T.size_pos
  have h256 := T.size_lt
  rw [List.length_append] at h
  obtain ⟨hmod, hsub, -⟩ := makeNeedleHead_parts (T := T) (s := d ++ s) (by rw [List.length_append]; exact h)
  obtain ⟨-, -, heq⟩ := makeNeedleHead_parts (T := T) (s := s) (by omega)
  have hlt : padded s (T.size - 1) < 256 ^ (T.size - 1) := padded_lt (by decide) s _
  have hpad : padded s (T.size - 1) = padded s (T.size - 1 - d.length) * 256 ^ d.length := by
    have hadd := padded_add (s := s) (w := T.size - 1 - d.length) (by omega) d.length
    rwa [Nat.sub_add_cancel (by omega)] at hadd
  have hbytes : padded (d ++ s) (T.size - 1) * 256 ^ d.length =
      value d * 256 ^ (T.size - 1) + padded s (T.size - 1) := by
    rw [padded_append (by omega), Nat.add_mul, Nat.mul_assoc, ← pow_add, Nat.sub_add_cancel (by omega), ← hpad]
  have hsize : (2 : ℕ) ^ (T.size * 8) = 256 ^ (T.size - 1) * 256 := by
    rw [← pow_succ, Nat.sub_add_cancel hpos, Nat.mul_comm, pow_mul]
    norm_num
  have hshift : padded (d ++ s) (T.size - 1) * 256 * 2 ^ (d.length * 8) % 2 ^ (T.size * 8) =
      padded s (T.size - 1) * 256 := by
    rw [hsize, Nat.mul_comm d.length 8, pow_mul]
    calc padded (d ++ s) (T.size - 1) * 256 * 256 ^ d.length % (256 ^ (T.size - 1) * 256)
        = (value d * 256 ^ (T.size - 1) + padded s (T.size - 1)) * 256 % (256 ^ (T.size - 1) * 256) := by
          rw [← hbytes]
          ring_nf
      _ = (value d * 256 ^ (T.size - 1) + padded s (T.size - 1)) % 256 ^ (T.size - 1) * 256 :=
          Nat.mul_mod_mul_right _ _ _
      _ = padded s (T.size - 1) * 256 := by
          rw [Nat.mul_add_mod_self_right, Nat.mod_eq_of_lt hlt]
  rw [shiftHead, hsub, hmod, hshift, heq, List.length_append, Nat.add_sub_cancel_left, head_lor (by omega)]

def Within (lower upper s : Bytes) : Prop := lower < s ∧ (upper = [] ∨ s ≤ upper) ∧ s.length ≤ maxKVSize

theorem Within.inFences {lower upper s : Bytes} (h : Within lower upper s) : InFences lower upper s :=
  ⟨Or.inr h.1, h.2.1⟩

/-- Ascending separators between two fences, each with the child left of it, and a child behind the last one. -/
structure Routing (γ : Type) where
  lower : Bytes
  upper : Bytes
  separators : List Bytes
  children : List γ
  lower_len : lower.length ≤ maxKVSize
  upper_len : upper.length ≤ maxKVSize
  fences : FencesOrdered lower upper
  ascending : Ascending separators
  within : ∀ s ∈ separators, Within lower upper s
  length : children.length = separators.length + 1

namespace Routing
variable {γ : Type}

def insert (a : Routing γ) (key : Bytes) (child : γ) (hk : Within a.lower a.upper key)
    (hnew : key ∉ a.separators) : Routing γ where
  lower := a.lower
  upper := a.upper
  separators := a.separators.insertIdx (lowerIndex a.separators key) key
  children := a.children.insertIdx (lowerIndex a.separators key) child
  lower_len := a.lower_len
  upper_len := a.upper_len
  fences := a.fences
  ascending := a.ascending.insertIdx hnew
  within := by
    intro s hs
    rcases (List.mem_insertIdx (lowerIndex_le_length _ _)).mp hs with rfl | hs
    · exact hk
    · exact a.within s hs
  length := by
    have hle := lowerIndex_le_length a.separators key
    have hlen := a.length
    rw [List.length_insertIdx_of_le_length hle, List.length_insertIdx_of_le_length (by omega), hlen]

def remove (a : Routing γ) (i : ℕ) (hi : i < a.separators.length) : Routing γ where
  lower := a.lower
  upper := a.upper
  separators := a.separators.eraseIdx i
  children := a.children.eraseIdx i
  lower_len := a.lower_len
  upper_len := a.upper_len
  fences := a.fences
  ascending := a.ascending.sublist (List.eraseIdx_sublist _ _)
  within := fun s hs => a.within s (List.mem_of_mem_eraseIdx hs)
  length := by
    have hlen := a.length
    rw [List.length_eraseIdx_of_lt hi, List.length_eraseIdx_of_lt (by omega), hlen]
    omega

def left (a : Routing γ) (i : ℕ) (hi : i < a.separators.length) : Routing γ where
  lower := a.lower
  upper := a.separators[i]
  separators := a.separators.take i
  children := a.children.take (i + 1)
  lower_len := a.lower_len
  upper_len := (a.within _ (List.getElem_mem hi)).2.2
  fences := Or.inr (a.within _ (List.getElem_mem hi)).1.le
  ascending := a.ascending.sublist (List.take_sublist _ _)
  within := by
    intro s hs
    have hmem := a.within s (List.mem_of_mem_take hs)
    obtain ⟨j, hj, rfl⟩ := List.mem_iff_getElem.mp hs
    rw [List.length_take] at hj
    rw [List.getElem_take] at hmem ⊢
    exact ⟨hmem.1, Or.inr (a.ascending.getElem_le (by omega) hi), hmem.2.2⟩
  length := by
    have hlen := a.length
    rw [List.length_take, List.length_take]
    omega

def right (a : Routing γ) (i : ℕ) (hi : i < a.separators.length) : Routing γ where
  lower := a.separators[i]
  upper := a.upper
  separators := a.separators.drop (i + 1)
  children := a.children.drop (i + 1)
  lower_len := (a.within _ (List.getElem_mem hi)).2.2
  upper_len := a.upper_len
  fences := (a.within _ (List.getElem_mem hi)).2.1
  ascending := a.ascending.sublist (List.drop_sublist _ _)
  within := by
    intro s hs
    have hmem := a.within s (List.mem_of_mem_drop hs)
    obtain ⟨j, hj, rfl⟩ := List.mem_iff_getElem.mp hs
    rw [List.length_drop] at hj
    rw [List.getElem_drop] at hmem ⊢
    exact ⟨a.ascending.getElem_lt (by omega) (by omega), hmem.2⟩
  length := by
    have hlen := a.length
    rw [List.length_drop, List.length_drop]
    omega

def truncated (a : Routing γ) : List Bytes := a.separators.map (·.drop (commonPrefixLength a.lower a.upper))

theorem isPrefix (a : Routing γ) {s : Bytes} (hs : s ∈ a.separators) :
    a.lower.take (commonPrefixLength a.lower a.upper) <+: s := (a.within s hs).inFences.isPrefix

theorem getPrefix_append (a : Routing γ) :
    a.truncated.map (a.lower.take (commonPrefixLength a.lower a.upper) ++ ·) = a.separators := by
  rw [truncated, List.map_map]
  conv_rhs => rw [← List.map_id a.separators]
  refine List.map_congr_left fun s hs => ?_
  obtain ⟨r, hr⟩ := a.isPrefix hs
  have hlen : (a.lower.take (commonPrefixLength a.lower a.upper)).length = commonPrefixLength a.lower a.upper := by
    simpa using commonPrefixLength_le_left a.lower a.upper
  rw [Function.comp_apply, ← hr, List.drop_left' hlen, id_eq]

theorem ascending_truncated (a : Routing γ) : Ascending a.truncated := by
  have hs := a.ascending
  rw [← a.getPrefix_append, Ascending, List.pairwise_map] at hs
  exact hs.imp fun hab => append_lt_append_iff.mp hab

@[simp] theorem length_truncated (a : Routing γ) : a.truncated.length = a.separators.length := List.length_map _

end Routing

namespace HeadNode
variable {T : HeadType} {γ : Type} {n m : HeadNode T γ} {a : Routing γ}

def capacity (T : HeadType) (lower upper : Bytes) : ℕ :=
  (pageSize - lower.length - upper.length - T.paddedHeadSize - pointerSize) / (T.size + pointerSize)

structure Holds (n : HeadNode T γ) (a : Routing γ) : Prop where
  lowerFence : n.lowerFence = a.lower
  upperFence : n.upperFence = a.upper
  prefixLen : n.prefixLength = commonPrefixLength a.lower a.upper
  keys : n.keys = a.truncated.map (makeNeedleHead T)
  short : ∀ s ∈ a.truncated, s.length < T.size
  children : n.children = a.children
  keyCapacity : n.keyCapacity = capacity T a.lower a.upper
  room : n.count ≤ n.keyCapacity
  hints : n.validateHint = .ok ()

theorem paddedHeadSize_le (T : HeadType) : T.paddedHeadSize ≤ 80 := by
  cases T <;> decide

def fresh (T : HeadType) (lower upper : Bytes) : HeadNode T γ :=
  { keyCapacity := capacity T lower upper, lowerFence := lower, upperFence := upper
    prefixLength := commonPrefixLength lower upper, hint := List.replicate hintCount 0, keys := [], children := [] }

theorem init_eq {lower upper : Bytes} (hl : lower.length ≤ maxKVSize) (hu : upper.length ≤ maxKVSize) :
    (HeadNode.init lower upper : Except Fault (HeadNode T γ)) = .ok (fresh T lower upper) := by
  have hhead := paddedHeadSize_le T
  rw [HeadNode.init, ensure_of]
  · rfl
  · simp only [maxKVSize, pageSize, headerSize, slotSize, pointerSize] at *
    omega

def filled (T : HeadType) (a : Routing γ) (children : List γ) : HeadNode T γ :=
  { (fresh T a.lower a.upper : HeadNode T γ) with keys := a.truncated.map (makeNeedleHead T), children }

theorem filled_holds (hs : ∀ s ∈ a.truncated, s.length < T.size)
    (hroom : a.separators.length ≤ capacity T a.lower a.upper) : (filled T a a.children).makeHint.Holds a := by
  refine ⟨rfl, rfl, rfl, rfl, hs, rfl, rfl, ?_, makeHint_valid _⟩
  change (a.truncated.map (makeNeedleHead T)).length ≤ _
  rw [List.length_map, Routing.length_truncated]
  exact hroom

namespace Holds

theorem count_eq (h : n.Holds a) : n.count = a.separators.length := by
  rw [count, h.keys, List.length_map, Routing.length_truncated]

theorem getPrefix_eq (h : n.Holds a) : n.getPrefix = a.lower.take (commonPrefixLength a.lower a.upper) := by
  rw [getPrefix, h.lowerFence, h.prefixLen]

theorem headsOf (h : n.Holds a) : HeadsOf n a.truncated := by
  refine ⟨?_, a.ascending_truncated, ?_⟩
  · rw [h.keys, List.map_map]
    refine List.map_congr_left fun s hs => ?_
    exact (makeSepHead_eq_some.mpr ⟨h.short s hs, rfl⟩).symm
  · rw [h.prefixLen, h.lowerFence, h.upperFence]

theorem separators_eq (h : n.Holds a) : n.separators = a.separators := by
  rw [h.headsOf.separators_eq, h.getPrefix_eq, a.getPrefix_append]

theorem wf (h : n.Holds a) : WF n a.truncated := by
  refine ⟨h.headsOf, ?_, fun s hs => ?_, ?_⟩
  · rw [h.lowerFence, h.upperFence]
    exact a.fences
  · have hmem : n.getPrefix ++ s ∈ a.separators := by
      rw [← a.getPrefix_append, ← h.getPrefix_eq]
      exact List.mem_map_of_mem hs
    rw [h.lowerFence, h.upperFence]
    exact (a.within _ hmem).inFences
  · rw [h.children, a.length, h.count_eq]

theorem getKeyLength_lt (h : n.Holds a) (k : ℕ) :
    ((List.range n.count).any fun i => decide (k ≤ n.getKeyLength i)) = false ↔ ∀ s ∈ a.truncated, s.length < k := by
  have hlen : a.truncated.length = n.count := by rw [h.count_eq, Routing.length_truncated]
  simp only [List.any_eq_false, List.mem_range, decide_eq_true_eq, not_le]
  constructor
  · intro hall s hs
    obtain ⟨i, hi, rfl⟩ := List.mem_iff_getElem.mp hs
    rw [← h.headsOf.getKeyLength_eq hi]
    exact hall i (by omega)
  · intro hall i hi
    rw [h.headsOf.getKeyLength_eq (hlen ▸ hi)]
    exact hall _ (List.getElem_mem _)

end Holds

theorem capacity_lt (a : Routing γ) : capacity .uint64 a.lower a.upper < capacity .uint32 a.lower a.upper := by
  have hl := a.lower_len
  have hu := a.upper_len
  simp only [capacity, HeadType.paddedHeadSize, HeadType.size, hintCount, maxKVSize, pageSize, headerSize, slotSize,
    pointerSize] at *
  omega

theorem Holds.take_children (h : n.Holds a) : n.children.take (n.count + 1) = a.children := by
  rw [h.children, List.take_of_length_le]
  rw [a.length, h.count_eq]

theorem Holds.keys_widen {n : HeadNode .uint32 γ} (h : n.Holds a) :
    n.keys.map widenHead = a.truncated.map (makeNeedleHead .uint64) := by
  rw [h.keys, List.map_map]
  refine List.map_congr_left fun s hs => ?_
  rw [Function.comp_apply, widenHead_eq (h.short s hs)]

theorem convertToHead8WithSpace_capacity {n : HeadNode .uint32 γ} (h : n.Holds a) :
    (n.fencesOffset - HeadType.paddedHeadSize .uint64 - pointerSize) / (8 + pointerSize) =
      capacity .uint64 a.lower a.upper := by
  simp only [fencesOffset, capacity, HeadType.size, h.lowerFence, h.upperFence]

theorem convertToHead8WithSpace_spec {n : HeadNode .uint32 γ} (h : n.Holds a) :
    ∃ res, n.convertToHead8WithSpace = .ok res ∧ ∀ m, res = some m → m.Holds a ∧ m.count < m.keyCapacity := by
  have hcount := h.count_eq
  simp only [convertToHead8WithSpace, ensure_of (show HeadType.size .uint32 = 4 from rfl), ok_bind,
    convertToHead8WithSpace_capacity h]
  split_ifs with hfull
  · exact ⟨none, rfl, by simp⟩
  · rw [h.lowerFence, h.upperFence, init_eq a.lower_len a.upper_len, ok_bind, h.take_children, h.keys_widen,
      ensure_of (show (fresh .uint64 a.lower a.upper : HeadNode .uint64 γ).keyCapacity =
        capacity .uint64 a.lower a.upper from rfl), ok_bind]
    refine ⟨some (filled .uint64 a a.children).makeHint, rfl, ?_⟩
    rintro _ ⟨⟩
    refine ⟨filled_holds (fun s hs => (h.short s hs).trans (by decide)) (by omega), ?_⟩
    change (a.truncated.map (makeNeedleHead .uint64)).length < capacity .uint64 a.lower a.upper
    rw [List.length_map, Routing.length_truncated]
    omega

theorem convertToHead4WithSpace_spec {n : HeadNode .uint64 γ} (h : n.Holds a) :
    ∃ res, n.convertToHead4WithSpace = .ok res ∧ ∀ m, res = some m → m.Holds a ∧ m.count < m.keyCapacity := by
  rw [convertToHead4WithSpace, ensure_of (show HeadType.size .uint64 = 8 from rfl), ok_bind]
  split_ifs with hlong
  · exact ⟨none, rfl, by simp⟩
  · have hshort := (h.getKeyLength_lt 4).mp (Bool.eq_false_iff.mpr hlong)
    have hkeys : n.keys.map narrowHead = a.truncated.map (makeNeedleHead .uint32) := by
      rw [h.keys, List.map_map]
      exact List.map_congr_left fun s hs => narrowHead_eq (hshort s hs)
    have hcount := h.count_eq
    have hroom := h.room
    have hlt := capacity_lt a
    rw [h.keyCapacity] at hroom
    rw [h.lowerFence, h.upperFence, init_eq a.lower_len a.upper_len, ok_bind, h.take_children, hkeys]
    refine ⟨some (filled .uint32 a a.children).makeHint, rfl, ?_⟩
    rintro _ ⟨⟩
    refine ⟨filled_holds hshort (by omega), ?_⟩
    change (a.truncated.map (makeNeedleHead .uint32)).length < capacity .uint32 a.lower a.upper
    rw [List.length_map, Routing.length_truncated]
    omega

theorem drop_getPrefix {key : Bytes} (h : n.Holds a) (hk : Within a.lower a.upper key) :
    n.getPrefix ++ key.drop n.prefixLength = key ∧ n.prefixLength ≤ key.length := by
  obtain ⟨r, hr⟩ := hk.inFences.isPrefix
  rw [← h.getPrefix_eq] at hr
  have hlen := h.headsOf.length_getPrefix
  rw [← hr, List.drop_left' hlen, List.length_append, hlen]
  exact ⟨rfl, Nat.le_add_right _ _⟩

theorem lowerIndex_truncated (a : Routing γ) {key : Bytes} (hk : Within a.lower a.upper key) :
    lowerIndex a.truncated (key.drop (commonPrefixLength a.lower a.upper)) = lowerIndex a.separators key := by
  obtain ⟨r, hr⟩ := hk.inFences.isPrefix
  have hlen : (a.lower.take (commonPrefixLength a.lower a.upper)).length = commonPrefixLength a.lower a.upper := by
    simpa using commonPrefixLength_le_left a.lower a.upper
  rw [← hr, List.drop_left' hlen, ← a.getPrefix_append]
  exact (lowerIndex_map (fun _ _ => append_lt_append_iff) _ _).symm

theorem insertChild_spec (h : n.Holds a) {key : Bytes} (child : γ) (hk : Within a.lower a.upper key)
    (hnew : key ∉ a.separators) (hlen : key.length - n.prefixLength < T.size) (hroom : n.count < n.keyCapacity) :
    ∃ m, n.insertChild key child = .ok m ∧ m.Holds (a.insert key child hk hnew) := by
  have hpre := (drop_getPrefix h hk).2
  have hshort : (key.drop n.prefixLength).length < T.size := by
    rw [List.length_drop]
    exact hlen
  have hidx : lowerIndex a.truncated (key.drop n.prefixLength) = lowerIndex a.separators key := by
    rw [h.prefixLen]
    exact lowerIndex_truncated a hk
  have hbound := h.headsOf.lowerBound_eq h.hints (key.drop n.prefixLength)
  rw [hidx] at hbound
  have hle := lowerIndex_le_length a.separators key
  have hcount := h.count_eq
  obtain ⟨i, hi⟩ : ∃ i, i = lowerIndex a.separators key := ⟨_, rfl⟩
  rw [← hi] at hbound hle
  have htrunc : (a.insert key child hk hnew).truncated = a.truncated.insertIdx i (key.drop n.prefixLength) := by
    rw [Routing.truncated, Routing.insert, List.map_insertIdx, h.prefixLen, hi]
    rfl
  refine ⟨({ n with
    keys := n.keys.insertIdx i (makeNeedleHead T (key.drop n.prefixLength))
    children := n.children.insertIdx i child } : HeadNode T γ).updateHint i, ?_, h.lowerFence, h.upperFence,
    h.prefixLen, ?_, ?_, ?_, h.keyCapacity, ?_, ?_⟩
  · rw [insertChild, ensure_of hpre, ok_bind, makeSepHead_eq_some.mpr ⟨hshort, rfl⟩]
    dsimp only
    rw [hbound, ok_bind, ensure_of rfl, ok_bind, insertAt, ensure_of hroom, ok_bind]
    rfl
  · change n.keys.insertIdx i _ = _
    rw [htrunc, List.map_insertIdx, h.keys]
  · intro s hs
    rw [htrunc] at hs
    rcases (List.mem_insertIdx (by rw [Routing.length_truncated]; exact hle)).mp hs with rfl | hs
    · exact hshort
    · exact h.short s hs
  · change n.children.insertIdx i child = _
    rw [h.children, hi]
    rfl
  · change (n.keys.insertIdx i _).length ≤ n.keyCapacity
    rw [List.length_insertIdx_of_le_length (by rw [← hcount] at hle; exact hle)]
    exact hroom
  · exact updateHint_valid h.hints (by rw [hcount]; exact hle) rfl rfl

theorem removeSlot_spec (h : n.Holds a) {i : ℕ} (hi : i < a.separators.length) :
    ∃ m, n.removeSlot i = .ok m ∧ m.Holds (a.remove i hi) := by
  have hcount := h.count_eq
  have htrunc : (a.remove i hi).truncated = a.truncated.eraseIdx i := by
    rw [Routing.truncated, Routing.truncated, List.eraseIdx_map]
    rfl
  refine ⟨({ n with keys := n.keys.eraseIdx i, children := n.children.eraseIdx i } : HeadNode T γ).makeHint, ?_,
    h.lowerFence, h.upperFence, h.prefixLen, ?_, ?_, ?_, h.keyCapacity, ?_, makeHint_valid _⟩
  · rw [removeSlot, ensure_of (show 0 < n.count by omega)]
    rfl
  · change n.keys.eraseIdx i = _
    rw [htrunc, h.keys, List.eraseIdx_map]
  · intro s hs
    rw [htrunc] at hs
    exact h.short s (List.mem_of_mem_eraseIdx hs)
  · change n.children.eraseIdx i = _
    rw [h.children]
    rfl
  · change (n.keys.eraseIdx i).length ≤ n.keyCapacity
    exact (List.length_eraseIdx_le _ _).trans h.room

structure Part (T : HeadType) (a b : Routing γ) (start len : ℕ) : Prop where
  separators : b.separators = (a.separators.drop start).take len
  length : b.separators.length = len
  grows : commonPrefixLength a.lower a.upper ≤ commonPrefixLength b.lower b.upper
  diff : commonPrefixLength b.lower b.upper - commonPrefixLength a.lower a.upper < T.size
  room : len ≤ capacity T b.lower b.upper

namespace Part
variable {b : Routing γ} {start len : ℕ}

theorem truncated (p : Part T a b start len) :
    b.truncated = ((a.truncated.drop start).take len).map
      (·.drop (commonPrefixLength b.lower b.upper - commonPrefixLength a.lower a.upper)) := by
  rw [Routing.truncated, Routing.truncated, p.separators, ← List.map_drop, ← List.map_take, List.map_map]
  refine List.map_congr_left fun s _ => ?_
  rw [Function.comp_apply, List.drop_drop, Nat.add_sub_cancel' p.grows]

theorem diff_le (p : Part T a b start len) {s : Bytes} (hs : s ∈ (a.truncated.drop start).take len) :
    commonPrefixLength b.lower b.upper - commonPrefixLength a.lower a.upper ≤ s.length := by
  rw [Routing.truncated, ← List.map_drop, ← List.map_take, ← p.separators] at hs
  obtain ⟨t, ht, rfl⟩ := List.mem_map.mp hs
  have hle := (b.isPrefix ht).length_le
  have hpre := commonPrefixLength_le_left b.lower b.upper
  rw [List.length_take, Nat.min_eq_left hpre] at hle
  rw [List.length_drop]
  omega

end Part

theorem copyKeyValueRange_spec (h : n.Holds a) {b : Routing γ} {start len : ℕ} (p : Part T a b start len) :
    n.copyKeyValueRange (fresh T b.lower b.upper) start len =
      .ok (filled T b ((a.children.drop start).take len)) ∧
      ∀ s ∈ b.truncated, s.length < T.size := by
  have hmem : ∀ s ∈ (a.truncated.drop start).take len, s.length < T.size := fun s hs =>
    h.short s (List.mem_of_mem_drop (List.mem_of_mem_take hs))
  have hkeys : (n.keys.drop start).take len = ((a.truncated.drop start).take len).map (makeNeedleHead T) := by
    rw [h.keys, List.map_take, List.map_drop]
  obtain ⟨d, hd⟩ : ∃ d, d = commonPrefixLength b.lower b.upper - commonPrefixLength a.lower a.upper := ⟨_, rfl⟩
  have hlong : ∀ s ∈ (a.truncated.drop start).take len, d ≤ s.length := fun s hs => hd ▸ p.diff_le hs
  have htrunc := p.truncated
  have hdiff := p.diff
  rw [← hd] at htrunc hdiff
  have hshift : (if d = 0 then (n.keys.drop start).take len
      else ((n.keys.drop start).take len).map (shiftHead T d)) = b.truncated.map (makeNeedleHead T) := by
    rw [hkeys, htrunc]
    split_ifs with hzero
    · simp only [hzero, List.drop_zero, List.map_id']
    · rw [List.map_map, List.map_map]
      refine List.map_congr_left fun s hs => ?_
      have hcut : (s.take d).length = d := List.length_take_of_le (hlong s hs)
      have heq := shiftHead_eq (T := T) (d := s.take d) (s := s.drop d)
        (by rw [List.take_append_drop]; exact hmem s hs)
      rw [Function.comp_apply, Function.comp_apply, ← heq, hcut, List.take_append_drop]
  refine ⟨?_, fun s hs => ?_⟩
  · have hgap : (fresh T b.lower b.upper : HeadNode T γ).prefixLength - n.prefixLength = d := by
      rw [h.prefixLen, hd]
      rfl
    rw [copyKeyValueRange, ensure_of, ok_bind]
    · simp only [hgap, hshift]
      rw [ensure_of, ok_bind, ensure_of, ok_bind]
      · rw [h.children]
        rfl
      · change 0 + len ≤ capacity T b.lower b.upper
        have hroom := p.room
        omega
      · refine Or.inr ⟨hdiff, ?_⟩
        rw [hkeys]
        intro head hhead
        obtain ⟨s, hs, rfl⟩ := List.mem_map.mp hhead
        rw [(makeNeedleHead_parts (hmem s hs)).1]
        exact hlong s hs
    · rw [h.prefixLen]
      exact p.grows
  · rw [htrunc] at hs
    obtain ⟨t, ht, rfl⟩ := List.mem_map.mp hs
    rw [List.length_drop]
    exact (Nat.sub_le _ _).trans_lt (hmem t ht)

theorem capacity_cut {lower upper lower' upper' : Bytes} {k : ℕ}
    (hlen : lower'.length + upper'.length < lower.length + upper.length + T.size)
    (h : k + 1 ≤ capacity T lower upper) : k ≤ capacity T lower' upper' := by
  have hpos := T.size_pos
  rw [capacity, Nat.le_div_iff_mul_le (by omega), Nat.add_mul, Nat.one_mul] at h
  rw [capacity, Nat.le_div_iff_mul_le (by omega)]
  omega

theorem Holds.length_lt (h : n.Holds a) {s : Bytes} (hs : s ∈ a.separators) :
    s.length < commonPrefixLength a.lower a.upper + T.size := by
  have hlt := h.short _ (List.mem_map_of_mem hs)
  rw [List.length_drop] at hlt
  have hpos := T.size_pos
  omega

theorem left_part (h : n.Holds a) {i : ℕ} (hi : i < a.separators.length) : Part T a (a.left i hi) 0 i := by
  have hmem := List.getElem_mem hi
  obtain ⟨hlow, hup, -⟩ := a.within _ hmem
  have hlen := h.length_lt hmem
  have hroom := h.room
  rw [h.count_eq, h.keyCapacity] at hroom
  have hpos := T.size_pos
  have hright := commonPrefixLength_le_right a.lower a.upper
  have hcut := commonPrefixLength_le_right a.lower a.separators[i]
  refine ⟨rfl, List.length_take_of_le hi.le, ?_, ?_, capacity_cut ?_ (show i + 1 ≤ capacity T a.lower a.upper by omega)⟩
  · rcases hup with hnil | hup
    · rw [hnil, commonPrefixLength_nil_right]
      exact Nat.zero_le _
    · exact commonPrefixLength_mono le_rfl hlow.le hup
  · change commonPrefixLength a.lower a.separators[i] - _ < _
    omega
  · change a.lower.length + a.separators[i].length < _
    omega

theorem right_part (h : n.Holds a) {i : ℕ} (hi : i < a.separators.length) :
    Part T a (a.right i hi) (i + 1) (a.separators.length - i - 1) := by
  have hmem := List.getElem_mem hi
  obtain ⟨hlow, hup, -⟩ := a.within _ hmem
  have hlen := h.length_lt hmem
  have hroom := h.room
  rw [h.count_eq, h.keyCapacity] at hroom
  have hpos := T.size_pos
  have hleft := commonPrefixLength_le_left a.lower a.upper
  have hcut := commonPrefixLength_le_left a.separators[i] a.upper
  refine ⟨?_, ?_, ?_, ?_, capacity_cut ?_ (show _ ≤ capacity T a.lower a.upper by omega)⟩
  · refine (List.take_of_length_le ?_).symm
    change (a.separators.drop (i + 1)).length ≤ _
    rw [List.length_drop]
    omega
  · change (a.separators.drop (i + 1)).length = _
    rw [List.length_drop]
    omega
  · change _ ≤ commonPrefixLength a.separators[i] a.upper
    rcases hup with hnil | hup
    · rw [hnil, commonPrefixLength_nil_right]
      exact Nat.zero_le _
    · exact commonPrefixLength_mono hlow.le hup le_rfl
  · change commonPrefixLength a.separators[i] a.upper - _ < _
    omega
  · change a.separators[i].length + a.upper.length < _
    omega

theorem capacity_lt_pointers (T : HeadType) (lower upper : Bytes) :
    capacity T lower upper < pageSize / pointerSize := by
  cases T <;> simp only [capacity, HeadType.paddedHeadSize, HeadType.size, hintCount, pageSize, pointerSize] <;> omega

theorem splitNode_spec (h : n.Holds a) {i : ℕ} (hpos : 0 < i) (hi : i < a.separators.length) :
    ∃ l r, n.splitNode i a.separators[i] = .ok (l, r) ∧ l.Holds (a.left i hi) ∧ r.Holds (a.right i hi) := by
  obtain ⟨hl, hlshort⟩ := copyKeyValueRange_spec h (left_part h hi)
  obtain ⟨hr, hrshort⟩ := copyKeyValueRange_spec h (right_part h hi)
  have hcount := h.count_eq
  have hroom := h.room
  have hmax := capacity_lt_pointers T a.lower a.upper
  rw [h.keyCapacity] at hroom
  have hclen := a.length
  have hlcount : (filled T (a.left i hi) ((a.children.drop 0).take i)).count = i := by
    rw [filled, count, List.length_map, Routing.length_truncated]
    exact (left_part h hi).length
  have hinitl : init a.lower a.separators[i] = .ok (fresh T (a.left i hi).lower (a.left i hi).upper : HeadNode T γ) :=
    init_eq a.lower_len (a.left i hi).upper_len
  have hinitr : init a.separators[i] a.upper = .ok (fresh T (a.right i hi).lower (a.right i hi).upper : HeadNode T γ) :=
    init_eq (a.right i hi).lower_len a.upper_len
  obtain ⟨c, hc⟩ : ∃ c, a.children[i]? = some c := ⟨_, List.getElem?_eq_getElem (by omega)⟩
  obtain ⟨d, hd⟩ : ∃ d, a.children[a.separators.length]? = some d := ⟨_, List.getElem?_eq_getElem (by omega)⟩
  have hleft : a.children.take i ++ [c] = (a.left i hi).children := by
    change _ = a.children.take (i + 1)
    rw [List.take_add_one, hc]
    rfl
  have hright : (a.children.drop (i + 1)).take (a.separators.length - i - 1) ++ [d] = (a.right i hi).children := by
    have hcut := List.take_add_one (l := a.children.drop (i + 1)) (i := a.separators.length - i - 1)
    rw [List.getElem?_drop, show i + 1 + (a.separators.length - i - 1) = a.separators.length by omega, hd,
      List.take_of_length_le (by rw [List.length_drop]; omega)] at hcut
    exact hcut.symm
  refine ⟨_, _, ?_, filled_holds hlshort ?_, filled_holds hrshort ?_⟩
  · rw [splitNode, ensure_of hpos, ok_bind, ensure_of (by omega), ok_bind, h.lowerFence, h.upperFence,
      hinitl, ok_bind, hinitr, ok_bind, hl, ok_bind, hlcount, hcount, hr, ok_bind, h.children, hc, hd]
    rw [← hleft, ← hright]
    rfl
  · exact (left_part h hi).length.trans_le (left_part h hi).room
  · exact (right_part h hi).length.trans_le (right_part h hi).room

end HeadNode

end BtreeRedis
