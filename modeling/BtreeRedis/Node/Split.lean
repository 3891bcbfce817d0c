import BtreeRedis.Node.Update

/-!
# Choosing a separator and splitting a basic node

A leaf looks for a short separator around its middle; an inner node moves its middle
separator up. The separator of a leaf is at least every key that stays left and
below every key that goes right, so that both halves can take it as a fence.
-/

namespace BtreeRedis

open LexOrder SortedAssoc

structure SeparatorInfo where
  length : ℕ
  slot : ℕ
  isTruncated : Bool
  deriving DecidableEq, Repr

namespace BTreeNode
variable {π : Type} [Payload π]

def getKey (n : BTreeNode π) (slotId : ℕ) : Except Fault Bytes :=
  match n.slots[slotId]? with
  | some s => .ok s.key
  | none => .error .undefined

def commonPrefix (n : BTreeNode π) (slotA slotB : ℕ) : Except Fault ℕ := do
  ensure (slotA < n.count) .assertion
  let a ← n.getKey slotA
  let b ← n.getKey slotB
  pure (commonPrefixLength a b)

/-- The search for the first key that differs from the one at `lower` behind the common prefix.
The fuel is `upper + 1 - i`, so that running out of it is the assertion of the source. -/
def separatorLoop (n : BTreeNode π) (low : Bytes) (rangeCommonPrefix : ℕ) :
    ℕ → ℕ → Except Fault SeparatorInfo
  | 0, _ => .error .assertion
  | fuel + 1, i => do
    let key ← n.getKey i
    ensure (rangeCommonPrefix < key.length) .undefined
    if key[rangeCommonPrefix]? ≠ low[rangeCommonPrefix]? then
      if key.length = rangeCommonPrefix + 1
      then pure ⟨n.prefixLength + rangeCommonPrefix + 1, i, false⟩
      else pure ⟨n.prefixLength + rangeCommonPrefix + 1, i - 1, true⟩
    else n.separatorLoop low rangeCommonPrefix fuel (i + 1)

def findSeparatorLeaf (n : BTreeNode π) : Except Fault SeparatorInfo := do
  ensure (1 < n.count) .assertion
  let lower := n.count / 2 - n.count / 32
  let upper := lower + n.count / 16
  let rangeCommonPrefix ← n.commonPrefix lower upper
  let low ← n.getKey lower
  if low.length = rangeCommonPrefix
  then pure ⟨n.prefixLength + rangeCommonPrefix, lower, false⟩
  else n.separatorLoop low rangeCommonPrefix (upper - lower) (lower + 1)

def findSeparatorInner (n : BTreeNode π) : Except Fault SeparatorInfo := do
  ensure (1 < n.count) .assertion
  let slotId := n.count / 2 - 1
  let key ← n.getKey slotId
  pure ⟨n.prefixLength + key.length, slotId, false⟩

def findSeparator (n : BTreeNode π) : Except Fault SeparatorInfo :=
  if n.isLeaf then n.findSeparatorLeaf else n.findSeparatorInner

def restoreKey (n : BTreeNode π) (len index : ℕ) : Except Fault Bytes := do
  let key ← n.getKey index
  ensure (len - n.prefixLength ≤ key.length) .undefined
  pure (n.getPrefix ++ key.take (len - n.prefixLength))

def getSep (n : BTreeNode π) (info : SeparatorInfo) : Except Fault Bytes :=
  n.restoreKey info.length (info.slot + if info.isTruncated then 1 else 0)

def splitPages (n : BTreeNode π) (sepSlot : ℕ) (sepKey : Bytes) :
    Except Fault (BTreeNode π × BTreeNode π) := do
  ensure (0 < sepSlot) .assertion
  ensure (sepSlot < pageSize / pointerSize) .assertion
  let nodeLeft ← (init n.isLeaf).setFences n.getLowerFence sepKey
  let nodeRight ← (init n.isLeaf).setFences sepKey n.getUpperFence
  pure (nodeLeft, nodeRight)

/-- `splitNode` of a leaf; the caller puts the left half into the parent. -/
def splitLeaf (n : BTreeNode π) (sepSlot : ℕ) (sepKey : Bytes) :
    Except Fault (BTreeNode π × BTreeNode π) := do
  let (nodeLeft, nodeRight) ← n.splitPages sepSlot sepKey
  let nodeLeft ← n.copyKeyValueRange nodeLeft 0 (sepSlot + 1)
  let nodeRight ← n.copyKeyValueRange nodeRight nodeLeft.count (n.count - nodeLeft.count)
  pure (nodeLeft.makeHint, nodeRight.makeHint)

/-- `splitNode` of an inner node: the separator moves to the parent and its child becomes the
`upper` child of the left half. -/
def splitInner (n : BTreeNode π) (sepSlot : ℕ) (sepKey : Bytes) :
    Except Fault (BTreeNode π × π × BTreeNode π) := do
  let (nodeLeft, nodeRight) ← n.splitPages sepSlot sepKey
  let nodeLeft ← n.copyKeyValueRange nodeLeft 0 sepSlot
  let nodeRight ← n.copyKeyValueRange nodeRight (nodeLeft.count + 1) (n.count - nodeLeft.count - 1)
  match n.slots[nodeLeft.count]? with
  | some s => pure (nodeLeft.makeHint, s.payload, nodeRight.makeHint)
  | none => .error .undefined

section Separator
omit [Payload π]

theorem getKey_eq_ok {n : BTreeNode π} {i : ℕ} {k : Bytes} :
    n.getKey i = .ok k ↔ (keys n.content)[i]? = some k := by
  unfold getKey
  rw [keys, content, List.map_map, List.getElem?_map]
  cases n.slots[i]? <;> simp [Slot.entry]

theorem getKey_ok {n : BTreeNode π} {i : ℕ} (hi : i < (keys n.content).length) :
    n.getKey i = .ok (keys n.content)[i] :=
  getKey_eq_ok.mpr (List.getElem?_eq_getElem hi)

theorem restoreKey_eq_ok {n : BTreeNode π} {len i : ℕ} {sep : Bytes} :
    n.restoreKey len i = .ok sep ↔ ∃ k, (keys n.content)[i]? = some k ∧
      len - n.prefixLength ≤ k.length ∧ sep = n.getPrefix ++ k.take (len - n.prefixLength) := by
  simp only [restoreKey, bind_eq_ok, ensure_eq_ok, exists_const, pure_eq_ok, getKey_eq_ok]
  simp only [eq_comm]

structure Separates (ks : List Bytes) (slot : ℕ) (sep : Bytes) : Prop where
  pos : 0 < slot
  lt : slot < ks.length
  le_sep : ks[slot] ≤ sep
  sep_lt : ∀ j (hj : j < ks.length), slot < j → sep < ks[j]

theorem lt_take_succ {s t : Bytes} {m : ℕ} (hst : s < t) (he : s.take m = t.take m)
    (hne : s[m]? ≠ t[m]?) : s < t.take (m + 1) := by
  rw [← List.take_append_drop m s, he, List.take_add, append_lt_append_iff]
  rw [← List.take_append_drop m s, ← List.take_append_drop m t, he, append_lt_append_iff] at hst
  have hs : s[m]? = (s.drop m).head? := by simp
  have ht : t[m]? = (t.drop m).head? := by simp
  rw [hs, ht] at hne
  rcases hx : t.drop m with _ | ⟨b, u⟩
  · exact absurd (hx ▸ hst) (List.not_lt_nil _)
  · rcases hy : s.drop m with _ | ⟨a, r⟩
    · exact List.nil_lt_cons _ _
    · rw [hx, hy, cons_lt_cons] at hst
      rw [hx, hy] at hne
      rcases hst with hab | ⟨rfl, -⟩
      · exact cons_lt_cons.mpr (Or.inl hab)
      · exact absurd rfl hne

theorem take_eq_of_prefix {p s t : Bytes} {m : ℕ} (hm : p.length = m) (hs : p <+: s) (ht : p <+: t) :
    s.take m = t.take m := by
  rw [← hm, ← List.prefix_iff_eq_take.mp hs, ← List.prefix_iff_eq_take.mp ht]

theorem range_take_eq {ks : List Bytes} (hs : Ascending ks) {lower upper i : ℕ} (hl : lower ≤ i)
    (hu : i ≤ upper) (h : upper < ks.length) :
    (getElem ks i (by omega)).take (commonPrefixLength (getElem ks lower (by omega)) ks[upper]) =
      (getElem ks lower (by omega)).take (commonPrefixLength (getElem ks lower (by omega)) ks[upper]) := by
  have hp : (getElem ks lower (by omega)).take (commonPrefixLength (getElem ks lower (by omega)) ks[upper]) <+:
      getElem ks i (by omega) :=
    prefix_of_between (List.take_prefix _ _) (take_commonPrefix_prefix_right _ _)
      (hs.getElem_le hl (by omega)) (hs.getElem_le hu h)
  refine take_eq_of_prefix ?_ hp (List.take_prefix _ _)
  simpa using commonPrefixLength_le_left _ _

theorem lt_length_of_take_eq {s t : Bytes} {m : ℕ} (hst : s < t) (he : t.take m = s.take m) :
    m < t.length := by
  by_contra hn
  rw [List.take_of_length_le (not_lt.mp hn)] at he
  exact absurd (take_le m s) (not_le.mpr (he ▸ hst))

structure FoundSeparator (n : BTreeNode π) (info : SeparatorInfo) (sep : Bytes) : Prop where
  getSep : n.getSep info = .ok (n.getPrefix ++ sep)
  length : info.length = n.prefixLength + sep.length
  separates : Separates (keys n.content) info.slot sep
  nonempty : sep ≠ []
  isPrefix : ∃ k, (keys n.content)[info.slot + if info.isTruncated then 1 else 0]? = some k ∧ sep <+: k

theorem foundSeparator_full {n : BTreeNode π} (hs : Ascending (keys n.content)) {i : ℕ} (h₀ : 0 < i)
    (hi : i < (keys n.content).length) :
    FoundSeparator n ⟨n.prefixLength + (keys n.content)[i].length, i, false⟩ (keys n.content)[i] where
  getSep := by
    rw [BTreeNode.getSep, restoreKey_eq_ok]
    exact ⟨_, List.getElem?_eq_getElem hi, by simp, by simp⟩
  length := rfl
  separates := ⟨h₀, hi, le_rfl, fun _ hj hij => hs.getElem_lt hij hj⟩
  nonempty := ne_nil_of_lt (hs.getElem_lt h₀ hi)
  isPrefix := ⟨_, List.getElem?_eq_getElem hi, List.prefix_rfl⟩

theorem foundSeparator_truncated {n : BTreeNode π} (hs : Ascending (keys n.content)) {i m : ℕ} (h₀ : 1 < i)
    (hi : i < (keys n.content).length)
    (hlt : (getElem (keys n.content) (i - 1) (by omega)) < (keys n.content)[i].take (m + 1))
    (hm : m + 1 < (keys n.content)[i].length) :
    FoundSeparator n ⟨n.prefixLength + m + 1, i - 1, true⟩ ((keys n.content)[i].take (m + 1)) where
  getSep := by
    rw [BTreeNode.getSep, restoreKey_eq_ok]
    refine ⟨(keys n.content)[i], ?_, ?_, ?_⟩
    · rw [if_pos rfl, Nat.sub_add_cancel (by omega)]
      exact List.getElem?_eq_getElem hi
    · dsimp only
      omega
    · have hs : n.prefixLength + m + 1 - n.prefixLength = m + 1 := by omega
      rw [hs]
  length := by
    rw [List.length_take, Nat.min_eq_left hm.le]
    rfl
  separates := by
    refine ⟨by dsimp only; omega, by dsimp only; omega, hlt.le, fun j hj hij => ?_⟩
    dsimp only at hij
    have hcut : (keys n.content)[i].take (m + 1) < (keys n.content)[i] := by
      refine lt_of_le_of_ne (take_le _ _) fun he => ?_
      have hl := congrArg List.length he
      rw [List.length_take] at hl
      omega
    exact hcut.trans_le (hs.getElem_le (by omega) hj)
  nonempty := ne_nil_of_lt hlt
  isPrefix := by
    refine ⟨(keys n.content)[i], ?_, List.take_prefix _ _⟩
    rw [if_pos rfl, Nat.sub_add_cancel (by omega)]
    exact List.getElem?_eq_getElem hi

theorem separatorLoop_spec {n : BTreeNode π} (hs : Ascending (keys n.content)) {lower upper m : ℕ}
    (h₀ : 0 < lower) (hlu : lower < upper) (hu : upper < (keys n.content).length)
    (hm : commonPrefixLength (keys n.content)[lower] (keys n.content)[upper] = m) :
    ∀ (fuel i : ℕ), i + fuel = upper + 1 → lower < i → i ≤ upper →
      (∀ j (hj : j < (keys n.content).length), lower ≤ j → j < i →
        (keys n.content)[j][m]? = (keys n.content)[lower][m]?) →
      ∃ info sep, n.separatorLoop (keys n.content)[lower] m fuel i = .ok info ∧
        FoundSeparator n info sep := by
  intro fuel
  induction fuel with
  | zero => intro i hf _ hi _; omega
  | succ fuel ih =>
    intro i hf hli hi hsame
    have hik : i < (keys n.content).length := by omega
    have htake : (keys n.content)[i].take m = (keys n.content)[lower].take m :=
      hm ▸ range_take_eq hs hli.le hi hu
    have hlt : (keys n.content)[lower] < (keys n.content)[i] := hs.getElem_lt hli hik
    have hlen : m < (keys n.content)[i].length := lt_length_of_take_eq hlt htake
    simp only [separatorLoop, getKey_ok hik, ok_bind]
    rw [ensure_of hlen, ok_bind]
    split_ifs with hne hfull
    · refine ⟨_, (keys n.content)[i], rfl, ?_⟩
      have hf := foundSeparator_full hs (i := i) (by omega) hik
      rwa [hfull, ← Nat.add_assoc] at hf
    · refine ⟨_, (keys n.content)[i].take (m + 1), rfl,
        foundSeparator_truncated hs (by omega) hik ?_ (by omega)⟩
      have hprev : (keys n.content)[i - 1].take m = (keys n.content)[lower].take m :=
        hm ▸ range_take_eq hs (by omega) (by omega) hu
      have hil : (keys n.content)[i - 1] < (keys n.content)[i] := hs.getElem_lt (by omega) hik
      refine lt_take_succ hil (hprev.trans htake.symm) fun he => hne ?_
      rw [← he]
      exact hsame (i - 1) (by omega) (by omega) (by omega)
    · refine ih (i + 1) (by omega) (by omega) ?_ (fun j hj hlj hji => ?_)
      · rcases hi.eq_or_lt with rfl | hi
        · exact absurd (not_not.mp hne).symm (hm ▸ getElem?_commonPrefix_ne hlt.ne)
        · exact hi
      · rcases Nat.lt_or_ge j i with hji' | hji'
        · exact hsame j hj hlj hji'
        · obtain rfl : j = i := by omega
          exact not_not.mp hne

theorem findSeparatorLeaf_spec {n : BTreeNode π} (hs : Ascending (keys n.content)) (hc : 1 < n.count) :
    ∃ info sep, n.findSeparatorLeaf = .ok info ∧ FoundSeparator n info sep := by
  have hlen := keys_content_length n
  have hu : n.count / 2 - n.count / 32 + n.count / 16 < (keys n.content).length := by omega
  have h₀ : 0 < n.count / 2 - n.count / 32 := by omega
  have hl : n.count / 2 - n.count / 32 < (keys n.content).length := by omega
  simp only [findSeparatorLeaf, commonPrefix, ensure_of hc, ok_bind, getKey_ok hl, getKey_ok hu]
  rw [ensure_of (by omega), ok_bind]
  simp only [pure_bind]
  split_ifs with hfull
  · refine ⟨_, (keys n.content)[n.count / 2 - n.count / 32], rfl, ?_⟩
    have hf := foundSeparator_full hs h₀ hl
    rwa [hfull] at hf
  · rw [Nat.add_sub_cancel_left]
    rcases Nat.eq_zero_or_pos (n.count / 16) with hz | hz
    · exact absurd (by simp [hz]) hfull
    · refine separatorLoop_spec hs h₀ (by omega) hu rfl _ _ (by omega) (by omega) (by omega)
        fun j hj hlj hji => ?_
      obtain rfl : j = n.count / 2 - n.count / 32 := by omega
      rfl

theorem separatorLoop_slot_lt {n : BTreeNode π} {low : Bytes} {m fuel i : ℕ} {info : SeparatorInfo}
    (h : n.separatorLoop low m fuel i = .ok info) : info.slot < i + fuel := by
  induction fuel generalizing i with
  | zero => cases h
  | succ fuel ih =>
    simp only [separatorLoop, bind_eq_ok, ensure_eq_ok, exists_const] at h
    obtain ⟨key, -, -, h⟩ := h
    split_ifs at h
    · cases h
      dsimp only
      omega
    · cases h
      dsimp only
      omega
    · have hlt := ih h
      omega

theorem findSeparatorLeaf_slot_lt {n : BTreeNode π} {info : SeparatorInfo}
    (h : n.findSeparatorLeaf = .ok info) (hc : 2 < n.count) : info.slot + 1 < n.count := by
  simp only [findSeparatorLeaf, bind_eq_ok, ensure_eq_ok, exists_const] at h
  obtain ⟨-, m, -, low, -, h⟩ := h
  split_ifs at h
  · cases h
    dsimp only
    omega
  · have hlt := separatorLoop_slot_lt h
    omega

theorem findSeparatorInner_spec {n : BTreeNode π} (h : Ordered n) (hc : 3 < n.count) :
    ∃ info sep, n.findSeparatorInner = .ok info ∧ FoundSeparator n info sep ∧
      info.slot = n.count / 2 - 1 ∧ (keys n.content)[n.count / 2 - 1]? = some sep := by
  have hlen := keys_content_length n
  have hl : n.count / 2 - 1 < (keys n.content).length := by omega
  refine ⟨_, _, ?_, foundSeparator_full h.sorted (i := n.count / 2 - 1) (by omega) hl, rfl,
    List.getElem?_eq_getElem hl⟩
  simp only [findSeparatorInner, ensure_of (show 1 < n.count by omega), ok_bind, getKey_ok hl]
  rfl

theorem Separates.append {ks : List Bytes} {slot : ℕ} {sep : Bytes} (h : Separates ks slot sep)
    (p : Bytes) : Separates (ks.map (p ++ ·)) slot (p ++ sep) where
  pos := h.pos
  lt := by simpa using h.lt
  le_sep := by simpa using h.le_sep
  sep_lt := fun j hj hij => by simpa using h.sep_lt j (by simpa using hj) hij

theorem FoundSeparator.full {n : BTreeNode π} {info : SeparatorInfo} {sep : Bytes}
    (hf : FoundSeparator n info sep) (h : Ordered n) :
    Separates (keys n.entries) info.slot (n.getPrefix ++ sep) ∧
      InFences n.getLowerFence n.getUpperFence (n.getPrefix ++ sep) ∧ n.getPrefix ++ sep ≠ [] ∧
      info.length = (n.getPrefix ++ sep).length := by
  have hsep := Ordered.keys_entries (n := n) ▸ hf.separates.append n.getPrefix
  obtain ⟨k, hk, hpre⟩ := hf.isPrefix
  have hmem : ∀ k ∈ keys n.content, InFences n.getLowerFence n.getUpperFence (n.getPrefix ++ k) := by
    intro k hk
    obtain ⟨e, he, rfl⟩ := List.mem_map.mp hk
    exact h.inFences e he
  have hlow := hmem _ (List.getElem_mem hf.separates.lt)
  have hupp := hmem k (List.mem_of_getElem? hk)
  have hle : n.getPrefix ++ (getElem (keys n.content) info.slot hf.separates.lt) ≤ n.getPrefix ++ sep :=
    append_le_append_iff.mpr hf.separates.le_sep
  have hge : n.getPrefix ++ sep ≤ n.getPrefix ++ k := append_le_append_iff.mpr (le_of_isPrefix hpre)
  refine ⟨hsep, ⟨hlow.1.imp id (lt_of_lt_of_le · hle), hupp.2.imp id hge.trans⟩, ?_, ?_⟩
  · exact fun he => hf.nonempty (List.append_eq_nil_iff.mp he).2
  · rw [hf.length, List.length_append, h.length_getPrefix]

theorem Separates.left {n : BTreeNode π} (h : Ordered n) {slot : ℕ} {sep : Bytes}
    (hs : Separates (keys n.entries) slot sep) {e : Bytes × π} (he : e ∈ n.entries.take (slot + 1)) :
    InFences n.getLowerFence sep e.1 := by
  refine ⟨(h.entries_inFences (List.mem_of_mem_take he)).1, Or.inr ?_⟩
  obtain ⟨j, hj, rfl⟩ := List.mem_iff_getElem.mp he
  rw [List.length_take] at hj
  rw [List.getElem_take]
  have hjk : (n.entries[j]).1 = (getElem (keys n.entries) j (by rw [keys, List.length_map]; omega)) := by
    simp [keys]
  rw [hjk]
  exact (h.sorted_entries.getElem_le (by omega) hs.lt).trans hs.le_sep

theorem Separates.right {n : BTreeNode π} (h : Ordered n) {slot : ℕ} {sep : Bytes}
    (hs : Separates (keys n.entries) slot sep) {e : Bytes × π} (he : e ∈ n.entries.drop (slot + 1)) :
    InFences sep n.getUpperFence e.1 := by
  refine ⟨Or.inr ?_, (h.entries_inFences (List.mem_of_mem_drop he)).2⟩
  obtain ⟨j, hj, rfl⟩ := List.mem_iff_getElem.mp he
  rw [List.length_drop] at hj
  rw [List.getElem_drop]
  have hjk : (n.entries[slot + 1 + j]).1 =
      (getElem (keys n.entries) (slot + 1 + j) (by rw [keys, List.length_map]; omega)) := by
    simp [keys]
  rw [hjk]
  exact hs.sep_lt _ _ (by omega)

end Separator

theorem splitLeaf_spec {n l r : BTreeNode π} (h : WF n) {slot : ℕ} {sep : Bytes}
    (hs : Separates (keys n.entries) slot sep) (hk : InFences n.getLowerFence n.getUpperFence sep)
    (hr : n.splitLeaf slot sep = .ok (l, r)) :
    Holds l n.isLeaf n.getLowerFence sep (n.entries.take (slot + 1)) ∧
      Holds r n.isLeaf sep n.getUpperFence (n.entries.drop (slot + 1)) := by
  simp only [splitLeaf, splitPages, bind_eq_ok, ensure_eq_ok, exists_const, pure_eq_ok, Prod.exists,
    Prod.mk.injEq] at hr
  obtain ⟨_, _, ⟨-, -, pl, hpl, pr, hpr, rfl, rfl⟩, m, hm, m', hm', rfl, rfl⟩ := hr
  have hlt := hs.lt
  rw [keys, List.length_map, entries_length] at hlt
  obtain ⟨hl, hc⟩ := copy_page h.toOrdered (Or.inr hk.lower_le)
    (fun e he => hs.left h.toOrdered (by simpa using he)) hpl hm
  have hmc : m.count = slot + 1 := by
    rw [hc, List.drop_zero, List.length_take, entries_length]
    omega
  rw [hmc] at hm'
  have hall : (n.entries.drop (slot + 1)).take (n.count - (slot + 1)) = n.entries.drop (slot + 1) := by
    rw [← entries_length, ← List.length_drop, List.take_length]
  obtain ⟨hr, -⟩ := copy_page h.toOrdered (hk.2.imp id id)
    (fun e he => hs.right h.toOrdered (hall ▸ he)) hpr hm'
  rw [List.drop_zero] at hl
  exact ⟨hl, hall ▸ hr⟩

theorem splitLeaf_ok {n : BTreeNode π} (h : WF n) {slot : ℕ} {sep : Bytes}
    (hs : Separates (keys n.entries) slot sep)
    (hl : pageBytes n.getLowerFence sep (n.entries.take (slot + 1)) ≤ pageSize)
    (hr : pageBytes sep n.getUpperFence (n.entries.drop (slot + 1)) ≤ pageSize) :
    ∃ l r, n.splitLeaf slot sep = .ok (l, r) := by
  have hlt := hs.lt
  rw [keys, List.length_map, entries_length] at hlt
  have hmax : slot < pageSize / pointerSize := by
    have hroom := h.room
    have hfits := h.fits
    simp only [slotsOffset, slotSize, pageSize, pointerSize] at hroom hfits ⊢
    omega
  have hall : (n.entries.drop (slot + 1)).take (n.count - (slot + 1)) = n.entries.drop (slot + 1) := by
    rw [← entries_length, ← List.length_drop, List.take_length]
  obtain ⟨pl, m, hpl, hm⟩ := copy_page_ok h.toOrdered n.isLeaf (i := 0) (c := slot + 1)
    (fun e he => hs.left h.toOrdered (by simpa using he)) (by rwa [List.drop_zero])
  obtain ⟨pr, m', hpr, hm'⟩ := copy_page_ok h.toOrdered n.isLeaf (i := slot + 1)
    (c := n.count - (slot + 1)) (fun e he => hs.right h.toOrdered (hall ▸ he)) (by rwa [hall])
  have hg := (copyKeyValueRange_grown h.length_getPrefix hm).1.count
  have hmc : m.count = slot + 1 := by
    rw [hg, (setFences_init_eq_ok.mp hpl).2, count_fenced]
    simp only [List.length_map, List.length_take, List.length_drop, count] at hlt ⊢
    omega
  simp only [splitLeaf, splitPages, ensure_of hs.pos, ensure_of hmax, ok_bind, hpl, hpr, hm, hmc, hm',
    pure_bind]
  exact ⟨_, _, rfl⟩

theorem splitInner_spec {n l r : BTreeNode π} (h : WF n) {slot : ℕ} {sep : Bytes} {c : π}
    (hs : Separates (keys n.entries) slot sep) (hk : InFences n.getLowerFence n.getUpperFence sep)
    (hr : n.splitInner slot sep = .ok (l, c, r)) :
    Holds l n.isLeaf n.getLowerFence sep (n.entries.take slot) ∧
      n.entries[slot]?.map Prod.snd = some c ∧
      Holds r n.isLeaf sep n.getUpperFence (n.entries.drop (slot + 1)) := by
  simp only [splitInner, splitPages, bind_eq_ok, ensure_eq_ok, exists_const, pure_eq_ok, Prod.exists,
    Prod.mk.injEq] at hr
  obtain ⟨_, _, ⟨-, -, pl, hpl, pr, hpr, rfl, rfl⟩, m, hm, m', hm', hc⟩ := hr
  have hlt := hs.lt
  rw [keys, List.length_map, entries_length] at hlt
  have hsub : ∀ e ∈ n.entries.take slot, e ∈ n.entries.take (slot + 1) := fun e he =>
    List.take_subset_take_left _ (Nat.le_succ slot) he
  obtain ⟨hl, hcount⟩ := copy_page h.toOrdered (Or.inr hk.lower_le)
    (fun e he => hs.left h.toOrdered (hsub e (by simpa using he))) hpl hm
  have hmc : m.count = slot := by
    rw [hcount, List.drop_zero, List.length_take, entries_length]
    omega
  rw [hmc] at hm' hc
  have hall : (n.entries.drop (slot + 1)).take (n.count - slot - 1) = n.entries.drop (slot + 1) := by
    rw [Nat.sub_sub, ← entries_length, ← List.length_drop, List.take_length]
  obtain ⟨hr, -⟩ := copy_page h.toOrdered (hk.2.imp id id)
    (fun e he => hs.right h.toOrdered (hall ▸ he)) hpr hm'
  rw [List.drop_zero] at hl
  rw [List.getElem?_eq_getElem hlt] at hc
  simp only [pure_eq_ok, Prod.mk.injEq] at hc
  obtain ⟨rfl, rfl, rfl⟩ := hc
  refine ⟨hl, ?_, hall ▸ hr⟩
  simp [entries, content, List.getElem?_eq_getElem hlt, Slot.entry]

theorem splitInner_ok {n : BTreeNode π} (h : WF n) {slot : ℕ} {sep : Bytes}
    (hs : Separates (keys n.entries) slot sep)
    (hl : pageBytes n.getLowerFence sep (n.entries.take slot) ≤ pageSize)
    (hr : pageBytes sep n.getUpperFence (n.entries.drop (slot + 1)) ≤ pageSize) :
    ∃ l c r, n.splitInner slot sep = .ok (l, c, r) := by
  have hlt := hs.lt
  rw [keys, List.length_map, entries_length] at hlt
  have hmax : slot < pageSize / pointerSize := by
    have hroom := h.room
    have hfits := h.fits
    simp only [slotsOffset, slotSize, pageSize, pointerSize] at hroom hfits ⊢
    omega
  have hall : (n.entries.drop (slot + 1)).take (n.count - slot - 1) = n.entries.drop (slot + 1) := by
    rw [Nat.sub_sub, ← entries_length, ← List.length_drop, List.take_length]
  have hsub : ∀ e ∈ n.entries.take slot, e ∈ n.entries.take (slot + 1) := fun e he =>
    List.take_subset_take_left _ (Nat.le_succ slot) he
  obtain ⟨pl, m, hpl, hm⟩ := copy_page_ok h.toOrdered n.isLeaf (i := 0) (c := slot)
    (fun e he => hs.left h.toOrdered (hsub e (by simpa using he))) (by rwa [List.drop_zero])
  obtain ⟨pr, m', hpr, hm'⟩ := copy_page_ok h.toOrdered n.isLeaf (i := slot + 1)
    (c := n.count - slot - 1) (fun e he => hs.right h.toOrdered (hall ▸ he)) (by rwa [hall])
  have hg := (copyKeyValueRange_grown h.length_getPrefix hm).1.count
  have hmc : m.count = slot := by
    rw [hg, (setFences_init_eq_ok.mp hpl).2, count_fenced]
    simp only [List.length_map, List.length_take, List.length_drop, count] at hlt ⊢
    omega
  simp only [splitInner, splitPages, ensure_of hs.pos, ensure_of hmax, ok_bind, hpl, hpr, hm, hmc, hm',
    pure_bind, List.getElem?_eq_getElem hlt]
  exact ⟨_, _, _, rfl⟩

end BTreeNode

/-- What splitting a node between `lower` and `upper` hands to the parent, where `P` says what a node
between two fences satisfies and `E` lists its entries. -/
structure Halves {γ β : Type} (P : γ → Bytes → Bytes → Prop) (E : γ → List (Bytes × β))
    (es : List (Bytes × β)) (lower upper sep : Bytes) (left right : γ) : Prop where
  between : InFences lower upper sep
  nonempty : sep ≠ []
  sep_len : sep.length ≤ maxKVSize
  left_inv : P left lower sep
  right_inv : P right sep upper
  entries : E left ++ E right = es

end BtreeRedis
