import BtreeRedis.Hash.Node
import BtreeRedis.Node.Contained

/-!
# What every hash leaf satisfies

The space is accounted for as in a basic leaf, with the hash array on top. The slots are in
any order, so that a leaf is compared with another one by its entries in the order of
their keys. `Grown` is what copying slots to a page leaves.
-/

namespace BtreeRedis

open LexOrder SortedAssoc Outcome

namespace HashNode

@[simp] theorem length_content (n : HashNode) : n.content.length = n.count := List.length_map _

@[simp] theorem length_restored (n : HashNode) : n.restored.length = n.count := by
  rw [restored, List.length_map, length_content]

@[simp] theorem length_entries (n : HashNode) : n.entries.length = n.count := by
  rw [entries, length_sortByKey, length_restored]

theorem keys_restored (n : HashNode) : keys n.restored = (keys n.content).map (n.getPrefix ++ ·) := by
  rw [restored, keys, keys, List.map_map, List.map_map]
  rfl

theorem mem_entries {n : HashNode} {e : Bytes × Bytes} : e ∈ n.entries ↔ e ∈ n.restored := mem_sortByKey

variable [KeyHash]

structure Accounted (n : HashNode) : Prop where
  space : n.spaceUsed = n.upperFence.length + n.lowerFence.length + BTreeNode.entryBytes n.content
  room : n.slotsEnd ≤ n.dataOffset
  fits : n.dataOffset + n.spaceUsed + n.hashCapacity ≤ pageSize
  capacity : n.count ≤ n.hashCapacity

structure Keyed (n : HashNode) : Prop where
  prefixLen : n.prefixLength = commonPrefixLength n.lowerFence n.upperFence
  fences : n.upperFence = [] ∨ n.lowerFence < n.upperFence
  nodup : (keys n.content).Nodup
  inFences : ∀ e ∈ n.content, InFences n.lowerFence n.upperFence (n.getPrefix ++ e.1)
  hashed : n.hashes = (keys n.content).map computeHash
  sorted : Ascending ((keys n.content).take n.sortedCount)
  sorted_le : n.sortedCount ≤ n.count

structure WF (n : HashNode) : Prop extends Accounted n, Keyed n

namespace Keyed
variable {n : HashNode}

theorem ordered (h : Keyed n) : FencesOrdered n.lowerFence n.upperFence := h.fences.imp id le_of_lt

theorem length_getPrefix (h : Keyed n) : n.getPrefix.length = n.prefixLength := by
  rw [getPrefix, List.length_take, h.prefixLen]
  exact min_eq_left (commonPrefixLength_le_left _ _)

theorem nodup_restored (h : Keyed n) : (keys n.restored).Nodup := by
  rw [keys_restored]
  exact h.nodup.map fun a b hab => List.append_cancel_left hab

theorem ascending_entries (h : Keyed n) : Ascending (keys n.entries) := ascending_sortByKey h.nodup_restored

theorem restored_inFences (h : Keyed n) {e : Bytes × Bytes} (he : e ∈ n.restored) :
    InFences n.lowerFence n.upperFence e.1 := by
  obtain ⟨e', he', rfl⟩ := List.mem_map.mp he
  exact h.inFences e' he'

theorem entries_inFences (h : Keyed n) {e : Bytes × Bytes} (he : e ∈ n.entries) :
    InFences n.lowerFence n.upperFence e.1 := h.restored_inFences (mem_entries.mp he)

theorem prefixLength_le_key (h : Keyed n) {key : Bytes} (hk : InFences n.lowerFence n.upperFence key) :
    n.prefixLength ≤ key.length := by
  have hp := hk.isPrefix.length_le
  rwa [← h.prefixLen, ← getPrefix, h.length_getPrefix] at hp

theorem prefix_append_drop (h : Keyed n) {key : Bytes} (hk : InFences n.lowerFence n.upperFence key) :
    n.getPrefix ++ key.drop n.prefixLength = key := by
  obtain ⟨t, ht⟩ := hk.isPrefix
  rw [← h.prefixLen, ← getPrefix] at ht
  rw [← ht, List.drop_left' h.length_getPrefix]

theorem mem_keys_entries (h : Keyed n) {key : Bytes} (hk : InFences n.lowerFence n.upperFence key) :
    key ∈ keys n.entries ↔ key.drop n.prefixLength ∈ keys n.content := by
  rw [entries, (keys_sortByKey_perm n.restored).mem_iff, keys_restored, List.mem_map]
  constructor
  · rintro ⟨k, hm, rfl⟩
    rwa [List.drop_left' h.length_getPrefix]
  · exact fun hm => ⟨_, hm, h.prefix_append_drop hk⟩

theorem fencesAscend (h : Keyed n) : n.FencesAscend := by
  rcases h.fences with hn | hlt
  · exact Or.inr (Or.inl (by rw [hn]; rfl))
  · have hl := commonPrefixLength_le_left n.lowerFence n.upperFence
    have hu := commonPrefixLength_le_right n.lowerFence n.upperFence
    have hne := getElem?_commonPrefix_ne hlt.ne
    have he := take_commonPrefix_eq n.lowerFence n.upperFence
    rw [← h.prefixLen] at hl hu hne he
    have hdrop : n.lowerFence.drop n.prefixLength < n.upperFence.drop n.prefixLength := by
      rw [← List.take_append_drop n.prefixLength n.lowerFence,
        ← List.take_append_drop n.prefixLength n.upperFence, he, append_lt_append_iff] at hlt
      exact hlt
    have hup : n.prefixLength < n.upperFence.length := by
      by_contra hge
      rw [List.drop_of_length_le (not_lt.mp hge)] at hdrop
      exact List.not_lt_nil _ hdrop
    rcases hl.eq_or_lt with heq | hlow
    · exact Or.inl ⟨heq.symm, hup⟩
    · refine Or.inr (Or.inr ⟨hlow, hup, ?_⟩)
      rw [List.getElem?_eq_getElem hlow, List.getElem?_eq_getElem hup] at hne
      rw [List.getD_eq_getElem _ _ hlow, List.getD_eq_getElem _ _ hup]
      rw [← List.getElem_cons_drop hlow, ← List.getElem_cons_drop hup, cons_lt_cons] at hdrop
      exact hdrop.resolve_right fun hc => hne (congrArg some hc.1)

end Keyed

theorem WF.validate {n : HashNode} (h : WF n) : n.validate = .ok () := by
  rw [HashNode.validate, ensure_of h.space, ok_bind, ensure_of h.fencesAscend, ok_bind,
    ensure_of (List.isChain_iff_pairwise.mpr h.sorted), ok_bind, ensure_of h.hashed]

structure SamePage (n m : HashNode) : Prop where
  rangeOpCounter : m.rangeOpCounter = n.rangeOpCounter
  sortedCount : m.sortedCount = n.sortedCount
  prefixLength : m.prefixLength = n.prefixLength
  hashCapacity : m.hashCapacity = n.hashCapacity
  lower : m.lowerFence = n.lowerFence
  upper : m.upperFence = n.upperFence

/-- `dst'` is `dst` with slots for `es` appended. -/
structure Grown (dst dst' : HashNode) (es : List (Bytes × Bytes)) : Prop where
  page : SamePage dst dst'
  content : dst'.content = dst.content ++ es
  hashes : dst'.hashes = dst.hashes ++ (keys es).map computeHash
  space : dst'.spaceUsed = dst.spaceUsed + BTreeNode.entryBytes es
  offset : dst'.dataOffset + BTreeNode.entryBytes es = dst.dataOffset
  capacity : dst.count ≤ dst.hashCapacity → dst'.count ≤ dst'.hashCapacity

namespace Grown
variable {a b c : HashNode} {es fs : List (Bytes × Bytes)}

theorem refl : Grown a a [] where
  page := ⟨rfl, rfl, rfl, rfl, rfl, rfl⟩
  content := (List.append_nil _).symm
  hashes := (List.append_nil _).symm
  space := rfl
  offset := rfl
  capacity := id

theorem trans (h : Grown a b es) (g : Grown b c fs) : Grown a c (es ++ fs) where
  page := ⟨g.page.rangeOpCounter.trans h.page.rangeOpCounter, g.page.sortedCount.trans h.page.sortedCount,
    g.page.prefixLength.trans h.page.prefixLength, g.page.hashCapacity.trans h.page.hashCapacity,
    g.page.lower.trans h.page.lower, g.page.upper.trans h.page.upper⟩
  content := by rw [g.content, h.content, List.append_assoc]
  hashes := by rw [g.hashes, h.hashes, keys_append, List.map_append, List.append_assoc]
  space := by rw [g.space, h.space, BTreeNode.entryBytes_append, Nat.add_assoc]
  offset := by
    rw [← h.offset, ← g.offset, BTreeNode.entryBytes_append]
    omega
  capacity := fun hc => g.capacity (h.capacity hc)

theorem count (h : Grown a b es) : b.count = a.count + es.length := by
  rw [← length_content, h.content, List.length_append, length_content]

theorem push {s : HashSlot} (hcap : a.count < a.hashCapacity)
    (hd : s.key.length + s.payload.length ≤ a.dataOffset) :
    Grown a { a with
      dataOffset := a.dataOffset - (s.key.length + s.payload.length)
      spaceUsed := a.spaceUsed + (s.key.length + s.payload.length)
      slots := a.slots ++ [s]
      hashes := a.hashes ++ [computeHash s.key] } [s.entry] where
  page := ⟨rfl, rfl, rfl, rfl, rfl, rfl⟩
  content := List.map_append
  hashes := rfl
  space := rfl
  offset := Nat.sub_add_cancel hd
  capacity := fun _ => by
    change (a.slots ++ [s]).length ≤ a.hashCapacity
    rw [List.length_append]
    exact hcap

end Grown

section
omit [KeyHash]

theorem put_length {α : Type} (l : List α) (a : α) : put l l.length a = l ++ [a] := by
  rw [put, List.take_length, List.drop_of_length_le (Nat.le_succ _)]

end

def RoomFor (n : HashNode) (es : List (Bytes × Bytes)) : Prop :=
  hashHeaderSize + hashSlotSize * (n.count + es.length) + BTreeNode.entryBytes es ≤ n.dataOffset

theorem Grown.roomFor {a b : HashNode} {es fs : List (Bytes × Bytes)} (h : Grown a b es)
    (hr : a.RoomFor (es ++ fs)) : b.RoomFor fs := by
  have ho := h.offset
  have hc := h.count
  simp only [RoomFor, List.length_append, BTreeNode.entryBytes_append, hashSlotSize] at hr ⊢
  omega

section
omit [KeyHash]

theorem RoomFor.mono {n : HashNode} {es fs : List (Bytes × Bytes)} (h : n.RoomFor (es ++ fs)) : n.RoomFor es := by
  simp only [RoomFor, List.length_append, BTreeNode.entryBytes_append, hashSlotSize] at h ⊢
  omega

end

theorem Grown.length_hashes {a b : HashNode} {es : List (Bytes × Bytes)} (h : Grown a b es)
    (ha : a.hashes.length = a.count) : b.hashes.length = b.count := by
  rw [h.hashes, List.length_append, ha, h.count, List.length_map, keys, List.length_map]

theorem append_yields {n : HashNode} {key payload : Bytes} (hh : n.hashes.length = n.count)
    (hk : n.prefixLength ≤ key.length) (hcap : n.count < n.hashCapacity) :
    Yields (fun e => e = .pageOverflow ∧ ¬ n.RoomFor [(key.drop n.prefixLength, payload)])
      (fun m => Grown n m [(key.drop n.prefixLength, payload)]) (n.append key payload) := by
  rw [append, storeKeyValue, ensure_of hk, ok_bind]
  refine Yields.bind (P := fun _ => (key.drop n.prefixLength).length + payload.length ≤ n.dataOffset) ?_
    fun _ hd => ?_
  · by_cases hd : (key.drop n.prefixLength).length + payload.length ≤ n.dataOffset
    · rw [ensure_of hd]
      exact hd
    · rw [ensure, if_neg hd]
      refine ⟨rfl, fun hr => hd ?_⟩
      simp only [RoomFor, BTreeNode.entryBytes_cons, BTreeNode.entryBytes_nil] at hr
      exact (Nat.le_add_left _ _).trans hr
  · refine Yields.bind (P := fun _ => True) ?_ fun _ _ => ?_
    · by_cases ho : hashHeaderSize + hashSlotSize * n.count ≤
          n.dataOffset - ((key.drop n.prefixLength).length + payload.length)
      · rw [ensure_of ho]
        trivial
      · rw [ensure, if_neg ho]
        refine ⟨rfl, fun hr => ho ?_⟩
        have hlen : Payload.len payload = payload.length := rfl
        simp only [RoomFor, BTreeNode.entryBytes_cons, BTreeNode.entryBytes_nil, List.length_singleton, hlen,
          hashSlotSize] at hr ⊢
        omega
    · rw [ensure_of hcap, ok_bind, put_length, ← hh, put_length]
      exact Grown.push (s := ⟨_, key.drop n.prefixLength, payload⟩) hcap hd

/-- What the range loop stores for a slot of `n`: the full key under the prefix of `dst`. -/
def rekey (n dst : HashNode) (s : HashSlot) : Bytes × Bytes :=
  ((n.getPrefix ++ s.key).drop dst.prefixLength, s.payload)

theorem copyTruncated_yields {n dst : HashNode} {s : HashSlot} (hn : n.getPrefix.length = n.prefixLength)
    (hp : n.prefixLength ≤ dst.prefixLength) (hk : dst.prefixLength ≤ (n.getPrefix ++ s.key).length)
    (hcap : dst.count < dst.hashCapacity) :
    Yields (fun e => e = .pageOverflow ∧ ¬ dst.RoomFor [n.rekey dst s]) (fun m => Grown dst m [n.rekey dst s])
      (copyTruncated (dst.prefixLength - n.prefixLength) dst s) := by
  have hrekey : n.rekey dst s = (s.key.drop (dst.prefixLength - n.prefixLength), s.payload) := by
    rw [rekey, List.drop_append, List.drop_of_length_le (by omega), List.nil_append, hn]
  rw [List.length_append, hn] at hk
  rw [hrekey, copyTruncated, ensure_of (by omega), ok_bind]
  refine Yields.bind (P := fun _ => (s.key.drop (dst.prefixLength - n.prefixLength)).length + s.payload.length ≤
    dst.dataOffset) ?_ fun _ hd => ?_
  · by_cases hd : (s.key.drop (dst.prefixLength - n.prefixLength)).length + s.payload.length ≤ dst.dataOffset
    · rw [ensure_of hd]
      exact hd
    · rw [ensure, if_neg hd]
      refine ⟨rfl, fun hr => hd ?_⟩
      simp only [RoomFor, BTreeNode.entryBytes_cons, BTreeNode.entryBytes_nil] at hr
      exact (Nat.le_add_left _ _).trans hr
  · rw [ensure_of hcap, ok_bind]
    exact Grown.push (s := ⟨_, s.key.drop (dst.prefixLength - n.prefixLength), s.payload⟩) hcap hd

theorem foldlM_yields {σ : Type} {f : HashNode → σ → Except Fault HashNode} {p : ℕ} {g : σ → Bytes × Bytes}
    {src : List σ} {dst : HashNode}
    (hf : ∀ a, ∀ s ∈ src, a.prefixLength = p → a.hashes.length = a.count → a.count < a.hashCapacity →
      Yields (fun e => e = .pageOverflow ∧ ¬ a.RoomFor [g s]) (fun b => Grown a b [g s]) (f a s))
    (hp : dst.prefixLength = p) (hh : dst.hashes.length = dst.count)
    (hcap : dst.count + src.length ≤ dst.hashCapacity) :
    Yields (fun e => e = .pageOverflow ∧ ¬ dst.RoomFor (src.map g)) (fun m => Grown dst m (src.map g))
      (src.foldlM f dst) := by
  refine Yields.foldlM (I := fun done m => Grown dst m (done.map g)) Grown.refl fun done s rest hsrc a ha => ?_
  have hlen : src.length = done.length + (rest.length + 1) := by rw [hsrc, List.length_append, List.length_cons]
  have hcount := ha.count
  rw [List.length_map] at hcount
  have hstep := hf a s (hsrc ▸ List.mem_append_right _ List.mem_cons_self) (ha.page.prefixLength.trans hp)
    (ha.length_hashes hh) (by rw [hcount, ha.page.hashCapacity]; omega)
  refine (hstep.mono fun b hb => ?_).weaken fun e he => ⟨he.1, fun hr => he.2 (ha.roomFor ?_)⟩
  · rw [List.map_append]
    exact ha.trans hb
  · rw [hsrc, List.map_append, List.map_cons, ← List.singleton_append (l := rest.map g), ← List.append_assoc] at hr
    exact hr.mono

theorem copySlots_yields {n dst : HashNode} {src : List HashSlot} (hn : n.getPrefix.length = n.prefixLength)
    (hk : ∀ s ∈ src, dst.prefixLength ≤ (n.getPrefix ++ s.key).length) (hh : dst.hashes.length = dst.count)
    (hcap : dst.count + src.length ≤ dst.hashCapacity) :
    Yields (fun e => e = .pageOverflow ∧ ¬ dst.RoomFor (src.map (n.rekey dst)))
      (fun m => Grown dst m (src.map (n.rekey dst))) (n.copySlots dst src) := by
  unfold copySlots
  split_ifs with hp
  · refine foldlM_yields (p := dst.prefixLength) (fun a s hs ha _ hac => ?_) rfl hh hcap
    have hstep := copyTruncated_yields (s := s) hn (hp.trans_eq ha.symm) (ha ▸ hk s hs) hac
    rwa [rekey, ha] at hstep
  · refine foldlM_yields (p := dst.prefixLength) (fun a s hs ha hah hac => ?_) rfl hh hcap
    have hstep := @append_yields _ a _ s.payload hah (ha ▸ hk s hs) hac
    rwa [ha] at hstep

theorem copyKeyValueRange_yields {n dst : HashNode} {srcSlot srcCount : ℕ}
    (hn : n.getPrefix.length = n.prefixLength)
    (hk : ∀ s ∈ (n.slots.drop srcSlot).take srcCount, dst.prefixLength ≤ (n.getPrefix ++ s.key).length)
    (hh : dst.hashes.length = dst.count)
    (hcap : dst.count + ((n.slots.drop srcSlot).take srcCount).length ≤ dst.hashCapacity) :
    Yields (fun e => e = .pageOverflow ∧ ¬ dst.RoomFor (((n.slots.drop srcSlot).take srcCount).map (n.rekey dst)))
      (fun m => Grown dst m (((n.slots.drop srcSlot).take srcCount).map (n.rekey dst)) ∧ m.slotsEnd ≤ m.dataOffset)
      (n.copyKeyValueRange dst srcSlot srcCount) := by
  refine (copySlots_yields hn hk hh hcap).bind fun m hm => ?_
  by_cases hr : m.slotsEnd ≤ m.dataOffset
  · rw [ensure_of hr]
    exact ⟨hm, hr⟩
  · rw [ensure, if_neg hr]
    refine ⟨rfl, fun hroom => hr ?_⟩
    have hm' := @Grown.roomFor _ _ _ _ [] hm (by rwa [List.append_nil])
    simpa [RoomFor, slotsEnd] using hm'

def blank (lower upper : Bytes) (hashCapacity : ℕ) (roc : RangeOpCounter) : HashNode where
  rangeOpCounter := roc
  sortedCount := 0
  spaceUsed := upper.length + lower.length
  dataOffset := pageSize - (upper.length + lower.length) - hashCapacity
  prefixLength := commonPrefixLength lower upper
  hashCapacity := hashCapacity
  hashOffset := pageSize - (upper.length + lower.length) - hashCapacity
  lowerFence := lower
  upperFence := upper
  slots := []
  hashes := []

section
omit [KeyHash]

theorem init_eq_ok {lower upper : Bytes} {hashCapacity : ℕ} {roc : RangeOpCounter} {n : HashNode} :
    init lower upper hashCapacity roc = .ok n ↔
      upper.length + lower.length + hashCapacity ≤ pageSize ∧ n = blank lower upper hashCapacity roc := by
  simp only [init, bind_eq_ok, ensure_eq_ok, exists_const, pure_eq_ok]
  exact and_congr_right fun _ => eq_comm

end

structure Holds (n : HashNode) (lower upper : Bytes) (es : List (Bytes × Bytes)) : Prop where
  wf : WF n
  lower : n.lowerFence = lower
  upper : n.upperFence = upper
  restored : n.restored = es

theorem Holds.entries {n : HashNode} {lower upper : Bytes} {es : List (Bytes × Bytes)}
    (h : Holds n lower upper es) : n.entries = sortByKey es := by rw [HashNode.entries, h.restored]

theorem grown_blank {m : HashNode} {lower upper : Bytes} {hashCapacity : ℕ} {roc : RangeOpCounter}
    {es : List (Bytes × Bytes)}
    (hg : Grown (blank lower upper hashCapacity roc) m (BTreeNode.truncate lower upper es))
    (hroom : m.slotsEnd ≤ m.dataOffset) (hf : upper = [] ∨ lower < upper)
    (hs : upper.length + lower.length + hashCapacity ≤ pageSize) (hnodup : (keys es).Nodup)
    (hin : ∀ e ∈ es, InFences lower upper e.1) {sortedCount : ℕ} (hle : sortedCount ≤ es.length)
    (hsort : Ascending ((keys es).take sortedCount)) :
    Holds { m with sortedCount } lower upper es := by
  have hlow : m.lowerFence = lower := hg.page.lower
  have hupp : m.upperFence = upper := hg.page.upper
  have hpl : m.prefixLength = commonPrefixLength lower upper := hg.page.prefixLength
  have hpre : m.getPrefix = lower.take (commonPrefixLength lower upper) := by
    rw [getPrefix, hlow, hpl]
  have hc : m.content = BTreeNode.truncate lower upper es := by
    rw [hg.content]
    rfl
  have hback : ∀ e ∈ es, m.getPrefix ++ e.1.drop (commonPrefixLength lower upper) = e.1 := by
    intro e he
    obtain ⟨r, hr⟩ := (hin e he).isPrefix
    have hl : (lower.take (commonPrefixLength lower upper)).length = commonPrefixLength lower upper := by
      rw [List.length_take]
      exact min_eq_left (commonPrefixLength_le_left lower upper)
    rw [hpre, ← hr, List.drop_left' hl]
  have hres : m.restored = es := by
    rw [restored, hc, BTreeNode.truncate, List.map_map]
    conv_rhs => rw [← List.map_id es]
    exact List.map_congr_left fun e he => Prod.ext (hback e he) rfl
  have hkeys := keys_restored m
  rw [hres] at hkeys
  refine ⟨⟨⟨?_, hroom, ?_, hg.capacity (Nat.zero_le _)⟩, ?_, ?_, ?_, ?_, ?_, ?_, ?_⟩, hlow, hupp, hres⟩
  · change m.spaceUsed = m.upperFence.length + m.lowerFence.length + BTreeNode.entryBytes m.content
    rw [hg.space, hlow, hupp, hc]
    rfl
  · have h₁ := hg.space
    have h₂ := hg.offset
    have h₃ := hg.page.hashCapacity
    change m.dataOffset + m.spaceUsed + m.hashCapacity ≤ pageSize
    simp only [blank] at h₁ h₂ h₃
    omega
  · change m.prefixLength = commonPrefixLength m.lowerFence m.upperFence
    rw [hlow, hupp, hpl]
  · change m.upperFence = [] ∨ m.lowerFence < m.upperFence
    rwa [hlow, hupp]
  · change (keys m.content).Nodup
    rw [hkeys] at hnodup
    exact hnodup.of_map _
  · intro e he
    change InFences m.lowerFence m.upperFence (m.getPrefix ++ e.1)
    rw [hlow, hupp]
    have hm : (m.getPrefix ++ e.1, e.2) ∈ m.restored := List.mem_map_of_mem he
    rw [hres] at hm
    exact hin _ hm
  · change m.hashes = (keys m.content).map computeHash
    rw [hg.hashes, hc]
    rfl
  · change Ascending ((keys m.content).take sortedCount)
    rw [hkeys, ← List.map_take, Ascending, List.pairwise_map] at hsort
    exact hsort.imp fun hab => append_lt_append_iff.mp hab
  · change sortedCount ≤ m.count
    rwa [← length_restored, hres]

section
omit [KeyHash]

theorem map_rekey {n p : HashNode} {lower upper : Bytes} (hp : p.prefixLength = commonPrefixLength lower upper)
    (i c : ℕ) : ((n.slots.drop i).take c).map (n.rekey p) =
      BTreeNode.truncate lower upper ((n.restored.drop i).take c) := by
  rw [restored, content, BTreeNode.truncate, ← List.map_drop, ← List.map_drop, ← List.map_take, ← List.map_take,
    List.map_map, List.map_map, ← hp]
  rfl

end

theorem copy_yields {n p : HashNode} (h : Keyed n) {lower upper : Bytes}
    (hp : p.prefixLength = commonPrefixLength lower upper) (hh : p.hashes.length = p.count) {i c : ℕ}
    (hin : ∀ e ∈ (n.restored.drop i).take c, InFences lower upper e.1)
    (hcap : p.count + ((n.restored.drop i).take c).length ≤ p.hashCapacity) :
    Yields (fun e => e = .pageOverflow ∧ ¬ p.RoomFor (BTreeNode.truncate lower upper ((n.restored.drop i).take c)))
      (fun m => Grown p m (BTreeNode.truncate lower upper ((n.restored.drop i).take c)) ∧
        m.slotsEnd ≤ m.dataOffset) (n.copyKeyValueRange p i c) := by
  have hl : ((n.slots.drop i).take c).length = ((n.restored.drop i).take c).length := by
    simp only [List.length_take, List.length_drop, length_restored]
  rw [← map_rekey hp]
  refine copyKeyValueRange_yields h.length_getPrefix (fun s hs => ?_) hh (hl ▸ hcap)
  have he : (n.getPrefix ++ s.key, s.payload) ∈ (n.restored.drop i).take c := by
    rw [restored, content, List.map_map, ← List.map_drop, ← List.map_take]
    exact List.mem_map_of_mem hs
  have hp' := (hin _ he).isPrefix.length_le
  rwa [List.length_take, Nat.min_eq_left (commonPrefixLength_le_left _ _), ← hp] at hp'

end HashNode

end BtreeRedis
