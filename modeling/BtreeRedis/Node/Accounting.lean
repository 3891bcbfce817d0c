import BtreeRedis.Node.Layout

/-!
# What a basic node holds and how its page is accounted for

`content` lists the truncated keys with their payloads, `entries` the full keys.
`Accounted` ties the two counters of the header to the content, `Ordered` says that
the slots are ascending, lie between the fences and carry their heads. Copying
slots into another node is described by `Grown`, whatever the two prefixes are.
-/

namespace BtreeRedis

open LexOrder SortedAssoc

namespace BTreeNode
variable {π : Type} [Payload π]

def entryBytes (es : List (Bytes × π)) : ℕ := (es.map fun e => e.1.length + Payload.len e.2).sum

@[simp] theorem entryBytes_nil : entryBytes ([] : List (Bytes × π)) = 0 := rfl

@[simp] theorem entryBytes_cons (e : Bytes × π) (es : List (Bytes × π)) :
    entryBytes (e :: es) = e.1.length + Payload.len e.2 + entryBytes es := by
  simp [entryBytes]

@[simp] theorem entryBytes_append (es fs : List (Bytes × π)) :
    entryBytes (es ++ fs) = entryBytes es + entryBytes fs := by
  simp [entryBytes]

theorem entryBytes_mem {es : List (Bytes × π)} {e : Bytes × π} (h : e ∈ es) :
    e.1.length + Payload.len e.2 ≤ entryBytes es :=
  List.single_le_sum (fun _ _ => Nat.zero_le _) _ (List.mem_map_of_mem h)

def content (n : BTreeNode π) : List (Bytes × π) := n.slots.map Slot.entry

def entries (n : BTreeNode π) : List (Bytes × π) := n.content.map fun e => (n.getPrefix ++ e.1, e.2)

section
omit [Payload π]

@[simp] theorem content_length (n : BTreeNode π) : n.content.length = n.count := by simp [content]

@[simp] theorem entries_length (n : BTreeNode π) : n.entries.length = n.count := by simp [entries]

end

structure Accounted (n : BTreeNode π) : Prop where
  space : n.spaceUsed = n.getLowerFence.length + n.getUpperFence.length + entryBytes n.content
  room : slotsOffset + slotSize * n.count ≤ n.dataOffset
  fits : n.dataOffset + n.spaceUsed ≤ pageSize

structure Ordered (n : BTreeNode π) : Prop where
  prefixLen : n.prefixLength = commonPrefixLength n.getLowerFence n.getUpperFence
  fences : FencesOrdered n.getLowerFence n.getUpperFence
  sorted : Ascending (keys n.content)
  inFences : ∀ e ∈ n.content, InFences n.getLowerFence n.getUpperFence (n.getPrefix ++ e.1)
  heads : ∀ s ∈ n.slots, s.head = head s.key

def HintsOk (n : BTreeNode π) : Prop :=
  n.slots ≠ [] →
    n.hint = (List.range hintCount).map fun i => n.headAt (n.count / (hintCount + 1) * (i + 1))

structure WF (n : BTreeNode π) : Prop extends Accounted n, Ordered n where
  hints : n.HintsOk

/-- Equal up to where in the page things lie. -/
structure SameContent (n m : BTreeNode π) : Prop where
  isLeaf : m.isLeaf = n.isLeaf
  lower : m.getLowerFence = n.getLowerFence
  upper : m.getUpperFence = n.getUpperFence
  prefixLength : m.prefixLength = n.prefixLength
  content : m.content = n.content

section
omit [Payload π]

theorem SameContent.refl (n : BTreeNode π) : SameContent n n := ⟨rfl, rfl, rfl, rfl, rfl⟩

end

namespace SameContent
variable {n m : BTreeNode π}
omit [Payload π]

theorem getPrefix (h : SameContent n m) : m.getPrefix = n.getPrefix := by
  simp only [BTreeNode.getPrefix, h.lower, h.prefixLength]

theorem entries (h : SameContent n m) : m.entries = n.entries := by
  simp only [BTreeNode.entries, h.content, h.getPrefix]

theorem count (h : SameContent n m) : m.count = n.count := by
  rw [← content_length, h.content, content_length]

end SameContent

namespace Ordered
variable {n : BTreeNode π}
omit [Payload π]

theorem prefixLength_le (h : Ordered n) : n.prefixLength ≤ n.getLowerFence.length := by
  rw [h.prefixLen]
  exact commonPrefixLength_le_left _ _

theorem prefixLength_le_upper (h : Ordered n) : n.prefixLength ≤ n.getUpperFence.length := by
  rw [h.prefixLen]
  exact commonPrefixLength_le_right _ _

theorem length_getPrefix (h : Ordered n) : n.getPrefix.length = n.prefixLength := by
  simpa [getPrefix] using h.prefixLength_le

theorem prefix_append_drop (h : Ordered n) {key : Bytes}
    (hk : InFences n.getLowerFence n.getUpperFence key) :
    n.getPrefix ++ key.drop n.prefixLength = key := by
  have hp := hk.isPrefix
  rw [← h.prefixLen] at hp
  have ht := List.prefix_iff_eq_take.mp hp
  have hl : (n.getLowerFence.take n.prefixLength).length = n.prefixLength := h.length_getPrefix
  rw [hl] at ht
  rw [getPrefix, ht, List.take_append_drop]

theorem prefixLength_le_key (h : Ordered n) {key : Bytes}
    (hk : InFences n.getLowerFence n.getUpperFence key) : n.prefixLength ≤ key.length := by
  rw [← h.prefix_append_drop hk, List.length_append, h.length_getPrefix]
  exact Nat.le_add_right _ _

theorem keys_entries : keys n.entries = (keys n.content).map (n.getPrefix ++ ·) := by
  simp [keys, entries, Function.comp_def]

theorem sorted_entries (h : Ordered n) : Ascending (keys n.entries) := by
  rw [keys_entries, Ascending, List.pairwise_map]
  exact h.sorted.imp fun hab => append_lt_append_iff.mpr hab

theorem entries_inFences (h : Ordered n) {e : Bytes × π} (he : e ∈ n.entries) :
    InFences n.getLowerFence n.getUpperFence e.1 := by
  obtain ⟨c, hc, rfl⟩ := List.mem_map.mp he
  exact h.inFences c hc

end Ordered

/-- `dst'` is `dst` with slots for `es` appended and their bytes put below its heap. -/
structure Grown (dst dst' : BTreeNode π) (es : List (Bytes × π)) : Prop where
  added : ∃ ss, dst'.slots = dst.slots ++ ss ∧ ss.map Slot.entry = es ∧ ∀ s ∈ ss, s.head = head s.key
  space : dst'.spaceUsed = dst.spaceUsed + entryBytes es
  offset : dst'.dataOffset + entryBytes es = dst.dataOffset
  isLeaf : dst'.isLeaf = dst.isLeaf
  lower : dst'.lowerFence = dst.lowerFence
  upper : dst'.upperFence = dst.upperFence
  prefixLength : dst'.prefixLength = dst.prefixLength

namespace Grown
variable {n a b c : BTreeNode π} {es fs : List (Bytes × π)}

theorem refl : Grown a a [] :=
  ⟨⟨[], by simp⟩, rfl, rfl, rfl, rfl, rfl, rfl⟩

theorem trans (h : Grown a b es) (g : Grown b c fs) : Grown a c (es ++ fs) := by
  obtain ⟨ss, hs, rfl, hh⟩ := h.added
  obtain ⟨ts, ht, rfl, hg⟩ := g.added
  refine ⟨⟨ss ++ ts, by simp [ht, hs], by simp, ?_⟩, ?_, ?_, g.isLeaf.trans h.isLeaf,
    g.lower.trans h.lower, g.upper.trans h.upper, g.prefixLength.trans h.prefixLength⟩
  · intro s hs
    rcases List.mem_append.mp hs with hs | hs
    · exact hh s hs
    · exact hg s hs
  · rw [g.space, h.space, entryBytes_append, Nat.add_assoc]
  · rw [← h.offset, ← g.offset, entryBytes_append]
    omega

theorem content (h : Grown a b es) : b.content = a.content ++ es := by
  obtain ⟨ss, hs, rfl, -⟩ := h.added
  simp [BTreeNode.content, hs]

theorem count (h : Grown a b es) : b.count = a.count + es.length := by
  rw [← content_length, h.content, List.length_append, content_length]

theorem heads (h : Grown a b es) (ha : ∀ s ∈ a.slots, s.head = head s.key) :
    ∀ s ∈ b.slots, s.head = head s.key := by
  obtain ⟨ss, hs, -, hh⟩ := h.added
  intro s hm
  rw [hs] at hm
  rcases List.mem_append.mp hm with hm | hm
  · exact ha s hm
  · exact hh s hm

theorem push {s : Slot π} {space : ℕ} (hs : s.head = head s.key) (hsp : space = s.size)
    (hd : space ≤ a.dataOffset) :
    Grown a { a with
      dataOffset := a.dataOffset - space
      spaceUsed := a.spaceUsed + space
      slots := a.slots ++ [s] } [s.entry] := by
  subst hsp
  refine ⟨⟨[s], rfl, rfl, by simpa using hs⟩, ?_, ?_, rfl, rfl, rfl, rfl⟩
  · simp [Slot.entry, Slot.size]
  · simp only [Slot.entry, Slot.size, entryBytes_cons, entryBytes_nil] at hd ⊢
    omega

end Grown

theorem storeKeyValue_eq_ok {n m : BTreeNode π} {slotId : ℕ} {key : Bytes} {payload : π}
    {s : Slot π} (h : n.storeKeyValue slotId key payload = .ok (m, s)) :
    s.key = key.drop n.prefixLength ∧ s.payload = payload ∧ s.head = head s.key ∧
      s.size ≤ n.dataOffset ∧
      m = { n with dataOffset := n.dataOffset - s.size, spaceUsed := n.spaceUsed + s.size } := by
  simp only [storeKeyValue, bind_eq_ok, ensure_eq_ok, exists_const, pure_eq_ok, Prod.mk.injEq] at h
  obtain ⟨-, hd, -, rfl, rfl⟩ := h
  exact ⟨rfl, rfl, rfl, hd, rfl⟩

theorem storeKeyValue_ok {n : BTreeNode π} {slotId : ℕ} {key : Bytes} {payload : π}
    (hk : n.prefixLength ≤ key.length)
    (hr : slotsOffset + slotSize * (slotId + 1) + (key.length - n.prefixLength + Payload.len payload) ≤
      n.dataOffset) :
    ∃ m s, n.storeKeyValue slotId key payload = .ok (m, s) := by
  simp only [storeKeyValue, ensure_of hk, ok_bind, List.length_drop]
  rw [ensure_of (by omega), ok_bind, ensure_of (by omega)]
  exact ⟨_, _, rfl⟩

def rekey (n dst : BTreeNode π) (s : Slot π) : Bytes × π :=
  ((n.getPrefix ++ s.key).drop dst.prefixLength, s.payload)

theorem copyKeyValue_grown {n dst dst' : BTreeNode π} {s : Slot π}
    (h : n.copyKeyValue dst s = .ok dst') : Grown dst dst' [n.rekey dst s] := by
  simp only [copyKeyValue, bind_eq_ok, pure_eq_ok] at h
  obtain ⟨⟨m, t⟩, hst, rfl⟩ := h
  obtain ⟨hk, hp, hh, hd, rfl⟩ := storeKeyValue_eq_ok hst
  have hg := Grown.push (a := dst) hh rfl hd
  rwa [Slot.entry, hk, hp] at hg

theorem copyTruncated_grown {n dst dst' : BTreeNode π} {s : Slot π}
    (hn : n.getPrefix.length = n.prefixLength) (hp : n.prefixLength ≤ dst.prefixLength)
    (h : copyTruncated (dst.prefixLength - n.prefixLength) dst s = .ok dst') :
    Grown dst dst' [n.rekey dst s] := by
  simp only [copyTruncated, bind_eq_ok, ensure_eq_ok, exists_const, pure_eq_ok] at h
  obtain ⟨-, hd, rfl⟩ := h
  have hk : n.rekey dst s = (s.key.drop (dst.prefixLength - n.prefixLength), s.payload) := by
    rw [rekey, List.drop_append, List.drop_of_length_le (by omega), List.nil_append, hn]
  rw [hk]
  exact Grown.push rfl rfl hd

theorem foldlM_grown {σ : Type} {f : BTreeNode π → σ → Except Fault (BTreeNode π)} {p : ℕ}
    {g : σ → Bytes × π} {src : List σ}
    (hf : ∀ a, ∀ s ∈ src, ∀ b, a.prefixLength = p → f a s = .ok b → Grown a b [g s]) :
    ∀ {dst dst' : BTreeNode π}, dst.prefixLength = p →
      src.foldlM f dst = .ok dst' → Grown dst dst' (src.map g) := by
  induction src with
  | nil =>
    intro dst dst' _ h
    rw [List.foldlM_nil, pure_eq_ok] at h
    exact h ▸ Grown.refl
  | cons s src ih =>
    intro dst dst' hp h
    rw [List.foldlM_cons, bind_eq_ok] at h
    obtain ⟨m, hm, h⟩ := h
    have hg := hf dst s (by simp) m hp hm
    simpa using hg.trans (ih (fun a t ht => hf a t (List.mem_cons_of_mem s ht))
      (hg.prefixLength.trans hp) h)

theorem foldlM_ok {σ : Type} {f : BTreeNode π → σ → Except Fault (BTreeNode π)} {p : ℕ}
    {g : σ → Bytes × π} {src : List σ}
    (hf : ∀ a, ∀ s ∈ src, ∀ b, a.prefixLength = p → f a s = .ok b → Grown a b [g s])
    (hok : ∀ a, ∀ s ∈ src, a.prefixLength = p →
      slotsOffset + slotSize * (a.count + 1) + entryBytes [g s] ≤ a.dataOffset → ∃ b, f a s = .ok b) :
    ∀ {dst : BTreeNode π}, dst.prefixLength = p →
      slotsOffset + slotSize * (dst.count + src.length) + entryBytes (src.map g) ≤ dst.dataOffset →
      ∃ dst', src.foldlM f dst = .ok dst' := by
  induction src with
  | nil => exact fun {dst} _ _ => ⟨dst, rfl⟩
  | cons s src ih =>
    intro dst hp hr
    simp only [List.length_cons, List.map_cons, entryBytes_cons, slotSize, slotsOffset] at hr
    obtain ⟨m, hm⟩ := hok dst s (by simp) hp (by simp; omega)
    have hg := hf dst s (by simp) m hp hm
    have hc := hg.count
    have ho := hg.offset
    simp only [entryBytes_cons, entryBytes_nil, List.length_singleton] at hc ho
    rw [List.foldlM_cons, hm, ok_bind]
    refine ih (fun a t ht => hf a t (List.mem_cons_of_mem s ht))
      (fun a t ht => hok a t (List.mem_cons_of_mem s ht)) (hg.prefixLength.trans hp) ?_
    simp only [slotSize, slotsOffset]
    omega

theorem copySlots_grown {n dst dst' : BTreeNode π} {src : List (Slot π)}
    (hn : n.getPrefix.length = n.prefixLength) (h : n.copySlots dst src = .ok dst') :
    Grown dst dst' (src.map (n.rekey dst)) := by
  unfold copySlots at h
  split_ifs at h with hp
  · refine foldlM_grown (p := dst.prefixLength) (fun a s _ b ha hb => ?_) rfl h
    rw [← ha] at hb hp
    have hg := copyTruncated_grown hn hp hb
    rwa [rekey, ha] at hg
  · refine foldlM_grown (p := dst.prefixLength) (fun a s _ b ha hb => ?_) rfl h
    have hg := copyKeyValue_grown hb
    rwa [rekey, ha] at hg

theorem copySlots_ok {n dst : BTreeNode π} {src : List (Slot π)}
    (hn : n.getPrefix.length = n.prefixLength)
    (hk : ∀ s ∈ src, dst.prefixLength ≤ (n.getPrefix ++ s.key).length)
    (hr : slotsOffset + slotSize * (dst.count + src.length) + entryBytes (src.map (n.rekey dst)) ≤
      dst.dataOffset) :
    ∃ dst', n.copySlots dst src = .ok dst' := by
  unfold copySlots
  split_ifs with hp
  · refine foldlM_ok (p := dst.prefixLength) (g := n.rekey dst) (fun a s _ b ha hb => ?_)
      (fun a s hs ha har => ?_) rfl hr
    · rw [← ha] at hb hp
      have hg := copyTruncated_grown hn hp hb
      rwa [rekey, ha] at hg
    · have hl := hk s hs
      rw [List.length_append, hn] at hl
      simp only [copyTruncated]
      rw [ensure_of (by omega), ok_bind, ensure_of, ok_bind]
      · exact ⟨_, rfl⟩
      · simp only [rekey, entryBytes_cons, entryBytes_nil, List.length_drop, List.length_append, hn]
          at har ⊢
        omega
  · refine foldlM_ok (p := dst.prefixLength) (g := n.rekey dst) (fun a s _ b ha hb => ?_)
      (fun a s hs ha har => ?_) rfl hr
    · have hg := copyKeyValue_grown hb
      rwa [rekey, ha] at hg
    · have hl := hk s hs
      rw [← ha] at hl
      have hroom : slotsOffset + slotSize * (a.count + 1) +
          ((n.getPrefix ++ s.key).length - a.prefixLength + Payload.len s.payload) ≤ a.dataOffset := by
        simp only [rekey, entryBytes_cons, entryBytes_nil, List.length_drop, ← ha] at har
        omega
      obtain ⟨m, t, hst⟩ := storeKeyValue_ok hl hroom
      simp only [copyKeyValue, hst, ok_bind]
      exact ⟨_, rfl⟩

theorem copyKeyValueRange_grown {n dst dst' : BTreeNode π} {srcSlot srcCount : ℕ}
    (hn : n.getPrefix.length = n.prefixLength)
    (h : n.copyKeyValueRange dst srcSlot srcCount = .ok dst') :
    Grown dst dst' (((n.slots.drop srcSlot).take srcCount).map (n.rekey dst)) ∧
      slotsOffset + slotSize * dst'.count ≤ dst'.dataOffset := by
  simp only [copyKeyValueRange, bind_eq_ok, ensure_eq_ok, exists_const, pure_eq_ok] at h
  obtain ⟨m, hm, hr, rfl⟩ := h
  exact ⟨copySlots_grown hn hm, hr⟩

theorem copyKeyValueRange_ok {n dst : BTreeNode π} {srcSlot srcCount : ℕ}
    (hn : n.getPrefix.length = n.prefixLength)
    (hk : ∀ s ∈ (n.slots.drop srcSlot).take srcCount,
      dst.prefixLength ≤ (n.getPrefix ++ s.key).length)
    (hr : slotsOffset + slotSize * (dst.count + ((n.slots.drop srcSlot).take srcCount).length) +
        entryBytes (((n.slots.drop srcSlot).take srcCount).map (n.rekey dst)) ≤ dst.dataOffset) :
    ∃ dst', n.copyKeyValueRange dst srcSlot srcCount = .ok dst' := by
  obtain ⟨m, hm⟩ := copySlots_ok hn hk hr
  have hg := copySlots_grown hn hm
  have hc := hg.count
  have ho := hg.offset
  rw [List.length_map] at hc
  simp only [copyKeyValueRange, hm, ok_bind]
  rw [ensure_of (by simp only [slotsOffset, slotSize] at hr ⊢; omega)]
  exact ⟨m, rfl⟩

section Fences
omit [Payload π]

@[simp] theorem getLowerFence_makeHint (n : BTreeNode π) : n.makeHint.getLowerFence = n.getLowerFence := rfl
@[simp] theorem getUpperFence_makeHint (n : BTreeNode π) : n.makeHint.getUpperFence = n.getUpperFence := rfl
@[simp] theorem slots_makeHint (n : BTreeNode π) : n.makeHint.slots = n.slots := rfl
@[simp] theorem content_makeHint (n : BTreeNode π) : n.makeHint.content = n.content := rfl
@[simp] theorem entries_makeHint (n : BTreeNode π) : n.makeHint.entries = n.entries := rfl

end Fences

theorem makeHint_wf {n : BTreeNode π} (ha : Accounted n) (ho : Ordered n) : WF n.makeHint :=
  { space := ha.space, room := ha.room, fits := ha.fits, prefixLen := ho.prefixLen,
    fences := ho.fences, sorted := ho.sorted, inFences := ho.inFences, heads := ho.heads,
    hints := fun _ => rfl }

def fenced (isLeaf : Bool) (lower upper : Bytes) : BTreeNode π where
  isLeaf := isLeaf
  spaceUsed := lower.length + upper.length
  dataOffset := pageSize - lower.length - upper.length
  lowerFence := ⟨pageSize - lower.length, lower⟩
  upperFence := ⟨pageSize - lower.length - upper.length, upper⟩
  prefixLength := commonPrefixLength lower upper
  hint := List.replicate hintCount 0
  slots := []

section
omit [Payload π]

theorem setFences_init_eq_ok {isLeaf : Bool} {lower upper : Bytes} {m : BTreeNode π} :
    (init isLeaf).setFences lower upper = .ok m ↔
      slotsOffset + lower.length + upper.length ≤ pageSize ∧ m = fenced isLeaf lower upper := by
  simp only [setFences, insertFence, bind_eq_ok, ensure_eq_ok, exists_const, pure_eq_ok, Prod.exists,
    Prod.mk.injEq]
  constructor
  · rintro ⟨_, _, ⟨h₁, rfl, rfl⟩, _, _, ⟨h₂, rfl, rfl⟩, rfl⟩
    refine ⟨?_, by simp [fenced, init]⟩
    simp [init, freeSpace, count] at h₁ h₂ ⊢
    omega
  · rintro ⟨h, rfl⟩
    refine ⟨_, _, ⟨?_, rfl, rfl⟩, _, _, ⟨?_, rfl, rfl⟩, by simp [fenced, init]⟩ <;>
      simp [init, freeSpace, count] at h ⊢ <;> omega

@[simp] theorem count_fenced (isLeaf : Bool) (lower upper : Bytes) :
    (fenced isLeaf lower upper : BTreeNode π).count = 0 := rfl

theorem Ordered.content_eq {n : BTreeNode π} (h : Ordered n) :
    n.content = n.entries.map fun e => (e.1.drop n.prefixLength, e.2) := by
  rw [entries, List.map_map]
  conv_lhs => rw [← List.map_id n.content]
  refine List.map_congr_left fun e _ => Prod.ext ?_ rfl
  simp [← h.length_getPrefix]

end

def truncate (lower upper : Bytes) (es : List (Bytes × π)) : List (Bytes × π) :=
  es.map fun e => (e.1.drop (commonPrefixLength lower upper), e.2)

section
omit [Payload π]

@[simp] theorem truncate_append (lower upper : Bytes) (es fs : List (Bytes × π)) :
    truncate lower upper (es ++ fs) = truncate lower upper es ++ truncate lower upper fs :=
  List.map_append

@[simp] theorem truncate_length (lower upper : Bytes) (es : List (Bytes × π)) :
    (truncate lower upper es).length = es.length := List.length_map _

end

/-- The bytes a page with these fences and entries takes: header, fences, slots and heap. -/
def pageBytes (lower upper : Bytes) (es : List (Bytes × π)) : ℕ :=
  slotsOffset + lower.length + upper.length + slotSize * es.length +
    entryBytes (truncate lower upper es)

structure Holds (n : BTreeNode π) (isLeaf : Bool) (lower upper : Bytes) (es : List (Bytes × π)) : Prop
    where
  wf : WF n
  isLeaf : n.isLeaf = isLeaf
  lower : n.getLowerFence = lower
  upper : n.getUpperFence = upper
  entries : n.entries = es

section
omit [Payload π]

theorem Ordered.content_truncate {n : BTreeNode π} (h : Ordered n) :
    n.content = truncate n.getLowerFence n.getUpperFence n.entries := by
  rw [truncate, ← h.prefixLen]
  exact h.content_eq

end

theorem WF.space_entries {n : BTreeNode π} (h : WF n) :
    slotsOffset + slotSize * n.count + n.spaceUsed =
      pageBytes n.getLowerFence n.getUpperFence n.entries := by
  rw [h.space, h.content_truncate, pageBytes, entries_length]
  omega

theorem WF.freeSpaceAfterCompaction_eq {n : BTreeNode π} (h : WF n) :
    n.freeSpaceAfterCompaction = pageSize - pageBytes n.getLowerFence n.getUpperFence n.entries := by
  rw [← h.space_entries, freeSpaceAfterCompaction, Nat.sub_sub]

theorem WF.pageBytes_le {n : BTreeNode π} (h : WF n) :
    pageBytes n.getLowerFence n.getUpperFence n.entries ≤ pageSize := by
  rw [← h.space_entries]
  have hr := h.room
  have hf := h.fits
  omega

theorem grown_fenced {m : BTreeNode π} {isLeaf : Bool} {lower upper : Bytes} {es : List (Bytes × π)}
    (hg : Grown (fenced isLeaf lower upper) m (truncate lower upper es))
    (hroom : slotsOffset + slotSize * m.count ≤ m.dataOffset) (hf : FencesOrdered lower upper)
    (hs : slotsOffset + lower.length + upper.length ≤ pageSize) (hsort : Ascending (keys es))
    (hin : ∀ e ∈ es, InFences lower upper e.1) :
    Holds m.makeHint isLeaf lower upper es := by
  have hlow : m.getLowerFence = lower := by rw [getLowerFence, hg.lower]; rfl
  have hupp : m.getUpperFence = upper := by rw [getUpperFence, hg.upper]; rfl
  have hpl : m.prefixLength = commonPrefixLength lower upper := hg.prefixLength
  have hpre : m.getPrefix = lower.take (commonPrefixLength lower upper) := by
    rw [getPrefix, hlow, hpl]
  have hc : m.content = truncate lower upper es := by
    rw [hg.content]
    rfl
  have hback : ∀ e ∈ es, m.getPrefix ++ e.1.drop (commonPrefixLength lower upper) = e.1 := by
    intro e he
    obtain ⟨r, hr⟩ := (hin e he).isPrefix
    have hl : (lower.take (commonPrefixLength lower upper)).length = commonPrefixLength lower upper := by
      simpa using commonPrefixLength_le_left lower upper
    rw [hpre, ← hr, List.drop_append, List.drop_of_length_le hl.le, hl]
    simp
  have hent : m.entries = es := by
    rw [entries, hc, truncate, List.map_map]
    conv_rhs => rw [← List.map_id es]
    exact List.map_congr_left fun e he => Prod.ext (hback e he) rfl
  refine ⟨makeHint_wf ⟨?_, hroom, ?_⟩ ⟨?_, ?_, ?_, ?_, ?_⟩, hg.isLeaf, hlow, hupp, hent⟩
  · rw [hg.space, hlow, hupp, hg.content]
    simp [fenced, content]
  · have h₁ := hg.space
    have h₂ := hg.offset
    simp only [fenced, pageSize, slotsOffset] at h₁ h₂ hs ⊢
    omega
  · rw [hlow, hupp, hpl]
  · rw [hlow, hupp]
    exact hf
  · rw [← hent, Ordered.keys_entries, Ascending, List.pairwise_map] at hsort
    exact hsort.imp fun hab => append_lt_append_iff.mp hab
  · intro e he
    rw [hlow, hupp]
    have hm : (m.getPrefix ++ e.1, e.2) ∈ m.entries := List.mem_map_of_mem he
    rw [hent] at hm
    exact hin _ hm
  · exact hg.heads (by simp [fenced])

theorem empty_holds {n : BTreeNode π} (hslots : n.slots = [])
    (hused : n.spaceUsed = n.getLowerFence.length + n.getUpperFence.length)
    (hroom : slotsOffset ≤ n.dataOffset) (hfits : n.dataOffset + n.spaceUsed ≤ pageSize)
    (hp : n.prefixLength = commonPrefixLength n.getLowerFence n.getUpperFence)
    (hf : FencesOrdered n.getLowerFence n.getUpperFence) :
    Holds n n.isLeaf n.getLowerFence n.getUpperFence [] := by
  have hc : n.content = [] := by rw [content, hslots]; rfl
  refine ⟨⟨⟨?_, ?_, hfits⟩, ⟨hp, hf, ?_, ?_, ?_⟩, fun hne => absurd hslots hne⟩, rfl, rfl, rfl, ?_⟩
  · rw [hused, hc]
    rfl
  · rw [count, hslots]
    exact hroom
  · rw [hc]
    exact List.Pairwise.nil
  · simp [hc]
  · simp [hslots]
  · rw [entries, hc]
    rfl

theorem fenced_holds (isLeaf : Bool) {lower upper : Bytes} (hf : FencesOrdered lower upper)
    (hs : slotsOffset + lower.length + upper.length ≤ pageSize) :
    Holds (fenced isLeaf lower upper : BTreeNode π) isLeaf lower upper [] :=
  empty_holds rfl rfl (by simp only [fenced, slotsOffset, pageSize] at hs ⊢; omega)
    (by simp only [fenced, slotsOffset, pageSize] at hs ⊢; omega) rfl hf

theorem init_holds (isLeaf : Bool) : Holds (init isLeaf : BTreeNode π) isLeaf [] [] [] :=
  empty_holds rfl rfl (by simp [init]) (by simp [init]) rfl (Or.inl rfl)

section
omit [Payload π]

theorem map_rekey {n p : BTreeNode π} {lower upper : Bytes}
    (hp : p.prefixLength = commonPrefixLength lower upper) (i c : ℕ) :
    ((n.slots.drop i).take c).map (n.rekey p) = truncate lower upper ((n.entries.drop i).take c) := by
  rw [entries, content, truncate, ← List.map_drop, ← List.map_drop, ← List.map_take, ← List.map_take,
    List.map_map, List.map_map, ← hp]
  rfl

end

theorem copy_page {n p m : BTreeNode π} (h : Ordered n) {isLeaf : Bool} {lower upper : Bytes}
    {i c : ℕ} (hf : FencesOrdered lower upper)
    (hin : ∀ e ∈ (n.entries.drop i).take c, InFences lower upper e.1)
    (hp : (init isLeaf).setFences lower upper = .ok p) (hm : n.copyKeyValueRange p i c = .ok m) :
    Holds m.makeHint isLeaf lower upper ((n.entries.drop i).take c) ∧
      m.count = ((n.entries.drop i).take c).length := by
  obtain ⟨hs, rfl⟩ := setFences_init_eq_ok.mp hp
  obtain ⟨hg, hroom⟩ := copyKeyValueRange_grown h.length_getPrefix hm
  have hpl : (fenced isLeaf lower upper : BTreeNode π).prefixLength = commonPrefixLength lower upper := rfl
  rw [map_rekey hpl] at hg
  have hsub : (keys ((n.entries.drop i).take c)).Sublist (keys n.entries) :=
    ((List.take_sublist _ _).trans (List.drop_sublist _ _)).map _
  refine ⟨grown_fenced hg hroom hf hs (h.sorted_entries.sublist hsub) hin, ?_⟩
  rw [hg.count, count_fenced, truncate_length, Nat.zero_add]

theorem copy_ok {n p : BTreeNode π} (h : Ordered n) {lower upper : Bytes}
    (hp : p.prefixLength = commonPrefixLength lower upper) {i c : ℕ}
    (hin : ∀ e ∈ (n.entries.drop i).take c, InFences lower upper e.1)
    (hfit : slotsOffset + slotSize * (p.count + ((n.entries.drop i).take c).length) +
      entryBytes (truncate lower upper ((n.entries.drop i).take c)) ≤ p.dataOffset) :
    ∃ m, n.copyKeyValueRange p i c = .ok m := by
  have hl : ((n.entries.drop i).take c).length = ((n.slots.drop i).take c).length := by
    simp [entries, content]
  refine copyKeyValueRange_ok h.length_getPrefix (fun s hs => ?_) (by rw [map_rekey hp, ← hl]; exact hfit)
  have he : (n.getPrefix ++ s.key, s.payload) ∈ (n.entries.drop i).take c := by
    rw [entries, content, List.map_map, ← List.map_drop, ← List.map_take]
    exact List.mem_map_of_mem hs
  have hp' := (hin _ he).isPrefix.length_le
  rwa [List.length_take, Nat.min_eq_left (commonPrefixLength_le_left _ _), ← hp] at hp'

theorem copy_page_ok {n : BTreeNode π} (h : Ordered n) (isLeaf : Bool) {lower upper : Bytes}
    {i c : ℕ} (hin : ∀ e ∈ (n.entries.drop i).take c, InFences lower upper e.1)
    (hfit : pageBytes lower upper ((n.entries.drop i).take c) ≤ pageSize) :
    ∃ p m, (init isLeaf).setFences lower upper = .ok p ∧ n.copyKeyValueRange p i c = .ok m := by
  simp only [pageBytes, slotsOffset, slotSize, pageSize] at hfit
  obtain ⟨m, hm⟩ := copy_ok (p := fenced isLeaf lower upper) h rfl hin (by
    rw [count_fenced]
    simp only [fenced, slotsOffset, slotSize, pageSize]
    omega)
  refine ⟨_, m, setFences_init_eq_ok.mpr ⟨?_, rfl⟩, hm⟩
  simp only [slotsOffset, pageSize]
  omega

section
omit [Payload π]

theorem sameContent_of_entries {n m : BTreeNode π} (hn : Ordered n) (hm : Ordered m)
    (hl : m.isLeaf = n.isLeaf) (hlow : m.getLowerFence = n.getLowerFence)
    (hupp : m.getUpperFence = n.getUpperFence) (he : m.entries = n.entries) : SameContent n m := by
  have hp : m.prefixLength = n.prefixLength := by rw [hm.prefixLen, hn.prefixLen, hlow, hupp]
  exact ⟨hl, hlow, hupp, hp, by rw [hm.content_eq, hn.content_eq, he, hp]⟩

end

theorem compactify_spec {n : BTreeNode π} (h : WF n) :
    ∃ m, n.compactify = .ok m ∧ WF m ∧ SameContent n m ∧ m.freeSpace = n.freeSpaceAfterCompaction := by
  have hall : (n.entries.drop 0).take n.count = n.entries := by
    rw [List.drop_zero, ← entries_length, List.take_length]
  have hin : ∀ e ∈ (n.entries.drop 0).take n.count, InFences n.getLowerFence n.getUpperFence e.1 :=
    fun e he => h.entries_inFences (hall ▸ he)
  obtain ⟨p, m, hp, hm⟩ := copy_page_ok h.toOrdered n.isLeaf hin
    (by rw [hall]; exact h.pageBytes_le)
  obtain ⟨⟨hw, hleaf, hlow, hupp, hent⟩, -⟩ := copy_page h.toOrdered h.fences hin hp hm
  rw [hall] at hent
  have hsame := sameContent_of_entries h.toOrdered hw.toOrdered hleaf hlow hupp hent
  have hfree : m.makeHint.freeSpace = n.freeSpaceAfterCompaction := by
    have hs := hw.space
    obtain ⟨-, rfl⟩ := setFences_init_eq_ok.mp hp
    have hg := (copyKeyValueRange_grown h.length_getPrefix hm).1
    have ho := hg.offset
    have hsp := hg.space
    have hsn := h.space
    have hsm : m.makeHint.spaceUsed = n.spaceUsed := by
      rw [hs, hsn, hlow, hupp, hsame.content]
    change m.spaceUsed = n.spaceUsed at hsm
    simp only [fenced, pageSize] at ho hsp
    change m.dataOffset - (slotsOffset + slotSize * m.makeHint.count) = _
    rw [freeSpaceAfterCompaction, hsame.count, pageSize]
    omega
  refine ⟨m.makeHint, ?_, hw, hsame, hfree⟩
  simp only [compactify, hp, hm, ok_bind, ensure_of hfree]
  rfl

theorem requestSpaceFor_spec {n : BTreeNode π} (h : WF n) (k : ℕ) :
    ∃ m, n.requestSpaceFor k = .ok (decide (k ≤ n.freeSpaceAfterCompaction), m) ∧ WF m ∧
      SameContent n m ∧ (k ≤ n.freeSpaceAfterCompaction → k ≤ m.freeSpace) := by
  have hle : n.freeSpace ≤ n.freeSpaceAfterCompaction := by
    have hfits := h.fits
    simp only [freeSpace, freeSpaceAfterCompaction]
    omega
  unfold requestSpaceFor
  split_ifs with h₁ h₂
  · have hk : k ≤ n.freeSpaceAfterCompaction := h₁.trans hle
    exact ⟨n, by simp [hk], h, SameContent.refl n, fun _ => h₁⟩
  · obtain ⟨m, hm, hw, hs, hf⟩ := compactify_spec h
    exact ⟨m, by rw [hm, decide_eq_true h₂]; rfl, hw, hs, fun _ => hf ▸ h₂⟩
  · exact ⟨n, by simp [h₂], h, SameContent.refl n, fun hk => absurd hk h₂⟩

end BTreeNode

end BtreeRedis
