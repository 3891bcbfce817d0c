import BtreeRedis.Head.Reshape
import BtreeRedis.Lib.Outcome
import BtreeRedis.Tree.InnerSplit
import BtreeRedis.Tree.SplitRoom

/-!
# Inner nodes of all kinds are separators and children

Whatever shape an inner node has taken, its operations are those of a row of separators and
children, and once it has granted space for a separator of some length, every new separator of
that length between its fences goes in.
-/

namespace BtreeRedis

open LexOrder SortedAssoc BigEndian

namespace InnerNode
variable {γ : Type} [ChildPointer γ] {p : InnerNode γ} {a : Routing γ}

instance (p : InnerNode γ) (length : ℕ) : Decidable (p.Room length) := inferInstanceAs (Decidable (_ ≤ _))

structure Holds (p : InnerNode γ) (a : Routing γ) : Prop where
  wf : p.node.WF
  isLeaf : p.node.isLeaf = false
  lowerFence : p.node.getLowerFence = a.lower
  upperFence : p.node.getUpperFence = a.upper
  separators : p.separators = a.separators
  children : p.children = a.children

theorem holds_of_node {n : BTreeNode γ} {upper : γ} {es : List (Bytes × γ)}
    (hn : BTreeNode.Holds n false a.lower a.upper es) (hs : keys es = a.separators)
    (hc : es.map Prod.snd ++ [upper] = a.children) : Holds ⟨n, upper⟩ a := by
  refine ⟨hn.wf, hn.isLeaf, hn.lower, hn.upper, ?_, ?_⟩
  · rw [InnerNode.separators, hn.entries, hs]
  · rw [InnerNode.children, hn.entries, hc]

namespace Holds

theorem count_eq (h : p.Holds a) : p.node.count = a.separators.length := by
  rw [← h.separators, length_separators]

theorem prefixLength_eq (h : p.Holds a) : p.node.prefixLength = commonPrefixLength a.lower a.upper := by
  rw [h.wf.prefixLen, h.lowerFence, h.upperFence]

theorem inFences (h : p.Holds a) {key : Bytes} (hk : Within a.lower a.upper key) :
    InFences p.node.getLowerFence p.node.getUpperFence key := by
  rw [h.lowerFence, h.upperFence]
  exact hk.inFences

theorem sameContent (h : p.Holds a) {n : BTreeNode γ} (hw : n.WF) (hs : p.node.SameContent n) :
    Holds { p with node := n } a := by
  refine ⟨hw, hs.isLeaf.trans h.isLeaf, hs.lower.trans h.lowerFence, hs.upper.trans h.upperFence, ?_, ?_⟩
  · rw [InnerNode.separators, hs.entries]
    exact h.separators
  · rw [InnerNode.children, hs.entries]
    exact h.children

theorem keys_content (h : p.Holds a) : keys p.node.content = a.truncated := by
  have hkeys := h.separators
  rw [InnerNode.separators] at hkeys
  rw [h.wf.toOrdered.content_eq, Routing.truncated, ← hkeys, h.prefixLength_eq, keys, keys, List.map_map,
    List.map_map]
  rfl

end Holds

theorem innerRequestSpaceFor_spec (h : p.Holds a) {len : ℕ} (hlen : commonPrefixLength a.lower a.upper ≤ len) :
    ∃ m, p.innerRequestSpaceFor len = .ok (decide (p.Room len), m) ∧ m.Holds a ∧ (p.Room len → m.Room len) := by
  rw [← h.prefixLength_eq] at hlen
  obtain ⟨n, hn, hw, hs, -⟩ := BTreeNode.requestSpaceFor_spec h.wf
    (slotSize + (len - p.node.prefixLength) + pointerSize)
  refine ⟨{ p with node := n }, ?_, h.sameContent hw hs, fun hroom => ?_⟩
  · simp only [innerRequestSpaceFor, BTreeNode.spaceNeeded, ensure_of hlen, ok_bind, pure_bind, hn]
    rfl
  · rw [Room, freeSpaceAfterCompaction_sameContent h.wf hw hs, hs.prefixLength]
    exact hroom

theorem insertChild_spec (h : p.Holds a) {key : Bytes} (child : γ) (hk : Within a.lower a.upper key)
    (hnew : key ∉ a.separators) (hroom : p.Room key.length) :
    ∃ m, p.insertChild key child = .ok m ∧ m.Holds (a.insert key child hk hnew) := by
  have hin := h.inFences hk
  have hlen := h.wf.prefixLength_le_key hin
  rw [Room] at hroom
  obtain ⟨n, hn, hw, hs, hfree⟩ := BTreeNode.requestSpaceFor_spec h.wf
    (slotSize + (key.length - p.node.prefixLength) + pointerSize)
  rw [decide_eq_true hroom] at hn
  have hkeys : keys n.entries = a.separators := by
    rw [hs.entries]
    exact h.separators
  have hfreed : slotSize + (key.length - n.prefixLength) + Payload.len child ≤ n.freeSpace := by
    rw [hs.prefixLength, ChildPointer.len_eq]
    exact hfree hroom
  obtain ⟨m, hm, hmw, hml, hmlow, hmup, -, hment⟩ := BTreeNode.insertSlot_spec hw
    (by rwa [hs.lower, hs.upper]) (by rwa [hkeys]) hfreed
  rw [hkeys] at hment
  have hidx : lowerIndex a.separators key ≤ n.entries.length := by
    rw [← hkeys]
    refine (lowerIndex_le_length _ _).trans ?_
    rw [keys, List.length_map]
  have hholds := h.sameContent hw hs
  refine ⟨{ p with node := m }, ?_, hmw, hml.trans hholds.isLeaf, hmlow.trans hholds.lowerFence,
    hmup.trans hholds.upperFence, ?_, ?_⟩
  · simp only [insertChild, BTreeNode.insertChild, BTreeNode.spaceNeeded, ChildPointer.len_eq, ensure_of hlen,
      ok_bind, pure_bind, hn, if_true, hm]
    rfl
  · rw [separators, hment, keys, List.map_insertIdx]
    change (keys n.entries).insertIdx _ key = _
    rw [hkeys]
    rfl
  · rw [children, hment, map_snd_insertIdx_append hidx]
    change (({ p with node := n } : InnerNode γ).children).insertIdx _ child = _
    rw [hholds.children]
    rfl

theorem room_of_insertChild (h : p.Holds a) {key : Bytes} {child : γ} {m : InnerNode γ}
    (hm : p.insertChild key child = .ok m) : p.Room key.length := by
  obtain ⟨n, hn, -⟩ := BTreeNode.requestSpaceFor_spec h.wf
    (slotSize + (key.length - p.node.prefixLength) + Payload.len child)
  simp only [insertChild, BTreeNode.insertChild, BTreeNode.spaceNeeded, bind_eq_ok, ensure_eq_ok, exists_const,
    pure_eq_ok, Prod.exists] at hm
  obtain ⟨succ, q, ⟨needed, ⟨-, rfl⟩, space, r, hr, hq⟩, rfl, -⟩ := hm
  by_contra hroom
  rw [Room, ← ChildPointer.len_eq child] at hroom
  rw [decide_eq_false hroom] at hn
  rw [hn] at hr
  obtain ⟨rfl, rfl⟩ := Prod.mk.inj (Except.ok.inj hr)
  rw [if_neg (by decide)] at hq
  cases hq

theorem removeSlot_spec (h : p.Holds a) {i : ℕ} (hi : i < a.separators.length) :
    Holds { p with node := p.node.removeSlot i } (a.remove i hi) := by
  have hcount := h.count_eq
  obtain ⟨hw, hl, hlow, hup, -, hent⟩ := BTreeNode.removeSlot_spec h.wf (hcount ▸ hi)
  refine ⟨hw, hl.trans h.isLeaf, hlow.trans h.lowerFence, hup.trans h.upperFence, ?_, ?_⟩
  · rw [separators, hent, keys, ← List.eraseIdx_map]
    change p.separators.eraseIdx i = _
    rw [h.separators]
    rfl
  · rw [children, hent, ← List.eraseIdx_map,
      ← List.eraseIdx_append_of_lt_length (by rw [List.length_map, BTreeNode.entries_length]; omega)]
    change p.children.eraseIdx i = _
    rw [h.children]
    rfl

theorem splitInner_spec (h : p.Holds a) {i : ℕ} (hpos : 0 < i) (hi : i < a.separators.length) :
    ∃ key l c r, p.node.getKey i = .ok key ∧
      p.node.getSep ⟨p.node.prefixLength + key.length, i, false⟩ = .ok a.separators[i] ∧
      p.node.splitInner i a.separators[i] = .ok (l, c, r) ∧
      Holds ⟨l, c⟩ (a.left i hi) ∧ Holds ⟨r, p.upper⟩ (a.right i hi) := by
  have hcount := h.count_eq
  have hklen : (keys p.node.content).length = p.node.count := BTreeNode.keys_content_length p.node
  have hik : i < (keys p.node.content).length := by omega
  have hf := BTreeNode.foundSeparator_full h.wf.sorted hpos hik
  obtain ⟨hs, hk, -, hlen⟩ := hf.full h.wf.toOrdered
  have hkeys : keys p.node.entries = a.separators := h.separators
  have hsep : p.node.getPrefix ++ (keys p.node.content)[i] = a.separators[i] := by
    simp only [← hkeys, BTreeNode.Ordered.keys_entries, List.getElem_map]
  have hget := hf.getSep
  rw [hsep] at hs hk hlen hget
  have hkey : (keys p.node.content)[i]? = some (keys p.node.content)[i] := List.getElem?_eq_getElem hik
  obtain ⟨l, c, r, hlr⟩ := BTreeNode.splitInner_ok h.wf hs
    (BTreeNode.pageBytes_left_inner_le h.wf hs hk hkey hlen.symm) (BTreeNode.pageBytes_right_le h.wf hs hk (by
      have hsucc := BTreeNode.entryBytes_take_succ hkey
      have hpl := h.wf.prefixLength_le
      dsimp only at hlen
      simp only [slotSize]
      omega))
  obtain ⟨hl, hc, hr⟩ := BTreeNode.splitInner_spec h.wf hs hk hlr
  rw [h.isLeaf, h.lowerFence] at hl
  rw [h.isLeaf, h.upperFence] at hr
  have hchildren : p.node.entries.map Prod.snd ++ [p.upper] = a.children := h.children
  have hlast : (p.node.entries.map Prod.snd).length = p.node.count := by
    rw [List.length_map, BTreeNode.entries_length]
  refine ⟨_, l, c, r, BTreeNode.getKey_ok hik, hget, hlr, holds_of_node hl ?_ ?_, holds_of_node hr ?_ ?_⟩
  · rw [keys, List.map_take]
    exact congrArg (List.take i) hkeys
  · change _ = a.children.take (i + 1)
    rw [← hchildren, List.take_append_of_le_length (by omega), List.take_add_one, List.map_take, List.getElem?_map, hc]
    rfl
  · rw [keys, List.map_drop]
    exact congrArg (List.drop (i + 1)) hkeys
  · change _ = a.children.drop (i + 1)
    rw [← hchildren, List.drop_append_of_le_length (by omega), List.map_drop]

theorem count_lt_capacity (h : p.Holds a) (T : HeadType) :
    a.separators.length < HeadNode.capacity T a.lower a.upper := by
  have hle := h.wf.pageBytes_le
  have hl := a.lower_len
  have hu := a.upper_len
  have hlen : p.node.entries.length = a.separators.length := by
    rw [BTreeNode.entries_length, h.count_eq]
  rw [h.lowerFence, h.upperFence, BTreeNode.pageBytes, BTreeNode.entryBytes_eq, BTreeNode.truncate_length, hlen] at hle
  rw [HeadNode.capacity, Nat.lt_iff_add_one_le, Nat.le_div_iff_mul_le (Nat.lt_add_right _ T.size_pos)]
  cases T <;>
    simp only [HeadType.paddedHeadSize, HeadType.size, hintCount, slotsOffset, slotSize, maxKVSize, pageSize,
      headerSize, pointerSize] at * <;>
    omega

theorem clone_from_basic_spec (h : p.Holds a) {T : HeadType} (hs : ∀ s ∈ a.truncated, s.length < T.size) :
    HeadNode.clone_from_basic T p = .ok (HeadNode.filled T a a.children).makeHint := by
  have hcap := count_lt_capacity h T
  have hcount := h.count_eq
  have hkeys := h.keys_content
  have hheads : a.truncated.map (makeNeedleHead T) = p.node.slots.map fun s => makeNeedleHead T s.key := by
    rw [← hkeys, keys, BTreeNode.content, List.map_map, List.map_map]
    rfl
  have hshort : ∀ s ∈ p.node.slots, s.key.length < T.size := fun s hm =>
    hs _ (hkeys ▸ List.mem_map_of_mem (List.mem_map_of_mem hm))
  rw [HeadNode.clone_from_basic, h.lowerFence, h.upperFence, HeadNode.init_eq a.lower_len a.upper_len, ok_bind,
    ensure_of, ok_bind, Outcome.mapM_ok (g := fun s => makeNeedleHead T s.key), ok_bind, h.children, HeadNode.filled,
    hheads]
  · rfl
  · intro s hm
    rw [makeSepHead_eq_some.mpr ⟨hshort s hm, rfl⟩]
    rfl
  · change p.node.count ≤ HeadNode.capacity T a.lower a.upper
    omega

end InnerNode

namespace AnyInner
variable {γ : Type} [ChildPointer γ] {n m : AnyInner γ} {a : Routing γ}

def Represents : AnyInner γ → Routing γ → Prop
  | .inner p, a => p.Holds a
  | .head4 n, a => n.Holds a
  | .head8 n, a => n.Holds a

def Ready : AnyInner γ → ℕ → Prop
  | .inner p, len => p.Room len
  | .head4 n, len => len - n.prefixLength < HeadType.size .uint32 ∧ n.count < n.keyCapacity
  | .head8 n, len => len - n.prefixLength < HeadType.size .uint64 ∧ n.count < n.keyCapacity

end AnyInner

namespace HeadNode
variable {T : HeadType} {γ : Type} [ChildPointer γ] {n : HeadNode T γ} {a : Routing γ}

def Granted (a : Routing γ) (len : ℕ) (r : Bool × AnyInner γ) : Prop :=
  r.2.Represents a ∧ (r.1 = true → r.2.Ready len)

theorem Holds.ofHead (h : n.Holds a) : (AnyInner.ofHead n).Represents a := by
  cases T <;> exact h

theorem convertToBasicWithSpace_holds (h : n.Holds a) (k : ℕ) :
    ∃ res, n.convertToBasicWithSpace k = .ok res ∧ ∀ p, res = some p →
      p.Holds a ∧ slotSize + k + pointerSize ≤ p.node.freeSpaceAfterCompaction := by
  obtain ⟨res, hres, hspec⟩ := convertToBasicWithSpace_spec h.wf k
  refine ⟨res, hres, ?_⟩
  rintro p rfl
  obtain ⟨hp, hu⟩ := hspec p rfl
  have hlen := hp.wf.freeSpaceAfterCompaction_eq
  rw [hp.lower, hp.upper, hp.entries, BTreeNode.pageBytes, truncate_entries h.wf, entryBytes_zip h.wf] at hlen
  have hcount := h.count_eq
  have helen : n.entries.length = n.count := by
    rw [entries, List.length_zip, h.separators_eq, h.children, a.length, hcount]
    omega
  refine ⟨?_, ?_⟩
  · rw [h.lowerFence, h.upperFence] at hp
    refine InnerNode.holds_of_node hp ?_ ?_
    · rw [keys_entries h.wf, h.separators_eq]
    · rw [h.children] at hu
      have htake := List.take_add_one (l := a.children) (i := n.count)
      rw [hu, List.take_of_length_le (by rw [a.length, hcount])] at htake
      rw [entries, List.zip_eq_zip_take_min, h.separators_eq, h.children, a.length, Nat.min_eq_left (Nat.le_succ _),
        ← hcount, List.map_snd_zip (by rw [List.length_take, List.length_take, a.length]; omega)]
      exact htake.symm
  · unfold convertToBasicWithSpace at hres
    dsimp only at hres
    split_ifs at hres with h₁ h₂
    · cases hres
    · cases hres
    · rw [helen] at hlen
      simp only [slotsOffset, slotSize, pageSize, pointerSize, headerSize] at h₂ hlen ⊢
      omega

theorem requestBasic_spec (h : n.Holds a) (len : ℕ) :
    ∃ r, n.requestBasic (len - n.prefixLength) = .ok r ∧ Granted a len r := by
  obtain ⟨res, hres, hspec⟩ := convertToBasicWithSpace_holds h (len - n.prefixLength)
  rw [requestBasic, hres, ok_bind]
  cases res with
  | none => exact ⟨(false, .ofHead n), rfl, h.ofHead, by simp⟩
  | some p =>
    obtain ⟨hp, hroom⟩ := hspec p rfl
    refine ⟨(true, .inner p), rfl, hp, fun _ => ?_⟩
    rw [h.prefixLen, ← hp.prefixLength_eq] at hroom
    exact hroom

theorem requestSpaceFor_spec (h : n.Holds a) {len : ℕ} (hlen : commonPrefixLength a.lower a.upper ≤ len) :
    ∃ r, n.requestSpaceFor len = .ok r ∧ Granted a len r := by
  obtain ⟨b, hb, hbasic⟩ := requestBasic_spec h len
  have hpre := h.prefixLen
  rw [requestSpaceFor, ensure_of (hpre.trans_le hlen), ok_bind]
  dsimp only
  cases T with
  | uint32 =>
    obtain ⟨res, hres, hspec⟩ := convertToHead8WithSpace_spec h
    split_ifs with hlong hwide hroom hsmall
    · rw [hres, ok_bind]
      cases res with
      | none => exact ⟨b, hb, hbasic⟩
      | some m =>
        obtain ⟨hm, hcap⟩ := hspec m rfl
        refine ⟨(true, .head8 m), rfl, hm, fun _ => ⟨?_, hcap⟩⟩
        rw [hm.prefixLen, ← hpre]
        exact hwide.2
    · exact ⟨b, hb, hbasic⟩
    · exact ⟨(true, .head4 n), rfl, h, fun _ => ⟨not_le.mp hlong, hroom⟩⟩
    · exact absurd hsmall.1 (by decide)
    · exact ⟨(false, .head4 n), rfl, h, by simp⟩
  | uint64 =>
    obtain ⟨res, hres, hspec⟩ := convertToHead4WithSpace_spec h
    split_ifs with hlong hwide hroom hsmall
    · exact absurd hwide.1 (by decide)
    · exact ⟨b, hb, hbasic⟩
    · exact ⟨(true, .head8 n), rfl, h, fun _ => ⟨not_le.mp hlong, hroom⟩⟩
    · rw [hres, ok_bind]
      cases res with
      | none => exact ⟨(false, .head8 n), rfl, h, by simp⟩
      | some m =>
        obtain ⟨hm, hcap⟩ := hspec m rfl
        refine ⟨(true, .head4 m), rfl, hm, fun _ => ⟨?_, hcap⟩⟩
        rw [hm.prefixLen, ← hpre]
        exact hsmall.2
    · exact ⟨(false, .head8 n), rfl, h, by simp⟩

end HeadNode

namespace AnyInner
variable {γ : Type} [ChildPointer γ] {n m : AnyInner γ} {a : Routing γ}

theorem requestChildConvertFromBasic_spec {p : InnerNode γ} (h : p.Holds a) {len : ℕ}
    (hlen : commonPrefixLength a.lower a.upper ≤ len) :
    ∃ res, requestChildConvertFromBasic p len = .ok res ∧ ∀ m, res = some m → m.Represents a ∧ m.Ready len := by
  have hpre := h.prefixLength_eq
  have hkeys := h.keys_content
  have hslots : ∀ k, (∀ s ∈ p.node.slots, s.key.length < k) → ∀ s ∈ a.truncated, s.length < k := by
    intro k hall s hs
    rw [← hkeys, keys, BTreeNode.content, List.map_map] at hs
    obtain ⟨t, ht, rfl⟩ := List.mem_map.mp hs
    exact hall t ht
  have hready : ∀ {T : HeadType}, len - p.node.prefixLength < T.size → (∀ s ∈ a.truncated, s.length < T.size) →
      (HeadNode.filled T a a.children).makeHint.Holds a ∧
        (HeadNode.filled T a a.children).makeHint.count < (HeadNode.filled T a a.children).makeHint.keyCapacity ∧
        len - (HeadNode.filled T a a.children).makeHint.prefixLength < T.size := by
    intro T hk hs
    have hcap := InnerNode.count_lt_capacity h T
    have hholds := HeadNode.filled_holds hs hcap.le
    refine ⟨hholds, ?_, ?_⟩
    · rw [hholds.count_eq, hholds.keyCapacity]
      exact hcap
    · rw [hholds.prefixLen, ← hpre]
      exact hk
  rw [requestChildConvertFromBasic, ensure_of (hpre.trans_le hlen), ok_bind]
  dsimp only
  split_ifs with hlong hany hshort
  · exact ⟨none, rfl, by simp⟩
  · exact ⟨none, rfl, by simp⟩
  · have hall : ∀ s ∈ p.node.slots, s.key.length < 4 := by simpa using hshort.2
    obtain ⟨hholds, hcap, hhead⟩ := hready (T := .uint32) hshort.1 (hslots 4 hall)
    rw [InnerNode.clone_from_basic_spec h (T := .uint32) (hslots 4 hall), ok_bind, ensure_of hcap, ok_bind]
    refine ⟨_, rfl, ?_⟩
    rintro _ ⟨⟩
    exact ⟨hholds, hhead, hcap⟩
  · have hall : ∀ s ∈ p.node.slots, s.key.length < 8 := by simpa using hany
    obtain ⟨hholds, hcap, hhead⟩ := hready (T := .uint64) (not_le.mp hlong) (hslots 8 hall)
    rw [InnerNode.clone_from_basic_spec h (T := .uint64) (hslots 8 hall), ok_bind, ensure_of hcap, ok_bind]
    refine ⟨_, rfl, ?_⟩
    rintro _ ⟨⟩
    exact ⟨hholds, hhead, hcap⟩

theorem innerRequestSpaceFor_spec (h : n.Represents a) {len : ℕ} (hlen : commonPrefixLength a.lower a.upper ≤ len) :
    ∃ r, n.innerRequestSpaceFor len = .ok r ∧ HeadNode.Granted a len r := by
  cases n with
  | inner p =>
    obtain ⟨q, hq, hqa, hroom⟩ := InnerNode.innerRequestSpaceFor_spec h hlen
    obtain ⟨res, hres, hspec⟩ := requestChildConvertFromBasic_spec hqa hlen
    rw [innerRequestSpaceFor, hq, ok_bind]
    by_cases hr : p.Room len
    · rw [decide_eq_true hr]
      exact ⟨(true, .inner q), rfl, hqa, fun _ => hroom hr⟩
    · rw [decide_eq_false hr]
      dsimp only
      rw [if_neg (by decide), hres, ok_bind]
      cases res with
      | none => exact ⟨(false, .inner q), rfl, hqa, by simp⟩
      | some m =>
        obtain ⟨hm, hready⟩ := hspec m rfl
        exact ⟨(true, m), rfl, hm, fun _ => hready⟩
  | head4 n => exact HeadNode.requestSpaceFor_spec h hlen
  | head8 n => exact HeadNode.requestSpaceFor_spec h hlen

theorem insertChild_spec (h : n.Represents a) {key : Bytes} (child : γ) (hk : Within a.lower a.upper key)
    (hnew : key ∉ a.separators) (hr : n.Ready key.length) :
    ∃ m, n.insertChild key child = .ok m ∧ m.Represents (a.insert key child hk hnew) := by
  cases n with
  | inner p =>
    obtain ⟨q, hq, hqa⟩ := InnerNode.insertChild_spec h child hk hnew hr
    exact ⟨.inner q, by rw [insertChild, hq]; rfl, hqa⟩
  | head4 n =>
    obtain ⟨q, hq, hqa⟩ := HeadNode.insertChild_spec h child hk hnew hr.1 hr.2
    exact ⟨.head4 q, by rw [insertChild, hq]; rfl, hqa⟩
  | head8 n =>
    obtain ⟨q, hq, hqa⟩ := HeadNode.insertChild_spec h child hk hnew hr.1 hr.2
    exact ⟨.head8 q, by rw [insertChild, hq]; rfl, hqa⟩

theorem ready_of_insertChild (h : n.Represents a) {key : Bytes} {child : γ} (hm : n.insertChild key child = .ok m) :
    n.Ready key.length := by
  have hhead : ∀ {T : HeadType} {n q : HeadNode T γ}, n.insertChild key child = .ok q →
      key.length - n.prefixLength < T.size ∧ n.count < n.keyCapacity := by
    intro T n q hq
    simp only [HeadNode.insertChild, bind_eq_ok, ensure_eq_ok, exists_const] at hq
    obtain ⟨-, hq⟩ := hq
    cases hsep : makeSepHead T (key.drop n.prefixLength) with
    | none =>
      rw [hsep] at hq
      cases hq
    | some head =>
      obtain ⟨hshort, -⟩ := makeSepHead_eq_some.mp hsep
      rw [List.length_drop] at hshort
      rw [hsep] at hq
      simp only [HeadNode.insertAt, bind_eq_ok, ensure_eq_ok, exists_const] at hq
      obtain ⟨r, -, -, s, ⟨hcap, -⟩, -⟩ := hq
      exact ⟨hshort, hcap⟩
  cases n with
  | inner p =>
    simp only [insertChild, bind_eq_ok] at hm
    obtain ⟨q, hq, -⟩ := hm
    exact InnerNode.room_of_insertChild h hq
  | head4 n =>
    simp only [insertChild, bind_eq_ok] at hm
    obtain ⟨q, hq, -⟩ := hm
    exact hhead hq
  | head8 n =>
    simp only [insertChild, bind_eq_ok] at hm
    obtain ⟨q, hq, -⟩ := hm
    exact hhead hq

theorem insertChild_represents (h : n.Represents a) {key : Bytes} {child : γ} (hk : Within a.lower a.upper key)
    (hnew : key ∉ a.separators) (hm : n.insertChild key child = .ok m) : m.Represents (a.insert key child hk hnew) := by
  obtain ⟨q, hq, hqa⟩ := insertChild_spec h child hk hnew (ready_of_insertChild h hm)
  rw [hm] at hq
  cases hq
  exact hqa

theorem innerRemoveSlot_spec (h : n.Represents a) {i : ℕ} (hi : i < a.separators.length) :
    ∃ m, n.innerRemoveSlot i = .ok m ∧ m.Represents (a.remove i hi) := by
  cases n with
  | inner p => exact ⟨_, rfl, InnerNode.removeSlot_spec h hi⟩
  | head4 n =>
    obtain ⟨q, hq, hqa⟩ := HeadNode.removeSlot_spec h hi
    exact ⟨.head4 q, by rw [innerRemoveSlot, hq]; rfl, hqa⟩
  | head8 n =>
    obtain ⟨q, hq, hqa⟩ := HeadNode.removeSlot_spec h hi
    exact ⟨.head8 q, by rw [innerRemoveSlot, hq]; rfl, hqa⟩

section
omit [ChildPointer γ]

theorem restoreKey_separator {T : HeadType} {n : HeadNode T γ} (h : n.Holds a) {i : ℕ} (hi : i < a.separators.length) :
    n.restoreKey (n.prefixLength + n.getKeyLength i) i = a.separators[i] := by
  have hcount := h.count_eq
  simp only [← h.separators_eq, HeadNode.separators, List.getElem_map, List.getElem_range]

end

theorem splitNode_spec (h : n.Represents a) {i : ℕ} (hpos : 0 < i) (hi : i < a.separators.length) :
    ∃ l r, n.splitNode i = .ok (a.separators[i], l, r) ∧ l.Represents (a.left i hi) ∧
      r.Represents (a.right i hi) := by
  cases n with
  | inner p =>
    obtain ⟨key, l, c, r, hkey, hsep, hlr, hl, hr⟩ := InnerNode.splitInner_spec h hpos hi
    refine ⟨.inner ⟨l, c⟩, .inner ⟨r, p.upper⟩, ?_, hl, hr⟩
    rw [splitNode, hkey, ok_bind, hsep, ok_bind, hlr]
    rfl
  | head4 n =>
    obtain ⟨l, r, hlr, hl, hr⟩ := HeadNode.splitNode_spec h hpos hi
    refine ⟨.head4 l, .head4 r, ?_, hl, hr⟩
    rw [splitNode, restoreKey_separator h hi, hlr]
    rfl
  | head8 n =>
    obtain ⟨l, r, hlr, hl, hr⟩ := HeadNode.splitNode_spec h hpos hi
    refine ⟨.head8 l, .head8 r, ?_, hl, hr⟩
    rw [splitNode, restoreKey_separator h hi, hlr]
    rfl

end AnyInner

def Routing.root {γ : Type} (child : γ) : Routing γ where
  lower := []
  upper := []
  separators := []
  children := [child]
  lower_len := Nat.zero_le _
  upper_len := Nat.zero_le _
  fences := Or.inl rfl
  ascending := List.Pairwise.nil
  within := by simp
  length := rfl

namespace AnyInner
variable {γ : Type} [ChildPointer γ]

inductive Converts : AnyInner γ → AnyInner γ → Prop
  | fromBasic {p : InnerNode γ} {m : AnyInner γ} {len : ℕ} (h : requestChildConvertFromBasic p len = .ok (some m)) :
      Converts (.inner p) m
  | toHead8 {n : HeadNode .uint32 γ} {m : HeadNode .uint64 γ} (h : n.convertToHead8WithSpace = .ok (some m)) :
      Converts (.head4 n) (.head8 m)
  | toHead4 {n : HeadNode .uint64 γ} {m : HeadNode .uint32 γ} (h : n.convertToHead4WithSpace = .ok (some m)) :
      Converts (.head8 n) (.head4 m)
  | toBasic {T : HeadType} {n : HeadNode T γ} {p : InnerNode γ} {len : ℕ}
      (h : n.convertToBasicWithSpace len = .ok (some p)) : Converts (.ofHead n) (.inner p)

/-- `makeRoot` of a build with head nodes. -/
def makeRoot (child : γ) : Except Fault (AnyInner γ) := do
  let n : HeadNode .uint32 γ ← HeadNode.init [] []
  pure (.head4 { n with children := [child] })

/-- The inner nodes that the operations lead to from a new root, slotted or with heads, each beside what the same operations make of
separators and children. -/
inductive Reaches : AnyInner γ → Routing γ → Prop
  | slottedRoot (child : γ) : Reaches (.inner (.makeRoot child)) (.root child)
  | makeRoot {child : γ} {n : AnyInner γ} (h : makeRoot child = .ok n) : Reaches n (.root child)
  | request {n m : AnyInner γ} {a : Routing γ} {len : ℕ} {granted : Bool} (hn : Reaches n a)
      (h : n.innerRequestSpaceFor len = .ok (granted, m)) : Reaches m a
  | convert {n m : AnyInner γ} {a : Routing γ} (hn : Reaches n a) (h : Converts n m) : Reaches m a
  | insert {n m : AnyInner γ} {a : Routing γ} {key : Bytes} {child : γ} (hn : Reaches n a)
      (hk : Within a.lower a.upper key) (hnew : key ∉ a.separators) (h : n.insertChild key child = .ok m) :
      Reaches m (a.insert key child hk hnew)
  | remove {n m : AnyInner γ} {a : Routing γ} {i : ℕ} (hn : Reaches n a) (hi : i < a.separators.length)
      (h : n.innerRemoveSlot i = .ok m) : Reaches m (a.remove i hi)
  | left {n l r : AnyInner γ} {a : Routing γ} {i : ℕ} {sep : Bytes} (hn : Reaches n a) (hpos : 0 < i)
      (hi : i < a.separators.length) (h : n.splitNode i = .ok (sep, l, r)) : Reaches l (a.left i hi)
  | right {n l r : AnyInner γ} {a : Routing γ} {i : ℕ} {sep : Bytes} (hn : Reaches n a) (hpos : 0 < i)
      (hi : i < a.separators.length) (h : n.splitNode i = .ok (sep, l, r)) : Reaches r (a.right i hi)

structure Refines (n : AnyInner γ) (a : Routing γ) : Prop where
  represents : n.Represents a
  insert : ∀ key child (hk : Within a.lower a.upper key) (hnew : key ∉ a.separators) m,
    n.insertChild key child = .ok m → m.Represents (a.insert key child hk hnew)
  remove : ∀ i (hi : i < a.separators.length), ∃ m, n.innerRemoveSlot i = .ok m ∧ m.Represents (a.remove i hi)
  convert : ∀ m, Converts n m → m.Represents a
  split : ∀ i (hi : i < a.separators.length), 0 < i →
    ∃ l r, n.splitNode i = .ok (a.separators[i], l, r) ∧ l.Represents (a.left i hi) ∧ r.Represents (a.right i hi)
  /-- What is granted can be used. -/
  request : ∀ len, commonPrefixLength a.lower a.upper ≤ len →
    ∃ granted m, n.innerRequestSpaceFor len = .ok (granted, m) ∧ m.Represents a ∧
      (granted = true → m.Ready len ∧
        ∀ key child (hk : Within a.lower a.upper key) (hnew : key ∉ a.separators), key.length = len →
          ∃ m', m.insertChild key child = .ok m' ∧ m'.Represents (a.insert key child hk hnew))

variable {n m : AnyInner γ} {a : Routing γ}

theorem converts_represents (h : n.Represents a) (hc : Converts n m) : m.Represents a := by
  cases hc with
  | @fromBasic p m len hm =>
    have hlen : commonPrefixLength a.lower a.upper ≤ len := by
      simp only [requestChildConvertFromBasic, bind_eq_ok, ensure_eq_ok, exists_const] at hm
      rw [← InnerNode.Holds.prefixLength_eq h]
      exact hm.1
    obtain ⟨res, hres, hspec⟩ := requestChildConvertFromBasic_spec h hlen
    rw [hm] at hres
    exact (hspec m (Except.ok.inj hres).symm).1
  | @toHead8 n m hm =>
    obtain ⟨res, hres, hspec⟩ := HeadNode.convertToHead8WithSpace_spec h
    rw [hm] at hres
    exact (hspec m (Except.ok.inj hres).symm).1
  | @toHead4 n m hm =>
    obtain ⟨res, hres, hspec⟩ := HeadNode.convertToHead4WithSpace_spec h
    rw [hm] at hres
    exact (hspec m (Except.ok.inj hres).symm).1
  | @toBasic T n p k hm =>
    have hn : n.Holds a := by
      cases T <;> exact h
    obtain ⟨res, hres, hspec⟩ := HeadNode.convertToBasicWithSpace_holds hn k
    rw [hm] at hres
    exact (hspec p (Except.ok.inj hres).symm).1

theorem Represents.refines (h : n.Represents a) : n.Refines a where
  represents := h
  insert := fun _ _ hk hnew _ hm => insertChild_represents h hk hnew hm
  remove := fun _ hi => innerRemoveSlot_spec h hi
  convert := fun _ hc => converts_represents h hc
  split := fun _ hi hpos => splitNode_spec h hpos hi
  request := by
    intro len hlen
    obtain ⟨⟨granted, m⟩, hm, hrep, hready⟩ := innerRequestSpaceFor_spec h hlen
    refine ⟨granted, m, hm, hrep, fun hg => ⟨hready hg, ?_⟩⟩
    rintro key child hk hnew rfl
    exact insertChild_spec hrep child hk hnew (hready hg)

theorem prefix_le_of_request (h : n.Represents a) {len : ℕ} {r : Bool × AnyInner γ}
    (hr : n.innerRequestSpaceFor len = .ok r) : commonPrefixLength a.lower a.upper ≤ len := by
  have hhead : ∀ {T : HeadType} {n : HeadNode T γ}, n.Holds a → n.requestSpaceFor len = .ok r →
      commonPrefixLength a.lower a.upper ≤ len := by
    intro T n hn hr
    simp only [HeadNode.requestSpaceFor, bind_eq_ok, ensure_eq_ok, exists_const] at hr
    exact hn.prefixLen ▸ hr.1
  cases n with
  | inner p =>
    simp only [innerRequestSpaceFor, InnerNode.innerRequestSpaceFor, BTreeNode.spaceNeeded, bind_eq_ok, ensure_eq_ok,
      exists_const] at hr
    obtain ⟨q, ⟨needed, ⟨hlen, -⟩, -⟩, -⟩ := hr
    exact InnerNode.Holds.prefixLength_eq h ▸ hlen
  | head4 n => exact hhead h hr
  | head8 n => exact hhead h hr

theorem slottedRoot_represents (child : γ) : (AnyInner.inner (.makeRoot child)).Represents (.root child) :=
  ⟨(BTreeNode.init_holds false).wf, rfl, rfl, rfl, rfl, rfl⟩

theorem makeRoot_spec (child : γ) : ∃ n, makeRoot child = .ok n ∧ n.Represents (.root child) := by
  have hinit : (HeadNode.init [] [] : Except Fault (HeadNode .uint32 γ)) = .ok (HeadNode.fresh .uint32 [] []) :=
    HeadNode.init_eq (Nat.zero_le _) (Nat.zero_le _)
  refine ⟨_, by rw [makeRoot, hinit]; rfl, ?_⟩
  exact ⟨rfl, rfl, rfl, rfl, by simp [Routing.truncated, Routing.root], rfl, rfl, Nat.zero_le _,
    HeadNode.validateHint_eq_ok.mpr fun h => absurd h (Nat.lt_irrefl 0)⟩

theorem Reaches.represents (h : Reaches n a) : n.Represents a := by
  induction h with
  | slottedRoot child => exact slottedRoot_represents child
  | @makeRoot child n hn =>
    obtain ⟨m, hm, hrep⟩ := makeRoot_spec child
    obtain rfl := Except.ok.inj (hm.symm.trans hn)
    exact hrep
  | @request n m a len granted _ hm ih =>
    obtain ⟨r, hr, hrep, -⟩ := innerRequestSpaceFor_spec ih (prefix_le_of_request ih hm)
    rw [hm] at hr
    cases hr
    exact hrep
  | convert _ hc ih => exact converts_represents ih hc
  | insert _ hk hnew hm ih => exact insertChild_represents ih hk hnew hm
  | remove _ hi hm ih =>
    obtain ⟨q, hq, hrep⟩ := innerRemoveSlot_spec ih hi
    rw [hm] at hq
    cases hq
    exact hrep
  | left _ hpos hi hm ih =>
    obtain ⟨l, r, hlr, hl, -⟩ := splitNode_spec ih hpos hi
    rw [hm] at hlr
    cases hlr
    exact hl
  | right _ hpos hi hm ih =>
    obtain ⟨l, r, hlr, -, hr⟩ := splitNode_spec ih hpos hi
    rw [hm] at hlr
    cases hlr
    exact hr

instance (lower upper s : Bytes) : Decidable (Within lower upper s) := inferInstanceAs (Decidable (_ ∧ _ ∧ _))

inductive Op (γ : Type)
  | request (len : ℕ)
  | insert (key : Bytes) (child : γ)
  | remove (i : ℕ)
  | left (i : ℕ)
  | right (i : ℕ)

def Op.apply : AnyInner γ × Routing γ → Op γ → Except Fault (AnyInner γ × Routing γ)
  | (n, a), .request len => do
    let (_, n) ← n.innerRequestSpaceFor len
    pure (n, a)
  | (n, a), .insert key child =>
    if h : Within a.lower a.upper key ∧ key ∉ a.separators then do
      let n ← n.insertChild key child
      pure (n, a.insert key child h.1 h.2)
    else .error .assertion
  | (n, a), .remove i =>
    if h : i < a.separators.length then do
      let n ← n.innerRemoveSlot i
      pure (n, a.remove i h)
    else .error .assertion
  | (n, a), .left i =>
    if h : 0 < i ∧ i < a.separators.length then do
      let (_, l, _) ← n.splitNode i
      pure (l, a.left i h.2)
    else .error .assertion
  | (n, a), .right i =>
    if h : 0 < i ∧ i < a.separators.length then do
      let (_, _, r) ← n.splitNode i
      pure (r, a.right i h.2)
    else .error .assertion

theorem Reaches.apply {s t : AnyInner γ × Routing γ} {op : Op γ} (h : Reaches s.1 s.2) (ho : op.apply s = .ok t) :
    Reaches t.1 t.2 := by
  obtain ⟨n, a⟩ := s
  cases op with
  | request len =>
    obtain ⟨⟨granted, m⟩, hm, ht⟩ := bind_eq_ok.mp ho
    obtain rfl := Except.ok.inj ht
    exact h.request hm
  | insert key child =>
    rw [Op.apply] at ho
    split_ifs at ho with hkey
    obtain ⟨m, hm, ht⟩ := bind_eq_ok.mp ho
    obtain rfl := Except.ok.inj ht
    exact h.insert hkey.1 hkey.2 hm
  | remove i =>
    rw [Op.apply] at ho
    split_ifs at ho with hi
    obtain ⟨m, hm, ht⟩ := bind_eq_ok.mp ho
    obtain rfl := Except.ok.inj ht
    exact h.remove hi hm
  | left i =>
    rw [Op.apply] at ho
    split_ifs at ho with hi
    obtain ⟨⟨sep, l, r⟩, hm, ht⟩ := bind_eq_ok.mp ho
    obtain rfl := Except.ok.inj ht
    exact h.left hi.1 hi.2 hm
  | right i =>
    rw [Op.apply] at ho
    split_ifs at ho with hi
    obtain ⟨⟨sep, l, r⟩, hm, ht⟩ := bind_eq_ok.mp ho
    obtain rfl := Except.ok.inj ht
    exact h.right hi.1 hi.2 hm

def opsReach (child : γ) (ops : List (Op γ)) (check : AnyInner γ → Routing γ → Bool) : Bool :=
  Outcome.passes (fun s => check s.1 s.2) (do
    let n ← makeRoot child
    ops.foldlM Op.apply (n, .root child))

theorem opsReach_spec {child : γ} {ops : List (Op γ)} {check : AnyInner γ → Routing γ → Bool}
    (h : opsReach child ops check = true) : ∃ n a, Reaches n a ∧ check n a = true := by
  obtain ⟨s, hs, hc⟩ := Outcome.passes_iff.mp h
  obtain ⟨n, hn, hs⟩ := bind_eq_ok.mp hs
  refine ⟨s.1, s.2, ?_, hc⟩
  exact Outcome.foldlM_keeps (P := fun s : AnyInner γ × Routing γ => Reaches s.1 s.2)
    (fun a op _ b ha hb => ha.apply hb) (Reaches.makeRoot hn) hs

theorem reaches_refines (h : Reaches n a) : n.Refines a := h.represents.refines

def wideningOps (child : LeafNode) : List (Op LeafNode) :=
  [.request 1, .insert [1] child, .request 1, .insert [3] child, .request 1, .insert [2] child, .request 5,
    .insert [1, 0, 0, 0, 5] child]

def slottingOps (child : LeafNode) : List (Op LeafNode) :=
  [.request 9, .insert [2, 0, 0, 0, 0, 0, 0, 0, 5] child, .remove 0, .right 1]

theorem reaches_refines_converted :
    (∃ (n : HeadNode .uint64 LeafNode) (a : Routing LeafNode),
      a.separators = [[1], [1, 0, 0, 0, 5], [2], [3]] ∧ (AnyInner.head8 n).Refines a) ∧
    ∃ (p : InnerNode LeafNode) (a : Routing LeafNode),
      a.lower = [2] ∧ a.separators = [[2, 0, 0, 0, 0, 0, 0, 0, 5], [3]] ∧ (AnyInner.inner p).Refines a := by
  have hwide : opsReach (.basic (BTreeNode.init true)) (wideningOps (.basic (BTreeNode.init true))) (fun n a =>
      match n with
      | .head8 _ => decide (a.separators = [[1], [1, 0, 0, 0, 5], [2], [3]])
      | _ => false) = true := by
    decide +kernel
  have hslotted : opsReach (.basic (BTreeNode.init true)) (wideningOps (.basic (BTreeNode.init true)) ++
      slottingOps (.basic (BTreeNode.init true))) (fun n a =>
      match n with
      | .inner _ => decide (a.lower = [2] ∧ a.separators = [[2, 0, 0, 0, 0, 0, 0, 0, 5], [3]])
      | _ => false) = true := by
    decide +kernel
  obtain ⟨n, a, hn, hcheck⟩ := opsReach_spec hwide
  obtain ⟨p, b, hp, hcheck'⟩ := opsReach_spec hslotted
  constructor
  · cases n with
    | head8 n => exact ⟨n, a, of_decide_eq_true hcheck, reaches_refines hn⟩
    | inner _ => cases hcheck
    | head4 _ => cases hcheck
  · cases p with
    | inner p =>
      obtain ⟨hlower, hseps⟩ := of_decide_eq_true hcheck'
      exact ⟨p, b, hlower, hseps, reaches_refines hp⟩
    | head4 _ => cases hcheck'
    | head8 _ => cases hcheck'

end AnyInner

end BtreeRedis
