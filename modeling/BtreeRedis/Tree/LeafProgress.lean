import BtreeRedis.Lib.Outcome
import BtreeRedis.Tree.LeafSplit

/-!
# When a leaf gets on

An insertion into a leaf returns unless densifying or converting it trips one of its own
assertions, and a leaf that refuses a key does so again. Splitting such a leaf leads on if
its separator is new and the halves fit; `weight` falls with every split of this kind.
-/

namespace BtreeRedis

open LexOrder SortedAssoc

/-- The numbers of a leaf that densifying looks at do not exhaust the numeric range. -/
def BTreeNode.Densifiable (n : BTreeNode Bytes) (key payload : Bytes) : Prop :=
  ∀ s ss, n.slots = s :: ss →
    key.length - n.prefixLength = s.key.length → payload.length = s.payload.length →
    s.key.length + n.prefixLength ≤ n.getLowerFence.length + maxNumericPartLen →
    (∀ t ∈ ss, t.key.length = s.key.length ∧ t.payload.length = s.payload.length) →
    getNumericPart n.getLowerFence (s.key.length + n.prefixLength) < numericRange - 1

/-- The size check of `insert`, made with the length of the new payload, holds of the conversion that
it stands for. -/
def DenseNode.Convertible (d : DenseNode) (key payload : Bytes) : Prop :=
  payload.length ≠ d.valLen ∨ key.length ≠ d.fullKeyLen →
    d.occupiedCount * (d.fullKeyLen - d.prefixLength + payload.length + slotSize) + d.lowerFence.length +
      d.upperFence.length + headerSize ≤ pageSize →
    slotsOffset + d.lowerFence.length + d.upperFence.length +
      d.occupiedCount * (d.fullKeyLen - d.prefixLength + d.valLen + slotSize) ≤ pageSize

instance (n : BTreeNode Bytes) (key payload : Bytes) : Decidable (n.Densifiable key payload) :=
  match h : n.slots with
  | [] => isTrue fun s ss hs => absurd (h.symm.trans hs) (List.cons_ne_nil s ss).symm
  | s :: ss => decidable_of_iff
      (key.length - n.prefixLength = s.key.length → payload.length = s.payload.length →
        s.key.length + n.prefixLength ≤ n.getLowerFence.length + maxNumericPartLen →
        (∀ t ∈ ss, t.key.length = s.key.length ∧ t.payload.length = s.payload.length) →
        getNumericPart n.getLowerFence (s.key.length + n.prefixLength) < numericRange - 1)
      (by simp [BTreeNode.Densifiable, h])

instance (d : DenseNode) (key payload : Bytes) : Decidable (d.Convertible key payload) :=
  inferInstanceAs (Decidable (_ → _ → _))

namespace LeafNode

def Accepts (key payload : Bytes) : LeafNode → Prop
  | .basic n => n.freeSpaceAfterCompaction <
      slotSize + (key.length - n.prefixLength) + payload.length → n.Densifiable key payload
  | .dense d => d.Convertible key payload

instance (key payload : Bytes) : (l : LeafNode) → Decidable (l.Accepts key payload)
  | .basic n => inferInstanceAs (Decidable (_ → n.Densifiable key payload))
  | .dense d => inferInstanceAs (Decidable (d.Convertible key payload))

variable {lower upper key payload : Bytes}

theorem empty_has_room {n : BTreeNode Bytes} (h : Inv true (.basic n) lower upper) (hs : n.slots = [])
    (hlen : key.length + payload.length ≤ maxKVSize) :
    slotSize + (key.length - n.prefixLength) + payload.length ≤ n.freeSpaceAfterCompaction := by
  have hfit := h.pages_fit
  have hent : n.entries = [] := by rw [BTreeNode.entries, BTreeNode.content, hs]; rfl
  have hlow : n.getLowerFence = lower := h.lowerFence
  have hupp : n.getUpperFence = upper := h.upperFence
  rw [h.kind.1.freeSpaceAfterCompaction_eq, hent, hlow, hupp, BTreeNode.pageBytes]
  simp only [BTreeNode.truncate, List.map_nil, BTreeNode.entryBytes_nil, List.length_nil, slotsOffset,
    slotSize, pageSize, maxKVSize, headerSize] at hfit hlen ⊢
  omega

theorem insertDensified_ok {n : BTreeNode Bytes} (h : Inv true (.basic n) lower upper)
    (hk : InFences lower upper key) (hnew : key ∉ keys n.entries)
    (hlen : key.length + payload.length ≤ maxKVSize) (hs : n.slots ≠ [])
    (hd : n.Densifiable key payload) : ∃ r l', n.insertDensified true key payload = .ok (r, l') := by
  cases hss : n.slots with
  | nil => exact absurd hss hs
  | cons s ss =>
    simp only [BTreeNode.insertDensified, hss]
    split_ifs with hl
    · have hpos := first_key_pos hss hl.1 hnew
      have hres : ∃ res, DenseNode.densify1 n = .ok res := by
        by_cases hpre : s.key.length + n.prefixLength ≤ n.getLowerFence.length + maxNumericPartLen ∧
            ∀ t ∈ ss, t.key.length = s.key.length ∧ t.payload.length = s.payload.length
        · refine (DenseNode.densify1_spec h.kind.1 hss hpos).2 (hd s ss hss hl.1 hl.2 hpre.1 hpre.2) ?_
          have hfit := h.pages_fit
          have hlow : n.getLowerFence = lower := h.lowerFence
          have hupp : n.getUpperFence = upper := h.upperFence
          have hpl : n.prefixLength ≤ lower.length := by
            rw [← hlow]
            exact h.kind.1.prefixLength_le
          have hl1 := hl.1
          have hfull : s.key.length + n.prefixLength ≤ maxKVSize := by
            have hll := h.lower_len
            simp only [pageSize, maxKVSize, headerSize, slotSize] at hll hlen ⊢
            omega
          have hmax := max_le h.upper_len hfull
          have hll := h.lower_len
          rw [hlow, hupp, fencesStart]
          simp only [slotSize, pageSize, maxKVSize, headerSize, maskOffset] at hmax hll ⊢
          omega
        · refine ⟨none, ?_⟩
          rw [DenseNode.densify1, hss]
          dsimp only
          by_cases hlow : n.getLowerFence.length + maxNumericPartLen < s.key.length + n.prefixLength
          · rw [if_pos hlow]
          · rw [if_neg hlow, if_pos]
            by_contra hany
            refine hpre ⟨not_lt.mp hlow, fun t ht => ?_⟩
            have ht := List.any_eq_false.mp (Bool.eq_false_of_not_eq_true hany) t ht
            simpa using ht
      obtain ⟨res, hres⟩ := hres
      cases res with
      | none => exact ⟨false, .basic n, by rw [hres]; rfl⟩
      | some d =>
        have hden := (DenseNode.densify1_spec h.kind.1 hss hpos).1 d hres
        have hinv := densified_inv h hss hden
        obtain ⟨hfl, hvl⟩ := hden.lengths s (hss ▸ List.mem_cons_self)
        have hlow : n.getLowerFence = lower := h.lowerFence
        have hupp : n.getUpperFence = upper := h.upperFence
        have hpk : n.prefixLength ≤ key.length := h.kind.1.prefixLength_le_key (by rwa [hlow, hupp])
        have hl1 := hl.1
        obtain ⟨r, d', hd', -⟩ := insertMatching_inserting hinv hk (by omega) (by omega)
          (hden.entries.symm ▸ hnew) hlen
        exact ⟨r, .dense d', by simp only [hres, ok_bind, hd']; rfl⟩
    · exact ⟨false, .basic n, rfl⟩

theorem basic_insert_ok {n : BTreeNode Bytes} (h : Inv true (.basic n) lower upper)
    (hk : InFences lower upper key) (hnew : key ∉ keys n.entries)
    (hlen : key.length + payload.length ≤ maxKVSize)
    (hd : n.freeSpaceAfterCompaction < slotSize + (key.length - n.prefixLength) + payload.length →
      n.Densifiable key payload) : ∃ r l', n.insert true key payload = .ok (r, l') := by
  rcases Nat.lt_or_ge n.freeSpaceAfterCompaction
    (slotSize + (key.length - n.prefixLength) + payload.length) with hroom | hroom
  · rw [basic_insert_full h hk hroom]
    refine insertDensified_ok h hk hnew hlen (fun hs => ?_) (hd hroom)
    have hge := empty_has_room h hs hlen
    omega
  · obtain ⟨m, hm, -⟩ := basic_insert_room h hk hnew hlen hroom
    exact ⟨true, .basic m, hm⟩

theorem converted_lengths {d : DenseNode} {n : BTreeNode Bytes} (h : Inv true (.dense d) lower upper)
    (hn : d.convertToBasic = .ok n) : Inv true (.basic n) lower upper ∧ n.entries = d.entries ∧
      n.prefixLength = d.prefixLength ∧
      ∀ s ∈ n.slots, s.key.length + d.prefixLength = d.fullKeyLen ∧ s.payload.length = d.valLen := by
  have hw := h.kind.1
  have hh := DenseNode.convertToBasic_spec hw hn
  have hpl : n.prefixLength = d.prefixLength := by
    rw [hh.wf.prefixLen, hh.lower, hh.upper, hw.prefixLen]
  have hlow : d.lowerFence = lower := h.lowerFence
  have hupp : d.upperFence = upper := h.upperFence
  have hinv : Inv true (.basic n) lower upper := by
    rw [hlow, hupp] at hh
    exact Inv.of_holds hh h.lower_len h.upper_len h.entry_len
  refine ⟨hinv, hh.entries, hpl, fun s hs => ?_⟩
  have hm : (n.getPrefix ++ s.key, s.payload) ∈ d.entries := by
    rw [← hh.entries, BTreeNode.entries, BTreeNode.content, List.map_map]
    exact List.mem_map_of_mem hs
  obtain ⟨i, hp, he⟩ := (DenseNode.mem_entries hw.toFilled).mp hm
  obtain ⟨hkey, hpay⟩ := Prod.mk.inj he
  have hlen := congrArg List.length hkey
  rw [List.length_append, hh.wf.length_getPrefix, hpl, DenseNode.length_slotKey hw.toFilled] at hlen
  refine ⟨by omega, ?_⟩
  rw [hpay]
  exact hw.val_len i hp

theorem converted_not_densified {d : DenseNode} {n : BTreeNode Bytes} (h : Inv true (.dense d) lower upper)
    (hn : d.convertToBasic = .ok n) (hk : InFences lower upper key)
    (hl : payload.length ≠ d.valLen ∨ key.length ≠ d.fullKeyLen) (hs : n.slots ≠ []) :
    n.insertDensified true key payload = .ok (false, .basic n) := by
  obtain ⟨hinv, -, hpl, hlens⟩ := converted_lengths h hn
  have hlow : n.getLowerFence = lower := hinv.lowerFence
  have hupp : n.getUpperFence = upper := hinv.upperFence
  have hpk : n.prefixLength ≤ key.length := hinv.kind.1.prefixLength_le_key (by rwa [hlow, hupp])
  cases hss : n.slots with
  | nil => exact absurd hss hs
  | cons s ss =>
    obtain ⟨hkl, hvl⟩ := hlens s (hss ▸ List.mem_cons_self)
    simp only [BTreeNode.insertDensified, hss]
    refine if_neg fun hc => ?_
    rcases hl with hl | hl <;> omega

theorem insert_ok {l : LeafNode} (h : Inv true l lower upper) (hk : InFences lower upper key)
    (hnew : key ∉ keys l.entries) (hlen : key.length + payload.length ≤ maxKVSize)
    (ha : l.Accepts key payload) : ∃ r l', l.insert true key payload = .ok (r, l') := by
  cases l with
  | basic n => exact basic_insert_ok h hk hnew hlen ha
  | dense d =>
    have hw := h.kind.1
    have hk' : InFences d.lowerFence d.upperFence key := by
      rw [show d.lowerFence = lower from h.lowerFence, show d.upperFence = upper from h.upperFence]
      exact hk
    have hpk := hw.headed.prefixLength_le hk'
    simp only [insert, DenseNode.insert, ensure_of hpk, ok_bind]
    split_ifs with hl hsize
    · have hfit : BTreeNode.pageBytes d.lowerFence d.upperFence d.entries ≤ pageSize := by
        rw [DenseNode.pageBytes_entries hw]
        exact ha hl hsize
      obtain ⟨n, hn⟩ := DenseNode.convertToBasic_ok hw hfit
      obtain ⟨hinv, hent, -⟩ := converted_lengths h hn
      rw [hn, ok_bind]
      rcases Nat.lt_or_ge n.freeSpaceAfterCompaction
        (slotSize + (key.length - n.prefixLength) + payload.length) with hroom | hroom
      · rw [basic_insert_full hinv hk hroom]
        refine ⟨false, .basic n, converted_not_densified h hn hk hl fun hs => ?_⟩
        have hge := empty_has_room hinv hs hlen
        omega
      · obtain ⟨m, hm, -⟩ := basic_insert_room hinv hk (hent.symm ▸ hnew) hlen hroom
        exact ⟨true, .basic m, hm⟩
    · exact ⟨false, .dense d, rfl⟩
    · simp only [not_or, not_not] at hl
      obtain ⟨r, d', hd', -⟩ := insertMatching_inserting h hk hl.2 hl.1 hnew hlen
      exact ⟨r, .dense d', by rw [hd']; rfl⟩

theorem dense_insert_matching {d : DenseNode} (hp : d.prefixLength ≤ key.length)
    (hkl : key.length = d.fullKeyLen) (hpl : payload.length = d.valLen) :
    (LeafNode.dense d).insert true key payload = (do
      let (inserted, d) ← d.insertMatching key payload
      pure (inserted, .dense d)) := by
  simp only [insert, DenseNode.insert, ensure_of hp, ok_bind]
  rw [if_neg (by simp [hkl, hpl])]

theorem insertMatching_refused {d d' : DenseNode} (h : Inv true (.dense d) lower upper)
    (hk : InFences lower upper key) (hkl : key.length = d.fullKeyLen) (hpl : payload.length = d.valLen)
    (hnew : key ∉ keys d.entries) (hr : d.insertMatching key payload = .ok (false, d')) : d' = d := by
  have hk' : InFences d.lowerFence d.upperFence key := by
    rw [show d.lowerFence = lower from h.lowerFence, show d.upperFence = upper from h.upperFence]
    exact hk
  rcases DenseNode.insertMatching_spec h.kind.1 hk' hkl hpl hnew with ⟨he, -⟩ | ⟨e, he, -⟩
  · rw [hr] at he
    cases he
    rfl
  · rw [hr] at he
    cases he

structure Refusal (l l' : LeafNode) (key payload : Bytes) : Prop where
  again : l'.insert true key payload = .ok (false, l')
  of_dense : ∀ d, l = .dense d → l' = .dense d ∨ ∃ n, l' = .basic n
  of_basic : ∀ n, l = .basic n → n.slots ≠ []

theorem basic_refusal {n : BTreeNode Bytes} {l' : LeafNode} (h : Inv true (.basic n) lower upper)
    (hk : InFences lower upper key) (hnew : key ∉ keys n.entries)
    (hlen : key.length + payload.length ≤ maxKVSize)
    (hr : n.insert true key payload = .ok (false, l')) : Refusal (.basic n) l' key payload := by
  rcases Nat.lt_or_ge n.freeSpaceAfterCompaction
    (slotSize + (key.length - n.prefixLength) + payload.length) with hroom | hroom
  · have hne : n.slots ≠ [] := fun hs => by
      have hge := empty_has_room h hs hlen
      omega
    refine ⟨?_, fun d hd => (nomatch hd), fun m hm => LeafNode.basic.inj hm ▸ hne⟩
    have hr' := hr
    rw [basic_insert_full h hk hroom] at hr'
    cases hss : n.slots with
    | nil => exact absurd hss hne
    | cons s ss =>
      simp only [BTreeNode.insertDensified, hss] at hr'
      split_ifs at hr' with hl
      · simp only [bind_eq_ok] at hr'
        obtain ⟨o, ho, hr'⟩ := hr'
        cases o with
        | none =>
          cases hr'
          exact hr
        | some d =>
          have hden := (DenseNode.densify1_spec h.kind.1 hss (first_key_pos hss hl.1 hnew)).1 d ho
          have hinv := densified_inv h hss hden
          obtain ⟨hfl, hvl⟩ := hden.lengths s (hss ▸ List.mem_cons_self)
          have hlow : n.getLowerFence = lower := h.lowerFence
          have hupp : n.getUpperFence = upper := h.upperFence
          have hpk : n.prefixLength ≤ key.length := h.kind.1.prefixLength_le_key (by rwa [hlow, hupp])
          have hl1 := hl.1
          have hkl : key.length = d.fullKeyLen := by omega
          have hpl : payload.length = d.valLen := by omega
          have hnewd : key ∉ keys d.entries := hden.entries.symm ▸ hnew
          simp only [bind_eq_ok, pure_eq_ok, Prod.exists, Prod.mk.injEq] at hr'
          obtain ⟨r, d', hd', rfl, rfl⟩ := hr'
          obtain rfl := insertMatching_refused hinv hk hkl hpl hnewd hd'
          have hpd : d'.prefixLength ≤ key.length := by
            rw [hden.wf.prefixLen, hden.lower, hden.upper, ← h.kind.1.prefixLen]
            exact hpk
          rw [dense_insert_matching hpd hkl hpl, hd']
          rfl
      · cases hr'
        exact hr
  · obtain ⟨m, hm, -⟩ := basic_insert_room h hk hnew hlen hroom
    rw [hm] at hr
    cases hr

theorem refusal {l l' : LeafNode} (h : Inv true l lower upper) (hk : InFences lower upper key)
    (hnew : key ∉ keys l.entries) (hlen : key.length + payload.length ≤ maxKVSize)
    (hr : l.insert true key payload = .ok (false, l')) : Refusal l l' key payload := by
  cases l with
  | basic n => exact basic_refusal h hk hnew hlen hr
  | dense d =>
    have hr' := hr
    simp only [insert, DenseNode.insert, bind_eq_ok, ensure_eq_ok, exists_const] at hr'
    obtain ⟨-, hr'⟩ := hr'
    split_ifs at hr' with hl hsize
    · simp only [bind_eq_ok] at hr'
      obtain ⟨n, hn, hr'⟩ := hr'
      obtain ⟨hinv, hent, -⟩ := converted_lengths h hn
      have href := basic_refusal hinv hk (hent.symm ▸ hnew) hlen hr'
      refine ⟨href.again, fun e he => Or.inr ?_, fun m hm => by cases hm⟩
      rcases Nat.lt_or_ge n.freeSpaceAfterCompaction
        (slotSize + (key.length - n.prefixLength) + payload.length) with hroom | hroom
      · rw [basic_insert_full hinv hk hroom, converted_not_densified h hn hk hl (href.of_basic n rfl)] at hr'
        cases hr'
        exact ⟨n, rfl⟩
      · obtain ⟨m, hm, -⟩ := basic_insert_room hinv hk (hent.symm ▸ hnew) hlen hroom
        rw [hm] at hr'
        cases hr'
    · cases hr'
      exact ⟨hr, fun e he => Or.inl he, fun m hm => by cases hm⟩
    · simp only [not_or, not_not] at hl
      simp only [bind_eq_ok, pure_eq_ok, Prod.exists, Prod.mk.injEq] at hr'
      obtain ⟨r, d', hd', rfl, rfl⟩ := hr'
      obtain rfl := insertMatching_refused h hk hl.2 hl.1 hnew hd'
      exact ⟨hr, fun e he => Or.inl he, fun m hm => by cases hm⟩

def Splittable (key : Bytes) : LeafNode → Prop
  | .basic n => 1 < n.count ∧ (n.count = 2 → (keys n.entries).getLast? ≠ some n.getUpperFence) ∧
    ∀ info sep, n.findSeparator = .ok info → n.getSep info = .ok sep →
      BTreeNode.pageBytes n.getLowerFence sep (n.entries.take (info.slot + 1)) ≤ pageSize ∧
      BTreeNode.pageBytes sep n.getUpperFence (n.entries.drop (info.slot + 1)) ≤ pageSize
  | .dense d => d.BoundaryOk ∧ d.fullBoundary ≠ d.upperFence ∧ ∀ i, d.keyToIndex key ≠ .ok (.index i)

instance : (r : KeyIndex) → Decidable (∀ i, r ≠ .index i)
  | .index i => isFalse fun h => h i rfl
  | .wrongLen | .notNumericRange | .slightlyTooLarge | .farTooLarge => isTrue (by simp)

instance (key : Bytes) : (l : LeafNode) → Decidable (l.Splittable key)
  | .basic n => decidable_of_iff (1 < n.count ∧ (n.count = 2 → (keys n.entries).getLast? ≠ some n.getUpperFence) ∧
      ∀ info, n.findSeparator = .ok info → ∀ sep, n.getSep info = .ok sep →
        BTreeNode.pageBytes n.getLowerFence sep (n.entries.take (info.slot + 1)) ≤ pageSize ∧
        BTreeNode.pageBytes sep n.getUpperFence (n.entries.drop (info.slot + 1)) ≤ pageSize)
      (and_congr_right fun _ => and_congr_right fun _ =>
        ⟨fun h info sep hi hs => h info hi sep hs, fun h info hi sep hs => h info sep hi hs⟩)
  | .dense d => decidable_of_iff (d.BoundaryOk ∧ d.fullBoundary ≠ d.upperFence ∧
      ∀ r, d.keyToIndex key = .ok r → ∀ i, r ≠ .index i)
      (and_congr_right fun _ => and_congr_right fun _ =>
        ⟨fun h i hi => h _ hi i rfl, fun h _ hr i hi => h i (hr.trans (congrArg Except.ok hi))⟩)

theorem Splittable.boundaryOk {l : LeafNode} (h : l.Splittable key) : l.BoundaryOk := by
  cases l with
  | basic n => trivial
  | dense d => exact h.1

def slack : LeafNode → ℕ
  | .basic n => if (keys n.entries).getLast? = some n.getUpperFence then 0 else 1
  | .dense d => if d.BoundaryOk ∧ d.fullBoundary ≠ d.upperFence then 2 + (numericRange - d.arrayStart) else 0

def weight (l : LeafNode) : ℕ ×ₗ ℕ := toLex (l.entries.length, l.slack)

theorem weight_lt_iff {l m : LeafNode} : l.weight < m.weight ↔
    l.entries.length < m.entries.length ∨ l.entries.length = m.entries.length ∧ l.slack < m.slack :=
  Prod.Lex.toLex_lt_toLex

theorem Splittable.weight_pos {l : LeafNode} (h : l.Splittable key) : toLex (0, 0) < l.weight := by
  rw [weight, Prod.Lex.toLex_lt_toLex]
  cases l with
  | basic n =>
    left
    change 0 < n.entries.length
    rw [BTreeNode.entries_length]
    exact Nat.zero_lt_of_lt h.1
  | dense d =>
    rcases Nat.eq_zero_or_pos (LeafNode.dense d).entries.length with hz | hpos
    · refine Or.inr ⟨hz.symm, ?_⟩
      simp only [slack, if_pos (show d.BoundaryOk ∧ d.fullBoundary ≠ d.upperFence from ⟨h.1, h.2.1⟩)]
      omega
    · exact Or.inl hpos

structure Advancing (key payload : Bytes) (l : LeafNode) (lower upper sep : Bytes) (left right : LeafNode) :
    Prop where
  halves : Halves (Inv true) entries l.entries lower upper sep left right
  separatorLength : l.separatorLength = .ok sep.length
  split : l.split key = .ok (sep, left, right)
  fresh : sep ≠ upper
  left_lt : key ≤ sep → ∀ f, left.insert true key payload = .ok (false, f) → f.weight < l.weight
  right_lt : sep < key → ∀ f, right.insert true key payload = .ok (false, f) → f.weight < l.weight

/-- Refusing does not change the entries, so that only fewer of them or less slack count. -/
theorem refused_entries {l f : LeafNode} (h : Inv true l lower upper) (hk : InFences lower upper key)
    (hnew : key ∉ keys l.entries) (hlen : key.length + payload.length ≤ maxKVSize)
    (hr : l.insert true key payload = .ok (false, f)) :
    f.entries = l.entries ∧ Inv true f lower upper :=
  ⟨(insert_inserting h hk hnew hlen hr).refused rfl, (insert_inserting h hk hnew hlen hr).inv⟩

theorem slack_eq_zero {f : LeafNode} (h : Inv true f lower upper) (hne : upper ≠ [])
    (hlast : (keys f.entries).getLast? = some upper) : f.slack = 0 := by
  cases f with
  | basic n =>
    have hupp : n.getUpperFence = upper := h.upperFence
    exact if_pos (hupp.symm ▸ hlast)
  | dense d =>
    have hupp : d.upperFence = upper := h.upperFence
    refine if_neg fun hc => hc.2 ?_
    have hge := (DenseNode.BoundaryOk.separating hc.1 h.kind.1 h.kind.2.1).le_boundary
    obtain ⟨e, he, hk⟩ := List.mem_map.mp (List.mem_of_getLast? hlast)
    obtain ⟨i, hp, rfl⟩ := (DenseNode.mem_entries h.kind.1.toFilled).mp he
    have hle : upper ≤ d.fullBoundary := hk ▸ hge i hp
    have hle' := hc.1.2.resolve_left (hupp.symm ▸ hne)
    rw [hupp] at hle' ⊢
    exact le_antisymm hle' hle

theorem basic_slack_le (n : BTreeNode Bytes) : (LeafNode.basic n).slack ≤ 1 := by
  simp only [slack]
  split_ifs <;> omega

theorem separator_of_two {n : BTreeNode Bytes} (hc : n.count = 2) {info : SeparatorInfo}
    {t : Bytes} (hf : BTreeNode.FoundSeparator n info t) :
    info.slot = 1 ∧ (keys n.entries).getLast? = some (n.getPrefix ++ t) := by
  have hlen := BTreeNode.keys_content_length n
  have hpos := hf.separates.pos
  have hlt := hf.separates.lt
  have hslot : info.slot = 1 := by omega
  obtain ⟨k, hk, hpre⟩ := hf.isPrefix
  have hkey : (keys n.content)[1]? = some t := by
    cases htr : info.isTruncated with
    | true =>
      rw [htr, hslot, if_pos rfl, List.getElem?_eq_none (by omega)] at hk
      cases hk
    | false =>
      rw [htr, hslot, if_neg Bool.false_ne_true, Nat.add_zero] at hk
      have hle := hf.separates.le_sep
      have hkl : (keys n.content)[info.slot] = k := by
        rw [List.getElem_eq_iff, hslot, hk]
      rw [hkl] at hle
      rw [hk, le_antisymm hle (le_of_isPrefix hpre)]
  refine ⟨hslot, ?_⟩
  rw [BTreeNode.Ordered.keys_entries, List.getLast?_eq_getElem?, List.length_map, hlen, hc,
    List.getElem?_map, hkey]
  rfl

theorem basic_advancing {n : BTreeNode Bytes} (h : Inv true (.basic n) lower upper)
    (hk : InFences lower upper key) (hnew : key ∉ keys n.entries)
    (hlen : key.length + payload.length ≤ maxKVSize) (hs : Splittable key (.basic n)) :
    ∃ sep left right, Advancing key payload (.basic n) lower upper sep left right := by
  have hw := h.kind.1
  have hlow : n.getLowerFence = lower := h.lowerFence
  have hupp : n.getUpperFence = upper := h.upperFence
  obtain ⟨hc, htwo, hfit⟩ := hs
  obtain ⟨info, t, hinfo, hfound⟩ := BTreeNode.findSeparatorLeaf_spec hw.sorted hc
  have hfind : n.findSeparator = .ok info := by
    rw [BTreeNode.findSeparator, h.kind.2, if_pos rfl]
    exact hinfo
  obtain ⟨hseps, hin, hne, hsl⟩ := hfound.full hw.toOrdered
  obtain ⟨hl, hr⟩ := hfit info _ hfind hfound.getSep
  obtain ⟨left, right, hlr⟩ := BTreeNode.splitLeaf_ok hw hseps hl hr
  have hsplit : (LeafNode.basic n).split key = .ok (n.getPrefix ++ t, .basic left, .basic right) := by
    simp only [split, hfind, ok_bind, hfound.getSep, hlr]
    rfl
  have hhalves := split_halves h trivial hsplit
  obtain ⟨hhl, hhr⟩ := BTreeNode.splitLeaf_spec hw hseps hin hlr
  have hcount : (keys n.entries).length = n.count := by rw [keys, List.length_map, BTreeNode.entries_length]
  have hslot := hseps.lt
  rw [hcount] at hslot
  have hright : info.slot + 1 < n.count ∨ n.count = 2 := by
    rcases Nat.lt_or_ge 2 n.count with h2 | h2
    · exact Or.inl (BTreeNode.findSeparatorLeaf_slot_lt hinfo h2)
    · exact Or.inr (by omega)
  have hfresh : n.getPrefix ++ t ≠ upper := by
    rcases hright with hlt | h2
    · have hsep := hseps.sep_lt (info.slot + 1) (hcount.symm ▸ hlt) (Nat.lt_succ_self _)
      obtain ⟨e, he, hke⟩ := List.mem_map.mp (List.getElem_mem (hcount.symm ▸ hlt : info.slot + 1 < _))
      have hbound := (hw.entries_inFences he).2
      rw [hke, hupp] at hbound
      rcases hbound with hb | hb
      · exact fun he => hne (he.trans hb)
      · exact (hsep.trans_le hb).ne
    · have hlast := (separator_of_two h2 hfound).2
      exact fun he => htwo h2 (by rw [hlast, he, hupp])
  refine ⟨_, _, _, hhalves, by simp only [separatorLength, hfind, ok_bind, hsl]; rfl, hsplit, hfresh,
    fun hle f hf => ?_, fun hlt f hf => ?_⟩
  · have hnewl : key ∉ keys left.entries := fun hm => hnew (by
      rw [hhl.entries] at hm
      exact ((List.take_sublist _ _).map _).subset hm)
    obtain ⟨hent, hfinv⟩ := refused_entries hhalves.left_inv ⟨hk.1, Or.inr hle⟩ hnewl hlen hf
    have hent' : f.entries = n.entries.take (info.slot + 1) := hent.trans hhl.entries
    rw [weight_lt_iff, hent', List.length_take]
    change _ < n.entries.length ∨ _ = n.entries.length ∧ _
    rw [BTreeNode.entries_length]
    rcases hright with hlt | h2
    · left
      omega
    · right
      obtain ⟨hone, hlast⟩ := separator_of_two h2 hfound
      have hall : n.entries.take (info.slot + 1) = n.entries :=
        List.take_of_length_le (by rw [BTreeNode.entries_length]; omega)
      have hslack : f.slack = 0 := slack_eq_zero hfinv hne (by rw [hent', hall, hlast])
      refine ⟨by omega, ?_⟩
      rw [hslack, slack, if_neg (htwo h2)]
      exact Nat.zero_lt_one
  · have hnewr : key ∉ keys right.entries := fun hm => hnew (by
      rw [hhr.entries] at hm
      exact ((List.drop_sublist _ _).map _).subset hm)
    obtain ⟨hent, -⟩ := refused_entries hhalves.right_inv ⟨Or.inr hlt, hk.2⟩ hnewr hlen hf
    have hent' : f.entries = n.entries.drop (info.slot + 1) := hent.trans hhr.entries
    rw [weight_lt_iff, hent', List.length_drop]
    change _ < n.entries.length ∨ _
    rw [BTreeNode.entries_length]
    left
    omega

theorem splitToSelf_ok {d : DenseNode} (h : Inv true (.dense d) lower upper)
    (hk : InFences lower upper key) (hidx : ∀ i, d.keyToIndex key ≠ .ok (.index i)) :
    ∃ b, d.splitToSelf key = .ok b ∧ (b = true → ∃ i, d.slotCount ≤ i ∧ d.InRange i) := by
  have hw := h.kind.1
  have hk' : InFences d.lowerFence d.upperFence key := by
    rw [show d.lowerFence = lower from h.lowerFence, show d.upperFence = upper from h.upperFence]
    exact hk
  have hpk := hw.headed.prefixLength_le hk'
  obtain ⟨r, hr, hspec⟩ := DenseNode.keyToIndex_spec hw.toFilled hk'
  simp only [DenseNode.splitToSelf, ensure_of hpk, ok_bind, hr]
  cases hspec with
  | wrongLen hl => exact ⟨false, rfl, fun hc => absurd hc Bool.false_ne_true⟩
  | notNumericRange hl hp => exact ⟨false, rfl, fun hc => absurd hc Bool.false_ne_true⟩
  | index hl hi hin hkey => exact absurd hr (hidx _)
  | slightlyTooLarge hl hi hin hkey => exact ⟨true, rfl, fun _ => ⟨_, hi, hin⟩⟩
  | farTooLarge hl hi hin hkey => exact ⟨false, rfl, fun hc => absurd hc Bool.false_ne_true⟩

theorem getNumericPart_fullBoundary {d : DenseNode} (h : d.WF) (hs : 0 < d.slotCount)
    (hb : d.arrayStart + d.slotCount ≤ 256 ^ computeNumericPartLen d.fullKeyLen) :
    getNumericPart d.fullBoundary d.fullKeyLen + 1 = d.arrayStart + d.slotCount := by
  have hlast := DenseNode.lastIndex_eq h hs
  have hrange : d.InRange d.lastIndex := by
    rw [DenseNode.InRange, hlast]
    omega
  rw [DenseNode.fullBoundary, DenseNode.slotKey, getNumericPart_restoreKey h.lower_len hrange, hlast]
  omega

theorem splitRight_ok {d : DenseNode} (h : Inv true (.dense d) lower upper) {b : Bool}
    (hbeyond : b = true → ∃ i, d.slotCount ≤ i ∧ d.InRange i) :
    ∃ right, d.splitRight b = .ok right ∧
      ∀ r, right = .dense r → r.arrayStart = d.arrayStart + d.slotCount := by
  have hw := h.kind.1
  have hupp : d.upperFence = upper := h.upperFence
  have hBlen := DenseNode.length_fullBoundary hw
  have hfull := h.kind.2.2.1
  have hul := h.upper_len
  cases b with
  | false =>
    have hfit : slotsOffset + d.fullBoundary.length + d.upperFence.length ≤ pageSize := by
      rw [hBlen, hupp]
      simp only [maxKVSize, slotsOffset, pageSize, headerSize, slotSize] at hfull hul ⊢
      omega
    have hset : (BTreeNode.init true : BTreeNode Bytes).setFences d.fullBoundary d.upperFence =
        .ok (BTreeNode.fenced true d.fullBoundary d.upperFence) :=
      BTreeNode.setFences_init_eq_ok.mpr ⟨hfit, rfl⟩
    refine ⟨.basic (BTreeNode.fenced true d.fullBoundary d.upperFence), ?_, fun r hr => (nomatch hr)⟩
    simp only [DenseNode.splitRight, hset, ok_bind]
    rfl
  | true =>
    obtain ⟨i, hi, hir⟩ := hbeyond rfl
    rw [DenseNode.InRange] at hir
    have hnum := getNumericPart_fullBoundary hw h.kind.2.1 (by omega)
    have hmax := pow_numericPartLen_le d.fullKeyLen
    have hroom : maskOffset ≤ fencesStart d.fullBoundary.length d.upperFence.length d.fullKeyLen := by
      rw [hBlen, hupp, fencesStart]
      simp only [maxKVSize, maskOffset, pageSize, headerSize, slotSize] at hfull hul ⊢
      omega
    obtain ⟨slots, hslots⟩ := computeSlotCount_ok d.valLen hroom
    have hlen : computeNumericPrefixLength d.fullKeyLen ≤ d.fullBoundary.length := by
      rw [hBlen, numericPrefixLength_eq]
      exact Nat.sub_le _ _
    have hlt : getNumericPart d.fullBoundary d.fullKeyLen < numericRange - 1 := by omega
    have hstart : leastGreaterKey d.fullBoundary d.fullKeyLen = .ok (d.arrayStart + d.slotCount) := by
      rw [leastGreaterKey, ensure_of hlt, ok_bind, if_pos hBlen.ge, hnum]
      rfl
    refine ⟨_, by simp only [DenseNode.splitRight, DenseNode.changeLowerFence, hslots, ok_bind,
      ensure_of hlen, hstart]; rfl, fun r hr => ?_⟩
    obtain rfl := LeafNode.dense.inj hr
    rfl

theorem dense_advancing {d : DenseNode} (h : Inv true (.dense d) lower upper)
    (hk : InFences lower upper key) (hnew : key ∉ keys d.entries)
    (hlen : key.length + payload.length ≤ maxKVSize) (hs : Splittable key (.dense d)) :
    ∃ sep left right, Advancing key payload (.dense d) lower upper sep left right := by
  have hw := h.kind.1
  have hupp : d.upperFence = upper := h.upperFence
  obtain ⟨hb, hfresh, hidx⟩ := hs
  have hsep := DenseNode.BoundaryOk.separating hb hw h.kind.2.1
  have hBlen := DenseNode.length_fullBoundary hw
  obtain ⟨b, hself, hbeyond⟩ := splitToSelf_ok h hk hidx
  obtain ⟨right, hright, hstart⟩ := splitRight_ok h hbeyond
  let e : DenseNode := { d with
    upperFence := d.fullBoundary
    prefixLength := commonPrefixLength d.lowerFence d.fullBoundary }
  have hleft : d.changeUpperFence d.fullBoundary = .ok e := by
    rw [DenseNode.changeUpperFence, ensure_of hBlen.le]
    rfl
  have hsplit : (LeafNode.dense d).split key = .ok (d.fullBoundary, .dense e, right) := by
    simp only [split, DenseNode.splitNode1, hself, hright, hleft, ok_bind]
    rfl
  have hhalves := split_halves h hb hsplit
  have hslack : (LeafNode.dense d).slack = 2 + (numericRange - d.arrayStart) := if_pos ⟨hb, hfresh⟩
  refine ⟨_, _, _, hhalves, by rw [separatorLength, hBlen], hsplit, hupp ▸ hfresh, fun hle f hf => ?_,
    fun hlt f hf => ?_⟩
  · have hkl : InFences lower d.fullBoundary key := ⟨hk.1, Or.inr hle⟩
    have hent := (refused_entries hhalves.left_inv hkl hnew hlen hf).1
    have hent' : f.entries = (LeafNode.dense d).entries := hent
    rw [weight_lt_iff, hent', hslack]
    refine Or.inr ⟨rfl, ?_⟩
    rcases (refusal hhalves.left_inv hkl hnew hlen hf).of_dense e rfl with rfl | ⟨m, rfl⟩
    · have hz : (LeafNode.dense e).slack = 0 := if_neg fun hc => hc.2 rfl
      omega
    · have hle := basic_slack_le m
      omega
  · have hkr : InFences d.fullBoundary upper key := ⟨Or.inr hlt, hk.2⟩
    have hrent := (DenseNode.splitRight_inv h hsep hright).2
    have hnewr : key ∉ keys right.entries := by
      rw [hrent]
      exact List.not_mem_nil
    have hent := (refused_entries hhalves.right_inv hkr hnewr hlen hf).1
    have href := refusal hhalves.right_inv hkr hnewr hlen hf
    rw [weight_lt_iff, hent, hrent, hslack, List.length_nil]
    rcases Nat.eq_zero_or_pos (LeafNode.dense d).entries.length with hz | hpos
    · refine Or.inr ⟨hz.symm, ?_⟩
      cases right with
      | basic m =>
        refine absurd ?_ (href.of_basic m rfl)
        have hlen0 : m.slots.length = 0 := by
          rw [← BTreeNode.count, ← BTreeNode.entries_length]
          exact congrArg List.length hrent
        exact List.length_eq_zero_iff.mp hlen0
      | dense r =>
        have hr := hstart r rfl
        have hpos := h.kind.2.1
        have hmax := hb.1.trans (pow_numericPartLen_le d.fullKeyLen)
        rcases href.of_dense r rfl with rfl | ⟨m, rfl⟩
        · have hle : (LeafNode.dense r).slack ≤ 2 + (numericRange - r.arrayStart) := by
            simp only [slack]
            split_ifs <;> omega
          omega
        · have hle := basic_slack_le m
          omega
    · exact Or.inl hpos

theorem advancing {l : LeafNode} (h : Inv true l lower upper) (hk : InFences lower upper key)
    (hnew : key ∉ keys l.entries) (hlen : key.length + payload.length ≤ maxKVSize)
    (hs : l.Splittable key) : ∃ sep left right, Advancing key payload l lower upper sep left right := by
  cases l with
  | basic n => exact basic_advancing h hk hnew hlen hs
  | dense d => exact dense_advancing h hk hnew hlen hs

end LeafNode

end BtreeRedis
