import BtreeRedis.Adaptive.Scan
import BtreeRedis.Dense2.Invariant

/-!
# Scanning a dense leaf with records

The scan looks at one slot after the other from the first index on. All keys between the fences
of such a leaf have its numeric prefix, and a number that has a successor. So, unlike that of
the first kind of dense leaf, this scan comes to its end from every start key.
-/

namespace BtreeRedis

open LexOrder SortedAssoc BigEndian

section
variable {σ : Type} (found : Callback σ)

namespace Dense2Node

def slotLoop (d : Dense2Node) : List ℕ → Bytes → σ → Except Fault (Scanned σ)
  | [], keyOut, state => .ok ⟨true, keyOut, state⟩
  | i :: is, keyOut, state =>
    match d.payloadAt i with
    | none => slotLoop d is keyOut state
    | some payload => do
      let keyOut ← blit keyOut (computeNumericPrefixLength d.fullKeyLen) (d.array.keyBytes i)
      match found state (keyOut.take d.fullKeyLen) payload with
      | (state, true) => slotLoop d is keyOut state
      | (state, false) => pure ⟨false, keyOut, state⟩

def rangeLookup2 (d : Dense2Node) (key : Option Bytes) (keyOut : Bytes) (state : σ) : Except Fault (Scanned σ) := do
  let firstIndex ← d.array.firstIndex key
  let nprefLen := computeNumericPrefixLength d.fullKeyLen
  let keyOut ← if d.prefixLength < nprefLen then do
      ensure (nprefLen ≤ d.lowerFence.length) .undefined
      blit keyOut d.prefixLength ((d.lowerFence.take nprefLen).drop d.prefixLength)
    else pure keyOut
  slotLoop found d (List.range' firstIndex (d.slotCount - firstIndex)) keyOut state

end Dense2Node

end

namespace Dense2Node
variable {d : Dense2Node} {key : Bytes} {i : ℕ}

theorem Windowed.numericPrefix_le (h : Windowed d) : computeNumericPrefixLength d.fullKeyLen ≤ d.prefixLength := by
  have hP := numericPrefixLength_eq d.fullKeyLen
  have hlow := h.lower_len
  have hle := le_commonPrefixLength (List.take_prefix (computeNumericPrefixLength d.fullKeyLen) d.lowerFence)
    (h.agree ▸ List.take_prefix _ d.upperFence)
  rw [List.length_take] at hle
  rw [h.prefixLen]
  omega

theorem Windowed.take_eq (h : Windowed d) (hk : InFences d.lowerFence d.upperFence key) :
    key.take (computeNumericPrefixLength d.fullKeyLen) =
      d.lowerFence.take (computeNumericPrefixLength d.fullKeyLen) := by
  have hP := numericPrefixLength_eq d.fullKeyLen
  have hlow := h.lower_len
  have hle : key ≤ d.upperFence := hk.2.resolve_left (ne_nil_of_lt h.fences)
  have hpre : d.lowerFence.take (computeNumericPrefixLength d.fullKeyLen) <+: key :=
    prefix_of_between (List.take_prefix _ _) (h.agree ▸ List.take_prefix _ _) hk.lower_le hle
  have ht := List.prefix_iff_eq_take.mp hpre
  rw [List.length_take, Nat.min_eq_left (by omega)] at ht
  exact ht.symm

theorem Windowed.length_le (h : Windowed d) (hk : InFences d.lowerFence d.upperFence key) :
    d.fullKeyLen ≤ key.length + maxNumericPartLen := by
  have hP := numericPrefixLength_eq d.fullKeyLen
  have hlow := h.lower_len
  have ht := congrArg List.length (h.take_eq hk)
  rw [List.length_take, List.length_take] at ht
  omega

theorem Windowed.number_lt (h : Windowed d) (hk : InFences d.lowerFence d.upperFence key) :
    getNumericPart key d.fullKeyLen < numericRange - 1 := by
  have hstop := h.stop
  simp only [leastGreaterKey, bind_eq_ok, ensure_eq_ok, exists_const, pure_eq_ok] at hstop
  have hle : key ≤ d.upperFence := hk.2.resolve_left (ne_nil_of_lt h.fences)
  have hdrop : key.drop (computeNumericPrefixLength d.fullKeyLen) ≤
      d.upperFence.drop (computeNumericPrefixLength d.fullKeyLen) := by
    rw [← not_lt, ← lt_iff_drop_lt (h.agree.symm.trans (h.take_eq hk).symm), not_lt]
    exact hle
  rw [getNumericPart_eq (h.length_le hk)]
  rw [getNumericPart_eq h.upper_len] at hstop
  exact (padded_mono hdrop _).trans_lt hstop.1

theorem Windowed.arrayStart_le (h : Windowed d) (hk : InFences d.lowerFence d.upperFence key) :
    d.arrayStart ≤ d.array.startNumber key := by
  by_contra hlt
  have hlow := h.lower_len
  have hstop := h.stop_le
  have hstart := h.start
  simp only [leastGreaterKey, bind_eq_ok, ensure_eq_ok, exists_const, pure_eq_ok] at hstart
  -- the key that the array would begin with one slot earlier
  obtain ⟨full, hfull⟩ : ∃ full, full = restoreKey (d.arrayStart - 1) d.fullKeyLen d.lowerFence 0 := ⟨_, rfl⟩
  have hlen : full.length = d.fullKeyLen := hfull ▸ length_restoreKey hlow 0
  have htake : full.take (computeNumericPrefixLength d.fullKeyLen) =
      d.lowerFence.take (computeNumericPrefixLength d.fullKeyLen) := hfull ▸ take_restoreKey hlow 0
  have hval : getNumericPart full d.fullKeyLen = d.arrayStart - 1 :=
    hfull ▸ getNumericPart_restoreKey hlow (by omega)
  have hle : key ≤ full := by
    rw [DenseNode.le_iff_startNumber (d := d.array) hlen (h.length_le hk) ((h.take_eq hk).trans htake.symm)]
    change _ ≤ getNumericPart full d.fullKeyLen
    omega
  have hbelow : d.lowerFence < full := by
    rcases hk.1 with he | hlower
    · have hpos := h.full_pos
      rw [he]
      exact pos_of_ne_nil fun hn => by rw [hn, List.length_nil] at hlen; omega
    · exact hlower.trans_le hle
  have hnum := (lt_iff_leastGreaterKey hlow hlen htake.symm).mp hbelow
  omega

theorem Windowed.firstIndex_spec (h : Windowed d) {key : Option Bytes}
    (hk : ∀ k, key = some k → InFences d.lowerFence d.upperFence k) :
    ∃ first, d.array.firstIndex key = .ok first ∧
      (List.range' first (d.slotCount - first)).filterMap d.entryAt = entriesUp d.entries key := by
  cases key with
  | none =>
    refine ⟨0, rfl, ?_⟩
    rw [Nat.sub_zero, ← List.range_eq_range']
    rfl
  | some k =>
    have hk := hk k rfl
    have hle := h.arrayStart_le hk
    refine ⟨_, DenseNode.firstIndex_eq hle (h.number_lt hk), (filter_filterMap_range fun i hi e he => ?_).symm⟩
    rw [decide_eq_true_iff, ← (entryAt_eq_some.mp he).2, DenseNode.le_iff_startNumber (d := d.array) (h.length_slotKey i) (h.length_le hk)
      ((h.take_eq hk).trans (h.take_slotKey i).symm)]
    change _ ≤ getNumericPart (d.slotKey i) d.fullKeyLen ↔ _ - d.arrayStart ≤ i
    rw [h.number_slotKey hi]
    omega

variable {σ : Type} {found : Callback σ} {keyOut : Bytes} {state : σ} {size : ℕ}

theorem Windowed.put (h : Windowed d) (hroom : d.fullKeyLen ≤ keyOut.length) (hi : i < d.slotCount)
    (hb : Begins size (d.lowerFence.take d.prefixLength) keyOut) :
    ∃ k, blit keyOut (computeNumericPrefixLength d.fullKeyLen) (d.array.keyBytes i) = .ok k ∧
      k.take d.fullKeyLen = d.slotKey i ∧ Begins size (d.lowerFence.take d.prefixLength) k := by
  have hpl := h.numericPrefix_le
  have hlow : d.prefixLength ≤ d.lowerFence.length := by
    rw [h.prefixLen]
    exact commonPrefixLength_le_left _ _
  have hpre : keyOut.take d.prefixLength = d.lowerFence.take d.prefixLength := by
    have ht := hb.take
    rwa [List.length_take, min_eq_left hlow] at ht
  have hnumeric : keyOut.take (computeNumericPrefixLength d.fullKeyLen) =
      d.lowerFence.take (computeNumericPrefixLength d.fullKeyLen) := by
    have ht := congrArg (List.take (computeNumericPrefixLength d.fullKeyLen)) hpre
    rwa [List.take_take, List.take_take, min_eq_left hpl] at ht
  have hbuffer : d.array.Buffered keyOut := ⟨hnumeric, hroom⟩
  obtain ⟨k, hk, -, hkey, hlen⟩ := hbuffer.put i
  refine ⟨k, hk, hkey, hb.length ▸ hlen ▸ Begins.of_isPrefix ?_⟩
  have hin := (h.inFences hi).isPrefix
  rw [← h.prefixLen, show d.slotKey i = _ from hkey.symm] at hin
  exact hin.trans (List.take_prefix _ _)

theorem slotLoop_handsOut (h : Windowed d) (hroom : d.fullKeyLen ≤ keyOut.length) {is : List ℕ}
    (his : ∀ i ∈ is, i < d.slotCount) (hb : Begins size (d.lowerFence.take d.prefixLength) keyOut) :
    ∃ r, slotLoop found d is keyOut state = .ok r ∧
      HandsOut found size (d.lowerFence.take d.prefixLength) (is.filterMap d.entryAt) state r := by
  induction is generalizing keyOut state with
  | nil => exact ⟨_, rfl, hb, rfl, rfl⟩
  | cons i is ih =>
    have his' := fun j hj => his j (List.mem_cons_of_mem i hj)
    rw [slotLoop]
    cases hp : d.payloadAt i with
    | none =>
      have hentry : d.entryAt i = none := by rw [entryAt, hp, Option.map_none]
      rw [List.filterMap_cons_none hentry]
      exact ih hroom his' hb
    | some payload =>
      have hentry : d.entryAt i = some (d.slotKey i, payload) := by rw [entryAt, hp, Option.map_some]
      obtain ⟨k, hk, hkey, hbk⟩ := h.put hroom (his i List.mem_cons_self) hb
      rw [List.filterMap_cons_some hentry]
      dsimp only
      rw [hk, ok_bind, hkey]
      cases hf : found state (d.slotKey i) payload with
      | mk state' more =>
        cases more with
        | true =>
          obtain ⟨r, hr, hout⟩ := @ih k state' (hbk.length.trans hb.length.symm ▸ hroom) his' hbk
          exact ⟨r, hr, hout.begins, by rw [emit, hf]; exact hout.state_eq, by rw [emit, hf]; exact hout.more_eq⟩
        | false => exact ⟨_, rfl, hbk, by rw [emit, hf], by rw [emit, hf]⟩

theorem rangeLookup2_handsOut (h : Windowed d) (found : Callback σ) (state : σ) {key : Option Bytes}
    (hk : ∀ k, key = some k → InFences d.lowerFence d.upperFence k)
    (hb : Begins size (d.lowerFence.take d.prefixLength) keyOut) (hroom : d.fullKeyLen ≤ keyOut.length) :
    ∃ r, d.rangeLookup2 found key keyOut state = .ok r ∧
      HandsOut found size (d.lowerFence.take d.prefixLength) (entriesUp d.entries key) state r := by
  obtain ⟨first, hfirst, hentries⟩ := h.firstIndex_spec hk
  rw [rangeLookup2, hfirst, ok_bind, if_neg (not_lt.mpr h.numericPrefix_le), pure_bind, ← hentries]
  apply slotLoop_handsOut h hroom _ hb
  intro i hi
  have hrange := List.mem_range'_1.mp hi
  omega

/-- An insert after which the leaf is a dense one still, whether or not it has kept its records apart. -/
def Stays (d e : Dense2Node) : Prop :=
  ∃ key payload page inserted, (key.length = d.fullKeyLen ∨ ¬ d.convertible) ∧
    d.insert key payload page = .ok (inserted, .dense2 e)

theorem Stays.framed {e : Dense2Node} (h : Stays d e) : Framed d e := by
  obtain ⟨key, payload, page, inserted, hstays, hr⟩ := h
  simp only [insert, bind_eq_ok, ensure_eq_ok, exists_const] at hr
  obtain ⟨-, hr⟩ := hr
  split_ifs at hr with hl hconv
  · exact absurd hconv (hstays.resolve_left hl)
  · obtain ⟨-, he⟩ := Prod.mk.inj (Except.ok.inj hr)
    cases he
    exact .refl d
  · obtain ⟨⟨r, e'⟩, hinsert, hr⟩ := bind_eq_ok.mp hr
    obtain ⟨-, he⟩ := Prod.mk.inj (Except.ok.inj hr)
    cases he
    exact insertMatching_framed hinsert

theorem framed_of_run {e : Dense2Node} (h : Relation.ReflTransGen Stays d e) : Framed d e := by
  induction h with
  | refl => exact .refl d
  | tail _ hstep ih => exact ih.trans hstep.framed

theorem Windowed.mem_entries_iff (h : Windowed d) {e : Bytes × Bytes} :
    e ∈ d.entries ↔ InFences d.lowerFence d.upperFence e.1 ∧ e.1.length = d.fullKeyLen ∧
      d.lookup e.1 = .ok (some e.2) := by
  constructor
  · intro he
    obtain ⟨i, hi, -, hkey⟩ := mem_entries.mp he
    have hin : InFences d.lowerFence d.upperFence e.1 := hkey ▸ h.inFences hi
    have hl : e.1.length = d.fullKeyLen := hkey ▸ h.length_slotKey i
    exact ⟨hin, hl, by rw [h.lookup_spec hin hl, (lookup_eq_some h.sorted_entries).mpr he]⟩
  · rintro ⟨hin, hl, hlookup⟩
    rw [h.lookup_spec hin hl] at hlookup
    exact (lookup_eq_some h.sorted_entries).mp (Except.ok.inj hlookup)

/-- Whatever inserts have made of a leaf with records, a scan of it from any key between its fences comes to its end:
it hands out, the least first, each key from there on that a lookup finds, with the value that the lookup gives. -/
theorem scan_as_lookups {n : BTreeNode Bytes} (hn : n.WF) {page : ℕ → Byte} {d₀ : Dense2Node}
    (hd : densify2 n page = .ok (some d₀)) (hrun : Relation.ReflTransGen Stays d₀ d) (found : Callback σ) (state : σ)
    {key : Option Bytes} (hk : ∀ k, key = some k → InFences n.getLowerFence n.getUpperFence k)
    (hpre : n.getPrefix <+: keyOut) (hroom : d.fullKeyLen ≤ keyOut.length) :
    ∃ seen : List (Bytes × Bytes), (keys seen).Pairwise (· < ·) ∧
      (∀ e, e ∈ seen ↔ (InFences n.getLowerFence n.getUpperFence e.1 ∧ e.1.length = d.fullKeyLen ∧
        d.lookup e.1 = .ok (some e.2)) ∧ ∀ k, key = some k → k ≤ e.1) ∧
      ∃ r, d.rangeLookup2 found key keyOut state = .ok r ∧ r.state = (emit found seen state).1 ∧
        r.more = (emit found seen state).2 := by
  have hdens := densify2_spec hn hd
  have hframed := framed_of_run hrun
  have hw := hframed.windowed hdens.wf.toWindowed
  have hlow : d.lowerFence = n.getLowerFence := hframed.lowerFence.trans hdens.lower
  have hupp : d.upperFence = n.getUpperFence := hframed.upperFence.trans hdens.upper
  have hbegins : Begins keyOut.length (d.lowerFence.take d.prefixLength) keyOut := by
    apply Begins.of_isPrefix
    rwa [hw.prefixLen, hlow, hupp, ← hn.prefixLen]
  obtain ⟨r, hr, hout⟩ := rangeLookup2_handsOut hw found state (hlow ▸ hupp ▸ hk) hbegins hroom
  refine ⟨entriesUp d.entries key, ?_, fun e => ?_, r, hr, hout.state_eq, hout.more_eq⟩
  · cases key with
    | none => exact hw.sorted_entries
    | some k => exact hw.sorted_entries.sublist (List.filter_sublist.map Prod.fst)
  · rw [← hlow, ← hupp, ← hw.mem_entries_iff]
    cases key with
    | none => simp [entriesUp]
    | some k => simp [entriesUp]

/-- After the insert of a fourth record, from the second key on. -/
theorem scan_as_lookups_fourth :
    let found : Callback (List Bytes) := fun seen key _ => (seen ++ [key], true)
    ∃ d : Dense2Node, ∃ seen : List (Bytes × Bytes), (keys seen).Pairwise (· < ·) ∧
      (∀ e, e ∈ seen ↔ (InFences [] [3] e.1 ∧ e.1.length = d.fullKeyLen ∧ d.lookup e.1 = .ok (some e.2)) ∧
        ∀ k, some ([1] : Bytes) = some k → k ≤ e.1) ∧
      ∃ r, d.rangeLookup2 found (some [1]) [0] [] = .ok r ∧ r.state = (emit found seen []).1 ∧
        r.more = (emit found seen []).2 := by
  intro found
  obtain ⟨n, d, hn, -, hd, hlow, hupp, -, hlen, hspace⟩ := threeRecords_densified
  have hdens := densify2_spec hn hd
  have hin : ∀ call ∈ [(([3] : Bytes), List.replicate 100 (7 : Byte))], InFences d.lowerFence d.upperFence call.1 := by
    rw [hdens.lower, hdens.upper, hlow, hupp]
    decide
  have hfit : InsertsFitting (fun _ => 0) [([3], List.replicate 100 7)] d := by
    refine ⟨?_, fun _ _ _ => trivial⟩
    rw [if_pos (by rw [hlen]; rfl), Fitting, hspace]
    exact Or.inl (by decide)
  have hright := ((hdens.wf.keeps hdens.lowest).insertsRight_iff hin).mpr hfit
  rw [InsertsRight, if_neg fun hc => hc.1 (by rw [hlen]; rfl)] at hright
  obtain ⟨-, inserted, e, he, -⟩ := hright
  have hstays : Stays d e := ⟨_, _, _, inserted, Or.inl (by rw [hlen]; rfl), he⟩
  have hroom : e.fullKeyLen ≤ ([0] : Bytes).length := by
    rw [hstays.framed.fullKeyLen, hlen]
    decide
  have hpre : n.getPrefix <+: ([0] : Bytes) := by
    rw [BTreeNode.getPrefix, hlow, List.take_nil]
    exact List.nil_prefix
  have hk : ∀ k, some ([1] : Bytes) = some k → InFences n.getLowerFence n.getUpperFence k := by
    rintro k hk
    obtain rfl := Option.some.inj hk
    rw [hlow, hupp]
    decide
  have hscan := scan_as_lookups hn hd (.single hstays) found [] hk hpre hroom
  rw [hlow, hupp] at hscan
  exact ⟨e, hscan⟩

end Dense2Node

end BtreeRedis
