import BtreeRedis.Adaptive.Descend
import BtreeRedis.Hash.Invariant
import BtreeRedis.Lib.Machine

/-!
# A hash leaf as a map

The calls on a hash leaf answer as calls on an ascending list of pairs do. Scans sort the
slots in place, and one of them may turn the leaf into a basic one; neither changes what the
leaf stores.
-/

namespace BtreeRedis

open LexOrder SortedAssoc Outcome Machine

inductive LeafCall
  | insert (key payload : Bytes)
  | remove (key : Bytes)
  | lookup (key : Bytes)
  | rangeLookup (key : Option Bytes) (keyOut : Bytes) (goOn : List (Bytes × Bytes) → Bool)
  | rangeLookupDesc (key keyOut : Bytes) (goOn : List (Bytes × Bytes) → Bool)

inductive LeafAnswer
  | inserted (done : Bool)
  | removed (done : Bool)
  | found (payload : Option Bytes)
  | scanned (seen : List (Bytes × Bytes)) (more : Bool)

def recording (goOn : List (Bytes × Bytes) → Bool) : Callback (List (Bytes × Bytes)) :=
  fun seen key payload => (seen ++ [(key, payload)], goOn (seen ++ [(key, payload)]))

namespace LeafCall

section
variable [KeyHash]

def step (c : Config) : LeafCall → AdaptiveLeaf × Draws → Except Fault (LeafAnswer × AdaptiveLeaf × Draws)
  | .insert key payload, (l, draws) => do
    let (inserted, l, draws) ← l.insert c key payload draws
    pure (.inserted inserted, l, draws)
  | .remove key, (l, draws) => do
    let (removed, l) ← l.remove key
    pure (.removed removed, l, draws)
  | .lookup key, (l, draws) => do
    let (payload, l, draws) ← l.lookup c key draws
    pure (.found payload, l, draws)
  | .rangeLookup key keyOut goOn, (l, draws) => do
    let (scanned, l, draws) ← l.rangeLookup (recording goOn) c key keyOut [] draws
    pure (.scanned scanned.state scanned.more, l, draws)
  | .rangeLookupDesc key keyOut goOn, (l, draws) => do
    let (scanned, l) ← l.rangeLookupDesc (recording goOn) key keyOut []
    pure (.scanned scanned.state scanned.more, l, draws)

end

def shown (goOn : List (Bytes × Bytes) → Bool) (es : List (Bytes × Bytes)) : LeafAnswer :=
  .scanned (emit (recording goOn) es []).1 (emit (recording goOn) es []).2

def onMap : LeafCall → List (Bytes × Bytes) → Except Fault (LeafAnswer × List (Bytes × Bytes))
  | .insert key payload, m => .ok (.inserted true, store key payload m)
  | .remove key, m => .ok (.removed (decide (key ∈ keys m)), erase key m)
  | .lookup key, m => .ok (.found (m.lookup key), m)
  | .rangeLookup key _ goOn, m => .ok (shown goOn (entriesUp m key), m)
  | .rangeLookupDesc key _ goOn, m => .ok (shown goOn (m.filter fun e => decide (e.1 ≤ key)).reverse, m)

def payloadAfter (key : Bytes) (held : Option Bytes) : LeafCall → Option Bytes
  | .insert k payload => if key = k then some payload else held
  | .remove k => if key = k then none else held
  | _ => held

variable [KeyHash]

/-- The calls that are made on a hash leaf with these fences: keys lie between the fences, an insertion is of
an absent key and is not refused, and the buffer of a scan takes the keys, those upwards with the common
prefix in it. -/
def Legal (c : Config) (lower upper : Bytes) (call : LeafCall) (s : AdaptiveLeaf × Draws) : Prop :=
  ∃ n, s.1 = .hash n ∧ match call with
    | .insert key payload => InFences lower upper key ∧ key ∉ keys n.entries ∧
      ∀ a s', (LeafCall.insert key payload).step c s = .ok (a, s') → a = .inserted true
    | .remove key | .lookup key => InFences lower upper key
    | .rangeLookup key keyOut _ => (∀ k, key = some k → InFences lower upper k) ∧ n.getPrefix <+: keyOut ∧
      ∀ e ∈ n.entries, e.1.length ≤ keyOut.length
    | .rangeLookupDesc key keyOut _ => InFences lower upper key ∧ n.prefixLength ≤ keyOut.length ∧
      ∀ e ∈ n.entries, e.1.length ≤ keyOut.length

end LeafCall

section
variable [KeyHash] {c : Config} {lower upper : Bytes} {σ : Type} {found : Callback σ} {keyOut : Bytes} {state : σ}
  {size : ℕ}

structure Represents (lower upper : Bytes) (s : AdaptiveLeaf × Draws) (m : List (Bytes × Bytes)) : Prop where
  entries : s.1.entries = m
  hash : ∀ n, s.1 = .hash n → n.WF ∧ n.lowerFence = lower ∧ n.upperFence = upper

namespace HashNode
variable {n : HashNode}

theorem WF.represents (h : WF n) (draws : Draws) : Represents n.lowerFence n.upperFence (.hash n, draws) n.entries := by
  refine ⟨rfl, ?_⟩
  rintro _ ⟨⟩
  exact ⟨h, rfl, rfl⟩

variable (found state) in
theorem rangeLookup_handsOut (h : WF n) (c : Config) {key : Option Bytes}
    (hk : ∀ k, key = some k → InFences n.lowerFence n.upperFence k) (hb : Begins size n.getPrefix keyOut)
    (hfit : ∀ e ∈ n.entries, e.1.length ≤ size) (draws : Draws) :
    ∃ r l draws', (AdaptiveLeaf.hash n).rangeLookup found c key keyOut state draws = .ok (r, l, draws') ∧
      HandsOut found size n.getPrefix (entriesUp n.entries key) state r ∧
      Represents n.lowerFence n.upperFence (l, draws') n.entries := by
  obtain ⟨⟨convert, roc, draws'⟩, hroc⟩ : ∃ x, x = n.rangeOpCounter.rangeOp c draws := ⟨_, rfl⟩
  have hw : WF { n with rangeOpCounter := roc } := h.counter roc
  obtain ⟨r, m, hr, hres, hout⟩ := scanSorted_handsOut found state hw hk hb hfit
  have hsorted : Represents n.lowerFence n.upperFence (.hash m, draws') n.entries := by
    refine ⟨hres.entries, ?_⟩
    rintro _ ⟨⟩
    exact ⟨hres.wf, hres.lower, hres.upper⟩
  simp only [AdaptiveLeaf.rangeLookup, ← hroc]
  cases convert with
  | false =>
    refine ⟨r, .hash m, draws', ?_, hout, hsorted⟩
    rw [convertIf, if_neg Bool.false_ne_true, pure_bind, hr]
    rfl
  | true =>
    obtain ⟨res, hconvert, hholds⟩ := tryConvertToBasic_spec hw
    rw [convertIf, if_pos rfl, hconvert, ok_bind]
    cases res with
    | none =>
      refine ⟨r, .hash m, draws', ?_, hout, hsorted⟩
      simp only [hr, ok_bind]
      rfl
    | some b =>
      have hb' := hholds b rfl
      have hpre : b.getPrefix = n.getPrefix := by
        rw [BTreeNode.getPrefix, getPrefix, hb'.wf.prefixLen, h.prefixLen, hb'.lower, hb'.upper]
      have hes : b.entries = n.entries := hb'.entries
      have hkb : ∀ k, key = some k → InFences b.getLowerFence b.getUpperFence k := by
        rw [hb'.lower, hb'.upper]
        exact hk
      obtain ⟨r', hr', hout'⟩ := BTreeNode.rangeLookup_handsOut found state hb'.wf hkb (hpre ▸ hb) (hes ▸ hfit)
      rw [hpre, hes] at hout'
      refine ⟨r', .basic (roc.rangeOp c draws').2.1 b, (roc.rangeOp c draws').2.2, ?_, hout', hes, ?_⟩
      · simp only [AdaptiveLeaf.rangeLookupBasic, hr', ok_bind]
        rfl
      · rintro _ ⟨⟩

end HashNode

namespace LeafCall

theorem step_onMap {call : LeafCall} {s : AdaptiveLeaf × Draws} {m : List (Bytes × Bytes)}
    (hr : Represents lower upper s m) (hl : call.Legal c lower upper s) :
    ∃ a s' m', call.step c s = .ok (a, s') ∧ call.onMap m = .ok (a, m') ∧ Represents lower upper s' m' := by
  obtain ⟨l, draws⟩ := s
  obtain ⟨n, hn, hl⟩ := hl
  obtain rfl : l = .hash n := hn
  obtain ⟨hwf, rfl, rfl⟩ := hr.hash n rfl
  obtain rfl : n.entries = m := hr.entries
  cases call with
  | insert key payload =>
    obtain ⟨hk, habsent, htrue⟩ := hl
    have hsafe : HashOp.SafeInsert n key payload := by
      intro old hold
      rw [lookup_eq_none habsent] at hold
      cases hold
    obtain ⟨inserted, r, draws', hins, hrwf⟩ := (HashNode.insert_total hwf c draws hk).1 hsafe
    have hstep : (LeafCall.insert key payload).step c (.hash n, draws) = .ok (.inserted inserted, .hash r, draws') := by
      rw [step, AdaptiveLeaf.insert, AdaptiveLeaf.countPoint, pure_bind]
      dsimp only
      rw [hins]
      rfl
    obtain rfl : inserted = true := LeafAnswer.inserted.inj (htrue _ _ hstep)
    have hdone := (HashNode.insert_contained hwf c draws hk).of_eq_ok hins
    have hstored : Stored key payload n.entries r.entries := by
      intro e
      rw [HashNode.mem_entries, HashNode.mem_entries]
      exact hdone.done rfl e
    refine ⟨_, _, _, hstep, rfl, ?_, ?_⟩
    · exact hstored.eq_store hwf.ascending_entries hrwf.ascending_entries
    · rintro _ ⟨⟩
      exact ⟨hrwf, hdone.lower, hdone.upper⟩
  | remove key =>
    have hmem : ∀ removed r, n.remove key = .ok (removed, r) → (LeafCall.remove key).step c (.hash n, draws) =
        .ok (.removed removed, .hash r, draws) := by
      intro removed r hrem
      rw [step, AdaptiveLeaf.remove, hrem]
      rfl
    rcases HashNode.remove_spec hwf hl with ⟨habsent, hrem⟩ | ⟨i, hrem, hrwf, hremoved⟩
    · refine ⟨_, _, _, hmem _ _ hrem, ?_, hwf.represents draws⟩
      rw [onMap, decide_eq_false habsent, erase_eq_self habsent]
    · refine ⟨_, _, erase key n.entries, hmem _ _ hrem, ?_, ?_, ?_⟩
      · rw [onMap, decide_eq_true hremoved.key_mem]
      · exact hremoved.eq_erase hwf.ascending_entries
      · rintro _ ⟨⟩
        exact ⟨hrwf, rfl, rfl⟩
  | lookup key =>
    refine ⟨_, _, _, ?_, rfl, (hwf.counter (n.rangeOpCounter.pointOp c draws).2.1).represents
      (n.rangeOpCounter.pointOp c draws).2.2⟩
    rw [step, AdaptiveLeaf.lookup, AdaptiveLeaf.countPoint, pure_bind]
    dsimp only
    rw [HashNode.lookup_spec hwf c draws hl]
    rfl
  | rangeLookup key keyOut goOn =>
    obtain ⟨hk, hpre, hfit⟩ := hl
    obtain ⟨r, l, draws', hscan, hout, hrep⟩ :=
      HashNode.rangeLookup_handsOut (recording goOn) [] hwf c hk (Begins.of_isPrefix hpre) hfit draws
    refine ⟨.scanned r.state r.more, (l, draws'), n.entries, ?_, ?_, hrep⟩
    · rw [step, hscan]
      rfl
    · rw [onMap, shown, hout.state_eq, hout.more_eq]
  | rangeLookupDesc key keyOut goOn =>
    obtain ⟨hk, hlen, hfit⟩ := hl
    obtain ⟨r, m, hscan, hres, hout⟩ :=
      HashNode.rangeLookupDesc_handsOut (recording goOn) [] hwf hk hlen hfit
    refine ⟨.scanned r.state r.more, (.hash m, draws), n.entries, ?_, ?_, hres.entries, ?_⟩
    · rw [step, AdaptiveLeaf.rangeLookupDesc, hscan]
      rfl
    · rw [onMap, shown, hout.state_eq, hout.more_eq]
    · rintro _ ⟨⟩
      exact ⟨hres.wf, hres.lower, hres.upper⟩

section
omit [KeyHash]

theorem onMap_ascending {call : LeafCall} {m m' : List (Bytes × Bytes)} {a : LeafAnswer}
    (h : call.onMap m = .ok (a, m')) (hs : Ascending (keys m)) : Ascending (keys m') := by
  cases call <;> cases h
  · exact ascending_store hs _ _
  · exact ascending_erase hs _
  all_goals exact hs

theorem onMap_lookup {call : LeafCall} {m m' : List (Bytes × Bytes)} {a : LeafAnswer}
    (h : call.onMap m = .ok (a, m')) (hs : Ascending (keys m)) (key : Bytes) :
    m'.lookup key = call.payloadAfter key (m.lookup key) := by
  cases call <;> cases h
  · rw [lookup_store hs, payloadAfter]
    split_ifs <;> rfl
  · rw [lookup_erase hs, payloadAfter]
    split_ifs <;> rfl
  all_goals rfl

theorem run_lookup {calls : List LeafCall} {m m' : List (Bytes × Bytes)} {answers : List LeafAnswer}
    (h : Machine.Run onMap calls m answers m') (hs : Ascending (keys m)) (key : Bytes) :
    m'.lookup key = calls.foldl (payloadAfter key) (m.lookup key) := by
  induction h with
  | nil => rfl
  | cons hcall _ ih => rw [ih (onMap_ascending hcall hs), onMap_lookup hcall hs, List.foldl_cons]

end

end LeafCall

/-- A hash leaf answers as the list of its entries does, for as long as it stays a hash leaf; and sorting it
permutes its slots together with their hash bytes. -/
theorem HashNode.answers_as_map {n : HashNode} (h : WF n) (draws : Draws) {calls : List LeafCall}
    (hl : Along (LeafCall.step c) (LeafCall.Legal c n.lowerFence n.upperFence) calls (.hash n, draws)) :
    (∃ answers s m, Machine.Run (LeafCall.step c) calls (.hash n, draws) answers s ∧
      Machine.Run LeafCall.onMap calls n.entries answers m ∧ s.1.entries = m ∧
      ∀ key, m.lookup key = calls.foldl (LeafCall.payloadAfter key) (n.entries.lookup key)) ∧
    ∃ m, n.sort = .ok m ∧ m.slots.Perm n.slots ∧ m.hashes = m.slots.map (fun s => computeHash s.key) ∧
      m.sortedCount = m.count ∧ Ascending (keys m.content) ∧ m.entries = n.entries := by
  constructor
  · have hstep : ∀ call s m, Represents n.lowerFence n.upperFence s m →
        LeafCall.Legal c n.lowerFence n.upperFence call s → True →
        ∃ a s' m', LeafCall.step c call s = .ok (a, s') ∧ LeafCall.onMap call m = .ok (a, m') ∧
          Represents n.lowerFence n.upperFence s' m' := fun call s m hr hl _ => LeafCall.step_onMap hr hl
    have htrivial : ∀ (calls : List LeafCall) (m : List (Bytes × Bytes)),
        Along LeafCall.onMap (fun _ _ => True) calls m := by
      intro calls
      induction calls with
      | nil => exact fun _ => trivial
      | cons call calls ih => exact fun m => ⟨trivial, fun a m' _ => ih m'⟩
    obtain ⟨answers, s, m, hs, hm, hr⟩ := exists_run hstep calls (h.represents draws) hl (htrivial calls n.entries)
    exact ⟨answers, s, m, hs, hm, hr.entries, LeafCall.run_lookup hm h.ascending_entries⟩
  · obtain ⟨m, hm, hr⟩ := sort_spec h
    refine ⟨m, hm, hr.slots, ?_, hr.sortedCount, ascending_content hr.wf.toKeyed hr.sortedCount, hr.entries⟩
    rw [hr.wf.hashed, keys, content, List.map_map, List.map_map]
    rfl

end

/-- A key is inserted, another one removed, and a scan meets what is left. -/
theorem HashNode.answers_as_map_three :
    let _ : KeyHash := ⟨fun _ => 0⟩
    let c : Config := ⟨true, false, false, nofun, nofun⟩
    let calls : List LeafCall := [.insert [98] [2], .remove [97], .rangeLookup (some []) [0] fun _ => true]
    (∃ answers s m, Machine.Run (LeafCall.step c) calls (.hash oneEntryLeaf, Stream'.const 0) answers s ∧
      Machine.Run LeafCall.onMap calls oneEntryLeaf.entries answers m ∧ s.1.entries = m ∧
      ∀ key, m.lookup key = calls.foldl (LeafCall.payloadAfter key) (oneEntryLeaf.entries.lookup key)) ∧
    ∃ m, oneEntryLeaf.sort = .ok m ∧ m.slots.Perm oneEntryLeaf.slots ∧
      m.hashes = m.slots.map (fun s => computeHash s.key) ∧ m.sortedCount = m.count ∧
      Ascending (keys m.content) ∧ m.entries = oneEntryLeaf.entries := by
  intro _ c calls
  have hall : ∀ key, InFences oneEntryLeaf.lowerFence oneEntryLeaf.upperFence key := fun _ => ⟨Or.inl rfl, Or.inl rfl⟩
  have hinsert : LeafCall.step c (.insert [98] [2]) (.hash oneEntryLeaf, Stream'.const 0) =
      .ok (.inserted true, .hash { oneEntryLeaf with
        spaceUsed := 4, dataOffset := 4028, slots := [⟨4030, [97], [1]⟩, ⟨4028, [98], [2]⟩], hashes := [0, 0] },
        Stream'.const 0) := rfl
  have hremove : LeafCall.step c (.remove [97]) (.hash { oneEntryLeaf with
        spaceUsed := 4, dataOffset := 4028, slots := [⟨4030, [97], [1]⟩, ⟨4028, [98], [2]⟩], hashes := [0, 0] },
        Stream'.const 0) = .ok (.removed true, .hash { oneEntryLeaf with
        spaceUsed := 2, dataOffset := 4028, slots := [⟨4028, [98], [2]⟩], hashes := [0] }, Stream'.const 0) := rfl
  refine answers_as_map (c := c) oneEntryLeaf_wf (Stream'.const 0) ⟨⟨_, rfl, hall _, by decide, ?_⟩, ?_⟩
  · intro a s' hs
    rw [hinsert] at hs
    cases hs
    rfl
  · intro a s' hs
    rw [hinsert] at hs
    cases hs
    refine ⟨⟨_, rfl, hall _⟩, ?_⟩
    intro a s' hs
    rw [hremove] at hs
    cases hs
    exact ⟨⟨_, rfl, fun _ _ => hall _, List.nil_prefix, by decide⟩, fun _ _ _ => trivial⟩

end BtreeRedis
