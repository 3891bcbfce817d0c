import BtreeRedis.Tree.Scan

/-!
# The oracle of a debug build

`DataStructureWrapper` keeps an ordered map beside the tree and compares every answer of the
tree with it; the scans step an iterator of the map next to the callbacks. The tree is a
parameter that answers as an ordered map does, so that only the comparisons can fail.
-/

namespace BtreeRedis

open LexOrder SortedAssoc

abbrev Visitor (σ : Type) := σ → Bytes → Bytes → Except Fault (σ × Bool)

def visit {σ : Type} (found : Visitor σ) : List (Bytes × Bytes) → σ → Except Fault σ
  | [], state => pure state
  | e :: es, state => do
    let (state, more) ← found state e.1 e.2
    if more then visit found es state else pure state

structure TreeImpl where
  Tree : Type
  lookupImpl : Tree → Bytes → Option Bytes
  insertImpl : Tree → Bytes → Bytes → Tree
  removeImpl : Tree → Bytes → Bool × Tree
  rangeLookupImpl {σ : Type} : Tree → Bytes → Visitor σ → σ → Except Fault σ
  rangeLookupDescImpl {σ : Type} : Tree → Bytes → Visitor σ → σ → Except Fault σ

/-- `std_map[key] = payload` -/
def assign (m : List (Bytes × Bytes)) (key payload : Bytes) : List (Bytes × Bytes) :=
  m.filter (fun e => e.1 < key) ++ (key, payload) :: m.filter fun e => key < e.1

/-- `std_map.erase` -/
def erase (m : List (Bytes × Bytes)) (key : Bytes) : List (Bytes × Bytes) := m.filter fun e => e.1 ≠ key

/-- The operations answer as an ordered map prescribes. -/
structure TreeImpl.Prescribed (I : TreeImpl) (stored : I.Tree → List (Bytes × Bytes)) : Prop where
  lookup : ∀ t key, I.lookupImpl t key = (stored t).lookup key
  insert : ∀ t key payload, key ∉ keys (stored t) → stored (I.insertImpl t key payload) = assign (stored t) key payload
  removed : ∀ t key, (I.removeImpl t key).1 = decide (key ∈ keys (stored t))
  remove : ∀ t key, stored (I.removeImpl t key).2 = erase (stored t) key
  scan : ∀ t start {σ : Type} (found : Visitor σ) (state : σ),
    I.rangeLookupImpl t start found state = visit found ((stored t).filter fun e => start ≤ e.1) state
  scanDesc : ∀ t start {σ : Type} (found : Visitor σ) (state : σ),
    I.rangeLookupDescImpl t start found state = visit found ((stored t).filter fun e => e.1 ≤ start).reverse state

structure DataStructureWrapper (I : TreeImpl) where
  impl : I.Tree
  stdMap : List (Bytes × Bytes)

namespace DataStructureWrapper
variable {I : TreeImpl}

def lookup (w : DataStructureWrapper I) (key : Bytes) : Except Fault (Option Bytes) := do
  let payload := I.lookupImpl w.impl key
  match w.stdMap.lookup key, payload with
  | none, payload => ensure (payload = none) .assertion
  | some _, none => .error .assertion
  | some value, some payload => do
    ensure (value.length = payload.length) .assertion
    ensure (value = payload) .assertion
  pure payload

def insert (w : DataStructureWrapper I) (key payload : Bytes) : DataStructureWrapper I :=
  ⟨I.insertImpl w.impl key payload, assign w.stdMap key payload⟩

def remove (w : DataStructureWrapper I) (key : Bytes) : Except Fault (Bool × DataStructureWrapper I) := do
  let (removed, impl) := I.removeImpl w.impl key
  match w.stdMap.lookup key with
  | none => do
    ensure (removed = false) .assertion
    pure (removed, ⟨impl, w.stdMap⟩)
  | some _ => do
    ensure (removed = true) .assertion
    pure (removed, ⟨impl, erase w.stdMap key⟩)

section
variable {σ : Type}

structure Ascent (σ : Type) where
  shouldContinue : Bool
  stdIterator : ℕ
  state : σ

def ascentStep (stdMap : List (Bytes × Bytes)) (found : Callback σ) : Visitor (Ascent σ) := fun a key payload => do
  ensure (a.shouldContinue = true) .assertion
  match stdMap[a.stdIterator]? with
  | none => .error .assertion
  | some e => do
    ensure (e.1 = key) .assertion
    ensure (e.2 = payload) .assertion
    let (state, more) := found a.state key payload
    pure (⟨more, a.stdIterator + 1, state⟩, more)

def rangeLookup (w : DataStructureWrapper I) (key : Bytes) (found : Callback σ) (state : σ) : Except Fault σ := do
  let stdIterator := lowerIndex (keys w.stdMap) key
  let a ← I.rangeLookupImpl w.impl key (ascentStep w.stdMap found) ⟨true, stdIterator, state⟩
  ensure (a.shouldContinue = true → a.stdIterator = w.stdMap.length) .assertion
  pure a.state

structure Descent (σ : Type) where
  shouldContinue : Bool
  stdExhausted : Bool
  stdIterator : ℕ
  state : σ

def descentStep (stdMap : List (Bytes × Bytes)) (found : Callback σ) : Visitor (Descent σ) := fun d key payload => do
  ensure (d.shouldContinue = true) .assertion
  ensure (d.stdExhausted = false) .assertion
  match stdMap[d.stdIterator]? with
  | none => .error .undefined
  | some e => do
    ensure (e.1 = key) .assertion
    ensure (e.2 = payload) .assertion
    let (state, more) := found d.state key payload
    if d.stdIterator = 0 then pure (⟨more, true, 0, state⟩, more)
    else pure (⟨more, false, d.stdIterator - 1, state⟩, more)

/-- Where the iterator of a descending scan starts. -/
def descentStart (stdMap : List (Bytes × Bytes)) (key : Bytes) : ℕ :=
  let stdIterator := lowerIndex (keys stdMap) key
  if stdIterator ≠ stdMap.length ∧ stdIterator ≠ 0 ∧ key < (keys stdMap).getD stdIterator []
  then stdIterator - 1 else stdIterator

def rangeLookupDesc (w : DataStructureWrapper I) (key : Bytes) (found : Callback σ) (state : σ) :
    Except Fault σ := do
  let stdIterator := descentStart w.stdMap key
  let stdExhausted := decide (stdIterator = w.stdMap.length)
  let d ← I.rangeLookupDescImpl w.impl key (descentStep w.stdMap found) ⟨true, stdExhausted, stdIterator, state⟩
  ensure (d.shouldContinue = true → d.stdExhausted = true) .assertion
  pure d.state

end

inductive Call
  | insert (key payload : Bytes)
  | remove (key : Bytes)
  | lookup (key : Bytes)
  | rangeLookup {σ : Type} (key : Bytes) (found : Callback σ) (state : σ)
  | rangeLookupDesc {σ : Type} (key : Bytes) (found : Callback σ) (state : σ)

def step (w : DataStructureWrapper I) : Call → Except Fault (DataStructureWrapper I)
  | .insert key payload => pure (w.insert key payload)
  | .remove key => do
    let (_, w) ← w.remove key
    pure w
  | .lookup key => do
    let _ ← w.lookup key
    pure w
  | .rangeLookup key found state => do
    let _ ← w.rangeLookup key found state
    pure w
  | .rangeLookupDesc key found state => do
    let _ ← w.rangeLookupDesc key found state
    pure w

def run : List Call → DataStructureWrapper I → Except Fault (DataStructureWrapper I)
  | [], w => pure w
  | c :: cs, w => do
    let w ← w.step c
    run cs w

end DataStructureWrapper

section
variable {m : List (Bytes × Bytes)} {key payload : Bytes}

theorem keys_filter_ascending (hs : Ascending (keys m)) (p : Bytes × Bytes → Bool) : Ascending (keys (m.filter p)) :=
  hs.sublist (List.filter_sublist.map Prod.fst)

theorem assign_ascending (hs : Ascending (keys m)) : Ascending (keys (assign m key payload)) := by
  rw [assign, keys_append, keys_cons]
  apply ascending_append.mpr
  refine ⟨keys_filter_ascending hs _, List.pairwise_cons.mpr ⟨?_, keys_filter_ascending hs _⟩, ?_⟩
  · intro k hk
    obtain ⟨e, he, rfl⟩ := List.mem_map.mp hk
    simpa using (List.mem_filter.mp he).2
  · intro a ha b hb
    obtain ⟨e, he, rfl⟩ := List.mem_map.mp ha
    have hlt : e.1 < key := by simpa using (List.mem_filter.mp he).2
    rcases List.mem_cons.mp hb with rfl | hb
    · exact hlt
    · obtain ⟨f, hf, rfl⟩ := List.mem_map.mp hb
      have hgt : key < f.1 := by simpa using (List.mem_filter.mp hf).2
      exact hlt.trans hgt

theorem erase_ascending (hs : Ascending (keys m)) : Ascending (keys (erase m key)) := keys_filter_ascending hs _

theorem erase_absent (hk : key ∉ keys m) : erase m key = m := by
  apply List.filter_eq_self.mpr
  intro e he
  simpa using ne_of_mem hk he

/-- Some stored key is at most `start` and some is at least `start`, or there is none. -/
def Spans (m : List (Bytes × Bytes)) (start : Bytes) : Prop :=
  m = [] ∨ (∃ k ∈ keys m, k ≤ start) ∧ ∃ k ∈ keys m, start ≤ k

theorem exists_ge_iff (hs : Ascending (keys m)) {start : Bytes} :
    (∃ k ∈ keys m, start ≤ k) ↔ lowerIndex (keys m) start < m.length := by
  have hkeys : (keys m).length = m.length := List.length_map ..
  rw [← hkeys]
  constructor
  · rintro ⟨k, hk, hle⟩
    obtain ⟨i, hi, rfl⟩ := List.mem_iff_getElem.mp hk
    by_contra hge
    exact absurd (lt_of_lt_lowerIndex (by unfold keys at *; omega) hi) (not_lt.mpr hle)
  · intro hlt
    exact ⟨(keys m)[lowerIndex (keys m) start], List.getElem_mem _, le_of_lowerIndex_le hs le_rfl hlt⟩

theorem lowerIndex_pos_of_lt (hs : Ascending (keys m)) {start : Bytes} (h : ∃ k ∈ keys m, k < start) :
    0 < lowerIndex (keys m) start := by
  obtain ⟨k, hk, hlt⟩ := h
  obtain ⟨i, hi, rfl⟩ := List.mem_iff_getElem.mp hk
  by_contra hzero
  have hle := le_of_lowerIndex_le hs (k := start) (i := i) (by omega) hi
  exact absurd hlt (not_lt.mpr hle)

end

namespace DataStructureWrapper

section
variable {σ : Type}

theorem visit_ascentStep (found : Callback σ) (es seen : List (Bytes × Bytes)) (state : σ) :
    ∃ a, visit (ascentStep (seen ++ es) found) es ⟨true, seen.length, state⟩ = .ok a ∧
      (a.shouldContinue = true → a.stdIterator = (seen ++ es).length) := by
  induction es generalizing seen state with
  | nil => exact ⟨_, rfl, fun _ => by simp⟩
  | cons e es ih =>
    rcases hf : found state e.1 e.2 with ⟨next, more⟩
    have hstep : ascentStep (seen ++ e :: es) found ⟨true, seen.length, state⟩ e.1 e.2 =
        .ok (⟨more, seen.length + 1, next⟩, more) := by
      simp [ascentStep, ensure, hf, pure, Except.pure, bind, Except.bind]
    rw [visit, hstep]
    cases more with
    | false => exact ⟨_, rfl, fun h => by simp at h⟩
    | true =>
      have hrest := ih (seen ++ [e]) next
      rw [List.append_assoc, List.singleton_append, List.length_append, List.length_singleton] at hrest
      exact hrest

theorem visit_descentStep (found : Callback σ) (es above : List (Bytes × Bytes)) (state : σ) (hes : es ≠ []) :
    ∃ d, visit (descentStep (es.reverse ++ above) found) es ⟨true, false, es.length - 1, state⟩ = .ok d ∧
      (d.shouldContinue = true → d.stdExhausted = true) := by
  induction es generalizing above state with
  | nil => exact absurd rfl hes
  | cons e es ih =>
    rcases hf : found state e.1 e.2 with ⟨next, more⟩
    have hat : ((e :: es).reverse ++ above)[es.length]? = some e := by simp
    have hstep : descentStep ((e :: es).reverse ++ above) found ⟨true, false, es.length, state⟩ e.1 e.2 =
        .ok (if es.length = 0 then ⟨more, true, 0, next⟩ else ⟨more, false, es.length - 1, next⟩, more) := by
      simp only [descentStep, hat, hf]
      by_cases hz : es.length = 0 <;> simp [hz, ensure, pure, Except.pure, bind, Except.bind]
    rw [List.length_cons, Nat.add_sub_cancel, visit, hstep]
    cases more with
    | false =>
      refine ⟨_, rfl, fun h => ?_⟩
      split_ifs at h
    | true =>
      by_cases hz : es = []
      · subst hz
        exact ⟨_, rfl, fun _ => rfl⟩
      · have hlen : es.length ≠ 0 := fun h => hz (List.length_eq_zero_iff.mp h)
        have hrest := ih (e :: above) next hz
        rw [if_neg hlen]
        simpa using hrest

end

structure Agrees (stored : I.Tree → List (Bytes × Bytes)) (w : DataStructureWrapper I) : Prop where
  eq : stored w.impl = w.stdMap
  ascending : Ascending (keys w.stdMap)

section
variable {stored : I.Tree → List (Bytes × Bytes)} {w : DataStructureWrapper I} {key payload : Bytes} {σ : Type}
  {found : Callback σ} {state : σ}

theorem Agrees.lookup (h : w.Agrees stored) (hI : I.Prescribed stored) :
    w.lookup key = .ok (w.stdMap.lookup key) := by
  have heq : I.lookupImpl w.impl key = w.stdMap.lookup key := by rw [hI.lookup, h.eq]
  rw [DataStructureWrapper.lookup, heq]
  cases w.stdMap.lookup key with
  | none => rfl
  | some value => simp [ensure, pure, Except.pure, bind, Except.bind]

theorem Agrees.insert (h : w.Agrees stored) (hI : I.Prescribed stored) (hk : key ∉ keys w.stdMap) :
    (w.insert key payload).Agrees stored := by
  refine ⟨?_, assign_ascending h.ascending⟩
  rw [← h.eq] at hk
  rw [DataStructureWrapper.insert, hI.insert _ _ _ hk, h.eq]

theorem Agrees.remove (h : w.Agrees stored) (hI : I.Prescribed stored) (key : Bytes) :
    ∃ removed w', w.remove key = .ok (removed, w') ∧ w'.Agrees stored ∧ w'.stdMap = erase w.stdMap key := by
  have hstored : stored (I.removeImpl w.impl key).2 = erase w.stdMap key := by rw [hI.remove, h.eq]
  have hremoved : (I.removeImpl w.impl key).1 = decide (key ∈ keys w.stdMap) := by rw [hI.removed, h.eq]
  cases hl : w.stdMap.lookup key with
  | none =>
    have habsent : key ∉ keys w.stdMap := by
      rw [← lookup_isSome, hl]
      simp
    rw [erase_absent habsent] at hstored ⊢
    refine ⟨false, ⟨(I.removeImpl w.impl key).2, w.stdMap⟩, ?_, ⟨hstored, h.ascending⟩, rfl⟩
    simp [DataStructureWrapper.remove, hl, hremoved, habsent, ensure, pure, Except.pure, bind, Except.bind]
  | some v =>
    have hpresent : key ∈ keys w.stdMap := by
      rw [← lookup_isSome, hl]
      simp
    refine ⟨true, ⟨(I.removeImpl w.impl key).2, erase w.stdMap key⟩, ?_, ⟨hstored, erase_ascending h.ascending⟩, rfl⟩
    simp [DataStructureWrapper.remove, hl, hremoved, hpresent, ensure, pure, Except.pure, bind, Except.bind]

theorem Agrees.rangeLookup (h : w.Agrees stored) (hI : I.Prescribed stored) (key : Bytes) (found : Callback σ)
    (state : σ) :
    ∃ result, w.rangeLookup key found state = .ok result := by
  have hle : lowerIndex (keys w.stdMap) key ≤ w.stdMap.length := by
    simpa [keys] using lowerIndex_le_length (keys w.stdMap) key
  have hvisit := visit_ascentStep found (w.stdMap.drop (lowerIndex (keys w.stdMap) key))
    (w.stdMap.take (lowerIndex (keys w.stdMap) key)) state
  rw [List.take_append_drop, List.length_take, min_eq_left hle] at hvisit
  obtain ⟨a, hrun, hend⟩ := hvisit
  refine ⟨a.state, ?_⟩
  rw [DataStructureWrapper.rangeLookup, hI.scan, h.eq, filter_ge_eq_drop h.ascending, hrun,
    ok_bind, ensure_of hend]
  rfl

theorem Agrees.rangeLookupDesc_stands (h : w.Agrees stored) (hI : I.Prescribed stored) {j : ℕ}
    (hj : j < w.stdMap.length) (hstart : descentStart w.stdMap key = j)
    (hbelow : (w.stdMap.filter fun e => decide (e.1 ≤ key)) = w.stdMap.take (j + 1)) :
    ∃ result, w.rangeLookupDesc key found state = .ok result := by
  have hlen : (w.stdMap.take (j + 1)).reverse.length = j + 1 := by
    rw [List.length_reverse, List.length_take, min_eq_left hj]
  have hne : (w.stdMap.take (j + 1)).reverse ≠ [] := fun hnil => by simp [hnil] at hlen
  have hvisit := visit_descentStep found (w.stdMap.take (j + 1)).reverse (w.stdMap.drop (j + 1)) state hne
  rw [List.reverse_reverse, List.take_append_drop, hlen, Nat.add_sub_cancel] at hvisit
  obtain ⟨d, hrun, hend⟩ := hvisit
  refine ⟨d.state, ?_⟩
  simp only [DataStructureWrapper.rangeLookupDesc, hI.scanDesc, h.eq, hbelow, hstart, decide_eq_false hj.ne, hrun,
    ok_bind, ensure_of hend]
  rfl

theorem Agrees.rangeLookupDesc_above (h : w.Agrees stored) (hI : I.Prescribed stored) (hne : w.stdMap ≠ [])
    (habove : ∀ k ∈ keys w.stdMap, k < key) : w.rangeLookupDesc key found state = .error .assertion := by
  have hindex : lowerIndex (keys w.stdMap) key = w.stdMap.length := by
    have hle := lowerIndex_le_length (keys w.stdMap) key
    rw [keys, List.length_map] at hle
    have hnone : ¬ ∃ k ∈ keys w.stdMap, key ≤ k := by
      rintro ⟨k, hk, hge⟩
      exact absurd (habove k hk) (not_lt.mpr hge)
    exact le_antisymm hle (not_lt.mp (mt (exists_ge_iff h.ascending).mpr hnone))
  have hstart : descentStart w.stdMap key = w.stdMap.length := by
    simp [descentStart, hindex]
  have hall : (w.stdMap.filter fun e => decide (e.1 ≤ key)) = w.stdMap := by
    apply List.filter_eq_self.mpr
    intro e he
    exact decide_eq_true (habove e.1 (List.mem_map_of_mem he)).le
  obtain ⟨e, es, hcons⟩ := List.exists_cons_of_ne_nil (List.reverse_ne_nil_iff.mpr hne)
  simp only [DataStructureWrapper.rangeLookupDesc, hI.scanDesc, h.eq, hall, hstart, hcons, visit, descentStep]
  rfl

theorem Agrees.rangeLookupDesc_below (h : w.Agrees stored) (hI : I.Prescribed stored) (hne : w.stdMap ≠ [])
    (hbelow : ∀ k ∈ keys w.stdMap, key < k) : w.rangeLookupDesc key found state = .error .assertion := by
  have hindex : lowerIndex (keys w.stdMap) key = 0 := by
    obtain ⟨e, es, hcons⟩ := List.exists_cons_of_ne_nil hne
    rw [hcons, keys_cons, lowerIndex_cons, if_neg]
    exact not_lt.mpr (hbelow e.1 (by simp [hcons])).le
  have hstart : descentStart w.stdMap key = 0 := by
    simp [descentStart, hindex]
  have hnone : (w.stdMap.filter fun e => decide (e.1 ≤ key)) = [] := by
    apply List.filter_eq_nil_iff.mpr
    intro e he
    simpa using hbelow e.1 (List.mem_map_of_mem he)
  have hlen : ¬ 0 = w.stdMap.length := fun hz => hne (List.length_eq_zero_iff.mp hz.symm)
  simp only [DataStructureWrapper.rangeLookupDesc, hI.scanDesc, h.eq, hnone, hstart, List.reverse_nil, visit,
    decide_eq_false hlen]
  rfl

theorem Agrees.rangeLookupDesc_iff (h : w.Agrees stored) (hI : I.Prescribed stored) (key : Bytes)
    (found : Callback σ) (state : σ) :
    (∃ result, w.rangeLookupDesc key found state = .ok result) ↔ Spans w.stdMap key := by
  by_cases hnil : w.stdMap = []
  · refine iff_of_true ⟨state, ?_⟩ (Or.inl hnil)
    simp only [DataStructureWrapper.rangeLookupDesc, hI.scanDesc, h.eq, hnil]
    rfl
  by_cases hge : ∃ k ∈ keys w.stdMap, key ≤ k
  · have hlt := (exists_ge_iff h.ascending).mp hge
    by_cases hle : ∃ k ∈ keys w.stdMap, k ≤ key
    · refine iff_of_true ?_ (Or.inr ⟨hle, hge⟩)
      have hlen : lowerIndex (keys w.stdMap) key < (keys w.stdMap).length := by rwa [keys, List.length_map]
      have hat := le_of_lowerIndex_le h.ascending le_rfl hlen
      by_cases hk : key ∈ keys w.stdMap
      · apply h.rangeLookupDesc_stands hI hlt ?_ (filter_le_eq_take_succ h.ascending hk)
        have heq := getElem?_lowerIndex h.ascending hk
        simp [descentStart, heq]
      · have hpos : 0 < lowerIndex (keys w.stdMap) key := by
          obtain ⟨k, hm, hkle⟩ := hle
          exact lowerIndex_pos_of_lt h.ascending ⟨k, hm, lt_of_le_of_ne hkle fun heq => hk (heq ▸ hm)⟩
        have hbelow := filter_le_eq_take h.ascending hk
        rw [← Nat.sub_add_cancel hpos] at hbelow
        refine h.rangeLookupDesc_stands hI (by omega) ?_ hbelow
        have hgt : key < (keys w.stdMap)[lowerIndex (keys w.stdMap) key] :=
          lt_of_le_of_ne hat fun heq => hk (heq ▸ List.getElem_mem _)
        have hgetD : key < (keys w.stdMap).getD (lowerIndex (keys w.stdMap) key) [] := by
          rwa [List.getD_eq_getElem _ _ hlen]
        exact if_pos ⟨hlt.ne, hpos.ne', hgetD⟩
    · refine iff_of_false ?_ ?_
      · simp only [not_exists, not_and, not_le] at hle
        rw [h.rangeLookupDesc_below hI hnil hle]
        simp
      · exact fun hspans => hspans.elim hnil fun hboth => hle hboth.1
  · refine iff_of_false ?_ ?_
    · simp only [not_exists, not_and, not_le] at hge
      rw [h.rangeLookupDesc_above hI hnil hge]
      simp
    · exact fun hspans => hspans.elim hnil fun hboth => hge hboth.2

end

namespace Call

def Admitted (m : List (Bytes × Bytes)) : Call → Prop
  | .insert key _ => key ∉ keys m
  | _ => True

def Spanned (m : List (Bytes × Bytes)) : Call → Prop
  | .rangeLookupDesc key _ _ => Spans m key
  | _ => True

def after (m : List (Bytes × Bytes)) : Call → List (Bytes × Bytes)
  | .insert key payload => assign m key payload
  | .remove key => erase m key
  | _ => m

end Call

def Along (P : List (Bytes × Bytes) → Call → Prop) : List Call → List (Bytes × Bytes) → Prop
  | [], _ => True
  | c :: cs, m => P m c ∧ Along P cs (c.after m)

section
variable {stored : I.Tree → List (Bytes × Bytes)} {w w' : DataStructureWrapper I} {c : Call}

theorem Agrees.step_returns (h : w.Agrees stored) (hI : I.Prescribed stored) :
    (∃ w', w.step c = .ok w') ↔ c.Spanned w.stdMap := by
  cases c with
  | insert key payload => exact iff_of_true ⟨_, rfl⟩ trivial
  | remove key =>
    obtain ⟨removed, w', hremove, -⟩ := h.remove hI key
    exact iff_of_true ⟨w', by simp only [step, hremove]; rfl⟩ trivial
  | lookup key => exact iff_of_true ⟨w, by simp only [step, h.lookup hI]; rfl⟩ trivial
  | rangeLookup key found state =>
    obtain ⟨result, hscan⟩ := h.rangeLookup hI key found state
    exact iff_of_true ⟨w, by simp only [step, hscan]; rfl⟩ trivial
  | rangeLookupDesc key found state =>
    rw [Call.Spanned, ← h.rangeLookupDesc_iff hI key found state]
    simp [step, bind_eq_ok, pure, Except.pure]

theorem Agrees.step_agrees (h : w.Agrees stored) (hI : I.Prescribed stored) (hc : c.Admitted w.stdMap)
    (hstep : w.step c = .ok w') : w'.Agrees stored ∧ w'.stdMap = c.after w.stdMap := by
  cases c with
  | insert key payload =>
    obtain rfl := Except.ok.inj hstep
    exact ⟨h.insert hI hc, rfl⟩
  | remove key =>
    obtain ⟨removed, w'', hremove, hagrees, heq⟩ := h.remove hI key
    simp only [step, hremove] at hstep
    obtain rfl := Except.ok.inj hstep
    exact ⟨hagrees, heq⟩
  | lookup key =>
    simp only [step, h.lookup hI] at hstep
    obtain rfl := Except.ok.inj hstep
    exact ⟨h, rfl⟩
  | rangeLookup key found state =>
    obtain ⟨-, -, hpure⟩ := bind_eq_ok.mp hstep
    obtain rfl := Except.ok.inj hpure
    exact ⟨h, rfl⟩
  | rangeLookupDesc key found state =>
    obtain ⟨-, -, hpure⟩ := bind_eq_ok.mp hstep
    obtain rfl := Except.ok.inj hpure
    exact ⟨h, rfl⟩

theorem Agrees.run_returns (h : w.Agrees stored) (hI : I.Prescribed stored) {calls : List Call}
    (hcalls : Along Call.Admitted calls w.stdMap) :
    (∃ w', run calls w = .ok w') ↔ Along Call.Spanned calls w.stdMap := by
  induction calls generalizing w with
  | nil => exact iff_of_true ⟨w, rfl⟩ trivial
  | cons c cs ih =>
    obtain ⟨hc, hcs⟩ := hcalls
    rw [Along, ← h.step_returns hI]
    constructor
    · rintro ⟨w', hrun⟩
      obtain ⟨u, hstep, hrest⟩ := bind_eq_ok.mp hrun
      obtain ⟨hagrees, heq⟩ := h.step_agrees hI hc hstep
      rw [← heq] at hcs ⊢
      exact ⟨⟨u, hstep⟩, (ih hagrees hcs).mp ⟨w', hrest⟩⟩
    · rintro ⟨⟨u, hstep⟩, hrest⟩
      obtain ⟨hagrees, heq⟩ := h.step_agrees hI hc hstep
      rw [← heq] at hcs hrest
      obtain ⟨w', hrun⟩ := (ih hagrees hcs).mpr hrest
      exact ⟨w', bind_eq_ok.mpr ⟨u, hstep, hrun⟩⟩

end

/-- A run asserts exactly where a descending scan starts below the first or above the last stored key. -/
theorem oracle_silent_iff {I : TreeImpl} {stored : I.Tree → List (Bytes × Bytes)} (hI : I.Prescribed stored)
    {t : I.Tree} (ht : stored t = []) {calls : List Call} (hcalls : Along Call.Admitted calls []) :
    (∃ w, run calls (⟨t, []⟩ : DataStructureWrapper I) = .ok w) ↔ Along Call.Spanned calls [] := by
  have hagrees : Agrees stored (⟨t, []⟩ : DataStructureWrapper I) := ⟨ht, List.Pairwise.nil⟩
  exact hagrees.run_returns hI hcalls

def orderedMap : TreeImpl where
  Tree := List (Bytes × Bytes)
  lookupImpl m key := m.lookup key
  insertImpl m key payload := assign m key payload
  removeImpl m key := (decide (key ∈ keys m), erase m key)
  rangeLookupImpl m start found state := visit found (m.filter fun e => start ≤ e.1) state
  rangeLookupDescImpl m start found state := visit found (m.filter fun e => e.1 ≤ start).reverse state

theorem orderedMap_prescribed : orderedMap.Prescribed id where
  lookup _ _ := rfl
  insert _ _ _ _ := rfl
  removed _ _ := rfl
  remove _ _ := rfl
  scan _ _ _ _ _ := rfl
  scanDesc _ _ _ _ _ := rfl

def orderedMapWrapper : DataStructureWrapper orderedMap := ⟨[], []⟩

def counting : Callback ℕ := fun n _ _ => (n + 1, true)

instance (m : List (Bytes × Bytes)) (key : Bytes) : Decidable (Spans m key) :=
  inferInstanceAs (Decidable (_ = _ ∨ _ ∧ _))

instance (m : List (Bytes × Bytes)) : (c : Call) → Decidable (c.Admitted m)
  | .insert _ _ => inferInstanceAs (Decidable (_ ∉ _))
  | .remove _ | .lookup _ | .rangeLookup _ _ _ | .rangeLookupDesc _ _ _ => isTrue trivial

instance (m : List (Bytes × Bytes)) : (c : Call) → Decidable (c.Spanned m)
  | .rangeLookupDesc key _ _ => inferInstanceAs (Decidable (Spans m key))
  | .insert _ _ | .remove _ | .lookup _ | .rangeLookup _ _ _ => isTrue trivial

instance (P : List (Bytes × Bytes) → Call → Prop) [∀ m c, Decidable (P m c)] :
    (cs : List Call) → (m : List (Bytes × Bytes)) → Decidable (Along P cs m)
  | [], _ => isTrue trivial
  | c :: cs, m =>
    have := instDecidableAlong P cs (c.after m)
    inferInstanceAs (Decidable (_ ∧ _))

def spannedCalls : List Call :=
  [.insert [4] [8], .insert [1] [7], .insert [9] [], .rangeLookupDesc [5] counting 0, .rangeLookup [2] counting 0,
    .rangeLookupDesc [9] counting 0, .remove [4], .lookup [4], .rangeLookupDesc [4] counting 0]

theorem oracle_silent_iff_spanned : ∃ w, orderedMapWrapper.run spannedCalls = .ok w :=
  (oracle_silent_iff orderedMap_prescribed rfl (by decide)).mpr (by decide)

/-- The map holds one key; a scan from a greater one finds it, a scan from a smaller one finds nothing. -/
theorem oracle_asserts :
    orderedMap.Prescribed id ∧ Along Call.Admitted [.insert [1] [7], .rangeLookupDesc [2] counting 0] [] ∧
      orderedMapWrapper.run [.insert [1] [7], .rangeLookupDesc [2] counting 0] = .error .assertion ∧
      orderedMapWrapper.run [.insert [1] [7], .rangeLookupDesc [0] counting 0] = .error .assertion :=
  ⟨orderedMap_prescribed, ⟨by simp [Call.Admitted], trivial, trivial⟩, rfl, rfl⟩

end DataStructureWrapper

end BtreeRedis
