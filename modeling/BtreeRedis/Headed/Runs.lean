import BtreeRedis.Adaptive.Transparent
import BtreeRedis.Headed.Insert
import BtreeRedis.Headed.Remove
import BtreeRedis.Headed.Scan

/-!
# Runs of a tree with head nodes

With short records a tree of this build does all that an ascending list of its entries would
do, whatever shapes its inner nodes take: it answers every call, and only the insertion of a
key that is there ends the run.
-/

namespace BtreeRedis

open LexOrder SortedAssoc Outcome Machine

inductive HeadedCall
  | lookup (key : Bytes)
  | insert (key payload : Bytes)
  | remove (key : Bytes)
  | rangeLookup (startKey keyOut : Bytes) (goOn : List (Bytes × Bytes) → Bool)
  | rangeLookupDesc (key keyOut : Bytes) (goOn : List (Bytes × Bytes) → Bool)

namespace HeadedCall

def step (fuel : ℕ) : HeadedCall → HeadedTree → Except Fault (TreeAnswer × HeadedTree)
  | .lookup key, t => do
    let payload ← t.lookupImpl key
    pure (.found payload, t)
  | .insert key payload, t => do
    let t ← HeadedTree.insertImpl key payload fuel t
    pure (.inserted, t)
  | .remove key, t => do
    let (removed, t) ← t.removeImpl key
    pure (.removed removed, t)
  | .rangeLookup startKey keyOut goOn, t => do
    let (_, seen) ← HeadedTree.rangeLookupImpl (recording goOn) fuel startKey keyOut [] t
    pure (.scanned seen, t)
  | .rangeLookupDesc key keyOut goOn, t => do
    let (_, seen) ← HeadedTree.rangeLookupDescImpl (recording goOn) t fuel key keyOut []
    pure (.scanned seen, t)

def onMap : HeadedCall → List (Bytes × Bytes) → Except Fault (TreeAnswer × List (Bytes × Bytes))
  | .lookup key, m => .ok (.found (m.lookup key), m)
  | .insert key payload, m => if key ∈ keys m then .error .abort else .ok (.inserted, store key payload m)
  | .remove key, m => .ok (.removed (decide (key ∈ keys m)), erase key m)
  | .rangeLookup startKey _ goOn, m =>
    .ok (.scanned (emit (recording goOn) (m.filter fun e => decide (startKey ≤ e.1)) []).1, m)
  | .rangeLookupDesc key _ goOn, m =>
    .ok (.scanned (emit (recording goOn) (m.filter fun e => decide (e.1 ≤ key)).reverse []).1, m)

/-- What is stored is short, and the buffer of a scan takes a key and, upwards, the byte behind it. -/
def Within (ℓ : Limits) : HeadedCall → Prop
  | .insert key payload => ℓ.Admits key payload
  | .rangeLookup startKey keyOut _ => startKey.length ≤ keyOut.length ∧ ℓ.key < keyOut.length
  | .rangeLookupDesc _ keyOut _ => ℓ.key ≤ keyOut.length
  | _ => True

end HeadedCall

variable {ℓ : Limits}

theorem HeadedNode.length_leaves_le : (h : ℕ) → {n : HeadedNode h} → {lower upper : Bytes} → Inv ℓ h n lower upper →
    (leaves h n).length ≤ potential h n + 1
  | 0, n, _, _, _ => (length_asRow_le n).trans (Nat.le_add_left 1 _)
  | h + 1, p, lower, upper, ⟨a, hp⟩ => by
    have hsum : ∀ cs : List (HeadedNode h), (∀ c ∈ cs, ∃ x y, Inv ℓ h c x y) →
        (cs.flatMap (leaves h)).length ≤ (cs.map (potential h)).sum + cs.length := by
      intro cs hcs
      induction cs with
      | nil => exact le_rfl
      | cons c cs ih =>
        obtain ⟨x, y, hc⟩ := hcs c List.mem_cons_self
        have hfirst := length_leaves_le h hc
        have hrest := ih fun d hd => hcs d (List.mem_cons_of_mem _ hd)
        rw [List.flatMap_cons, List.length_append, List.map_cons, List.sum_cons, List.length_cons]
        omega
    have hchildren := hsum a.children (Chain.forall_mem hp.spans)
    have hlen := a.length
    change ((AnyInner.children p).flatMap (leaves h)).length ≤ AnyInner.potentialOf (potential h) p + 1
    rw [hp.represents.children, hp.potentialOf_eq, Routing.totalOf]
    omega

namespace HeadedTree
variable {t : HeadedTree} {fuel : ℕ}

theorem length_leaves_lt (h : t.Inv ℓ) (hfuel : t.potential < fuel) : t.leaves.length ≤ fuel :=
  (HeadedNode.length_leaves_le t.height h).trans hfuel

theorem step_spec {call : HeadedCall} (hcall : call.Within ℓ) (h : t.Inv ℓ) (hfuel : t.potential < fuel) :
    (call.step fuel t).map (Prod.map id entries) = call.onMap t.entries ∧
      ∀ answer t', call.step fuel t = .ok (answer, t') → t'.Inv ℓ ∧ t'.potential ≤ t.potential + 3 := by
  have hsame : ∀ {answer answer' : TreeAnswer} {t' : HeadedTree},
      (Except.ok (answer, t) : Except Fault (TreeAnswer × HeadedTree)) = .ok (answer', t') →
      t'.Inv ℓ ∧ t'.potential ≤ t.potential + 3 := by
    intro answer answer' t' hr
    obtain ⟨-, rfl⟩ := Prod.mk.inj (Except.ok.inj hr)
    exact ⟨h, Nat.le_add_right _ _⟩
  cases call with
  | lookup key =>
    rw [HeadedCall.step, lookupImpl_spec h]
    exact ⟨rfl, fun _ _ => hsame⟩
  | insert key payload =>
    rw [HeadedCall.step, HeadedCall.onMap]
    rcases insertImpl_spec h hcall hfuel with ⟨hr, hmem⟩ | ⟨t', hr, hinv, habsent, hent, hgrown⟩
    · rw [hr, if_pos hmem]
      exact ⟨rfl, fun _ _ hc => absurd hc (by simp)⟩
    · rw [hr, if_neg habsent, ← hent]
      refine ⟨rfl, fun answer t'' hc => ?_⟩
      obtain ⟨-, rfl⟩ := Prod.mk.inj (Except.ok.inj hc)
      exact ⟨hinv, hgrown⟩
  | remove key =>
    obtain ⟨removed, t', hr, hrem, hpot⟩ := removeImpl_removing h key
    rw [HeadedCall.step, hr]
    refine ⟨?_, fun answer t'' hc => ?_⟩
    · cases removed with
      | true =>
        rw [HeadedCall.onMap, decide_eq_true (hrem.found_iff.mp rfl), ← (hrem.done rfl).eq_erase h.ascending]
        rfl
      | false =>
        have habsent : key ∉ keys t.entries := fun hmem => Bool.false_ne_true (hrem.found_iff.mpr hmem)
        rw [HeadedCall.onMap, decide_eq_false habsent, erase_eq_self habsent, ← hrem.absent rfl]
        rfl
    · obtain ⟨-, rfl⟩ := Prod.mk.inj (Except.ok.inj hc)
      exact ⟨hrem.inv, hpot.trans (Nat.le_add_right _ _)⟩
  | rangeLookup startKey keyOut goOn =>
    obtain ⟨keyOut', hr⟩ := rangeLookupImpl_emits (recording goOn) [] h hcall.1 hcall.2
      (length_leaves_lt h hfuel)
    rw [HeadedCall.step, hr]
    exact ⟨rfl, fun _ _ => hsame⟩
  | rangeLookupDesc key keyOut goOn =>
    obtain ⟨keyOut', hr⟩ := rangeLookupDescImpl_emits (recording goOn) [] h key hcall
      (length_leaves_lt h hfuel)
    rw [HeadedCall.step, hr]
    exact ⟨rfl, fun _ _ => hsame⟩

theorem run_spec {calls : List HeadedCall} (hcalls : ∀ call ∈ calls, call.Within ℓ) (hfuel : 3 * calls.length < fuel) :
    answers (HeadedCall.step fuel) calls empty = answers HeadedCall.onMap calls [] ∧
      (final (HeadedCall.step fuel) calls empty).map entries = final HeadedCall.onMap calls [] ∧
      ∀ t, final (HeadedCall.step fuel) calls empty = .ok t → t.Inv ℓ := by
  have hstep : ∀ (fuel : ℕ) (call : HeadedCall) (t : HeadedTree), call.Within ℓ → t.Inv ℓ → t.potential < fuel →
      (call.step fuel t).map (Prod.map id entries) = call.onMap t.entries ∧
        ∀ answer t', call.step fuel t = .ok (answer, t') → t'.Inv ℓ ∧ t'.potential ≤ t.potential + 3 :=
    fun fuel call t hcall h hfuel => step_spec hcall h hfuel
  have hempty : empty.potential + 3 * calls.length < fuel := by
    change 3 * (0 - 1) + _ < fuel
    omega
  exact run_eq_of_size hstep hcalls empty_inv hempty

/-- From a new tree, calls within the limits are answered as an ascending list answers them, and leave its entries.
No insertion starts again more than three times for each call of the run, and no scan visits more leaves. -/
theorem runs_as_map {calls : List HeadedCall} (hcalls : ∀ call ∈ calls, call.Within ℓ)
    (hfuel : 3 * calls.length < fuel) :
    answers (HeadedCall.step fuel) calls empty = answers HeadedCall.onMap calls [] ∧
      (final (HeadedCall.step fuel) calls empty).map entries = final HeadedCall.onMap calls [] := by
  obtain ⟨hanswers, hfinal, -⟩ := run_spec hcalls hfuel
  exact ⟨hanswers, hfinal⟩

def tallCalls : List HeadedCall :=
  (List.range 10).map (fun k => .insert [Fin.ofNat 256 k] (List.replicate 399 0)) ++
    [.lookup [7], .remove [3], .lookup [3], .rangeLookup [2] (List.replicate 64 0) fun seen => decide (seen.length < 4),
      .rangeLookupDesc [8] (List.replicate 64 0) fun seen => decide (seen.length < 6), .insert [3] [5], .lookup [3]]

theorem tallCalls_within : ∀ call ∈ tallCalls, call.Within ⟨60, 400, by decide, by decide⟩ := by
  have hlen : (List.replicate 399 (0 : Byte)).length = 399 := List.length_replicate
  have hroom : ([2] : Bytes).length ≤ (List.replicate 64 (0 : Byte)).length ∧ 60 < (List.replicate 64 (0 : Byte)).length := by
    decide
  refine List.forall_mem_append.mpr ⟨fun call hcall => ?_, ?_⟩
  · obtain ⟨k, -, rfl⟩ := List.mem_map.mp hcall
    exact ⟨Nat.one_le_ofNat, by rw [hlen]; exact le_rfl⟩
  · simp only [List.forall_mem_cons]
    exact ⟨trivial, trivial, trivial, hroom, hroom.2.le, ⟨Nat.one_le_ofNat, by decide⟩, trivial, List.forall_mem_nil _⟩

set_option maxRecDepth 20000 in
/-- Both scans pass the border between the leaves. -/
theorem runs_as_map_tall :
    let payload : Bytes := List.replicate 399 0
    answers (HeadedCall.step 52) tallCalls empty = List.replicate 10 .inserted ++
        [.found (some payload), .removed true, .found none, .scanned ([[2], [4], [5], [6]].map fun k => (k, payload)),
          .scanned ([[8], [7], [6], [5], [4], [2]].map fun k => (k, payload)), .inserted, .found (some [5])] ∧
      (final (HeadedCall.step 52) tallCalls empty).toOption.map HeadedTree.height = some 1 := by
  intro payload
  obtain ⟨hanswers, -⟩ := runs_as_map tallCalls_within (show 3 * tallCalls.length < 52 by decide)
  exact ⟨hanswers.trans rfl, by decide +kernel⟩

end HeadedTree

end BtreeRedis
