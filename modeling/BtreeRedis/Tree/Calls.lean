import BtreeRedis.Tree.Remove

/-!
# Calls and reachable trees

A call inserts an absent key or removes a key. What is asked of the insertions of a run, beyond
that they return, is a parameter, since the default build needs more than the one without dense
leaves.
-/

namespace BtreeRedis

open LexOrder SortedAssoc

inductive Call
  | insert (key payload : Bytes)
  | remove (key : Bytes)

def Call.Effect (es es' : List (Bytes × Bytes)) : Call → Prop
  | .insert key payload => Inserted key payload es es'
  | .remove key => (key ∈ keys es ∧ Removed key es es') ∨ (key ∉ keys es ∧ es' = es)

namespace BTree

inductive Calls (enableDense : Bool) (guard : Bytes → Bytes → BTree → Prop) : BTree → Call → BTree → Prop
  | insert {t t' : BTree} {key payload : Bytes} {fuel : ℕ} : key ∉ keys t.entries → guard key payload t →
      insertImpl enableDense key payload fuel t = .ok t' →
      Calls enableDense guard t (.insert key payload) t'
  | remove {t t' : BTree} {key : Bytes} {found : Bool} :
      t.removeImpl key = .ok (found, t') → Calls enableDense guard t (.remove key) t'

inductive Reachable (enableDense : Bool) (guard : Bytes → Bytes → BTree → Prop) : BTree → Prop
  | empty : Reachable enableDense guard empty
  | call {t t' : BTree} {c : Call} : Reachable enableDense guard t → Calls enableDense guard t c t' →
      Reachable enableDense guard t'

def Sufficient (enableDense : Bool) (guard : Bytes → Bytes → BTree → Prop) : Prop :=
  ∀ key payload t, t.Inv enableDense → key ∉ keys t.entries → key.length + payload.length ≤ maxKVSize →
    guard key payload t → t.BoundariesOk enableDense key payload

variable {enableDense : Bool} {guard : Bytes → Bytes → BTree → Prop} {t t' : BTree} {key payload : Bytes}

theorem length_le_of_insertImpl {fuel : ℕ} (h : insertImpl enableDense key payload fuel t = .ok t') :
    key.length + payload.length ≤ maxKVSize := by
  cases fuel with
  | zero => cases h
  | succ fuel =>
    simp only [insertImpl, bind_eq_ok, ensure_eq_ok, exists_const] at h
    exact h.1

theorem Calls.spec (hg : Sufficient enableDense guard) {c : Call} (h : t.Inv enableDense)
    (hc : Calls enableDense guard t c t') : t'.Inv enableDense ∧ c.Effect t.entries t'.entries := by
  cases hc with
  | @insert _ key payload fuel hnew hguard hr =>
    exact insertImpl_spec fuel h hnew (hg key payload t h hnew (length_le_of_insertImpl hr) hguard) hr
  | @remove _ key found hr =>
    obtain ⟨found', t₁, hr', hrem⟩ := removeImpl_spec h key
    rw [hr] at hr'
    obtain ⟨rfl, rfl⟩ := Prod.mk.inj (Except.ok.inj hr')
    refine ⟨hrem.inv, ?_⟩
    cases found with
    | true => exact Or.inl ⟨hrem.found_iff.mp rfl, hrem.done rfl⟩
    | false => exact Or.inr ⟨fun hm => absurd (hrem.found_iff.mpr hm) Bool.false_ne_true, hrem.absent rfl⟩

/-- Calls one after another, the insertions of absent keys and where `G` holds. -/
def run (enableDense : Bool) (fuel : ℕ) (G : Bytes → Bytes → BTree → Prop) [∀ key payload t, Decidable (G key payload t)] :
    List Call → BTree → Except Fault BTree
  | [], t => pure t
  | .insert key payload :: calls, t => do
    ensure (key ∉ keys t.entries ∧ G key payload t) .assertion
    let t ← insertImpl enableDense key payload fuel t
    run enableDense fuel G calls t
  | .remove key :: calls, t => do
    let (_, t) ← t.removeImpl key
    run enableDense fuel G calls t

theorem Reachable.run {G : Bytes → Bytes → BTree → Prop} [∀ key payload t, Decidable (G key payload t)]
    (hG : ∀ key payload t, G key payload t → guard key payload t) {calls : List Call} {fuel : ℕ} {t t' : BTree}
    (h : Reachable enableDense guard t) (ht : BTree.run enableDense fuel G calls t = .ok t') :
    Reachable enableDense guard t' := by
  induction calls generalizing t with
  | nil =>
    cases ht
    exact h
  | cons c calls ih =>
    cases c with
    | insert key payload =>
      simp only [BTree.run, bind_eq_ok, ensure_eq_ok, exists_const] at ht
      obtain ⟨⟨hnew, hg⟩, t₁, h₁, ht⟩ := ht
      exact ih (h.call (.insert hnew (hG _ _ _ hg) h₁)) ht
    | remove key =>
      simp only [BTree.run, bind_eq_ok, Prod.exists] at ht
      obtain ⟨found, t₁, h₁, ht⟩ := ht
      exact ih (h.call (.remove h₁)) ht

def runReaches (enableDense : Bool) (fuel : ℕ) (G : Bytes → Bytes → BTree → Prop)
    [∀ key payload t, Decidable (G key payload t)] (calls : List Call) (check : BTree → Bool) : Bool :=
  Outcome.passes check (run enableDense fuel G calls empty)

theorem runReaches_spec {G : Bytes → Bytes → BTree → Prop} [∀ key payload t, Decidable (G key payload t)]
    (hG : ∀ key payload t, G key payload t → guard key payload t) {fuel : ℕ} {calls : List Call}
    {check : BTree → Bool} (h : runReaches enableDense fuel G calls check = true) :
    ∃ t, Reachable enableDense guard t ∧ check t = true := by
  obtain ⟨t, ht, hc⟩ := Outcome.passes_iff.mp h
  exact ⟨t, Reachable.empty.run hG ht, hc⟩

def reaches (enableDense : Bool) (fuel : ℕ) (es : List (Bytes × Bytes)) (check : BTree → Bool) : Bool :=
  runReaches enableDense fuel (fun _ _ _ => True) (es.map fun e => .insert e.1 e.2) check

theorem reaches_spec {fuel : ℕ} {es : List (Bytes × Bytes)} {check : BTree → Bool}
    (h : reaches enableDense fuel es check = true) :
    ∃ t, Reachable enableDense (fun _ _ _ => True) t ∧ check t = true :=
  runReaches_spec (fun _ _ _ => id) h

def kilobyte : Bytes := List.replicate 1000 0

theorem length_kilobyte : kilobyte.length = 1000 := List.length_replicate

theorem Reachable.inv (hg : Sufficient enableDense guard) (h : Reachable enableDense guard t) :
    t.Inv enableDense := by
  induction h with
  | empty => exact empty_inv
  | call _ hc ih => exact (hc.spec hg ih).1

end BTree

end BtreeRedis
