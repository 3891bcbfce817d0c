import BtreeRedis.Lib.Machine
import BtreeRedis.Tree.Represented

/-!
# Runs of the tree against a map

The purpose of the tree is a map from byte strings to byte strings. A run of calls is
answered as the map answers it for as long as its calls return, provided that the boundary
of every dense leaf that is split is in range.
-/

namespace BtreeRedis

open LexOrder SortedAssoc

inductive Op
  | insert (key payload : Bytes)
  | remove (key : Bytes)
  | lookup (key : Bytes)

inductive Answer
  | inserted
  | removed (found : Bool)
  | found (payload : Option Bytes)
  deriving DecidableEq

abbrev KeyMap := Bytes → Option Bytes

namespace KeyMap

def empty : KeyMap := fun _ => none

def perform : Op → KeyMap → Except Fault (Answer × KeyMap)
  | .insert key payload, m => .ok (.inserted, Function.update m key (some payload))
  | .remove key, m => .ok (.removed (m key).isSome, Function.update m key none)
  | .lookup key, m => .ok (.found (m key), m)

/-- Only absent keys are inserted, and only entries that fit. -/
def Admits : Op → KeyMap → Prop
  | .insert key payload, m => m key = none ∧ key.length + payload.length ≤ maxKVSize
  | _, _ => True

instance : (op : Op) → (m : KeyMap) → Decidable (Admits op m)
  | .insert _ _, _ => inferInstanceAs (Decidable (_ ∧ _))
  | .remove _, _ => inferInstanceAs (Decidable True)
  | .lookup _, _ => inferInstanceAs (Decidable True)

end KeyMap

namespace BTree

def perform (enableDense : Bool) (fuel : ℕ) : Op → BTree → Except Fault (Answer × BTree)
  | .insert key payload, t => do
    let t ← insertImpl enableDense key payload fuel t
    pure (.inserted, t)
  | .remove key, t => do
    let (found, t) ← t.removeImpl key
    pure (.removed found, t)
  | .lookup key, t => do
    let payload ← t.lookupImpl key
    pure (.found payload, t)

structure Denotes (enableDense : Bool) (t : BTree) (m : KeyMap) : Prop where
  inv : t.Inv enableDense
  lookup : ∀ key, t.entries.lookup key = m key

variable {enableDense : Bool} {t t' : BTree} {m : KeyMap} {key payload : Bytes}

theorem empty_denotes : Denotes enableDense empty KeyMap.empty := ⟨empty_inv, fun _ => rfl⟩

namespace Denotes

theorem mem_iff (h : Denotes enableDense t m) : key ∈ keys t.entries ↔ (m key).isSome = true := by
  rw [← h.lookup, lookup_isSome]

theorem insert (h : Denotes enableDense t m) (hinv : t'.Inv enableDense)
    (hins : Inserted key payload t.entries t'.entries) :
    Denotes enableDense t' (Function.update m key (some payload)) := by
  refine ⟨hinv, fun l => ?_⟩
  rw [hins.lookup hinv.ascending, Function.update_apply, h.lookup]
  split_ifs <;> rfl

theorem remove (h : Denotes enableDense t m) {found : Bool}
    (hrem : Removing (t'.Inv enableDense) key t.entries t'.entries found) :
    found = (m key).isSome ∧ Denotes enableDense t' (Function.update m key none) := by
  have hfound : found = (m key).isSome := by
    rw [Bool.eq_iff_iff, hrem.found_iff, h.mem_iff]
  refine ⟨hfound, hrem.inv, fun l => ?_⟩
  cases found with
  | true =>
    rw [(hrem.done rfl).lookup h.inv.ascending, Function.update_apply, h.lookup]
    split_ifs <;> rfl
  | false =>
    rw [hrem.absent rfl, h.lookup, Function.update_apply]
    split_ifs with hl
    · rw [hl]
      exact Option.isNone_iff_eq_none.mp (by rw [← Option.not_isSome, ← hfound]; rfl)
    · rfl

end Denotes

def GuardedBy (guard : Bytes → Bytes → BTree → Prop) : Op → BTree → Prop
  | .insert key payload, t => guard key payload t
  | _, _ => True

instance (guard : Bytes → Bytes → BTree → Prop) [∀ key payload t, Decidable (guard key payload t)] :
    (op : Op) → (t : BTree) → Decidable (GuardedBy guard op t)
  | .insert key payload, t => inferInstanceAs (Decidable (guard key payload t))
  | .remove _, _ => isTrue trivial
  | .lookup _, _ => isTrue trivial

theorem GuardedBy.mono {guard guard' : Bytes → Bytes → BTree → Prop}
    (h : ∀ key payload t, guard key payload t → guard' key payload t) :
    (op : Op) → (t : BTree) → GuardedBy guard op t → GuardedBy guard' op t
  | .insert key payload, t, hg => h key payload t hg
  | .remove _, _, _ => trivial
  | .lookup _, _, _ => trivial

theorem perform_spec {fuel : ℕ} {op : Op} {a : Answer} (h : Denotes enableDense t m)
    (hguard : GuardedBy (BoundariesOk enableDense) op t) (hop : KeyMap.Admits op m)
    (hr : perform enableDense fuel op t = .ok (a, t')) :
    ∃ m', KeyMap.perform op m = .ok (a, m') ∧ Denotes enableDense t' m' := by
  cases op with
  | insert key payload =>
    simp only [perform, bind_eq_ok, pure_eq_ok, Prod.mk.injEq] at hr
    obtain ⟨t₁, ht, rfl, rfl⟩ := hr
    have hnew : key ∉ keys t.entries := by
      rw [h.mem_iff, hop.1]
      exact Bool.false_ne_true
    obtain ⟨hinv, hins⟩ := insertImpl_spec fuel h.inv hnew hguard ht
    exact ⟨_, rfl, h.insert hinv hins⟩
  | remove key =>
    obtain ⟨found, t₁, ht, hrem⟩ := removeImpl_spec h.inv key
    simp only [perform, ht, ok_bind, pure_eq_ok, Prod.mk.injEq] at hr
    obtain ⟨rfl, rfl⟩ := hr
    obtain ⟨rfl, hden⟩ := h.remove hrem
    exact ⟨_, rfl, hden⟩
  | lookup key =>
    simp only [perform, lookupImpl_spec h.inv, ok_bind, pure_eq_ok, Prod.mk.injEq] at hr
    obtain ⟨rfl, rfl⟩ := hr
    exact ⟨m, by rw [h.lookup]; rfl, h⟩

/-- Calls on a tree that starts empty are answered as the map answers them, if every insertion
starts each of its rounds where a dense leaf that it splits has its boundary in range. -/
theorem answers_eq_map (fuel : ℕ) (ops : List Op)
    (hops : Machine.Along KeyMap.perform KeyMap.Admits ops KeyMap.empty)
    (hguard : Machine.Along (perform true fuel) (GuardedBy (BoundariesOk true)) ops empty) :
    Machine.answers (perform true fuel) ops empty <+: Machine.answers KeyMap.perform ops KeyMap.empty := by
  have hsim : ∀ op t m a t', Denotes true t m → GuardedBy (BoundariesOk true) op t → KeyMap.Admits op m →
      perform true fuel op t = .ok (a, t') → ∃ m', KeyMap.perform op m = .ok (a, m') ∧ Denotes true t' m' :=
    fun _ _ _ _ _ h hg ho hr => perform_spec h hg ho hr
  exact Machine.answers_prefix hsim ops empty_denotes hguard hops

/-- The fourth key makes the leaf dense, and the two behind it split it twice. `03 01` makes the middle leaf basic
again, and the second removal merges the first one with it. -/
def changingOps : List Op :=
  [.insert [0] kilobyte, .insert [1] kilobyte, .insert [2] kilobyte, .insert [3] kilobyte, .insert [4] kilobyte,
    .insert [8] kilobyte, .insert [3, 1] [7], .lookup [3, 1], .remove [0], .remove [1], .lookup [1], .lookup [3],
    .insert [1] [5], .lookup [1]]

theorem answers_eq_map_changing : Machine.answers (perform true 4) changingOps empty <+:
      Machine.answers KeyMap.perform changingOps KeyMap.empty ∧
    (Machine.answers (perform true 4) changingOps empty).length = changingOps.length := by
  have hrounds : Machine.Along (perform true 4)
      (GuardedBy fun key payload => Rounds true key payload (BoundaryOk true key payload) 4) changingOps empty := by
    decide +kernel
  refine ⟨answers_eq_map 4 changingOps (by decide +kernel) (hrounds.mono (GuardedBy.mono fun _ _ _ => .of_rounds)), ?_⟩
  decide +kernel

/-- The third key of the second leaf is not found any more after the leaf, densified for
`01 00000000`, has been split: its four array slots end beyond `FFFFFFFF`. -/
def wrappingOps : List Op :=
  [.insert [0, 0, 0, 0, 0] kilobyte, .insert [0, 255, 255, 255, 252] kilobyte,
    .insert [0, 255, 255, 255, 253] kilobyte, .insert [0, 255, 255, 255, 254] kilobyte,
    .insert [0, 255, 255, 255, 255] kilobyte, .insert [1, 0, 0, 0, 0] kilobyte,
    .lookup [0, 255, 255, 255, 253]]

theorem wrapping_answers :
    Machine.Along KeyMap.perform KeyMap.Admits wrappingOps KeyMap.empty ∧
      ¬ Machine.answers (perform true 4) wrappingOps empty <+:
        Machine.answers KeyMap.perform wrappingOps KeyMap.empty := by
  decide +kernel

end BTree

end BtreeRedis
