import BtreeRedis.Server.ArgParsing
import BtreeRedis.Server.Store

/-!
# What the commands do to the store

For each command, when its operations return and what they then have done to the map,
as a function of the arguments. The loops over argument lists work through a list of
writes or removals that the arguments alone determine.
-/

namespace BtreeRedis

open SortedAssoc Decimal ApiImpl CommandContext

section States
variable {σ ε α β : Type} {f : StateT σ (Except ε) α} {x : Except ε α}
  {g : α → StateT σ (Except ε) β} {s s' : σ} {b : β}

theorem state_bind_eq_ok :
    (f >>= g) s = .ok (b, s') ↔ ∃ a t, f s = .ok (a, t) ∧ g a t = .ok (b, s') := by
  change (f s >>= fun p => g p.1 p.2) = _ ↔ _
  rw [bind_eq_ok]
  exact ⟨fun ⟨⟨a, t⟩, hf, hg⟩ => ⟨a, t, hf, hg⟩, fun ⟨a, t, hf, hg⟩ => ⟨(a, t), hf, hg⟩⟩

theorem state_lift_eq_ok {a : α} :
    (liftM x : StateT σ (Except ε) α) s = .ok (a, s') ↔ x = .ok a ∧ s' = s := by
  cases x with
  | error e => exact ⟨fun h => (nomatch h), fun h => (nomatch h.1)⟩
  | ok c =>
    constructor
    · intro h
      obtain ⟨rfl, rfl⟩ := Prod.mk.inj (Except.ok.inj h)
      exact ⟨rfl, rfl⟩
    · rintro ⟨h, rfl⟩
      rw [Except.ok.inj h]
      rfl

theorem state_lift_bind_eq_ok :
    ((liftM x : StateT σ (Except ε) α) >>= g) s = .ok (b, s') ↔ ∃ a, x = .ok a ∧ g a s = .ok (b, s') := by
  simp only [state_bind_eq_ok, state_lift_eq_ok]
  exact ⟨fun ⟨a, t, ⟨hx, ht⟩, hg⟩ => ⟨a, hx, ht ▸ hg⟩, fun ⟨a, hx, hg⟩ => ⟨a, s, ⟨hx, rfl⟩, hg⟩⟩

theorem state_pure_eq_ok {a : α} {r : α} :
    (pure a : StateT σ (Except ε) α) s = .ok (r, s') ↔ r = a ∧ s' = s :=
  ⟨fun h => by obtain ⟨rfl, rfl⟩ := Prod.mk.inj (Except.ok.inj h); exact ⟨rfl, rfl⟩,
    fun ⟨hr, hs⟩ => by subst hr hs; rfl⟩

end States

def RespValue.str (v : RespValue) : Bytes := v.getAsString.getD []

theorem deref_str {v : RespValue} {s : Bytes} :
    deref v.getAsString = .ok s ↔ v.getAsString ≠ none ∧ s = v.str := by
  rw [deref_eq_ok, RespValue.str]
  cases v.getAsString with
  | none => simp
  | some t => simp [eq_comm]

def bulk (s : Bytes) : RespValue := .bulkString (some s)

def StringArgs (args : List RespValue) : Prop := ∀ arg ∈ args, arg.getAsString ≠ none

def pairs : List RespValue → List (Bytes × Bytes)
  | [] => []
  | [_] => []
  | key :: val :: kvPairs => (key.str, val.str) :: pairs kvPairs

def zeroScore (score : RespValue) : Bool := score.getAsString = some (bytes "0")

def members : List RespValue → List (Bytes × Bytes)
  | [] => []
  | [_] => []
  | score :: val :: scorePairs => if zeroScore score then (val.str, []) :: members scorePairs else []

def allZero : List RespValue → Bool
  | [] => true
  | [score] => zeroScore score
  | score :: _ :: scorePairs => zeroScore score && allZero scorePairs

def ScoredStrings : List RespValue → Prop
  | [] => True
  | [score] => score.getAsString ≠ none
  | score :: val :: scorePairs => score.getAsString ≠ none ∧
      (zeroScore score = true → val.getAsString ≠ none ∧ ScoredStrings scorePairs)

def keysOf : List RespValue → List Bytes
  | [] => []
  | arg :: args => if arg.getAsString = none then [] else arg.str :: keysOf args

def readCounter : Option Bytes → Except ServerFault (Option ℤ)
  | none => .ok (some 0)
  | some val => ArgParsing.parseIntStrict val

namespace ApiImpl
variable {fuel : ℕ} {s s' : Server} {m : KeyMap} {key val : Bytes}

theorem set_eq_ok : set fuel key val s = .ok ((), s') ↔ Stored fuel noGuard [(key, val)] s s' := by
  rw [stored_cons]
  constructor
  · exact fun h => ⟨s', h, .nil s'⟩
  · rintro ⟨t, ht, hs⟩
    rwa [stored_nil.mp hs]

theorem mset_eq_ok : (args : List RespValue) → {s s' : Server} →
    (mset fuel args s = .ok ((), s') ↔ StringArgs args ∧ Stored fuel noGuard (pairs args) s s')
  | [], s, s' => by
    rw [mset, state_pure_eq_ok, pairs, stored_nil]
    simp [StringArgs]
  | [key], s, s' => by
    simp only [mset, state_bind_eq_ok, state_lift_eq_ok, deref_str, state_pure_eq_ok, pairs,
      stored_nil, StringArgs, List.mem_singleton, forall_eq, true_and]
    constructor
    · rintro ⟨_, t, ⟨⟨hk, -⟩, rfl⟩, rfl⟩
      exact ⟨hk, rfl⟩
    · rintro ⟨hk, rfl⟩
      exact ⟨_, _, ⟨⟨hk, rfl⟩, rfl⟩, rfl⟩
  | key :: val :: kvPairs, s, s' => by
    have ih : ∀ t, mset fuel kvPairs t = .ok ((), s') ↔
        StringArgs kvPairs ∧ Stored fuel noGuard (pairs kvPairs) t s' := fun t => mset_eq_ok kvPairs
    simp only [mset, state_bind_eq_ok, state_lift_eq_ok, deref_str, ih, pairs, stored_cons, StringArgs,
      List.forall_mem_cons]
    constructor
    · rintro ⟨_, t, ⟨⟨hk, rfl⟩, rfl⟩, _, t, ⟨⟨hv, rfl⟩, rfl⟩, _, t, hset, hargs, hs⟩
      exact ⟨⟨hk, hv, hargs⟩, t, hset, hs⟩
    · rintro ⟨⟨hk, hv, hargs⟩, t, hset, hs⟩
      exact ⟨_, _, ⟨⟨hk, rfl⟩, rfl⟩, _, _, ⟨⟨hv, rfl⟩, rfl⟩, _, t, hset, hargs, hs⟩

theorem zeroScore_iff {score : RespValue} :
    zeroScore score = true ↔ score.getAsString ≠ none ∧ score.str = bytes "0" := by
  rw [zeroScore, decide_eq_true_eq, RespValue.str]
  cases score.getAsString <;> simp

theorem zaddLoop_eq_ok : (args : List RespValue) → {done : Bool} → {s s' : Server} →
    (zaddLoop fuel args s = .ok (done, s') ↔
      ScoredStrings args ∧ done = allZero args ∧ Stored fuel noGuard (members args) s s')
  | [], done, s, s' => by
    rw [zaddLoop, state_pure_eq_ok, members, stored_nil]
    simp [ScoredStrings, allZero]
  | [score], done, s, s' => by
    simp only [zaddLoop, state_bind_eq_ok, state_lift_eq_ok, deref_str, state_pure_eq_ok, members,
      stored_nil, ScoredStrings, allZero]
    constructor
    · rintro ⟨_, t, ⟨⟨hk, rfl⟩, rfl⟩, rfl, rfl⟩
      refine ⟨hk, ?_, rfl⟩
      rw [Bool.eq_iff_iff, zeroScore_iff, decide_eq_true_eq]
      exact ⟨fun h => ⟨hk, h⟩, And.right⟩
    · rintro ⟨hk, rfl, rfl⟩
      refine ⟨_, _, ⟨⟨hk, rfl⟩, rfl⟩, ?_, rfl⟩
      rw [Bool.eq_iff_iff, zeroScore_iff, decide_eq_true_eq]
      exact ⟨And.right, fun h => ⟨hk, h⟩⟩
  | score :: val :: scorePairs, done, s, s' => by
    have ih : ∀ t, zaddLoop fuel scorePairs t = .ok (done, s') ↔ ScoredStrings scorePairs ∧
        done = allZero scorePairs ∧ Stored fuel noGuard (members scorePairs) t s' := fun t =>
      zaddLoop_eq_ok scorePairs
    simp only [zaddLoop, state_bind_eq_ok, state_lift_eq_ok, deref_str, ScoredStrings, allZero, members]
    by_cases hz : zeroScore score = true
    · obtain ⟨hsc, hstr⟩ := zeroScore_iff.mp hz
      simp only [hz, Bool.true_and, if_true, forall_const]
      rw [stored_cons]
      constructor
      · rintro ⟨_, _, ⟨⟨-, rfl⟩, rfl⟩, h⟩
        rw [if_neg (not_not.mpr hstr)] at h
        simp only [state_bind_eq_ok, state_lift_eq_ok, deref_str, ih] at h
        obtain ⟨_, _, ⟨⟨hv, rfl⟩, rfl⟩, found, t, hr, _, t', hi, hargs, hdone, hs⟩ := h
        exact ⟨⟨hsc, hv, hargs⟩, hdone, t', state_bind_eq_ok.mpr ⟨found, t, hr, hi⟩, hs⟩
      · rintro ⟨⟨-, hv, hargs⟩, hdone, t', hset, hs⟩
        obtain ⟨found, t, hr, hi⟩ := state_bind_eq_ok.mp hset
        refine ⟨_, _, ⟨⟨hsc, rfl⟩, rfl⟩, ?_⟩
        rw [if_neg (not_not.mpr hstr)]
        simp only [state_bind_eq_ok, state_lift_eq_ok, deref_str, ih]
        exact ⟨_, _, ⟨⟨hv, rfl⟩, rfl⟩, found, t, hr, _, t', hi, hargs, hdone, hs⟩
    · simp only [hz, Bool.false_and, if_false, stored_nil, false_implies, and_true, Bool.false_eq_true]
      constructor
      · rintro ⟨_, _, ⟨⟨hsc, rfl⟩, rfl⟩, h⟩
        rw [if_pos fun hstr => hz (zeroScore_iff.mpr ⟨hsc, hstr⟩)] at h
        exact ⟨hsc, state_pure_eq_ok.mp h⟩
      · rintro ⟨hsc, hdone⟩
        refine ⟨_, _, ⟨⟨hsc, rfl⟩, rfl⟩, ?_⟩
        rw [if_pos fun hstr => hz (zeroScore_iff.mpr ⟨hsc, hstr⟩)]
        exact state_pure_eq_ok.mpr hdone

theorem mget_eq_ok (h : s.Denotes m) : (args : List RespValue) → {vals : List (Option Bytes)} →
    (mget args s = .ok (vals, s') ↔
      StringArgs args ∧ vals = args.map (fun arg => m arg.str) ∧ s' = s)
  | [], vals => by
    rw [mget, state_pure_eq_ok]
    simp [StringArgs]
  | key :: keys, vals => by
    have ih : ∀ vals, mget keys s = .ok (vals, s') ↔
        StringArgs keys ∧ vals = keys.map (fun arg => m arg.str) ∧ s' = s := fun vals => mget_eq_ok h keys
    simp only [mget, state_bind_eq_ok, state_lift_eq_ok, deref_str, state_pure_eq_ok, StringArgs,
      List.forall_mem_cons, List.map_cons]
    constructor
    · rintro ⟨_, t, ⟨⟨hk, rfl⟩, rfl⟩, _, t, hget, vals', t', hmget, rfl, rfl⟩
      obtain ⟨rfl, rfl⟩ := Prod.mk.inj (Except.ok.inj (hget.symm.trans (get_spec h _)))
      obtain ⟨hargs, rfl, rfl⟩ := (ih vals').mp hmget
      exact ⟨⟨hk, hargs⟩, rfl, rfl⟩
    · rintro ⟨⟨hk, hargs⟩, rfl, rfl⟩
      exact ⟨_, _, ⟨⟨hk, rfl⟩, rfl⟩, _, _, get_spec h _, _, _, (ih _).mpr ⟨hargs, rfl, rfl⟩, rfl, rfl⟩

theorem increment_eq (h : s.Denotes m) (amount : ℤ) :
    increment fuel key amount s = ((liftM (readCounter (m key)) : Api (Option ℤ)) >>= fun
      | none => pure none
      | some intVal => do
        let intVal ← checked (intVal + amount)
        let _ ← removeImpl key
        insertImpl fuel key (signedText intVal)
        pure (some intVal)) s := by
  have hget : ∀ k : Option Bytes → Api (Option ℤ), (get key >>= k) s = k (m key) s := by
    intro k
    change (get key s >>= fun p => k p.1 p.2) = _
    rw [get_spec h key]
    rfl
  rw [increment, hget]
  cases m key <;> rfl

theorem increment_eq_ok (h : s.Denotes m) {amount : ℤ} {result : Option ℤ} :
    increment fuel key amount s = .ok (result, s') ↔
      (readCounter (m key) = .ok none ∧ result = none ∧ s' = s) ∨
      ∃ n, readCounter (m key) = .ok (some n) ∧ InInt64 (n + amount) ∧ result = some (n + amount) ∧
        Stored fuel noGuard [(key, signedText (n + amount))] s s' := by
  rw [increment_eq h, state_lift_bind_eq_ok]
  constructor
  · rintro ⟨x, hx, hr⟩
    cases x with
    | none => exact Or.inl ⟨hx, state_pure_eq_ok.mp hr⟩
    | some n =>
      simp only [state_bind_eq_ok, state_lift_eq_ok, checked_eq_ok, state_pure_eq_ok] at hr
      obtain ⟨_, t, ⟨⟨hin, rfl⟩, rfl⟩, found, t₁, hrem, _, t₂, hins, rfl, rfl⟩ := hr
      exact Or.inr ⟨n, hx, hin, rfl, .cons hrem trivial hins (.nil _)⟩
  · rintro (⟨hx, rfl, rfl⟩ | ⟨n, hx, hin, rfl, hs⟩)
    · exact ⟨none, hx, state_pure_eq_ok.mpr ⟨rfl, rfl⟩⟩
    · refine ⟨some n, hx, ?_⟩
      obtain ⟨t, hset, hnil⟩ := stored_cons.mp hs
      obtain rfl := stored_nil.mp hnil
      obtain ⟨found, t₁, hrem, hins⟩ := state_bind_eq_ok.mp hset
      simp only [state_bind_eq_ok, state_lift_eq_ok, checked_eq_ok, state_pure_eq_ok]
      exact ⟨_, _, ⟨⟨hin, rfl⟩, rfl⟩, found, t₁, hrem, (), _, hins, rfl, rfl⟩

end ApiImpl

end BtreeRedis
