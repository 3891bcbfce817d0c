import BtreeRedis.Server.Replies
import BtreeRedis.Tree.Progress
import BtreeRedis.Tree.Runs

/-!
# The store behind the commands

A server stands for a map from keys to values. The operations behind the commands are
described by what they do to that map: `Stored` is a sequence of writes that return,
and removals always return. Writes keep the map right as long as no dense leaf that
they split has its boundary out of range.
-/

namespace BtreeRedis

open SortedAssoc Decimal

namespace KeyMap

def set (m : KeyMap) (key val : Bytes) : KeyMap := Function.update m key (some val)

def erase (m : KeyMap) (key : Bytes) : KeyMap := Function.update m key none

def setAll (m : KeyMap) (es : List (Bytes × Bytes)) : KeyMap := es.foldl (fun m e => m.set e.1 e.2) m

def eraseAll (m : KeyMap) (ks : List Bytes) : KeyMap := ks.foldl erase m

/-- How many of the keys are there when their turn to be erased comes. -/
def countErased (m : KeyMap) : List Bytes → ℕ
  | [] => 0
  | k :: ks => (if (m k).isSome then 1 else 0) + countErased (m.erase k) ks

theorem set_same (m : KeyMap) (key val : Bytes) : m.set key val key = some val :=
  Function.update_self ..

theorem set_erase (m : KeyMap) (key val : Bytes) : (m.erase key).set key val = m.set key val :=
  Function.update_idem ..

theorem erase_absent {m : KeyMap} {key : Bytes} (h : m key = none) : m.erase key = m :=
  Function.update_eq_self_iff.mpr h.symm

end KeyMap

/-- The server holds the entries of the map, and its buffer has its size. -/
structure Server.Denotes (s : Server) (m : KeyMap) : Prop where
  btree : s.btree.Denotes true m
  buffer : s.keyOut.length = keyOutSize

theorem Server.start_denotes : Server.start.Denotes KeyMap.empty :=
  ⟨BTree.empty_denotes, List.length_replicate⟩

theorem tree_eq_ok {α : Type} {x : Except Fault α} {a : α} : tree x = .ok a ↔ x = .ok a := by
  cases x <;> simp [tree]

/-- What is asked of an insertion, beyond that it returns. -/
abbrev Guard := Bytes → Bytes → BTree → Prop

def noGuard : Guard := fun _ _ _ => True

namespace ApiImpl

/-- Writes of the entries one after another, each a removal and an insertion that return. -/
inductive Stored (fuel : ℕ) (G : Guard) : List (Bytes × Bytes) → Server → Server → Prop
  | nil (s : Server) : Stored fuel G [] s s
  | cons {key val : Bytes} {es : List (Bytes × Bytes)} {found : Bool} {s s₁ s₂ s₃ : Server} :
      removeImpl key s = .ok (found, s₁) → G key val s₁.btree →
      insertImpl fuel key val s₁ = .ok ((), s₂) → Stored fuel G es s₂ s₃ →
      Stored fuel G ((key, val) :: es) s s₃

variable {fuel : ℕ} {G : Guard} {s s' : Server} {m : KeyMap} {key val : Bytes}
  {es es' : List (Bytes × Bytes)}

theorem get_spec (h : s.Denotes m) (key : Bytes) : get key s = .ok (m key, s) := by
  rw [get, BTree.lookupImpl_spec h.btree.inv, h.btree.lookup]
  rfl

theorem removeImpl_spec (h : s.Denotes m) (key : Bytes) :
    ∃ s', removeImpl key s = .ok ((m key).isSome, s') ∧ s'.Denotes (m.erase key) ∧
      s'.keyOut = s.keyOut ∧ (m key = none → s' = s) := by
  obtain ⟨found, t', hr, hrem⟩ := BTree.removeImpl_spec h.btree.inv key
  obtain ⟨hfound, hden⟩ := h.btree.remove hrem
  refine ⟨{ s with btree := t', free := if found then s.free.tail else s.free }, ?_, ⟨hden, h.buffer⟩, rfl, fun hn => ?_⟩
  · rw [removeImpl, hr, hfound]
    rfl
  · rw [hn] at hfound
    subst hfound
    rw [BTree.removeImpl_absent hr]
    rfl

theorem insertImpl_eq_ok :
    insertImpl fuel key val s = .ok ((), s') ↔
      ∃ t, BTree.insertImpl true key val fuel s.btree = .ok t ∧ s' = { s with btree := t, free := s.free.tail } := by
  simp only [insertImpl, bind_eq_ok, tree_eq_ok, pure_eq_ok, Prod.mk.injEq, true_and]
  constructor
  · rintro ⟨t, ht, he⟩
    exact ⟨t, ht, he.symm⟩
  · rintro ⟨t, ht, he⟩
    exact ⟨t, ht, he.symm⟩

theorem insertImpl_denotes (h : s.Denotes m) (hnew : m key = none)
    (hb : s.btree.BoundariesOk true key val) (hr : insertImpl fuel key val s = .ok ((), s')) :
    s'.Denotes (m.set key val) := by
  obtain ⟨t, ht, rfl⟩ := insertImpl_eq_ok.mp hr
  have hnot : key ∉ keys s.btree.entries := by
    rw [h.btree.mem_iff, hnew]
    exact Bool.false_ne_true
  obtain ⟨hinv, hins⟩ := BTree.insertImpl_spec fuel h.btree.inv hnot hb ht
  exact ⟨h.btree.insert hinv hins, h.buffer⟩

def Keeps (G : Guard) : Prop := ∀ key val t, G key val t → t.BoundariesOk true key val

theorem Stored.denotes (hG : Keeps G) (hs : Stored fuel G es s s') (h : s.Denotes m) :
    s'.Denotes (m.setAll es) := by
  induction hs generalizing m with
  | nil => exact h
  | @cons key val es found s s₁ s₂ s₃ hr hg hi _ ih =>
    obtain ⟨t, hr', hden, -, -⟩ := removeImpl_spec h key
    obtain ⟨-, rfl⟩ := Prod.mk.inj (Except.ok.inj (hr'.symm.trans hr))
    have hnew : m.erase key key = none := Function.update_self ..
    have hset := insertImpl_denotes hden hnew (hG key val _ hg) hi
    rw [KeyMap.set_erase] at hset
    exact ih hset

theorem Stored.append {s₁ : Server} (h : Stored fuel G es s s₁) (h' : Stored fuel G es' s₁ s') :
    Stored fuel G (es ++ es') s s' := by
  induction h with
  | nil => exact h'
  | cons hr hg hi _ ih => exact .cons hr hg hi (ih h')

theorem Stored.keyOut (h : Stored fuel G es s s') : s'.keyOut = s.keyOut := by
  induction h with
  | nil => rfl
  | @cons key val es found s s₁ s₂ s₃ hr hg hi _ ih =>
    obtain ⟨t, -, rfl⟩ := insertImpl_eq_ok.mp hi
    simp only [removeImpl, bind_eq_ok, pure_eq_ok, Prod.exists, Prod.mk.injEq] at hr
    obtain ⟨_, t₁, -, rfl, rfl⟩ := hr
    exact ih

theorem stored_nil : Stored fuel G [] s s' ↔ s' = s :=
  ⟨fun h => by cases h; rfl, fun h => by subst h; exact .nil _⟩

theorem stored_cons : Stored fuel noGuard ((key, val) :: es) s s' ↔
    ∃ s₁, set fuel key val s = .ok ((), s₁) ∧ Stored fuel noGuard es s₁ s' := by
  constructor
  · intro h
    cases h with
    | @cons _ _ _ found _ t₁ t₂ _ hr _ hi hs =>
      refine ⟨t₂, ?_, hs⟩
      change (removeImpl key s >>= fun p => insertImpl fuel key val p.2) = _
      rw [hr]
      exact hi
  · rintro ⟨s₁, hset, hs⟩
    change (removeImpl key s >>= fun p => insertImpl fuel key val p.2) = _ at hset
    rw [bind_eq_ok] at hset
    obtain ⟨⟨found, t₁⟩, hr, hi⟩ := hset
    exact .cons hr trivial hi hs

theorem Stored.mono {fuel' : ℕ} {G' : Guard} (hle : fuel ≤ fuel') (hG : ∀ key val t, G key val t → G' key val t)
    (h : Stored fuel G es s s') : Stored fuel' G' es s s' := by
  induction h with
  | nil => exact .nil _
  | cons hr hg hi _ ih =>
    obtain ⟨t, ht, hs⟩ := insertImpl_eq_ok.mp hi
    exact .cons hr (hG _ _ _ hg) (insertImpl_eq_ok.mpr ⟨t, BTree.insertImpl_mono hle ht, hs⟩) ih

/-- Each insertion of the writes that has an entry of an admissible size meets its conditions. -/
def Guarded : List (Bytes × Bytes) → Server → Prop
  | [], _ => True
  | (key, val) :: es, s => ∀ found s₁, removeImpl key s = .ok (found, s₁) →
      (key.length + val.length ≤ maxKVSize → s₁.btree.AdvancesOn key val) ∧
      ∀ fuel s₂, insertImpl fuel key val s₁ = .ok ((), s₂) → Guarded es s₂

def Fits (es : List (Bytes × Bytes)) : Prop := ∀ e ∈ es, e.1.length + e.2.length ≤ maxKVSize

instance (es : List (Bytes × Bytes)) : Decidable (Fits es) := inferInstanceAs (Decidable (∀ e ∈ es, _))

theorem insertImpl_fits (h : insertImpl fuel key val s = .ok ((), s')) :
    key.length + val.length ≤ maxKVSize := by
  obtain ⟨t, ht, -⟩ := insertImpl_eq_ok.mp h
  exact BTree.length_le_of_insertImpl ht

theorem Stored.fits (h : Stored fuel G es s s') : Fits es := by
  induction h with
  | nil => exact fun e he => absurd he List.not_mem_nil
  | cons hr hg hi _ ih => exact List.forall_mem_cons.mpr ⟨insertImpl_fits hi, ih⟩

theorem Stored.guarded (h : Stored fuel G es s s') (hg : Guarded es s) :
    Stored fuel (fun key val t => t.AdvancesOn key val) es s s' := by
  induction h with
  | nil => exact .nil _
  | cons hr _ hi _ ih =>
    obtain ⟨hadv, hrest⟩ := hg _ _ hr
    exact .cons hr (hadv (insertImpl_fits hi)) hi (ih (hrest _ _ hi))

theorem Stored.denotes_guarded (hs : Stored fuel G es s s') (hg : Guarded es s) (h : s.Denotes m) :
    s'.Denotes (m.setAll es) :=
  (hs.guarded hg).denotes (fun _ _ _ hadv => hadv.boundariesOk) h

theorem stored_of_guarded : (es : List (Bytes × Bytes)) → {s : Server} → {m : KeyMap} → s.Denotes m →
    Guarded es s → Fits es → ∃ fuel s', Stored fuel noGuard es s s'
  | [], s, _, _, _, _ => ⟨0, s, .nil s⟩
  | (key, val) :: es, s, m, h, hg, hfit => by
    obtain ⟨hsize, hfit⟩ := List.forall_mem_cons.mp hfit
    obtain ⟨s₁, hr, hden, -, -⟩ := removeImpl_spec h key
    obtain ⟨hadv, hrest⟩ := hg _ _ hr
    have hnew : m.erase key key = none := Function.update_self ..
    have hnot : key ∉ keys s₁.btree.entries := by
      rw [hden.btree.mem_iff, hnew]
      exact Bool.false_ne_true
    obtain ⟨fuel, t, ht⟩ := BTree.insertImpl_returns hden.btree.inv hnot hsize (hadv hsize)
    have hi := insertImpl_eq_ok.mpr ⟨t, ht, rfl⟩
    have hset := insertImpl_denotes hden hnew (hadv hsize).boundariesOk hi
    obtain ⟨fuel', s', hs⟩ := stored_of_guarded es hset (hrest _ _ hi) hfit
    refine ⟨max fuel fuel', s', .cons hr trivial ?_ (hs.mono (Nat.le_max_right ..) fun _ _ _ h => h)⟩
    exact insertImpl_eq_ok.mpr ⟨t, BTree.insertImpl_mono (Nat.le_max_left ..) ht, rfl⟩

theorem stored_iff (h : s.Denotes m) (hg : Guarded es s) :
    (∃ fuel s', Stored fuel noGuard es s s') ↔ Fits es :=
  ⟨fun ⟨_, _, hs⟩ => hs.fits, stored_of_guarded es h hg⟩

theorem start_guarded (key val : Bytes) : Guarded [(key, val)] Server.start := by
  intro found s₁ hr
  obtain ⟨t, hr', -, -, hsame⟩ := removeImpl_spec Server.start_denotes key
  obtain ⟨-, rfl⟩ := Prod.mk.inj (Except.ok.inj (hr.symm.trans hr'))
  rw [hsame rfl]
  exact ⟨fun hlen => BTree.empty_advancesOn hlen, fun _ _ _ => trivial⟩

def GuardedWithin (fuel : ℕ) : List (Bytes × Bytes) → Server → Prop
  | [], _ => True
  | (key, val) :: es, s => ∀ r, removeImpl key s = .ok r →
      BTree.Rounds true key val (BTree.Advances key val) fuel r.2.btree ∧
      ∀ r', insertImpl fuel key val r.2 = .ok r' → GuardedWithin fuel es r'.2

instance (fuel : ℕ) : (es : List (Bytes × Bytes)) → (s : Server) → Decidable (GuardedWithin fuel es s)
  | [], _ => isTrue trivial
  | (key, val) :: es, s =>
    have : (t : Server) → Decidable (GuardedWithin fuel es t) := instDecidableGuardedWithin fuel es
    inferInstanceAs (Decidable (∀ r, removeImpl key s = .ok r → _ ∧ ∀ r', insertImpl fuel key val r.2 = .ok r' → _))

theorem GuardedWithin.guarded {es : List (Bytes × Bytes)} {s : Server} (h : GuardedWithin fuel es s) : Guarded es s := by
  induction es generalizing s with
  | nil => trivial
  | cons e es ih =>
    obtain ⟨key, val⟩ := e
    intro found s₁ hr
    obtain ⟨hrounds, hrest⟩ := h _ hr
    refine ⟨fun _ => .of_rounds hrounds, fun fuel' s₂ hi => ih ?_⟩
    obtain ⟨t, ht, rfl⟩ := insertImpl_eq_ok.mp hi
    exact hrest ((), _) (insertImpl_eq_ok.mpr ⟨t, BTree.insertImpl_of_rounds hrounds ht, rfl⟩)

def storeAll (fuel : ℕ) : List (Bytes × Bytes) → Api Unit
  | [] => pure ()
  | (key, val) :: es => do
    set fuel key val
    storeAll fuel es

theorem storeAll_eq_ok {es : List (Bytes × Bytes)} {s s' : Server} :
    storeAll fuel es s = .ok ((), s') ↔ Stored fuel noGuard es s s' := by
  induction es generalizing s with
  | nil => exact ⟨fun h => stored_nil.mpr (Prod.mk.inj (Except.ok.inj h)).2.symm, fun h => stored_nil.mp h ▸ rfl⟩
  | cons e es ih =>
    obtain ⟨key, val⟩ := e
    rw [stored_cons]
    change (set fuel key val s >>= fun r => storeAll fuel es r.2) = _ ↔ _
    simp only [bind_eq_ok, Prod.exists, ih]
    constructor
    · rintro ⟨_, s₁, h⟩
      exact ⟨s₁, h⟩
    · rintro ⟨s₁, h⟩
      exact ⟨(), s₁, h⟩

def storeReaches (fuel : ℕ) (es : List (Bytes × Bytes)) (check : Server → Bool) : Bool :=
  decide (GuardedWithin fuel es Server.start) && Outcome.passes (fun r => check r.2) (storeAll fuel es Server.start)

theorem storeReaches_spec {es : List (Bytes × Bytes)} {P : Server → Prop} [DecidablePred P]
    (h : storeReaches fuel es (fun s => decide (P s)) = true) : ∃ s, s.Denotes (KeyMap.empty.setAll es) ∧ P s := by
  rw [storeReaches, Bool.and_eq_true, decide_eq_true_eq] at h
  obtain ⟨hg, h⟩ := h
  obtain ⟨⟨_, s⟩, hs, hc⟩ := Outcome.passes_iff.mp h
  have hstored := storeAll_eq_ok.mp hs
  exact ⟨s, hstored.denotes_guarded hg.guarded Server.start_denotes, of_decide_eq_true hc⟩

/-- Six keys over two leaves; the second value of `04` makes the right one basic. -/
def sixKeys : List (Bytes × Bytes) :=
  (List.range 6).map (fun k => ([Fin.ofNat 256 k], BTree.kilobyte)) ++ [([4], [7])]

theorem sixKeys_guarded : Guarded sixKeys Server.start := by
  have hwithin : GuardedWithin 4 sixKeys Server.start := by decide +kernel
  exact hwithin.guarded

theorem guarded_append {es es' : List (Bytes × Bytes)} {s : Server} (h : Guarded (es ++ es') s) :
    Guarded es s ∧ ∀ fuel s', Stored fuel noGuard es s s' → Guarded es' s' := by
  induction es generalizing s with
  | nil => exact ⟨trivial, fun fuel s' hs => stored_nil.mp hs ▸ h⟩
  | cons e es ih =>
    obtain ⟨key, val⟩ := e
    constructor
    · intro found s₁ hr
      obtain ⟨hadv, hrest⟩ := h found s₁ hr
      exact ⟨hadv, fun fuel s₂ hi => (ih (hrest fuel s₂ hi)).1⟩
    · intro fuel s' hs
      cases hs with
      | cons hr _ hi hs => exact (ih ((h _ _ hr).2 _ _ hi)).2 fuel s' hs

end ApiImpl

end BtreeRedis
