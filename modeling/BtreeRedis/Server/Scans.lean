import BtreeRedis.Server.Store
import BtreeRedis.Tree.Ascend

/-!
# Scans of the store

`zrange` collects the first keys that a scan emits in a static buffer. Keys and fences may
be longer than that buffer, and a dense leaf may fault on its own, so that the scan comes to
an end only where the leaves on the way fit.
-/

namespace BtreeRedis

open SortedAssoc ApiImpl

def BTree.keysFrom (t : BTree) (min : Bytes) : List Bytes := keys (t.entries.filter fun e => decide (min ≤ e.1))

/-- The leaves can be scanned for the next `n` keys: each one entered takes its start key, and the keys
handed out and, where the scan goes on, the upper fence with a zero byte fit the buffer. -/
def BufferTakes (free : FreeBytes) : Option Bytes → List LeafNode → ℕ → Prop
  | _, [], _ => True
  | key, l :: ls, n => l.Enterable free key ∧ (∀ e ∈ (l.entriesFrom key).take n, e.1.length ≤ keyOutSize) ∧
      ((l.entriesFrom key).length < n →
        l.upperFence.length < keyOutSize ∧ BufferTakes free none ls (n - (l.entriesFrom key).length))

instance (free : FreeBytes) : (key : Option Bytes) → (ls : List LeafNode) → (n : ℕ) →
    Decidable (BufferTakes free key ls n)
  | _, [], _ => isTrue trivial
  | key, l :: ls, n =>
    have := instDecidableBufferTakes free none ls (n - (l.entriesFrom key).length)
    inferInstanceAs (Decidable (_ ∧ _ ∧ (_ → _ ∧ _)))

/-- The buffer takes the start key and what the leaves on the way write to it; nothing is scanned for a limit
of 0. -/
def Server.CanScan (s : Server) (min : Bytes) (limit : ℕ) : Prop :=
  limit = 0 ∨ min.length ≤ keyOutSize ∧ BufferTakes s.free.head (some min) (s.btree.leavesFrom min) limit

instance (s : Server) (min : Bytes) (limit : ℕ) : Decidable (s.CanScan min limit) := inferInstanceAs (Decidable (_ ∨ _))

section
variable {free : FreeBytes} {limit : ℕ} {ks : List Bytes}

theorem collect_more (key payload : Bytes) (h : ks.length + 1 < limit) :
    collect limit ks key payload = (ks ++ [key], true) := by
  simp [collect, h]

theorem collect_last (key payload : Bytes) (h : ks.length + 1 = limit) :
    collect limit ks key payload = (ks ++ [key], false) := by
  simp [collect, h]

theorem emit_collect (es : List (Bytes × Bytes)) (n : ℕ) (hks : ks.length + (n + 1) = limit) :
    emit (collect limit) es ks = (ks ++ keys (es.take (n + 1)), decide (es.length < n + 1)) ∧
      visited (collect limit) es ks = es.take (n + 1) := by
  induction es generalizing ks n with
  | nil => simp [emit, visited]
  | cons e es ih =>
    rw [emit, visited, List.take_succ_cons, keys_cons, List.length_cons]
    cases n with
    | zero =>
      rw [collect_last e.1 e.2 hks]
      simp
    | succ n =>
      have hrest := @ih (ks ++ [e.1]) n (by rw [List.length_append, List.length_singleton]; omega)
      rw [List.append_assoc, List.singleton_append] at hrest
      rw [collect_more e.1 e.2 (by omega)]
      simp [hrest]

theorem scanFits_collect (key : Option Bytes) (ls : List LeafNode) (n : ℕ) (hks : ks.length + (n + 1) = limit) :
    BTree.ScanFits free keyOutSize (collect limit) key ls ks ↔ BufferTakes free key ls (n + 1) := by
  induction ls generalizing key ks n with
  | nil => exact Iff.rfl
  | cons l ls ih =>
    obtain ⟨hemit, hvisited⟩ := emit_collect (l.entriesFrom key) n hks
    rw [BTree.ScanFits, BufferTakes, hemit, hvisited, decide_eq_true_iff]
    refine and_congr_right fun _ => and_congr_right fun _ => forall_congr' fun hgo => and_congr_right fun _ => ?_
    obtain ⟨r, hr⟩ := Nat.exists_eq_add_of_lt hgo
    have hlen : (ks ++ keys ((l.entriesFrom key).take (n + 1))).length + (r + 1) = limit := by
      rw [List.length_append, List.take_of_length_le hgo.le, keys, List.length_map]
      omega
    have hleft : n + 1 - (l.entriesFrom key).length = r + 1 := by omega
    rw [ih none r hlen, hleft]

end

variable {fuel : ℕ} {s s' : Server} {m : KeyMap} {min : Bytes}

theorem zrange_eq_ok {limit : ℕ} {ks : List Bytes} (h : limit ≠ 0) :
    zrange fuel min limit s = .ok (ks, s') ↔ ∃ keyOut,
      s.btree.rangeLookupImpl (collect limit) s.free.head fuel min s.keyOut [] = .ok (keyOut, ks) ∧
        s' = { s with keyOut := keyOut } := by
  rw [zrange, if_neg h]
  simp only [bind_eq_ok, tree_eq_ok, pure_eq_ok, Prod.exists, Prod.mk.injEq]
  constructor
  · rintro ⟨keyOut, _, hr, rfl, rfl⟩
    exact ⟨keyOut, hr, rfl⟩
  · rintro ⟨keyOut, hr, rfl⟩
    exact ⟨keyOut, ks, hr, rfl, rfl⟩

theorem zrange_spec (h : s.Denotes m) {limit : ℕ} {ks : List Bytes} (hl : 0 < limit)
    (hr : zrange fuel min limit s = .ok (ks, s')) : ks = (s.btree.keysFrom min).take limit := by
  obtain ⟨keyOut, hscan, -⟩ := (zrange_eq_ok hl.ne').mp hr
  have hvalue := BTree.rangeLookupImpl_value h.btree.inv hscan
  obtain ⟨k, rfl⟩ := Nat.exists_eq_succ_of_ne_zero hl.ne'
  rw [(@emit_collect _ [] _ k (Nat.zero_add _)).1] at hvalue
  rw [BTree.keysFrom, keys, ← List.map_take]
  simpa [keys] using hvalue

theorem zrange_returns_iff (h : s.Denotes m) {limit : ℕ} :
    (∃ fuel ks s', zrange fuel min limit s = .ok (ks, s')) ↔ s.CanScan min limit := by
  rw [Server.CanScan]
  rcases Nat.eq_zero_or_pos limit with rfl | hl
  · exact iff_of_true ⟨0, [], s, rfl⟩ (Or.inl rfl)
  · obtain ⟨k, rfl⟩ := Nat.exists_eq_succ_of_ne_zero hl.ne'
    have hiff := BTree.rangeLookupImpl_iff (collect (k + 1)) s.free.head s.keyOut [] h.btree.inv min
    rw [h.buffer, scanFits_collect _ _ k (Nat.zero_add _)] at hiff
    rw [or_iff_right hl.ne', ← hiff]
    constructor
    · rintro ⟨fuel, ks, s', hr⟩
      obtain ⟨keyOut, hscan, -⟩ := (zrange_eq_ok hl.ne').mp hr
      exact ⟨fuel, _, hscan⟩
    · rintro ⟨fuel, ⟨keyOut, ks⟩, hscan⟩
      exact ⟨fuel, ks, _, (zrange_eq_ok hl.ne').mpr ⟨keyOut, hscan, rfl⟩⟩

theorem BufferTakes.keys_le {free : FreeBytes} {key : Option Bytes} {ls : List LeafNode} {k : ℕ}
    (h : BufferTakes free key ls k) :
    ∀ l rest, ls = l :: rest →
      ∀ e ∈ (l.entriesFrom key ++ rest.flatMap LeafNode.entries).take k, e.1.length ≤ keyOutSize := by
  induction ls generalizing key k with
  | nil => exact fun l rest heq => absurd heq (List.cons_ne_nil _ _).symm
  | cons l ls ih =>
    rintro _ _ ⟨⟩ e he
    obtain ⟨-, hhere, hthere⟩ := h
    rw [List.take_append] at he
    rcases List.mem_append.mp he with he | he
    · exact hhere e he
    · rcases Nat.lt_or_ge (l.entriesFrom key).length k with hlt | hge
      · cases ls with
        | nil => simp at he
        | cons l' ls => exact ih (hthere hlt).2 l' ls rfl e he
      · rw [Nat.sub_eq_zero_of_le hge] at he
        exact absurd he List.not_mem_nil

end BtreeRedis
