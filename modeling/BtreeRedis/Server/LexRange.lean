import BtreeRedis.Server.ReadOnly

/-!
# `ZRANGE` against the stored keys

The first stored keys are returned where the leaves on the way fit the static buffer, and a
limit below zero stands for all keys only as long as there are not too many of them.
-/

namespace BtreeRedis

open SortedAssoc ApiImpl CommandContext RespApi

def firstKeys (n : ℤ) (ks : List Bytes) : List Bytes := if n < 0 then ks else ks.take n.toNat

variable {fuel : ℕ} {s s' : Server} {m : KeyMap} {min : Bytes} {n : ℤ}

theorem answers_zrangeCommand {limitArg : Bytes} {v : RespValue}
    (hn : ArgParsing.parseIntStrict limitArg = .ok (some n)) (h : s.Denotes m) :
    Answers (processCommand fuel (zrangeCommand min limitArg)) s v s' ↔
      ∃ ks, zrange fuel min (limitOf n) s = .ok (ks, s') ∧ v = Plan.values (ks.map some) := by
  rw [answers_processCommand h, planOf_zrangeCommand hn]
  exact Iff.rfl

theorem limitOf_of_nonneg (hn : InInt64 n) (hpos : 0 ≤ n) : limitOf n = n.toNat := by
  simp only [InInt64, int64Max] at hn
  rw [limitOf, Int.emod_eq_of_lt hpos (by omega)]

theorem limitOf_pos (hn : InInt64 n) (hne : n ≠ 0) : 0 < limitOf n := by
  simp only [InInt64, int64Max] at hn
  simp only [limitOf]
  omega

def ReturnsFirst (s : Server) (min : Bytes) (n : ℤ) : Prop :=
  ∃ fuel s', zrange fuel min (limitOf n) s = .ok (firstKeys n (s.btree.keysFrom min), s')

/-- `zrange` returns the first keys exactly if there are none to return, or the start key and what is
written on the way fit the buffer. -/
theorem returnsFirst_iff (h : s.Denotes m) (min : Bytes) (hn : InInt64 n) : ReturnsFirst s min n ↔
    n = 0 ∨ min.length ≤ keyOutSize ∧
      BufferTakes s.free.head (some min) (s.btree.leavesFrom min) (limitOf n) ∧
      (n < 0 → (s.btree.keysFrom min).length ≤ limitOf n) := by
  rcases eq_or_ne n 0 with rfl | hne
  · exact iff_of_true ⟨0, s, rfl⟩ (Or.inl rfl)
  · have hpos := limitOf_pos hn hne
    have hreturns := @zrange_returns_iff s m min h (limitOf n)
    rw [Server.CanScan, or_iff_right hpos.ne'] at hreturns
    rw [or_iff_right hne, ← and_assoc, ← hreturns]
    have hfirst : firstKeys n (s.btree.keysFrom min) = (s.btree.keysFrom min).take (limitOf n) ↔
        (n < 0 → (s.btree.keysFrom min).length ≤ limitOf n) := by
      rw [firstKeys]
      split_ifs with hneg
      · rw [forall_prop_of_true hneg, eq_comm, List.take_eq_self_iff]
      · rw [limitOf_of_nonneg hn (not_lt.mp hneg)]
        exact iff_of_true rfl fun hc => absurd hc hneg
    rw [← hfirst]
    constructor
    · rintro ⟨fuel, s', hr⟩
      exact ⟨⟨fuel, _, s', hr⟩, zrange_spec h hpos hr⟩
    · rintro ⟨⟨fuel, ks, s', hr⟩, heq⟩
      obtain rfl := zrange_spec h hpos hr
      exact ⟨fuel, s', by rw [heq]; exact hr⟩

/-- From `02` on the scan passes the dense leaf and goes on in the basic one. -/
theorem returnsFirst_across : ∃ s : Server, s.Denotes (KeyMap.empty.setAll sixKeys) ∧
    (s.btree.leavesFrom [2]).length = 2 ∧ firstKeys 3 (s.btree.keysFrom [2]) = [[2], [3], [4]] ∧
    ReturnsFirst s [2] 3 := by
  have hrun : storeReaches 4 sixKeys (fun s => decide ((s.btree.leavesFrom [2]).length = 2 ∧
      firstKeys 3 (s.btree.keysFrom [2]) = [[2], [3], [4]] ∧
      BufferTakes s.free.head (some [2]) (s.btree.leavesFrom [2]) (limitOf 3))) = true := by
    decide +kernel
  obtain ⟨s, hden, hleaves, hkeys, hfits⟩ := storeReaches_spec hrun
  refine ⟨s, hden, hleaves, hkeys, (returnsFirst_iff hden [2] (by decide)).mpr (Or.inr ⟨by decide, hfits, ?_⟩)⟩
  exact fun hneg => absurd hneg (by decide)

def longKey : Bytes := List.replicate 257 0

theorem length_longKey : longKey.length = 257 := List.length_replicate

theorem fits_longKey : Fits [(longKey, [])] := by
  intro e he
  obtain rfl := List.mem_singleton.mp he
  simp only [length_longKey, maxKVSize]
  decide

theorem entries_longKey (h : s.Denotes (KeyMap.empty.set longKey [])) : s.btree.entries = [(longKey, [])] := by
  refine ascending_ext h.btree.inv.ascending (List.pairwise_singleton ..) fun x => ?_
  rw [← lookup_eq_some h.btree.inv.ascending, h.btree.lookup, List.mem_singleton, KeyMap.set, Function.update_apply,
    Prod.ext_iff]
  split_ifs with hx
  · rw [and_iff_right hx, Option.some_inj, eq_comm]
  · exact iff_of_false (Option.some_ne_none _).symm fun hc => hx hc.1

/-- A stored key and a start key that do not fit the buffer. -/
theorem returnsFirst_overflows :
    (∃ fuel s, ApiImpl.set fuel longKey [] Server.start = .ok ((), s) ∧ ¬ ReturnsFirst s [] 1) ∧
      ¬ ReturnsFirst Server.start longKey 1 := by
  constructor
  · have hguarded := start_guarded longKey []
    obtain ⟨fuel, s, hs⟩ := stored_of_guarded _ Server.start_denotes hguarded fits_longKey
    have hden : s.Denotes (KeyMap.empty.set longKey []) := hs.denotes_guarded hguarded Server.start_denotes
    obtain ⟨s', hset, hnil⟩ := stored_cons.mp hs
    obtain rfl := stored_nil.mp hnil
    refine ⟨fuel, s, hset, ?_⟩
    rintro ⟨fuel', s', hr⟩
    obtain ⟨-, hfits⟩ := ((zrange_returns_iff hden).mp ⟨fuel', _, s', hr⟩).resolve_left (by decide)
    obtain ⟨before, l, after, hl, -, -⟩ := hden.btree.inv.exists_located []
    have hfrom : s.btree.leavesFrom [] = l :: after := hl.dropWhile_eq
    have hall : l.entriesFrom (some []) ++ after.flatMap LeafNode.entries = [(longKey, [])] := by
      have hentries := hl.filter_ge hden.btree.inv.row hden.btree.inv.within
      rw [← hden.btree.inv.entries_eq, entries_longKey hden] at hentries
      exact hentries.symm.trans (by simp [LexOrder.nil_le])
    have hle := hfits.keys_le l after hfrom (longKey, []) (by rw [hall]; exact List.mem_singleton_self _)
    rw [length_longKey] at hle
    exact absurd hle (by decide)
  · rintro ⟨fuel, s', hr⟩
    obtain ⟨hlen, -⟩ := ((zrange_returns_iff Server.start_denotes).mp ⟨fuel, _, s', hr⟩).resolve_left (by decide)
    rw [length_longKey] at hlen
    exact absurd hlen (by decide)

end BtreeRedis
