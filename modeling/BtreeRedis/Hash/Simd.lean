import BtreeRedis.Hash.Search
import BtreeRedis.Lib.BitMask

/-!
# The vectorised search

`findIndexSimd` compares blocks of thirty-two bytes with the hash byte that is looked for. The
blocks are aligned in the page, so that the first and the last one may hold bytes from outside the
hash array. A compared block is a mask with one bit for each byte, as the vector instructions give it.
-/

namespace BtreeRedis

open BitMask

@[simp] def hashSimdWidth : ℕ := 32

abbrev HashSimdBitMask := BitVec 32

def hashSimdEq (memory : ℕ → Byte) (haystack : ℕ) (needle : Byte) : HashSimdBitMask :=
  BitVec.ofFnLE fun i : Fin 32 => memory (haystack + i.val) = needle

namespace HashNode

/-- The loop of `findIndexSimd`; `haystack` is the address of the block. -/
def simdLoop (n : HashNode) (memory : ℕ → Byte) (key : Bytes) (hash : Byte) (hashMisalign shiftLimit : ℕ) :
    ℕ → ℕ → ℕ → HashSimdBitMask → Except Fault (Option ℕ)
  | 0, _, _, _ => .error .outOfFuel
  | fuel + 1, haystack, shift, mask =>
    if shift < shiftLimit then
      let trailingZeros := mask.ctz.toNat
      if trailingZeros = hashSimdWidth then
        let shift := shift - shift % hashSimdWidth + hashSimdWidth
        if shiftLimit ≤ shift then .ok none
        else
          let haystack := haystack + hashSimdWidth
          simdLoop n memory key hash hashMisalign shiftLimit fuel haystack shift (hashSimdEq memory haystack hash)
      else
        let shift := shift + trailingZeros
        let mask := mask >>> trailingZeros - 1
        if shiftLimit ≤ shift then .ok none
        else
          let elementIndex := shift - hashMisalign
          match n.slots[elementIndex]? with
          | none => .error .undefined
          | some s =>
            if s.key = key then .ok (some elementIndex)
            else simdLoop n memory key hash hashMisalign shiftLimit fuel haystack shift mask
    else .ok none

def findIndexSimd (n : HashNode) (memory : ℕ → Byte) (fuel : ℕ) (key : Bytes) (hash : Byte) :
    Except Fault (Option ℕ) := do
  ensure (n.prefixLength ≤ key.length) .undefined
  let key := key.drop n.prefixLength
  let hashMisalign := n.hashOffset % hashSimdWidth
  let haystack := n.hashOffset - hashMisalign
  let mask := hashSimdEq memory haystack hash >>> hashMisalign
  n.simdLoop memory key hash hashMisalign (hashMisalign + n.count) fuel haystack hashMisalign mask

/-- The page with the hash array in it and any bytes around it. -/
def memory (n : HashNode) (outside : ℕ → Byte) (address : ℕ) : Byte :=
  if n.hashOffset ≤ address then n.hashes.getD (address - n.hashOffset) (outside address) else outside address

def Matches (n : HashNode) (key : Bytes) (hash : Byte) (i : ℕ) : Prop :=
  n.hashes[i]? = some hash ∧ ∃ s, n.slots[i]? = some s ∧ s.key = key

def FirstMatch (n : HashNode) (key : Bytes) (hash : Byte) : Option ℕ → Prop
  | some i => n.Matches key hash i ∧ ∀ j < i, ¬ n.Matches key hash j
  | none => ∀ j, ¬ n.Matches key hash j

variable {n : HashNode} {key : Bytes} {hash : Byte} {outside : ℕ → Byte}

theorem FirstMatch.unique {r r' : Option ℕ} (h : n.FirstMatch key hash r) (h' : n.FirstMatch key hash r') : r = r' := by
  cases r with
  | none =>
    cases r' with
    | none => rfl
    | some i => exact absurd h'.1 (h i)
  | some i =>
    cases r' with
    | none => exact absurd h.1 (h' i)
    | some j =>
      rcases Nat.lt_trichotomy i j with hij | rfl | hij
      · exact absurd h.1 (h'.2 i hij)
      · rfl
      · exact absurd h'.1 (h.2 j hij)

theorem matches_iff_zip {i : ℕ} (hi : i < (n.slots.zip n.hashes).length) :
    n.Matches key hash i ↔ ((n.slots.zip n.hashes)[i].2 = hash ∧ (n.slots.zip n.hashes)[i].1.key = key) := by
  have hlen := hi
  rw [List.length_zip, lt_min_iff] at hlen
  rw [Matches, List.getElem?_eq_getElem hlen.1, List.getElem?_eq_getElem hlen.2, List.getElem_zip]
  simp

theorem Matches.lt_zip {i : ℕ} (h : n.Matches key hash i) : i < (n.slots.zip n.hashes).length := by
  obtain ⟨hh, s, hs, -⟩ := h
  rw [List.length_zip, lt_min_iff]
  exact ⟨(List.getElem?_eq_some_iff.mp hs).1, (List.getElem?_eq_some_iff.mp hh).1⟩

theorem findIdx_firstMatch (n : HashNode) (key : Bytes) (hash : Byte) :
    n.FirstMatch key hash ((n.slots.zip n.hashes).findIdx? fun s => s.2 = hash && s.1.key = key) := by
  have htest : ∀ {i} (hi : i < (n.slots.zip n.hashes).length),
      ((decide ((n.slots.zip n.hashes)[i].2 = hash) && decide ((n.slots.zip n.hashes)[i].1.key = key)) = true) ↔
        n.Matches key hash i := by
    intro i hi
    rw [matches_iff_zip hi, Bool.and_eq_true, decide_eq_true_iff, decide_eq_true_iff]
  cases hf : (n.slots.zip n.hashes).findIdx? fun s => s.2 = hash && s.1.key = key with
  | none =>
    intro j hj
    have hnone := List.findIdx?_eq_none_iff.mp hf _ (List.getElem_mem hj.lt_zip)
    exact absurd ((htest hj.lt_zip).mpr hj) (Bool.not_eq_true _ ▸ hnone)
  | some i =>
    obtain ⟨hi, hp, hbefore⟩ := List.findIdx?_eq_some_iff_getElem.mp hf
    exact ⟨(htest hi).mp hp, fun j hj hm => hbefore j hj ((htest hm.lt_zip).mpr hm)⟩

theorem getLsbD_hashSimdEq (memory : ℕ → Byte) (haystack : ℕ) (needle : Byte) {i : ℕ} (hi : i < hashSimdWidth) :
    (hashSimdEq memory haystack needle).getLsbD i = decide (memory (haystack + i) = needle) := by
  rw [hashSimdEq, BitVec.getLsbD_ofFnLE]
  exact dif_pos hi

def hitAt (n : HashNode) (outside : ℕ → Byte) (hash : Byte) (x : ℕ) : Bool :=
  n.memory outside (n.hashOffset - n.hashOffset % hashSimdWidth + x) = hash

theorem hitAt_iff {i : ℕ} (hi : i < n.hashes.length) :
    n.hitAt outside hash (n.hashOffset % hashSimdWidth + i) = true ↔ n.hashes[i]? = some hash := by
  have hle := Nat.mod_le n.hashOffset hashSimdWidth
  have haddr : n.hashOffset - n.hashOffset % hashSimdWidth + (n.hashOffset % hashSimdWidth + i) = n.hashOffset + i := by
    omega
  rw [hitAt, haddr, decide_eq_true_iff, memory, if_pos (Nat.le_add_right _ _), Nat.add_sub_cancel_left,
    List.getD_eq_getElem _ _ hi, List.getElem?_eq_getElem hi, Option.some.injEq]

theorem shows_block (n : HashNode) (outside : ℕ → Byte) (hash : Byte) {haystack base : ℕ} (k : ℕ)
    (hbase : haystack = n.hashOffset - n.hashOffset % hashSimdWidth + base) :
    Shows (hashSimdEq (n.memory outside) haystack hash >>> k) (n.hitAt outside hash) (base + k) (base + k)
      (base + hashSimdWidth) := by
  intro i
  rw [BitVec.getLsbD_ushiftRight]
  rcases Nat.lt_or_ge (k + i) hashSimdWidth with hi | hi
  · have hin : base + k ≤ base + k + i ∧ base + k + i < base + hashSimdWidth := by omega
    rw [getLsbD_hashSimdEq _ _ _ hi, decide_eq_true hin, Bool.true_and, hitAt, hbase, Nat.add_assoc, Nat.add_assoc]
  · have hout : ¬ (base + k ≤ base + k + i ∧ base + k + i < base + hashSimdWidth) := by omega
    have hbit : (hashSimdEq (n.memory outside) haystack hash).getLsbD (k + i) = false := BitVec.getLsbD_of_ge _ _ hi
    rw [hbit, decide_eq_false hout, Bool.false_and]

/-- What holds whenever the loop goes round: the mask shows the rest of the block from `lo` on, and
nothing before `lo` matches. -/
structure Searching (n : HashNode) (outside : ℕ → Byte) (key : Bytes) (hash : Byte) (haystack shift lo : ℕ)
    (mask : HashSimdBitMask) : Prop where
  start : n.hashOffset % hashSimdWidth ≤ shift
  lo_eq : lo = shift ∨ lo = shift + 1
  block : haystack = n.hashOffset - n.hashOffset % hashSimdWidth + (shift - shift % hashSimdWidth)
  shows : Shows mask (n.hitAt outside hash) shift lo (shift - shift % hashSimdWidth + hashSimdWidth)
  before : ∀ j, n.hashOffset % hashSimdWidth + j < lo → ¬ n.Matches key hash j

theorem Matches.hitAt {i : ℕ} (h : n.Matches key hash i) (hlen : n.hashes.length = n.count) (outside : ℕ → Byte) :
    i < n.count ∧ n.hitAt outside hash (n.hashOffset % hashSimdWidth + i) = true := by
  have hi : i < n.hashes.length := (List.getElem?_eq_some_iff.mp h.1).1
  exact ⟨hi.trans_eq hlen, (hitAt_iff hi).mpr h.1⟩

theorem simdLoop_firstMatch (hlen : n.hashes.length = n.count) (fuel : ℕ) {haystack shift lo : ℕ}
    {mask : HashSimdBitMask} (h : Searching n outside key hash haystack shift lo mask)
    (hlt : shift < n.hashOffset % hashSimdWidth + n.count)
    (hfuel : 2 * (n.hashOffset % hashSimdWidth + n.count) ≤ shift + lo + fuel) :
    ∃ r, n.simdLoop (n.memory outside) key hash (n.hashOffset % hashSimdWidth)
        (n.hashOffset % hashSimdWidth + n.count) fuel haystack shift mask = .ok r ∧ n.FirstMatch key hash r := by
  induction fuel generalizing haystack shift lo mask with
  | zero =>
    have hlo := h.lo_eq
    omega
  | succ fuel ih =>
    obtain ⟨hstart, hlo, hblock, hshows, hbefore⟩ := h
    have hmod := Nat.mod_lt shift (show 0 < hashSimdWidth by decide)
    have hle := Nat.mod_le shift hashSimdWidth
    rw [simdLoop, if_pos hlt]
    dsimp only
    by_cases hz : mask.ctz.toNat = hashSimdWidth
    · obtain ⟨next, hnext⟩ : ∃ next, next = shift - shift % hashSimdWidth + hashSimdWidth := ⟨_, rfl⟩
      rw [if_pos hz, ← hnext]
      -- The rest of the block holds no match.
      have hclear : ∀ j, n.hashOffset % hashSimdWidth + j < next → ¬ n.Matches key hash j := by
        intro j hj hm
        by_cases hjlo : n.hashOffset % hashSimdWidth + j < lo
        · exact hbefore j hjlo hm
        · have hnone := hshows.none hz (by omega) (not_lt.mp hjlo) (hnext ▸ hj)
          rw [(hm.hitAt hlen outside).2] at hnone
          cases hnone
      by_cases hend : n.hashOffset % hashSimdWidth + n.count ≤ next
      · rw [if_pos hend]
        refine ⟨none, rfl, fun j hm => hclear j ?_ hm⟩
        have hj := (hm.hitAt hlen outside).1
        omega
      · rw [if_neg hend]
        have hnextmod : next % hashSimdWidth = 0 := by
          rw [hnext, Nat.add_mod_right]
          exact Nat.mod_eq_zero_of_dvd (Nat.dvd_sub_mod shift)
        have hbase : haystack + hashSimdWidth = n.hashOffset - n.hashOffset % hashSimdWidth + next := by omega
        have hblock' := shows_block n outside hash 0 hbase
        rw [Nat.add_zero, BitVec.ushiftRight_zero] at hblock'
        have hnextSearch : Searching n outside key hash (haystack + hashSimdWidth) next next
            (hashSimdEq (n.memory outside) (haystack + hashSimdWidth) hash) := by
          refine ⟨by omega, Or.inl rfl, ?_, ?_, hclear⟩
          · rw [hnextmod, Nat.sub_zero, hbase]
          · rwa [hnextmod, Nat.sub_zero]
        exact ih hnextSearch (not_le.mp hend) (by omega)
    · obtain ⟨place, hplace⟩ : ∃ place, place = shift + mask.ctz.toNat := ⟨_, rfl⟩
      obtain ⟨hplo, hphi, hphit, hmin⟩ := hshows.first hz
      have hshows' := hshows.clear hz
      rw [← hplace] at hplo hphi hphit hmin hshows'
      rw [if_neg hz, ← hplace]
      have hclear : ∀ j, n.hashOffset % hashSimdWidth + j < place → ¬ n.Matches key hash j := by
        intro j hj hm
        by_cases hjlo : n.hashOffset % hashSimdWidth + j < lo
        · exact hbefore j hjlo hm
        · have hnone := hmin _ (by omega) (not_lt.mp hjlo) hj
          rw [(hm.hitAt hlen outside).2] at hnone
          cases hnone
      by_cases hend : n.hashOffset % hashSimdWidth + n.count ≤ place
      · rw [if_pos hend]
        refine ⟨none, rfl, fun j hm => hclear j ?_ hm⟩
        have hj := (hm.hitAt hlen outside).1
        omega
      · rw [if_neg hend]
        obtain ⟨i, hi⟩ : ∃ i, place = n.hashOffset % hashSimdWidth + i := Nat.exists_eq_add_of_le (by omega)
        have hic : i < n.count := by omega
        have hidx : place - n.hashOffset % hashSimdWidth = i := by omega
        have hhash : n.hashes[i]? = some hash := (hitAt_iff (hic.trans_eq hlen.symm)).mp (hi ▸ hphit)
        rw [hidx, List.getElem?_eq_getElem hic]
        dsimp only
        by_cases hk : n.slots[i].key = key
        · rw [if_pos hk]
          refine ⟨some i, rfl, ⟨hhash, n.slots[i], List.getElem?_eq_getElem hic, hk⟩, fun j hj => hclear j ?_⟩
          omega
        · rw [if_neg hk]
          have hsame : place - place % hashSimdWidth = shift - shift % hashSimdWidth := by
            simp only [hashSimdWidth] at hphi hmod hle ⊢
            omega
          have hnextSearch : Searching n outside key hash haystack place (place + 1)
              (mask >>> mask.ctz.toNat - 1#32) := by
            refine ⟨by omega, Or.inr rfl, ?_, ?_, fun j hj hm => ?_⟩
            · rw [hsame, hblock]
            · rwa [hsame]
            · rcases Nat.lt_succ_iff_lt_or_eq.mp hj with hj | hj
              · exact hclear j hj hm
              · obtain rfl : j = i := by omega
                obtain ⟨-, s, hs, hsk⟩ := hm
                rw [List.getElem?_eq_getElem hic] at hs
                exact hk (Option.some.inj hs ▸ hsk)
          exact ih hnextSearch (not_le.mp hend) (by omega)

/-- Wherever the hash array lies and whatever bytes surround it, the vectorised search comes to an end
and finds what the scalar one finds. -/
theorem findIndexSimd_eq (n : HashNode) (hlen : n.hashes.length = n.count) (outside : ℕ → Byte) (key : Bytes)
    (hash : Byte) {fuel : ℕ} (hfuel : 2 * n.count + 1 ≤ fuel) :
    n.findIndexSimd (n.memory outside) fuel key hash = n.findIndex key hash := by
  by_cases hpre : n.prefixLength ≤ key.length
  · rw [findIndexSimd, findIndex, ensure_of hpre, ok_bind, ok_bind]
    dsimp only
    have hfirst := findIdx_firstMatch n (key.drop n.prefixLength) hash
    rcases Nat.eq_zero_or_pos n.count with hzero | hpos
    · obtain ⟨fuel, rfl⟩ := Nat.exists_eq_succ_of_ne_zero (Nat.ne_zero_of_lt hfuel)
      have hslots : n.slots = [] := List.length_eq_zero_iff.mp hzero
      rw [simdLoop, if_neg (by omega), hslots]
      rfl
    · have hmod := Nat.mod_lt n.hashOffset (show 0 < hashSimdWidth by decide)
      have hblock := shows_block n outside hash (n.hashOffset % hashSimdWidth)
        (Nat.add_zero (n.hashOffset - n.hashOffset % hashSimdWidth)).symm
      rw [Nat.zero_add, Nat.zero_add] at hblock
      have hsearch : Searching n outside (key.drop n.prefixLength) hash (n.hashOffset - n.hashOffset % hashSimdWidth)
          (n.hashOffset % hashSimdWidth) (n.hashOffset % hashSimdWidth)
          (hashSimdEq (n.memory outside) (n.hashOffset - n.hashOffset % hashSimdWidth) hash >>>
            (n.hashOffset % hashSimdWidth)) := by
        refine ⟨le_rfl, Or.inl rfl, ?_, ?_, fun j hj => absurd hj (by omega)⟩
        · rw [Nat.mod_mod, Nat.sub_self, Nat.add_zero]
        · rwa [Nat.mod_mod, Nat.sub_self, Nat.zero_add]
      obtain ⟨r, hr, hmatch⟩ := simdLoop_firstMatch hlen fuel hsearch (by omega) (by omega)
      rw [hr, hmatch.unique hfirst]
      rfl
  · rw [findIndexSimd, findIndex, ensure, if_neg hpre]
    rfl

/-- Of two equal hash bytes behind a misaligned start the second belongs to the key. -/
theorem findIndexSimd_eq_pair :
    let n : HashNode := {
      rangeOpCounter := RangeOpCounter.fresh, sortedCount := 2, spaceUsed := 4, dataOffset := 4028
      prefixLength := 0, hashCapacity := 64, hashOffset := 4030, lowerFence := [], upperFence := []
      slots := [⟨4029, [97], []⟩, ⟨4026, [97, 98, 99], []⟩], hashes := [7, 7] }
    n.findIndexSimd (n.memory fun _ => 7) 5 [97, 98, 99] 7 = .ok (some 1) := by
  intro n
  have hfuel : 2 * n.count + 1 ≤ 5 := by decide
  rw [findIndexSimd_eq n rfl (fun _ => 7) [97, 98, 99] 7 hfuel]
  decide

end HashNode

end BtreeRedis
