import Mathlib

/-!
# Searching a window of bits

A word of `w` bits shows a stretch of a longer row of truth values. Its trailing zeros lead to
the first one that is set; shifting the word there and subtracting one clears that bit, so that
the same word shows the rest.
-/

namespace BtreeRedis.BitMask

variable {w : ℕ} {m : BitVec w} {hit : ℕ → Bool} {s lo hi : ℕ}

theorem ctz_eq_width_iff : m.ctz.toNat = w ↔ m = 0#w := by
  have hzero := @BitVec.clz_eq_iff_eq_zero w m.reverse
  have hw : (w : BitVec w).toNat = w := by
    rw [BitVec.natCast_eq_ofNat, BitVec.toNat_ofNat, Nat.mod_eq_of_lt Nat.lt_two_pow_self]
  rw [← BitVec.ctz_eq_reverse_clz, BitVec.reverse_eq_zero_iff] at hzero
  rw [← hzero, ← BitVec.toNat_inj, hw]

theorem getLsbD_sub_one (h : m.getLsbD 0 = true) (i : ℕ) : (m - 1#w).getLsbD i = (decide (i ≠ 0) && m.getLsbD i) := by
  have hw : 0 < w := BitVec.lt_of_getLsbD h
  have hodd : m.toNat % 2 = 1 := by
    rw [BitVec.getLsbD, Nat.testBit_zero] at h
    exact of_decide_eq_true h
  have hone : (1#w).toNat = 1 := by
    rw [BitVec.toNat_ofNat]
    exact Nat.mod_eq_of_lt (Nat.one_lt_two_pow hw.ne')
  have hsub : (m - 1#w).toNat = m.toNat - 1 := by
    rw [BitVec.toNat_sub_of_le (by rw [BitVec.le_def, hone]; omega), hone]
  rw [BitVec.getLsbD, BitVec.getLsbD, hsub]
  cases i with
  | zero =>
    rw [Nat.testBit_zero]
    simp
    omega
  | succ i =>
    rw [Nat.testBit_succ, Nat.testBit_succ, show (m.toNat - 1) / 2 = m.toNat / 2 by omega]
    simp

/-- From place `s` on the word shows the places of the row between `lo` and `hi`, and no other. -/
def Shows (m : BitVec w) (hit : ℕ → Bool) (s lo hi : ℕ) : Prop :=
  ∀ i, m.getLsbD i = (decide (lo ≤ s + i ∧ s + i < hi) && hit (s + i))

theorem Shows.none (h : Shows m hit s lo hi) (hz : m.ctz.toNat = w) {j : ℕ} (hs : s ≤ j) (hlo : lo ≤ j)
    (hhi : j < hi) : hit j = false := by
  obtain ⟨i, rfl⟩ := Nat.exists_eq_add_of_le hs
  have hm : m = 0#w := ctz_eq_width_iff.mp hz
  have hbit := h i
  rw [hm, BitVec.getLsbD_zero, decide_eq_true ⟨hlo, hhi⟩, Bool.true_and] at hbit
  exact hbit.symm

theorem Shows.first (h : Shows m hit s lo hi) (hz : m.ctz.toNat ≠ w) :
    lo ≤ s + m.ctz.toNat ∧ s + m.ctz.toNat < hi ∧ hit (s + m.ctz.toNat) = true ∧
      ∀ j, s ≤ j → lo ≤ j → j < s + m.ctz.toNat → hit j = false := by
  have hset := BitVec.getLsbD_true_ctz_of_ne_zero fun hm => hz (ctz_eq_width_iff.mpr hm)
  rw [h, Bool.and_eq_true, decide_eq_true_iff] at hset
  refine ⟨hset.1.1, hset.1.2, hset.2, fun j hs hlo hj => ?_⟩
  obtain ⟨i, rfl⟩ := Nat.exists_eq_add_of_le hs
  have hbit := h i
  rw [BitVec.getLsbD_false_of_lt_ctz (Nat.lt_of_add_lt_add_left hj),
    decide_eq_true ⟨hlo, hj.trans hset.1.2⟩, Bool.true_and] at hbit
  exact hbit.symm

theorem Shows.clear (h : Shows m hit s lo hi) (hz : m.ctz.toNat ≠ w) :
    Shows (m >>> m.ctz.toNat - 1#w) hit (s + m.ctz.toNat) (s + m.ctz.toNat + 1) hi := by
  have hset := BitVec.getLsbD_true_ctz_of_ne_zero fun hm => hz (ctz_eq_width_iff.mpr hm)
  obtain ⟨hlo, -, -⟩ := h.first hz
  intro i
  have hodd : (m >>> m.ctz.toNat).getLsbD 0 = true := by
    rwa [BitVec.getLsbD_ushiftRight, Nat.add_zero]
  rw [getLsbD_sub_one hodd, BitVec.getLsbD_ushiftRight, h]
  rw [← Nat.add_assoc]
  rcases Nat.eq_zero_or_pos i with rfl | hpos
  · simp
  · have h₁ : i ≠ 0 := hpos.ne'
    have h₂ : (lo ≤ s + m.ctz.toNat + i ∧ s + m.ctz.toNat + i < hi) ↔
        (s + m.ctz.toNat + 1 ≤ s + m.ctz.toNat + i ∧ s + m.ctz.toNat + i < hi) := by omega
    rw [decide_eq_true h₁, Bool.true_and, decide_eq_decide.mpr h₂]

end BtreeRedis.BitMask
