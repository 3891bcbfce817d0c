import Mathlib

/-!
# Remainders in a shift register

A register of `w` bits takes in its input bit by bit, the lowest bit of each chunk first. The
register is linear, and bits above those that fall out are only moved down, so that a chunk may
be taken in at once or in parts.
-/

namespace BtreeRedis.Crc

variable {w : ℕ} (poly : BitVec w)

/-- The register moves down by a bit; where a one falls out, the polynomial is added. -/
def step (r : BitVec w) : BitVec w := if r.getLsbD 0 then (r >>> 1) ^^^ poly else r >>> 1

/-- A chunk of `n` bits is added to the lowest bits of the register and goes through it. -/
def feed (n : ℕ) (r : BitVec w) (x : ℕ) : BitVec w := (step poly)^[n] (r ^^^ BitVec.ofNat w x)

variable {poly}

theorem step_xor (a b : BitVec w) : step poly (a ^^^ b) = step poly a ^^^ step poly b := by
  have hcancel : (a >>> 1 ^^^ poly) ^^^ (b >>> 1 ^^^ poly) = a >>> 1 ^^^ b >>> 1 := by
    rw [BitVec.xor_comm (b >>> 1) poly, BitVec.xor_assoc, ← BitVec.xor_assoc poly, BitVec.xor_self, BitVec.zero_xor]
  simp only [step, BitVec.getLsbD_xor, BitVec.ushiftRight_xor_distrib]
  cases a.getLsbD 0 <;> cases b.getLsbD 0
  · rfl
  · exact BitVec.xor_assoc _ _ _
  · exact (BitVec.xor_assoc _ _ _).trans ((congrArg _ (BitVec.xor_comm _ _)).trans (BitVec.xor_assoc _ _ _).symm)
  · exact hcancel.symm

theorem iterate_step_xor (n : ℕ) (a b : BitVec w) :
    (step poly)^[n] (a ^^^ b) = (step poly)^[n] a ^^^ (step poly)^[n] b := by
  induction n generalizing a b with
  | zero => rfl
  | succ n ih =>
    rw [Function.iterate_succ_apply, Function.iterate_succ_apply, Function.iterate_succ_apply, step_xor, ih]

theorem iterate_step_shifted {n x : ℕ} (h : 2 ^ n * x < 2 ^ w) :
    (step poly)^[n] (BitVec.ofNat w (2 ^ n * x)) = BitVec.ofNat w x := by
  induction n with
  | zero => rw [Function.iterate_zero_apply, pow_zero, Nat.one_mul]
  | succ n ih =>
    have hhalf : 2 ^ (n + 1) * x = 2 * (2 ^ n * x) := by ring
    rw [hhalf] at h ⊢
    have hbit : (BitVec.ofNat w (2 * (2 ^ n * x))).getLsbD 0 = false := by
      rw [BitVec.getLsbD_ofNat, Nat.testBit_zero]
      simp
    have hdown : BitVec.ofNat w (2 * (2 ^ n * x)) >>> 1 = BitVec.ofNat w (2 ^ n * x) := by
      apply BitVec.eq_of_toNat_eq
      rw [BitVec.toNat_ushiftRight, BitVec.toNat_ofNat, BitVec.toNat_ofNat, Nat.mod_eq_of_lt h,
        Nat.mod_eq_of_lt (by omega), Nat.shiftRight_eq_div_pow]
      omega
    rw [Function.iterate_succ_apply, step, if_neg (by rw [hbit]; decide), hdown]
    exact ih (by omega)

theorem feed_add {m n x y : ℕ} (r : BitVec w) (hx : x < 2 ^ m) (hy : 2 ^ m * y < 2 ^ w) :
    feed poly (m + n) r (x + 2 ^ m * y) = feed poly n (feed poly m r x) y := by
  have hsplit : BitVec.ofNat w (x + 2 ^ m * y) = BitVec.ofNat w x ^^^ BitVec.ofNat w (2 ^ m * y) := by
    apply BitVec.eq_of_getLsbD_eq
    intro i hi
    rw [BitVec.getLsbD_xor, BitVec.getLsbD_ofNat, BitVec.getLsbD_ofNat, BitVec.getLsbD_ofNat, decide_eq_true hi,
      Bool.true_and, Bool.true_and, Bool.true_and, Nat.add_comm, Nat.testBit_two_pow_mul_add y hx,
      Nat.testBit_two_pow_mul]
    by_cases hm : i < m
    · simp [hm, not_le.mpr hm]
    · rw [if_neg hm, Nat.testBit_lt_two_pow (hx.trans_le (Nat.pow_le_pow_right Nat.two_pos (not_lt.mp hm)))]
      simp [not_lt.mp hm]
  rw [feed, hsplit, ← BitVec.xor_assoc, Nat.add_comm m n, Function.iterate_add_apply, iterate_step_xor,
    iterate_step_shifted hy]
  rfl

theorem feed_ofDigits {k : ℕ} (hk : 0 < k) (ds : List ℕ) (r : BitVec w) (hd : ∀ d ∈ ds, d < 2 ^ k)
    (hlen : k * ds.length ≤ w) :
    feed poly (k * ds.length) r (Nat.ofDigits (2 ^ k) ds) = ds.foldl (feed poly k) r := by
  induction ds generalizing r with
  | nil =>
    change r ^^^ BitVec.ofNat w 0 = r
    exact BitVec.xor_zero
  | cons d ds ih =>
    rw [List.forall_mem_cons] at hd
    have hlength : k * (d :: ds).length = k + k * ds.length := by
      rw [List.length_cons]
      ring
    rw [hlength] at hlen ⊢
    have hlt : 2 ^ k * Nat.ofDigits (2 ^ k) ds < 2 ^ w := calc
      2 ^ k * Nat.ofDigits (2 ^ k) ds < 2 ^ k * (2 ^ k) ^ ds.length :=
        Nat.mul_lt_mul_of_pos_left (Nat.ofDigits_lt_base_pow_length (Nat.one_lt_two_pow hk.ne') hd.2)
          (Nat.two_pow_pos k)
      _ = 2 ^ (k + k * ds.length) := by rw [← pow_mul, ← pow_add]
      _ ≤ 2 ^ w := Nat.pow_le_pow_right Nat.two_pos hlen
    rw [Nat.ofDigits_cons, List.foldl_cons, ← ih _ hd.2 (by omega)]
    exact feed_add r hd.1 hlt

end BtreeRedis.Crc
