import BtreeRedis.Dense.Numeric

/-!
# The first number above a key

`leastGreaterKey` puts a bound on the numbers of the keys above a fence or a start key of any
length. It is exact as long as there is a number above: a key whose numeric part consists of
`FF` bytes has none, and the assertion on it fails.
-/

namespace BtreeRedis

open LexOrder BigEndian

def fitted (key : Bytes) (n : ℕ) : Bytes := key.take n ++ List.replicate (n - key.length) 0

/-- Among the keys of length `n` with the numeric prefix of `key` those above it are the numbers from
`least` on. -/
def LeastAbove (key : Bytes) (n least : ℕ) : Prop :=
  ∀ t : Bytes, t.length = n → t.take (n - maxNumericPartLen) = (fitted key n).take (n - maxNumericPartLen) →
    (key < t ↔ least ≤ getNumericPart t n)

def HasLastNumber (key : Bytes) (n : ℕ) : Prop :=
  maxNumericPartLen ≤ n ∧ n ≤ key.length ∧
    (key.take n).drop (n - maxNumericPartLen) = List.replicate maxNumericPartLen 255

instance (key : Bytes) (n : ℕ) : Decidable (HasLastNumber key n) := inferInstanceAs (Decidable (_ ∧ _ ∧ _))

theorem take_fitted {key : Bytes} {n : ℕ} (h : n ≤ key.length + maxNumericPartLen) :
    (fitted key n).take (n - maxNumericPartLen) = key.take (n - maxNumericPartLen) := by
  have hlen : n - maxNumericPartLen ≤ (key.take n).length := by
    rw [List.length_take]
    omega
  rw [fitted, List.take_append_of_le_length hlen, List.take_take, min_eq_left (Nat.sub_le _ _)]

theorem lt_of_take_fitted {key t : Bytes} {n : ℕ} (h : key.length + maxNumericPartLen < n) (ht : t.length = n)
    (hp : t.take (n - maxNumericPartLen) = (fitted key n).take (n - maxNumericPartLen)) : key < t := by
  have hle : key.length ≤ n - maxNumericPartLen := by omega
  have hpre : key <+: t := by
    apply List.IsPrefix.trans _ (List.take_prefix (n - maxNumericPartLen) t)
    rw [hp, fitted, List.take_of_length_le (by omega : key.length ≤ n), List.take_append,
      List.take_of_length_le hle]
    exact List.prefix_append _ _
  refine lt_of_le_of_ne (le_of_isPrefix hpre) fun heq => ?_
  rw [heq] at h
  omega

theorem getNumericPart_short {key : Bytes} {n : ℕ} (h : key.length + maxNumericPartLen < n) :
    getNumericPart key n = 0 := by
  rw [getNumericPart, List.take_of_length_le (by omega)]
  exact if_pos h.le

theorem getNumericPart_padded {key : Bytes} {n : ℕ} (h : key.length < n) : getNumericPart key n < numericRange - 1 := by
  rcases Nat.lt_or_ge (key.length + maxNumericPartLen) n with hs | hs
  · rw [getNumericPart_short hs]
    decide
  · have hlt := (getNumericPart_lt hs).trans_le (pow_numericPartLen_le n)
    have hadd := numericLen_add n
    have hpre := numericPrefixLength_eq n
    have hfour : maxNumericPartLen = 4 := rfl
    have hlong : (key.drop (computeNumericPrefixLength n)).length < computeNumericPartLen n := by
      rw [List.length_drop]
      omega
    obtain ⟨k, hk⟩ := Nat.exists_eq_add_of_lt hlong
    have hexp : computeNumericPartLen n - (key.drop (computeNumericPrefixLength n)).length = k + 1 := by omega
    have hmod : getNumericPart key n % 256 = 0 := by
      rw [getNumericPart_eq hs, padded, hexp, pow_succ, ← Nat.mul_assoc, Nat.mul_mod_left]
    simp only [numericRange] at hlt ⊢
    omega

theorem getNumericPart_last_iff {key : Bytes} {n : ℕ} (h : n ≤ key.length) :
    getNumericPart key n < numericRange - 1 ↔ ¬ HasLastNumber key n := by
  have hadd := numericLen_add n
  have hpre := numericPrefixLength_eq n
  have hcut : getNumericPart key n = value ((key.take n).drop (n - maxNumericPartLen)) := by
    rw [getNumericPart_eq (by omega), padded, List.length_drop,
      Nat.sub_eq_zero_of_le (by omega : computeNumericPartLen n ≤ key.length - computeNumericPrefixLength n), pow_zero,
      Nat.mul_one, List.drop_take, hpre]
    congr 2
    omega
  have hlen : ((key.take n).drop (n - maxNumericPartLen)).length = computeNumericPartLen n := by
    rw [List.length_drop, List.length_take, min_eq_left h]
    omega
  have hlt := (getNumericPart_lt (Nat.le_add_right_of_le h)).trans_le (pow_numericPartLen_le n)
  rcases Nat.lt_or_ge n maxNumericPartLen with hn | hn
  · have hsmall := @getNumericPart_lt key n (Nat.le_add_right_of_le h)
    have hpow : 256 ^ computeNumericPartLen n ≤ 256 ^ 3 := by
      apply Nat.pow_le_pow_right (by decide)
      simp only [computeNumericPartLen, maxNumericPartLen] at hn ⊢
      omega
    refine iff_of_true ?_ fun hc => absurd hc.1 (not_le.mpr hn)
    simp only [numericRange]
    omega
  · have hfour : computeNumericPartLen n = maxNumericPartLen := min_eq_left hn
    have hval : value (List.replicate maxNumericPartLen (255 : Byte)) = numericRange - 1 := by decide
    have heq : getNumericPart key n = numericRange - 1 ↔ HasLastNumber key n := by
      rw [hcut, ← hval]
      constructor
      · intro hv
        exact ⟨hn, h, value_injective (by rw [hlen, hfour, List.length_replicate]) hv⟩
      · exact fun hf => congrArg value hf.2.2
    rw [← heq]
    simp only [numericRange] at hlt ⊢
    omega

theorem numberBelowLast_iff (key : Bytes) (n : ℕ) :
    getNumericPart key n < numericRange - 1 ↔ ¬ HasLastNumber key n := by
  rcases Nat.lt_or_ge key.length n with h | h
  · exact iff_of_true (getNumericPart_padded h) fun hc => absurd hc.2.1 (not_le.mpr h)
  · exact getNumericPart_last_iff h

theorem leastAbove (key : Bytes) (n : ℕ) :
    LeastAbove key n (getNumericPart key n + if n ≤ key.length then 1 else 0) := by
  intro t ht hp
  rcases Nat.lt_or_ge (key.length + maxNumericPartLen) n with hs | hs
  · refine iff_of_true (lt_of_take_fitted hs ht hp) ?_
    rw [getNumericPart_short hs, if_neg (by omega)]
    exact Nat.zero_le _
  · apply lt_iff_leastGreaterKey hs ht
    rw [numericPrefixLength_eq, ← take_fitted hs]
    exact hp.symm

/-- `leastGreaterKey` returns a bound that is exact unless the key has the last number. -/
theorem leastGreaterKey_exact_iff (key : Bytes) (n : ℕ) :
    (∃ least, leastGreaterKey key n = .ok least ∧ LeastAbove key n least) ↔ ¬ HasLastNumber key n := by
  rw [← numberBelowLast_iff]
  constructor
  · rintro ⟨least, hleast, -⟩
    simp only [leastGreaterKey, bind_eq_ok, ensure_eq_ok, exists_const] at hleast
    exact hleast.1
  · intro hlast
    exact ⟨_, by rw [leastGreaterKey, ensure_of hlast]; rfl, leastAbove key n⟩

/-- A start key that reaches a dense leaf of four-byte keys. -/
theorem leastGreaterKey_last : ¬ ∃ least, leastGreaterKey [255, 255, 255, 255] 4 = .ok least ∧
    LeastAbove [255, 255, 255, 255] 4 least := by
  rintro ⟨least, hleast, -⟩
  have hfail : leastGreaterKey [255, 255, 255, 255] 4 = .error .assertion := by decide
  rw [hfail] at hleast
  cases hleast

end BtreeRedis
