import BtreeRedis.Page
import BtreeRedis.Lib.BigEndian

/-!
# The numeric part of a key

A dense leaf numbers its keys by their last four bytes, or all of them if there are
fewer. `getNumericPart` reads a key as if it were cut or padded to the target length,
`leastGreaterKey` is the number of the first key above, and `restoreKey` goes back
from a number to the key.
-/

namespace BtreeRedis

open LexOrder BigEndian

@[simp] def maxNumericPartLen : ℕ := 4

/-- `UINT32_MAX + 1` -/
@[simp] def numericRange : ℕ := 2 ^ 32

def computeNumericPartLen (fullKeyLen : ℕ) : ℕ := min maxNumericPartLen fullKeyLen

def computeNumericPrefixLength (fullKeyLen : ℕ) : ℕ := fullKeyLen - computeNumericPartLen fullKeyLen

/-- The key is not prefix truncated. The switch over the lengths up to three and the default case
all read the last four bytes, as far as there are so many. -/
def getNumericPart (key : Bytes) (targetLength : ℕ) : ℕ :=
  let key := key.take targetLength
  if key.length + maxNumericPartLen ≤ targetLength then 0
  else value (key.drop (key.length - maxNumericPartLen)) * 2 ^ (8 * (targetLength - key.length)) %
    numericRange

def leastGreaterKey (key : Bytes) (targetLength : ℕ) : Except Fault ℕ := do
  ensure (getNumericPart key targetLength < numericRange - 1) .assertion
  pure (getNumericPart key targetLength + if targetLength ≤ key.length then 1 else 0)

def restoreKey (arrayStart fullKeyLen : ℕ) (pre : Bytes) (index : ℕ) : Bytes :=
  pre.take (computeNumericPrefixLength fullKeyLen) ++
    digits (computeNumericPartLen fullKeyLen) ((arrayStart + index) % numericRange)

theorem numericLen_add (n : ℕ) : computeNumericPrefixLength n + computeNumericPartLen n = n := by
  simp only [computeNumericPrefixLength, computeNumericPartLen, maxNumericPartLen]
  omega

theorem numericPrefixLength_eq (n : ℕ) : computeNumericPrefixLength n = n - maxNumericPartLen := by
  simp only [computeNumericPrefixLength, computeNumericPartLen, maxNumericPartLen]
  omega

theorem numericPartLen_le (n : ℕ) : computeNumericPartLen n ≤ 4 := min_le_left _ _

theorem pow_numericPartLen_le (n : ℕ) : 256 ^ computeNumericPartLen n ≤ numericRange :=
  (Nat.pow_le_pow_right (by decide) (numericPartLen_le n)).trans (by decide)

theorem getNumericPart_eq {key : Bytes} {n : ℕ} (h : n ≤ key.length + maxNumericPartLen) :
    getNumericPart key n =
      padded (key.drop (computeNumericPrefixLength n)) (computeNumericPartLen n) := by
  have hlt := padded_lt (by decide) (key.drop (computeNumericPrefixLength n)) (computeNumericPartLen n)
  have hpow := pow_numericPartLen_le n
  have hP := numericPrefixLength_eq n
  have hn := numericLen_add n
  have h4 : maxNumericPartLen = 4 := rfl
  set P := computeNumericPrefixLength n with hPdef
  set np := computeNumericPartLen n with hnp
  unfold getNumericPart
  rcases Nat.lt_or_ge key.length n with hl | hl
  · rw [List.take_of_length_le hl.le]
    dsimp only
    split_ifs with hshort
    · rw [padded, List.drop_of_length_le (by omega), List.take_nil, value_nil, Nat.zero_mul]
    · have hsplit : key.drop (key.length - maxNumericPartLen) =
          (key.drop (key.length - maxNumericPartLen)).take (P - (key.length - maxNumericPartLen)) ++
            key.drop P := by
        conv_lhs => rw [← List.take_append_drop (P - (key.length - maxNumericPartLen))
          (key.drop (key.length - maxNumericPartLen))]
        rw [List.drop_drop]
        congr 2
        omega
      have hpad : padded (key.drop P) np = value (key.drop P) * 256 ^ (n - key.length) := by
        rw [padded, List.take_of_length_le (by rw [List.length_drop]; omega), List.length_drop]
        congr 2
        omega
      have hexp : 2 ^ (8 * (n - key.length)) = 256 ^ (n - key.length) := by
        rw [pow_mul]
        norm_num
      rw [hexp, hsplit, value_append, Nat.add_mul, Nat.mul_assoc, ← pow_add, ← hpad, List.length_drop]
      rcases Nat.lt_or_ge n maxNumericPartLen with hn4 | hn4
      · have hz : P - (key.length - maxNumericPartLen) = 0 := by omega
        rw [hz, List.take_zero, value_nil, Nat.zero_mul, Nat.zero_add]
        exact Nat.mod_eq_of_lt (hlt.trans_le hpow)
      · have hnp4 : np = 4 := by omega
        have hcarry : key.length - P + (n - key.length) = 4 := by omega
        have h32 : numericRange = 256 ^ 4 := by decide
        rw [hnp4] at hlt ⊢
        rw [hcarry, h32, Nat.add_comm, Nat.add_mul_mod_self_right, Nat.mod_eq_of_lt hlt]
  · have hlen : (key.take n).length = n := by simpa using hl
    have hpad : padded (key.drop P) np = value ((key.drop P).take np) := by
      rw [padded, List.length_drop, Nat.sub_eq_zero_of_le (by omega), pow_zero, Nat.mul_one]
    have hnP : n - P = np := by omega
    dsimp only
    rw [hlen, if_neg (by omega), Nat.sub_self, Nat.mul_zero, pow_zero, Nat.mul_one, List.drop_take,
      ← hP, hnP, ← hpad]
    exact Nat.mod_eq_of_lt (hlt.trans_le hpow)

theorem getNumericPart_of_length {key : Bytes} {n : ℕ} (h : key.length = n) :
    getNumericPart key n = value (key.drop (computeNumericPrefixLength n)) := by
  rw [getNumericPart_eq (by omega), padded_of_length]
  rw [List.length_drop, h]
  have := numericLen_add n
  omega

theorem getNumericPart_lt {key : Bytes} {n : ℕ} (h : n ≤ key.length + maxNumericPartLen) :
    getNumericPart key n < 256 ^ computeNumericPartLen n := by
  rw [getNumericPart_eq h]
  exact padded_lt (by decide) _ _

theorem lt_iff_drop_lt {s t : Bytes} {p : ℕ} (h : s.take p = t.take p) :
    s < t ↔ s.drop p < t.drop p := by
  conv_lhs => rw [← List.take_append_drop p s, ← List.take_append_drop p t, h, append_lt_append_iff]

theorem lt_iff_leastGreaterKey {fence key : Bytes} {n : ℕ} (hf : n ≤ fence.length + maxNumericPartLen)
    (hk : key.length = n)
    (hp : fence.take (computeNumericPrefixLength n) = key.take (computeNumericPrefixLength n)) :
    fence < key ↔
      getNumericPart fence n + (if n ≤ fence.length then 1 else 0) ≤ getNumericPart key n := by
  have hn := numericLen_add n
  have hP := numericPrefixLength_eq n
  have hdrop : (key.drop (computeNumericPrefixLength n)).length = computeNumericPartLen n := by
    rw [List.length_drop]
    omega
  have hle : computeNumericPartLen n ≤ (fence.drop (computeNumericPrefixLength n)).length ↔
      n ≤ fence.length := by
    simp only [List.length_drop, maxNumericPartLen] at hf hP ⊢
    omega
  rw [lt_iff_drop_lt hp, lt_iff_padded, hdrop, ← getNumericPart_eq hf, getNumericPart_of_length hk]
  simp only [hle]

theorem length_restoreKey {arrayStart n : ℕ} {pre : Bytes} (h : n ≤ pre.length + maxNumericPartLen)
    (i : ℕ) : (restoreKey arrayStart n pre i).length = n := by
  have hn := numericLen_add n
  have hP := numericPrefixLength_eq n
  rw [restoreKey, List.length_append, length_digits, List.length_take]
  omega

theorem restoreKey_eq (arrayStart n : ℕ) (pre : Bytes) (i : ℕ) :
    restoreKey arrayStart n pre i =
      pre.take (computeNumericPrefixLength n) ++ digits (computeNumericPartLen n) (arrayStart + i) := by
  have h32 : numericRange = 256 ^ 4 := by decide
  rw [restoreKey, h32, digits_mod (numericPartLen_le n)]

theorem take_restoreKey {arrayStart n : ℕ} {pre : Bytes} (h : n ≤ pre.length + maxNumericPartLen)
    (i : ℕ) : (restoreKey arrayStart n pre i).take (computeNumericPrefixLength n) =
      pre.take (computeNumericPrefixLength n) := by
  have hP := numericPrefixLength_eq n
  rw [restoreKey, List.take_append_of_le_length (by rw [List.length_take]; omega), List.take_take,
    min_self]

theorem getNumericPart_restoreKey {arrayStart n : ℕ} {pre : Bytes}
    (h : n ≤ pre.length + maxNumericPartLen) {i : ℕ}
    (hi : arrayStart + i < 256 ^ computeNumericPartLen n) :
    getNumericPart (restoreKey arrayStart n pre i) n = arrayStart + i := by
  have hP := numericPrefixLength_eq n
  have hl : (pre.take (computeNumericPrefixLength n)).length = computeNumericPrefixLength n := by
    rw [List.length_take]
    omega
  rw [getNumericPart_of_length (length_restoreKey h i), restoreKey_eq, List.drop_append, hl,
    Nat.sub_self, List.drop_zero, List.drop_of_length_le hl.le, List.nil_append, value_digits,
    Nat.mod_eq_of_lt hi]

theorem restoreKey_getNumericPart {arrayStart n : ℕ} {pre key : Bytes} {i : ℕ} (hk : key.length = n)
    (hp : pre.take (computeNumericPrefixLength n) = key.take (computeNumericPrefixLength n))
    (hi : getNumericPart key n = arrayStart + i) : restoreKey arrayStart n pre i = key := by
  have hn := numericLen_add n
  rw [restoreKey_eq, hp, ← hi, getNumericPart_of_length hk, digits_value, List.take_append_drop]
  rw [List.length_drop, hk]
  omega

theorem restoreKey_lt {arrayStart n : ℕ} (pre : Bytes) {i j : ℕ} (hij : i < j)
    (hj : arrayStart + j < 256 ^ computeNumericPartLen n) :
    restoreKey arrayStart n pre i < restoreKey arrayStart n pre j := by
  rw [restoreKey_eq, restoreKey_eq, append_lt_append_iff]
  exact digits_lt_digits (by omega) hj

theorem getNumericPart_append (pre rest : Bytes) :
    (getNumericPart pre (pre.length + rest.length) + getNumericPart rest rest.length) % numericRange =
      getNumericPart (pre ++ rest) (pre.length + rest.length) := by
  have h4 : maxNumericPartLen = 4 := rfl
  have hPn := numericPrefixLength_eq (pre.length + rest.length)
  have hPr := numericPrefixLength_eq rest.length
  have hn := numericLen_add (pre.length + rest.length)
  have hlt : getNumericPart (pre ++ rest) (pre.length + rest.length) < numericRange :=
    (getNumericPart_lt (by simp)).trans_le (pow_numericPartLen_le _)
  have hl : (pre ++ rest).length = pre.length + rest.length := List.length_append
  have hfull := getNumericPart_of_length hl
  have hrest : rest.length = rest.length := rfl
  rw [getNumericPart_of_length hrest]
  rcases Nat.lt_or_ge rest.length maxNumericPartLen with hr | hr
  · have hP0 : computeNumericPrefixLength rest.length = 0 := by omega
    have hsum : getNumericPart pre (pre.length + rest.length) + value rest =
        getNumericPart (pre ++ rest) (pre.length + rest.length) := by
      rw [hfull, List.drop_append_of_le_length (by omega), value_append,
        getNumericPart_eq (by omega), padded, List.take_of_length_le (by rw [List.length_drop]; omega),
        List.length_drop]
      congr 3
      omega
    rw [hP0, List.drop_zero, hsum, Nat.mod_eq_of_lt hlt]
  · have hzero : getNumericPart pre (pre.length + rest.length) = 0 := by
      rw [getNumericPart, List.take_of_length_le (by omega)]
      exact if_pos (by omega)
    have hdrop : (pre ++ rest).drop (computeNumericPrefixLength (pre.length + rest.length)) =
        rest.drop (computeNumericPrefixLength rest.length) := by
      rw [List.drop_append, List.drop_of_length_le (by omega), List.nil_append]
      congr 1
      omega
    rw [← hdrop, ← hfull, hzero, Nat.zero_add, Nat.mod_eq_of_lt hlt]

end BtreeRedis
