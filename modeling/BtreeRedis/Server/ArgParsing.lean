import BtreeRedis.Server.Api

/-!
# The integers that the commands read

`parseIntStrict` against the text of an `int64_t`: an optional minus sign and at least one
digit. It reads the digits as a non-negative number first, so the least `int64_t` overflows,
and it takes a minus sign alone for zero.
-/

namespace BtreeRedis

open Decimal

def InInt64 (z : ℤ) : Prop := -(2 ^ 63) ≤ z ∧ z ≤ int64Max

instance (z : ℤ) : Decidable (InInt64 z) := inferInstanceAs (Decidable (_ ∧ _))

theorem checked_eq_ok {z z' : ℤ} : checked z = .ok z' ↔ InInt64 z ∧ z' = z := by
  unfold checked InInt64
  split_ifs with h
  · exact ⟨fun he => ⟨h, (Except.ok.inj he).symm⟩, fun he => by rw [he.2]⟩
  · exact ⟨fun he => (nomatch he), fun he => absurd he.1 h⟩

def int64Of (buf : Bytes) : Option ℤ :=
  let minus := buf.head? = some 45
  let digits := if minus then buf.drop 1 else buf
  let z : ℤ := if minus then -value digits else value digits
  if digits ≠ [] ∧ digits.all isDigit = true ∧ InInt64 z then some z else none

def minusSign : Bytes := [45]

namespace ArgParsing

theorem parseLoop_eq {buf : Bytes} (val : ℕ) (hval : val ≤ int64Max) :
    parseLoop buf false val = if val * 10 ^ (buf.takeWhile isDigit).length + value (buf.takeWhile isDigit) ≤ int64Max
      then .ok (if buf.all isDigit = true
        then some (val * 10 ^ (buf.takeWhile isDigit).length + value (buf.takeWhile isDigit)) else none)
      else .error .overflow := by
  induction buf generalizing val with
  | nil => simpa [parseLoop] using hval
  | cons byte buf ih =>
    by_cases hb : isDigit byte = true
    · have hvalue : val * 10 ^ (byte :: buf.takeWhile isDigit).length + value (byte :: buf.takeWhile isDigit) =
          (val * 10 + digit byte) * 10 ^ (buf.takeWhile isDigit).length + value (buf.takeWhile isDigit) := by
        have hcons := foldl_eq (byte :: buf.takeWhile isDigit) val
        rw [List.foldl_cons, foldl_eq] at hcons
        exact hcons.symm
      rw [parseLoop, if_pos hb, List.takeWhile_cons_of_pos hb, hvalue, List.all_cons, hb, Bool.true_and]
      by_cases hle : val * 10 + digit byte ≤ int64Max
      · rw [if_pos hle, ih _ hle]
      · have hbig : val * 10 + digit byte ≤ (val * 10 + digit byte) * 10 ^ (buf.takeWhile isDigit).length +
            value (buf.takeWhile isDigit) :=
          (Nat.le_mul_of_pos_right _ (Nat.pow_pos (by decide))).trans (Nat.le_add_right _ _)
        rw [if_neg hle, if_neg fun h => hle (hbig.trans h)]
    · rw [parseLoop, if_neg hb, if_neg fun h => Bool.false_ne_true h.2, List.takeWhile_cons_of_neg hb, List.all_cons,
        Bool.eq_false_iff.mpr hb, Bool.false_and, if_neg Bool.false_ne_true, List.length_nil, value_nil]
      rw [if_pos (by simpa using hval)]

theorem parseLoop_first {byte : Byte} {buf : Bytes} (hb : byte ≠ 45) (val : ℕ) :
    parseLoop (byte :: buf) true val = parseLoop (byte :: buf) false val := by
  simp [parseLoop, hb]

theorem parseLoop_minus (buf : Bytes) (val : ℕ) : parseLoop (45 :: buf) true val = parseLoop buf false val := rfl

def digitsOf (buf : Bytes) : Bytes := if buf.head? = some 45 then buf.drop 1 else buf

def withSign (buf : Bytes) (val : ℕ) : ℤ := if buf.head? = some 45 then -val else val

theorem parseIntStrict_eq_ok {buf : Bytes} (h : buf ≠ []) {val : Option ℤ} :
    parseIntStrict buf = .ok val ↔
      ∃ v, parseLoop (digitsOf buf) false 0 = .ok v ∧ val = v.map (withSign buf) := by
  obtain ⟨byte, rest, rfl⟩ := List.exists_cons_of_ne_nil h
  have hloop : parseLoop (byte :: rest) true 0 = parseLoop (digitsOf (byte :: rest)) false 0 := by
    by_cases hb : byte = 45
    · subst hb
      exact parseLoop_minus rest 0
    · have hhead : ¬ (byte :: rest).head? = some 45 := fun he => hb (Option.some.inj he)
      rw [parseLoop_first hb, digitsOf, if_neg hhead]
  rw [parseIntStrict, if_neg h, hloop, bind_eq_ok]
  refine exists_congr fun v => and_congr_right fun _ => ?_
  rw [pure_eq_ok, eq_comm]
  cases v <;> exact Iff.rfl

theorem parseLoop_start (buf : Bytes) :
    parseLoop buf false 0 = if value (buf.takeWhile isDigit) ≤ int64Max
      then .ok (if buf.all isDigit = true then some (value (buf.takeWhile isDigit)) else none)
      else .error .overflow := by
  rw [parseLoop_eq 0 (Nat.zero_le _), Nat.zero_mul, Nat.zero_add]

theorem parseLoop_zero {buf : Bytes} {v : Option ℕ} (h : parseLoop buf false 0 = .ok v) :
    v = if buf.all isDigit = true then some (value buf) else none := by
  rw [parseLoop_start] at h
  by_cases hd : buf.all isDigit = true
  · rw [List.takeWhile_eq_self_iff.mpr (List.all_eq_true.mp hd), if_pos hd] at h
    split_ifs at h
    rw [if_pos hd, Except.ok.inj h]
  · rw [if_neg hd] at h
    split_ifs at h
    rw [if_neg hd, Except.ok.inj h]

theorem parseLoop_bound {buf : Bytes} {v : ℕ} (h : parseLoop buf false 0 = .ok (some v)) : v ≤ int64Max := by
  rw [parseLoop_start] at h
  split_ifs at h with hle hd
  · rwa [← Option.some.inj (Except.ok.inj h)]
  · cases h

theorem natAbs_withSign (buf : Bytes) (val : ℕ) : (withSign buf val).natAbs = val := by
  unfold withSign
  split_ifs <;> simp

theorem parseIntStrict_bound {buf : Bytes} {z : ℤ} (h : parseIntStrict buf = .ok (some z)) :
    z.natAbs ≤ int64Max := by
  by_cases hbuf : buf = []
  · rw [hbuf] at h
    cases h
  · obtain ⟨v, hv, hz⟩ := (parseIntStrict_eq_ok hbuf).mp h
    obtain ⟨n, rfl, rfl⟩ := Option.map_eq_some_iff.mp hz.symm
    rw [natAbs_withSign]
    exact parseLoop_bound hv

theorem inInt64_of_natAbs {z : ℤ} (h : z.natAbs ≤ int64Max) : InInt64 z := by
  simp only [InInt64, int64Max] at h ⊢
  omega

theorem parseIntStrict_exact {buf : Bytes} {val : Option ℤ} (hbuf : buf ≠ minusSign)
    (h : parseIntStrict buf = .ok val) : val = int64Of buf := by
  by_cases hne : buf = []
  · subst hne
    exact (Except.ok.inj h).symm
  · obtain ⟨v, hv, rfl⟩ := (parseIntStrict_eq_ok hne).mp h
    have hdigits : digitsOf buf ≠ [] := by
      intro hd
      obtain ⟨byte, rest, rfl⟩ := List.exists_cons_of_ne_nil hne
      unfold digitsOf at hd
      split_ifs at hd with hminus
      exact hbuf (by rw [Option.some.inj hminus, show rest = [] from hd, minusSign])
    have hof : int64Of buf = if digitsOf buf ≠ [] ∧ (digitsOf buf).all isDigit = true ∧
        InInt64 (withSign buf (value (digitsOf buf))) then some (withSign buf (value (digitsOf buf)))
        else none := rfl
    rw [hof]
    cases v with
    | none =>
      have hv := parseLoop_zero hv
      split_ifs at hv with hd
      rw [if_neg fun hc => hd hc.2.1, Option.map_none]
    | some v =>
      have hbound := parseLoop_bound hv
      have hv := parseLoop_zero hv
      split_ifs at hv with hd
      obtain rfl := Option.some.inj hv
      rw [if_pos ⟨hdigits, hd, inInt64_of_natAbs (by rwa [natAbs_withSign])⟩]
      rfl

theorem parseIntStrict_minusSign : parseIntStrict minusSign = .ok (some 0) := rfl

theorem int64Of_minusSign : int64Of minusSign = none := by decide

theorem signedText_signs {z : ℤ} :
    signedText z ≠ [] ∧ digitsOf (signedText z) = text z.natAbs ∧ withSign (signedText z) z.natAbs = z := by
  by_cases hz : z < 0
  · rw [signedText_minus hz]
    refine ⟨List.cons_ne_nil _ _, rfl, ?_⟩
    have hhead : (45 :: text z.natAbs : Bytes).head? = some 45 := rfl
    rw [withSign, if_pos hhead]
    omega
  · rw [signedText_digits hz]
    have hhead : ¬ (text z.natAbs).head? = some 45 := by
      intro he
      have hd := isDigit_text (List.mem_of_mem_head? he)
      cases hd
    refine ⟨text_ne_nil _, if_neg hhead, ?_⟩
    rw [withSign, if_neg hhead]
    omega

theorem all_text (n : ℕ) : (text n).all isDigit = true := List.all_eq_true.mpr fun _ hb => isDigit_text hb

theorem parseIntStrict_signedText {z : ℤ} (h : z.natAbs ≤ int64Max) :
    parseIntStrict (signedText z) = .ok (some z) := by
  obtain ⟨hne, hdigits, hsign⟩ := signedText_signs (z := z)
  rw [parseIntStrict_eq_ok hne]
  refine ⟨some z.natAbs, ?_, by rw [Option.map_some, hsign]⟩
  rw [hdigits, parseLoop_start, List.takeWhile_eq_self_iff.mpr (List.all_eq_true.mp (all_text _)), value_text,
    if_pos h, if_pos (all_text _)]

theorem int64Of_signedText {z : ℤ} (h : InInt64 z) : int64Of (signedText z) = some z := by
  obtain ⟨-, hdigits, hsign⟩ := signedText_signs (z := z)
  have hof : int64Of (signedText z) = if digitsOf (signedText z) ≠ [] ∧
      (digitsOf (signedText z)).all isDigit = true ∧
      InInt64 (withSign (signedText z) (value (digitsOf (signedText z)))) then
      some (withSign (signedText z) (value (digitsOf (signedText z)))) else none := rfl
  rw [hof, hdigits, value_text, hsign, if_pos ⟨text_ne_nil _, all_text _, h⟩]

def leadingDigits (buf : Bytes) : Bytes := (digitsOf buf).takeWhile isDigit

/-- Every text is read as the integer that it denotes or as none, but for the minus sign alone and the
texts whose digits exceed an `int64_t` before they end. -/
theorem parseIntStrict_exact_iff (buf : Bytes) :
    parseIntStrict buf = .ok (int64Of buf) ↔ buf ≠ minusSign ∧ value (leadingDigits buf) ≤ int64Max := by
  by_cases hne : buf = []
  · subst hne
    exact iff_of_true rfl ⟨by decide, Nat.zero_le _⟩
  · constructor
    · intro h
      refine ⟨fun hbuf => ?_, ?_⟩
      · rw [hbuf, parseIntStrict_minusSign, int64Of_minusSign] at h
        cases h
      · obtain ⟨v, hv, -⟩ := (parseIntStrict_eq_ok hne).mp h
        rw [parseLoop_start] at hv
        by_cases hle : value (leadingDigits buf) ≤ int64Max
        · exact hle
        · rw [leadingDigits] at hle
          rw [if_neg hle] at hv
          cases hv
    · rintro ⟨hbuf, hle⟩
      have hloop := parseLoop_start (digitsOf buf)
      rw [leadingDigits] at hle
      rw [if_pos hle] at hloop
      have hparse := (parseIntStrict_eq_ok hne).mpr ⟨_, hloop, rfl⟩
      rw [hparse, parseIntStrict_exact hbuf hparse]

theorem parseIntStrict_inexact : parseIntStrict minusSign ≠ .ok (int64Of minusSign) := by
  rw [parseIntStrict_minusSign, int64Of_minusSign]
  exact fun h => nomatch Except.ok.inj h

end ArgParsing

end BtreeRedis
