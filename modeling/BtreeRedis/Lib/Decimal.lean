import BtreeRedis.Lib.Byte

/-!
# Decimal text

Numbers as ASCII digit strings. A digit string is read from left to right, so the
value of a part read so far never exceeds that of the whole, which is what a reader
with a bounded accumulator needs.
-/

namespace BtreeRedis.Decimal

def isDigit (b : Fin 256) : Bool := 48 ≤ b.val && b.val ≤ 57

def digit (b : Fin 256) : ℕ := b.val - 48

def value (s : List (Fin 256)) : ℕ := s.foldl (fun acc b => acc * 10 + digit b) 0

def text (n : ℕ) : List (Fin 256) :=
  if n = 0 then [48] else (Nat.digits 10 n).reverse.map fun d => Fin.ofNat 256 (d + 48)

def signedText (z : ℤ) : List (Fin 256) := if z < 0 then 45 :: text z.natAbs else text z.natAbs

@[simp] theorem value_nil : value [] = 0 := rfl

theorem foldl_eq (s : List (Fin 256)) (acc : ℕ) :
    s.foldl (fun acc b => acc * 10 + digit b) acc = acc * 10 ^ s.length + value s := by
  induction s generalizing acc with
  | nil => simp
  | cons b s ih =>
    have hv : value (b :: s) = (0 * 10 + digit b) * 10 ^ s.length + value s := ih _
    rw [List.foldl_cons, ih, hv, List.length_cons, pow_succ]
    ring

theorem value_append (s t : List (Fin 256)) :
    value (s ++ t) = value s * 10 ^ t.length + value t := by
  rw [value, List.foldl_append, foldl_eq]
  rfl

theorem value_concat (s : List (Fin 256)) (b : Fin 256) : value (s ++ [b]) = value s * 10 + digit b := by
  simp [value]

theorem digit_ofNat {d : ℕ} (h : d < 10) : digit (Fin.ofNat 256 (d + 48)) = d := by
  simp only [digit, Fin.ofNat]
  omega

theorem isDigit_ofNat {d : ℕ} (h : d < 10) : isDigit (Fin.ofNat 256 (d + 48)) = true := by
  simp only [isDigit, Fin.ofNat, Bool.and_eq_true, decide_eq_true_eq]
  omega

theorem value_digits (l : List ℕ) (h : ∀ d ∈ l, d < 10) :
    value (l.reverse.map fun d => Fin.ofNat 256 (d + 48)) = Nat.ofDigits 10 l := by
  induction l with
  | nil => rfl
  | cons d l ih =>
    rw [List.reverse_cons, List.map_append, List.map_singleton, value_concat,
      ih fun x hx => h x (List.mem_cons_of_mem _ hx), digit_ofNat (h d List.mem_cons_self),
      Nat.ofDigits_cons]
    ring

theorem value_text (n : ℕ) : value (text n) = n := by
  by_cases hn : n = 0
  · subst hn
    rfl
  · rw [text, if_neg hn, value_digits _ fun d hd => Nat.digits_lt_base (by decide) hd,
      Nat.ofDigits_digits]

theorem isDigit_text {n : ℕ} {b : Fin 256} (h : b ∈ text n) : isDigit b = true := by
  by_cases hn : n = 0
  · subst hn
    obtain rfl : b = 48 := by simpa [text] using h
    rfl
  · rw [text, if_neg hn, List.mem_map] at h
    obtain ⟨d, hd, rfl⟩ := h
    exact isDigit_ofNat (Nat.digits_lt_base (by decide) (List.mem_reverse.mp hd))

theorem text_ne_nil (n : ℕ) : text n ≠ [] := by
  by_cases hn : n = 0
  · simp [text, hn]
  · simp [text, hn, Nat.digits_ne_nil_iff_ne_zero]

theorem signedText_digits {z : ℤ} (h : ¬ z < 0) : signedText z = text z.natAbs := if_neg h

theorem signedText_minus {z : ℤ} (h : z < 0) : signedText z = 45 :: text z.natAbs := if_pos h

end BtreeRedis.Decimal
