import BtreeRedis.Lib.LexOrder

/-!
# Big-endian numbers

Digit strings to the base `b` read as numbers and back. For strings of one length
the lexicographic order is the numeric one, and a shorter or longer string compares
with them like the number it is padded or cut to.
-/

namespace BtreeRedis.BigEndian

open LexOrder

variable {b : ℕ}

def value (s : List (Fin b)) : ℕ := s.foldl (fun acc d => acc * b + d.val) 0

theorem foldl_eq (s : List (Fin b)) (acc : ℕ) :
    s.foldl (fun acc d => acc * b + d.val) acc = acc * b ^ s.length + value s := by
  induction s generalizing acc with
  | nil => simp [value]
  | cons d s ih =>
    have hv : value (d :: s) = (0 * b + d.val) * b ^ s.length + value s := ih _
    rw [List.foldl_cons, ih, hv, List.length_cons, pow_succ]
    ring

@[simp] theorem value_nil : value ([] : List (Fin b)) = 0 := rfl

@[simp] theorem value_cons (d : Fin b) (s : List (Fin b)) :
    value (d :: s) = d.val * b ^ s.length + value s := by
  rw [value, List.foldl_cons, foldl_eq]
  simp

theorem value_append (s t : List (Fin b)) : value (s ++ t) = value s * b ^ t.length + value t := by
  rw [value, List.foldl_append, foldl_eq]
  rfl

theorem value_lt (s : List (Fin b)) : value s < b ^ s.length := by
  induction s with
  | nil => simp
  | cons d s ih =>
    rw [value_cons, List.length_cons, pow_succ]
    calc d.val * b ^ s.length + value s < d.val * b ^ s.length + b ^ s.length := by omega
      _ = (d.val + 1) * b ^ s.length := by ring
      _ ≤ b ^ s.length * b := by
        rw [Nat.mul_comm]
        exact Nat.mul_le_mul_left _ d.isLt

theorem lt_iff_value_lt {s t : List (Fin b)} (h : s.length = t.length) :
    s < t ↔ value s < value t := by
  induction s generalizing t with
  | nil =>
    obtain rfl : t = [] := List.length_eq_zero_iff.mp h.symm
    simp
  | cons d s ih =>
    cases t with
    | nil => simp at h
    | cons e t =>
      have hl : s.length = t.length := by simpa using h
      have hs := value_lt s
      have ht := value_lt t
      rw [cons_lt_cons, value_cons, value_cons, ih hl, ← hl, Fin.lt_def, Fin.ext_iff]
      rw [← hl] at ht
      constructor
      · rintro (hde | ⟨hde, hst⟩)
        · have hm : (d.val + 1) * b ^ s.length ≤ e.val * b ^ s.length := Nat.mul_le_mul_right _ hde
          rw [Nat.add_mul, Nat.one_mul] at hm
          omega
        · rw [hde]
          omega
      · intro hlt
        rcases Nat.lt_trichotomy d.val e.val with hde | hde | hde
        · exact Or.inl hde
        · rw [hde] at hlt
          exact Or.inr ⟨hde, by omega⟩
        · have hm : (e.val + 1) * b ^ s.length ≤ d.val * b ^ s.length := Nat.mul_le_mul_right _ hde
          rw [Nat.add_mul, Nat.one_mul] at hm
          omega

theorem le_iff_value_le {s t : List (Fin b)} (h : s.length = t.length) :
    s ≤ t ↔ value s ≤ value t := by
  rw [← not_lt, ← not_lt, lt_iff_value_lt h.symm]

theorem value_injective {s t : List (Fin b)} (h : s.length = t.length) (hv : value s = value t) :
    s = t :=
  le_antisymm ((le_iff_value_le h).mpr hv.le) ((le_iff_value_le h.symm).mpr hv.ge)

def digits [NeZero b] : ℕ → ℕ → List (Fin b)
  | 0, _ => []
  | w + 1, x => Fin.ofNat b (x / b ^ w) :: digits w x

section Digits
variable [NeZero b]

@[simp] theorem length_digits (w x : ℕ) : (digits w x : List (Fin b)).length = w := by
  induction w with
  | zero => rfl
  | succ w ih => simp [digits, ih]

theorem value_digits (w x : ℕ) : value (digits w x : List (Fin b)) = x % b ^ w := by
  induction w with
  | zero => simp [digits, Nat.mod_one]
  | succ w ih =>
    rw [digits, value_cons, length_digits, ih, Fin.val_ofNat, pow_succ, Nat.mod_mul]
    ring

theorem digits_value {s : List (Fin b)} {w : ℕ} (h : s.length = w) : digits w (value s) = s := by
  refine value_injective (by rw [length_digits, h]) ?_
  rw [value_digits, ← h, Nat.mod_eq_of_lt (value_lt s)]

theorem digits_mod {w e x : ℕ} (h : w ≤ e) : (digits w (x % b ^ e) : List (Fin b)) = digits w x := by
  refine value_injective (by simp) ?_
  rw [value_digits, value_digits, Nat.mod_mod_of_dvd _ (pow_dvd_pow b h)]

theorem digits_drop {w d x : ℕ} (h : d ≤ w) :
    (digits w x : List (Fin b)).drop d = digits (w - d) x := by
  induction w generalizing d with
  | zero => simp [digits]
  | succ w ih =>
    cases d with
    | zero => rfl
    | succ d => simpa [digits] using ih (Nat.succ_le_succ_iff.mp h)

theorem digits_lt_digits {w x y : ℕ} (hxy : x < y) (hy : y < b ^ w) :
    (digits w x : List (Fin b)) < digits w y := by
  rw [lt_iff_value_lt (by simp), value_digits, value_digits, Nat.mod_eq_of_lt hy,
    Nat.mod_eq_of_lt (hxy.trans hy)]
  exact hxy

end Digits

/-- A string cut or padded with zeros to `w` digits, as a number. -/
def padded (s : List (Fin b)) (w : ℕ) : ℕ := value (s.take w) * b ^ (w - s.length)

theorem padded_of_length {s : List (Fin b)} {w : ℕ} (h : s.length = w) : padded s w = value s := by
  subst h
  simp [padded]

theorem padded_cons (d : Fin b) (s : List (Fin b)) (w : ℕ) :
    padded (d :: s) (w + 1) = d.val * b ^ w + padded s w := by
  rw [padded, padded, List.take_succ_cons, value_cons, List.length_take, List.length_cons,
    Nat.add_sub_add_right, Nat.add_mul, Nat.mul_assoc, ← pow_add]
  congr 3
  omega

@[simp] theorem padded_nil (w : ℕ) : padded ([] : List (Fin b)) w = 0 := by
  simp [padded]

@[simp] theorem padded_zero (s : List (Fin b)) : padded s 0 = 0 := by
  simp [padded]

theorem padded_lt (hb : 0 < b) (s : List (Fin b)) (w : ℕ) : padded s w < b ^ w := by
  rw [padded]
  calc value (s.take w) * b ^ (w - s.length)
      < b ^ (s.take w).length * b ^ (w - s.length) := Nat.mul_lt_mul_of_pos_right (value_lt _) (Nat.pow_pos hb)
    _ = b ^ w := by
      rw [← pow_add, List.length_take]
      congr 1
      omega

theorem padded_append {d s : List (Fin b)} {w : ℕ} (h : d.length ≤ w) :
    padded (d ++ s) w = value d * b ^ (w - d.length) + padded s (w - d.length) := by
  induction d generalizing w with
  | nil => simp
  | cons a d ih =>
    obtain ⟨v, rfl⟩ := Nat.exists_eq_succ_of_ne_zero (Nat.ne_zero_of_lt (Nat.lt_of_lt_of_le (Nat.succ_pos _) h))
    have hd : d.length ≤ v := by simpa using h
    have hpow : b ^ v = b ^ d.length * b ^ (v - d.length) := by rw [← pow_add, Nat.add_sub_cancel' hd]
    rw [List.cons_append, padded_cons, ih hd, value_cons, List.length_cons, Nat.succ_sub_succ, Nat.add_mul,
      Nat.mul_assoc, ← hpow, Nat.add_assoc]

theorem padded_add {s : List (Fin b)} {w : ℕ} (h : s.length ≤ w) (k : ℕ) : padded s (w + k) = padded s w * b ^ k := by
  have hk : w + k - s.length = w - s.length + k := by omega
  rw [padded, padded, List.take_of_length_le h, List.take_of_length_le (h.trans (Nat.le_add_right w k)), hk, pow_add,
    Nat.mul_assoc]

theorem value_pad {s : List (Fin b)} [NeZero b] {w : ℕ} (h : s.length ≤ w) :
    value (s ++ List.replicate (w - s.length) 0) = padded s w := by
  have hz : ∀ k, value (List.replicate k (0 : Fin b)) = 0 := by
    intro k
    induction k with
    | zero => rfl
    | succ k ih => rw [List.replicate_succ, value_cons, ih, Fin.val_zero, Nat.zero_mul, Nat.add_zero]
  rw [value_append, hz, List.length_replicate, padded, List.take_of_length_le h, Nat.add_zero]

theorem lead_lt {d e c p q : ℕ} (hp : p < c) (hq : q < c) :
    d * c + p < e * c + q ↔ d < e ∨ d = e ∧ p < q := by
  rcases Nat.lt_trichotomy d e with hde | rfl | hde
  · have hm : (d + 1) * c ≤ e * c := Nat.mul_le_mul_right _ hde
    rw [Nat.add_mul, Nat.one_mul] at hm
    exact iff_of_true (by omega) (Or.inl hde)
  · simp
  · have hm : (e + 1) * c ≤ d * c := Nat.mul_le_mul_right _ hde
    rw [Nat.add_mul, Nat.one_mul] at hm
    refine iff_of_false (by omega) ?_
    rintro (h | ⟨h, -⟩) <;> omega

theorem lead_eq {d e c p q : ℕ} (hp : p < c) (hq : q < c) : d * c + p = e * c + q ↔ d = e ∧ p = q := by
  constructor
  · intro h
    rcases Nat.lt_trichotomy d e with hde | rfl | hde
    · have hlt := (lead_lt hp hq).mpr (Or.inl hde)
      omega
    · exact ⟨rfl, by omega⟩
    · have hlt := (lead_lt hq hp).mpr (Or.inl hde)
      omega
  · rintro ⟨rfl, rfl⟩
    rfl

theorem lt_iff_padded {s t : List (Fin b)} :
    s < t ↔ padded s t.length + (if t.length ≤ s.length then 1 else 0) ≤ value t := by
  induction s generalizing t with
  | nil =>
    cases t with
    | nil => simp [padded]
    | cons e t => simp [padded]
  | cons d s ih =>
    cases t with
    | nil => simp [padded]
    | cons e t =>
      have hlt : padded s t.length < b ^ t.length := padded_lt (Nat.zero_lt_of_lt e.isLt) s _
      have ht := value_lt t
      rw [cons_lt_cons, ih, List.length_cons, padded_cons, value_cons, Fin.lt_def, Fin.ext_iff]
      simp only [List.length_cons, Nat.add_le_add_iff_right]
      set c := if t.length ≤ s.length then 1 else 0 with hc
      have hc1 : c ≤ 1 := by
        rw [hc]
        split_ifs <;> omega
      rcases Nat.lt_trichotomy d.val e.val with hde | hde | hde
      · have hm : (d.val + 1) * b ^ t.length ≤ e.val * b ^ t.length := Nat.mul_le_mul_right _ hde
        rw [Nat.add_mul, Nat.one_mul] at hm
        exact iff_of_true (Or.inl hde) (by omega)
      · rw [hde]
        constructor
        · rintro (h | ⟨-, h⟩) <;> omega
        · exact fun h => Or.inr ⟨rfl, by omega⟩
      · have hm : (e.val + 1) * b ^ t.length ≤ d.val * b ^ t.length := Nat.mul_le_mul_right _ hde
        rw [Nat.add_mul, Nat.one_mul] at hm
        refine iff_of_false ?_ (by omega)
        rintro (h | ⟨h, -⟩) <;> omega

theorem padded_mono {s t : List (Fin b)} (h : s ≤ t) (w : ℕ) : padded s w ≤ padded t w := by
  induction s generalizing t w with
  | nil =>
    rw [padded_nil]
    exact Nat.zero_le _
  | cons d s ih =>
    cases t with
    | nil => exact absurd h (not_le.mpr (List.nil_lt_cons d s))
    | cons e t =>
      cases w with
      | zero => rw [padded_zero, padded_zero]
      | succ w =>
        have hb : 0 < b := Nat.zero_lt_of_lt e.isLt
        rw [← not_lt, cons_lt_cons] at h
        rw [padded_cons, padded_cons, ← not_lt, lead_lt (padded_lt hb t w) (padded_lt hb s w)]
        rintro (hde | ⟨hde, hlt⟩)
        · exact h (Or.inl hde)
        · refine absurd (ih ?_ w) (not_le.mpr hlt)
          rw [← not_lt]
          exact fun hts => h (Or.inr ⟨Fin.ext hde, hts⟩)

theorem le_iff_padded_length {k s : List (Fin b)} {w : ℕ} (h : s.length ≤ w) :
    k ≤ s ↔ padded k w < padded s w ∨ padded k w = padded s w ∧ min k.length (w + 1) ≤ s.length := by
  induction w generalizing k s with
  | zero =>
    obtain rfl : s = [] := List.length_eq_zero_iff.mp (Nat.le_zero.mp h)
    cases k with
    | nil => simp
    | cons d k =>
      refine iff_of_false (not_le.mpr (List.nil_lt_cons d k)) ?_
      simp
  | succ w ih =>
    cases k with
    | nil =>
      refine iff_of_true (nil_le s) ?_
      rw [padded_nil, List.length_nil, Nat.zero_min]
      exact (Nat.eq_zero_or_pos (padded s (w + 1))).elim (fun h0 => Or.inr ⟨h0.symm, Nat.zero_le _⟩) Or.inl
    | cons d k =>
      cases s with
      | nil =>
        refine iff_of_false (not_le.mpr (List.nil_lt_cons d k)) ?_
        rw [padded_nil, List.length_nil, List.length_cons]
        omega
      | cons e s =>
        have hb : 0 < b := Nat.zero_lt_of_lt e.isLt
        have hk := padded_lt hb k w
        have hs := padded_lt hb s w
        have hcons : d :: k ≤ e :: s ↔ d < e ∨ d = e ∧ k ≤ s := by
          rw [← not_lt, cons_lt_cons, ← not_lt]
          constructor
          · intro hn
            rcases lt_trichotomy d e with hde | hde | hde
            · exact Or.inl hde
            · exact Or.inr ⟨hde, fun hlt => hn (Or.inr ⟨hde.symm, hlt⟩)⟩
            · exact absurd (Or.inl hde) hn
          · rintro (hde | ⟨rfl, hn⟩) (hed | ⟨he, hlt⟩)
            · exact lt_asymm hde hed
            · exact hde.ne he.symm
            · exact lt_irrefl _ hed
            · exact hn hlt
        have hlen : s.length ≤ w := by simpa using h
        rw [hcons, ih hlen, padded_cons, padded_cons, lead_lt hk hs, lead_eq hk hs, Fin.lt_def, Fin.ext_iff,
          List.length_cons, List.length_cons, Nat.add_min_add_right, Nat.add_le_add_iff_right]
        tauto

end BtreeRedis.BigEndian
