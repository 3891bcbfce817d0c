import Mathlib

/-!
# Lexicographic order and common prefixes

General facts about lists over a linear order, compared lexicographically. The
window between two lists is convex for prefixes: a prefix of both ends is a
prefix of everything between them. Nothing here mentions a program.
-/

namespace BtreeRedis.LexOrder

variable {α : Type*} [LinearOrder α]

theorem cons_lt_cons {a b : α} {s t : List α} :
    a :: s < b :: t ↔ a < b ∨ a = b ∧ s < t :=
  List.cons_lt_cons_iff

theorem nil_le (s : List α) : [] ≤ s :=
  not_lt.mp (List.not_lt_nil s)

theorem pos_of_ne_nil {s : List α} (h : s ≠ []) : [] < s :=
  lt_of_le_of_ne (nil_le s) (Ne.symm h)

theorem ne_nil_of_lt {s t : List α} (h : s < t) : t ≠ [] := by
  rintro rfl
  exact List.not_lt_nil s h

@[simp] theorem append_lt_append_iff {p s t : List α} : p ++ s < p ++ t ↔ s < t := by
  induction p with
  | nil => rfl
  | cons a p ih => simp [ih]

@[simp] theorem append_le_append_iff {p s t : List α} : p ++ s ≤ p ++ t ↔ s ≤ t := by
  rw [← not_lt, ← not_lt, append_lt_append_iff]

theorem le_append_right (s t : List α) : s ≤ s ++ t := by
  have h : s ++ [] ≤ s ++ t := append_le_append_iff.mpr (nil_le t)
  simpa using h

theorem le_of_isPrefix {s t : List α} (h : s <+: t) : s ≤ t := by
  obtain ⟨r, rfl⟩ := h
  exact le_append_right s r

theorem take_le (n : ℕ) (s : List α) : s.take n ≤ s :=
  le_of_isPrefix (List.take_prefix n s)

theorem lt_append_singleton (s : List α) (a : α) : s < s ++ [a] := by
  have h : s ++ [] < s ++ [a] := append_lt_append_iff.mpr (List.nil_lt_cons a [])
  simpa using h

theorem append_least_le_iff {z : α} (hz : ∀ a, z ≤ a) {s t : List α} : s ++ [z] ≤ t ↔ s < t := by
  constructor
  · exact fun h => (lt_append_singleton s z).trans_le h
  · intro h
    induction s generalizing t with
    | nil =>
      cases t with
      | nil => exact absurd h (List.not_lt_nil [])
      | cons b t =>
        apply not_lt.mp
        intro hlt
        rcases cons_lt_cons.mp hlt with hb | ⟨-, ht⟩
        · exact absurd hb (not_lt.mpr (hz b))
        · exact List.not_lt_nil t ht
    | cons a s ih =>
      cases t with
      | nil => exact absurd h (List.not_lt_nil (a :: s))
      | cons b t =>
        apply not_lt.mp
        intro hlt
        rcases cons_lt_cons.mp h with hab | ⟨rfl, hst⟩
        · rcases cons_lt_cons.mp hlt with hba | ⟨rfl, -⟩
          · exact absurd hab hba.not_gt
          · exact lt_irrefl _ hab
        · rcases cons_lt_cons.mp hlt with hba | ⟨-, hts⟩
          · exact lt_irrefl _ hba
          · exact absurd hts (not_lt.mpr (ih hst))

theorem le_replicate {z : α} (hz : ∀ a, a ≤ z) {m : ℕ} {t : List α} (h : t.length ≤ m) : t ≤ List.replicate m z := by
  induction m generalizing t with
  | zero =>
    rw [List.length_eq_zero_iff.mp (Nat.le_zero.mp h)]
    exact nil_le _
  | succ m ih =>
    cases t with
    | nil => exact nil_le _
    | cons a t =>
      rw [List.replicate_succ]
      rcases (hz a).lt_or_eq with ha | rfl
      · exact (cons_lt_cons.mpr (Or.inl ha)).le
      · have htail : [a] ++ t ≤ [a] ++ List.replicate m a :=
          append_le_append_iff.mpr (ih (by simpa using h))
        exact htail

theorem le_append_replicate {z b c : α} (hz : ∀ a, a ≤ z) (hc : ∀ a, a < b → a ≤ c) {s t : List α} {m : ℕ}
    (ht : t < s ++ [b]) (hl : t.length ≤ s.length + 1 + m) : t ≤ s ++ c :: List.replicate m z := by
  induction s generalizing t with
  | nil =>
    cases t with
    | nil => exact nil_le _
    | cons a t =>
      rcases cons_lt_cons.mp ht with hab | ⟨-, hnil⟩
      · rcases (hc a hab).lt_or_eq with ha | rfl
        · exact (cons_lt_cons.mpr (Or.inl ha)).le
        · have hlen : t.length ≤ m := by
            rw [List.length_cons, List.length_nil] at hl
            omega
          have htail : [a] ++ t ≤ [a] ++ List.replicate m z := append_le_append_iff.mpr (le_replicate hz hlen)
          exact htail
      · exact absurd hnil (List.not_lt_nil t)
  | cons x s ih =>
    cases t with
    | nil => exact nil_le _
    | cons a t =>
      rcases cons_lt_cons.mp ht with hax | ⟨rfl, hst⟩
      · exact (cons_lt_cons.mpr (Or.inl hax)).le
      · have hlen : t.length ≤ s.length + 1 + m := by
          rw [List.length_cons, List.length_cons] at hl
          omega
        have htail : [a] ++ t ≤ [a] ++ (s ++ c :: List.replicate m z) := append_le_append_iff.mpr (ih hst hlen)
        exact htail

theorem prefix_of_between {p a k b : List α} (ha : p <+: a) (hb : p <+: b)
    (hak : a ≤ k) (hkb : k ≤ b) : p <+: k := by
  induction p generalizing a k b with
  | nil => exact List.nil_prefix
  | cons x p ih =>
    obtain ⟨a', rfl⟩ := ha
    obtain ⟨b', rfl⟩ := hb
    cases k with
    | nil => exact absurd (List.nil_lt_cons x (p ++ a')) (not_lt.mpr hak)
    | cons y k =>
      have hxy : ¬ y < x := fun h => not_lt.mpr hak (cons_lt_cons.mpr (Or.inl h))
      have hyx : ¬ x < y := fun h => not_lt.mpr hkb (cons_lt_cons.mpr (Or.inl h))
      obtain rfl : x = y := le_antisymm (not_lt.mp hxy) (not_lt.mp hyx)
      have h₁ : p ++ a' ≤ k := not_lt.mp fun h => not_lt.mpr hak (cons_lt_cons.mpr (Or.inr ⟨rfl, h⟩))
      have h₂ : k ≤ p ++ b' := not_lt.mp fun h => not_lt.mpr hkb (cons_lt_cons.mpr (Or.inr ⟨rfl, h⟩))
      exact (List.prefix_cons_inj x).mpr (ih ⟨a', rfl⟩ ⟨b', rfl⟩ h₁ h₂)

theorem le_of_lt_append_singleton {s t : List α} {b : α} (ht : t < s ++ [b]) (hl : t.length ≤ s.length) : t ≤ s := by
  by_contra hlt
  rw [not_le] at hlt
  have hpre : s <+: t := prefix_of_between List.prefix_rfl (List.prefix_append s [b]) hlt.le ht.le
  exact hlt.ne (hpre.eq_of_length_le hl)

def commonPrefixLength : List α → List α → ℕ
  | a :: s, b :: t => if a = b then commonPrefixLength s t + 1 else 0
  | _, _ => 0

@[simp] theorem commonPrefixLength_nil_left (t : List α) : commonPrefixLength [] t = 0 := rfl

@[simp] theorem commonPrefixLength_nil_right (s : List α) : commonPrefixLength s [] = 0 := by
  cases s <;> rfl

@[simp] theorem commonPrefixLength_self (s : List α) : commonPrefixLength s s = s.length := by
  induction s with
  | nil => rfl
  | cons a s ih => simp [commonPrefixLength, ih]

theorem commonPrefixLength_comm (s t : List α) :
    commonPrefixLength s t = commonPrefixLength t s := by
  induction s generalizing t with
  | nil => simp
  | cons a s ih =>
    cases t with
    | nil => simp
    | cons b t => simp [commonPrefixLength, ih t, eq_comm]

theorem commonPrefixLength_le_left (s t : List α) : commonPrefixLength s t ≤ s.length := by
  induction s generalizing t with
  | nil => simp
  | cons a s ih =>
    cases t with
    | nil => simp
    | cons b t =>
      simp only [commonPrefixLength]
      split_ifs
      · simpa using ih t
      · simp

theorem commonPrefixLength_le_right (s t : List α) : commonPrefixLength s t ≤ t.length := by
  rw [commonPrefixLength_comm]
  exact commonPrefixLength_le_left t s

theorem take_commonPrefix_prefix_right (s t : List α) :
    s.take (commonPrefixLength s t) <+: t := by
  induction s generalizing t with
  | nil => simp
  | cons a s ih =>
    cases t with
    | nil => simp
    | cons b t =>
      simp only [commonPrefixLength]
      split_ifs with h
      · subst h
        simpa using ih t
      · simp

theorem take_commonPrefix_eq (s t : List α) :
    s.take (commonPrefixLength s t) = t.take (commonPrefixLength s t) := by
  have h := take_commonPrefix_prefix_right s t
  have hl : (s.take (commonPrefixLength s t)).length = commonPrefixLength s t := by
    simpa using commonPrefixLength_le_left s t
  have ht := List.prefix_iff_eq_take.mp h
  rwa [hl] at ht

theorem le_commonPrefixLength {p s t : List α} (hs : p <+: s) (ht : p <+: t) :
    p.length ≤ commonPrefixLength s t := by
  obtain ⟨s', rfl⟩ := hs
  obtain ⟨t', rfl⟩ := ht
  induction p with
  | nil => simp
  | cons a p ih => simpa [commonPrefixLength] using ih

theorem getElem?_commonPrefix_ne {s t : List α} (h : s ≠ t) :
    s[commonPrefixLength s t]? ≠ t[commonPrefixLength s t]? := by
  induction s generalizing t with
  | nil =>
    cases t with
    | nil => exact absurd rfl h
    | cons b t => simp [commonPrefixLength]
  | cons a s ih =>
    cases t with
    | nil => simp [commonPrefixLength]
    | cons b t =>
      simp only [commonPrefixLength]
      split_ifs with hab
      · subst hab
        have hst : s ≠ t := fun e => h (by rw [e])
        simpa using ih hst
      · simpa using hab

theorem commonPrefixLength_mono {a b c d : List α} (hab : a ≤ b) (hbc : b ≤ c) (hcd : c ≤ d) :
    commonPrefixLength a d ≤ commonPrefixLength b c := by
  have ha : a.take (commonPrefixLength a d) <+: a := List.take_prefix _ _
  have hd : a.take (commonPrefixLength a d) <+: d := take_commonPrefix_prefix_right a d
  have hb := prefix_of_between ha hd hab (hbc.trans hcd)
  have hc := prefix_of_between ha hd (hab.trans hbc) hcd
  have hl := le_commonPrefixLength hb hc
  have he : (a.take (commonPrefixLength a d)).length = commonPrefixLength a d := by
    simpa using commonPrefixLength_le_left a d
  omega

end BtreeRedis.LexOrder
