import Mathlib

/-!
# Ascending key lists and the maps they denote

A list of key-value pairs with strictly ascending keys is a finite map. The
position of a key is the number of smaller keys; inserting a pair there, or
deleting one pair, changes the map at that key only. The relations `Inserted` and
`Removed` are closed under putting the list into a larger one.
-/

namespace BtreeRedis.SortedAssoc

section Pairs
variable {κ β : Type*}

def keys (es : List (κ × β)) : List κ := es.map Prod.fst

@[simp] theorem keys_nil : keys ([] : List (κ × β)) = [] := rfl

@[simp] theorem keys_cons (e : κ × β) (es : List (κ × β)) : keys (e :: es) = e.1 :: keys es := rfl

@[simp] theorem keys_append (es fs : List (κ × β)) : keys (es ++ fs) = keys es ++ keys fs :=
  List.map_append

def Inserted (k : κ) (v : β) (es es' : List (κ × β)) : Prop :=
  ∃ pre post, es = pre ++ post ∧ es' = pre ++ (k, v) :: post

def Removed (k : κ) (es es' : List (κ × β)) : Prop :=
  ∃ pre v post, es = pre ++ (k, v) :: post ∧ es' = pre ++ post

theorem Inserted.context {k : κ} {v : β} {es es' : List (κ × β)} (h : Inserted k v es es')
    (p q : List (κ × β)) : Inserted k v (p ++ es ++ q) (p ++ es' ++ q) := by
  obtain ⟨pre, post, rfl, rfl⟩ := h
  exact ⟨p ++ pre, post ++ q, by simp, by simp⟩

theorem Removed.context {k : κ} {es es' : List (κ × β)} (h : Removed k es es')
    (p q : List (κ × β)) : Removed k (p ++ es ++ q) (p ++ es' ++ q) := by
  obtain ⟨pre, v, post, rfl, rfl⟩ := h
  exact ⟨p ++ pre, v, post ++ q, by simp, by simp⟩

theorem Inserted.length_eq {k : κ} {v : β} {es es' : List (κ × β)} (h : Inserted k v es es') :
    es'.length = es.length + 1 := by
  obtain ⟨pre, post, rfl, rfl⟩ := h
  simp [Nat.add_assoc]

theorem Removed.length_eq {k : κ} {es es' : List (κ × β)} (h : Removed k es es') : es.length = es'.length + 1 := by
  obtain ⟨pre, v, post, rfl, rfl⟩ := h
  simp [Nat.add_assoc]

theorem insertIdx_eq_take_append {α : Type*} {l : List α} {i : ℕ} (hi : i ≤ l.length) (a : α) :
    l.insertIdx i a = l.take i ++ a :: l.drop i := by
  induction l generalizing i with
  | nil =>
    obtain rfl : i = 0 := by simpa using hi
    rfl
  | cons b l ih =>
    cases i with
    | zero => rfl
    | succ i => simp [ih (by simpa using hi)]

theorem filter_filterMap_range {α : Type*} {f : ℕ → Option α} {p : α → Bool} {n m : ℕ}
    (h : ∀ i < n, ∀ a, f i = some a → (p a = true ↔ m ≤ i)) :
    ((List.range n).filterMap f).filter p = (List.range' m (n - m)).filterMap f := by
  induction n with
  | zero => simp
  | succ n ih =>
    rw [List.range_succ, List.filterMap_append, List.filter_append, ih fun i hi => h i (Nat.lt_succ_of_lt hi)]
    rcases Nat.lt_or_ge n m with hlt | hge
    · have hnone : ([n].filterMap f).filter p = [] := by
        cases hf : f n with
        | none => simp [hf]
        | some a => simp [hf, mt (h n (Nat.lt_succ_self n) a hf).mp (not_le.mpr hlt)]
      rw [hnone, Nat.sub_eq_zero_of_le hlt.le, Nat.sub_eq_zero_of_le hlt]
      rfl
    · have hlast : ([n].filterMap f).filter p = [n].filterMap f := by
        cases hf : f n with
        | none => simp [hf]
        | some a => simp [hf, (h n (Nat.lt_succ_self n) a hf).mpr hge]
      rw [hlast, Nat.succ_sub hge, List.range'_1_concat, List.filterMap_append, Nat.add_sub_cancel' hge]

theorem inserted_insertIdx {es : List (κ × β)} {i : ℕ} (hi : i ≤ es.length) (k : κ) (v : β) :
    Inserted k v es (es.insertIdx i (k, v)) :=
  ⟨es.take i, es.drop i, (List.take_append_drop i es).symm, insertIdx_eq_take_append hi _⟩

theorem removed_eraseIdx {es : List (κ × β)} {i : ℕ} (hi : i < es.length) {k : κ}
    (hk : es[i].1 = k) : Removed k es (es.eraseIdx i) := by
  subst hk
  refine ⟨es.take i, es[i].2, es.drop (i + 1), ?_, List.eraseIdx_eq_take_drop_succ _ _⟩
  rw [Prod.eta, List.getElem_cons_drop, List.take_append_drop]

theorem Inserted.mem_iff {k : κ} {v : β} {es es' : List (κ × β)} (h : Inserted k v es es')
    {e : κ × β} : e ∈ es' ↔ e = (k, v) ∨ e ∈ es := by
  obtain ⟨pre, post, rfl, rfl⟩ := h
  simp only [List.mem_append, List.mem_cons]
  tauto

theorem Inserted.removed {k : κ} {v : β} {es es' : List (κ × β)} (h : Inserted k v es es') :
    Removed k es' es := by
  obtain ⟨pre, post, rfl, rfl⟩ := h
  exact ⟨pre, v, post, rfl, rfl⟩

def Stored (k : κ) (v : β) (es es' : List (κ × β)) : Prop :=
  ∀ e, e ∈ es' ↔ e = (k, v) ∨ e ∈ es ∧ e.1 ≠ k

theorem ne_of_mem {k : κ} {es : List (κ × β)} (h : k ∉ keys es) {e : κ × β} (he : e ∈ es) : e.1 ≠ k :=
  fun hk => h (hk ▸ List.mem_map_of_mem he)

theorem Inserted.stored {k : κ} {v : β} {es es' : List (κ × β)} (h : Inserted k v es es') (hk : k ∉ keys es) :
    Stored k v es es' :=
  fun _ => h.mem_iff.trans (or_congr_right ⟨fun he => ⟨he, ne_of_mem hk he⟩, And.left⟩)

theorem stored_replace {k : κ} {u v : β} {pre post : List (κ × β)} (h : (keys (pre ++ (k, u) :: post)).Nodup) :
    Stored k v (pre ++ (k, u) :: post) (pre ++ (k, v) :: post) := by
  rw [keys_append, keys_cons, List.nodup_middle, List.nodup_cons, ← keys_append] at h
  intro e
  have hother : e ∈ pre ++ post ↔ e ∈ pre ++ (k, u) :: post ∧ e.1 ≠ k := by
    constructor
    · intro he
      refine ⟨?_, ne_of_mem h.1 he⟩
      exact (List.mem_append.mp he).elim (List.mem_append_left _)
        fun hp => List.mem_append_right _ (List.mem_cons_of_mem _ hp)
    · rintro ⟨he, hne⟩
      rcases List.mem_append.mp he with he | he
      · exact List.mem_append_left _ he
      · rcases List.mem_cons.mp he with rfl | he
        · exact absurd rfl hne
        · exact List.mem_append_right _ he
  rw [← hother, List.mem_append, List.mem_append, List.mem_cons]
  tauto

theorem Stored.context {k : κ} {v : β} {es es' : List (κ × β)} (h : Stored k v es es') {p q : List (κ × β)}
    (hp : k ∉ keys p) (hq : k ∉ keys q) : Stored k v (p ++ es ++ q) (p ++ es' ++ q) := by
  intro e
  simp only [List.mem_append, h e]
  constructor
  · rintro ((he | rfl | he) | he)
    · exact Or.inr ⟨Or.inl (Or.inl he), ne_of_mem hp he⟩
    · exact Or.inl rfl
    · exact Or.inr ⟨Or.inl (Or.inr he.1), he.2⟩
    · exact Or.inr ⟨Or.inr he, ne_of_mem hq he⟩
  · rintro (rfl | ⟨(he | he) | he, hne⟩)
    · exact Or.inl (Or.inr (Or.inl rfl))
    · exact Or.inl (Or.inl he)
    · exact Or.inl (Or.inr (Or.inr ⟨he, hne⟩))
    · exact Or.inr he

theorem Stored.map {μ : Type*} {k : κ} {v : β} {es es' : List (κ × β)} (h : Stored k v es es') {g : κ → μ}
    (hg : Function.Injective g) :
    Stored (g k) v (es.map fun e => (g e.1, e.2)) (es'.map fun e => (g e.1, e.2)) := by
  intro e
  unfold Stored at h
  simp only [List.mem_map, h]
  constructor
  · rintro ⟨a, rfl | ⟨ha, hne⟩, rfl⟩
    · exact Or.inl rfl
    · exact Or.inr ⟨⟨a, ha, rfl⟩, fun he => hne (hg he)⟩
  · rintro (rfl | ⟨⟨a, ha, rfl⟩, hne⟩)
    · exact ⟨(k, v), Or.inl rfl, rfl⟩
    · exact ⟨a, Or.inr ⟨ha, fun he => hne (congrArg g he)⟩, rfl⟩

theorem Removed.mem_of_mem {k : κ} {es es' : List (κ × β)} (h : Removed k es es')
    {e : κ × β} (he : e ∈ es') : e ∈ es := by
  obtain ⟨pre, v, post, rfl, rfl⟩ := h
  simp only [List.mem_append, List.mem_cons] at he ⊢
  tauto

theorem Removed.key_mem {k : κ} {es es' : List (κ × β)} (h : Removed k es es') : k ∈ keys es := by
  obtain ⟨pre, v, post, rfl, rfl⟩ := h
  simp

end Pairs

section Lookup
variable {κ β : Type*} [BEq κ] [LawfulBEq κ]

theorem lookup_eq_none {es : List (κ × β)} {k : κ} (h : k ∉ keys es) : es.lookup k = none := by
  induction es with
  | nil => rfl
  | cons e es ih =>
    simp only [keys_cons, List.mem_cons, not_or] at h
    rw [List.lookup_cons, beq_false_of_ne h.1, ih h.2]

theorem lookup_append_left {es fs : List (κ × β)} {k : κ} (h : k ∉ keys fs) :
    (es ++ fs).lookup k = es.lookup k := by
  rw [List.lookup_append, lookup_eq_none h, Option.or_none]

theorem lookup_append_right {es fs : List (κ × β)} {k : κ} (h : k ∉ keys es) :
    (es ++ fs).lookup k = fs.lookup k := by
  rw [List.lookup_append, lookup_eq_none h, Option.none_or]

theorem lookup_isSome {es : List (κ × β)} {k : κ} : (es.lookup k).isSome ↔ k ∈ keys es := by
  induction es with
  | nil => simp
  | cons e es ih =>
    rw [List.lookup_cons, keys_cons, List.mem_cons]
    by_cases h : k = e.1
    · simp [h]
    · simp [beq_false_of_ne h, h, ih]

end Lookup

variable {κ β : Type*} [LinearOrder κ]

abbrev Ascending (ks : List κ) : Prop := ks.Pairwise (· < ·)

def lowerIndex (ks : List κ) (k : κ) : ℕ := (ks.takeWhile (· < k)).length

theorem lowerIndex_nil (k : κ) : lowerIndex [] k = 0 := rfl

theorem lowerIndex_cons (a : κ) (ks : List κ) (k : κ) :
    lowerIndex (a :: ks) k = if a < k then lowerIndex ks k + 1 else 0 := by
  by_cases h : a < k <;> simp [lowerIndex, h]

theorem lowerIndex_le_length (ks : List κ) (k : κ) : lowerIndex ks k ≤ ks.length :=
  (List.takeWhile_prefix _).length_le

theorem lt_of_lt_lowerIndex {ks : List κ} {k : κ} {i : ℕ} (hi : i < lowerIndex ks k)
    (hl : i < ks.length) : ks[i] < k := by
  induction ks generalizing i with
  | nil => simp at hl
  | cons a ks ih =>
    rw [lowerIndex_cons] at hi
    split_ifs at hi with h
    · cases i with
      | zero => exact h
      | succ i => exact ih (by omega) (by simpa using hl)
    · omega

theorem le_of_lowerIndex_le {ks : List κ} (hs : Ascending ks) {k : κ} {i : ℕ}
    (hi : lowerIndex ks k ≤ i) (hl : i < ks.length) : k ≤ ks[i] := by
  induction ks generalizing i with
  | nil => simp at hl
  | cons a ks ih =>
    rw [lowerIndex_cons] at hi
    have hp := List.pairwise_cons.mp hs
    split_ifs at hi with h
    · cases i with
      | zero => omega
      | succ i => exact ih hp.2 (by omega) (by simpa using hl)
    · cases i with
      | zero => exact not_lt.mp h
      | succ i =>
        have hm : getElem ks i (by simpa using hl) ∈ ks := List.getElem_mem _
        exact (not_lt.mp h).trans (hp.1 _ hm).le

theorem getElem?_lowerIndex {ks : List κ} (hs : Ascending ks) {k : κ} (hk : k ∈ ks) :
    ks[lowerIndex ks k]? = some k := by
  induction ks with
  | nil => simp at hk
  | cons a ks ih =>
    have hp := List.pairwise_cons.mp hs
    rw [lowerIndex_cons]
    rcases List.mem_cons.mp hk with rfl | hm
    · simp
    · simp [hp.1 k hm, ih hp.2 hm]

theorem eq_lowerIndex {ks : List κ} (hs : Ascending ks) {k : κ} {i : ℕ} (hi : i ≤ ks.length)
    (hlt : ∀ j (hj : j < ks.length), j < i → ks[j] < k)
    (hge : ∀ j (hj : j < ks.length), i ≤ j → k ≤ ks[j]) : i = lowerIndex ks k := by
  rcases lt_trichotomy i (lowerIndex ks k) with h | h | h
  · have hl : i < ks.length := h.trans_le (lowerIndex_le_length ks k)
    exact absurd (lt_of_lt_lowerIndex h hl) (not_lt.mpr (hge i hl le_rfl))
  · exact h
  · have hl : lowerIndex ks k < ks.length := h.trans_le hi
    exact absurd (hlt _ hl h) (not_lt.mpr (le_of_lowerIndex_le hs le_rfl hl))

def upperIndex (ks : List κ) (k : κ) : ℕ := (ks.takeWhile (· ≤ k)).length

theorem upperIndex_cons (a : κ) (ks : List κ) (k : κ) :
    upperIndex (a :: ks) k = if a ≤ k then upperIndex ks k + 1 else 0 := by
  by_cases h : a ≤ k <;> simp [upperIndex, h]

theorem lowerIndex_add_mem {ks : List κ} (hs : Ascending ks) {k : κ} {found : Bool} (hf : found = true ↔ k ∈ ks) :
    lowerIndex ks k + found.toNat = upperIndex ks k := by
  induction ks with
  | nil =>
    have hfalse : found = false := Bool.eq_false_iff.mpr fun ht => List.not_mem_nil (hf.mp ht)
    rw [hfalse]
    rfl
  | cons a ks ih =>
    have hp := List.pairwise_cons.mp hs
    rw [lowerIndex_cons, upperIndex_cons]
    rcases lt_trichotomy a k with hak | rfl | hka
    · have hmem := hf.trans (List.mem_cons.trans (or_iff_right hak.ne'))
      rw [if_pos hak, if_pos hak.le, ← ih hp.2 hmem]
      omega
    · have hzero : upperIndex ks a = 0 := by
        cases ks with
        | nil => rfl
        | cons b ks => rw [upperIndex_cons, if_neg (not_le.mpr (hp.1 b List.mem_cons_self))]
      rw [if_neg (lt_irrefl a), if_pos le_rfl, hzero, hf.mpr List.mem_cons_self]
      rfl
    · have hnot : k ∉ a :: ks := by
        rw [List.mem_cons]
        rintro (rfl | hm)
        · exact lt_irrefl _ hka
        · exact lt_asymm hka (hp.1 k hm)
      rw [if_neg hka.not_gt, if_neg hka.not_ge, Bool.eq_false_iff.mpr fun ht => hnot (hf.mp ht)]
      rfl

theorem upperIndex_append {ks ls : List κ} {k : κ} (hks : ∀ a ∈ ks, a ≤ k) (hls : ∀ a ∈ ls, k < a) :
    upperIndex (ks ++ ls) k = ks.length := by
  rw [upperIndex, List.takeWhile_append_of_pos (by simpa using hks), List.length_append]
  cases ls with
  | nil => rfl
  | cons a ls => simp [hls a List.mem_cons_self]

theorem lowerIndex_map {μ : Type*} [LinearOrder μ] {f : κ → μ} (hf : ∀ a b, f a < f b ↔ a < b)
    (ks : List κ) (k : κ) : lowerIndex (ks.map f) (f k) = lowerIndex ks k := by
  induction ks with
  | nil => rfl
  | cons a ks ih => simp only [List.map_cons, lowerIndex_cons, ih, hf]

theorem Ascending.getElem_lt {ks : List κ} (hs : Ascending ks) {i j : ℕ} (hij : i < j)
    (hj : j < ks.length) : ks[i] < ks[j] :=
  List.pairwise_iff_getElem.mp hs i j (hij.trans hj) hj hij

theorem Ascending.getElem_le {ks : List κ} (hs : Ascending ks) {i j : ℕ} (hij : i ≤ j)
    (hj : j < ks.length) : ks[i] ≤ ks[j] := by
  rcases hij.eq_or_lt with rfl | h
  · exact le_rfl
  · exact (hs.getElem_lt h hj).le

theorem Ascending.insertIdx {ks : List κ} (hs : Ascending ks) {k : κ} (hk : k ∉ ks) :
    Ascending (ks.insertIdx (lowerIndex ks k) k) := by
  induction ks with
  | nil => simp [lowerIndex_nil]
  | cons a ks ih =>
    have hp := List.pairwise_cons.mp hs
    rw [lowerIndex_cons]
    split_ifs with h
    · rw [List.insertIdx_succ_cons]
      refine List.pairwise_cons.mpr ⟨fun b hb => ?_, ih hp.2 (fun hm => hk (List.mem_cons_of_mem a hm))⟩
      rcases List.eq_or_mem_of_mem_insertIdx hb with rfl | hb
      · exact h
      · exact hp.1 b hb
    · have hka : k < a := lt_of_le_of_ne (not_lt.mp h) (fun e => hk (by simp [e]))
      rw [List.insertIdx_zero]
      refine List.pairwise_cons.mpr ⟨fun b hb => ?_, hs⟩
      rcases List.mem_cons.mp hb with rfl | hb
      · exact hka
      · exact hka.trans (hp.1 b hb)

theorem ascending_append {ks ls : List κ} :
    Ascending (ks ++ ls) ↔ Ascending ks ∧ Ascending ls ∧ ∀ a ∈ ks, ∀ b ∈ ls, a < b :=
  List.pairwise_append

theorem not_mem_keys_of_lt {es : List (κ × β)} {k : κ} (h : ∀ e ∈ es, e.1 < k) : k ∉ keys es := by
  intro hm
  obtain ⟨e, he, rfl⟩ := List.mem_map.mp hm
  exact lt_irrefl _ (h e he)

theorem not_mem_keys_of_gt {es : List (κ × β)} {k : κ} (h : ∀ e ∈ es, k < e.1) : k ∉ keys es := by
  intro hm
  obtain ⟨e, he, rfl⟩ := List.mem_map.mp hm
  exact lt_irrefl _ (h e he)

theorem ascending_ext {es fs : List (κ × β)} (he : Ascending (keys es)) (hf : Ascending (keys fs))
    (h : ∀ x, x ∈ es ↔ x ∈ fs) : es = fs := by
  rw [keys, Ascending, List.pairwise_map] at he hf
  have hperm : es.Perm fs :=
    (List.perm_ext_iff_of_nodup (he.imp fun hab e => (e ▸ hab).ne rfl)
      (hf.imp fun hab e => (e ▸ hab).ne rfl)).mpr h
  exact hperm.eq_of_pairwise (fun a b _ _ hab hba => absurd (hab.trans hba) (lt_irrefl _)) he hf

theorem filter_lt_eq_take {es : List (κ × β)} (hs : Ascending (keys es)) (k : κ) :
    (es.filter fun e => decide (e.1 < k)) = es.take (lowerIndex (keys es) k) := by
  induction es with
  | nil => rfl
  | cons e es ih =>
    have hp := List.pairwise_cons.mp hs
    rw [keys_cons, lowerIndex_cons]
    by_cases h : e.1 < k
    · simp [h, ih hp.2]
    · have hrest : ∀ x ∈ es, ¬ x.1 < k := fun x hx hlt =>
        h ((hp.1 x.1 (List.mem_map_of_mem hx)).trans hlt)
      simpa [h] using hrest

theorem filter_ge_eq_drop {es : List (κ × β)} (hs : Ascending (keys es)) (k : κ) :
    (es.filter fun e => decide (k ≤ e.1)) = es.drop (lowerIndex (keys es) k) := by
  induction es with
  | nil => rfl
  | cons e es ih =>
    have hp := List.pairwise_cons.mp hs
    rw [keys_cons, lowerIndex_cons]
    by_cases h : e.1 < k
    · simp [h, ih hp.2]
    · have hrest : ∀ x ∈ es, k ≤ x.1 := fun x hx =>
        (not_lt.mp h).trans (hp.1 x.1 (List.mem_map_of_mem hx)).le
      simpa [h, not_lt.mp h] using hrest

theorem filter_le_eq_take {es : List (κ × β)} (hs : Ascending (keys es)) {k : κ} (hk : k ∉ keys es) :
    (es.filter fun e => decide (e.1 ≤ k)) = es.take (lowerIndex (keys es) k) := by
  rw [← filter_lt_eq_take hs]
  apply List.filter_congr
  intro e he
  have hne := ne_of_mem hk he
  simp [le_iff_lt_or_eq, hne]

theorem filter_le_eq_take_succ {es : List (κ × β)} (hs : Ascending (keys es)) {k : κ} (hk : k ∈ keys es) :
    (es.filter fun e => decide (e.1 ≤ k)) = es.take (lowerIndex (keys es) k + 1) := by
  induction es with
  | nil => simp at hk
  | cons e es ih =>
    have hp := List.pairwise_cons.mp hs
    rw [keys_cons, lowerIndex_cons]
    rcases List.mem_cons.mp hk with rfl | hm
    · have hrest : ∀ x ∈ es, e.1 < x.1 := fun x hx => hp.1 x.1 (List.mem_map_of_mem hx)
      simpa using hrest
    · have hlt : e.1 < k := hp.1 k hm
      simp [hlt, hlt.le, ih hp.2 hm]

def sortByKey (es : List (κ × β)) : List (κ × β) := es.insertionSort fun a b => a.1 ≤ b.1

theorem sortByKey_perm (es : List (κ × β)) : (sortByKey es).Perm es := List.perm_insertionSort _ es

@[simp] theorem mem_sortByKey {es : List (κ × β)} {e : κ × β} : e ∈ sortByKey es ↔ e ∈ es :=
  (sortByKey_perm es).mem_iff

@[simp] theorem length_sortByKey (es : List (κ × β)) : (sortByKey es).length = es.length :=
  (sortByKey_perm es).length_eq

theorem keys_sortByKey_perm (es : List (κ × β)) : (keys (sortByKey es)).Perm (keys es) :=
  (sortByKey_perm es).map Prod.fst

theorem ascending_sortByKey {es : List (κ × β)} (h : (keys es).Nodup) : Ascending (keys (sortByKey es)) := by
  have hle : (sortByKey es).Pairwise fun a b => a.1 ≤ b.1 := by
    have htotal : Std.Total fun a b : κ × β => a.1 ≤ b.1 := ⟨fun a b => le_total a.1 b.1⟩
    have htrans : IsTrans (κ × β) fun a b => a.1 ≤ b.1 := ⟨fun a b c hab hbc => hab.trans hbc⟩
    exact List.pairwise_insertionSort _ es
  have hne := (keys_sortByKey_perm es).nodup_iff.mpr h
  rw [keys, List.Nodup, List.pairwise_map] at hne
  rw [keys, Ascending, List.pairwise_map]
  exact (hle.and hne).imp fun hab => lt_of_le_of_ne hab.1 hab.2

theorem sortByKey_eq_self {es : List (κ × β)} (h : Ascending (keys es)) : sortByKey es = es := by
  refine ascending_ext (ascending_sortByKey (h.imp fun hab => hab.ne)) h fun x => mem_sortByKey

theorem sortByKey_eq_of_perm {es fs : List (κ × β)} (h : (keys es).Nodup) (hp : es.Perm fs) :
    sortByKey es = sortByKey fs := by
  refine ascending_ext (ascending_sortByKey h) (ascending_sortByKey ?_) fun x => ?_
  · exact (hp.map Prod.fst).nodup_iff.mp h
  · rw [mem_sortByKey, mem_sortByKey, hp.mem_iff]

theorem inserted_sortByKey {es es' : List (κ × β)} {k : κ} {v : β} (h : (keys es').Nodup)
    (hp : es'.Perm ((k, v) :: es)) : Inserted k v (sortByKey es) (sortByKey es') := by
  have hnodup := (hp.map Prod.fst).nodup_iff.mp h
  obtain ⟨hk, hes⟩ := List.nodup_cons.mp hnodup
  have hsort := ascending_sortByKey hes
  have hk' : k ∉ keys (sortByKey es) := fun hm => hk ((keys_sortByKey_perm es).mem_iff.mp hm)
  have hle : lowerIndex (keys (sortByKey es)) k ≤ (sortByKey es).length := by
    simpa [keys] using lowerIndex_le_length (keys (sortByKey es)) k
  have heq : sortByKey es' = (sortByKey es).insertIdx (lowerIndex (keys (sortByKey es)) k) (k, v) := by
    refine ascending_ext (ascending_sortByKey h) ?_ fun x => ?_
    · rw [keys, List.map_insertIdx]
      exact hsort.insertIdx hk'
    · rw [mem_sortByKey, hp.mem_iff, List.mem_insertIdx hle, mem_sortByKey, List.mem_cons]
  rw [heq]
  exact inserted_insertIdx hle k v

variable [BEq κ] [LawfulBEq κ]

theorem lookup_eq_some {es : List (κ × β)} (hs : Ascending (keys es)) {k : κ} {v : β} :
    es.lookup k = some v ↔ (k, v) ∈ es := by
  induction es with
  | nil => simp
  | cons e es ih =>
    obtain ⟨a, b⟩ := e
    have hp := List.pairwise_cons.mp hs
    rw [List.lookup_cons, List.mem_cons]
    by_cases h : k = a
    · subst h
      have hn : (k, v) ∉ es := fun hm => lt_irrefl k (hp.1 k (List.mem_map_of_mem hm))
      simp [hn, eq_comm]
    · simp [beq_false_of_ne h, h, ih hp.2]

theorem Inserted.lookup {k : κ} {v : β} {es es' : List (κ × β)} (h : Inserted k v es es')
    (hs : Ascending (keys es')) (l : κ) :
    es'.lookup l = if l = k then some v else es.lookup l := by
  obtain ⟨pre, post, rfl, rfl⟩ := h
  split_ifs with hl
  · subst hl
    exact (lookup_eq_some hs).mpr (by simp)
  · rw [List.lookup_append, List.lookup_append, List.lookup_cons, beq_false_of_ne hl]

theorem Stored.lookup {k : κ} {v : β} {es es' : List (κ × β)} (h : Stored k v es es')
    (hs : Ascending (keys es)) (hs' : Ascending (keys es')) (l : κ) :
    es'.lookup l = if l = k then some v else es.lookup l := by
  refine Option.ext fun u => ?_
  rw [lookup_eq_some hs', h]
  split_ifs with hl
  · subst hl
    simp [eq_comm]
  · rw [lookup_eq_some hs]
    simp [hl]

theorem Removed.lookup {k : κ} {es es' : List (κ × β)} (h : Removed k es es')
    (hs : Ascending (keys es)) (l : κ) :
    es'.lookup l = if l = k then none else es.lookup l := by
  obtain ⟨pre, v, post, rfl, rfl⟩ := h
  split_ifs with hl
  · subst hl
    rw [keys_append, keys_cons] at hs
    have ha := ascending_append.mp hs
    have hpre : l ∉ keys pre := fun hm => lt_irrefl l (ha.2.2 l hm l (by simp))
    have hpost : l ∉ keys post := fun hm => lt_irrefl l ((List.pairwise_cons.mp ha.2.1).1 l hm)
    exact lookup_eq_none (by simp [hpre, hpost])
  · rw [List.lookup_append, List.lookup_append, List.lookup_cons, beq_false_of_ne hl]

def store (k : κ) (v : β) (es : List (κ × β)) : List (κ × β) := sortByKey ((k, v) :: es.filter fun e => e.1 != k)

def erase (k : κ) (es : List (κ × β)) : List (κ × β) := es.filter fun e => e.1 != k

theorem stored_store (k : κ) (v : β) (es : List (κ × β)) : Stored k v es (store k v es) := by
  intro e
  rw [store, mem_sortByKey, List.mem_cons, List.mem_filter, bne_iff_ne]

theorem ascending_store {es : List (κ × β)} (hs : Ascending (keys es)) (k : κ) (v : β) :
    Ascending (keys (store k v es)) := by
  have hother : (keys (es.filter fun e => e.1 != k)).Nodup := (hs.sublist (List.filter_sublist.map _)).nodup
  have hk : k ∉ keys (es.filter fun e => e.1 != k) := by
    intro hm
    obtain ⟨e, he, hek⟩ := List.mem_map.mp hm
    have hne := (List.mem_filter.mp he).2
    rw [bne_iff_ne] at hne
    exact hne hek
  exact ascending_sortByKey (List.nodup_cons.mpr ⟨hk, hother⟩)

theorem Stored.eq_store {k : κ} {v : β} {es es' : List (κ × β)} (h : Stored k v es es') (hs : Ascending (keys es))
    (hs' : Ascending (keys es')) : es' = store k v es :=
  ascending_ext hs' (ascending_store hs k v) fun e => (h e).trans (stored_store k v es e).symm

section
omit [LinearOrder κ]

theorem erase_eq_self {k : κ} {es : List (κ × β)} (h : k ∉ keys es) : erase k es = es :=
  List.filter_eq_self.mpr fun _ he => bne_iff_ne.mpr (ne_of_mem h he)

end

theorem Removed.eq_erase {k : κ} {es es' : List (κ × β)} (h : Removed k es es') (hs : Ascending (keys es)) :
    es' = erase k es := by
  obtain ⟨pre, v, post, rfl, rfl⟩ := h
  rw [keys_append, keys_cons] at hs
  have ha := ascending_append.mp hs
  have hpre : k ∉ keys pre := fun hm => lt_irrefl k (ha.2.2 k hm k List.mem_cons_self)
  have hpost : k ∉ keys post := fun hm => lt_irrefl k ((List.pairwise_cons.mp ha.2.1).1 k hm)
  have hother : k ∉ keys (pre ++ post) := by simp [hpre, hpost]
  have herase := erase_eq_self hother
  rw [erase, List.filter_append] at herase
  rw [erase, List.filter_append, List.filter_cons, if_neg (by simp), herase]

theorem lookup_store {es : List (κ × β)} (hs : Ascending (keys es)) (k : κ) (v : β) (l : κ) :
    (store k v es).lookup l = if l = k then some v else es.lookup l :=
  (stored_store k v es).lookup hs (ascending_store hs k v) l

section
omit [LawfulBEq κ]

theorem ascending_erase {es : List (κ × β)} (hs : Ascending (keys es)) (k : κ) : Ascending (keys (erase k es)) :=
  hs.sublist (List.filter_sublist.map _)

end

theorem lookup_erase {es : List (κ × β)} (hs : Ascending (keys es)) (k l : κ) :
    (erase k es).lookup l = if l = k then none else es.lookup l := by
  refine Option.ext fun u => ?_
  rw [lookup_eq_some (ascending_erase hs k), erase, List.mem_filter, bne_iff_ne]
  split_ifs with hl
  · simp [hl]
  · rw [lookup_eq_some hs]
    simp [hl]

end BtreeRedis.SortedAssoc
