import BtreeRedis.Head.Refine

/-!
# Children between separators

What a tree asks of an inner node of any kind, said of its separators and children: the child
that a key leads to, what may stand in its place, its two halves, and two neighbours that
become one.
-/

namespace BtreeRedis.Routing

open LexOrder SortedAssoc

variable {γ : Type}

def set (a : Routing γ) (i : ℕ) (c : γ) : Routing γ :=
  { a with children := a.children.set i c, length := by rw [List.length_set, a.length] }

def entriesOf {β : Type*} (E : γ → List β) (a : Routing γ) : List β := a.children.flatMap E

def totalOf (w : γ → ℕ) (a : Routing γ) : ℕ := (a.children.map w).sum

/-- The children lie end to end between the fences, and `P` holds of each with its two bounds. -/
def Spans (P : γ → Bytes → Bytes → Prop) (a : Routing γ) : Prop := Chain P a.lower a.separators a.children a.upper

variable {P : γ → Bytes → Bytes → Prop} {β : Type} {E : γ → List (Bytes × β)} {w : γ → ℕ} {a : Routing γ}
  {key : Bytes}

theorem ne_nil (a : Routing γ) {s : Bytes} (hs : s ∈ a.separators) : s ≠ [] := ne_nil_of_lt (a.within s hs).1

section Between
variable {i : ℕ} {x y s : Bytes}

theorem eq_lowerIndex_between (a : Routing γ) (hi : i ≤ a.separators.length)
    (hx : (a.lower :: a.separators)[i]? = some x) (hy : (a.separators ++ [a.upper])[i]? = some y)
    (hs : InFences x y s) : i = lowerIndex a.separators s := by
  refine eq_lowerIndex a.ascending hi (fun j hj hji => ?_) fun j hj hij => ?_
  · obtain ⟨k, rfl⟩ : ∃ k, i = k + 1 := ⟨i - 1, by omega⟩
    rw [List.getElem?_cons_succ, List.getElem?_eq_getElem (by omega)] at hx
    obtain rfl := Option.some.inj hx
    have hlt := hs.1.resolve_left (a.ne_nil (List.getElem_mem _))
    exact (a.ascending.getElem_le (by omega) _).trans_lt hlt
  · have hi' : i < a.separators.length := by omega
    rw [List.getElem?_append_left hi', List.getElem?_eq_getElem hi'] at hy
    obtain rfl := Option.some.inj hy
    have hle := hs.2.resolve_left (a.ne_nil (List.getElem_mem hi'))
    exact hle.trans (a.ascending.getElem_le hij hj)

theorem within_between (a : Routing γ) (hx : (a.lower :: a.separators)[i]? = some x)
    (hy : (a.separators ++ [a.upper])[i]? = some y) (hs : InFences x y s) (hne : s ≠ []) (hlen : s.length ≤ maxKVSize) :
    Within a.lower a.upper s := by
  refine ⟨?_, ?_, hlen⟩
  · have hle : a.lower ≤ x := by
      rcases List.mem_cons.mp (List.mem_of_getElem? hx) with rfl | hm
      · exact le_rfl
      · exact (a.within x hm).1.le
    rcases hs.1 with rfl | hlt
    · exact hle.trans_lt (pos_of_ne_nil hne)
    · exact hle.trans_lt hlt
  · rcases List.mem_append.mp (List.mem_of_getElem? hy) with hm | hm
    · exact (a.within y hm).2.1.imp id (hs.2.resolve_left (a.ne_nil hm)).trans
    · obtain rfl := List.mem_singleton.mp hm
      exact hs.2

/-- A separator that is not the upper bound of its child is new. -/
theorem not_mem_between (a : Routing γ) (hi : i ≤ a.separators.length)
    (hx : (a.lower :: a.separators)[i]? = some x) (hy : (a.separators ++ [a.upper])[i]? = some y)
    (hs : InFences x y s) (hfresh : s ≠ y) : s ∉ a.separators := by
  intro hm
  obtain ⟨j, hj, hjs⟩ := List.mem_iff_getElem.mp hm
  have hij := a.eq_lowerIndex_between hi hx hy hs
  have hjl := (BTreeNode.lowerIndex_of_getElem_eq a.ascending hj hjs).1
  obtain rfl : i = j := hij.trans hjl.symm
  rw [List.getElem?_append_left hj, List.getElem?_eq_getElem hj, hjs] at hy
  exact hfresh (Option.some.inj hy)

end Between

theorem entriesOf_eq {i : ℕ} {c : γ} (hc : a.children[i]? = some c) :
    a.entriesOf E = (a.children.take i).flatMap E ++ E c ++ (a.children.drop (i + 1)).flatMap E := by
  obtain ⟨hi, rfl⟩ := List.getElem?_eq_some_iff.mp hc
  rw [entriesOf]
  conv_lhs => rw [← List.take_append_drop i a.children, ← List.getElem_cons_drop hi]
  rw [List.flatMap_append, List.flatMap_cons, List.append_assoc]

theorem entriesOf_set {i : ℕ} (hi : i < a.children.length) (c : γ) :
    (a.set i c).entriesOf E = (a.children.take i).flatMap E ++ E c ++ (a.children.drop (i + 1)).flatMap E := by
  change (a.children.set i c).flatMap E = _
  rw [InnerNode.set_eq_take_append hi, List.flatMap_append, List.flatMap_append]
  simp

theorem totalOf_eq {i : ℕ} {c : γ} (hc : a.children[i]? = some c) :
    a.totalOf w = ((a.children.take i).map w).sum + w c + ((a.children.drop (i + 1)).map w).sum := by
  obtain ⟨hi, rfl⟩ := List.getElem?_eq_some_iff.mp hc
  rw [totalOf]
  conv_lhs => rw [← List.take_append_drop i a.children, ← List.getElem_cons_drop hi]
  rw [List.map_append, List.map_cons, List.sum_append, List.sum_cons, Nat.add_assoc]

theorem totalOf_set {i : ℕ} (hi : i < a.children.length) (c : γ) :
    (a.set i c).totalOf w =
      ((a.children.take i).map w).sum + w c + ((a.children.drop (i + 1)).map w).sum := by
  change ((a.children.set i c).map w).sum = _
  rw [InnerNode.set_eq_take_append hi, List.map_append, List.map_append, List.sum_append, List.sum_append]
  simp

structure Focus (P : γ → Bytes → Bytes → Prop) (E : γ → List (Bytes × β)) (a : Routing γ) (key : Bytes) (i : ℕ) (c : γ)
    (x y : Bytes) (pre post : List (Bytes × β)) : Prop where
  index : i = lowerIndex a.separators key
  le_length : i ≤ a.separators.length
  child : a.children[i]? = some c
  inv : P c x y
  inFences : InFences x y key
  lower_at : (a.lower :: a.separators)[i]? = some x
  upper_at : (a.separators ++ [a.upper])[i]? = some y
  entries : a.entriesOf E = pre ++ E c ++ post
  put : ∀ c', (a.set i c').entriesOf E = pre ++ E c' ++ post
  put_spans : ∀ c', P c' x y → (a.set i c').Spans P
  pre_lt : ∀ e ∈ pre, e.1 < key
  post_gt : ∀ e ∈ post, key < e.1

theorem Spans.set (h : a.Spans P) {i : ℕ} (hi : i < a.children.length) {x y : Bytes}
    (hx : (a.lower :: a.separators)[i]? = some x) (hy : (a.separators ++ [a.upper])[i]? = some y) {c : γ}
    (hc : P c x y) : (a.set i c).Spans P := by
  obtain ⟨x', y', hx', hy', -, hput⟩ := Chain.focus h hi
  obtain rfl := Option.some.inj (hx.symm.trans hx')
  obtain rfl := Option.some.inj (hy.symm.trans hy')
  have hchain := hput [] [c] hc
  rwa [List.append_nil, List.take_append_drop, ← InnerNode.set_eq_take_append hi] at hchain

theorem Spans.entries_spec (h : a.Spans P) (hP : InnerNode.Lawful P E) :
    Ascending (keys (a.entriesOf E)) ∧ ∀ e ∈ a.entriesOf E, InFences a.lower a.upper e.1 :=
  InnerNode.chain_entries hP h a.ascending fun s hs => ⟨a.ne_nil hs, (a.within s hs).inFences⟩

theorem Spans.cut_entries (h : a.Spans P) (hP : InnerNode.Lawful P E) {j : ℕ} (hj : j < a.separators.length) :
    (∀ e ∈ (a.children.take (j + 1)).flatMap E, e.1 ≤ a.separators[j]) ∧
      ∀ e ∈ (a.children.drop (j + 1)).flatMap E, a.separators[j] < e.1 := by
  have hne := a.ne_nil (List.getElem_mem hj)
  have hcut := Chain.cut h hj
  have hleft : (a.left j hj).Spans P := hcut.1
  have hright : (a.right j hj).Spans P := hcut.2
  exact ⟨fun e he => ((hleft.entries_spec hP).2 e he).2.resolve_left hne,
    fun e he => ((hright.entries_spec hP).2 e he).1.resolve_left hne⟩

theorem Spans.focus (h : a.Spans P) (hP : InnerNode.Lawful P E) (hk : InFences a.lower a.upper key) :
    ∃ i c x y pre post, Focus P E a key i c x y pre post := by
  have hle := lowerIndex_le_length a.separators key
  have hlen := a.length
  obtain ⟨i, hi⟩ : ∃ i, i = lowerIndex a.separators key := ⟨_, rfl⟩
  rw [← hi] at hle
  have hlc : i < a.children.length := by omega
  have hc : a.children[i]? = some a.children[i] := List.getElem?_eq_getElem hlc
  obtain ⟨x, y, hx, hy, hPc, -⟩ := Chain.focus h hlc
  have hlow : (x = [] ∨ x < key) ∧ ∀ e ∈ (a.children.take i).flatMap E, e.1 < key := by
    cases i with
    | zero =>
      obtain rfl : a.lower = x := by simpa using hx
      exact ⟨hk.1, by simp⟩
    | succ j =>
      have hlt : a.separators[j] < key := lt_of_lt_lowerIndex (by omega) hle
      rw [List.getElem?_cons_succ, List.getElem?_eq_getElem hle] at hx
      obtain rfl := Option.some.inj hx
      exact ⟨Or.inr hlt, fun e he => ((h.cut_entries hP hle).1 e he).trans_lt hlt⟩
  have hupp : (y = [] ∨ key ≤ y) ∧ ∀ e ∈ (a.children.drop (i + 1)).flatMap E, key < e.1 := by
    rcases Nat.lt_or_ge i a.separators.length with hj | hj
    · have hle' : key ≤ a.separators[i] := le_of_lowerIndex_le a.ascending hi.ge hj
      rw [List.getElem?_append_left hj, List.getElem?_eq_getElem hj] at hy
      obtain rfl := Option.some.inj hy
      exact ⟨Or.inr hle', fun e he => hle'.trans_lt ((h.cut_entries hP hj).2 e he)⟩
    · obtain rfl : i = a.separators.length := by omega
      rw [List.getElem?_concat_length] at hy
      obtain rfl := Option.some.inj hy
      refine ⟨hk.2, fun e he => ?_⟩
      rw [List.drop_of_length_le (by omega)] at he
      exact absurd he List.not_mem_nil
  exact ⟨i, a.children[i], x, y, _, _, hi, hle, hc, hPc, ⟨hlow.1, hupp.1⟩, hx, hy, entriesOf_eq hc,
    fun c' => entriesOf_set hlc c', fun c' hc' => h.set hlc hx hy hc', hlow.2, hupp.2⟩

section Halved
variable {i : ℕ} {x y sep : Bytes} {es : List (Bytes × β)} {left right : γ}

theorem children_halves (hi : i ≤ a.separators.length) (hx : (a.lower :: a.separators)[i]? = some x)
    (hy : (a.separators ++ [a.upper])[i]? = some y) (hh : Halves P E es x y sep left right)
    (hk : Within a.lower a.upper sep) (hnew : sep ∉ a.separators) :
    ((a.set i right).insert sep left hk hnew).children =
      a.children.take i ++ [left, right] ++ a.children.drop (i + 1) := by
  have hlen := a.length
  change (a.children.set i right).insertIdx (lowerIndex a.separators sep) left = _
  rw [← a.eq_lowerIndex_between hi hx hy hh.between, InnerNode.set_insertIdx (by omega)]

theorem Spans.insertHalves (h : a.Spans P) {c : γ} (hc : a.children[i]? = some c)
    (hx : (a.lower :: a.separators)[i]? = some x) (hy : (a.separators ++ [a.upper])[i]? = some y)
    (hh : Halves P E (E c) x y sep left right) (hk : Within a.lower a.upper sep) (hnew : sep ∉ a.separators) :
    ((a.set i right).insert sep left hk hnew).Spans P ∧
      ((a.set i right).insert sep left hk hnew).entriesOf E = a.entriesOf E := by
  have hlen := a.length
  obtain ⟨hlc, -⟩ := List.getElem?_eq_some_iff.mp hc
  have hi : i ≤ a.separators.length := by omega
  have hchildren := children_halves hi hx hy hh hk hnew
  have hseps : ((a.set i right).insert sep left hk hnew).separators =
      a.separators.take i ++ [sep] ++ a.separators.drop i := by
    change a.separators.insertIdx (lowerIndex a.separators sep) sep = _
    rw [← a.eq_lowerIndex_between hi hx hy hh.between, insertIdx_eq_take_append hi]
    simp
  constructor
  · obtain ⟨x', y', hx', hy', -, hput⟩ := Chain.focus h hlc
    obtain rfl := Option.some.inj (hx.symm.trans hx')
    obtain rfl := Option.some.inj (hy.symm.trans hy')
    rw [Spans, hchildren, hseps]
    exact hput [sep] [left, right] ⟨hh.left_inv, hh.right_inv⟩
  · rw [entriesOf_eq hc, entriesOf, hchildren]
    simp only [List.flatMap_append, List.flatMap_cons, List.flatMap_nil, List.append_nil, hh.entries]

theorem totalOf_insertHalves {c : γ} (hc : a.children[i]? = some c)
    (hx : (a.lower :: a.separators)[i]? = some x) (hy : (a.separators ++ [a.upper])[i]? = some y)
    (hh : Halves P E es x y sep left right) (hk : Within a.lower a.upper sep) (hnew : sep ∉ a.separators) :
    ((a.set i right).insert sep left hk hnew).totalOf w + w c = a.totalOf w + (w left + w right) := by
  have hlen := a.length
  obtain ⟨hlc, -⟩ := List.getElem?_eq_some_iff.mp hc
  rw [totalOf_eq hc, totalOf, children_halves (by omega) hx hy hh hk hnew]
  simp only [List.map_append, List.map_cons, List.map_nil, List.sum_append, List.sum_cons, List.sum_nil]
  omega

theorem Spans.halves (h : a.Spans P) (hi : i < a.separators.length) :
    (a.left i hi).Spans P ∧ (a.right i hi).Spans P := Chain.cut h hi

theorem entriesOf_halves (hi : i < a.separators.length) :
    (a.left i hi).entriesOf E ++ (a.right i hi).entriesOf E = a.entriesOf E := by
  change (a.children.take (i + 1)).flatMap E ++ (a.children.drop (i + 1)).flatMap E = _
  rw [← List.flatMap_append, List.take_append_drop]
  rfl

theorem totalOf_halves (hi : i < a.separators.length) :
    (a.left i hi).totalOf w + (a.right i hi).totalOf w = a.totalOf w := by
  change ((a.children.take (i + 1)).map w).sum + ((a.children.drop (i + 1)).map w).sum = _
  rw [← List.sum_append, ← List.map_append, List.take_append_drop]
  rfl

end Halved

theorem Spans.neighbours (h : a.Spans P) {pos : ℕ} (hpos : pos < a.separators.length) :
    ∃ x y l r, a.children[pos]? = some l ∧ a.children[pos + 1]? = some r ∧ P l x a.separators[pos] ∧
      P r a.separators[pos] y := by
  obtain ⟨x, y, l, r, -, -, hl, hr, hPl, hPr, -⟩ := Chain.join h hpos
  exact ⟨x, y, l, r, hl, hr, hPl, hPr⟩

theorem Spans.join (h : a.Spans P) {pos : ℕ} (hpos : pos < a.separators.length) {l r e : γ}
    (hl : a.children[pos]? = some l) (hr : a.children[pos + 1]? = some r)
    (he : ∀ x y, P l x a.separators[pos] → P r a.separators[pos] y → P e x y ∧ E e = E l ++ E r) :
    ((a.set (pos + 1) e).remove pos hpos).Spans P ∧
      ((a.set (pos + 1) e).remove pos hpos).entriesOf E = a.entriesOf E := by
  obtain ⟨x, y, l', r', -, -, hl', hr', hPl, hPr, hput⟩ := Chain.join h hpos
  obtain rfl := Option.some.inj (hl.symm.trans hl')
  obtain rfl := Option.some.inj (hr.symm.trans hr')
  obtain ⟨hinv, hent⟩ := he x y hPl hPr
  refine ⟨hput e hinv, ?_⟩
  obtain ⟨hlp, hle⟩ := List.getElem?_eq_some_iff.mp hl
  obtain ⟨hrp, hre⟩ := List.getElem?_eq_some_iff.mp hr
  change ((a.children.set (pos + 1) e).eraseIdx pos).flatMap E = _
  rw [InnerNode.set_eraseIdx hrp, entriesOf]
  conv_rhs => rw [← List.take_append_drop pos a.children, ← List.getElem_cons_drop hlp, ← List.getElem_cons_drop hrp,
    hle, hre]
  simp only [List.flatMap_append, List.flatMap_cons, hent, List.append_assoc]

theorem totalOf_join {pos : ℕ} (hpos : pos < a.separators.length) {l r : γ} (hl : a.children[pos]? = some l)
    (hr : a.children[pos + 1]? = some r) (e : γ) :
    ((a.set (pos + 1) e).remove pos hpos).totalOf w + (w l + w r) = a.totalOf w + w e := by
  obtain ⟨hrp, hre⟩ := List.getElem?_eq_some_iff.mp hr
  have hdrop : a.children.drop (pos + 1) = r :: a.children.drop (pos + 2) := by
    rw [← List.getElem_cons_drop hrp, hre]
  change (((a.children.set (pos + 1) e).eraseIdx pos).map w).sum + _ = _
  rw [InnerNode.set_eraseIdx hrp, totalOf_eq hl, hdrop]
  simp only [List.map_append, List.map_cons, List.sum_append, List.sum_cons]
  omega

end BtreeRedis.Routing
