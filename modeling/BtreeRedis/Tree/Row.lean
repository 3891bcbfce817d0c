import BtreeRedis.Tree.Inner

/-!
# The row of leaves

Seen from below, a tree is a row of leaves, each beginning where the one before it ends. A
key belongs to the first leaf whose upper fence is not below it, and the way down leads
there. The row does not depend on the kind of leaf.
-/

namespace BtreeRedis

open LexOrder SortedAssoc

/-- Leaves between two fences; an empty fence is no bound. -/
class Fenced (ν : Type) where
  lowerFence : ν → Bytes
  upperFence : ν → Bytes

export Fenced (lowerFence upperFence)

variable {ν : Type} [Fenced ν]

inductive Row : Bytes → List ν → Bytes → Prop
  | nil (s : Bytes) : Row s [] s
  | cons {lo hi : Bytes} {l : ν} {ls : List ν} (hlo : lowerFence l = lo)
      (hroom : upperFence l = [] ∨ lowerFence l < upperFence l) (hlast : upperFence l = [] → ls = [])
      (hrest : Row (upperFence l) ls hi) : Row lo (l :: ls) hi

namespace Row
variable {lo m hi : Bytes} {l l' : ν} {ls ls' : List ν}

theorem append (h : Row lo ls m) (hm : m = [] → ls' = []) (h' : Row m ls' hi) : Row lo (ls ++ ls') hi := by
  induction h with
  | nil s => exact h'
  | @cons lo m l ls hlo hroom hlast hrest ih =>
    refine .cons hlo hroom (fun hnil => ?_) (ih hm h')
    obtain rfl := hlast hnil
    cases hrest
    exact hm hnil

theorem split (h : Row lo (ls ++ ls') hi) : ∃ m, Row lo ls m ∧ Row m ls' hi ∧ (m = [] → ls = [] ∨ ls' = []) := by
  induction ls generalizing lo with
  | nil => exact ⟨lo, .nil lo, h, fun _ => Or.inl rfl⟩
  | cons l ls ih =>
    cases h with
    | cons hlo hroom hlast hrest =>
      obtain ⟨m, hleft, hright, hm⟩ := ih hrest
      refine ⟨m, .cons hlo hroom (fun hnil => (List.append_eq_nil_iff.mp (hlast hnil)).1) hleft, hright, ?_⟩
      intro hnil
      refine Or.inr ((hm hnil).elim (fun hls => ?_) id)
      subst hls
      cases hleft
      exact hlast hnil

theorem bounded (h : Row lo ls hi) (hhi : hi ≠ []) : lo ≤ hi ∧ ∀ x ∈ ls, upperFence x ≠ [] ∧ upperFence x ≤ hi := by
  induction h with
  | nil s => exact ⟨le_rfl, fun x hx => absurd hx List.not_mem_nil⟩
  | @cons lo hi l ls hlo hroom hlast hrest ih =>
    obtain ⟨hle, hall⟩ := ih hhi
    have hne : upperFence l ≠ [] := by
      intro hnil
      obtain rfl := hlast hnil
      cases hrest
      exact hhi hnil
    rw [← hlo]
    exact ⟨(hroom.resolve_left hne).le.trans hle, List.forall_mem_cons.mpr ⟨⟨hne, hle⟩, hall⟩⟩

theorem adjacent (h : Row lo (ls ++ l :: l' :: ls') hi) : lowerFence l' = upperFence l ∧ upperFence l ≠ [] ∧
    (upperFence l' = [] ∨ upperFence l < upperFence l') := by
  obtain ⟨m, -, hrest, -⟩ := h.split
  cases hrest with
  | cons hlo hroom hlast hrest =>
    cases hrest with
    | cons hlo' hroom' =>
      refine ⟨hlo', fun hnil => absurd (hlast hnil) (List.cons_ne_nil _ _), ?_⟩
      rwa [← hlo']

theorem lower_le (h : Row lo ls hi) : ∀ x ∈ ls, lo ≤ lowerFence x := by
  induction h with
  | nil s => exact fun x hx => absurd hx List.not_mem_nil
  | @cons lo hi l ls hlo hroom hlast hrest ih =>
    refine List.forall_mem_cons.mpr ⟨hlo.ge, fun x hx => ?_⟩
    have hlt := hroom.resolve_left fun hnil => List.not_mem_nil (hlast hnil ▸ hx)
    rw [← hlo]
    exact hlt.le.trans (ih x hx)

theorem of_chain {γ : Type} {leaves : γ → List ν} {ss : List Bytes} {cs : List γ}
    (h : Chain (fun c a b => Row a (leaves c) b) lo ss cs hi) (hss : ∀ s ∈ ss, s ≠ []) :
    Row lo (cs.flatMap leaves) hi := by
  induction ss generalizing lo cs with
  | nil =>
    obtain ⟨c, rfl, hc⟩ := Chain.nil_iff.mp h
    simpa using hc
  | cons s ss ih =>
    obtain ⟨c, ds, rfl, hc, hd⟩ := Chain.cons_iff.mp h
    rw [List.flatMap_cons]
    apply hc.append fun hnil => absurd hnil (hss s List.mem_cons_self)
    exact ih hd fun t ht => hss t (List.mem_cons_of_mem s ht)

end Row

structure Located (key : Bytes) (ls before : List ν) (l : ν) (after : List ν) : Prop where
  eq : ls = before ++ l :: after
  before_lt : ∀ x ∈ before, upperFence x ≠ [] ∧ upperFence x < key
  le : upperFence l = [] ∨ key ≤ upperFence l

namespace Located
variable {key lo hi : Bytes} {ls before before' after after' : List ν} {l l' : ν}

theorem before_eq (h : Located key ls before l after) :
    before = ls.takeWhile fun x => decide (upperFence x ≠ [] ∧ upperFence x < key) := by
  have hall : ∀ x ∈ before, decide (upperFence x ≠ [] ∧ upperFence x < key) = true :=
    fun x hx => decide_eq_true (h.before_lt x hx)
  have hstop : ¬ (upperFence l ≠ [] ∧ upperFence l < key) :=
    fun hc => h.le.elim hc.1 fun hle => absurd hc.2 (not_lt.mpr hle)
  rw [h.eq, List.takeWhile_append_of_pos hall, List.takeWhile_cons_of_neg (by simpa using hstop), List.append_nil]

theorem dropWhile_eq (h : Located key ls before l after) :
    (ls.dropWhile fun x => decide (upperFence x ≠ [] ∧ upperFence x < key)) = l :: after := by
  have hsplit := List.takeWhile_append_dropWhile
    (p := fun x => decide (upperFence x ≠ [] ∧ upperFence x < key)) (l := ls)
  rw [← h.before_eq] at hsplit
  exact List.append_cancel_left (hsplit.trans h.eq)

theorem unique (h : Located key ls before l after) (h' : Located key ls before' l' after') :
    before' = before ∧ l' = l ∧ after' = after := by
  have hb : before' = before := h'.before_eq.trans h.before_eq.symm
  subst hb
  have heq := List.append_cancel_left (h'.eq.symm.trans h.eq)
  exact ⟨rfl, (List.cons.inj heq).1, (List.cons.inj heq).2⟩

theorem next (hrow : Row lo ls hi) (h : Located key ls before l (l' :: after)) :
    Located (upperFence l ++ [0]) ls (before ++ [l]) l' after := by
  have heq := h.eq
  rw [heq] at hrow
  obtain ⟨-, hne, hlt⟩ := hrow.adjacent
  have hbehind := lt_append_singleton (upperFence l) 0
  refine ⟨by rw [heq, List.append_assoc]; rfl, ?_, hlt.imp_right (append_least_le_iff Fin.zero_le).mpr⟩
  intro x hx
  rcases List.mem_append.mp hx with hx | hx
  · obtain ⟨hxne, hxlt⟩ := h.before_lt x hx
    exact ⟨hxne, (hxlt.trans_le (h.le.resolve_left hne)).trans hbehind⟩
  · obtain rfl := List.mem_singleton.mp hx
    exact ⟨hne, hbehind⟩

theorem prev (hrow : Row lo ls hi) (h : Located key ls (before ++ [l']) l after) :
    Located (lowerFence l) ls before l' (l :: after) := by
  have heq : ls = before ++ l' :: l :: after := by
    rw [h.eq, List.append_assoc]
    rfl
  rw [heq] at hrow
  obtain ⟨hfence, hne, -⟩ := hrow.adjacent
  refine ⟨heq, ?_, Or.inr hfence.le⟩
  obtain ⟨m, hleft, hright, hm⟩ := hrow.split
  cases hright with
  | cons hlo hroom =>
    intro x hx
    have hmne : m ≠ [] := fun hnil => (hm hnil).elim (fun hb => List.not_mem_nil (hb ▸ hx)) (List.cons_ne_nil _ _)
    obtain ⟨hxne, hxle⟩ := (hleft.bounded hmne).2 x hx
    rw [hfence]
    refine ⟨hxne, hxle.trans_lt ?_⟩
    rw [← hlo]
    exact hroom.resolve_left hne

theorem of_upperFence (hrow : Row lo (before ++ l :: after) hi) (hne : upperFence l ≠ []) :
    Located (upperFence l) (before ++ l :: after) before l after := by
  refine ⟨rfl, ?_, Or.inr le_rfl⟩
  obtain ⟨m, hleft, hright, hm⟩ := hrow.split
  cases hright with
  | cons hlo hroom =>
    intro x hx
    have hmne : m ≠ [] := fun hnil => (hm hnil).elim (fun hb => List.not_mem_nil (hb ▸ hx)) (List.cons_ne_nil _ _)
    obtain ⟨hxne, hxle⟩ := (hleft.bounded hmne).2 x hx
    rw [← hlo] at hxle
    exact ⟨hxne, hxle.trans_lt (hroom.resolve_left hne)⟩

theorem after_ge (hrow : Row lo ls hi) (h : Located key ls before l after) :
    ∀ x ∈ after, upperFence l ≠ [] ∧ upperFence l ≤ lowerFence x := by
  rw [h.eq] at hrow
  obtain ⟨m, -, hright, -⟩ := hrow.split
  cases hright with
  | cons hlo hroom hlast hrest =>
    intro x hx
    exact ⟨fun hnil => List.not_mem_nil (hlast hnil ▸ hx), hrest.lower_le x hx⟩

theorem after_nil_iff (hrow : Row lo ls []) (h : Located key ls before l after) : after = [] ↔ upperFence l = [] := by
  rw [h.eq] at hrow
  obtain ⟨m, -, hright, -⟩ := hrow.split
  cases hright with
  | cons hlo hroom hlast hrest =>
    refine ⟨fun hnil => ?_, hlast⟩
    subst hnil
    generalize upperFence l = u at hrest
    cases hrest
    rfl

theorem before_nil_iff (hrow : Row [] ls hi) (h : Located key ls before l after) :
    before = [] ↔ lowerFence l = [] := by
  rw [h.eq] at hrow
  obtain ⟨m, hleft, hright, hm⟩ := hrow.split
  cases hright with
  | cons hlo hroom hlast hrest =>
    rw [hlo]
    constructor
    · intro hnil
      subst hnil
      cases hleft
      rfl
    · exact fun hnil => (hm hnil).resolve_right (List.cons_ne_nil _ _)

section
variable {β : Type} {E : ν → List (Bytes × β)}

def Within (E : ν → List (Bytes × β)) (ls : List ν) : Prop :=
  ∀ x ∈ ls, ∀ e ∈ E x, InFences (lowerFence x) (upperFence x) e.1

theorem before_entries (h : Located key ls before l after) (hE : Within E ls) :
    ∀ e ∈ before.flatMap E, e.1 < key := by
  intro e he
  obtain ⟨x, hx, hex⟩ := List.mem_flatMap.mp he
  obtain ⟨hne, hlt⟩ := h.before_lt x hx
  have hin := hE x (by rw [h.eq]; exact List.mem_append_left _ hx) e hex
  exact (hin.2.resolve_left hne).trans_lt hlt

theorem filter_prev (hrow : Row lo ls hi) (h : Located key ls (before ++ [l']) l after) (hE : Within E ls) :
    ((E l').filter fun e => decide (e.1 ≤ lowerFence l)) = E l' := by
  have hmem : l' ∈ ls := by
    rw [h.eq]
    exact List.mem_append_left _ (List.mem_append_right _ List.mem_cons_self)
  rw [h.eq, List.append_assoc] at hrow
  obtain ⟨hfence, hne, -⟩ := hrow.adjacent
  apply List.filter_eq_self.mpr
  intro e he
  rw [hfence]
  exact decide_eq_true ((hE l' hmem e he).2.resolve_left hne)

theorem after_entries (hrow : Row lo ls hi) (h : Located key ls before l after) (hE : Within E ls) :
    ∀ e ∈ after.flatMap E, key < e.1 := by
  intro e he
  obtain ⟨x, hx, hex⟩ := List.mem_flatMap.mp he
  obtain ⟨hne, hle⟩ := h.after_ge hrow x hx
  have hin := hE x (by rw [h.eq]; exact List.mem_append_right _ (List.mem_cons_of_mem l hx)) e hex
  have hlt := hin.1.resolve_left fun hnil => hne (le_antisymm (hnil ▸ hle) (nil_le _))
  exact (h.le.resolve_left hne).trans_lt (hle.trans_lt hlt)

theorem filter_ge (hrow : Row lo ls hi) (h : Located key ls before l after) (hE : Within E ls) :
    ((ls.flatMap E).filter fun e => decide (key ≤ e.1)) =
      ((E l).filter fun e => decide (key ≤ e.1)) ++ after.flatMap E := by
  have hbefore : ((before.flatMap E).filter fun e => decide (key ≤ e.1)) = [] := by
    apply List.filter_eq_nil_iff.mpr
    intro e he
    simpa using h.before_entries hE e he
  have hafter : ((after.flatMap E).filter fun e => decide (key ≤ e.1)) = after.flatMap E := by
    apply List.filter_eq_self.mpr
    intro e he
    simpa using (h.after_entries hrow hE e he).le
  rw [h.eq, List.flatMap_append, List.flatMap_cons, List.filter_append, List.filter_append, hbefore, hafter,
    List.nil_append]

theorem filter_le (hrow : Row lo ls hi) (h : Located key ls before l after) (hE : Within E ls) :
    ((ls.flatMap E).filter fun e => decide (e.1 ≤ key)) =
      before.flatMap E ++ ((E l).filter fun e => decide (e.1 ≤ key)) := by
  have hbefore : ((before.flatMap E).filter fun e => decide (e.1 ≤ key)) = before.flatMap E := by
    apply List.filter_eq_self.mpr
    intro e he
    simpa using (h.before_entries hE e he).le
  have hafter : ((after.flatMap E).filter fun e => decide (e.1 ≤ key)) = [] := by
    apply List.filter_eq_nil_iff.mpr
    intro e he
    simpa using h.after_entries hrow hE e he
  rw [h.eq, List.flatMap_append, List.flatMap_cons, List.filter_append, List.filter_append, hbefore, hafter,
    List.append_nil]

end

end Located

/-- The leaves below `c` are a row, and the way down from `c` leads to the leaf of the key. -/
structure Routed {γ : Type} (route : γ → Bytes → Except Fault ν) (leaves : γ → List ν) (c : γ) (lower upper : Bytes) :
    Prop where
  row : Row lower (leaves c) upper
  located : ∀ key, InFences lower upper key → ∃ before l after, Located key (leaves c) before l after ∧
    InFences (lowerFence l) (upperFence l) key ∧ route c key = .ok l

theorem Routed.of_leaf {γ : Type} {route : γ → Bytes → Except Fault ν} {leaves : γ → List ν} {c : γ} {l : ν}
    {lower upper : Bytes} (hlow : lowerFence l = lower) (hupp : upperFence l = upper) (hf : FencesOrdered lower upper)
    (hroute : ∀ key, route c key = .ok l) (hopen : upperFence l = [] ∨ lowerFence l < upperFence l → leaves c = [l])
    (hclosed : ¬ (upperFence l = [] ∨ lowerFence l < upperFence l) → leaves c = []) :
    Routed route leaves c lower upper := by
  subst hlow hupp
  by_cases hroom : upperFence l = [] ∨ lowerFence l < upperFence l
  · have hl := hopen hroom
    refine ⟨hl ▸ .cons rfl hroom (fun _ => rfl) (.nil _), fun key hk => ⟨[], l, [], ?_, hk, hroute key⟩⟩
    exact ⟨hl, fun x hx => absurd hx List.not_mem_nil, hk.2⟩
  · refine ⟨?_, fun key hk => absurd hk.hasRoom hroom⟩
    rw [hclosed hroom, hf.eq_of_closed hroom]
    exact .nil _

namespace InnerNode
variable {γ : Type} [ChildPointer γ]

def routeBelow (route : γ → Bytes → Except Fault ν) (p : InnerNode γ) (key : Bytes) : Except Fault ν := do
  let pos ← p.lookupInnerIndex key
  let child ← p.getChild pos
  route child key

theorem Inv.routed {P : γ → Bytes → Bytes → Prop} {p : InnerNode γ} {lower upper : Bytes}
    {route : γ → Bytes → Except Fault ν} {leaves : γ → List ν} (h : Inv P p lower upper)
    (hP : ∀ c a b, P c a b → Routed route leaves c a b) :
    Routed (routeBelow route) (fun p => p.children.flatMap leaves) p lower upper := by
  have hchain := h.chain.mono fun c a b hc => (hP c a b hc).row
  refine ⟨Row.of_chain hchain h.nonempty, fun key hk => ?_⟩
  have hlawful : Lawful P fun _ => ([] : List (Bytes × Unit)) :=
    fun _ _ _ _ => ⟨List.Pairwise.nil, fun e he => absurd he List.not_mem_nil⟩
  obtain ⟨i, c, a, b, pre, post, f⟩ := h.focus hlawful hk
  obtain ⟨before, l, after, hl, hin, hroute⟩ := (hP c a b f.inv).located key f.inFences
  have hget := (getChild_eq_ok f.le_count).mp f.child
  obtain ⟨hi, hci⟩ := List.getElem?_eq_some_iff.mp hget
  have hsplit : p.children.flatMap leaves =
      (p.children.take i).flatMap leaves ++ leaves c ++ (p.children.drop (i + 1)).flatMap leaves := by
    conv_lhs => rw [← List.take_append_drop i p.children, ← List.getElem_cons_drop hi, hci]
    rw [List.flatMap_append, List.flatMap_cons, List.append_assoc]
  have hleft : ∀ x ∈ (p.children.take i).flatMap leaves, Fenced.upperFence x ≠ [] ∧ Fenced.upperFence x < key := by
    cases i with
    | zero => exact fun x hx => absurd hx List.not_mem_nil
    | succ j =>
      have hlower := f.lower_at
      rw [List.getElem?_cons_succ] at hlower
      obtain ⟨hj, rfl⟩ := List.getElem?_eq_some_iff.mp hlower
      have hrow := Row.of_chain (hchain.cut hj).1 fun s hs => h.nonempty s (List.mem_of_mem_take hs)
      have hne := h.nonempty _ (List.getElem_mem hj)
      intro x hx
      obtain ⟨hxne, hxle⟩ := (hrow.bounded hne).2 x hx
      exact ⟨hxne, hxle.trans_lt (f.inFences.1.resolve_left hne)⟩
  refine ⟨(p.children.take i).flatMap leaves ++ before, l, after ++ (p.children.drop (i + 1)).flatMap leaves,
    ⟨?_, ?_, hl.le⟩, hin, ?_⟩
  · rw [hsplit, hl.eq]
    simp
  · exact fun x hx => (List.mem_append.mp hx).elim (hleft x) (hl.before_lt x)
  · simp only [routeBelow, f.index, f.child, ok_bind, hroute]

end InnerNode

end BtreeRedis
