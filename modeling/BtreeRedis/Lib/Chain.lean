import Mathlib

/-!
# Chains of children between separators

`Chain P lo ss cs hi` lays the children `cs` end to end: the first one spans from
`lo` to the first separator, each next one from separator to separator, the last
one up to `hi`, and `P` holds of every child with its two bounds. A child can be
taken out and any chain over the same two bounds put in its place.
-/

namespace BtreeRedis

variable {γ β : Type*} {P Q : γ → β → β → Prop}

def Chain (P : γ → β → β → Prop) : β → List β → List γ → β → Prop
  | lo, [], [c], hi => P c lo hi
  | lo, s :: ss, c :: cs, hi => P c lo s ∧ Chain P s ss cs hi
  | _, _, _, _ => False

namespace Chain

@[simp] theorem nil_singleton {lo hi : β} {c : γ} : Chain P lo [] [c] hi ↔ P c lo hi := Iff.rfl

@[simp] theorem cons_cons {lo hi s : β} {ss : List β} {c : γ} {cs : List γ} :
    Chain P lo (s :: ss) (c :: cs) hi ↔ P c lo s ∧ Chain P s ss cs hi := Iff.rfl

theorem nil_iff {lo hi : β} {cs : List γ} : Chain P lo [] cs hi ↔ ∃ c, cs = [c] ∧ P c lo hi := by
  match cs with
  | [] => simp [Chain]
  | [c] => simp
  | c :: d :: cs => simp [Chain]

theorem cons_iff {lo hi s : β} {ss : List β} {cs : List γ} :
    Chain P lo (s :: ss) cs hi ↔ ∃ c ds, cs = c :: ds ∧ P c lo s ∧ Chain P s ss ds hi := by
  cases cs with
  | nil => simp [Chain]
  | cons c cs => simp

theorem length_eq {lo hi : β} {ss : List β} {cs : List γ} (h : Chain P lo ss cs hi) :
    cs.length = ss.length + 1 := by
  induction ss generalizing lo cs with
  | nil =>
    obtain ⟨c, rfl, -⟩ := nil_iff.mp h
    rfl
  | cons s ss ih =>
    obtain ⟨c, ds, rfl, -, hd⟩ := cons_iff.mp h
    simp [ih hd]

theorem mono {lo hi : β} {ss : List β} {cs : List γ} (hPQ : ∀ c a b, P c a b → Q c a b)
    (h : Chain P lo ss cs hi) : Chain Q lo ss cs hi := by
  induction ss generalizing lo cs with
  | nil =>
    obtain ⟨c, rfl, hc⟩ := nil_iff.mp h
    exact hPQ _ _ _ hc
  | cons s ss ih =>
    obtain ⟨c, ds, rfl, hc, hd⟩ := cons_iff.mp h
    exact ⟨hPQ _ _ _ hc, ih hd⟩

theorem forall_mem {lo hi : β} {ss : List β} {cs : List γ} (h : Chain P lo ss cs hi) :
    ∀ c ∈ cs, ∃ a b, P c a b := by
  induction ss generalizing lo cs with
  | nil =>
    obtain ⟨c, rfl, hc⟩ := nil_iff.mp h
    exact List.forall_mem_singleton.mpr ⟨lo, hi, hc⟩
  | cons s ss ih =>
    obtain ⟨c, ds, rfl, hc, hd⟩ := cons_iff.mp h
    exact List.forall_mem_cons.mpr ⟨⟨lo, s, hc⟩, ih hd⟩

theorem append_iff {lo m hi : β} {ss ts : List β} {cs ds : List γ} (hl : cs.length = ss.length + 1) :
    Chain P lo (ss ++ m :: ts) (cs ++ ds) hi ↔ Chain P lo ss cs m ∧ Chain P m ts ds hi := by
  induction ss generalizing lo cs with
  | nil =>
    obtain ⟨c, rfl⟩ := List.length_eq_one_iff.mp hl
    simp
  | cons s ss ih =>
    cases cs with
    | nil => simp at hl
    | cons c cs =>
      simp only [List.cons_append, cons_cons]
      rw [ih (by simpa using hl), and_assoc]

theorem focus {lo hi : β} {ss : List β} {cs : List γ} (h : Chain P lo ss cs hi) {i : ℕ}
    (hi' : i < cs.length) :
    ∃ a b, (lo :: ss)[i]? = some a ∧ (ss ++ [hi])[i]? = some b ∧ P cs[i] a b ∧
      ∀ ts ms, Chain P a ts ms b →
        Chain P lo (ss.take i ++ ts ++ ss.drop i) (cs.take i ++ ms ++ cs.drop (i + 1)) hi := by
  induction ss generalizing lo cs i with
  | nil =>
    obtain ⟨c, rfl, hc⟩ := nil_iff.mp h
    obtain rfl : i = 0 := by simpa using hi'
    exact ⟨lo, hi, rfl, rfl, hc, fun ts ms hm => by simpa using hm⟩
  | cons s ss ih =>
    obtain ⟨c, ds, rfl, hc, hd⟩ := cons_iff.mp h
    cases i with
    | zero =>
      refine ⟨lo, s, rfl, rfl, hc, fun ts ms hm => ?_⟩
      simpa using (append_iff hm.length_eq).mpr ⟨hm, hd⟩
    | succ i =>
      obtain ⟨a, b, ha, hb, hP, hput⟩ := ih hd (by simpa using hi')
      exact ⟨a, b, ha, hb, hP, fun ts ms hm => ⟨hc, hput ts ms hm⟩⟩

theorem cut {lo hi : β} {ss : List β} {cs : List γ} (h : Chain P lo ss cs hi) {i : ℕ}
    (hi' : i < ss.length) :
    Chain P lo (ss.take i) (cs.take (i + 1)) ss[i] ∧
      Chain P ss[i] (ss.drop (i + 1)) (cs.drop (i + 1)) hi := by
  have hl := h.length_eq
  have hlen : (cs.take (i + 1)).length = (ss.take i).length + 1 := by
    simp only [List.length_take]
    omega
  rw [← append_iff hlen, List.take_append_drop, List.getElem_cons_drop, List.take_append_drop]
  exact h

theorem join {lo hi : β} {ss : List β} {cs : List γ} (h : Chain P lo ss cs hi) {i : ℕ}
    (hi' : i < ss.length) :
    ∃ a b c d, (lo :: ss)[i]? = some a ∧ (ss ++ [hi])[i + 1]? = some b ∧
      cs[i]? = some c ∧ cs[i + 1]? = some d ∧ P c a ss[i] ∧ P d ss[i] b ∧
      ∀ e, P e a b → Chain P lo (ss.eraseIdx i) ((cs.set (i + 1) e).eraseIdx i) hi := by
  induction ss generalizing lo cs i with
  | nil => simp at hi'
  | cons s ss ih =>
    obtain ⟨c, ds, rfl, hc, hd⟩ := cons_iff.mp h
    cases i with
    | zero =>
      cases ss with
      | nil =>
        obtain ⟨d, rfl, hd⟩ := nil_iff.mp hd
        exact ⟨lo, hi, c, d, rfl, rfl, rfl, rfl, hc, hd, fun e he => by simpa using he⟩
      | cons t ss =>
        obtain ⟨d, es, rfl, hd, hes⟩ := cons_iff.mp hd
        exact ⟨lo, t, c, d, rfl, rfl, rfl, rfl, hc, hd, fun e he => by simpa using ⟨he, hes⟩⟩
    | succ i =>
      obtain ⟨a, b, x, y, ha, hb, hx, hy, hPx, hPy, hput⟩ := ih hd (by simpa using hi')
      refine ⟨a, b, x, y, by simpa using ha, by simpa using hb, by simpa using hx,
        by simpa using hy, hPx, hPy, fun e he => ?_⟩
      simpa using ⟨hc, hput e he⟩

end Chain

end BtreeRedis
