import Mathlib

/-!
# Runs of machines that may fail

A machine answers calls and changes its state; a call that fails ends the run. Two
machines related call by call answer alike for as long as the first one answers at all.
-/

namespace BtreeRedis.Machine

variable {ω α σ τ ε : Type*}

def answers (step : ω → σ → Except ε (α × σ)) : List ω → σ → List α
  | [], _ => []
  | o :: os, s => match step o s with
    | .ok (a, s') => a :: answers step os s'
    | .error _ => []

def final (step : ω → σ → Except ε (α × σ)) : List ω → σ → Except ε σ
  | [], s => .ok s
  | o :: os, s => match step o s with
    | .ok (_, s') => final step os s'
    | .error e => .error e

def Along (step : ω → σ → Except ε (α × σ)) (G : ω → σ → Prop) : List ω → σ → Prop
  | [], _ => True
  | o :: os, s => G o s ∧ ∀ a s', step o s = .ok (a, s') → Along step G os s'

instance (step : ω → σ → Except ε (α × σ)) (G : ω → σ → Prop) [∀ o s, Decidable (G o s)] :
    (os : List ω) → (s : σ) → Decidable (Along step G os s)
  | [], _ => inferInstanceAs (Decidable True)
  | o :: os, s => match h : step o s with
    | .ok (a, s') =>
      have := instDecidableAlong step G os s'
      decidable_of_iff (G o s ∧ Along step G os s') (by simp [Along, h])
    | .error _ => decidable_of_iff (G o s) (by simp [Along, h])

theorem Along.mono {step : ω → σ → Except ε (α × σ)} {G G' : ω → σ → Prop} (hG : ∀ o s, G o s → G' o s) {os : List ω}
    {s : σ} (h : Along step G os s) : Along step G' os s := by
  induction os generalizing s with
  | nil => trivial
  | cons o os ih => exact ⟨hG o s h.1, fun a s' ho => ih (h.2 a s' ho)⟩

inductive Run (step : ω → σ → Except ε (α × σ)) : List ω → σ → List α → σ → Prop
  | nil (s : σ) : Run step [] s [] s
  | cons {o : ω} {os : List ω} {s s' t : σ} {a : α} {as : List α} :
      step o s = .ok (a, s') → Run step os s' as t → Run step (o :: os) s (a :: as) t

variable {step : ω → σ → Except ε (α × σ)} {spec : ω → τ → Except ε (α × τ)} {G : ω → σ → Prop}
  {D : ω → τ → Prop} {R : σ → τ → Prop}

theorem final_keeps {P : σ → Prop} (hstep : ∀ o s a s', P s → step o s = .ok (a, s') → P s') {os : List ω} {s t : σ}
    (h : P s) (ht : final step os s = .ok t) : P t := by
  induction os generalizing s with
  | nil => exact Except.ok.inj ht ▸ h
  | cons o os ih =>
    rw [final] at ht
    split at ht
    · next ho => exact ih (hstep o s _ _ h ho) ht
    · cases ht

theorem Run.unique {os : List ω} {s t t' : σ} {as as' : List α} (h : Run step os s as t)
    (h' : Run step os s as' t') : as = as' ∧ t = t' := by
  induction h generalizing as' with
  | nil =>
    cases h'
    exact ⟨rfl, rfl⟩
  | cons ho _ ih =>
    cases h' with
    | cons ho' hrest =>
      obtain ⟨rfl, rfl⟩ := Prod.mk.inj (Except.ok.inj (ho.symm.trans ho'))
      obtain ⟨rfl, rfl⟩ := ih hrest
      exact ⟨rfl, rfl⟩

theorem Run.split {os os' : List ω} {s t : σ} {as : List α} (h : Run step (os ++ os') s as t) :
    ∃ bs cs u, as = bs ++ cs ∧ Run step os s bs u ∧ Run step os' u cs t := by
  induction os generalizing s as with
  | nil => exact ⟨[], as, s, rfl, .nil s, h⟩
  | cons o os ih =>
    cases h with
    | cons ho h =>
      obtain ⟨bs, cs, u, rfl, hbs, hcs⟩ := ih h
      exact ⟨_ :: bs, cs, u, rfl, .cons ho hbs, hcs⟩

theorem Run.prefix_answers {os : List ω} {s t : σ} {as : List α} (h : Run step os s as t) (os' : List ω) :
    as <+: answers step (os ++ os') s := by
  induction h with
  | nil => exact List.nil_prefix
  | cons ho _ ih =>
    rw [List.cons_append, answers, ho]
    exact List.cons_prefix_cons.mpr ⟨rfl, ih⟩

theorem Run.simulate (hsim : ∀ o s m a s', R s m → step o s = .ok (a, s') → ∃ m', spec o m = .ok (a, m') ∧ R s' m')
    {os : List ω} {s t : σ} {as : List α} (h : Run step os s as t) {m : τ} (hR : R s m) :
    ∃ m', Run spec os m as m' ∧ R t m' := by
  induction h generalizing m with
  | nil => exact ⟨m, .nil m, hR⟩
  | cons ho _ ih =>
    obtain ⟨m₁, hm₁, hR₁⟩ := hsim _ _ m _ _ hR ho
    obtain ⟨m', hm', hR'⟩ := ih hR₁
    exact ⟨m', .cons hm₁ hm', hR'⟩

theorem answers_prefix
    (hsim : ∀ o s m a s', R s m → G o s → D o m → step o s = .ok (a, s') →
      ∃ m', spec o m = .ok (a, m') ∧ R s' m')
    (os : List ω) {s : σ} {m : τ} (hR : R s m) (hG : Along step G os s) (hD : Along spec D os m) :
    answers step os s <+: answers spec os m := by
  induction os generalizing s m with
  | nil => exact List.nil_prefix
  | cons o os ih =>
    rw [answers]
    cases ho : step o s with
    | error e => exact List.nil_prefix
    | ok r =>
      obtain ⟨a, s'⟩ := r
      obtain ⟨m', hm', hR'⟩ := hsim o s m a s' hR hG.1 hD.1 ho
      rw [answers, hm']
      exact List.cons_prefix_cons.mpr ⟨rfl, ih hR' (hG.2 a s' ho) (hD.2 a m' hm')⟩

theorem exists_run
    (hsim : ∀ o s m, R s m → G o s → D o m →
      ∃ a s' m', step o s = .ok (a, s') ∧ spec o m = .ok (a, m') ∧ R s' m')
    (os : List ω) {s : σ} {m : τ} (hR : R s m) (hG : Along step G os s) (hD : Along spec D os m) :
    ∃ as t m', Run step os s as t ∧ Run spec os m as m' ∧ R t m' := by
  induction os generalizing s m with
  | nil => exact ⟨[], s, m, .nil s, .nil m, hR⟩
  | cons o os ih =>
    obtain ⟨a, s', m', ho, hm, hR'⟩ := hsim o s m hR hG.1 hD.1
    obtain ⟨as, t, n, hs, hn, hRt⟩ := ih hR' (hG.2 a s' ho) (hD.2 a m' hm)
    exact ⟨a :: as, t, n, .cons ho hs, .cons hm hn, hRt⟩

/-- Where a call with more fuel than the size of the state comes to what the second machine makes of it, keeps an
invariant and adds no more than `d` to that size, a run does so with fuel for all its calls: it gives the same answers,
and ends alike. -/
theorem run_eq_of_size {step : ℕ → ω → σ → Except ε (α × σ)} {view : σ → τ} {size : σ → ℕ} {d : ℕ} {C : ω → Prop}
    {I : σ → Prop}
    (hstep : ∀ fuel o s, C o → I s → size s < fuel → (step fuel o s).map (Prod.map id view) = spec o (view s) ∧
      ∀ a s', step fuel o s = .ok (a, s') → I s' ∧ size s' ≤ size s + d)
    {os : List ω} (hC : ∀ o ∈ os, C o) {s : σ} (hI : I s) {fuel : ℕ} (hfuel : size s + d * os.length < fuel) :
    answers (step fuel) os s = answers spec os (view s) ∧
      (final (step fuel) os s).map view = final spec os (view s) ∧ ∀ t, final (step fuel) os s = .ok t → I t := by
  induction os generalizing s with
  | nil => exact ⟨rfl, rfl, fun t ht => Except.ok.inj ht ▸ hI⟩
  | cons o os ih =>
    rw [List.length_cons, Nat.mul_succ] at hfuel
    obtain ⟨hspec, hnext⟩ := hstep fuel o s (hC o List.mem_cons_self) hI (by omega)
    rw [answers, answers, final, final, ← hspec]
    cases ho : step fuel o s with
    | error e => exact ⟨rfl, rfl, fun t ht => absurd ht (by simp)⟩
    | ok r =>
      obtain ⟨a, s'⟩ := r
      obtain ⟨hI', hsize⟩ := hnext a s' ho
      obtain ⟨hanswers, hrest⟩ := ih (fun o ho => hC o (List.mem_cons_of_mem _ ho)) hI' (by omega)
      exact ⟨congrArg (a :: ·) hanswers, hrest⟩

end BtreeRedis.Machine
