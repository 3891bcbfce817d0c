import Mathlib

/-!
# What a computation yields if it does not stop in an admitted way

`Yields S Q x` says that `x` returns a value with `Q` or ends in an error with `S`. The rules
follow the shape of a program: sequencing, consequence, a fold over a list.
-/

namespace BtreeRedis.Outcome

variable {ε : Type*} {α β : Type*} {S : ε → Prop} {P Q : α → Prop}

def Yields (S : ε → Prop) (Q : α → Prop) : Except ε α → Prop
  | .ok a => Q a
  | .error e => S e

@[simp] theorem yields_ok {a : α} : Yields S Q (.ok a) ↔ Q a := Iff.rfl

@[simp] theorem yields_error {e : ε} : Yields S Q (.error e) ↔ S e := Iff.rfl

@[simp] theorem yields_pure {a : α} : Yields S Q (pure a) ↔ Q a := Iff.rfl

instance decidableForallOk {P : α → Prop} [DecidablePred P] : (x : Except ε α) → Decidable (∀ a, x = .ok a → P a)
  | .ok a => decidable_of_iff (P a) (by simp)
  | .error _ => isTrue (by simp)

instance decidableExistsOk : (x : Except ε α) → Decidable (∃ a, x = .ok a)
  | .ok a => isTrue ⟨a, rfl⟩
  | .error _ => isFalse (by simp)

instance decidableForallOkPair {β : Type*} [DecidableEq α] {P : β → Prop} [DecidablePred P] (x : Except ε (α × β))
    (a : α) : Decidable (∀ b, x = .ok (a, b) → P b) :=
  decidable_of_iff (∀ r, x = .ok r → r.1 = a → P r.2)
    ⟨fun h b hb => h (a, b) hb rfl, fun h r hr ha => h r.2 (by rw [hr, ← ha])⟩

def passes (check : α → Bool) : Except ε α → Bool
  | .ok a => check a
  | .error _ => false

theorem passes_iff {check : α → Bool} {x : Except ε α} :
    passes check x = true ↔ ∃ a, x = .ok a ∧ check a = true := by
  cases x with
  | error e => simp [passes]
  | ok a => simp [passes]

theorem Yields.bind {β : Type _} {x : Except ε α} {f : α → Except ε β} {R : β → Prop} (h : Yields S P x)
    (hf : ∀ a, P a → Yields S R (f a)) : Yields S R (x >>= f) := by
  cases x with
  | error e => exact h
  | ok a => exact hf a h

theorem Yields.mono {x : Except ε α} (h : Yields S P x) (hPQ : ∀ a, P a → Q a) : Yields S Q x := by
  cases x with
  | error e => exact h
  | ok a => exact hPQ a h

theorem Yields.of_eq_ok {x : Except ε α} {a : α} (h : Yields S Q x) (hx : x = .ok a) : Q a := by
  rw [hx] at h
  exact h

theorem Yields.intro {x : Except ε α} (h : Yields S (fun _ => True) x) (hx : ∀ a, x = .ok a → Q a) :
    Yields S Q x := by
  cases x with
  | error e => exact h
  | ok a => exact hx a rfl

theorem Yields.of_ok {x : Except ε α} {a : α} (hx : x = .ok a) (hQ : Q a) : Yields S Q x := by
  rw [hx]
  exact hQ

theorem Yields.weaken {T : ε → Prop} {x : Except ε α} (h : Yields S Q x) (hST : ∀ e, S e → T e) :
    Yields T Q x := by
  cases x with
  | error e => exact hST e h
  | ok a => exact h

theorem Yields.after {β : Type _} {x : Except ε α} {f : α → Except ε β} {R : β → Prop} (hS : ∀ e, S e)
    (hf : ∀ a, Yields S R (f a)) : Yields S R (x >>= f) := by
  cases x with
  | error e => exact hS e
  | ok a => exact hf a

theorem Yields.exists_ok {x : Except ε α} (h : Yields S Q x) (hS : ∀ e, ¬ S e) : ∃ a, x = .ok a ∧ Q a := by
  cases x with
  | error e => exact absurd h (hS e)
  | ok a => exact ⟨a, rfl, h⟩

theorem Yields.foldlM {σ : Type*} {f : α → σ → Except ε α} {I : List σ → α → Prop} {src : List σ} {a : α}
    (h : I [] a)
    (hf : ∀ done s rest, src = done ++ s :: rest → ∀ a, I done a → Yields S (I (done ++ [s])) (f a s)) :
    Yields S (I src) (src.foldlM f a) := by
  have hgen : ∀ (rest done : List σ) (a : α), src = done ++ rest → I done a →
      Yields S (I src) (rest.foldlM f a) := by
    intro rest
    induction rest with
    | nil =>
      intro done a hsrc ha
      rw [hsrc, List.append_nil]
      exact ha
    | cons s rest ih =>
      intro done a hsrc ha
      rw [List.foldlM_cons]
      refine (hf done s rest hsrc a ha).bind fun b hb => ih (done ++ [s]) b ?_ hb
      rw [hsrc, List.append_assoc]
      rfl
  exact hgen src [] a rfl h

theorem foldlM_keeps {σ : Type*} {f : α → σ → Except ε α} {src : List σ} {a b : α}
    (hf : ∀ a, ∀ s ∈ src, ∀ b, P a → f a s = .ok b → P b) (h : P a) (hb : src.foldlM f a = .ok b) : P b := by
  have hall : Yields (fun _ => True) P (src.foldlM f a) := by
    refine Yields.foldlM (I := fun _ => P) h fun done s rest hsrc a ha => Yields.intro ?_ fun b => hf a s ?_ b ha
    · cases f a s <;> trivial
    · rw [hsrc]
      exact List.mem_append_right _ List.mem_cons_self
  exact hall.of_eq_ok hb

theorem mapM_ok {α β : Type _} {f : α → Except ε β} {g : α → β} {l : List α} (h : ∀ a ∈ l, f a = .ok (g a)) :
    l.mapM f = .ok (l.map g) := by
  induction l with
  | nil => rfl
  | cons a l ih =>
    rw [List.mapM_cons, h a List.mem_cons_self, ih fun b hb => h b (List.mem_cons_of_mem a hb)]
    rfl

end BtreeRedis.Outcome
