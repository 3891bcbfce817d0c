import Mathlib

/-!
# Words in a channel

A channel carries the texts of words one after another. Its symbols may stand in two
buffers, the far one and the near one, and no boundary between the buffers need be a
boundary between words: the near one starts with the first word, or is a part of it.
-/

namespace BtreeRedis

variable {α β : Type*} {code : α → List β → Prop}

inductive Carries (code : α → List β → Prop) : List α → List β → Prop
  | nil : Carries code [] []
  | cons {w : α} {ws : List α} {text rest : List β} :
      code w text → Carries code ws rest → Carries code (w :: ws) (text ++ rest)

namespace Carries

variable {w : α} {ws : List α} {text symbols near far : List β}

theorem append (h : Carries code ws symbols) (hw : code w text) : Carries code (ws ++ [w]) (symbols ++ text) := by
  induction h with
  | nil =>
    have hone := cons hw nil
    rwa [List.append_nil] at hone
  | cons hv _ ih =>
    rw [List.append_assoc, List.cons_append]
    exact cons hv ih

inductive Near (code : α → List β → Prop) (ws : List α) (near far : List β) : Prop
  | empty (hws : ws = []) (hnear : near = []) (hfar : far = [])
  | whole {w : α} {ws' : List α} {text tail : List β} (hws : ws = w :: ws') (hw : code w text)
      (hnear : near = text ++ tail) (hrest : Carries code ws' (tail ++ far))
  | part {w : α} {ws' : List α} {text cut : List β} (hws : ws = w :: ws') (hw : code w text)
      (htext : text = near ++ cut) (hcut : cut ≠ []) (hfar : far ≠ [])

theorem near_cases (h : Carries code ws (near ++ far)) : Near code ws near far := by
  generalize hs : near ++ far = symbols at h
  cases h with
  | nil =>
    obtain ⟨hnear, hfar⟩ := List.append_eq_nil_iff.mp hs
    exact .empty rfl hnear hfar
  | @cons w ws text rest hw hrest =>
    rcases List.append_eq_append_iff.mp hs with ⟨cut, rfl, rfl⟩ | ⟨tail, rfl, rfl⟩
    · rcases eq_or_ne cut [] with rfl | hcut
      · have hnear : near = near ++ [] ++ [] := by rw [List.append_nil, List.append_nil]
        exact .whole rfl hw hnear hrest
      · refine .part rfl hw rfl hcut ?_
        rw [ne_eq, List.append_eq_nil_iff, not_and_or]
        exact Or.inl hcut
    · exact .whole rfl hw rfl hrest

end Carries

end BtreeRedis
