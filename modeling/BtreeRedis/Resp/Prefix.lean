import BtreeRedis.Resp.Session

/-!
# Texts that are cut short

Wherever the text of a value is cut, the reader waits for the rest of it. A connection
that breaks off therefore never looks like a malformed command, and it never looks like
a complete one either.
-/

namespace BtreeRedis

open Reader Connection

variable {alloc : Allocator} {text p q rest : Bytes}

theorem append_cases {a b : Bytes} (h : p ++ q = a ++ b) (hq : q ≠ []) :
    (∃ c, c ≠ [] ∧ a = p ++ c) ∨ ∃ p', p = a ++ p' ∧ p' ++ q = b := by
  rcases List.append_eq_append_iff.mp h with ⟨c, rfl, rfl⟩ | ⟨p', rfl, rfl⟩
  · rcases eq_or_ne c [] with rfl | hc
    · exact Or.inr ⟨[], by rw [List.append_nil, List.append_nil], rfl⟩
    · exact Or.inl ⟨c, hc, rfl⟩
  · exact Or.inr ⟨p', rfl, rfl⟩

theorem openLine_before {Text : Bytes → Prop} (ht : Text text) (hcr : cr ∉ text)
    (h : text ++ crlf = p ++ q) (hq : q ≠ []) : OpenLine Text p := by
  rcases append_cases h.symm hq with ⟨c, -, rfl⟩ | ⟨p', rfl, hp'⟩
  · exact Or.inl fun hm => hcr (List.mem_append_left _ hm)
  · rcases p' with _ | ⟨b, p'⟩
    · rw [List.append_nil]
      exact Or.inl hcr
    · obtain ⟨rfl, htail⟩ := List.cons.inj hp'
      obtain rfl : p' = [] := by
        have hlen : p'.length + q.length = 1 := by
          rw [← List.length_append]
          exact congrArg List.length htail
        have hpos := List.length_pos_iff.mpr hq
        exact List.length_eq_zero_iff.mp (by omega)
      exact Or.inr ⟨text, rfl, ht⟩

theorem line_cut {Text : Bytes → Prop} {body : Bytes} (ht : Text text) (hcr : cr ∉ text)
    (h : text ++ crlf ++ body = p ++ q) (hq : q ≠ []) :
    OpenLine Text p ∨ ∃ p', p = text ++ crlf ++ p' ∧ body = p' ++ q := by
  rcases append_cases h.symm hq with ⟨c, hc, hp⟩ | ⟨p', rfl, hp'⟩
  · exact Or.inl (openLine_before ht hcr hp hc)
  · exact Or.inr ⟨p', rfl, hp'.symm⟩

mutual

theorem Encoded.waiting {v : RespValue} {text p q : Bytes} :
    Encoded alloc v text → text = p ++ q → q ≠ [] → Waiting alloc p := by
  intro h htext hq
  rcases p with _ | ⟨b, p⟩
  · exact .type
  cases h with
  | integer h =>
    obtain ⟨rfl, hline⟩ := List.cons.inj htext
    exact .integer (openLine_before ⟨_, h⟩ h.no_cr hline hq)
  | simpleString h =>
    obtain ⟨rfl, hline⟩ := List.cons.inj htext
    exact .simpleString (openLine_before h h hline hq)
  | error h =>
    obtain ⟨rfl, hline⟩ := List.cons.inj htext
    exact .error (openLine_before h h hline hq)
  | @bulkString text str h hmax _ =>
    obtain ⟨rfl, hline⟩ := List.cons.inj htext
    rw [List.append_assoc _ str] at hline
    rcases line_cut (show IntegerLine _ from ⟨_, h⟩) h.no_cr hline hq with hopen | ⟨p', rfl, hbody⟩
    · exact .bulkLength hopen
    · refine .bulkData h (by exact_mod_cast hmax) ?_
      have hlen := congrArg List.length hbody
      have hpos := List.length_pos_iff.mpr hq
      have hcrlf : crlf.length = 2 := rfl
      rw [List.length_append, List.length_append, hcrlf] at hlen
      have hsize : (toSize ((str.length : ℤ) + 2) : ℤ) = str.length + 2 :=
        toSize_of_nonneg (by omega) (by exact_mod_cast hmax)
      omega
  | @array text body vs h halloc hs =>
    obtain ⟨rfl, hline⟩ := List.cons.inj htext
    rcases line_cut (show IntegerLine _ from ⟨_, h⟩) h.no_cr hline hq with hopen | ⟨p', rfl, hbody⟩
    · exact .arrayLength hopen
    · obtain ⟨k, body', tail, hk, rfl, hs', hw⟩ := EncodedItems.waiting hs hbody hq
      refine .items h (Int.natCast_nonneg _) (by rwa [Int.toNat_natCast]) hs' ?_ hw
      rw [List.length_take, Int.toNat_natCast]
      omega

theorem EncodedItems.waiting {vs : List RespValue} {text p q : Bytes} :
    EncodedItems alloc vs text → text = p ++ q → q ≠ [] →
      ∃ k body tail, k < vs.length ∧ p = body ++ tail ∧ EncodedItems alloc (vs.take k) body ∧
        Waiting alloc tail := by
  intro h htext hq
  cases h with
  | nil => exact absurd (List.append_eq_nil_iff.mp htext.symm).2 hq
  | @cons v vs first body h hs =>
    rcases append_cases htext.symm hq with ⟨c, hc, hp⟩ | ⟨p', rfl, hp'⟩
    · exact ⟨0, [], p, Nat.zero_lt_succ _, rfl, .nil, Encoded.waiting h hp hc⟩
    · obtain ⟨k, body', tail, hk, rfl, hs', hw⟩ := EncodedItems.waiting hs hp'.symm hq
      refine ⟨k + 1, first ++ body', tail, Nat.succ_lt_succ hk, ?_, .cons h hs', hw⟩
      rw [List.append_assoc]

end

theorem wellFormed_of_prefix {commands : List (List RespValue)} {body p q : Bytes}
    (h : EncodedItems alloc (commands.map .array) body) (hbody : body = p ++ q) :
    ∃ k, WellFormed alloc (commands.take k) p := by
  rcases eq_or_ne q [] with rfl | hq
  · refine ⟨commands.length, body, [], ?_, ?_, .type⟩
    · rw [hbody, List.append_nil, List.append_nil]
    · rwa [List.take_length]
  · obtain ⟨k, first, tail, -, rfl, hs, hw⟩ := h.waiting hbody hq
    refine ⟨k, first, tail, rfl, ?_, hw⟩
    rwa [List.map_take]

end BtreeRedis
