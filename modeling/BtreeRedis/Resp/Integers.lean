import BtreeRedis.Resp.Grammar

/-!
# The integer reader against its grammar

The protocol has one optional sign and then digits on the line of an integer. `readInteger`
takes digits and signs in any order: it agrees with the grammar on the lines that it finds
malformed by themselves, and on those of digits and signs that have the shape.
-/

namespace BtreeRedis

open Decimal Reader Connection

def isSign (b : Byte) : Bool := b = plus || b = minus

def unsigned (text : Bytes) : Bytes :=
  if text.head? = some plus ∨ text.head? = some minus then text.drop 1 else text

def lineInteger (text : Bytes) : Option ℤ :=
  let z : ℤ := if text.head? = some minus then -value (unsigned text) else value (unsigned text)
  if unsigned text ≠ [] ∧ (unsigned text).all isDigit = true ∧ -(2 ^ 63) ≤ z ∧ z ≤ int64Max then some z else none

/-- A line up to its carriage return is read as the grammar has it, and consumed up to the line feed;
any other is rejected. -/
structure ReadsExactly (text rest : Bytes) : Prop where
  accepts : ∀ n rest', lineInteger text = some n → rest = lf :: rest' →
    CReads readInteger (text ++ cr :: rest) n rest'
  rejects : (∀ n rest', lineInteger text = some n → rest ≠ lf :: rest') →
    ∃ e, e ≠ .overflow ∧ CFails readInteger (text ++ cr :: rest) e

def accepted (text : Bytes) : Bytes := text.takeWhile fun b => isDigit b || isSign b

def accumulated (text : Bytes) : ℕ := value ((accepted text).filter isDigit)

variable {text rest buf : Bytes} {v : ℕ}

theorem accepted_cons {b : Byte} (h : (isDigit b || isSign b) = true) (text : Bytes) :
    accepted (b :: text) = b :: accepted text := List.takeWhile_cons_of_pos h

theorem isSign_iff {b : Byte} : isSign b = true ↔ b = plus ∨ b = minus := by
  rw [isSign, Bool.or_eq_true, decide_eq_true_eq, decide_eq_true_eq]

theorem accepted_eq_self : accepted text = text ↔ ∀ b ∈ text, isDigit b = true ∨ b = plus ∨ b = minus := by
  rw [accepted, List.takeWhile_eq_self_iff]
  refine forall₂_congr fun b _ => ?_
  rw [Bool.or_eq_true, isSign_iff]

theorem integerLoop_stops (hcr : cr ∉ text) (hv : v ≤ int64Max) (negative : Bool) (buf : Bytes) :
    (int64Max < ((accepted text).filter isDigit).foldl (fun acc b => acc * 10 + digit b) v →
      integerLoop (text ++ cr :: buf) v negative = .error .overflow) ∧
    (((accepted text).filter isDigit).foldl (fun acc b => acc * 10 + digit b) v ≤ int64Max → accepted text ≠ text →
      integerLoop (text ++ cr :: buf) v negative = .error .runtimeError) := by
  induction text generalizing v negative with
  | nil => exact ⟨fun h => absurd hv h.not_ge, fun _ h => absurd rfl h⟩
  | cons b text ih =>
    rw [List.mem_cons, not_or] at hcr
    rw [List.cons_append, integerLoop]
    by_cases hd : isDigit b = true
    · have hacc : accepted (b :: text) = b :: accepted text := accepted_cons (by rw [hd, Bool.true_or]) text
      rw [hacc, value_filter_cons hd, List.foldl_cons, if_pos hd]
      by_cases hle : v * 10 + digit b ≤ int64Max
      · rw [if_pos hle]
        obtain ⟨hover, hother⟩ := ih hcr.2 hle negative
        exact ⟨hover, fun hf hne => hother hf fun he => hne (congrArg (b :: ·) he)⟩
      · rw [if_neg hle]
        refine ⟨fun _ => rfl, fun hf => absurd hf (not_le.mpr ?_)⟩
        rw [foldl_eq]
        exact (not_le.mp hle).trans_le
          ((Nat.le_mul_of_pos_right _ (Nat.pow_pos (by decide))).trans (Nat.le_add_right _ _))
    · have hne : ¬ b = cr := Ne.symm hcr.1
      rw [if_neg hd, if_neg hne]
      by_cases hs : b = plus ∨ b = minus
      · have hacc : accepted (b :: text) = b :: accepted text :=
          accepted_cons (by rw [isSign_iff.mpr hs, Bool.or_true]) text
        have hstep : ∀ negative', (int64Max <
              ((accepted text).filter isDigit).foldl (fun acc b => acc * 10 + digit b) v →
              integerLoop (text ++ cr :: buf) v negative' = .error .overflow) ∧
            (((accepted text).filter isDigit).foldl (fun acc b => acc * 10 + digit b) v ≤ int64Max →
              b :: accepted text ≠ b :: text →
              integerLoop (text ++ cr :: buf) v negative' = .error .runtimeError) := by
          intro negative'
          obtain ⟨hover, hother⟩ := ih hcr.2 hv negative'
          exact ⟨hover, fun hf hne => hother hf fun he => hne (congrArg (b :: ·) he)⟩
        rw [hacc, value_filter_other hd]
        by_cases hp : b = plus
        · rw [if_pos hp]
          exact hstep negative
        · rw [if_neg hp, if_pos (hs.resolve_left hp)]
          exact hstep true
      · have hacc : accepted (b :: text) = [] := List.takeWhile_cons_of_neg (by
          rw [Bool.or_eq_true, isSign_iff]
          exact fun h => h.elim hd hs)
        rw [hacc, List.filter_nil, List.foldl_nil, if_neg fun h => hs (Or.inl h), if_neg fun h => hs (Or.inr h)]
        exact ⟨fun h => absurd hv h.not_ge, fun _ _ => rfl⟩

theorem readInteger_fails {e : ReadFault} (hcr : cr ∉ text)
    (h : ∀ buf, integerLoop (text ++ cr :: buf) 0 false = .error e) :
    CFails readInteger (text ++ cr :: rest) e := by
  unfold readInteger
  refine Fails.bind (CFails.require_of (by simp) fun c hs hm => ?_)
  obtain ⟨buf, hb, -⟩ := buffered_line hs hcr (of_decide_eq_true hm)
  simp only [scanDigits, hb, h, Except.map]

theorem readInteger_overflows (hcr : cr ∉ text) (h : int64Max < accumulated text) :
    CFails readInteger (text ++ cr :: rest) .overflow :=
  readInteger_fails hcr fun buf => (integerLoop_stops hcr (Nat.zero_le _) false buf).1 h

theorem readInteger_throws (hcr : cr ∉ text) (h : accumulated text ≤ int64Max) (hne : accepted text ≠ text) :
    CFails readInteger (text ++ cr :: rest) .runtimeError :=
  readInteger_fails hcr fun buf => (integerLoop_stops hcr (Nat.zero_le _) false buf).2 h hne

theorem readInteger_taken (h : accumulated text ≤ int64Max) (he : accepted text = text) :
    IntegerText text (if minus ∈ text then -(value (text.filter isDigit) : ℤ) else value (text.filter isDigit)) := by
  rw [accumulated, he] at h
  exact ⟨accepted_eq_self.mp he, h, rfl⟩

theorem readInteger_unclosed {n : ℤ} (h : IntegerText text n) (hrest : rest.head? ≠ some lf) :
    ∃ e, e ≠ .overflow ∧ CFails readInteger (text ++ cr :: rest) e := by
  cases rest with
  | nil => exact ⟨.connectionClosed, by decide, readInteger_open (Or.inr ⟨text, rfl, n, h⟩)⟩
  | cons b rest =>
    refine ⟨.runtimeError, by decide, ?_⟩
    unfold readInteger
    exact (readDigits_text h.chars h.fits h.no_cr _).bind_fails (expect_ne fun hb => hrest (congrArg some hb)).bind

def Shaped (text : Bytes) : Prop := unsigned text ≠ [] ∧ (unsigned text).all isDigit = true

instance (text : Bytes) : Decidable (Shaped text) := inferInstanceAs (Decidable (_ ∧ _))

theorem shaped_of_lineInteger {n : ℤ} (h : lineInteger text = some n) : Shaped text := by
  by_contra hshape
  rw [lineInteger] at h
  rw [if_neg fun hs => hshape ⟨hs.1, hs.2.1⟩] at h
  cases h

theorem Shaped.parts (h : Shaped text) : ∃ signs, text = signs ++ unsigned text ∧
    (∀ b ∈ signs, b = plus ∨ b = minus) ∧ (minus ∈ signs ↔ text.head? = some minus) := by
  cases text with
  | nil => exact absurd rfl h.1
  | cons b text =>
    by_cases hs : (b :: text).head? = some plus ∨ (b :: text).head? = some minus
    · have hu : unsigned (b :: text) = text := by rw [unsigned, if_pos hs, List.drop_one, List.tail_cons]
      refine ⟨[b], by rw [hu]; rfl, fun c hc => ?_, ?_⟩
      · rw [List.mem_singleton.mp hc]
        exact hs.imp Option.some.inj Option.some.inj
      · rw [List.mem_singleton, List.head?_cons, Option.some.injEq, eq_comm]
    · have hu : unsigned (b :: text) = b :: text := by rw [unsigned, if_neg hs]
      refine ⟨[], by rw [hu]; rfl, fun c hc => absurd hc List.not_mem_nil, ?_⟩
      exact ⟨fun hc => absurd hc List.not_mem_nil, fun hc => absurd (Or.inr hc) hs⟩

theorem Shaped.accepted (h : Shaped text) : accepted text = text := by
  obtain ⟨signs, he, hs, -⟩ := h.parts
  rw [accepted_eq_self]
  intro b hb
  rw [he, List.mem_append] at hb
  exact hb.elim (fun hb => Or.inr (hs b hb)) fun hb => Or.inl (List.all_eq_true.mp h.2 b hb)

theorem Shaped.filter (h : Shaped text) : text.filter isDigit = unsigned text := by
  obtain ⟨signs, he, hs, -⟩ := h.parts
  have hsigns : signs.filter isDigit = [] := by
    rw [List.filter_eq_nil_iff]
    intro b hb
    rcases hs b hb with rfl | rfl
    · decide
    · decide
  conv_lhs => rw [he, List.filter_append, hsigns, List.nil_append]
  rw [List.filter_eq_self]
  exact List.all_eq_true.mp h.2

theorem Shaped.minus_mem (h : Shaped text) : minus ∈ text ↔ text.head? = some minus := by
  obtain ⟨signs, he, hs, hm⟩ := h.parts
  rw [← hm]
  conv_lhs => rw [he, List.mem_append]
  refine or_iff_left fun hd => ?_
  exact absurd (List.all_eq_true.mp h.2 _ hd) (by decide)

theorem Shaped.lineInteger (h : Shaped text) (hle : accumulated text ≤ int64Max) : lineInteger text =
    some (if minus ∈ text then -(value (text.filter isDigit) : ℤ) else value (text.filter isDigit)) := by
  rw [accumulated, h.accepted, h.filter] at hle
  simp only [h.minus_mem, h.filter]
  rw [BtreeRedis.lineInteger]
  refine if_pos ⟨h.1, h.2, ?_⟩
  simp only [int64Max] at hle ⊢
  split_ifs <;> omega

theorem exists_source (s : Bytes) : ∃ c : Connection, c.stream = s := ⟨⟨s, []⟩, by simp [stream]⟩

/-- The reader is exact but for the lines whose digits exceed an `int64_t`, and those of digits and
signs only in which a sign does not stand first or there is no digit. -/
theorem readsExactly_iff (hcr : cr ∉ text) (rest : Bytes) :
    ReadsExactly text rest ↔ accumulated text ≤ int64Max ∧
      (accepted text = text → rest.head? = some lf → Shaped text) := by
  obtain ⟨c, hc⟩ := exists_source (text ++ cr :: rest)
  by_cases hle : accumulated text ≤ int64Max
  · rw [and_iff_right hle]
    by_cases he : accepted text = text
    · rw [forall_prop_of_true he]
      have htext := readInteger_taken hle he
      by_cases hrest : rest.head? = some lf
      · rw [forall_prop_of_true hrest]
        obtain ⟨rest', rfl⟩ : ∃ rest', rest = lf :: rest' := by
          cases rest with
          | nil => cases hrest
          | cons b rest => exact ⟨rest, by rw [Option.some.inj hrest]⟩
        have hread := readInteger_text htext rest'
        rw [List.append_assoc] at hread
        constructor
        · intro h
          by_contra hshape
          obtain ⟨e, -, hfails⟩ := h.rejects fun n _ hn => absurd (shaped_of_lineInteger hn) hshape
          exact Reads.not_fails hc hread hfails
        · intro hshape
          refine ⟨fun n rest'' hn hr => ?_, fun h => absurd rfl (h _ rest' (hshape.lineInteger hle))⟩
          rw [hshape.lineInteger hle] at hn
          rw [← Option.some.inj hn, ← (List.cons.inj hr).2]
          exact hread
      · refine iff_of_true ⟨fun n rest' _ hr => absurd (by rw [hr]; rfl) hrest, fun _ => ?_⟩ fun h => absurd h hrest
        exact readInteger_unclosed htext hrest
    · refine iff_of_true ⟨fun n _ hn _ => absurd (shaped_of_lineInteger hn).accepted he, fun _ => ?_⟩
        fun h => absurd h he
      exact ⟨.runtimeError, by decide, readInteger_throws hcr hle he⟩
  · refine iff_of_false (fun h => ?_) fun h => hle h.1
    have hover := @readInteger_overflows text rest hcr (not_le.mp hle)
    by_cases hgood : ∃ n rest', lineInteger text = some n ∧ rest = lf :: rest'
    · obtain ⟨n, rest', hn, hr⟩ := hgood
      exact Reads.not_fails hc (h.accepts n rest' hn hr) hover
    · obtain ⟨e, hne, hfails⟩ := h.rejects fun n rest' hn hr => hgood ⟨n, rest', hn, hr⟩
      exact hne (Fails.unique hc hfails hover)

/-- The line `-12`. -/
theorem readsExactly_negative : ReadsExactly [45, 49, 50] [10] :=
  (readsExactly_iff (by decide) [10]).mpr (by decide)

/-- The line `1-2` is read as -12. -/
theorem not_readsExactly_inner : ¬ ReadsExactly [49, 45, 50] [10] := by
  intro h
  obtain ⟨c, hc⟩ := exists_source ([49, 45, 50] ++ cr :: [10])
  have hnone : lineInteger [49, 45, 50] = none := rfl
  obtain ⟨e, -, hfails⟩ := h.rejects fun n rest' hn => nomatch hnone.symm.trans hn
  have hread := readInteger_text (@readInteger_taken [49, 45, 50] (by decide) (by decide)) []
  exact Reads.not_fails hc hread hfails

end BtreeRedis
