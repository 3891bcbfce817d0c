import BtreeRedis.Resp.Grammar

/-!
# Reading values

Every encoded value is read back whatever follows it, a waiting text makes the reader
close the connection, and nothing else does either. The serializer writes encoded
values, so what it writes of a readable value is read as that value.
-/

namespace BtreeRedis

open Decimal Reader Connection

variable {alloc : Allocator}

section Dispatch
variable {s rest : Bytes} {fuel : ℕ} {e : ReadFault}

/-- The switch of `readValue`. -/
def readTyped (alloc : Allocator) (fuel : ℕ) (valueType : Byte) : ConnM RespValue :=
  if valueType = RespType.integer then .integer <$> readInteger
  else if valueType = RespType.string then (.simpleString ∘ some) <$> readSimpleString
  else if valueType = RespType.err then (.error ∘ some) <$> readSimpleString
  else if valueType = RespType.bulkString then (.bulkString ∘ some) <$> readBulkString alloc
  else if valueType = RespType.array then .array <$> readArray alloc (readNested alloc fuel)
  else throw .runtimeError

theorem readNested_cons {v : RespValue} {b : Byte} (h : CReads (readTyped alloc fuel b) s v rest) :
    CReads (readNested alloc (fuel + 1)) (b :: s) v rest := (readByte_cons b s).bind h

theorem readNested_cons_fails {b : Byte} (h : CFails (readTyped alloc fuel b) s e) :
    CFails (readNested alloc (fuel + 1)) (b :: s) e := (readByte_cons b s).bind_fails h

theorem readTyped_integer : readTyped alloc fuel RespType.integer = .integer <$> readInteger := if_pos rfl

theorem readTyped_string :
    readTyped alloc fuel RespType.string = (.simpleString ∘ some) <$> readSimpleString := by
  rw [readTyped, if_neg (by decide), if_pos rfl]

theorem readTyped_err : readTyped alloc fuel RespType.err = (.error ∘ some) <$> readSimpleString := by
  rw [readTyped, if_neg (by decide), if_neg (by decide), if_pos rfl]

theorem readTyped_bulkString :
    readTyped alloc fuel RespType.bulkString = (.bulkString ∘ some) <$> readBulkString alloc := by
  rw [readTyped, if_neg (by decide), if_neg (by decide), if_neg (by decide), if_pos rfl]

theorem readTyped_array :
    readTyped alloc fuel RespType.array = .array <$> readArray alloc (readNested alloc fuel) := by
  rw [readTyped, if_neg (by decide), if_neg (by decide), if_neg (by decide), if_neg (by decide),
    if_pos rfl]

end Dispatch

theorem readArray_items {text s rest : Bytes} {n : ℕ} {read : ConnM RespValue}
    {vs : List RespValue} (h : IntegerText text n) (halloc : alloc.vector n = true)
    (hr : CReads (readItems read n) s vs rest) :
    CReads (readArray alloc read) (text ++ crlf ++ s) vs rest := by
  unfold readArray
  exact (readInteger_text h s).bind ((reads_check ⟨Int.natCast_nonneg n, halloc⟩ _ s).bind hr)

mutual

theorem readNested_encoded {v : RespValue} {text : Bytes} : Encoded alloc v text → ∀ fuel : ℕ,
    text.length ≤ fuel → ∀ rest, CReads (readNested alloc fuel) (text ++ rest) v rest
  | h, 0, hl, rest => by cases h <;> simp at hl
  | .integer h, fuel + 1, _, rest => readNested_cons (by
      rw [readTyped_integer]
      exact (readInteger_text h rest).map)
  | .simpleString h, fuel + 1, _, rest => readNested_cons (by
      rw [readTyped_string]
      exact (readSimpleString_text h rest).map)
  | .error h, fuel + 1, _, rest => readNested_cons (by
      rw [readTyped_err]
      exact (readSimpleString_text h rest).map)
  | .bulkString h hmax halloc, fuel + 1, _, rest => readNested_cons (by
      rw [readTyped_bulkString]
      exact (readBulkString_data h hmax halloc rest).map)
  | @Encoded.array _ text body vs h halloc hs, fuel + 1, hl, rest => readNested_cons (by
      rw [readTyped_array]
      have hb : body.length ≤ fuel := by
        simp only [List.length_cons, List.length_append] at hl
        omega
      change CReads _ (text ++ crlf ++ body ++ rest) _ rest
      rw [List.append_assoc]
      exact (readArray_items h halloc (readItems_encoded hs fuel hb rest)).map)

theorem readItems_encoded {vs : List RespValue} {body : Bytes} : EncodedItems alloc vs body →
    ∀ fuel : ℕ, body.length ≤ fuel → ∀ rest,
      CReads (readItems (readNested alloc fuel) vs.length) (body ++ rest) vs rest
  | .nil, _, _, rest => reads_pure [] rest
  | @EncodedItems.cons _ v vs text body h hs, fuel, hl, rest => by
    rw [List.length_append] at hl
    rw [List.append_assoc, List.length_cons, readItems]
    exact (readNested_encoded h fuel (by omega) (body ++ rest)).bind
      ((readItems_encoded hs fuel (by omega) rest).bind (reads_pure _ _))

end

theorem Encoded.pos {v : RespValue} {text : Bytes} (h : Encoded alloc v text) : 0 < text.length := by
  cases h <;> exact Nat.succ_pos _

theorem readItems_waiting {read : ConnM RespValue} {vs : List RespValue} {body tail : Bytes} :
    EncodedItems alloc vs body →
    (∀ v text rest, Encoded alloc v text → text.length ≤ body.length →
      CReads read (text ++ rest) v rest) →
    CFails read tail .connectionClosed → ∀ count, vs.length < count →
    CFails (readItems read count) (body ++ tail) .connectionClosed
  | .nil, _, ht, count + 1, _ => by
    rw [readItems]
    exact ht.bind
  | @EncodedItems.cons _ v vs text body h hs, hread, ht, count + 1, hlt => by
    rw [List.length_cons] at hlt
    rw [List.append_assoc, readItems]
    refine (hread v text _ h (by simp)).bind_fails (readItems_waiting hs ?_ ht count (by omega)).bind
    intro v text' rest h' hl
    exact hread v text' rest h' (by rw [List.length_append]; omega)

theorem readNested_waiting {s : Bytes} (h : Waiting alloc s) (fuel : ℕ) (hl : s.length < fuel) :
    CFails (readNested alloc fuel) s .connectionClosed := by
  induction h generalizing fuel with
  | type =>
    obtain ⟨k, rfl⟩ := Nat.exists_eq_add_of_lt hl
    exact readByte_nil.bind
  | integer h =>
    obtain ⟨k, rfl⟩ := Nat.exists_eq_add_of_lt hl
    exact readNested_cons_fails (by rw [readTyped_integer]; exact (readInteger_open h).map)
  | simpleString h =>
    obtain ⟨k, rfl⟩ := Nat.exists_eq_add_of_lt hl
    exact readNested_cons_fails (by rw [readTyped_string]; exact (readSimpleString_open h).map)
  | error h =>
    obtain ⟨k, rfl⟩ := Nat.exists_eq_add_of_lt hl
    exact readNested_cons_fails (by rw [readTyped_err]; exact (readSimpleString_open h).map)
  | bulkLength h =>
    obtain ⟨k, rfl⟩ := Nat.exists_eq_add_of_lt hl
    exact readNested_cons_fails (by rw [readTyped_bulkString]; exact (readBulkString_open h).map)
  | bulkData h hmax hlt =>
    obtain ⟨k, rfl⟩ := Nat.exists_eq_add_of_lt hl
    refine readNested_cons_fails ?_
    rw [readTyped_bulkString]
    exact (readBulkString_waiting h hmax hlt).map
  | arrayLength h =>
    obtain ⟨k, rfl⟩ := Nat.exists_eq_add_of_lt hl
    exact readNested_cons_fails (by
      rw [readTyped_array]
      exact (readInteger_open h).bind.map)
  | @items text body tail n vs h hpos halloc hs hlt ht ih =>
    obtain ⟨k, rfl⟩ := Nat.exists_eq_add_of_lt hl
    simp only [List.length_cons, List.length_append] at ih ⊢
    refine readNested_cons_fails ?_
    rw [readTyped_array]
    refine Fails.map ?_
    unfold readArray
    refine (readInteger_text h _).bind_fails ((reads_check ⟨hpos, halloc⟩ _ _).bind_fails ?_)
    refine readItems_waiting hs (fun v text rest hv hle => ?_) (ih _ (by omega)) _ hlt
    exact readNested_encoded hv _ (by omega) rest

theorem readItems_outcome {read : ConnM RespValue} {k : ℕ}
    (hread : ∀ s : Bytes, s.length < k → Outcome read (Encoded alloc) (Waiting alloc) s)
    (count : ℕ) (s : Bytes) (hs : s.length < k) :
    Outcome (readItems read count) (fun vs body => EncodedItems alloc vs body ∧ vs.length = count)
      (fun s => ∃ vs body tail, s = body ++ tail ∧ EncodedItems alloc vs body ∧
        vs.length < count ∧ Waiting alloc tail) s := by
  induction count generalizing s with
  | zero => exact .complete (List.nil_append s).symm ⟨.nil, rfl⟩ (reads_pure [] s)
  | succ count ih =>
    rcases hread s hs with @⟨v, text, rest, rfl, hv, hf⟩ | ⟨hw, hf⟩ | ⟨he, hf⟩
    · have hpos := hv.pos
      rw [List.length_append] at hs
      rcases ih rest (by omega) with @⟨vs, body, rest, rfl, ⟨hvs, hcount⟩, hfs⟩ |
        ⟨⟨vs, body, tail, rfl, hvs, hlt, hw⟩, hfs⟩ | ⟨he, hfs⟩
      · rw [← List.append_assoc] at hf ⊢
        refine .complete rfl ⟨.cons hv hvs, by rw [List.length_cons, hcount]⟩ ?_
        exact hf.bind (hfs.bind (reads_pure _ _))
      · refine .waiting ⟨v :: vs, text ++ body, tail, by rw [List.append_assoc], .cons hv hvs,
          by rw [List.length_cons]; omega, hw⟩ ?_
        exact hf.bind_fails hfs.bind
      · exact .malformed he (hf.bind_fails hfs.bind)
    · exact .waiting ⟨[], [], s, rfl, .nil, Nat.succ_pos _, hw⟩ hf.bind
    · exact .malformed he hf.bind

inductive ArrayWaiting (alloc : Allocator) (s : Bytes) : Prop
  | length (h : OpenLine IntegerLine s)
  | items {text body tail : Bytes} {n : ℤ} {vs : List RespValue}
      (hs : s = text ++ crlf ++ (body ++ tail)) (h : IntegerText text n) (hpos : 0 ≤ n)
      (halloc : alloc.vector n.toNat = true) (hvs : EncodedItems alloc vs body)
      (hlt : vs.length < n.toNat) (ht : Waiting alloc tail)

theorem readArray_outcome {read : ConnM RespValue} {k : ℕ}
    (hread : ∀ s : Bytes, s.length < k → Outcome read (Encoded alloc) (Waiting alloc) s)
    (s : Bytes) (hs : s.length < k) :
    Outcome (readArray alloc read) (fun vs t => ∃ text body, t = text ++ crlf ++ body ∧
        IntegerText text vs.length ∧ alloc.vector vs.length = true ∧ EncodedItems alloc vs body)
      (ArrayWaiting alloc) s := by
  unfold readArray
  rcases readInteger_outcome s with @⟨n, _, rest, rfl, ⟨text, rfl, h⟩, hf⟩ | ⟨h, hf⟩ | ⟨he, hf⟩
  · by_cases hok : 0 ≤ n ∧ alloc.vector n.toNat = true
    · simp only [List.length_append] at hs
      rcases readItems_outcome hread n.toNat rest (by omega) with
        @⟨vs, body, rest, rfl, ⟨hvs, hcount⟩, hfs⟩ | ⟨⟨vs, body, tail, rfl, hvs, hlt, hw⟩, hfs⟩ |
          ⟨he, hfs⟩
      · have hn : n = vs.length := by omega
        subst hn
        refine .complete (List.append_assoc _ _ _).symm ⟨text, body, rfl, h, hok.2, hvs⟩ ?_
        exact hf.bind ((reads_check hok _ _).bind hfs)
      · refine .waiting (.items rfl h hok.1 hok.2 hvs hlt hw) ?_
        exact hf.bind_fails ((reads_check hok _ _).bind_fails hfs)
      · exact .malformed he (hf.bind_fails ((reads_check hok _ _).bind_fails hfs))
    · exact .malformed (Or.inr (Or.inl rfl)) (hf.bind_fails (fails_check hok _ _).bind)
  · exact .waiting (.length h) hf.bind
  · exact .malformed he hf.bind

theorem readNested_outcome_of {α : Type} {f : ConnM α} {g : α → RespValue}
    {Complete : α → Bytes → Prop} {Wait : Bytes → Prop} {fuel : ℕ} {b : Byte} {s : Bytes}
    (h : Outcome f Complete Wait s) (hf : readTyped alloc fuel b = g <$> f)
    (hc : ∀ a t, Complete a t → Encoded alloc (g a) (b :: t))
    (hw : Wait s → Waiting alloc (b :: s)) :
    Outcome (readNested alloc (fuel + 1)) (Encoded alloc) (Waiting alloc) (b :: s) := by
  rcases h with @⟨a, t, rest, rfl, ha, hr⟩ | ⟨hs, hr⟩ | ⟨he, hr⟩
  · exact .complete (List.cons_append ..).symm (hc a t ha) (readNested_cons (by rw [hf]; exact hr.map))
  · exact .waiting (hw hs) (readNested_cons_fails (by rw [hf]; exact hr.map))
  · exact .malformed he (readNested_cons_fails (by rw [hf]; exact hr.map))

theorem readNested_outcome (fuel : ℕ) (s : Bytes) (hs : s.length < fuel) :
    Outcome (readNested alloc fuel) (Encoded alloc) (Waiting alloc) s := by
  induction fuel generalizing s with
  | zero => exact absurd hs (Nat.not_lt_zero _)
  | succ fuel ih =>
    cases s with
    | nil => exact .waiting .type (readByte_nil.bind)
    | cons b s =>
      have hs' : s.length < fuel := Nat.lt_of_succ_lt_succ hs
      by_cases h₁ : b = RespType.integer
      · subst h₁
        refine readNested_outcome_of (readInteger_outcome s) readTyped_integer ?_ .integer
        rintro n t ⟨text, rfl, h⟩
        exact .integer h
      by_cases h₂ : b = RespType.string
      · subst h₂
        refine readNested_outcome_of (readSimpleString_outcome s) readTyped_string ?_ .simpleString
        rintro str t ⟨rfl, h⟩
        exact .simpleString h
      by_cases h₃ : b = RespType.err
      · subst h₃
        refine readNested_outcome_of (readSimpleString_outcome s) readTyped_err ?_ .error
        rintro str t ⟨rfl, h⟩
        exact .error h
      by_cases h₄ : b = RespType.bulkString
      · subst h₄
        refine readNested_outcome_of (readBulkString_outcome alloc s) readTyped_bulkString ?_ ?_
        · rintro str t ⟨text, rfl, h, hmax, halloc⟩
          exact .bulkString h hmax halloc
        · rintro (h | ⟨rfl, h, hmax, hlt⟩)
          · exact .bulkLength h
          · exact .bulkData h hmax hlt
      by_cases h₅ : b = RespType.array
      · subst h₅
        refine readNested_outcome_of (readArray_outcome ih s hs') readTyped_array ?_ ?_
        · rintro vs t ⟨text, body, rfl, h, halloc, hvs⟩
          exact .array h halloc hvs
        · rintro (h | ⟨rfl, h, hpos, halloc, hvs, hlt, ht⟩)
          · exact .arrayLength h
          · exact .items h hpos halloc hvs hlt ht
      · refine .malformed (Or.inl rfl) (readNested_cons_fails ?_)
        rw [readTyped, if_neg h₁, if_neg h₂, if_neg h₃, if_neg h₄, if_neg h₅]
        exact fails_throw _ _

theorem readValue_outcome (s : Bytes) :
    Outcome (readValue alloc) (Encoded alloc) (Waiting alloc) s := by
  rcases readNested_outcome (s.length + 1) s (Nat.lt_succ_self _) with
    ⟨hs, h, hf⟩ | ⟨h, hf⟩ | ⟨he, hf⟩
  · exact .complete hs h fun c hc => by subst hc; exact hf c rfl
  · exact .waiting h fun c hc => by subst hc; exact hf c rfl
  · exact .malformed he fun c hc => by subst hc; exact hf c rfl

theorem readValue_encoded {v : RespValue} {text : Bytes} (h : Encoded alloc v text) (rest : Bytes) :
    CReads (readValue alloc) (text ++ rest) v rest := by
  intro c hc
  refine readNested_encoded h (c.stream.length + 1) ?_ rest c hc
  rw [hc, List.length_append]
  omega

theorem readValue_waiting {s : Bytes} (h : Waiting alloc s) :
    CFails (readValue alloc) s .connectionClosed := by
  intro c hc
  exact readNested_waiting h (c.stream.length + 1) (by rw [hc]; exact Nat.lt_succ_self _) c hc

theorem readValue_determined : Determined stream (readValue alloc) := by
  intro s
  rcases @readValue_outcome alloc s with ⟨-, -, hf⟩ | ⟨-, hf⟩ | ⟨-, hf⟩
  · exact Or.inl ⟨_, _, hf⟩
  · exact Or.inr ⟨_, hf⟩
  · exact Or.inr ⟨_, hf⟩

def Readable (alloc : Allocator) (v : RespValue) : Prop :=
  ∃ c c', readValue alloc c = .ok (v, c')

theorem Readable.encoded {v : RespValue} (h : Readable alloc v) : ∃ text, Encoded alloc v text := by
  obtain ⟨c, c', hc⟩ := h
  have hr := readValue_determined.reads hc
  rcases @readValue_outcome alloc c.stream with @⟨v', text, rest, hs, hv, hf⟩ | ⟨-, hf⟩ | ⟨-, hf⟩
  · obtain ⟨rfl, -⟩ := hr.unique rfl hf
    exact ⟨text, hv⟩
  · exact absurd hf (hr.not_fails rfl)
  · exact absurd hf (hr.not_fails rfl)

section Serializer

theorem filter_text (n : ℕ) : (text n).filter isDigit = text n :=
  List.filter_eq_self.mpr fun _ hb => isDigit_text hb

theorem minus_not_mem_text (n : ℕ) : minus ∉ text n := fun h => absurd (isDigit_text h) (by decide)

theorem integerText_text {n : ℕ} (h : n ≤ int64Max) : IntegerText (text n) n where
  chars b hb := Or.inl (isDigit_text hb)
  fits := by rwa [filter_text, value_text]
  eq := by rw [if_neg (minus_not_mem_text n), filter_text, value_text]

theorem integerText_signedText {z : ℤ} (h : z.natAbs ≤ int64Max) : IntegerText (signedText z) z := by
  by_cases hz : z < 0
  · have hd : ¬ isDigit minus = true := by decide
    have hs : signedText z = minus :: text z.natAbs := signedText_minus hz
    rw [hs]
    refine ⟨List.forall_mem_cons.mpr ⟨Or.inr (Or.inr rfl), fun b hb => Or.inl (isDigit_text hb)⟩,
      ?_, ?_⟩
    · rw [value_filter_other hd, filter_text, value_text]
      exact h
    · rw [if_pos List.mem_cons_self, value_filter_other hd, filter_text, value_text]
      omega
  · rw [signedText_digits hz]
    have ht := integerText_text h
    rwa [show ((z.natAbs : ℕ) : ℤ) = z by omega] at ht

theorem IntegerText.range {s : Bytes} {n : ℤ} (h : IntegerText s n) : n.natAbs ≤ int64Max := by
  have hf := h.fits
  rw [h.eq]
  split_ifs
  · rwa [Int.natAbs_neg, Int.natAbs_natCast]
  · rwa [Int.natAbs_natCast]

mutual

def Admissible (alloc : Allocator) : RespValue → Prop
  | .integer n => n.natAbs ≤ int64Max
  | .simpleString (some str) => cr ∉ str
  | .error (some str) => cr ∉ str
  | .bulkString (some str) => str.length + 2 ≤ int64Max ∧ alloc.string str.length = true
  | .array vs => vs.length ≤ int64Max ∧ alloc.vector vs.length = true ∧ AdmissibleItems alloc vs
  | _ => False

def AdmissibleItems (alloc : Allocator) : List RespValue → Prop
  | [] => True
  | v :: vs => Admissible alloc v ∧ AdmissibleItems alloc vs

end

mutual

theorem Encoded.admissible {v : RespValue} {s : Bytes} : Encoded alloc v s → Admissible alloc v
  | .integer h => by
    rw [Admissible]
    exact h.range
  | .simpleString h => by
    rw [Admissible]
    exact h
  | .error h => by
    rw [Admissible]
    exact h
  | .bulkString _ hmax halloc => by
    rw [Admissible]
    exact ⟨hmax, halloc⟩
  | .array h halloc hs => by
    rw [Admissible]
    exact ⟨by simpa using h.range, halloc, hs.admissible⟩

theorem EncodedItems.admissible {vs : List RespValue} {s : Bytes} :
    EncodedItems alloc vs s → AdmissibleItems alloc vs
  | .nil => by
    rw [AdmissibleItems]
    trivial
  | .cons h hs => by
    rw [AdmissibleItems]
    exact ⟨h.admissible, hs.admissible⟩

end

mutual

theorem Admissible.written : (v : RespValue) → Admissible alloc v →
    ∃ s, v.writeValue = .ok s ∧ Encoded alloc v s
  | .integer n, h => by
    rw [Admissible] at h
    exact ⟨_, by rw [RespValue.writeValue]; rfl, .integer (integerText_signedText h)⟩
  | .simpleString (some str), h => by
    rw [Admissible] at h
    exact ⟨_, by rw [RespValue.writeValue]; rfl, .simpleString h⟩
  | .error (some str), h => by
    rw [Admissible] at h
    exact ⟨_, by rw [RespValue.writeValue]; rfl, .error h⟩
  | .bulkString (some str), h => by
    rw [Admissible] at h
    have ht := Encoded.bulkString (integerText_text (by omega)) h.1 h.2
    exact ⟨_, by rw [RespValue.writeValue]; rfl, ht⟩
  | .array vs, h => by
    rw [Admissible] at h
    obtain ⟨body, hb, he⟩ := AdmissibleItems.written vs h.2.2
    have ht := Encoded.array (integerText_text h.1) h.2.1 he
    exact ⟨_, by rw [RespValue.writeValue, hb]; rfl, ht⟩
  | .simpleString none, h => by simp [Admissible] at h
  | .error none, h => by simp [Admissible] at h
  | .bulkString none, h => by simp [Admissible] at h
  | .nullBulkString, h => by simp [Admissible] at h

theorem AdmissibleItems.written : (vs : List RespValue) → AdmissibleItems alloc vs →
    ∃ s, RespValue.writeItems vs = .ok s ∧ EncodedItems alloc vs s
  | [], _ => ⟨[], rfl, .nil⟩
  | v :: vs, h => by
    rw [AdmissibleItems] at h
    obtain ⟨s, hs, he⟩ := Admissible.written v h.1
    obtain ⟨t, ht, het⟩ := AdmissibleItems.written vs h.2
    exact ⟨s ++ t, by rw [RespValue.writeItems, hs, ht]; rfl, .cons he het⟩

end

theorem admissibleItems_iff (vs : List RespValue) :
    AdmissibleItems alloc vs ↔ ∀ v ∈ vs, Admissible alloc v := by
  induction vs with
  | nil => simp [AdmissibleItems]
  | cons v vs ih => rw [AdmissibleItems, ih, List.forall_mem_cons]

theorem readable_iff {v : RespValue} : Readable alloc v ↔ Admissible alloc v := by
  constructor
  · intro h
    obtain ⟨s, hs⟩ := h.encoded
    exact hs.admissible
  · intro h
    obtain ⟨s, -, hs⟩ := Admissible.written v h
    obtain ⟨c', hc', -⟩ := readValue_encoded hs [] ⟨s, []⟩ rfl
    exact ⟨_, c', hc'⟩

end Serializer

theorem readItems_written {vs : List RespValue} {s : Bytes} :
    EncodedItems alloc vs s → ∀ rest, CReads (readItems (readValue alloc) vs.length) (s ++ rest) vs rest
  | .nil, rest => reads_pure [] rest
  | .cons h hs, rest => by
    rw [List.append_assoc, List.length_cons, readItems]
    exact (readValue_encoded h _).bind ((readItems_written hs rest).bind (reads_pure _ rest))

theorem readValue_writeValue (alloc : Allocator) (vs : List RespValue)
    (h : ∀ v ∈ vs, Readable alloc v) :
    (∀ v ∈ vs, ∃ s, v.writeValue = .ok s ∧ ∀ rest c, stream c = s ++ rest →
        ∃ c', readValue alloc c = .ok (v, c') ∧ stream c' = rest) ∧
      ∃ s, RespValue.writeItems vs = .ok s ∧ ∀ rest c, stream c = s ++ rest →
        ∃ c', readItems (readValue alloc) vs.length c = .ok (vs, c') ∧ stream c' = rest := by
  constructor
  · intro v hv
    obtain ⟨s, hs, he⟩ := Admissible.written v (readable_iff.mp (h v hv))
    exact ⟨s, hs, fun rest => readValue_encoded he rest⟩
  · have hall : AdmissibleItems alloc vs :=
      (admissibleItems_iff vs).mpr fun v hv => readable_iff.mp (h v hv)
    obtain ⟨s, hs, he⟩ := AdmissibleItems.written vs hall
    exact ⟨s, hs, fun rest => readItems_written he rest⟩

def generous : Allocator := ⟨fun _ => true, fun _ => true⟩

theorem readValue_writeValue_pipeline :
    ∃ s, RespValue.writeItems [.array [.integer (-7), .bulkString (some [])],
        .simpleString (some (bytes "OK"))] = .ok s ∧ ∀ rest c, stream c = s ++ rest →
      ∃ c', readItems (readValue generous) 2 c = .ok ([.array [.integer (-7), .bulkString (some [])],
        .simpleString (some (bytes "OK"))], c') ∧ stream c' = rest := by
  refine (readValue_writeValue generous _ fun v hv => readable_iff.mpr ?_).2
  rcases List.mem_cons.mp hv with rfl | hv
  · simp [Admissible, AdmissibleItems, generous]
  · obtain rfl := List.mem_singleton.mp hv
    rw [Admissible]
    decide

end BtreeRedis
