import BtreeRedis.Resp.RoundTrip

/-!
# The RESP grammar

What a client accepts as one value. The grammar is unambiguous and prefix-free, so
that bytes written for a value of it are framed: no other split of them into values
exists.
-/

namespace BtreeRedis

open Decimal

def AllDigits (text : Bytes) : Prop := text ≠ [] ∧ ∀ b ∈ text, isDigit b = true

inductive IntegerLiteral : Bytes → ℤ → Prop
  | plain {ds : Bytes} (h : AllDigits ds) : IntegerLiteral ds (value ds)
  | positive {ds : Bytes} (h : AllDigits ds) : IntegerLiteral (plus :: ds) (value ds)
  | negative {ds : Bytes} (h : AllDigits ds) : IntegerLiteral (minus :: ds) (-(value ds))

def LineText (text : Bytes) : Prop := cr ∉ text ∧ lf ∉ text

instance (text : Bytes) : Decidable (LineText text) := inferInstanceAs (Decidable (_ ∧ _))

mutual

inductive Parses : RespValue → Bytes → Prop
  | integer {text : Bytes} {n : ℤ} (h : IntegerLiteral text n) :
      Parses (.integer n) (RespType.integer :: (text ++ crlf))
  | simpleString {str : Bytes} (h : LineText str) :
      Parses (.simpleString (some str)) (RespType.string :: (str ++ crlf))
  | error {str : Bytes} (h : LineText str) :
      Parses (.error (some str)) (RespType.err :: (str ++ crlf))
  | bulkString {text str : Bytes} (h : AllDigits text) (hl : value text = str.length) :
      Parses (.bulkString (some str)) (RespType.bulkString :: (text ++ crlf ++ str ++ crlf))
  | nullBulkString : Parses .nullBulkString (RespType.bulkString :: ([minus, 49] ++ crlf))
  | array {text body : Bytes} {vs : List RespValue} (h : AllDigits text)
      (hl : value text = vs.length) (hs : ParsesItems vs body) :
      Parses (.array vs) (RespType.array :: (text ++ crlf ++ body))

inductive ParsesItems : List RespValue → Bytes → Prop
  | nil : ParsesItems [] []
  | cons {v : RespValue} {vs : List RespValue} {text body : Bytes} (h : Parses v text)
      (hs : ParsesItems vs body) : ParsesItems (v :: vs) (text ++ body)

end

/-- The bytes are exactly one value, and no other one. -/
def Framed (v : RespValue) (w : Bytes) : Prop :=
  Parses v w ∧ ∀ v' text rest, w = text ++ rest → Parses v' text → v' = v ∧ rest = []

section Lines
variable {text text' rest rest' : Bytes}

theorem AllDigits.no_cr (h : AllDigits text) : cr ∉ text := fun hm =>
  absurd (h.2 _ hm) (by decide)

theorem IntegerLiteral.no_cr {n : ℤ} (h : IntegerLiteral text n) : cr ∉ text := by
  cases h with
  | plain h => exact h.no_cr
  | positive h => exact fun hm => (List.mem_cons.mp hm).elim (by decide) h.no_cr
  | negative h => exact fun hm => (List.mem_cons.mp hm).elim (by decide) h.no_cr

theorem AllDigits.cons_ne {b : Byte} (hb : isDigit b = false) (h : AllDigits text) :
    text ≠ b :: text' := by
  rintro rfl
  rw [h.2 b List.mem_cons_self] at hb
  exact (nomatch hb)

theorem IntegerLiteral.unique {n n' : ℤ} (h : IntegerLiteral text n) (h' : IntegerLiteral text n') :
    n = n' := by
  have hp : isDigit plus = false := by decide
  have hm : isDigit minus = false := by decide
  cases h with
  | plain h =>
    generalize ht : text = t at h'
    cases h' with
    | plain => rfl
    | positive => exact absurd ht (h.cons_ne hp)
    | negative => exact absurd ht (h.cons_ne hm)
  | positive h =>
    cases h' with
    | plain h' => exact absurd rfl (h'.cons_ne hp)
    | positive => rfl
  | negative h =>
    cases h' with
    | plain h' => exact absurd rfl (h'.cons_ne hm)
    | negative => rfl

theorem crlf_unique (h : cr ∉ text) (h' : cr ∉ text')
    (he : text ++ crlf ++ rest = text' ++ crlf ++ rest') : text = text' ∧ rest = rest' := by
  rw [List.append_assoc, List.append_assoc] at he
  have he' : text ++ cr :: (lf :: rest) = text' ++ cr :: (lf :: rest') := he
  obtain ⟨ht, hr⟩ := line_unique h h' he'
  exact ⟨ht, (List.cons.inj hr).2⟩

end Lines

theorem tail_eq {b : Byte} {s s' rest rest' : Bytes} (h : b :: s ++ rest = b :: s' ++ rest') :
    s ++ rest = s' ++ rest' := (List.cons.inj h).2

mutual

theorem Parses.unique {v v' : RespValue} {s s' rest rest' : Bytes} :
    Parses v s → Parses v' s' → s ++ rest = s' ++ rest' → v = v' ∧ rest = rest'
  | @Parses.integer text n h, h', he => by
    cases h' with
    | @integer text' n' h' =>
      obtain ⟨rfl, hr⟩ := crlf_unique h.no_cr h'.no_cr (List.cons.inj he).2
      exact ⟨by rw [h.unique h'], hr⟩
    | _ => exact absurd (List.cons.inj he).1 (by decide)
  | @Parses.simpleString str h, h', he => by
    cases h' with
    | simpleString h' =>
      obtain ⟨rfl, hr⟩ := crlf_unique h.1 h'.1 (List.cons.inj he).2
      exact ⟨rfl, hr⟩
    | _ => exact absurd (List.cons.inj he).1 (by decide)
  | @Parses.error str h, h', he => by
    cases h' with
    | error h' =>
      obtain ⟨rfl, hr⟩ := crlf_unique h.1 h'.1 (List.cons.inj he).2
      exact ⟨rfl, hr⟩
    | _ => exact absurd (List.cons.inj he).1 (by decide)
  | @Parses.bulkString text str h hl, h', he => by
    cases h' with
    | @bulkString text' str' h' hl' =>
      have he' : text ++ crlf ++ (str ++ crlf ++ rest) = text' ++ crlf ++ (str' ++ crlf ++ rest') := by
        simpa only [List.append_assoc] using tail_eq he
      obtain ⟨rfl, hr⟩ := crlf_unique h.no_cr h'.no_cr he'
      rw [List.append_assoc, List.append_assoc] at hr
      obtain ⟨rfl, hr'⟩ := List.append_inj hr (hl.symm.trans hl')
      exact ⟨rfl, List.append_cancel_left hr'⟩
    | nullBulkString =>
      have he' : text ++ crlf ++ (str ++ crlf ++ rest) = [minus, 49] ++ crlf ++ rest' := by
        simpa only [List.append_assoc] using tail_eq he
      obtain ⟨ht, -⟩ := crlf_unique h.no_cr (by decide) he'
      exact absurd ht (h.cons_ne (by decide))
    | _ => exact absurd (List.cons.inj he).1 (by decide)
  | .nullBulkString, h', he => by
    cases h' with
    | @bulkString text' str' h' hl' =>
      have he' : [minus, 49] ++ crlf ++ rest = text' ++ crlf ++ (str' ++ crlf ++ rest') := by
        simpa only [List.append_assoc] using tail_eq he
      obtain ⟨ht, -⟩ := crlf_unique (by decide) h'.no_cr he'
      exact absurd ht.symm (h'.cons_ne (by decide))
    | nullBulkString => exact ⟨rfl, List.append_cancel_left he⟩
    | _ => exact absurd (List.cons.inj he).1 (by decide)
  | @Parses.array text body vs h hl hs, h', he => by
    cases h' with
    | @array text' body' vs' h' hl' hs' =>
      have he' : text ++ crlf ++ (body ++ rest) = text' ++ crlf ++ (body' ++ rest') := by
        simpa only [List.append_assoc] using tail_eq he
      obtain ⟨rfl, hr⟩ := crlf_unique h.no_cr h'.no_cr he'
      obtain ⟨rfl, hr⟩ := ParsesItems.unique hs hs' (hl.symm.trans hl') hr
      exact ⟨rfl, hr⟩
    | _ => exact absurd (List.cons.inj he).1 (by decide)

theorem ParsesItems.unique {vs vs' : List RespValue} {s s' rest rest' : Bytes} :
    ParsesItems vs s → ParsesItems vs' s' → vs.length = vs'.length → s ++ rest = s' ++ rest' →
    vs = vs' ∧ rest = rest'
  | .nil, .nil, _, he => ⟨rfl, he⟩
  | .cons h hs, .cons h' hs', hl, he => by
    rw [List.append_assoc, List.append_assoc] at he
    obtain ⟨rfl, hr⟩ := Parses.unique h h' he
    obtain ⟨rfl, hr⟩ := ParsesItems.unique hs hs' (Nat.succ.inj hl) hr
    exact ⟨rfl, hr⟩

end

theorem Parses.framed {v : RespValue} {w : Bytes} (h : Parses v w) : Framed v w := by
  refine ⟨h, fun v' text rest hw h' => ?_⟩
  have he : w ++ [] = text ++ rest := by rw [List.append_nil, hw]
  obtain ⟨rfl, hr⟩ := h.unique h' he
  exact ⟨rfl, hr.symm⟩

mutual

/-- The texts of lines have no line ends in them. Null pointers do not reach the client. -/
def Clean : RespValue → Prop
  | .simpleString str => ∀ s, str = some s → LineText s
  | .error str => ∀ s, str = some s → LineText s
  | .array vs => CleanItems vs
  | _ => True

def CleanItems : List RespValue → Prop
  | [] => True
  | v :: vs => Clean v ∧ CleanItems vs

end

theorem allDigits_text (n : ℕ) : AllDigits (text n) := ⟨text_ne_nil n, fun _ hb => isDigit_text hb⟩

theorem integerLiteral_signedText (z : ℤ) : IntegerLiteral (signedText z) z := by
  by_cases hz : z < 0
  · have h := IntegerLiteral.negative (allDigits_text z.natAbs)
    rw [value_text] at h
    rw [signedText_minus hz]
    rwa [show -((z.natAbs : ℕ) : ℤ) = z by omega] at h
  · have h := IntegerLiteral.plain (allDigits_text z.natAbs)
    rw [value_text] at h
    rw [signedText_digits hz]
    rwa [show ((z.natAbs : ℕ) : ℤ) = z by omega] at h

mutual

theorem Clean.parses : (v : RespValue) → Clean v → ∀ {w : Bytes}, v.writeValue = .ok w → Parses v w
  | .integer n, _, w, hw => by
    rw [RespValue.writeValue, pure_eq_ok] at hw
    exact hw ▸ .integer (integerLiteral_signedText n)
  | .simpleString str, h, w, hw => by
    simp only [RespValue.writeValue, bind_eq_ok, deref_eq_ok, pure_eq_ok] at hw
    obtain ⟨s, rfl, rfl⟩ := hw
    rw [Clean] at h
    exact .simpleString (h s rfl)
  | .error str, h, w, hw => by
    simp only [RespValue.writeValue, bind_eq_ok, deref_eq_ok, pure_eq_ok] at hw
    obtain ⟨s, rfl, rfl⟩ := hw
    rw [Clean] at h
    exact .error (h s rfl)
  | .bulkString str, _, w, hw => by
    simp only [RespValue.writeValue, bind_eq_ok, deref_eq_ok, pure_eq_ok] at hw
    obtain ⟨s, rfl, rfl⟩ := hw
    exact .bulkString (allDigits_text _) (value_text _)
  | .nullBulkString, _, w, hw => by
    rw [RespValue.writeValue, pure_eq_ok] at hw
    exact hw ▸ .nullBulkString
  | .array vs, h, w, hw => by
    simp only [RespValue.writeValue, bind_eq_ok, pure_eq_ok] at hw
    obtain ⟨body, hb, rfl⟩ := hw
    rw [Clean] at h
    exact .array (allDigits_text _) (value_text _) (CleanItems.parses vs h hb)

theorem CleanItems.parses : (vs : List RespValue) → CleanItems vs →
    ∀ {w : Bytes}, RespValue.writeItems vs = .ok w → ParsesItems vs w
  | [], _, w, hw => by
    rw [RespValue.writeItems, pure_eq_ok] at hw
    exact hw ▸ .nil
  | v :: vs, h, w, hw => by
    simp only [RespValue.writeItems, bind_eq_ok, pure_eq_ok] at hw
    obtain ⟨s, hs, t, ht, rfl⟩ := hw
    rw [CleanItems] at h
    exact .cons (Clean.parses v h.1 hs) (CleanItems.parses vs h.2 ht)

end

theorem cleanItems_of_forall (vs : List RespValue) (h : ∀ v ∈ vs, Clean v) : CleanItems vs := by
  induction vs with
  | nil => simp [CleanItems]
  | cons v vs ih =>
    rw [CleanItems]
    exact ⟨h v List.mem_cons_self, ih fun u hu => h u (List.mem_cons_of_mem _ hu)⟩

end BtreeRedis
