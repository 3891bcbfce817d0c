import BtreeRedis.Resp.Deserializer

/-!
# What the deserializer accepts

`Encoded` is the language of complete values, with the freedom that the integer reader
leaves, and `Waiting` that of the texts on which the reader waits for more bytes
without having found anything wrong. Every stream starts with a complete value, or
is waiting, or makes the reader fail in another way than by the end of the
stream; the three cases are proved for each function of the deserializer.
-/

namespace BtreeRedis

open Decimal Reader Connection

/-- Digits and signs; one minus anywhere makes the number negative. -/
structure IntegerText (text : Bytes) (n : ℤ) : Prop where
  chars : ∀ b ∈ text, isDigit b = true ∨ b = plus ∨ b = minus
  fits : value (text.filter isDigit) ≤ int64Max
  eq : n = if minus ∈ text then -(value (text.filter isDigit) : ℤ) else value (text.filter isDigit)

mutual

inductive Encoded (alloc : Allocator) : RespValue → Bytes → Prop
  | integer {text : Bytes} {n : ℤ} (h : IntegerText text n) :
      Encoded alloc (.integer n) (RespType.integer :: (text ++ crlf))
  | simpleString {str : Bytes} (h : cr ∉ str) :
      Encoded alloc (.simpleString (some str)) (RespType.string :: (str ++ crlf))
  | error {str : Bytes} (h : cr ∉ str) :
      Encoded alloc (.error (some str)) (RespType.err :: (str ++ crlf))
  | bulkString {text str : Bytes} (h : IntegerText text str.length)
      (hmax : str.length + 2 ≤ int64Max) (halloc : alloc.string str.length = true) :
      Encoded alloc (.bulkString (some str)) (RespType.bulkString :: (text ++ crlf ++ str ++ crlf))
  | array {text body : Bytes} {vs : List RespValue} (h : IntegerText text vs.length)
      (halloc : alloc.vector vs.length = true) (hs : EncodedItems alloc vs body) :
      Encoded alloc (.array vs) (RespType.array :: (text ++ crlf ++ body))

inductive EncodedItems (alloc : Allocator) : List RespValue → Bytes → Prop
  | nil : EncodedItems alloc [] []
  | cons {v : RespValue} {vs : List RespValue} {text body : Bytes} (h : Encoded alloc v text)
      (hs : EncodedItems alloc vs body) : EncodedItems alloc (v :: vs) (text ++ body)

end

def OpenLine (Text : Bytes → Prop) (s : Bytes) : Prop :=
  cr ∉ s ∨ ∃ text, s = text ++ [cr] ∧ Text text

def IntegerLine (text : Bytes) : Prop := ∃ n, IntegerText text n

def StringLine (text : Bytes) : Prop := cr ∉ text

inductive Waiting (alloc : Allocator) : Bytes → Prop
  | type : Waiting alloc []
  | integer {s : Bytes} (h : OpenLine IntegerLine s) : Waiting alloc (RespType.integer :: s)
  | simpleString {s : Bytes} (h : OpenLine StringLine s) : Waiting alloc (RespType.string :: s)
  | error {s : Bytes} (h : OpenLine StringLine s) : Waiting alloc (RespType.err :: s)
  | bulkLength {s : Bytes} (h : OpenLine IntegerLine s) : Waiting alloc (RespType.bulkString :: s)
  | bulkData {text data : Bytes} {n : ℤ} (h : IntegerText text n) (hmax : n + 2 ≤ int64Max)
      (hlt : data.length < toSize (n + 2)) :
      Waiting alloc (RespType.bulkString :: (text ++ crlf ++ data))
  | arrayLength {s : Bytes} (h : OpenLine IntegerLine s) : Waiting alloc (RespType.array :: s)
  | items {text body tail : Bytes} {n : ℤ} {vs : List RespValue} (h : IntegerText text n)
      (hpos : 0 ≤ n) (halloc : alloc.vector n.toNat = true) (hs : EncodedItems alloc vs body)
      (hlt : vs.length < n.toNat) (ht : Waiting alloc tail) :
      Waiting alloc (RespType.array :: (text ++ crlf ++ (body ++ tail)))

namespace ReadFault

def Escapes (e : ReadFault) : Prop := e = runtimeError ∨ e = allocation ∨ e = overflow

theorem Escapes.ne_closed {e : ReadFault} (h : e.Escapes) : e ≠ connectionClosed := by
  rcases h with rfl | rfl | rfl <;> decide

end ReadFault

inductive Outcome {α : Type} (f : ConnM α) (Complete : α → Bytes → Prop) (Wait : Bytes → Prop)
    (s : Bytes) : Prop
  | complete {a : α} {text rest : Bytes} (hs : s = text ++ rest) (h : Complete a text)
      (hf : CReads f s a rest)
  | waiting (h : Wait s) (hf : CFails f s .connectionClosed)
  | malformed {e : ReadFault} (he : e.Escapes) (hf : CFails f s e)

section Integers
variable {text buf : Bytes} {v : ℕ} {negative : Bool}

theorem IntegerText.no_cr {n : ℤ} (h : IntegerText text n) : cr ∉ text := by
  intro hm
  rcases h.chars _ hm with hd | hd | hd
  · exact absurd hd (by decide)
  · exact absurd hd (by decide)
  · exact absurd hd (by decide)

theorem value_filter_cons {b : Byte} (hb : isDigit b = true) (text : Bytes) :
    (b :: text).filter isDigit = b :: text.filter isDigit := by simp [hb]

theorem value_filter_other {b : Byte} (hb : ¬ isDigit b = true) (text : Bytes) :
    (b :: text).filter isDigit = text.filter isDigit := by simp [hb]

theorem integerLoop_text (hc : ∀ b ∈ text, isDigit b = true ∨ b = plus ∨ b = minus)
    (hf : (text.filter isDigit).foldl (fun acc b => acc * 10 + digit b) v ≤ int64Max) :
    integerLoop (text ++ cr :: buf) v negative =
      .ok (((text.filter isDigit).foldl (fun acc b => acc * 10 + digit b) v,
        negative || decide (minus ∈ text)), buf) := by
  induction text generalizing v negative with
  | nil =>
    rw [List.nil_append, integerLoop, if_neg (by decide), if_pos rfl]
    simp
  | cons b text ih =>
    have hc' : ∀ b ∈ text, isDigit b = true ∨ b = plus ∨ b = minus := fun b hb =>
      hc b (List.mem_cons_of_mem _ hb)
    rw [List.cons_append, integerLoop]
    by_cases hd : isDigit b = true
    · rw [value_filter_cons hd, List.foldl_cons] at hf ⊢
      have hle : v * 10 + digit b ≤ int64Max := by
        rw [foldl_eq] at hf
        exact (Nat.le_mul_of_pos_right _ (Nat.pow_pos (by decide))).trans
          ((Nat.le_add_right _ _).trans hf)
      have hm : minus ≠ b := by
        rintro rfl
        exact absurd hd (by decide)
      rw [if_pos hd, if_pos hle, ih hc' hf]
      simp only [List.mem_cons, hm, false_or]
    · rw [value_filter_other hd] at hf ⊢
      rcases hc b List.mem_cons_self with h | rfl | rfl
      · exact absurd h hd
      · have hm : minus ≠ plus := by decide
        rw [if_neg hd, if_neg (by decide), if_pos rfl, ih hc' hf]
        simp only [List.mem_cons, hm, false_or]
      · rw [if_neg hd, if_neg (by decide), if_neg (by decide), if_pos rfl, ih hc' hf]
        simp

theorem integerLoop_cases (hcr : cr ∉ text) (hv : v ≤ int64Max) (negative : Bool) :
    ((∀ b ∈ text, isDigit b = true ∨ b = plus ∨ b = minus) ∧
        (text.filter isDigit).foldl (fun acc b => acc * 10 + digit b) v ≤ int64Max) ∨
      ∃ e : ReadFault, e.Escapes ∧
        ∀ buf, integerLoop (text ++ cr :: buf) v negative = .error e := by
  induction text generalizing v negative with
  | nil => exact Or.inl ⟨fun b hb => (nomatch hb), hv⟩
  | cons b text ih =>
    rw [List.mem_cons, not_or] at hcr
    -- A byte that the loop accepts leaves the rest of the text to it.
    have hstep : ∀ (v' : ℕ) (negative' : Bool), v' ≤ int64Max →
        (isDigit b = true ∨ b = plus ∨ b = minus) →
        (∀ buf, integerLoop (b :: text ++ cr :: buf) v negative =
          integerLoop (text ++ cr :: buf) v' negative') →
        ((∀ b' ∈ b :: text, isDigit b' = true ∨ b' = plus ∨ b' = minus) ∧
            (text.filter isDigit).foldl (fun acc b => acc * 10 + digit b) v' ≤ int64Max) ∨
          ∃ e : ReadFault, e.Escapes ∧
            ∀ buf, integerLoop (b :: text ++ cr :: buf) v negative = .error e := by
      intro v' negative' hv' hb hl
      rcases ih hcr.2 hv' negative' with ⟨hc, hf⟩ | ⟨e, he, hbuf⟩
      · exact Or.inl ⟨List.forall_mem_cons.mpr ⟨hb, hc⟩, hf⟩
      · exact Or.inr ⟨e, he, fun buf => (hl buf).trans (hbuf buf)⟩
    by_cases hd : isDigit b = true
    · rw [value_filter_cons hd, List.foldl_cons]
      by_cases hle : v * 10 + digit b ≤ int64Max
      · refine hstep _ negative hle (Or.inl hd) fun buf => ?_
        rw [List.cons_append, integerLoop, if_pos hd, if_pos hle]
      · refine Or.inr ⟨.overflow, Or.inr (Or.inr rfl), fun buf => ?_⟩
        rw [List.cons_append, integerLoop, if_pos hd, if_neg hle]
    · rw [value_filter_other hd]
      have hne : ¬ b = cr := Ne.symm hcr.1
      by_cases hp : b = plus
      · refine hstep _ negative hv (Or.inr (Or.inl hp)) fun buf => ?_
        rw [List.cons_append, integerLoop, if_neg hd, if_neg hne, if_pos hp]
      · by_cases hm : b = minus
        · refine hstep _ true hv (Or.inr (Or.inr hm)) fun buf => ?_
          rw [List.cons_append, integerLoop, if_neg hd, if_neg hne, if_neg hp, if_pos hm]
        · refine Or.inr ⟨.runtimeError, Or.inl rfl, fun buf => ?_⟩
          rw [List.cons_append, integerLoop, if_neg hd, if_neg hne, if_neg hp, if_neg hm]

end Integers

section Lines
variable {s text rest : Bytes} {n : ℤ}

theorem exists_line (h : cr ∈ s) : ∃ text rest, s = text ++ cr :: rest ∧ cr ∉ text :=
  List.eq_append_cons_of_mem h

theorem line_unique {text' rest' : Bytes} (h : cr ∉ text) (h' : cr ∉ text')
    (he : text ++ cr :: rest = text' ++ cr :: rest') : text = text' ∧ rest = rest' := by
  have ht : ∀ {t u : Bytes}, cr ∉ t → (t ++ cr :: u).takeWhile (· ≠ cr) = t := by
    intro t u ht
    rw [List.takeWhile_append_of_pos fun b hb => decide_eq_true (ne_of_mem_of_not_mem hb ht)]
    simp
  obtain rfl : text = text' := by rw [← ht h, he, ht h']
  exact ⟨rfl, (List.cons.inj (List.append_cancel_left he)).2⟩

theorem buffered_line {c : Connection} (hc : c.stream = text ++ cr :: rest) (hn : cr ∉ text)
    (hb : cr ∈ c.readBuf) :
    ∃ buf, c.readBuf = text ++ cr :: buf ∧ buf ++ c.incoming.flatten = rest := by
  obtain ⟨t, buf, he, ht⟩ := exists_line hb
  rw [stream, he, List.append_assoc, List.cons_append] at hc
  obtain ⟨rfl, hr⟩ := line_unique ht hn hc
  exact ⟨buf, he, hr⟩

theorem readDigits_open (h : cr ∉ s) : CFails readDigits s .connectionClosed :=
  CFails.require (mem_mono cr) (decide_eq_false h)

theorem readLine_open (h : cr ∉ s) : CFails readLine s .connectionClosed :=
  CFails.require (mem_mono cr) (decide_eq_false h)

theorem readDigits_text (hc : ∀ b ∈ text, isDigit b = true ∨ b = plus ∨ b = minus)
    (hf : value (text.filter isDigit) ≤ int64Max) (hn : cr ∉ text) (rest : Bytes) :
    CReads readDigits (text ++ cr :: rest)
      (value (text.filter isDigit), decide (minus ∈ text)) rest := by
  refine CReads.require (by simp) fun c hs he => ?_
  obtain ⟨buf, hbuf, hr⟩ := buffered_line hs hn (of_decide_eq_true he)
  refine ⟨{ c with readBuf := buf }, ?_, hr⟩
  simp only [scanDigits, hbuf, integerLoop_text hc hf, Bool.false_or, Except.map, value]

theorem readDigits_cases (hn : cr ∉ text) (rest : Bytes) :
    ((∀ b ∈ text, isDigit b = true ∨ b = plus ∨ b = minus) ∧
        value (text.filter isDigit) ≤ int64Max) ∨
      ∃ e : ReadFault, e.Escapes ∧ CFails readDigits (text ++ cr :: rest) e := by
  refine (integerLoop_cases hn (Nat.zero_le _) false).imp_right ?_
  rintro ⟨e, he, hbuf⟩
  refine ⟨e, he, CFails.require_of (by simp) fun c hs hm => ?_⟩
  obtain ⟨buf, hb, -⟩ := buffered_line hs hn (of_decide_eq_true hm)
  simp only [scanDigits, hb, hbuf, Except.map]

theorem readLine_text (hn : cr ∉ text) (rest : Bytes) :
    CReads readLine (text ++ cr :: rest) text rest := by
  refine CReads.require (by simp) fun c hs he => ?_
  obtain ⟨buf, hbuf, hr⟩ := buffered_line hs hn (of_decide_eq_true he)
  have hne : ∀ b ∈ text, decide (b ≠ cr) = true := fun b hb =>
    decide_eq_true (ne_of_mem_of_not_mem hb hn)
  refine ⟨{ c with readBuf := buf }, ?_, hr⟩
  rw [getline, if_pos (of_decide_eq_true he), hbuf, List.takeWhile_append_of_pos hne,
    List.dropWhile_append_of_pos hne]
  simp

theorem readInteger_text (h : IntegerText text n) (rest : Bytes) :
    CReads readInteger (text ++ crlf ++ rest) n rest := by
  unfold readInteger
  rw [List.append_assoc]
  refine (readDigits_text h.chars h.fits h.no_cr (lf :: rest)).bind ((expect_cons lf rest).bind ?_)
  rw [h.eq]
  simp only [decide_eq_true_eq]
  exact reads_pure _ rest

theorem readSimpleString_text (h : cr ∉ text) (rest : Bytes) :
    CReads readSimpleString (text ++ crlf ++ rest) text rest := by
  unfold readSimpleString
  rw [List.append_assoc]
  exact (readLine_text h (lf :: rest)).bind ((expect_cons lf rest).bind (reads_pure _ rest))

theorem readInteger_open (h : OpenLine IntegerLine s) : CFails readInteger s .connectionClosed := by
  unfold readInteger
  rcases h with h | ⟨text, rfl, n, h⟩
  · exact (readDigits_open h).bind
  · exact (readDigits_text h.chars h.fits h.no_cr []).bind_fails expect_nil.bind

theorem readSimpleString_open (h : OpenLine StringLine s) :
    CFails readSimpleString s .connectionClosed := by
  unfold readSimpleString
  rcases h with h | ⟨text, rfl, h⟩
  · exact (readLine_open h).bind
  · exact (readLine_text h []).bind_fails expect_nil.bind

theorem readInteger_outcome (s : Bytes) :
    Outcome readInteger (fun n t => ∃ text, t = text ++ crlf ∧ IntegerText text n)
      (OpenLine IntegerLine) s := by
  by_cases hcr : cr ∈ s
  · obtain ⟨text, rest, rfl, hn⟩ := exists_line hcr
    rcases readDigits_cases hn rest with ⟨hc, hf⟩ | ⟨e, he, hfail⟩
    · have ht : IntegerText text _ := ⟨hc, hf, rfl⟩
      cases rest with
      | nil =>
        have ho : OpenLine IntegerLine (text ++ [cr]) := Or.inr ⟨text, rfl, _, ht⟩
        exact .waiting ho (readInteger_open ho)
      | cons b rest =>
        by_cases hb : b = lf
        · subst hb
          have hs : text ++ cr :: lf :: rest = text ++ crlf ++ rest := by simp [crlf]
          rw [hs]
          exact .complete rfl ⟨text, rfl, ht⟩ (readInteger_text ht rest)
        · refine .malformed (Or.inl rfl) ?_
          unfold readInteger
          exact (readDigits_text hc hf hn _).bind_fails (expect_ne hb).bind
    · refine .malformed he ?_
      unfold readInteger
      exact hfail.bind
  · exact .waiting (Or.inl hcr) (readInteger_open (Or.inl hcr))

theorem readSimpleString_outcome (s : Bytes) :
    Outcome readSimpleString (fun str t => t = str ++ crlf ∧ cr ∉ str) (OpenLine StringLine) s := by
  by_cases hcr : cr ∈ s
  · obtain ⟨text, rest, rfl, hn⟩ := exists_line hcr
    cases rest with
    | nil =>
      have ho : OpenLine StringLine (text ++ [cr]) := Or.inr ⟨text, rfl, hn⟩
      exact .waiting ho (readSimpleString_open ho)
    | cons b rest =>
      by_cases hb : b = lf
      · subst hb
        have hs : text ++ cr :: lf :: rest = text ++ crlf ++ rest := by simp [crlf]
        rw [hs]
        exact .complete rfl ⟨rfl, hn⟩ (readSimpleString_text hn rest)
      · refine .malformed (Or.inl rfl) ?_
        unfold readSimpleString
        exact (readLine_text hn _).bind_fails (expect_ne hb).bind
  · exact .waiting (Or.inl hcr) (readSimpleString_open (Or.inl hcr))

end Lines

section BulkStrings
variable {alloc : Allocator} {s data rest : Bytes} {n : ℤ}

theorem toSize_of_nonneg {n : ℤ} (h : 0 ≤ n) (hmax : n ≤ int64Max) : (toSize n : ℤ) = n := by
  simp only [toSize, int64Max] at hmax ⊢
  omega

theorem buffered_data {c : Connection} (hc : c.stream = data ++ rest)
    (hl : data.length ≤ c.readBuf.length) :
    ∃ buf, c.readBuf = data ++ buf ∧ buf ++ c.incoming.flatten = rest := by
  rw [stream] at hc
  rcases List.append_eq_append_iff.mp hc with ⟨t, hd, hi⟩ | ⟨t, hb, hr⟩
  · have ht : t = [] := by
      rw [hd, List.length_append] at hl
      exact List.eq_nil_of_length_eq_zero (by omega)
    subst ht
    exact ⟨[], by simpa using hd.symm, by simpa using hi⟩
  · exact ⟨t, hb, hr.symm⟩

theorem copy_data {c : Connection} {buf : Bytes} (hb : c.readBuf = data ++ buf) :
    (do
      let str ← copyN data.length
      if (data.length : ℤ) ≠ 0 then
        let _ ← Connection.get
        pure str
      else pure str : ConnM Bytes) c = .ok (data, { c with readBuf := buf }) := by
  rw [bind_apply, copyN, if_neg (by rw [hb, List.length_append]; omega), hb, List.take_left]
  rcases List.eq_nil_or_concat' data with rfl | ⟨front, last, rfl⟩
  · rw [List.nil_append] at hb
    subst hb
    rfl
  · have hl : (front ++ [last]).length - 1 = front.length := by simp
    have hne : ((front ++ [last]).length : ℤ) ≠ 0 := by
      rw [List.length_append, List.length_singleton]
      omega
    rw [hl, List.append_assoc, List.drop_left, ok_bind, if_pos hne]
    rfl

theorem readBulk_data (hmax : data.length + 2 ≤ int64Max) (halloc : alloc.string data.length = true)
    (hr : 2 ≤ rest.length) : CReads (readBulk alloc data.length) (data ++ rest) data rest := by
  have hmax' : (data.length : ℤ) + 2 ≤ int64Max := by exact_mod_cast hmax
  have hsize : toSize ((data.length : ℤ) + 2) = data.length + 2 := by
    have := toSize_of_nonneg (n := (data.length : ℤ) + 2) (by omega) hmax'
    exact_mod_cast this
  unfold readBulk
  rw [hsize]
  refine (reads_check hmax' _ _).bind (CReads.require ?_ fun c hs he => ?_)
  · rw [decide_eq_true_eq, List.length_append]
    omega
  · rw [decide_eq_true_eq] at he
    obtain ⟨buf, hbuf, hflat⟩ := buffered_data hs (by omega)
    refine ⟨{ c with readBuf := buf }, ?_, hflat⟩
    rw [check, if_pos ⟨by omega, by simpa using halloc⟩, pure_bind, Int.toNat_natCast]
    exact copy_data hbuf

theorem readBulk_closed (hmax : n + 2 ≤ int64Max) (hlt : s.length < toSize (n + 2)) :
    CFails (readBulk alloc n) s .connectionClosed :=
  (reads_check hmax _ _).bind_fails
    (CFails.require (length_mono _) (decide_eq_false (not_le.mpr hlt)))

theorem readBulkString_data {text : Bytes} (h : IntegerText text data.length)
    (hmax : data.length + 2 ≤ int64Max) (halloc : alloc.string data.length = true) (rest : Bytes) :
    CReads (readBulkString alloc) (text ++ crlf ++ data ++ crlf ++ rest) data rest := by
  unfold readBulkString
  have hs : text ++ crlf ++ data ++ crlf ++ rest = text ++ crlf ++ (data ++ (cr :: lf :: rest)) := by
    simp [crlf]
  rw [hs]
  refine (readInteger_text h _).bind ((readBulk_data hmax halloc (by simp)).bind ?_)
  exact (expect_cons cr _).bind ((expect_cons lf _).bind (reads_pure _ _))

theorem readBulkString_waiting {text : Bytes} (h : IntegerText text n) (hmax : n + 2 ≤ int64Max)
    (hlt : s.length < toSize (n + 2)) :
    CFails (readBulkString alloc) (text ++ crlf ++ s) .connectionClosed := by
  unfold readBulkString
  exact (readInteger_text h s).bind_fails (readBulk_closed hmax hlt).bind

theorem readBulkString_open (h : OpenLine IntegerLine s) :
    CFails (readBulkString alloc) s .connectionClosed := by
  unfold readBulkString
  exact (readInteger_open h).bind

inductive BulkWaiting (s : Bytes) : Prop
  | length (h : OpenLine IntegerLine s)
  | data {text data : Bytes} {n : ℤ} (hs : s = text ++ crlf ++ data) (h : IntegerText text n)
      (hmax : n + 2 ≤ int64Max) (hlt : data.length < toSize (n + 2))

theorem readBulk_rejected (hmax : n + 2 ≤ int64Max) (hle : toSize (n + 2) ≤ s.length)
    (h : ¬ (0 ≤ n ∧ alloc.string n.toNat = true)) : CFails (readBulk alloc n) s .allocation := by
  refine (reads_check hmax _ _).bind_fails (CFails.require_of (decide_eq_true hle) fun c _ _ => ?_)
  rw [check, if_neg h]
  rfl

theorem readBulkString_delivered {text : Bytes} {m : ℕ} (h : IntegerText text m)
    (hmax : (m : ℤ) + 2 ≤ int64Max) (halloc : alloc.string (m : ℤ).toNat = true)
    (hle : toSize ((m : ℤ) + 2) ≤ s.length) :
    Outcome (readBulkString alloc) (fun str t => ∃ text, t = text ++ crlf ++ str ++ crlf ∧
        IntegerText text str.length ∧ str.length + 2 ≤ int64Max ∧
        alloc.string str.length = true) BulkWaiting (text ++ crlf ++ s) := by
  have hsize : toSize ((m : ℤ) + 2) = m + 2 := by
    have := toSize_of_nonneg (n := (m : ℤ) + 2) (by omega) hmax
    exact_mod_cast this
  rw [hsize] at hle
  rw [Int.toNat_natCast] at halloc
  obtain ⟨str, tail, rfl, hstr⟩ : ∃ str tail, s = str ++ tail ∧ str.length = m :=
    ⟨s.take m, s.drop m, (List.take_append_drop m s).symm, by rw [List.length_take]; omega⟩
  rw [List.length_append] at hle
  subst hstr
  have hmax' : str.length + 2 ≤ int64Max := by exact_mod_cast hmax
  obtain ⟨b₁, b₂, tail, rfl⟩ : ∃ b₁ b₂ t, tail = b₁ :: b₂ :: t := by
    rcases tail with _ | ⟨b₁, _ | ⟨b₂, t⟩⟩
    · simp only [List.length_nil] at hle
      omega
    · simp only [List.length_singleton] at hle
      omega
    · exact ⟨b₁, b₂, t, rfl⟩
  by_cases h₁ : b₁ = cr
  · subst h₁
    by_cases h₂ : b₂ = lf
    · subst h₂
      have hs : text ++ crlf ++ (str ++ cr :: lf :: tail) =
          text ++ crlf ++ str ++ crlf ++ tail := by simp [crlf]
      rw [hs]
      exact .complete rfl ⟨text, rfl, h, hmax', halloc⟩ (readBulkString_data h hmax' halloc tail)
    · refine .malformed (Or.inl rfl) ?_
      unfold readBulkString
      exact (readInteger_text h _).bind_fails ((readBulk_data hmax' halloc (by simp)).bind_fails
        ((expect_cons cr _).bind_fails (expect_ne h₂).bind))
  · refine .malformed (Or.inl rfl) ?_
    unfold readBulkString
    exact (readInteger_text h _).bind_fails ((readBulk_data hmax' halloc (by simp)).bind_fails
      (expect_ne h₁).bind)

theorem readBulkString_outcome (alloc : Allocator) (s : Bytes) :
    Outcome (readBulkString alloc) (fun str t => ∃ text, t = text ++ crlf ++ str ++ crlf ∧
        IntegerText text str.length ∧ str.length + 2 ≤ int64Max ∧
        alloc.string str.length = true) BulkWaiting s := by
  rcases readInteger_outcome s with @⟨n, _, rest, rfl, ⟨text, rfl, h⟩, -⟩ | ⟨h, -⟩ | ⟨he, hf⟩
  · by_cases hmax : n + 2 ≤ int64Max
    · by_cases hlt : rest.length < toSize (n + 2)
      · exact .waiting (.data rfl h hmax hlt) (readBulkString_waiting h hmax hlt)
      · by_cases hok : 0 ≤ n ∧ alloc.string n.toNat = true
        · obtain ⟨m, rfl⟩ := Int.eq_ofNat_of_zero_le hok.1
          exact readBulkString_delivered h hmax hok.2 (not_lt.mp hlt)
        · refine .malformed (Or.inr (Or.inl rfl)) ?_
          unfold readBulkString
          exact (readInteger_text h rest).bind_fails (readBulk_rejected hmax (not_lt.mp hlt) hok).bind
    · refine .malformed (Or.inr (Or.inr rfl)) ?_
      unfold readBulkString readBulk
      exact (readInteger_text h rest).bind_fails (fails_check hmax _ _).bind.bind
  · exact .waiting (.length h) (readBulkString_open h)
  · refine .malformed he ?_
    unfold readBulkString
    exact hf.bind

end BulkStrings

end BtreeRedis
