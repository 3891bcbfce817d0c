import BtreeRedis.Resp.Value
import BtreeRedis.Lib.Reader

/-!
# The buffered socket of a connection

A client's bytes arrive in chunks of any sizes and then end. `requireData` and
`requireDataUntil` append chunks to the buffer until it holds what they ask for and
close the connection if the stream ends first; all other reads take bytes out of the
buffer only, and would find it `starved` where nothing had asked for those bytes.
-/

namespace BtreeRedis

open Reader

/-- How reading ends where it does not return a value. All but `connectionClosed` are exceptions
of other types, undefined behaviour, or a defect of the model's own means. -/
inductive ReadFault
  | connectionClosed
  | runtimeError
  /-- `std::length_error` or `std::bad_alloc` of a `reserve`. -/
  | allocation
  /-- Signed overflow. -/
  | overflow
  /-- A read that no `require` call has covered. -/
  | starved
  | outOfFuel
  deriving DecidableEq, Repr

structure Connection where
  readBuf : Bytes
  incoming : List Bytes

abbrev ConnM := StateT Connection (Except ReadFault)

def fill (enough : Bytes → Bool) : Bytes → List Bytes → Option Connection
  | buf, [] => if enough buf then some ⟨buf, []⟩ else none
  | buf, chunk :: rest =>
    if enough buf then some ⟨buf, chunk :: rest⟩ else fill enough (buf ++ chunk) rest

namespace Connection

def stream (c : Connection) : Bytes := c.readBuf ++ c.incoming.flatten

def require (enough : Bytes → Bool) : ConnM Unit := fun c =>
  match fill enough c.readBuf c.incoming with
  | some c' => .ok ((), c')
  | none => .error .connectionClosed

def requireData (count : ℕ) : ConnM Unit := require fun buf => count ≤ buf.length

def requireDataUntil (byte : Byte) : ConnM Unit := require fun buf => byte ∈ buf

/-- `input.get()` -/
def get : ConnM Byte := fun c =>
  match c.readBuf with
  | [] => .error .starved
  | byte :: buf => .ok (byte, { c with readBuf := buf })

/-- `std::getline`, which takes the delimiter out of the buffer and drops it. -/
def getline (delim : Byte) : ConnM Bytes := fun c =>
  if delim ∈ c.readBuf then
    .ok (c.readBuf.takeWhile (· ≠ delim),
      { c with readBuf := (c.readBuf.dropWhile (· ≠ delim)).drop 1 })
  else .error .starved

/-- `std::copy_n` from a stream iterator, which does not move past the last byte it copies. -/
def copyN (count : ℕ) : ConnM Bytes := fun c =>
  if c.readBuf.length < count then .error .starved
  else .ok (c.readBuf.take count, { c with readBuf := c.readBuf.drop (count - 1) })

end Connection

theorem fill_ok {enough : Bytes → Bool} {chunks : List Bytes} {buf : Bytes}
    (h : enough (buf ++ chunks.flatten) = true) :
    ∃ c, fill enough buf chunks = some c ∧ c.stream = buf ++ chunks.flatten ∧
      enough c.readBuf = true := by
  induction chunks generalizing buf with
  | nil =>
    rw [List.flatten_nil, List.append_nil] at h
    exact ⟨⟨buf, []⟩, if_pos h, rfl, h⟩
  | cons chunk rest ih =>
    by_cases hb : enough buf = true
    · exact ⟨⟨buf, chunk :: rest⟩, if_pos hb, rfl, hb⟩
    · rw [List.flatten_cons, ← List.append_assoc] at h
      obtain ⟨c, hc, hs, he⟩ := ih h
      refine ⟨c, ?_, ?_, he⟩
      · rw [fill, if_neg hb]
        exact hc
      · rw [hs, List.flatten_cons, List.append_assoc]

theorem fill_none {enough : Bytes → Bool}
    (hmono : ∀ s t, enough s = true → enough (s ++ t) = true) {chunks : List Bytes} {buf : Bytes}
    (h : enough (buf ++ chunks.flatten) = false) : fill enough buf chunks = none := by
  have hb : enough buf = false := by
    by_contra hb
    rw [hmono _ _ (Bool.not_eq_false _ ▸ hb)] at h
    exact (nomatch h)
  induction chunks generalizing buf with
  | nil => simp [fill, hb]
  | cons chunk rest ih =>
    rw [List.flatten_cons, ← List.append_assoc] at h
    have hb' : enough (buf ++ chunk) = false := by
      by_contra hb'
      rw [hmono _ _ (Bool.not_eq_false _ ▸ hb')] at h
      exact (nomatch h)
    rw [fill, if_neg (by simp [hb])]
    exact ih h hb'

namespace Connection

variable {s : Bytes}

abbrev CReads {α : Type} (f : ConnM α) (s : Bytes) (a : α) (rest : Bytes) : Prop :=
  Reads stream f s a rest

abbrev CFails {α : Type} (f : ConnM α) (s : Bytes) (e : ReadFault) : Prop := Fails stream f s e

theorem CReads.require {α : Type} {enough : Bytes → Bool} {f : Unit → ConnM α} {a : α}
    {rest : Bytes} (h : enough s = true)
    (hf : ∀ c, c.stream = s → enough c.readBuf = true → ∃ c', f () c = .ok (a, c') ∧ c'.stream = rest) :
    CReads (require enough >>= f) s a rest := by
  intro c hc
  subst hc
  obtain ⟨c', hc', hs, he⟩ := fill_ok h
  obtain ⟨c'', hf', hr⟩ := hf c' hs he
  refine ⟨c'', ?_, hr⟩
  rw [bind_apply, Connection.require, hc']
  exact hf'

theorem CFails.require_of {α : Type} {enough : Bytes → Bool} {f : Unit → ConnM α} {e : ReadFault}
    (h : enough s = true)
    (hf : ∀ c, c.stream = s → enough c.readBuf = true → f () c = .error e) :
    CFails (Connection.require enough >>= f) s e := by
  intro c hc
  subst hc
  obtain ⟨c', hc', hs, he⟩ := fill_ok h
  rw [bind_apply, Connection.require, hc']
  exact hf c' hs he

theorem CFails.require {α : Type} {enough : Bytes → Bool} {f : Unit → ConnM α}
    (hmono : ∀ s t, enough s = true → enough (s ++ t) = true) (h : enough s = false) :
    CFails (Connection.require enough >>= f) s .connectionClosed := by
  intro c hc
  subst hc
  rw [bind_apply, Connection.require, fill_none hmono h]
  rfl

theorem length_mono (count : ℕ) (s t : Bytes) (h : decide (count ≤ s.length) = true) :
    decide (count ≤ (s ++ t).length) = true := by
  rw [decide_eq_true_eq] at h ⊢
  rw [List.length_append]
  omega

theorem mem_mono (byte : Byte) (s t : Bytes) (h : decide (byte ∈ s) = true) :
    decide (byte ∈ s ++ t) = true := by
  rw [decide_eq_true_eq] at h ⊢
  exact List.mem_append_left _ h

end Connection

end BtreeRedis
