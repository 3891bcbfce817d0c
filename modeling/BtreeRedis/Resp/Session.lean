import BtreeRedis.Resp.RoundTrip

/-!
# The command loop of a connection

`run` reads one command after another and hands each to the handler. It returns when
the connection is closed; any other exception of the reader or the handler leaves
it. What it does depends on the byte stream only, not on the chunks it came in, and
it returns exactly on the streams of complete commands that end where the reader
waits for more.
-/

namespace BtreeRedis

open Reader Connection

variable {σ : Type}

def readCommand (alloc : Allocator) : ConnM (List RespValue) := do
  let val ← readValue alloc
  match val with
  | .array args => pure args
  | _ => throw .runtimeError

/-- What is caught, and what leaves `run`. -/
def caught (e : ReadFault) : Option ReadFault := if e = .connectionClosed then none else some e

/-- The loop of `run` for at most `fuel` commands: the state the handler leaves, and the exception
that escapes, if one does. -/
def runLoop (alloc : Allocator) (handler : σ → List RespValue → σ × Option ReadFault) :
    ℕ → σ → Connection → σ × Option ReadFault
  | 0, s, _ => (s, some .outOfFuel)
  | fuel + 1, s, c =>
    match readCommand alloc c with
    | .error e => (s, caught e)
    | .ok (command, c') =>
      match handler s command with
      | (s', some e) => (s', caught e)
      | (s', none) => runLoop alloc handler fuel s' c'

/-- Every command takes a byte of the stream. -/
def run (alloc : Allocator) (handler : σ → List RespValue → σ × Option ReadFault) (s : σ)
    (c : Connection) : σ × Option ReadFault :=
  runLoop alloc handler (c.stream.length + 1) s c

def accept (chunks : List Bytes) : Connection := ⟨[], chunks⟩

@[simp] theorem stream_accept (chunks : List Bytes) : (accept chunks).stream = chunks.flatten := rfl

def record (handler : σ → List RespValue → σ × Option ReadFault) (s : σ × List (List RespValue))
    (command : List RespValue) : (σ × List (List RespValue)) × Option ReadFault :=
  (((handler s.1 command).1, s.2 ++ [command]), (handler s.1 command).2)

def total (handle : σ → List RespValue → σ) (s : σ) (command : List RespValue) :
    σ × Option ReadFault := (handle s command, none)

section Commands
variable {alloc : Allocator} {s text : Bytes}

theorem readCommand_determined : Determined stream (readCommand alloc) := by
  refine readValue_determined.bind fun v => ?_
  cases v
  case array vs => exact determined_pure vs
  all_goals exact determined_throw _

theorem readCommand_encoded {args : List RespValue} (h : Encoded alloc (.array args) text)
    (rest : Bytes) : CReads (readCommand alloc) (text ++ rest) args rest :=
  (readValue_encoded h rest).bind (reads_pure args rest)

theorem readCommand_outcome (s : Bytes) :
    Outcome (readCommand alloc) (fun args => Encoded alloc (.array args)) (Waiting alloc) s := by
  rcases @readValue_outcome alloc s with @⟨v, text, rest, rfl, h, hf⟩ | ⟨h, hf⟩ | ⟨he, hf⟩
  · cases v
    case array args => exact .complete rfl h (hf.bind (reads_pure args rest))
    all_goals exact .malformed (Or.inl rfl) (hf.bind_fails (fails_throw _ _))
  · exact .waiting h hf.bind
  · exact .malformed he hf.bind

theorem readCommand_covered {c : Connection} {e : ReadFault} (h : readCommand alloc c = .error e) :
    e ≠ .starved ∧ e ≠ .outOfFuel := by
  have hf := readCommand_determined.fails h
  rcases @readCommand_outcome alloc c.stream with ⟨-, -, hr⟩ | ⟨-, hr⟩ | ⟨he, hr⟩
  · exact absurd hf (hr.not_fails rfl)
  · obtain rfl := hf.unique rfl hr
    exact ⟨by decide, by decide⟩
  · obtain rfl := hf.unique rfl hr
    rcases he with rfl | rfl | rfl <;> exact ⟨by decide, by decide⟩

end Commands

section Runs
variable {alloc : Allocator} {handler : σ → List RespValue → σ × Option ReadFault} {s : σ}

theorem runLoop_stream (fuel : ℕ) (s : σ) {c c' : Connection} (h : c.stream = c'.stream) :
    runLoop alloc handler fuel s c = runLoop alloc handler fuel s c' := by
  induction fuel generalizing s c c' with
  | zero => rfl
  | succ fuel ih =>
    rcases @readCommand_determined alloc c.stream with ⟨args, rest, hr⟩ | ⟨e, he⟩
    · obtain ⟨d, hd, hs⟩ := hr c rfl
      obtain ⟨d', hd', hs'⟩ := hr c' h.symm
      simp only [runLoop, hd, hd']
      rcases handler s args with ⟨s', _ | e⟩
      · exact ih s' (hs.trans hs'.symm)
      · rfl
    · simp only [runLoop, he c rfl, he c' h.symm]

theorem runLoop_recorded (fuel : ℕ) (s : σ) (log : List (List RespValue)) (c : Connection) :
    ∃ commands body rest, (runLoop alloc (record handler) fuel (s, log) c).1.2 = log ++ commands ∧
      c.stream = body ++ rest ∧ EncodedItems alloc (commands.map .array) body := by
  induction fuel generalizing s log c with
  | zero => exact ⟨[], [], c.stream, by simp [runLoop], rfl, .nil⟩
  | succ fuel ih =>
    cases hc : readCommand alloc c with
    | error e => exact ⟨[], [], c.stream, by simp [runLoop, hc], rfl, .nil⟩
    | ok r =>
      obtain ⟨args, c'⟩ := r
      have hread := readCommand_determined.reads hc
      rcases @readCommand_outcome alloc c.stream with
        @⟨args', text, rest, hs, ht, hf⟩ | ⟨-, hf⟩ | ⟨-, hf⟩
      · obtain ⟨rfl, hrest⟩ := hread.unique rfl hf
        simp only [runLoop, hc, record]
        cases hh : (handler s args).2 with
        | some e =>
          refine ⟨[args], text ++ [], rest, rfl, by rw [List.append_nil]; exact hs, .cons ht .nil⟩
        | none =>
          obtain ⟨commands, body, rest', hlog, hstream, hbody⟩ := ih (handler s args).1 (log ++ [args]) c'
          refine ⟨args :: commands, text ++ body, rest', ?_, ?_, .cons ht hbody⟩
          · rw [hlog, List.append_assoc]
            rfl
          · rw [hs, ← hrest, hstream, List.append_assoc]
      · exact absurd hf (hread.not_fails rfl)
      · exact absurd hf (hread.not_fails rfl)

/-- Two deliveries of one stream: the handler is passed the same commands, all of them complete. -/
theorem run_chunking (alloc : Allocator) (handler : σ → List RespValue → σ × Option ReadFault) (s : σ)
    (chunks chunks' : List Bytes) (h : chunks.flatten = chunks'.flatten) :
    run alloc (record handler) (s, []) (accept chunks) =
        run alloc (record handler) (s, []) (accept chunks') ∧
      ∃ body rest, chunks.flatten = body ++ rest ∧ EncodedItems alloc
        ((run alloc (record handler) (s, []) (accept chunks)).1.2.map .array) body := by
  constructor
  · rw [run, run, stream_accept, stream_accept, h]
    exact runLoop_stream _ _ h
  · obtain ⟨commands, body, rest, hlog, hs, hb⟩ :=
      @runLoop_recorded σ alloc handler ((accept chunks).stream.length + 1) s [] (accept chunks)
    rw [List.nil_append] at hlog
    exact ⟨body, rest, hs, by rw [run, hlog]; exact hb⟩

/-- A line end that is torn apart. -/
theorem run_chunking_split :
    run generous (record (total fun (_ : Unit) _ => ())) ((), []) (accept [bytes "*0\r", bytes "\n"]) =
        run generous (record (total fun (_ : Unit) _ => ())) ((), []) (accept [bytes "*0\r\n"]) ∧
      ∃ body rest, [bytes "*0\r", bytes "\n"].flatten = body ++ rest ∧ EncodedItems generous
        ((run generous (record (total fun (_ : Unit) _ => ())) ((), [])
          (accept [bytes "*0\r", bytes "\n"])).1.2.map .array) body :=
  run_chunking generous _ () [bytes "*0\r", bytes "\n"] [bytes "*0\r\n"] (by decide)

/-- Complete commands, and then a text on which the reader waits. -/
def WellFormed (alloc : Allocator) (commands : List (List RespValue)) (s : Bytes) : Prop :=
  ∃ body rest, s = body ++ rest ∧ EncodedItems alloc (commands.map .array) body ∧ Waiting alloc rest

section Returning
variable {handle : σ → List RespValue → σ}

theorem runLoop_wellFormed {commands : List (List RespValue)} (fuel : ℕ) (s : σ)
    (log : List (List RespValue)) {c : Connection} (h : WellFormed alloc commands c.stream)
    (hl : c.stream.length < fuel) :
    runLoop alloc (record (total handle)) fuel (s, log) c =
      ((commands.foldl handle s, log ++ commands), none) := by
  induction commands generalizing fuel s log c with
  | nil =>
    obtain ⟨body, rest, hs, ⟨⟩, hw⟩ := h
    obtain ⟨k, rfl⟩ := Nat.exists_eq_add_of_lt hl
    have hclosed : CFails (readCommand alloc) rest .connectionClosed := (readValue_waiting hw).bind
    rw [runLoop, hclosed c hs]
    simp [caught]
  | cons args commands ih =>
    obtain ⟨_, rest, hs, hb, hw⟩ := h
    rw [List.map_cons] at hb
    rcases hb with _ | @⟨_, _, text, body, ht, hb⟩
    obtain ⟨k, rfl⟩ := Nat.exists_eq_add_of_lt hl
    rw [List.append_assoc] at hs
    obtain ⟨c', hc', hs'⟩ := readCommand_encoded ht (body ++ rest) c hs
    have hpos := ht.pos
    have hlen : c'.stream.length < c.stream.length := by
      rw [hs, hs']
      simp only [List.length_append]
      omega
    have hrun := ih (c.stream.length + k) (handle s args) (log ++ [args])
      ⟨body, rest, hs', hb, hw⟩ (by omega)
    rw [List.append_assoc, List.singleton_append] at hrun
    simp only [runLoop, hc', record, total]
    exact hrun

theorem runLoop_returns (fuel : ℕ) (s : σ) {c : Connection}
    (h : (runLoop alloc handler fuel s c).2 = none)
    (hh : ∀ s command, (handler s command).2 = none) :
    ∃ commands, WellFormed alloc commands c.stream := by
  induction fuel generalizing s c with
  | zero => exact (nomatch h)
  | succ fuel ih =>
    cases hc : readCommand alloc c with
    | error e =>
      have hf := readCommand_determined.fails hc
      rcases @readCommand_outcome alloc c.stream with ⟨-, -, hr⟩ | ⟨hw, -⟩ | ⟨he, hr⟩
      · exact absurd hf (hr.not_fails rfl)
      · exact ⟨[], [], c.stream, rfl, .nil, hw⟩
      · obtain rfl := hf.unique rfl hr
        rw [runLoop, hc] at h
        simp only [caught, if_neg he.ne_closed] at h
        exact (nomatch h)
    | ok r =>
      obtain ⟨args, c'⟩ := r
      have hread := readCommand_determined.reads hc
      rcases @readCommand_outcome alloc c.stream with
        @⟨args', text, rest, hs, ht, hf⟩ | ⟨-, hf⟩ | ⟨-, hf⟩
      · obtain ⟨rfl, hrest⟩ := hread.unique rfl hf
        have hnone := hh s args
        simp only [runLoop, hc] at h
        rcases hst : handler s args with ⟨s', _ | e⟩
        · rw [hst] at h
          obtain ⟨commands, body, rest', hs', hb, hw⟩ := ih s' h
          refine ⟨args :: commands, text ++ body, rest', ?_, .cons ht hb, hw⟩
          rw [hs, ← hrest, hs', List.append_assoc]
        · rw [hst] at hnone
          exact (nomatch hnone)
      · exact absurd hf (hread.not_fails rfl)
      · exact absurd hf (hread.not_fails rfl)

/-- `run` returns on exactly these streams, and has then handled all their commands in order. -/
theorem run_returns_iff (alloc : Allocator) (handle : σ → List RespValue → σ) (s : σ)
    (chunks : List Bytes) :
    (∃ commands, run alloc (record (total handle)) (s, []) (accept chunks) =
        ((commands.foldl handle s, commands), none)) ↔
      ∃ commands, WellFormed alloc commands chunks.flatten := by
  constructor
  · rintro ⟨commands, hrun⟩
    exact runLoop_returns _ (s, []) (by rw [← run, hrun]) fun _ _ => rfl
  · rintro ⟨commands, h⟩
    exact ⟨commands, runLoop_wellFormed _ s [] h (Nat.lt_succ_self _)⟩

/-- A null bulk string as an argument: `reserve` throws `std::length_error`. -/
theorem run_escapes :
    ¬ ∀ chunks : List Bytes, (run generous (total fun (_ : Unit) _ => ()) () (accept chunks)).2 = none := by
  intro h
  have he : (run generous (total fun (_ : Unit) _ => ()) ()
      (accept [bytes "*1\r\n$-1\r\n*"])).2 = some .allocation := by decide +kernel
  rw [h] at he
  exact (nomatch he)

end Returning

end Runs

end BtreeRedis
