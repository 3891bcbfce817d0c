import BtreeRedis.Resp.Framing
import BtreeRedis.Server.RespApi

/-!
# One reply for each command

A handler that returns has responded exactly once, after all it did to the server.
`Answers` says which value it responds with and how it leaves the server; it is
computed along the handler, from one call of an operation to the next.
-/

namespace BtreeRedis

open CommandContext

/-- Whatever has been sent before, the handler sends `v` and leaves the server as `s'`. -/
def Answers (f : Handler Unit) (s : Server) (v : RespValue) (s' : Server) : Prop :=
  ∃ w, v.writeValue = .ok w ∧ ∀ sent, f ⟨s, sent⟩ = .ok ((), ⟨s', sent ++ [(v, w)]⟩)

def Sends (P : RespValue → Prop) (f : Handler Unit) : Prop :=
  ∀ c c', f c = .ok ((), c') → ∃ v, P v ∧ Answers f c.server v c'.server

variable {α : Type} {P : RespValue → Prop} {s s' : Server} {v : RespValue} {f : Handler Unit}

section Calls

theorem respond_eq_ok {c c' : Context} :
    respond v c = .ok ((), c') ↔
      ∃ w, v.writeValue = .ok w ∧ c' = { c with sent := c.sent ++ [(v, w)] } := by
  constructor
  · intro h
    simp only [respond, bind_eq_ok, pure_eq_ok, Prod.mk.injEq, true_and] at h
    obtain ⟨w, hw, rfl⟩ := h
    exact ⟨w, hw, rfl⟩
  · rintro ⟨w, hw, rfl⟩
    simp only [respond, hw, ok_bind]
    rfl

theorem api_bind_eq_ok {g : Api α} {k : α → Handler Unit} {c c' : Context} :
    (api g >>= k) c = .ok ((), c') ↔
      ∃ a t, g c.server = .ok (a, t) ∧ k a { c with server := t } = .ok ((), c') := by
  have happ : (api g >>= k) c = (g c.server >>= fun p => k p.1 { c with server := p.2 }) := by
    change (api g c >>= fun p => k p.1 p.2) = _
    rw [api]
    cases g c.server <;> rfl
  rw [happ, bind_eq_ok]
  constructor
  · rintro ⟨⟨a, t⟩, hg, hk⟩
    exact ⟨a, t, hg, hk⟩
  · rintro ⟨a, t, hg, hk⟩
    exact ⟨(a, t), hg, hk⟩

theorem lift_bind_eq_ok {x : Except ServerFault α} {k : α → Handler Unit} {c c' : Context} :
    ((liftM x : Handler α) >>= k) c = .ok ((), c') ↔ ∃ a, x = .ok a ∧ k a c = .ok ((), c') := by
  cases x with
  | error e => exact ⟨fun h => (nomatch h), fun ⟨_, h, _⟩ => (nomatch h)⟩
  | ok a => exact ⟨fun h => ⟨a, rfl, h⟩, fun ⟨_, h, hk⟩ => by cases h; exact hk⟩

end Calls

theorem answers_respond {u : RespValue} :
    Answers (respond u) s v s' ↔ v = u ∧ s' = s ∧ ∃ w, u.writeValue = .ok w := by
  constructor
  · rintro ⟨w, hw, h⟩
    obtain ⟨w', hw', he⟩ := respond_eq_ok.mp (h [])
    obtain ⟨rfl, rfl, -⟩ : s' = s ∧ v = u ∧ w = w' := by
      simpa only [Context.mk.injEq, List.nil_append, List.cons.injEq, Prod.mk.injEq, and_true] using he
    exact ⟨rfl, rfl, w', hw'⟩
  · rintro ⟨rfl, rfl, w, hw⟩
    exact ⟨w, hw, fun sent => respond_eq_ok.mpr ⟨w, hw, rfl⟩⟩

theorem answers_api_bind {g : Api α} {k : α → Handler Unit} :
    Answers (api g >>= k) s v s' ↔ ∃ a t, g s = .ok (a, t) ∧ Answers (k a) t v s' := by
  constructor
  · rintro ⟨w, hw, h⟩
    obtain ⟨a, t, hg, -⟩ := api_bind_eq_ok.mp (h [])
    refine ⟨a, t, hg, w, hw, fun sent => ?_⟩
    obtain ⟨a', t', hg', hk⟩ := api_bind_eq_ok.mp (h sent)
    obtain ⟨rfl, rfl⟩ := Prod.mk.inj (Except.ok.inj (hg.symm.trans hg'))
    exact hk
  · rintro ⟨a, t, hg, w, hw, h⟩
    exact ⟨w, hw, fun sent => api_bind_eq_ok.mpr ⟨a, t, hg, h sent⟩⟩

theorem answers_lift_bind {x : Except ServerFault α} {k : α → Handler Unit} :
    Answers ((liftM x : Handler α) >>= k) s v s' ↔ ∃ a, x = .ok a ∧ Answers (k a) s v s' := by
  constructor
  · rintro ⟨w, hw, h⟩
    obtain ⟨a, hx, -⟩ := lift_bind_eq_ok.mp (h [])
    refine ⟨a, hx, w, hw, fun sent => ?_⟩
    obtain ⟨a', hx', hk⟩ := lift_bind_eq_ok.mp (h sent)
    obtain rfl := Except.ok.inj (hx.symm.trans hx')
    exact hk
  · rintro ⟨a, hx, w, hw, h⟩
    exact ⟨w, hw, fun sent => lift_bind_eq_ok.mpr ⟨a, hx, h sent⟩⟩

theorem sends_respond (hv : ∀ w, v.writeValue = .ok w → P v) : Sends P (respond v) := by
  intro c c' h
  obtain ⟨w, hw, rfl⟩ := respond_eq_ok.mp h
  exact ⟨v, hv w hw, answers_respond.mpr ⟨rfl, rfl, w, hw⟩⟩

theorem sends_api_bind {g : Api α} {k : α → Handler Unit} (hk : ∀ a, Sends P (k a)) :
    Sends P (api g >>= k) := by
  intro c c' h
  obtain ⟨a, t, hg, h⟩ := api_bind_eq_ok.mp h
  obtain ⟨v, hP, hv⟩ := hk a _ _ h
  exact ⟨v, hP, answers_api_bind.mpr ⟨a, t, hg, hv⟩⟩

theorem sends_lift_bind {x : Except ServerFault α} {k : α → Handler Unit}
    (hk : ∀ a, Sends P (k a)) : Sends P ((liftM x : Handler α) >>= k) := by
  intro c c' h
  obtain ⟨a, hx, h⟩ := lift_bind_eq_ok.mp h
  obtain ⟨v, hP, hv⟩ := hk a _ _ h
  exact ⟨v, hP, answers_lift_bind.mpr ⟨a, hx, hv⟩⟩

theorem sends_ite {p : Prop} [Decidable p] {g : Handler Unit} (hf : Sends P f) (hg : Sends P g) :
    Sends P (if p then f else g) := by
  by_cases h : p
  · simpa only [if_pos h] using hf
  · simpa only [if_neg h] using hg

theorem Sends.mono {Q : RespValue → Prop} (hf : Sends P f) (h : ∀ v, P v → Q v) : Sends Q f := by
  intro c c' hc
  obtain ⟨v, hP, hv⟩ := hf c c' hc
  exact ⟨v, h v hP, hv⟩

theorem Sends.sent {c c' : Context} (hf : Sends P f) (h : f c = .ok ((), c')) :
    ∃ v w, P v ∧ v.writeValue = .ok w ∧ Answers f c.server v c'.server ∧
      c'.sent = c.sent ++ [(v, w)] := by
  obtain ⟨v, hP, hv⟩ := hf c c' h
  obtain ⟨w, hw, hs⟩ := id hv
  refine ⟨v, w, hP, hw, hv, ?_⟩
  have he := (hs c.sent).symm.trans h
  rw [Except.ok.injEq, Prod.mk.injEq] at he
  rw [← he.2]

theorem clean_simpleString {str : Bytes} (h : LineText str) : Clean (simpleString str) := by
  rw [simpleString, Clean]
  exact fun s hs => Option.some.inj hs ▸ h

theorem clean_error {str : Bytes} (h : LineText str) : Clean (error str) := by
  rw [error, Clean]
  exact fun s hs => Option.some.inj hs ▸ h

theorem sends_ok : Sends Clean respondOk := sends_respond fun _ _ => clean_simpleString (by decide)

theorem sends_errorWrongArguments : Sends Clean respondErrorWrongArguments :=
  sends_respond fun _ _ => clean_error (by decide)

theorem sends_errorNoInteger : Sends Clean respondErrorNoInteger :=
  sends_respond fun _ _ => clean_error (by decide)

theorem sends_error {str : Bytes} (h : LineText str) : Sends Clean (respond (error str)) :=
  sends_respond fun _ _ => clean_error h

theorem sends_integer (n : ℤ) : Sends Clean (respond (.integer n)) :=
  sends_respond fun _ _ => by simp [Clean]

theorem sends_bulkString (str : Option Bytes) : Sends Clean (respond (.bulkString str)) :=
  sends_respond fun _ _ => by simp [Clean]

theorem sends_bulkStrings {β : Type} (xs : List β) (str : β → Option Bytes) :
    Sends Clean (respond (.array (xs.map fun x => .bulkString (str x)))) :=
  sends_respond fun _ _ => by
    rw [Clean]
    refine cleanItems_of_forall _ fun v hv => ?_
    obtain ⟨x, -, rfl⟩ := List.mem_map.mp hv
    simp [Clean]

namespace RespApi

variable (fuel : ℕ) (command : List RespValue)

theorem sends_countLoop (op : Bytes → Api Bool) (args : List RespValue) (count : ℤ) :
    Sends Clean (countLoop op args count) := by
  induction args generalizing count with
  | nil => exact sends_integer count
  | cons arg args ih =>
    rw [countLoop]
    cases arg.getAsString with
    | none => exact sends_errorWrongArguments
    | some key => exact sends_api_bind fun done => ih _

theorem sends_countKeys (op : Bytes → Api Bool) : Sends Clean (countKeys command op) := by
  unfold countKeys
  exact sends_ite sends_errorWrongArguments (sends_countLoop op _ 0)

theorem sends_increment (key : Bytes) (amount : ℤ) :
    Sends Clean (do
      match ← api (ApiImpl.increment fuel key amount) with
      | none => respondErrorNoInteger
      | some result => respond (.integer result)) := by
  refine sends_api_bind fun result => ?_
  cases result with
  | none => exact sends_errorNoInteger
  | some result => exact sends_integer result

theorem sends_incrementBy (amount : ℤ) : Sends Clean (incrementBy fuel command amount) := by
  unfold incrementBy
  cases getArgOrNull command 1 with
  | none => exact sends_errorWrongArguments
  | some key => exact sends_increment fuel key amount

theorem sends_incrementByArg (amountOf : ℤ → Except ServerFault ℤ) :
    Sends Clean (incrementByArg fuel command amountOf) := by
  unfold incrementByArg
  cases getArgOrNull command 1 with
  | none => exact sends_errorWrongArguments
  | some key =>
    cases getArgOrNull command 2 with
    | none => exact sends_errorWrongArguments
    | some amountStr =>
      refine sends_lift_bind fun amount => ?_
      cases amount with
      | none => exact sends_errorNoInteger
      | some amount => exact sends_lift_bind fun amount => sends_increment fuel key amount

theorem lineText_rootError : LineText rootError := by decide +kernel

theorem sends_onZRange : Sends Clean (onZRange fuel command) := by
  unfold onZRange
  split
  · refine sends_ite (sends_error lineText_rootError) ?_
    refine sends_lift_bind fun _ => sends_ite (sends_error (by decide)) ?_
    refine sends_lift_bind fun _ => sends_ite (sends_error (by decide)) ?_
    refine sends_lift_bind fun _ => sends_ite (sends_error (by decide)) ?_
    refine sends_lift_bind fun _ => sends_ite (sends_error (by decide)) ?_
    refine sends_lift_bind fun limit => ?_
    cases limit with
    | none => exact sends_errorNoInteger
    | some limit =>
      dsimp only
      refine sends_ite (sends_error (by decide)) ?_
      exact sends_api_bind fun result => sends_bulkStrings result some
  · exact sends_errorWrongArguments

theorem sends_commandFn (name : CommandName) : Sends Clean (commandFn fuel command name) := by
  cases name
  case ping => exact sends_respond fun _ _ => clean_simpleString (by decide)
  case info => exact sends_api_bind fun _ => sends_bulkString _
  case get =>
    unfold commandFn onGet
    cases getArgOrNull command 1 with
    | none => exact sends_errorWrongArguments
    | some key =>
      refine sends_api_bind fun val => ?_
      cases val with
      | none => exact sends_respond fun _ _ => by simp [Clean]
      | some val => exact sends_bulkString _
  case set =>
    unfold commandFn onSet
    cases getArgOrNull command 1 with
    | none => exact sends_errorWrongArguments
    | some key =>
      cases getArgOrNull command 2 with
      | none => exact sends_errorWrongArguments
      | some val => exact sends_api_bind fun _ => sends_ok
  case del => exact sends_countKeys command _
  case «exists» => exact sends_countKeys command _
  case incr => exact sends_incrementBy fuel command 1
  case incrby => exact sends_incrementByArg fuel command _
  case decr => exact sends_incrementBy fuel command (-1)
  case decrby => exact sends_incrementByArg fuel command _
  case mget => exact sends_api_bind fun result => sends_bulkStrings result id
  case mset => exact sends_api_bind fun _ => sends_ok
  case zadd =>
    unfold commandFn onZAdd
    cases getArgOrNull command 1 with
    | none => exact sends_errorWrongArguments
    | some key =>
      exact sends_ite (sends_error lineText_rootError) (sends_api_bind fun result => sends_integer result)
  case zrange => exact sends_onZRange fuel command
  case flushall => exact sends_api_bind fun _ => sends_ok

def unknownName : Option Bytes :=
  match getArgOrNull command 0 with
  | none => none
  | some rootCommand =>
    match commandMap.lookup (toLowerCopy rootCommand) with
    | none => some rootCommand
    | some _ => none

theorem sends_processCommand :
    Sends (fun v => Clean v ∨ ∃ name, unknownName command = some name ∧ v = unknownCommand name)
      (processCommand fuel command) := by
  unfold processCommand unknownName
  cases getArgOrNull command 0 with
  | none => exact sends_errorWrongArguments.mono fun v hv => Or.inl hv
  | some rootCommand =>
    dsimp only
    cases commandMap.lookup (toLowerCopy rootCommand) with
    | none => exact sends_respond fun _ _ => Or.inr ⟨rootCommand, rfl, rfl⟩
    | some name => exact (sends_commandFn fuel command name).mono fun v hv => Or.inl hv

theorem answers_unknown {name : Bytes} (h : unknownName command = some name) (s : Server) :
    Answers (processCommand fuel command) s (unknownCommand name) s := by
  unfold unknownName at h
  unfold processCommand
  cases hr : getArgOrNull command 0 with
  | none =>
    rw [hr] at h
    exact (nomatch h)
  | some rootCommand =>
    rw [hr] at h
    dsimp only at h ⊢
    cases hl : commandMap.lookup (toLowerCopy rootCommand) with
    | none =>
      rw [hl] at h
      obtain rfl := Option.some.inj h
      exact answers_respond.mpr ⟨rfl, rfl, _, rfl⟩
    | some _ =>
      rw [hl] at h
      exact (nomatch h)

theorem lineText_message (name : Bytes) :
    LineText (bytes "ERR unknown command '" ++ name ++ bytes "'") ↔ LineText name := by
  have hc : ∀ b : Byte, b = cr ∨ b = lf → b ∉ bytes "ERR unknown command '" ∧ b ∉ bytes "'" := by
    rintro b (rfl | rfl) <;> decide
  simp only [LineText, List.mem_append, (hc cr (Or.inl rfl)).1, (hc cr (Or.inl rfl)).2,
    (hc lf (Or.inr rfl)).1, (hc lf (Or.inr rfl)).2, false_or, or_false]

theorem lineText_of_parses {name w : Bytes} (h : Parses (unknownCommand name) w) : LineText name := by
  rw [unknownCommand, error] at h
  cases h with
  | error ht => exact (lineText_message name).mp ht

/-- Each reply is framed as the value it was given exactly if no line end is echoed in the name of
an unknown command. -/
theorem replies_framed_iff (fuel : ℕ) (command : List RespValue) (s : Server) :
    (∀ c', processCommand fuel command ⟨s, []⟩ = .ok ((), c') → ∀ v w, (v, w) ∈ c'.sent → Framed v w) ↔
      ∀ name, unknownName command = some name → LineText name := by
  constructor
  · intro h name hn
    obtain ⟨w, -, hs⟩ := answers_unknown fuel command hn s
    exact lineText_of_parses (h _ (hs []) (unknownCommand name) w (by simp)).1
  · intro h c' hc v w hm
    obtain ⟨u, w', hu, hw', -, hsent⟩ := (sends_processCommand fuel command).sent hc
    rw [hsent, List.nil_append, List.mem_singleton, Prod.mk.injEq] at hm
    obtain ⟨rfl, rfl⟩ := hm
    rcases hu with hu | ⟨name, hn, rfl⟩
    · exact (hu.parses _ hw').framed
    · exact ((clean_error ((lineText_message name).mpr (h name hn))).parses _ hw').framed

/-- The name `a`, a line end and `:1`. -/
theorem unframed_reply :
    ¬ ∀ (fuel : ℕ) (command : List RespValue) (s : Server) (c' : Context),
      (∀ arg ∈ command, ∃ str, arg = .bulkString (some str)) →
      processCommand fuel command ⟨s, []⟩ = .ok ((), c') → ∀ v w, (v, w) ∈ c'.sent → Framed v w := by
  intro h
  obtain ⟨name, hname⟩ : ∃ name, name = bytes "a\r\n:1" := ⟨_, rfl⟩
  have hn : unknownName [.bulkString (some name)] = some name := by
    subst hname
    decide
  obtain ⟨w, -, hs⟩ := answers_unknown 0 _ hn Server.start
  have hbulk : ∀ arg ∈ [RespValue.bulkString (some name)], ∃ str, arg = .bulkString (some str) :=
    fun arg harg => ⟨name, List.mem_singleton.mp harg⟩
  have ht := lineText_of_parses (h 0 _ _ _ hbulk (hs []) (unknownCommand name) w (by simp)).1
  subst hname
  exact absurd ht (by decide)

end RespApi

end BtreeRedis
