import BtreeRedis.Server.Client

/-!
# The values that are sent

Every reply is a text, an integer of 64 bits or an array of bulk strings, so that a
client library has an object for it. That counters stay in range is checked where
they are incremented; that counts do follows from the number of the arguments.
-/

namespace BtreeRedis

open CommandContext Decimal

def RespValue.Plain : RespValue → Prop
  | .integer value => InInt64 value
  | .array value => ∀ v ∈ value, ∃ str, v = .bulkString str
  | _ => True

variable {P Q : RespValue → Prop} {f : Handler Unit} {s s' : Server} {v : RespValue}

theorem sends_api_bind_of {α : Type} {g : Api α} {k : α → Handler Unit}
    (hk : ∀ a s t, g s = .ok (a, t) → Sends P (k a)) : Sends P (api g >>= k) := by
  intro c c' h
  obtain ⟨a, t, hg, h⟩ := api_bind_eq_ok.mp h
  obtain ⟨v, hP, hv⟩ := hk a _ _ hg _ _ h
  exact ⟨v, hP, answers_api_bind.mpr ⟨a, t, hg, hv⟩⟩

theorem Answers.unique {v' : RespValue} {s₁ s₁' : Server} (h : Answers f s v s₁) (h' : Answers f s v' s₁') :
    v = v' ∧ s₁ = s₁' := by
  obtain ⟨w, -, hw⟩ := h
  obtain ⟨w', -, hw'⟩ := h'
  have hboth := (hw []).symm.trans (hw' [])
  simp only [List.nil_append, Except.ok.injEq, Prod.mk.injEq, Context.mk.injEq, List.cons.injEq, true_and,
    and_true] at hboth
  exact ⟨hboth.2.1, hboth.1⟩

theorem Sends.of_answers (hf : Sends P f) (h : Answers f s v s') : P v := by
  obtain ⟨w, -, hw⟩ := id h
  obtain ⟨v', hP, hv'⟩ := hf _ _ (hw [])
  rwa [(h.unique hv').1]

section Plain

theorem sends_plain_error (str : Bytes) : Sends RespValue.Plain (respond (error str)) :=
  sends_respond fun _ _ => trivial

theorem sends_plain_ok : Sends RespValue.Plain respondOk := sends_respond fun _ _ => trivial

theorem sends_plain_strings {β : Type} (xs : List β) (str : β → Option Bytes) :
    Sends RespValue.Plain (respond (.array (xs.map fun x => .bulkString (str x)))) := by
  refine sends_respond fun _ _ v hv => ?_
  obtain ⟨x, -, rfl⟩ := List.mem_map.mp hv
  exact ⟨str x, rfl⟩

theorem sends_plain_integer {n : ℤ} (h : InInt64 n) : Sends RespValue.Plain (respond (.integer n)) :=
  sends_respond fun _ _ => h

namespace RespApi

variable (fuel : ℕ) (command : List RespValue)

theorem sends_plain_countLoop (op : Bytes → Api Bool) (args : List RespValue) (count : ℕ)
    (h : count + args.length ≤ int64Max) : Sends RespValue.Plain (countLoop op args count) := by
  induction args generalizing count with
  | nil => exact sends_plain_integer ⟨by omega, by exact_mod_cast h⟩
  | cons arg args ih =>
    rw [List.length_cons] at h
    rw [countLoop]
    cases arg.getAsString with
    | none => exact sends_plain_error _
    | some key =>
      refine sends_api_bind fun done => ?_
      cases done with
      | false => exact ih count (by omega)
      | true => exact_mod_cast ih (count + 1) (by omega)

theorem sends_plain_countKeys (op : Bytes → Api Bool) (h : command.length ≤ int64Max) :
    Sends RespValue.Plain (countKeys command op) := by
  unfold countKeys
  refine sends_ite (sends_plain_error _) (sends_plain_countLoop op _ 0 ?_)
  rw [List.length_drop]
  omega

theorem increment_inInt64 {fuel : ℕ} {key : Bytes} {amount n : ℤ}
    (h : ApiImpl.increment fuel key amount s = .ok (some n, s')) : InInt64 n := by
  rw [ApiImpl.increment, state_bind_eq_ok] at h
  obtain ⟨res, t, -, h⟩ := h
  rcases res with _ | val
  all_goals
    simp only [state_bind_eq_ok] at h
    obtain ⟨counter, t', -, h⟩ := h
    cases counter with
    | none => cases (state_pure_eq_ok.mp h).1
    | some counter =>
      simp only [state_bind_eq_ok, state_lift_eq_ok, checked_eq_ok, state_pure_eq_ok] at h
      obtain ⟨_, _, ⟨⟨hin, rfl⟩, -⟩, _, _, -, _, _, -, hn, -⟩ := h
      obtain rfl := Option.some.inj hn
      exact hin

theorem sends_plain_increment (key : Bytes) (amount : ℤ) :
    Sends RespValue.Plain (do
      match ← api (ApiImpl.increment fuel key amount) with
      | none => respondErrorNoInteger
      | some result => respond (.integer result)) := by
  refine sends_api_bind_of fun result s t h => ?_
  cases result with
  | none => exact sends_plain_error _
  | some result => exact sends_plain_integer (increment_inInt64 h)

theorem sends_plain_incrementBy (amount : ℤ) : Sends RespValue.Plain (incrementBy fuel command amount) := by
  unfold incrementBy
  cases getArgOrNull command 1 with
  | none => exact sends_plain_error _
  | some key => exact sends_plain_increment fuel key amount

theorem sends_plain_incrementByArg (amountOf : ℤ → Except ServerFault ℤ) :
    Sends RespValue.Plain (incrementByArg fuel command amountOf) := by
  unfold incrementByArg
  cases getArgOrNull command 1 with
  | none => exact sends_plain_error _
  | some key =>
    cases getArgOrNull command 2 with
    | none => exact sends_plain_error _
    | some amountStr =>
      refine sends_lift_bind fun amount => ?_
      cases amount with
      | none => exact sends_plain_error _
      | some amount => exact sends_lift_bind fun amount => sends_plain_increment fuel key amount

theorem sends_plain_onZRange : Sends RespValue.Plain (onZRange fuel command) := by
  unfold onZRange
  split
  · refine sends_ite (sends_plain_error _) ?_
    refine sends_lift_bind fun _ => sends_ite (sends_plain_error _) ?_
    refine sends_lift_bind fun _ => sends_ite (sends_plain_error _) ?_
    refine sends_lift_bind fun _ => sends_ite (sends_plain_error _) ?_
    refine sends_lift_bind fun _ => sends_ite (sends_plain_error _) ?_
    refine sends_lift_bind fun limit => ?_
    cases limit with
    | none => exact sends_plain_error _
    | some limit =>
      dsimp only
      exact sends_ite (sends_plain_error _) (sends_api_bind fun result => sends_plain_strings result some)
  · exact sends_plain_error _

theorem sends_plain_commandFn (name : CommandName) (h : command.length ≤ int64Max) :
    Sends RespValue.Plain (commandFn fuel command name) := by
  cases name
  case ping => exact sends_respond fun _ _ => trivial
  case info => exact sends_api_bind fun _ => sends_respond fun _ _ => trivial
  case get =>
    unfold commandFn onGet
    cases getArgOrNull command 1 with
    | none => exact sends_plain_error _
    | some key =>
      refine sends_api_bind fun val => ?_
      cases val with
      | none => exact sends_respond fun _ _ => trivial
      | some val => exact sends_respond fun _ _ => trivial
  case set =>
    unfold commandFn onSet
    cases getArgOrNull command 1 with
    | none => exact sends_plain_error _
    | some key =>
      cases getArgOrNull command 2 with
      | none => exact sends_plain_error _
      | some val => exact sends_api_bind fun _ => sends_plain_ok
  case del => exact sends_plain_countKeys command _ h
  case «exists» => exact sends_plain_countKeys command _ h
  case incr => exact sends_plain_incrementBy fuel command 1
  case incrby => exact sends_plain_incrementByArg fuel command _
  case decr => exact sends_plain_incrementBy fuel command (-1)
  case decrby => exact sends_plain_incrementByArg fuel command _
  case mget => exact sends_api_bind fun result => sends_plain_strings result id
  case mset => exact sends_api_bind fun _ => sends_plain_ok
  case zadd =>
    unfold commandFn onZAdd
    cases getArgOrNull command 1 with
    | none => exact sends_plain_error _
    | some key =>
      refine sends_ite (sends_plain_error _) (sends_api_bind_of fun result s t hr => sends_plain_integer ?_)
      obtain ⟨-, hresult, -⟩ := zadd_eq_ok.mp hr
      split_ifs at hresult
      · subst hresult
        refine ⟨by omega, ?_⟩
        rw [List.length_drop]
        omega
      · subst hresult
        decide
  case zrange => exact sends_plain_onZRange fuel command
  case flushall => exact sends_api_bind fun _ => sends_plain_ok

theorem sends_plain_processCommand (h : command.length ≤ int64Max) :
    Sends RespValue.Plain (processCommand fuel command) := by
  unfold processCommand
  cases getArgOrNull command 0 with
  | none => exact sends_plain_error _
  | some rootCommand =>
    dsimp only
    cases commandMap.lookup (toLowerCopy rootCommand) with
    | none => exact sends_plain_error _
    | some name => exact sends_plain_commandFn fuel command name h

end RespApi

end Plain

end BtreeRedis
