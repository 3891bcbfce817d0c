import BtreeRedis.Server.Plan

/-!
# `MGET` against `GET`

`MGET` should answer each of its keys as `GET` does. It wraps the missing keys in bulk
strings without a string, on which the serializer faults, so that it agrees with `GET` on
stored keys only.
-/

namespace BtreeRedis

open ApiImpl CommandContext RespApi

/-- The reply to `MGET` is sent and is the array of the replies to the single `GET`s. -/
def AgreesWithGet (fuel : ℕ) (s : Server) (ks : List Bytes) : Prop :=
  ∃ vs s', Answers (processCommand fuel (mgetCommand ks)) s (.array vs) s' ∧
    List.Forall₂ (fun key v => ∃ s'', Answers (processCommand fuel (getCommand key)) s v s'') ks vs

def getReply (m : KeyMap) (key : Bytes) : RespValue := (m key).elim .nullBulkString fun val => .bulkString (some val)

variable {fuel : ℕ} {s : Server} {m : KeyMap} {ks : List Bytes}

theorem answers_getCommand (h : s.Denotes m) (key : Bytes) {v : RespValue} {s' : Server} :
    Answers (processCommand fuel (getCommand key)) s v s' ↔ v = getReply m key ∧ s' = s :=
  answers_processCommand h

theorem map_str (ks : List Bytes) : (ks.map bulk).map (fun arg => m arg.str) = ks.map m := by
  rw [List.map_map]
  rfl

theorem answers_mgetCommand (h : s.Denotes m) {v : RespValue} {s' : Server} :
    Answers (processCommand fuel (mgetCommand ks)) s v s' ↔
      (∀ key ∈ ks, m key ≠ none) ∧ v = Plan.values (ks.map m) ∧ s' = s := by
  have hstrings : StringArgs (ks.map bulk) := by
    intro arg harg
    obtain ⟨key, -, rfl⟩ := List.mem_map.mp harg
    exact Option.some_ne_none key
  have hplan : planOf (mgetCommand ks) m =
      if StringArgs (ks.map bulk) ∧ ∀ arg ∈ ks.map bulk, m arg.str ≠ none
      then Plan.reply (Plan.values ((ks.map bulk).map fun arg => m arg.str)) else Plan.undefined := rfl
  rw [answers_processCommand h, hplan, map_str]
  by_cases hall : ∀ key ∈ ks, m key ≠ none
  · have hargs : ∀ arg ∈ ks.map bulk, m arg.str ≠ none := by
      intro arg harg
      obtain ⟨key, hkey, rfl⟩ := List.mem_map.mp harg
      exact hall key hkey
    rw [if_pos ⟨hstrings, hargs⟩, and_iff_right hall]
    exact Iff.rfl
  · rw [if_neg fun hargs => hall fun key hkey => hargs.2 (bulk key) (List.mem_map_of_mem hkey)]
    exact iff_of_false id fun hc => hall hc.1

theorem values_eq_getReplies (h : ∀ key ∈ ks, m key ≠ none) :
    Plan.values (ks.map m) = .array (ks.map (getReply m)) := by
  rw [Plan.values, List.map_map]
  refine congrArg RespValue.array (List.map_congr_left fun key hkey => ?_)
  obtain ⟨val, hval⟩ := Option.ne_none_iff_exists'.mp (h key hkey)
  rw [Function.comp_apply, getReply, hval]
  rfl

/-- `MGET` agrees with `GET` on the lists of stored keys. -/
theorem agreesWithGet_iff (h : s.Denotes m) (fuel : ℕ) (ks : List Bytes) :
    AgreesWithGet fuel s ks ↔ ∀ key ∈ ks, m key ≠ none := by
  constructor
  · rintro ⟨vs, s', hmget, -⟩
    exact ((answers_mgetCommand h).mp hmget).1
  · intro hall
    refine ⟨ks.map (getReply m), s, ?_, ?_⟩
    · rw [answers_mgetCommand h, values_eq_getReplies hall]
      exact ⟨hall, rfl, rfl⟩
    · rw [List.forall₂_map_right_iff, List.forall₂_same]
      exact fun key _ => ⟨s, (answers_getCommand h key).mpr ⟨rfl, rfl⟩⟩

/-- A key that has been set, asked for twice. -/
theorem agreesWithGet_twice : ∃ s, AgreesWithGet 0 s [bytes "a", bytes "a"] := by
  have hguarded := start_guarded (bytes "a") (bytes "b")
  obtain ⟨fuel, s, hs⟩ := stored_of_guarded _ Server.start_denotes hguarded (by decide)
  have hden := hs.denotes_guarded hguarded Server.start_denotes
  exact ⟨s, (agreesWithGet_iff hden 0 _).mpr (by decide)⟩

/-- The key is missing in the empty store. -/
theorem not_agreesWithGet_missing : ¬ AgreesWithGet 0 Server.start [bytes "a"] := by
  rintro ⟨vs, s', hmget, -⟩
  exact ((answers_mgetCommand Server.start_denotes).mp hmget).1 (bytes "a") List.mem_cons_self rfl

end BtreeRedis
