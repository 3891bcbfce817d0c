import BtreeRedis.Server.Commands

/-!
# The commands as steps of a map

What a command comes to depends on its arguments and on the values of the keys it names
only: a reply, and the writes, removals or the scan that it asks of the tree. `plan` says
which, and a handler that returns has answered as its plan says.
-/

namespace BtreeRedis

open SortedAssoc Decimal ApiImpl CommandContext

instance (args : List RespValue) : Decidable (StringArgs args) :=
  inferInstanceAs (Decidable (∀ arg ∈ args, arg.getAsString ≠ none))

instance ScoredStrings.decidable : (args : List RespValue) → Decidable (ScoredStrings args)
  | [] => inferInstanceAs (Decidable True)
  | [score] => inferInstanceAs (Decidable (score.getAsString ≠ none))
  | score :: val :: scorePairs =>
    have := ScoredStrings.decidable scorePairs
    inferInstanceAs (Decidable (score.getAsString ≠ none ∧
      (zeroScore score = true → val.getAsString ≠ none ∧ ScoredStrings scorePairs)))

/-- What a command asks of the server, and its reply. -/
inductive Plan
  | reply (value : RespValue)
  | write (es : List (Bytes × Bytes)) (value : RespValue)
  | erase (ks : List Bytes) (value : RespValue)
  | flush
  | memory
  | scan (min : Bytes) (limit : ℕ)
  | undefined

namespace ApiImpl

def Removals : List Bytes → Server → Server → Prop
  | [], s, s' => s' = s
  | key :: ks, s, s' => ∃ found t, removeImpl key s = .ok (found, t) ∧ Removals ks t s'

end ApiImpl

namespace Plan

def ok : RespValue := simpleString (bytes "OK")

def wrongArguments : RespValue := error (bytes "wrong number of arguments for command")

def noInteger : RespValue := error (bytes "value is not an integer or out of range")

def values (vals : List (Option Bytes)) : RespValue := .array (vals.map .bulkString)

def Carried (fuel : ℕ) : Plan → Server → RespValue → Server → Prop
  | reply value, s, v, s' => v = value ∧ s' = s
  | write es value, s, v, s' => v = value ∧ Stored fuel noGuard es s s'
  | erase ks value, s, v, s' => v = value ∧ Removals ks s s'
  | flush, s, v, s' => v = ok ∧ s' = { s with btree := BTree.empty, free := s.free.tail }
  | memory, s, v, s' => v = .bulkString (some (RespApi.infoText s.btree.approximateMemoryUsage)) ∧ s' = s
  | scan min limit, s, v, s' => ∃ ks, zrange fuel min limit s = .ok (ks, s') ∧ v = values (ks.map some)
  | undefined, _, _, _ => False

def counter (key : Bytes) (amount : ℤ) (m : KeyMap) : Plan :=
  match readCounter (m key) with
  | .error _ => undefined
  | .ok none => reply noInteger
  | .ok (some n) =>
    if InInt64 (n + amount) then write [(key, signedText (n + amount))] (.integer (n + amount)) else undefined

def counterBy (command : List RespValue) (amountOf : ℤ → Except ServerFault ℤ) (m : KeyMap) : Plan :=
  match getArgOrNull command 1, getArgOrNull command 2 with
  | some key, some amountStr =>
    match ArgParsing.parseIntStrict amountStr with
    | .error _ => undefined
    | .ok none => reply noInteger
    | .ok (some amount) =>
      match amountOf amount with
      | .error _ => undefined
      | .ok amount => counter key amount m
  | _, _ => reply wrongArguments

/-- The checks of `onZRange`, in its order. -/
def scanArgs (command : List RespValue) (key minArg limitArg : Bytes) : Except ServerFault Plan :=
  if key ≠ bytes "$ROOT$" then pure (reply (error RespApi.rootError)) else do
  let byLex ← argIs command 4 (bytes "bylex")
  if !byLex then pure (reply (error (bytes "ZRANGE command is only supported with BYLEX"))) else do
  let infinite ← argIs command 3 (bytes "+")
  if !infinite then
    pure (reply (error (bytes "ZRANGE command is only supported with a max of + (infinite)"))) else do
  let limited ← argIs command 5 (bytes "limit")
  if !limited then pure (reply (error (bytes "ZRANGE command requires the LIMIT part"))) else do
  let fromStart ← argIs command 6 (bytes "0")
  if !fromStart then pure (reply (error (bytes "ZRANGE command requires the LIMIT part"))) else do
  match ← ArgParsing.parseIntStrict limitArg with
  | none => pure (reply noInteger)
  | some limit =>
    if minArg.head? ≠ some (ascii '[') then
      pure (reply (error (bytes "ZRANGE min value must start with [")))
    else pure (scan (minArg.drop 1) (limit % 2 ^ 64).toNat)

def orUndefined : Except ServerFault Plan → Plan
  | .error _ => undefined
  | .ok p => p

end Plan

open Plan in
def plan (command : List RespValue) (m : KeyMap) : RespApi.CommandName → Plan
  | .ping => reply (simpleString (bytes "PONG"))
  | .info => memory
  | .get =>
    match getArgOrNull command 1 with
    | none => reply wrongArguments
    | some key => reply ((m key).elim .nullBulkString fun val => .bulkString (some val))
  | .set =>
    match getArgOrNull command 1, getArgOrNull command 2 with
    | some key, some val => write [(key, val)] ok
    | _, _ => reply wrongArguments
  | .del | .exists =>
    if command.length < 2 then reply wrongArguments
    else erase (keysOf (command.drop 1))
      (if StringArgs (command.drop 1) then .integer (m.countErased (keysOf (command.drop 1)))
      else wrongArguments)
  | .incr => (getArgOrNull command 1).elim (reply wrongArguments) fun key => counter key 1 m
  | .decr => (getArgOrNull command 1).elim (reply wrongArguments) fun key => counter key (-1) m
  | .incrby => counterBy command (fun amount => .ok amount) m
  | .decrby => counterBy command (fun amount => checked (-amount)) m
  | .mget =>
    if StringArgs (command.drop 1) ∧ ∀ arg ∈ command.drop 1, m arg.str ≠ none then
      reply (values ((command.drop 1).map fun arg => m arg.str))
    else undefined
  | .mset =>
    if StringArgs (command.drop 1) then write (pairs (command.drop 1)) ok else undefined
  | .zadd =>
    match getArgOrNull command 1 with
    | none => reply wrongArguments
    | some key =>
      if key ≠ bytes "$ROOT$" then reply (error RespApi.rootError)
      else if ScoredStrings (command.drop 2) then
        write (members (command.drop 2))
          (.integer (if allZero (command.drop 2) then ((command.drop 2).length / 2 : ℕ) else -1))
      else undefined
  | .zrange =>
    match getArgOrNull command 1, getArgOrNull command 2, getArgOrNull command 7 with
    | some key, some minArg, some limitArg => orUndefined (scanArgs command key minArg limitArg)
    | _, _, _ => reply wrongArguments
  | .flushall => flush

def planOf (command : List RespValue) (m : KeyMap) : Plan :=
  match getArgOrNull command 0 with
  | none => .reply Plan.wrongArguments
  | some rootCommand =>
    match RespApi.commandMap.lookup (toLowerCopy rootCommand) with
    | none => .reply (RespApi.unknownCommand rootCommand)
    | some name => plan command m name

def mgetCommand (ks : List Bytes) : List RespValue := bulk (bytes "MGET") :: ks.map bulk

def getCommand (key : Bytes) : List RespValue := [bulk (bytes "GET"), bulk key]

/-- The limit as `resp_api` passes it. -/
def limitOf (n : ℤ) : ℕ := (n % 2 ^ 64).toNat

def zrangeCommand (min limitArg : Bytes) : List RespValue :=
  [bytes "ZRANGE", bytes "$ROOT$", ascii '[' :: min, bytes "+", bytes "BYLEX", bytes "LIMIT", bytes "0", limitArg].map
    bulk

theorem planOf_zrangeCommand {min limitArg : Bytes} {n : ℤ} {m : KeyMap}
    (hn : ArgParsing.parseIntStrict limitArg = .ok (some n)) :
    planOf (zrangeCommand min limitArg) m = .scan min (limitOf n) := by
  have hbyLex : argIs (zrangeCommand min limitArg) 4 (bytes "bylex") = .ok true := rfl
  have hinfinite : argIs (zrangeCommand min limitArg) 3 (bytes "+") = .ok true := rfl
  have hlimited : argIs (zrangeCommand min limitArg) 5 (bytes "limit") = .ok true := rfl
  have hfromStart : argIs (zrangeCommand min limitArg) 6 (bytes "0") = .ok true := rfl
  have hargs : planOf (zrangeCommand min limitArg) m =
      Plan.orUndefined (Plan.scanArgs (zrangeCommand min limitArg) (bytes "$ROOT$") (ascii '[' :: min) limitArg) :=
    rfl
  rw [hargs, Plan.scanArgs, if_neg (not_not.mpr rfl), hbyLex, hinfinite, hlimited, hfromStart, hn]
  rfl

section Answers

variable {fuel : ℕ} {s s' : Server} {m : KeyMap} {v u : RespValue} {key : Bytes} {command : List RespValue}

theorem answers_reply (h : ∃ w, u.writeValue = .ok w) :
    Answers (respond u) s v s' ↔ v = u ∧ s' = s := by
  rw [answers_respond]
  exact and_congr_right fun _ => and_iff_left h

theorem answers_wrongArguments :
    Answers respondErrorWrongArguments s v s' ↔ v = Plan.wrongArguments ∧ s' = s :=
  answers_reply ⟨_, rfl⟩

theorem answers_noInteger :
    Answers respondErrorNoInteger s v s' ↔ v = Plan.noInteger ∧ s' = s :=
  answers_reply ⟨_, rfl⟩

theorem writeItems_values (vals : List (Option Bytes)) :
    (∃ w, RespValue.writeItems (vals.map .bulkString) = .ok w) ↔ ∀ val ∈ vals, val ≠ none := by
  induction vals with
  | nil => exact ⟨fun _ _ h => absurd h List.not_mem_nil, fun _ => ⟨_, rfl⟩⟩
  | cons val vals ih =>
    simp only [List.map_cons, RespValue.writeItems, RespValue.writeValue, bind_eq_ok, pure_eq_ok,
      deref_eq_ok, List.forall_mem_cons, ← ih]
    constructor
    · rintro ⟨_, _, ⟨str, rfl, -⟩, w, hw, -⟩
      exact ⟨Option.some_ne_none str, w, hw⟩
    · rintro ⟨hval, w, hw⟩
      obtain ⟨str, rfl⟩ := Option.ne_none_iff_exists'.mp hval
      exact ⟨_, _, ⟨str, rfl, rfl⟩, w, hw, rfl⟩

theorem writeValue_values {vals : List (Option Bytes)} :
    (∃ w, (Plan.values vals).writeValue = .ok w) ↔ ∀ val ∈ vals, val ≠ none := by
  rw [← writeItems_values, Plan.values]
  simp only [RespValue.writeValue, bind_eq_ok, pure_eq_ok]
  constructor
  · rintro ⟨_, w, hw, _⟩
    exact ⟨w, hw⟩
  · rintro ⟨w, hw⟩
    exact ⟨_, w, hw, rfl⟩

namespace RespApi

theorem answers_get (h : s.Denotes m) (key : Bytes) :
    Answers (do
      match ← api (ApiImpl.get key) with
      | none => respond .nullBulkString
      | some val => respond (.bulkString (some val))) s v s' ↔
      (Plan.reply ((m key).elim .nullBulkString fun val => .bulkString (some val))).Carried fuel s v s' := by
  have hval : ∀ val : Option Bytes, Answers (match val with
      | none => respond .nullBulkString
      | some val => respond (.bulkString (some val))) s v s' ↔
      v = (val.elim .nullBulkString fun val => .bulkString (some val)) ∧ s' = s := by
    intro val
    cases val with
    | none => exact answers_reply ⟨_, rfl⟩
    | some val => exact answers_reply ⟨_, rfl⟩
  rw [answers_api_bind]
  constructor
  · rintro ⟨val, t, hget, hv⟩
    obtain ⟨rfl, rfl⟩ := Prod.mk.inj (Except.ok.inj (hget.symm.trans (get_spec h key)))
    exact (hval _).mp hv
  · exact fun hv => ⟨m key, s, get_spec h key, (hval _).mpr hv⟩

theorem answers_ok {f : Api Unit} {es : List (Bytes × Bytes)}
    (hf : ∀ t, f s = .ok ((), t) ↔ Stored fuel noGuard es s t) :
    Answers (do api f; respondOk) s v s' ↔ (Plan.write es Plan.ok).Carried fuel s v s' := by
  rw [answers_api_bind]
  constructor
  · rintro ⟨_, t, ht, hv⟩
    obtain ⟨rfl, rfl⟩ := (answers_reply ⟨_, rfl⟩).mp hv
    exact ⟨rfl, (hf _).mp ht⟩
  · rintro ⟨rfl, hs⟩
    exact ⟨(), s', (hf s').mpr hs, (answers_reply ⟨_, rfl⟩).mpr ⟨rfl, rfl⟩⟩

theorem answers_countLoop (h : s.Denotes m) (args : List RespValue) (count : ℤ) :
    Answers (countLoop removeImpl args count) s v s' ↔
      (Plan.erase (keysOf args) (if StringArgs args then .integer (count + m.countErased (keysOf args))
        else Plan.wrongArguments)).Carried fuel s v s' := by
  induction args generalizing s m count with
  | nil =>
    rw [countLoop, answers_reply ⟨_, rfl⟩]
    simp [Plan.Carried, StringArgs, keysOf, KeyMap.countErased, Removals]
  | cons arg args ih =>
    have hall : StringArgs (arg :: args) ↔ arg.getAsString ≠ none ∧ StringArgs args := List.forall_mem_cons
    simp only [countLoop, keysOf, hall, Plan.Carried]
    cases harg : arg.getAsString with
    | none =>
      simp only [answers_wrongArguments, ne_eq, not_true, false_and, if_true, if_false, Removals]
    | some key =>
      obtain ⟨t, hr, hden, -, -⟩ := removeImpl_spec h key
      have hstr : arg.str = key := by rw [RespValue.str, harg]; rfl
      simp only [hstr, ne_eq, reduceCtorEq, not_false_eq_true, true_and, if_false, answers_api_bind,
        Removals, KeyMap.countErased, hr, Except.ok.injEq, Prod.mk.injEq]
      have hcount : (if (m key).isSome = true then count + 1 else count) +
          ((m.erase key).countErased (keysOf args) : ℤ) =
          count + (((if (m key).isSome then 1 else 0) + (m.erase key).countErased (keysOf args) : ℕ) : ℤ) := by
        split_ifs <;> push_cast <;> ring
      rw [← hcount]
      constructor
      · rintro ⟨_, _, ⟨rfl, rfl⟩, hv⟩
        obtain ⟨rfl, hs⟩ := (ih hden _).mp hv
        exact ⟨rfl, _, _, ⟨rfl, rfl⟩, hs⟩
      · rintro ⟨rfl, _, _, ⟨rfl, rfl⟩, hs⟩
        exact ⟨_, _, ⟨rfl, rfl⟩, (ih hden _).mpr ⟨rfl, hs⟩⟩

theorem answers_countKeys (h : s.Denotes m) :
    Answers (countKeys command removeImpl) s v s' ↔ (plan command m .del).Carried fuel s v s' := by
  rw [countKeys, plan]
  split_ifs with hlen hargs
  · exact answers_wrongArguments
  · rw [answers_countLoop h, if_pos hargs, zero_add]
  · rw [answers_countLoop h, if_neg hargs]

theorem answers_increment (h : s.Denotes m) (key : Bytes) (amount : ℤ) :
    Answers (do
      match ← api (ApiImpl.increment fuel key amount) with
      | none => respondErrorNoInteger
      | some result => respond (.integer result)) s v s' ↔
      (Plan.counter key amount m).Carried fuel s v s' := by
  have hread : ∀ result t, increment fuel key amount s = .ok (result, t) ↔
      (readCounter (m key) = .ok none ∧ result = none ∧ t = s) ∨
      ∃ n, readCounter (m key) = .ok (some n) ∧ InInt64 (n + amount) ∧ result = some (n + amount) ∧
        Stored fuel noGuard [(key, signedText (n + amount))] s t := fun _ _ => increment_eq_ok h
  simp only [answers_api_bind, hread, Plan.counter]
  cases hc : readCounter (m key) with
  | error f => simp [Plan.Carried]
  | ok n =>
    cases n with
    | none =>
      constructor
      · rintro ⟨_, _, ⟨-, rfl, rfl⟩ | ⟨_, hn, -⟩, hv⟩
        · exact answers_noInteger.mp hv
        · cases hn
      · exact fun hv => ⟨none, s, Or.inl ⟨rfl, rfl, rfl⟩, answers_noInteger.mpr hv⟩
    | some n =>
      dsimp only
      split_ifs with hin
      · constructor
        · rintro ⟨_, t, ⟨hn, -⟩ | ⟨_, ⟨⟩, -, rfl, hs⟩, hv⟩
          · cases hn
          · obtain ⟨rfl, rfl⟩ := (answers_reply ⟨_, rfl⟩).mp hv
            exact ⟨rfl, hs⟩
        · rintro ⟨rfl, hs⟩
          exact ⟨_, s', Or.inr ⟨n, rfl, hin, rfl, hs⟩, (answers_reply ⟨_, rfl⟩).mpr ⟨rfl, rfl⟩⟩
      · constructor
        · rintro ⟨_, t, ⟨hn, -⟩ | ⟨_, ⟨⟩, hin', -⟩, hv⟩
          · cases hn
          · exact hin hin'
        · exact False.elim

theorem answers_incrementBy (h : s.Denotes m) (amount : ℤ) :
    Answers (incrementBy fuel command amount) s v s' ↔
      ((getArgOrNull command 1).elim (Plan.reply Plan.wrongArguments)
        fun key => Plan.counter key amount m).Carried fuel s v s' := by
  unfold incrementBy
  cases getArgOrNull command 1 with
  | none => exact answers_wrongArguments
  | some key => exact answers_increment h key amount

theorem answers_incrementByArg (h : s.Denotes m) (amountOf : ℤ → Except ServerFault ℤ) :
    Answers (incrementByArg fuel command amountOf) s v s' ↔
      (Plan.counterBy command amountOf m).Carried fuel s v s' := by
  unfold incrementByArg Plan.counterBy
  cases getArgOrNull command 1 with
  | none => exact answers_wrongArguments
  | some key =>
    cases getArgOrNull command 2 with
    | none => exact answers_wrongArguments
    | some amountStr =>
      simp only [answers_lift_bind]
      cases ArgParsing.parseIntStrict amountStr with
      | error f => simp [Plan.Carried]
      | ok amount =>
        simp only [Except.ok.injEq, exists_eq_left']
        cases amount with
        | none => exact answers_noInteger
        | some amount =>
          simp only [answers_lift_bind]
          cases amountOf amount with
          | error f => simp [Plan.Carried]
          | ok amount =>
            simp only [Except.ok.injEq, exists_eq_left']
            exact answers_increment h key amount

theorem answers_mget (h : s.Denotes m) :
    Answers (onMGet command) s v s' ↔ (plan command m .mget).Carried fuel s v s' := by
  simp only [onMGet, answers_api_bind, mget_eq_ok h, plan]
  have hvalues : ∀ {vals : List (Option Bytes)}, Answers (respond (Plan.values vals)) s v s' ↔
      (v = Plan.values vals ∧ s' = s) ∧ ∀ val ∈ vals, val ≠ none := by
    intro vals
    rw [answers_respond, writeValue_values, and_assoc]
  constructor
  · rintro ⟨_, _, ⟨hargs, rfl, rfl⟩, hv⟩
    obtain ⟨hv, hall⟩ := hvalues.mp hv
    rw [if_pos ⟨hargs, fun arg harg => hall _ (List.mem_map_of_mem harg)⟩]
    exact hv
  · intro hv
    split_ifs at hv with hargs
    · refine ⟨_, s, ⟨hargs.1, rfl, rfl⟩, hvalues.mpr ⟨hv, fun val hval => ?_⟩⟩
      obtain ⟨arg, harg, rfl⟩ := List.mem_map.mp hval
      exact hargs.2 arg harg
    · exact hv.elim

theorem answers_mset : Answers (onMSet fuel command) s v s' ↔
    (plan command m .mset).Carried fuel s v s' := by
  rw [plan]
  split_ifs with hargs
  · exact answers_ok fun t => by rw [mset_eq_ok, and_iff_right hargs]
  · rw [onMSet, answers_api_bind]
    exact ⟨fun ⟨_, _, hr, _⟩ => hargs ((mset_eq_ok _).mp hr).1, False.elim⟩

theorem zadd_eq_ok {args : List RespValue} {result : ℤ} :
    zadd fuel args s = .ok (result, s') ↔ ScoredStrings args ∧
      result = (if allZero args then ((args.length / 2 : ℕ) : ℤ) else -1) ∧
      Stored fuel noGuard (members args) s s' := by
  simp only [zadd, state_bind_eq_ok, zaddLoop_eq_ok]
  constructor
  · rintro ⟨_, t, ⟨hargs, rfl, hs⟩, hr⟩
    split_ifs at hr ⊢ <;> obtain ⟨rfl, rfl⟩ := state_pure_eq_ok.mp hr <;> exact ⟨hargs, rfl, hs⟩
  · rintro ⟨hargs, rfl, hs⟩
    refine ⟨_, s', ⟨hargs, rfl, hs⟩, ?_⟩
    split_ifs <;> exact state_pure_eq_ok.mpr ⟨rfl, rfl⟩

theorem answers_zadd : Answers (onZAdd fuel command) s v s' ↔
    (plan command m .zadd).Carried fuel s v s' := by
  unfold onZAdd plan
  cases getArgOrNull command 1 with
  | none => exact answers_wrongArguments
  | some key =>
    dsimp only
    by_cases hroot : key ≠ bytes "$ROOT$"
    · rw [if_pos hroot, if_pos hroot]
      exact answers_reply ⟨_, rfl⟩
    · rw [if_neg hroot, if_neg hroot, answers_api_bind]
      by_cases hargs : ScoredStrings (command.drop 2)
      · rw [if_pos hargs]
        constructor
        · rintro ⟨result, t, hr, hv⟩
          obtain ⟨-, rfl, hs⟩ := zadd_eq_ok.mp hr
          obtain ⟨rfl, rfl⟩ := (answers_reply ⟨_, rfl⟩).mp hv
          exact ⟨rfl, hs⟩
        · rintro ⟨rfl, hs⟩
          exact ⟨_, s', zadd_eq_ok.mpr ⟨hargs, rfl, hs⟩, (answers_reply ⟨_, rfl⟩).mpr ⟨rfl, rfl⟩⟩
      · rw [if_neg hargs]
        exact ⟨fun ⟨_, _, hr, _⟩ => hargs (zadd_eq_ok.mp hr).1, False.elim⟩

theorem answers_check {α : Type} {x : Except ServerFault α} {k : α → Handler Unit}
    {p : α → Except ServerFault Plan}
    (hk : ∀ a, Answers (k a) s v s' ↔ (Plan.orUndefined (p a)).Carried fuel s v s') :
    Answers ((liftM x : Handler α) >>= k) s v s' ↔ (Plan.orUndefined (x >>= p)).Carried fuel s v s' := by
  rw [answers_lift_bind]
  cases x with
  | error f => exact ⟨fun ⟨_, he, _⟩ => (nomatch he), False.elim⟩
  | ok a => exact ⟨fun ⟨_, he, hv⟩ => (hk a).mp (Except.ok.inj he ▸ hv), fun hv => ⟨a, rfl, (hk a).mpr hv⟩⟩

theorem answers_unless {p : Prop} [Decidable p] {g : Handler Unit} {q : Except ServerFault Plan}
    (hu : ∃ w, u.writeValue = .ok w)
    (hg : Answers g s v s' ↔ (Plan.orUndefined q).Carried fuel s v s') :
    Answers (if p then respond u else g) s v s' ↔
      (Plan.orUndefined (if p then pure (.reply u) else q)).Carried fuel s v s' := by
  by_cases h : p
  · rw [if_pos h, if_pos h]
    exact answers_reply hu
  · rw [if_neg h, if_neg h]
    exact hg

theorem answers_scan {min : Bytes} {limit : ℕ} :
    Answers (do
      let result ← api (zrange fuel min limit)
      respond (.array (result.map fun key => .bulkString (some key)))) s v s' ↔
      (Plan.scan min limit).Carried fuel s v s' := by
  have hvalues : ∀ {ks : List Bytes} {t : Server},
      Answers (respond (.array (ks.map fun key => .bulkString (some key)))) t v s' ↔
      v = Plan.values (ks.map some) ∧ s' = t := by
    intro ks t
    have hmap : RespValue.array (ks.map fun key => .bulkString (some key)) = Plan.values (ks.map some) := by
      rw [Plan.values, List.map_map]
      rfl
    rw [hmap, answers_reply (writeValue_values.mpr fun val hval => ?_)]
    obtain ⟨key, -, rfl⟩ := List.mem_map.mp hval
    exact Option.some_ne_none key
  rw [answers_api_bind]
  constructor
  · rintro ⟨ks, t, hr, hv⟩
    obtain ⟨rfl, rfl⟩ := hvalues.mp hv
    exact ⟨ks, hr, rfl⟩
  · rintro ⟨ks, hr, rfl⟩
    exact ⟨ks, s', hr, hvalues.mpr ⟨rfl, rfl⟩⟩

theorem answers_zrange : Answers (onZRange fuel command) s v s' ↔
    (plan command m .zrange).Carried fuel s v s' := by
  unfold onZRange plan
  cases getArgOrNull command 1 with
  | none => exact answers_wrongArguments
  | some key =>
  cases getArgOrNull command 2 with
  | none => exact answers_wrongArguments
  | some minArg =>
  cases getArgOrNull command 7 with
  | none => exact answers_wrongArguments
  | some limitArg =>
    dsimp only
    unfold Plan.scanArgs
    refine answers_unless ⟨_, rfl⟩ ?_
    refine answers_check fun byLex => answers_unless ⟨_, rfl⟩ ?_
    refine answers_check fun infinite => answers_unless ⟨_, rfl⟩ ?_
    refine answers_check fun limited => answers_unless ⟨_, rfl⟩ ?_
    refine answers_check fun fromStart => answers_unless ⟨_, rfl⟩ ?_
    refine answers_check fun limit => ?_
    cases limit with
    | none => exact answers_noInteger
    | some limit => exact answers_unless ⟨_, rfl⟩ answers_scan

theorem answers_commandFn (h : s.Denotes m) (name : CommandName) :
    Answers (commandFn fuel command name) s v s' ↔ (plan command m name).Carried fuel s v s' := by
  cases name
  case ping => exact answers_reply ⟨_, rfl⟩
  case info =>
    rw [commandFn, onInfo, answers_api_bind]
    constructor
    · rintro ⟨_, _, hr, hv⟩
      cases hr
      exact (answers_reply ⟨_, rfl⟩).mp hv
    · exact fun hv => ⟨_, s, rfl, (answers_reply ⟨_, rfl⟩).mpr hv⟩
  case get =>
    unfold commandFn onGet plan
    cases getArgOrNull command 1 with
    | none => exact answers_wrongArguments
    | some key => exact answers_get h key
  case set =>
    unfold commandFn onSet plan
    cases getArgOrNull command 1 with
    | none => exact answers_wrongArguments
    | some key =>
      cases getArgOrNull command 2 with
      | none => exact answers_wrongArguments
      | some val => exact answers_ok fun t => set_eq_ok
  case del => exact answers_countKeys h
  case «exists» => exact answers_countKeys h
  case incr => exact answers_incrementBy h 1
  case incrby => exact answers_incrementByArg h _
  case decr => exact answers_incrementBy h (-1)
  case decrby => exact answers_incrementByArg h _
  case mget => exact answers_mget h
  case mset => exact answers_mset
  case zadd => exact answers_zadd
  case zrange => exact answers_zrange
  case flushall =>
    rw [commandFn, onFlushAll, answers_api_bind]
    constructor
    · rintro ⟨_, _, hr, hv⟩
      cases hr
      exact (answers_reply ⟨_, rfl⟩).mp hv
    · exact fun hv => ⟨(), _, rfl, (answers_reply ⟨_, rfl⟩).mpr hv⟩

theorem answers_processCommand (h : s.Denotes m) :
    Answers (processCommand fuel command) s v s' ↔ (planOf command m).Carried fuel s v s' := by
  unfold processCommand planOf
  cases getArgOrNull command 0 with
  | none => exact answers_wrongArguments
  | some rootCommand =>
    dsimp only
    cases commandMap.lookup (toLowerCopy rootCommand) with
    | none => exact answers_reply ⟨_, rfl⟩
    | some name => exact answers_commandFn h name

end RespApi

end Answers

end BtreeRedis
