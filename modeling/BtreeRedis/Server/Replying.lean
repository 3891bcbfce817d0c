import BtreeRedis.Server.Scans
import BtreeRedis.Server.Writes

/-!
# When a command is answered

A command is answered unless a null string is read, an `int64_t` overflows or the tree
does not come back. The first two are a matter of the arguments and of the values of the
keys that they name, the last one of what is written or of the leaves that are scanned.
-/

namespace BtreeRedis

open SortedAssoc Decimal ApiImpl CommandContext RespApi

def CounterOk (m : KeyMap) (key : Bytes) (amount : ℤ) : Prop :=
  ∃ val, readCounter (m key) = .ok val ∧ ∀ n, val = some n → InInt64 (n + amount)

def AmountOk (m : KeyMap) (key amountStr : Bytes) (sign : ℤ) : Prop :=
  ∃ val, ArgParsing.parseIntStrict amountStr = .ok val ∧ ∀ n, val = some n → CounterOk m key (sign * n)

/-- The arguments do not make the handler read a null string or overflow. -/
def Proper (command : List RespValue) (m : KeyMap) : CommandName → Prop
  | .incr => ∀ key, getArgOrNull command 1 = some key → CounterOk m key 1
  | .decr => ∀ key, getArgOrNull command 1 = some key → CounterOk m key (-1)
  | .incrby => ∀ key amountStr, getArgOrNull command 1 = some key → getArgOrNull command 2 = some amountStr →
      AmountOk m key amountStr 1
  | .decrby => ∀ key amountStr, getArgOrNull command 1 = some key → getArgOrNull command 2 = some amountStr →
      AmountOk m key amountStr (-1)
  | .mget => StringArgs (command.drop 1) ∧ ∀ arg ∈ command.drop 1, m arg.str ≠ none
  | .mset => StringArgs (command.drop 1)
  | .zadd => getArgOrNull command 1 = some (bytes "$ROOT$") → ScoredStrings (command.drop 2)
  | .zrange => ∀ key minArg limitArg, getArgOrNull command 1 = some key → getArgOrNull command 2 = some minArg →
      getArgOrNull command 7 = some limitArg → ∃ p, Plan.scanArgs command key minArg limitArg = .ok p
  | _ => True

variable {fuel : ℕ} {s s' : Server} {m : KeyMap} {v : RespValue} {command : List RespValue}
  {name : CommandName} {key : Bytes}

namespace Plan

theorem counter_ne_undefined {amount : ℤ} : counter key amount m ≠ undefined ↔ CounterOk m key amount := by
  unfold counter CounterOk
  cases readCounter (m key) with
  | error f => simp
  | ok val =>
    cases val with
    | none => simp
    | some n =>
      dsimp only
      split_ifs with hin
      · simpa using hin
      · simpa using hin

theorem incr_ne_undefined {amount : ℤ} :
    (getArgOrNull command 1).elim (reply wrongArguments) (fun key => counter key amount m) ≠ undefined ↔
      ∀ key, getArgOrNull command 1 = some key → CounterOk m key amount := by
  cases getArgOrNull command 1 with
  | none => simp
  | some key => simpa using counter_ne_undefined

theorem counterBy_ne_undefined {amountOf : ℤ → Except ServerFault ℤ} {sign : ℤ}
    (ha : ∀ n : ℤ, n.natAbs ≤ int64Max → amountOf n = .ok (sign * n)) :
    counterBy command amountOf m ≠ undefined ↔ ∀ key amountStr, getArgOrNull command 1 = some key →
      getArgOrNull command 2 = some amountStr → AmountOk m key amountStr sign := by
  unfold counterBy
  cases getArgOrNull command 1 with
  | none => simp
  | some key =>
    cases getArgOrNull command 2 with
    | none => simp
    | some amountStr =>
      have hall : (∀ k a, some key = some k → some amountStr = some a → AmountOk m k a sign) ↔
          AmountOk m key amountStr sign :=
        ⟨fun h => h key amountStr rfl rfl, fun h k a hk ha => Option.some.inj hk ▸ Option.some.inj ha ▸ h⟩
      rw [hall, AmountOk]
      dsimp only
      cases hp : ArgParsing.parseIntStrict amountStr with
      | error f => simp
      | ok val =>
        cases val with
        | none => simp
        | some n =>
          dsimp only
          rw [ha n (ArgParsing.parseIntStrict_bound hp)]
          simpa using counter_ne_undefined

theorem scan_ne_undefined {x : Except ServerFault Plan} (hx : ∀ p, x = .ok p → p ≠ undefined) :
    orUndefined x ≠ undefined ↔ ∃ p, x = .ok p := by
  cases x with
  | error f => simp [orUndefined]
  | ok p => simpa [orUndefined] using hx p rfl

theorem scanArgs_cases {key minArg limitArg : Bytes} {p : Plan} (h : scanArgs command key minArg limitArg = .ok p) :
    (∃ u, p = reply u) ∨ ∃ min limit, p = scan min limit := by
  have hreply : ∀ {u : RespValue}, (pure (reply u) : Except ServerFault Plan) = .ok p →
      (∃ u, p = reply u) ∨ ∃ min limit, p = scan min limit := fun hp => Or.inl ⟨_, (Except.ok.inj hp).symm⟩
  have hunless : ∀ {c : Prop} [Decidable c] {u : RespValue} {x : Except ServerFault Plan},
      (x = .ok p → (∃ u, p = reply u) ∨ ∃ min limit, p = scan min limit) →
      (if c then pure (reply u) else x) = .ok p → (∃ u, p = reply u) ∨ ∃ min limit, p = scan min limit := by
    intro c _ u x hx hp
    split_ifs at hp
    · exact hreply hp
    · exact hx hp
  have hcheck : ∀ {α : Type} {y : Except ServerFault α} {x : α → Except ServerFault Plan},
      (∀ a, x a = .ok p → (∃ u, p = reply u) ∨ ∃ min limit, p = scan min limit) →
      (y >>= x) = .ok p → (∃ u, p = reply u) ∨ ∃ min limit, p = scan min limit := by
    intro α y x hx hp
    obtain ⟨a, -, hp⟩ := bind_eq_ok.mp hp
    exact hx a hp
  unfold scanArgs at h
  refine hunless (hcheck fun _ => ?_) h
  refine hunless (hcheck fun _ => ?_)
  refine hunless (hcheck fun _ => ?_)
  refine hunless (hcheck fun _ => ?_)
  refine hunless (hcheck fun limit hp => ?_)
  cases limit with
  | none => exact hreply hp
  | some limit => exact hunless (fun hscan => Or.inr ⟨_, _, (Except.ok.inj hscan).symm⟩) hp

theorem scanArgs_ne_undefined {key minArg limitArg : Bytes} {p : Plan}
    (h : scanArgs command key minArg limitArg = .ok p) : p ≠ undefined := by
  rcases scanArgs_cases h with ⟨u, rfl⟩ | ⟨min, limit, rfl⟩
  · simp
  · simp

end Plan

theorem ite_ne_undefined {c : Prop} [Decidable c] {p : Plan} (hp : p ≠ .undefined) :
    (if c then p else .undefined) ≠ .undefined ↔ c := by
  split_ifs with h
  · exact iff_of_true hp h
  · exact iff_of_false (fun hn => hn rfl) h

theorem plus_amountOf (n : ℤ) (_ : n.natAbs ≤ int64Max) : (Except.ok n : Except ServerFault ℤ) = .ok (1 * n) := by
  rw [one_mul]

theorem minus_amountOf (n : ℤ) (hn : n.natAbs ≤ int64Max) : checked (-n) = .ok (-1 * n) := by
  rw [neg_one_mul]
  exact checked_eq_ok.mpr ⟨ArgParsing.inInt64_of_natAbs (by rwa [Int.natAbs_neg]), rfl⟩

theorem plan_ne_undefined (name : CommandName) : plan command m name ≠ .undefined ↔ Proper command m name := by
  cases name
  case incr => exact Plan.incr_ne_undefined
  case decr => exact Plan.incr_ne_undefined
  case incrby => exact Plan.counterBy_ne_undefined plus_amountOf
  case decrby => exact Plan.counterBy_ne_undefined minus_amountOf
  case mget => exact ite_ne_undefined (by simp)
  case mset => exact ite_ne_undefined (by simp)
  case zadd =>
    unfold plan Proper
    cases getArgOrNull command 1 with
    | none => simp
    | some key =>
      simp only [Option.some.injEq]
      by_cases hroot : key = bytes "$ROOT$"
      · rw [if_neg (not_not.mpr hroot), ite_ne_undefined (by simp), imp_iff_right hroot]
      · rw [if_pos hroot]
        exact iff_of_true (by simp) fun he => absurd he hroot
  case zrange =>
    unfold plan Proper
    cases getArgOrNull command 1 with
    | none => simp
    | some key =>
    cases getArgOrNull command 2 with
    | none => simp
    | some minArg =>
    cases getArgOrNull command 7 with
    | none => simp
    | some limitArg =>
      refine (Plan.scan_ne_undefined fun _ => Plan.scanArgs_ne_undefined).trans ?_
      refine ⟨fun h k a l hk ha hl => ?_, fun h => h key minArg limitArg rfl rfl rfl⟩
      cases hk; cases ha; cases hl
      exact h
  case get =>
    refine iff_of_true ?_ trivial
    unfold plan
    cases getArgOrNull command 1 <;> simp
  case set =>
    refine iff_of_true ?_ trivial
    unfold plan
    cases getArgOrNull command 1 <;> cases getArgOrNull command 2 <;> simp
  case del =>
    refine iff_of_true ?_ trivial
    unfold plan
    split_ifs <;> simp
  case «exists» =>
    refine iff_of_true ?_ trivial
    unfold plan
    split_ifs <;> simp
  case ping => exact iff_of_true (by simp [plan]) trivial
  case info => exact iff_of_true (by simp [plan]) trivial
  case flushall => exact iff_of_true (by simp [plan]) trivial

def Answerable (command : List RespValue) (m : KeyMap) : Prop :=
  ∀ name, commandName command = some name → Proper command m name

theorem planOf_ne_undefined : planOf command m ≠ .undefined ↔ Answerable command m := by
  cases hname : commandName command with
  | some name =>
    rw [planOf_of_name hname, plan_ne_undefined, Answerable, hname]
    exact ⟨fun h n hn => Option.some.inj hn ▸ h, fun h => h name rfl⟩
  | none =>
    refine iff_of_true ?_ fun name hn => (nomatch hname.symm.trans hn)
    unfold planOf
    cases hroot : getArgOrNull command 0 with
    | none => simp
    | some rootCommand =>
      rw [commandName, hroot, Option.bind_some] at hname
      dsimp only
      rw [hname]
      simp

def Plan.Scannable (s : Server) : Plan → Prop
  | .scan min limit => s.CanScan min limit
  | _ => True

instance (s : Server) : (p : Plan) → Decidable (p.Scannable s)
  | .scan _ _ => inferInstanceAs (Decidable (s.CanScan _ _))
  | .reply _ | .write _ _ | .erase _ _ | .flush | .memory | .undefined => isTrue trivial

theorem carried_iff (h : s.Denotes m) (p : Plan) (hg : Guarded p.writes s) :
    (∃ fuel v s', p.Carried fuel s v s') ↔ p ≠ .undefined ∧ Fits p.writes ∧ p.Scannable s := by
  have hnil : Fits [] := fun e he => absurd he List.not_mem_nil
  cases p with
  | write es value =>
    have hs := stored_iff h hg
    simp only [Plan.Carried, Plan.writes, Plan.Scannable, exists_eq_left, exists_and_left] at hs ⊢
    simpa using hs
  | erase ks value =>
    obtain ⟨t, ht, -⟩ := removals_denotes ks h
    exact iff_of_true ⟨0, value, t, rfl, ht⟩ ⟨by simp, hnil, trivial⟩
  | scan min limit =>
    rw [Plan.Scannable, ← zrange_returns_iff h]
    constructor
    · rintro ⟨fuel, _, s', ks, hr, -⟩
      exact ⟨by simp, hnil, fuel, ks, s', hr⟩
    · rintro ⟨-, -, fuel, ks, s', hr⟩
      exact ⟨fuel, _, s', ks, hr, rfl⟩
  | reply value => exact iff_of_true ⟨0, value, s, rfl, rfl⟩ ⟨by simp, hnil, trivial⟩
  | flush => exact iff_of_true ⟨0, _, _, rfl, rfl⟩ ⟨by simp, hnil, trivial⟩
  | memory => exact iff_of_true ⟨0, _, s, rfl, rfl⟩ ⟨by simp, hnil, trivial⟩
  | undefined =>
    refine iff_of_false ?_ fun hn => hn.1 rfl
    rintro ⟨_, _, _, hc⟩
    exact hc

theorem replies_iff (h : s.Denotes m) :
    (∃ fuel c', processCommand fuel command ⟨s, []⟩ = .ok ((), c') ∧ c'.sent.length = 1) ↔
      ∃ fuel v s', (planOf command m).Carried fuel s v s' := by
  constructor
  · rintro ⟨fuel, c', hr, -⟩
    obtain ⟨v, w, -, -, hv, -⟩ := (sends_processCommand fuel command).sent hr
    exact ⟨fuel, v, c'.server, (answers_processCommand h).mp hv⟩
  · rintro ⟨fuel, v, s', hc⟩
    obtain ⟨w, -, hs⟩ := (answers_processCommand h).mpr hc
    exact ⟨fuel, _, hs [], rfl⟩

/-- A command returns with one reply exactly if its arguments are proper, the entries that it
writes are of admissible sizes and the buffer takes what the leaves that it scans write to it. -/
theorem one_reply_iff (h : s.Denotes m) (hg : Guarded (planOf command m).writes s) :
    (∃ fuel c', processCommand fuel command ⟨s, []⟩ = .ok ((), c') ∧ c'.sent.length = 1) ↔
      Answerable command m ∧ Fits (planOf command m).writes ∧ (planOf command m).Scannable s := by
  rw [replies_iff h, carried_iff h _ hg, planOf_ne_undefined]

/-- A `ZRANGE` that passes a dense leaf and goes on in a basic one. -/
theorem one_reply_scan : ∃ s : Server, s.Denotes (KeyMap.empty.setAll sixKeys) ∧
    ∃ fuel c', processCommand fuel (zrangeCommand [2] (bytes "3")) ⟨s, []⟩ = .ok ((), c') ∧ c'.sent.length = 1 := by
  have hrun : storeReaches 4 sixKeys (fun s => decide (s.CanScan [2] (limitOf 3))) = true := by
    decide +kernel
  obtain ⟨s, hden, hscan⟩ := storeReaches_spec hrun
  have hplan : planOf (zrangeCommand [2] (bytes "3")) (KeyMap.empty.setAll sixKeys) = .scan [2] (limitOf 3) :=
    planOf_zrangeCommand (by decide)
  have hne : planOf (zrangeCommand [2] (bytes "3")) (KeyMap.empty.setAll sixKeys) ≠ .undefined := by
    rw [hplan]
    simp
  have hg : Guarded (planOf (zrangeCommand [2] (bytes "3")) (KeyMap.empty.setAll sixKeys)).writes s := by
    rw [hplan]
    trivial
  refine ⟨s, hden, (one_reply_iff hden hg).mpr ⟨planOf_ne_undefined.mp hne, ?_, ?_⟩⟩
  · rw [hplan]
    exact fun e he => absurd he List.not_mem_nil
  · rw [hplan]
    exact hscan

/-- `MGET a` where `a` is not stored. -/
theorem no_reply_mget : ¬ ∀ (s : Server) (m : KeyMap) (command : List RespValue), s.Denotes m →
    (∀ arg ∈ command, ∃ str, arg = .bulkString (some str)) →
    ∃ fuel c', processCommand fuel command ⟨s, []⟩ = .ok ((), c') ∧ c'.sent.length = 1 := by
  intro hall
  have hbulk : ∀ arg ∈ [bytes "MGET", bytes "a"].map bulk,
      ∃ str, arg = .bulkString (some str) := fun arg harg => by
    obtain ⟨str, -, rfl⟩ := List.mem_map.mp harg
    exact ⟨str, rfl⟩
  obtain ⟨fuel, v, s', hc⟩ := (replies_iff Server.start_denotes).mp
    (hall Server.start KeyMap.empty _ Server.start_denotes hbulk)
  exact hc

end BtreeRedis
