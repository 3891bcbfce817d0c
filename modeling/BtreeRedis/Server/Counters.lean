import BtreeRedis.Server.Sizes

/-!
# Runs of counter commands

`Exact` is what `INCR`, `DECR`, `INCRBY` and `DECRBY` are to do: integer arithmetic on the
decimal text of an `int64_t`, and an error where there is no such text or the result is out of
range. The handlers do so as long as nothing overflows on the way and no minus sign stands
alone.
-/

namespace BtreeRedis

open SortedAssoc Decimal ApiImpl CommandContext RespApi

inductive CounterOp
  | incr
  | decr
  | incrBy (amount : Bytes)
  | decrBy (amount : Bytes)

namespace CounterOp

def command (key : Bytes) : CounterOp → List RespValue
  | incr => [.bulkString (some (bytes "INCR")), .bulkString (some key)]
  | decr => [.bulkString (some (bytes "DECR")), .bulkString (some key)]
  | incrBy amount => [.bulkString (some (bytes "INCRBY")), .bulkString (some key), .bulkString (some amount)]
  | decrBy amount => [.bulkString (some (bytes "DECRBY")), .bulkString (some key), .bulkString (some amount)]

def amount : CounterOp → Option ℤ
  | incr => some 1
  | decr => some (-1)
  | incrBy amount => int64Of amount
  | decrBy amount => (int64Of amount).map fun a => -a

end CounterOp

def current (val : Option Bytes) : Option ℤ := val.elim (some 0) int64Of

def Exact (key : Bytes) (amount : Option ℤ) (m : KeyMap) (v : RespValue) (m' : KeyMap) : Prop :=
  match current (m key), amount with
  | some n, some a =>
    if InInt64 (n + a) then v = .integer (n + a) ∧ m' = m.set key (signedText (n + a))
    else (∃ message, v = .error message) ∧ m' = m
  | _, _ => (∃ message, v = .error message) ∧ m' = m

def CurrentSafe (key : Bytes) (amount : ℤ) (m : KeyMap) : Prop :=
  m key ≠ some minusSign ∧ (∃ val, readCounter (m key) = .ok val) ∧
    ∀ n, current (m key) = some n → InInt64 (n + amount) ∧ Fits [(key, signedText (n + amount))]

/-- The text of the amount is read right, and what is done with it is. A minus sign alone counts
as 0, unless the stored value is no integer either. -/
def AmountSafe (key amountStr : Bytes) (sign : ℤ) (m : KeyMap) : Prop :=
  if amountStr = minusSign then readCounter (m key) = .ok none
  else (∃ val, ArgParsing.parseIntStrict amountStr = .ok val) ∧
    ∀ a, int64Of amountStr = some a → CurrentSafe key (sign * a) m

def CounterOp.Safe (key : Bytes) (m : KeyMap) : CounterOp → Prop
  | .incr => CurrentSafe key 1 m
  | .decr => CurrentSafe key (-1) m
  | .incrBy amountStr => AmountSafe key amountStr 1 m
  | .decrBy amountStr => AmountSafe key amountStr (-1) m

variable {fuel : ℕ} {s s' : Server} {m m' : KeyMap} {v : RespValue} {key : Bytes}

theorem readCounter_exact {val : Option ℤ} (hminus : m key ≠ some minusSign)
    (h : readCounter (m key) = .ok val) : val = current (m key) := by
  cases hm : m key with
  | none =>
    rw [hm] at h
    exact (Except.ok.inj h).symm
  | some buf =>
    rw [hm] at h hminus
    exact ArgParsing.parseIntStrict_exact (fun he => hminus (congrArg some he)) h

theorem exact_none {amount : Option ℤ} (h : current (m key) = none ∨ amount = none) :
    Exact key amount m v m' ↔ (∃ message, v = .error message) ∧ m' = m := by
  unfold Exact
  rcases h with h | h
  · rw [h]
  · rw [h]
    cases current (m key) <;> rfl

theorem exact_some {n a : ℤ} (hn : current (m key) = some n) (hin : InInt64 (n + a)) :
    Exact key (some a) m v m' ↔ v = .integer (n + a) ∧ m' = m.set key (signedText (n + a)) := by
  unfold Exact
  rw [hn]
  dsimp only
  rw [if_pos hin]

def Plan.CarriedExactly (p : Plan) (key : Bytes) (amount : Option ℤ) (s : Server) (m : KeyMap) : Prop :=
  ∃ fuel v s' m', p.Carried fuel s v s' ∧ Exact key amount m v m' ∧ s'.Denotes m'

theorem noInteger_carriedExactly {amount : Option ℤ} (h : s.Denotes m)
    (hn : current (m key) = none ∨ amount = none) :
    (Plan.reply Plan.noInteger).CarriedExactly key amount s m :=
  ⟨0, _, s, m, ⟨rfl, rfl⟩, (exact_none hn).mpr ⟨⟨_, rfl⟩, rfl⟩, h⟩

theorem current_minusSign (h : m key = some minusSign) : current (m key) = none := by
  rw [h]
  exact ArgParsing.int64Of_minusSign

theorem counter_carriedExactly (h : s.Denotes m) (amount : ℤ)
    (hg : Guarded (Plan.counter key amount m).writes s) :
    (Plan.counter key amount m).CarriedExactly key (some amount) s m ↔ CurrentSafe key amount m := by
  unfold Plan.counter at hg ⊢
  unfold CurrentSafe
  cases hr : readCounter (m key) with
  | error f => exact iff_of_false (fun ⟨_, _, _, _, hc, _⟩ => hc) fun hu => (nomatch hu.2.1)
  | ok val =>
    cases val with
    | none =>
      have hminus : m key ≠ some minusSign := fun he => by
        rw [he] at hr
        cases hr
      have hcur := (readCounter_exact hminus hr).symm
      refine iff_of_true (noInteger_carriedExactly h (Or.inl hcur)) ⟨hminus, ⟨_, rfl⟩, fun n hn => ?_⟩
      rw [hcur] at hn
      cases hn
    | some n =>
      rw [hr] at hg
      dsimp only at hg ⊢
      by_cases hminus : m key = some minusSign
      · refine iff_of_false (fun ⟨_, v, _, _, hc, he, _⟩ => ?_) fun hu => hu.1 hminus
        obtain ⟨⟨message, rfl⟩, -⟩ := (exact_none (Or.inl (current_minusSign hminus))).mp he
        split_ifs at hc with hin
        · cases hc.1
        · exact hc
      · have hcur := (readCounter_exact hminus hr).symm
        split_ifs at hg ⊢ with hin
        · constructor
          · rintro ⟨_, _, _, _, ⟨-, hs⟩, -⟩
            refine ⟨hminus, ⟨_, rfl⟩, fun k hk => ?_⟩
            obtain rfl := Option.some.inj (hcur.symm.trans hk)
            exact ⟨hin, hs.fits⟩
          · rintro ⟨-, -, hall⟩
            obtain ⟨fuel, s', hs⟩ := stored_of_guarded _ h hg (hall n hcur).2
            refine ⟨fuel, _, s', _, ⟨rfl, hs⟩, (exact_some hcur hin).mpr ⟨rfl, rfl⟩, ?_⟩
            exact hs.denotes_guarded hg h
        · exact iff_of_false (fun ⟨_, _, _, _, hc, _⟩ => hc) fun hu => hin (hu.2.2 n hcur).1

theorem counter_minusSign (h : s.Denotes m) :
    (Plan.counter key 0 m).CarriedExactly key none s m ↔ readCounter (m key) = .ok none := by
  constructor
  · rintro ⟨_, v, _, _, hc, he, -⟩
    obtain ⟨⟨message, rfl⟩, -⟩ := (exact_none (Or.inr rfl)).mp he
    unfold Plan.counter at hc
    split at hc
    · exact hc.elim
    · assumption
    · split_ifs at hc
      · cases hc.1
      · exact hc.elim
  · intro hr
    unfold Plan.counter
    rw [hr]
    exact noInteger_carriedExactly h (Or.inr rfl)

theorem counterBy_carriedExactly {command : List RespValue} {amountOf : ℤ → Except ServerFault ℤ} {sign : ℤ}
    {amountStr : Bytes} (ha : ∀ n : ℤ, n.natAbs ≤ int64Max → amountOf n = .ok (sign * n))
    (hkey : getArgOrNull command 1 = some key) (hstr : getArgOrNull command 2 = some amountStr)
    (h : s.Denotes m) (hg : Guarded (Plan.counterBy command amountOf m).writes s) :
    (Plan.counterBy command amountOf m).CarriedExactly key ((int64Of amountStr).map fun a => sign * a) s m ↔
      AmountSafe key amountStr sign m := by
  unfold Plan.counterBy at hg ⊢
  unfold AmountSafe
  rw [hkey, hstr] at hg ⊢
  dsimp only at hg ⊢
  by_cases hminus : amountStr = minusSign
  · subst hminus
    rw [if_pos rfl, ArgParsing.parseIntStrict_minusSign, ArgParsing.int64Of_minusSign]
    dsimp only
    rw [ha 0 (Nat.zero_le _), mul_zero]
    exact counter_minusSign h
  · rw [if_neg hminus]
    cases hp : ArgParsing.parseIntStrict amountStr with
    | error f => exact iff_of_false (fun ⟨_, _, _, _, hc, _⟩ => hc) fun hu => (nomatch hu.1)
    | ok val =>
      have hval := ArgParsing.parseIntStrict_exact hminus hp
      rw [hp] at hg
      cases val with
      | none =>
        rw [← hval]
        exact iff_of_true (noInteger_carriedExactly h (Or.inr rfl)) ⟨⟨_, rfl⟩, fun a he => (nomatch he)⟩
      | some a =>
        rw [← hval]
        dsimp only at hg ⊢
        rw [ha a (ArgParsing.parseIntStrict_bound hp)] at hg ⊢
        apply (counter_carriedExactly h (sign * a) hg).trans
        refine ⟨fun hs => ⟨⟨_, rfl⟩, fun b hb => ?_⟩, fun hu => hu.2 a rfl⟩
        rwa [← Option.some.inj hb]

namespace CounterOp

def Meets (op : CounterOp) (key : Bytes) (s : Server) (m : KeyMap) : Prop :=
  (planOf (op.command key) m).CarriedExactly key op.amount s m

theorem meets_iff (op : CounterOp) (h : s.Denotes m) (hg : Guarded (planOf (op.command key) m).writes s) :
    op.Meets key s m ↔ op.Safe key m := by
  unfold Meets
  cases op with
  | incr => exact counter_carriedExactly h 1 hg
  | decr => exact counter_carriedExactly h (-1) hg
  | incrBy amountStr =>
    have hof : (incrBy amountStr).amount = (int64Of amountStr).map fun a => 1 * a := by
      rw [amount]
      cases int64Of amountStr <;> simp
    have hplan : planOf ((incrBy amountStr).command key) m =
        Plan.counterBy ((incrBy amountStr).command key) (fun a => .ok a) m := rfl
    rw [hplan] at hg ⊢
    rw [hof]
    exact counterBy_carriedExactly plus_amountOf rfl rfl h hg
  | decrBy amountStr =>
    have hof : (decrBy amountStr).amount = (int64Of amountStr).map fun a => -1 * a := by
      rw [amount]
      cases int64Of amountStr <;> simp
    have hplan : planOf ((decrBy amountStr).command key) m =
        Plan.counterBy ((decrBy amountStr).command key) (fun a => checked (-a)) m := rfl
    rw [hplan] at hg ⊢
    rw [hof]
    exact counterBy_carriedExactly minus_amountOf rfl rfl h hg

def next (op : CounterOp) (key : Bytes) (m : KeyMap) : KeyMap :=
  match current (m key), op.amount with
  | some n, some a => if InInt64 (n + a) then m.set key (signedText (n + a)) else m
  | _, _ => m

theorem next_of_exact {op : CounterOp} (h : Exact key op.amount m v m') : m' = op.next key m := by
  unfold Exact at h
  unfold next
  cases hn : current (m key) with
  | none =>
    rw [hn] at h
    exact h.2
  | some n =>
    cases ha : op.amount with
    | none =>
      rw [hn, ha] at h
      exact h.2
    | some a =>
      rw [hn, ha] at h
      dsimp only at h ⊢
      split_ifs at h ⊢
      · exact h.2
      · exact h.2

end CounterOp

/-- Each command of the run gets the exact reply and leaves the exact map, which `GET` reads. -/
def CountsExactly (key : Bytes) : List CounterOp → Server → KeyMap → Prop
  | [], _, _ => True
  | op :: ops, s, m => ∃ fuel v s' m', Answers (processCommand fuel (op.command key)) s v s' ∧
      Exact key op.amount m v m' ∧ s'.Denotes m' ∧ s'.Reads m' ∧ CountsExactly key ops s' m'

def SafeRun (key : Bytes) : List CounterOp → KeyMap → Prop
  | [], _ => True
  | op :: ops, m => op.Safe key m ∧ SafeRun key ops (op.next key m)

def GuardedRun (key : Bytes) : List CounterOp → Server → KeyMap → Prop
  | [], _, _ => True
  | op :: ops, s, m => Guarded (planOf (op.command key) m).writes s ∧
      ∀ fuel v s', Answers (processCommand fuel (op.command key)) s v s' → GuardedRun key ops s' (op.next key m)

/-- Every reply of a run of counter commands is exact, exactly if every command of it is safe. -/
theorem countsExactly_iff (key : Bytes) (ops : List CounterOp) (h : s.Denotes m) (hg : GuardedRun key ops s m) :
    CountsExactly key ops s m ↔ SafeRun key ops m := by
  induction ops generalizing s m with
  | nil => exact iff_of_true trivial trivial
  | cons op ops ih =>
    obtain ⟨hg, hrest⟩ := hg
    rw [SafeRun, ← CounterOp.meets_iff op h hg]
    constructor
    · rintro ⟨fuel, v, s', m', hans, hexact, hden, -, hrun⟩
      obtain rfl := CounterOp.next_of_exact hexact
      exact ⟨⟨fuel, v, s', _, (answers_processCommand h).mp hans, hexact, hden⟩,
        (ih hden (hrest _ _ _ hans)).mp hrun⟩
    · rintro ⟨⟨fuel, v, s', m', hc, hexact, hden⟩, hsafe⟩
      obtain rfl := CounterOp.next_of_exact hexact
      have hans := (answers_processCommand h).mpr hc
      exact ⟨fuel, v, s', _, hans, hexact, hden, hden.reads, (ih hden (hrest _ _ _ hans)).mpr hsafe⟩

theorem CounterOp.writing (op : CounterOp) (key : Bytes) (m : KeyMap) : (planOf (op.command key) m).Writing := by
  cases op with
  | incr => exact counter_writing key 1
  | decr => exact counter_writing key (-1)
  | incrBy amount =>
    change (Plan.counterBy ((CounterOp.incrBy amount).command key) (fun a => .ok a) m).Writing
    exact counterBy_writing _
  | decrBy amount =>
    change (Plan.counterBy ((CounterOp.decrBy amount).command key) (fun a => checked (-a)) m).Writing
    exact counterBy_writing _

theorem Plan.Writing.stored {p : Plan} (hp : p.Writing) (hc : p.Carried fuel s v s') :
    Stored fuel noGuard p.writes s s' := by
  cases p with
  | reply u =>
    obtain ⟨-, rfl⟩ := hc
    exact .nil s'
  | write es u => exact hc.2
  | undefined => exact hc.elim
  | erase => exact hp.elim
  | flush => exact hp.elim
  | memory => exact hp.elim
  | scan => exact hp.elim

def writesOf (key : Bytes) : List CounterOp → KeyMap → List (Bytes × Bytes)
  | [], _ => []
  | op :: ops, m => (planOf (op.command key) m).writes ++ writesOf key ops (op.next key m)

theorem guardedRun_of_writes (key : Bytes) (ops : List CounterOp) (h : s.Denotes m) (hsafe : SafeRun key ops m)
    (hg : Guarded (writesOf key ops m) s) : GuardedRun key ops s m := by
  induction ops generalizing s m with
  | nil => trivial
  | cons op ops ih =>
    obtain ⟨hop, hsafe⟩ := hsafe
    obtain ⟨hhere, hrest⟩ := guarded_append hg
    refine ⟨hhere, fun fuel v s' hans => ?_⟩
    have hs := (op.writing key m).stored ((answers_processCommand h).mp hans)
    obtain ⟨fuel', v', t, m', hc, hexact, hden⟩ := (op.meets_iff h hhere).mpr hop
    obtain rfl := CounterOp.next_of_exact hexact
    have hnext := (((op.writing key m).stored hc).denotes_guarded hhere h).unique hden
    exact ih (hnext ▸ hs.denotes_guarded hhere h) hsafe (hrest fuel s' hs)

instance (key : Bytes) (amount : ℤ) (m : KeyMap) : Decidable (CurrentSafe key amount m) :=
  inferInstanceAs (Decidable (_ ∧ _ ∧ ∀ n ∈ current (m key), _))

instance (key amountStr : Bytes) (sign : ℤ) (m : KeyMap) : Decidable (AmountSafe key amountStr sign m) :=
  inferInstanceAs (Decidable (if amountStr = minusSign then readCounter (m key) = .ok none
    else _ ∧ ∀ a ∈ int64Of amountStr, CurrentSafe key (sign * a) m))

instance (key : Bytes) (m : KeyMap) : (op : CounterOp) → Decidable (op.Safe key m)
  | .incr | .decr => inferInstanceAs (Decidable (CurrentSafe _ _ _))
  | .incrBy _ | .decrBy _ => inferInstanceAs (Decidable (AmountSafe _ _ _ _))

instance (key : Bytes) : (ops : List CounterOp) → (m : KeyMap) → Decidable (SafeRun key ops m)
  | [], _ => isTrue trivial
  | op :: ops, m =>
    have := instDecidableSafeRun key ops (op.next key m)
    inferInstanceAs (Decidable (_ ∧ _))

def countingOps : List CounterOp := [.incr, .incrBy (bytes "42"), .incrBy (bytes "1x"), .decr, .decrBy (bytes "50")]

theorem countsExactly_counting : ∃ s : Server, s.Denotes (KeyMap.empty.setAll sixKeys) ∧
    CountsExactly (bytes "n") countingOps s (KeyMap.empty.setAll sixKeys) := by
  have hrun : storeReaches 4 sixKeys (fun s => decide
      (GuardedWithin 4 (writesOf (bytes "n") countingOps (KeyMap.empty.setAll sixKeys)) s)) = true := by
    decide +kernel
  obtain ⟨s, hden, hwithin⟩ := storeReaches_spec hrun
  have hsafe : SafeRun (bytes "n") countingOps (KeyMap.empty.setAll sixKeys) := by decide +kernel
  have hg := guardedRun_of_writes (bytes "n") countingOps hden hsafe hwithin.guarded
  exact ⟨s, hden, (countsExactly_iff (bytes "n") countingOps hden hg).mpr hsafe⟩

def leastText : Bytes := bytes "-9223372036854775808"

/-- `DECRBY` by the least `int64_t`. -/
theorem not_countsExactly_least : ¬ ∀ (key : Bytes) (ops : List CounterOp) (s : Server) (m : KeyMap),
    s.Denotes m → (m key = none ∨ ∃ z, InInt64 z ∧ m key = some (signedText z)) → CountsExactly key ops s m := by
  intro hall
  obtain ⟨fuel, v, s', m', hans, -⟩ := hall (bytes "a") [.decrBy leastText] Server.start KeyMap.empty
    Server.start_denotes (Or.inl rfl)
  have hparse : ArgParsing.parseIntStrict leastText = .error .overflow := by decide
  have hplan : planOf ((CounterOp.decrBy leastText).command (bytes "a")) KeyMap.empty = .undefined := by
    have hby : planOf ((CounterOp.decrBy leastText).command (bytes "a")) KeyMap.empty =
        Plan.counterBy ((CounterOp.decrBy leastText).command (bytes "a")) (fun a => checked (-a))
          KeyMap.empty := rfl
    rw [hby, Plan.counterBy]
    have hstr : getArgOrNull ((CounterOp.decrBy leastText).command (bytes "a")) 2 = some leastText := rfl
    have hkey : getArgOrNull ((CounterOp.decrBy leastText).command (bytes "a")) 1 = some (bytes "a") := rfl
    rw [hkey, hstr]
    dsimp only
    rw [hparse]
  have hc := (answers_processCommand Server.start_denotes).mp hans
  rw [hplan] at hc
  exact hc

end BtreeRedis
