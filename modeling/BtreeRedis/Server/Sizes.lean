import BtreeRedis.Server.Replying

/-!
# Writes of any size

Nothing on the way from the parser to the tree looks at the size of an entry, and the previous
value of a key is removed before the tree is asked to store the new one. A write leaves the
store right exactly if its entries are of admissible sizes.
-/

namespace BtreeRedis

open SortedAssoc Decimal ApiImpl CommandContext RespApi

def Server.Reads (s : Server) (m : KeyMap) : Prop := ∀ key, ApiImpl.get key s = .ok (m key, s)

def entriesOf (command : List RespValue) (m : KeyMap) : CommandName → List (Bytes × Bytes)
  | .mset => pairs (command.drop 1)
  | .zadd => (pairs (command.drop 2)).map fun e => (e.2, [])
  | name => (plan command m name).writes

/-- The command stores its entries, or it signals an error and each key keeps its value. -/
def SizeSafe (command : List RespValue) (name : CommandName) (s : Server) (m : KeyMap) : Prop :=
  ∃ fuel v s', Answers (processCommand fuel command) s v s' ∧
    (s'.Reads (m.setAll (entriesOf command m name)) ∨ Signals name v ∧ s'.Reads m)

/-- `zadd` stops at a score other than 0; what it has written by then is all or nothing new. -/
def ScoresOk (command : List RespValue) (m : KeyMap) : Prop :=
  getArgOrNull command 1 = some (bytes "$ROOT$") → allZero (command.drop 2) = true ∨
    m.setAll (members (command.drop 2)) = m ∨
    m.setAll (members (command.drop 2)) = m.setAll (entriesOf command m .zadd)

def IsWrite (name : CommandName) : Prop :=
  name ∈ [CommandName.set, .mset, .zadd, .incr, .incrby, .decr, .decrby]

instance (name : CommandName) : Decidable (IsWrite name) := inferInstanceAs (Decidable (_ ∈ _))

variable {fuel : ℕ} {s s' : Server} {m m' : KeyMap} {v : RespValue} {command : List RespValue}
  {name : CommandName}

theorem Server.Denotes.reads (h : s.Denotes m) : s.Reads m := get_spec h

theorem Server.Reads.unique (h : s.Reads m) (h' : s.Reads m') : m' = m := by
  funext key
  obtain ⟨he, -⟩ := Prod.mk.inj (Except.ok.inj ((h' key).symm.trans (h key)))
  exact he

theorem write_sizeSafe {es entries : List (Bytes × Bytes)} (h : s.Denotes m) (hg : Guarded es s) :
    (∃ fuel u s', (Plan.write es v).Carried fuel s u s' ∧
      (s'.Reads (m.setAll entries) ∨ Signals name u ∧ s'.Reads m)) ↔
      Fits es ∧ (m.setAll es = m.setAll entries ∨ Signals name v ∧ m.setAll es = m) := by
  constructor
  · rintro ⟨fuel, _, s', ⟨rfl, hs⟩, hr⟩
    have hreads := (hs.denotes_guarded hg h).reads
    refine ⟨hs.fits, ?_⟩
    rcases hr with hr | ⟨hsig, hr⟩
    · exact Or.inl (hreads.unique hr).symm
    · exact Or.inr ⟨hsig, (hreads.unique hr).symm⟩
  · rintro ⟨hfit, hr⟩
    obtain ⟨fuel, s', hs⟩ := stored_of_guarded es h hg hfit
    have hreads := (hs.denotes_guarded hg h).reads
    refine ⟨fuel, v, s', ⟨rfl, hs⟩, ?_⟩
    rcases hr with he | ⟨hsig, he⟩
    · exact Or.inl (he ▸ hreads)
    · exact Or.inr ⟨hsig, he ▸ hreads⟩

def Plan.Writing : Plan → Prop
  | .reply _ => True
  | .write _ _ => True
  | .undefined => True
  | _ => False

theorem counter_writing (key : Bytes) (amount : ℤ) : (Plan.counter key amount m).Writing := by
  unfold Plan.counter
  split
  · trivial
  · trivial
  · split_ifs <;> trivial

theorem incr_writing (amount : ℤ) : ((getArgOrNull command 1).elim (Plan.reply Plan.wrongArguments)
    fun key => Plan.counter key amount m).Writing := by
  cases getArgOrNull command 1 with
  | none => trivial
  | some key => exact counter_writing key amount

theorem counterBy_writing (amountOf : ℤ → Except ServerFault ℤ) :
    (Plan.counterBy command amountOf m).Writing := by
  unfold Plan.counterBy
  split
  · split
    · trivial
    · trivial
    · split
      · trivial
      · exact counter_writing _ _
  · trivial

theorem set_writing : (plan command m .set).Writing := by
  rw [plan]
  split <;> trivial

theorem writing_sizeSafe {p : Plan} (hp : p.Writing) (h : s.Denotes m) (hg : Guarded p.writes s) :
    (∃ fuel u s', p.Carried fuel s u s' ∧
      (s'.Reads (m.setAll p.writes) ∨ Signals name u ∧ s'.Reads m)) ↔ p ≠ .undefined ∧ Fits p.writes := by
  cases p with
  | reply v =>
    have hnil : Fits [] := fun e he => absurd he List.not_mem_nil
    exact iff_of_true ⟨0, v, s, ⟨rfl, rfl⟩, Or.inl h.reads⟩ ⟨by simp, hnil⟩
  | write es v =>
    have hes : Guarded es s := hg
    rw [Plan.writes, write_sizeSafe h hes, and_iff_left (Or.inl rfl)]
    exact (and_iff_right (by simp)).symm
  | undefined =>
    refine iff_of_false ?_ fun hn => hn.1 rfl
    rintro ⟨_, _, _, hc, _⟩
    exact hc
  | erase => exact hp.elim
  | flush => exact hp.elim
  | memory => exact hp.elim
  | scan => exact hp.elim

theorem sizeSafe_of_writing (h : s.Denotes m) (hname : commandName command = some name)
    (hg : Guarded (plan command m name).writes s) (hp : (plan command m name).Writing)
    (he : plan command m name ≠ .undefined → entriesOf command m name = (plan command m name).writes) :
    SizeSafe command name s m ↔ Proper command m name ∧ Fits (plan command m name).writes := by
  rw [← plan_ne_undefined]
  simp only [SizeSafe, answers_named h hname]
  by_cases hn : plan command m name = .undefined
  · refine iff_of_false (fun ⟨_, _, _, hc, _⟩ => ?_) fun hu => hu.1 hn
    rw [hn] at hc
    exact hc
  · rw [he hn]
    exact writing_sizeSafe hp h hg

theorem zadd_sizeSafe (h : s.Denotes m) (hname : commandName command = some .zadd)
    (hg : Guarded (plan command m .zadd).writes s) :
    SizeSafe command .zadd s m ↔ Proper command m .zadd ∧ Fits (plan command m .zadd).writes ∧
      ScoresOk command m := by
  simp only [SizeSafe, answers_named h hname, Proper, ScoresOk, plan] at hg ⊢
  have hnil : Fits [] := fun e he => absurd he List.not_mem_nil
  have hreply : ∀ {u : RespValue} {P : Prop}, (∃ message, u = .error message) → P →
      ((∃ fuel v s', (Plan.reply u).Carried fuel s v s' ∧
        (s'.Reads (m.setAll (entriesOf command m .zadd)) ∨ Signals .zadd v ∧ s'.Reads m)) ↔ P) := by
    intro u P hu hP
    exact iff_of_true ⟨0, u, s, ⟨rfl, rfl⟩, Or.inr ⟨Or.inl hu, h.reads⟩⟩ hP
  cases harg : getArgOrNull command 1 with
  | none =>
    refine hreply ⟨_, rfl⟩ ⟨?_, hnil, ?_⟩
    · rintro ⟨⟩
    · rintro ⟨⟩
  | some key =>
    simp only [harg, Option.some.injEq] at hg ⊢
    by_cases hroot : key = bytes "$ROOT$"
    · simp only [hroot, ne_eq, not_true, if_false, forall_const] at hg ⊢
      by_cases hscored : ScoredStrings (command.drop 2)
      · rw [if_pos hscored] at hg ⊢
        have hes : Guarded (members (command.drop 2)) s := hg
        rw [write_sizeSafe h hes, and_iff_right hscored, Plan.writes]
        refine and_congr_right fun _ => ?_
        cases hzero : allZero (command.drop 2) with
        | true =>
          rw [entriesOf, members_of_allZero _ hzero]
          exact iff_of_true (Or.inl rfl) (Or.inl rfl)
        | false =>
          have hsig : Signals .zadd (.integer (if false = true then ((command.drop 2).length / 2 : ℕ) else -1)) :=
            Or.inr ⟨rfl, rfl⟩
          rw [and_iff_right hsig, or_iff_right Bool.false_ne_true, or_comm]
      · rw [if_neg hscored]
        refine iff_of_false ?_ fun hu => hscored hu.1
        rintro ⟨_, _, _, hc, _⟩
        exact hc
    · rw [if_pos hroot]
      exact hreply ⟨_, rfl⟩ ⟨fun he => absurd he hroot, hnil, fun he => absurd he hroot⟩

/-- A write stores its entries, or signals an error and changes nothing, exactly if its arguments
are proper, its entries are of admissible sizes and `zadd` finds no other score too late. -/
theorem sizeSafe_iff (h : s.Denotes m) (hname : commandName command = some name) (hw : IsWrite name)
    (hg : Guarded (plan command m name).writes s) :
    SizeSafe command name s m ↔ Proper command m name ∧ Fits (plan command m name).writes ∧
      (name = .zadd → ScoresOk command m) := by
  by_cases hz : name = .zadd
  · subst hz
    rw [zadd_sizeSafe h hname hg, imp_iff_right rfl]
  · rw [and_congr_right fun _ => and_iff_left fun he => absurd he hz]
    cases name
    case set => exact sizeSafe_of_writing h hname hg set_writing fun _ => rfl
    case mset =>
      have hp : (plan command m .mset).Writing := by
        rw [plan]
        split_ifs <;> trivial
      refine sizeSafe_of_writing h hname hg hp fun hn => ?_
      have hstr : StringArgs (command.drop 1) := (plan_ne_undefined .mset).mp hn
      rw [plan, if_pos hstr]
      rfl
    case incr => exact sizeSafe_of_writing h hname hg (incr_writing 1) fun _ => rfl
    case decr => exact sizeSafe_of_writing h hname hg (incr_writing (-1)) fun _ => rfl
    case incrby => exact sizeSafe_of_writing h hname hg (counterBy_writing fun amount => .ok amount) fun _ => rfl
    case decrby => exact sizeSafe_of_writing h hname hg (counterBy_writing fun amount => checked (-amount)) fun _ => rfl
    all_goals first | exact absurd rfl hz | simp [IsWrite] at hw

def setCommand (key val : Bytes) : List RespValue := [bytes "SET", key, val].map bulk

theorem commandName_set (key val : Bytes) : commandName (setCommand key val) = some .set := by
  have hroot : getArgOrNull (setCommand key val) 0 = some (bytes "SET") := rfl
  rw [commandName, hroot]
  decide

/-- A kilobyte is overwritten with two bytes. -/
theorem sizeSafe_overwritten : ∃ s : Server, s.Denotes (KeyMap.empty.setAll sixKeys) ∧
    SizeSafe (setCommand [2] [8, 9]) .set s (KeyMap.empty.setAll sixKeys) := by
  have hrun : storeReaches 4 sixKeys (fun s => decide (GuardedWithin 4 [([2], [8, 9])] s)) = true := by
    decide +kernel
  obtain ⟨s, hden, hwithin⟩ := storeReaches_spec hrun
  have hg : Guarded (plan (setCommand [2] [8, 9]) (KeyMap.empty.setAll sixKeys) .set).writes s :=
    hwithin.guarded
  exact ⟨s, hden, (sizeSafe_iff hden (commandName_set _ _) (by decide) hg).mpr
    ⟨trivial, by decide, fun h => (nomatch h)⟩⟩

/-- With `SET a` the value makes the entry one byte too large. -/
theorem not_sizeSafe_large : ¬ ∀ (s : Server) (m : KeyMap) (command : List RespValue) (name : CommandName),
    s.Denotes m → commandName command = some name → IsWrite name → SizeSafe command name s m := by
  intro hall
  obtain ⟨val, hval⟩ : ∃ val : Bytes, val.length = maxKVSize := ⟨List.replicate maxKVSize 0, List.length_replicate⟩
  have hsafe := hall Server.start KeyMap.empty (setCommand (bytes "a") val) .set Server.start_denotes
    (commandName_set _ val) (by decide)
  obtain ⟨-, hfit⟩ := (sizeSafe_of_writing Server.start_denotes (commandName_set _ val) (start_guarded (bytes "a") val)
    set_writing fun _ => rfl).mp hsafe
  have hsize : (bytes "a").length + val.length ≤ maxKVSize := hfit (bytes "a", val) List.mem_cons_self
  rw [hval] at hsize
  exact absurd hsize (by decide)

end BtreeRedis
