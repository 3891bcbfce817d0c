import BtreeRedis.Server.Plan

/-!
# What a command with a list of arguments leaves behind

`DEL`, `MSET` and `ZADD` check their arguments one by one while they already work on the tree.
A command is applied as a whole, or signals an error and changes nothing, exactly if the
arguments up to the first unusable one do not change the map, and no unusable argument
remains unnoticed.
-/

namespace BtreeRedis

open SortedAssoc Decimal ApiImpl CommandContext RespApi

variable {fuel : ℕ} {s s' : Server} {m m' : KeyMap} {v : RespValue} {command : List RespValue}
  {name : CommandName}

theorem Server.Denotes.unique (h : s.Denotes m) (h' : s.Denotes m') : m' = m :=
  funext fun key => (h'.btree.lookup key).symm.trans (h.btree.lookup key)

def commandName (command : List RespValue) : Option CommandName :=
  (getArgOrNull command 0).bind fun rootCommand => commandMap.lookup (toLowerCopy rootCommand)

theorem planOf_of_name (h : commandName command = some name) (m : KeyMap) :
    planOf command m = plan command m name := by
  obtain ⟨rootCommand, hroot, hlookup⟩ := Option.bind_eq_some_iff.mp h
  rw [planOf, hroot]
  dsimp only
  rw [hlookup]

theorem answers_named (h : s.Denotes m) (hname : commandName command = some name) :
    Answers (processCommand fuel command) s v s' ↔ (plan command m name).Carried fuel s v s' := by
  rw [answers_processCommand h, planOf_of_name hname]

def Plan.writes : Plan → List (Bytes × Bytes)
  | .write es _ => es
  | _ => []

theorem removals_denotes (ks : List Bytes) (h : s.Denotes m) :
    ∃ s', Removals ks s s' ∧ s'.Denotes (m.eraseAll ks) := by
  induction ks generalizing s m with
  | nil => exact ⟨s, rfl, h⟩
  | cons key ks ih =>
    obtain ⟨t, hr, hden, -, -⟩ := removeImpl_spec h key
    obtain ⟨s', hs, hden'⟩ := ih hden
    exact ⟨s', ⟨_, t, hr, hs⟩, hden'⟩

theorem ApiImpl.Removals.denotes {ks : List Bytes} (hs : Removals ks s s') (h : s.Denotes m) :
    s'.Denotes (m.eraseAll ks) := by
  induction ks generalizing s m with
  | nil => exact (show s' = s from hs) ▸ h
  | cons key ks ih =>
    obtain ⟨found, t, hr, hs⟩ := hs
    obtain ⟨t', hr', hden, -, -⟩ := removeImpl_spec h key
    obtain ⟨-, rfl⟩ := Prod.mk.inj (Except.ok.inj (hr'.symm.trans hr))
    exact ih hs hden

theorem KeyMap.eraseAll_eq_self_iff {ks : List Bytes} : m.eraseAll ks = m ↔ ∀ k ∈ ks, m k = none := by
  induction ks generalizing m with
  | nil => exact ⟨fun _ _ h => absurd h List.not_mem_nil, fun _ => rfl⟩
  | cons key ks ih =>
    have herased : ∀ (ks : List Bytes) (m : KeyMap), m key = none → m.eraseAll ks key = none := by
      intro ks
      induction ks with
      | nil => exact fun m h => h
      | cons k ks ih =>
        intro m h
        refine ih _ ?_
        rw [KeyMap.erase, Function.update_apply, h, ite_self]
    have hcons : m.eraseAll (key :: ks) = (m.erase key).eraseAll ks := rfl
    rw [List.forall_mem_cons, hcons]
    constructor
    · intro h
      have hkey : m key = none := by
        rw [← h]
        exact herased ks _ (Function.update_self ..)
      rw [KeyMap.erase_absent hkey] at h
      exact ⟨hkey, ih.mp h⟩
    · rintro ⟨hkey, hks⟩
      rw [KeyMap.erase_absent hkey]
      exact ih.mpr hks

theorem keysOf_of_strings {args : List RespValue} (h : StringArgs args) : keysOf args = args.map RespValue.str := by
  induction args with
  | nil => rfl
  | cons arg args ih =>
    obtain ⟨harg, hargs⟩ := List.forall_mem_cons.mp h
    rw [keysOf, if_neg harg, ih hargs, List.map_cons]

theorem members_of_allZero : (args : List RespValue) → allZero args = true →
    members args = (pairs args).map fun e => (e.2, [])
  | [], _ => rfl
  | [_], _ => rfl
  | score :: val :: scorePairs, h => by
    rw [allZero, Bool.and_eq_true] at h
    rw [members, if_pos h.1, pairs, members_of_allZero scorePairs h.2, List.map_cons]

theorem strings_of_allZero : (args : List RespValue) → allZero args = true →
    (StringArgs args ↔ ScoredStrings args)
  | [], _ => by simp [StringArgs, ScoredStrings]
  | [score], _ => by simp [StringArgs, ScoredStrings]
  | score :: val :: scorePairs, h => by
    rw [allZero, Bool.and_eq_true] at h
    have hall : StringArgs (score :: val :: scorePairs) ↔
        score.getAsString ≠ none ∧ val.getAsString ≠ none ∧ StringArgs scorePairs := by
      rw [StringArgs, List.forall_mem_cons, List.forall_mem_cons]
      rfl
    rw [hall, strings_of_allZero scorePairs h.2, ScoredStrings]
    simp only [h.1, forall_const]

def Usable (command : List RespValue) : CommandName → Prop
  | .del => command.drop 1 ≠ [] ∧ StringArgs (command.drop 1)
  | .mset => StringArgs (command.drop 1) ∧ Even (command.drop 1).length
  | .zadd => getArgOrNull command 1 = some (bytes "$ROOT$") ∧ StringArgs (command.drop 2) ∧
      Even (command.drop 2).length ∧ allZero (command.drop 2) = true
  | _ => True

def KeyMap.applied (m : KeyMap) (command : List RespValue) : CommandName → KeyMap
  | .del => m.eraseAll ((command.drop 1).map RespValue.str)
  | .mset => m.setAll (pairs (command.drop 1))
  | .zadd => m.setAll ((pairs (command.drop 2)).map fun e => (e.2, []))
  | _ => m

/-- The reply is an error, or the result by which `zadd` tells its caller of one. -/
def Signals (name : CommandName) (v : RespValue) : Prop :=
  (∃ message, v = .error message) ∨ (name = .zadd ∧ v = .integer (-1))

def AllOrNothing (command : List RespValue) (name : CommandName) (s : Server) (m : KeyMap) : Prop :=
  ∃ fuel v s', Answers (processCommand fuel command) s v s' ∧
    ((Usable command name ∧ ¬ Signals name v ∧ s'.Denotes (m.applied command name)) ∨
      (¬ Usable command name ∧ Signals name v ∧ s'.Denotes m))

/-- Nothing is written or removed before the first unusable argument, which does not go unnoticed. -/
def Whole (command : List RespValue) (m : KeyMap) : CommandName → Prop
  | .del => StringArgs (command.drop 1) ∨ ∀ k ∈ keysOf (command.drop 1), m k = none
  | .mset => StringArgs (command.drop 1) ∧ Even (command.drop 1).length ∧ Fits (pairs (command.drop 1))
  | .zadd => getArgOrNull command 1 = some (bytes "$ROOT$") →
      ScoredStrings (command.drop 2) ∧ Fits (members (command.drop 2)) ∧
      if allZero (command.drop 2) = true then Even (command.drop 2).length
      else m.setAll (members (command.drop 2)) = m
  | _ => True

theorem not_signals_integer {name : CommandName} {n : ℕ} : ¬ Signals name (.integer n) := by
  rintro (⟨_, h⟩ | ⟨-, h⟩)
  · cases h
  · rw [RespValue.integer.injEq] at h
    omega

theorem signals_wrongArguments {name : CommandName} : Signals name Plan.wrongArguments := Or.inl ⟨_, rfl⟩

theorem del_allOrNothing (h : s.Denotes m) (hname : commandName command = some .del) :
    AllOrNothing command .del s m ↔ Whole command m .del := by
  simp only [AllOrNothing, answers_named h hname, plan, Usable, Whole, KeyMap.applied]
  rcases hargs : command.drop 1 with _ | ⟨arg, args⟩
  · have hlen : command.length < 2 := by
      have hl := congrArg List.length hargs
      rw [List.length_drop, List.length_nil] at hl
      omega
    rw [if_pos hlen]
    refine iff_of_true ⟨0, _, s, ⟨rfl, rfl⟩, Or.inr ⟨fun hu => hu.1 rfl, signals_wrongArguments, h⟩⟩ ?_
    exact Or.inl fun a ha => absurd ha List.not_mem_nil
  · have hlen : ¬ command.length < 2 := by
      have hl := congrArg List.length hargs
      rw [List.length_drop, List.length_cons] at hl
      omega
    have hne : arg :: args ≠ [] := List.cons_ne_nil arg args
    rw [if_neg hlen, ← hargs]
    rw [← hargs] at hne
    obtain ⟨t, ht, hden⟩ := removals_denotes (keysOf (command.drop 1)) h
    by_cases hstr : StringArgs (command.drop 1)
    · rw [if_pos hstr]
      refine iff_of_true ⟨0, _, t, ⟨rfl, ht⟩, Or.inl ⟨⟨hne, hstr⟩, not_signals_integer, ?_⟩⟩ (Or.inl hstr)
      rwa [keysOf_of_strings hstr] at hden
    · rw [if_neg hstr, or_iff_right hstr, ← KeyMap.eraseAll_eq_self_iff]
      constructor
      · rintro ⟨_, _, s', ⟨-, hs⟩, ⟨hu, -⟩ | ⟨-, -, hsame⟩⟩
        · exact absurd hu.2 hstr
        · exact hsame.unique (hs.denotes h)
      · intro hsame
        refine ⟨0, _, t, ⟨rfl, ht⟩, Or.inr ⟨fun hu => hstr hu.2, signals_wrongArguments, ?_⟩⟩
        rwa [hsame] at hden

theorem mset_allOrNothing (h : s.Denotes m) (hname : commandName command = some .mset)
    (hg : Guarded (plan command m .mset).writes s) :
    AllOrNothing command .mset s m ↔ Whole command m .mset := by
  simp only [AllOrNothing, answers_named h hname, plan, Usable, Whole, KeyMap.applied] at hg ⊢
  by_cases hstr : StringArgs (command.drop 1)
  · rw [if_pos hstr] at hg ⊢
    constructor
    · rintro ⟨_, _, s', ⟨rfl, hs⟩, ⟨hu, -⟩ | ⟨-, hsig, -⟩⟩
      · exact ⟨hstr, hu.2, hs.fits⟩
      · rcases hsig with ⟨_, he⟩ | ⟨he, -⟩ <;> cases he
    · rintro ⟨-, heven, hfit⟩
      obtain ⟨fuel, s', hs⟩ := stored_of_guarded _ h hg hfit
      refine ⟨fuel, _, s', ⟨rfl, hs⟩, Or.inl ⟨⟨hstr, heven⟩, ?_, hs.denotes_guarded hg h⟩⟩
      rintro (⟨_, he⟩ | ⟨he, -⟩) <;> cases he
  · rw [if_neg hstr]
    refine iff_of_false ?_ fun hw => hstr hw.1
    rintro ⟨_, _, _, hc, _⟩
    exact hc

theorem zadd_members {args : List RespValue} (h : s.Denotes m) (hg : Guarded (members args) s)
    (hscored : ScoredStrings args) :
    (∃ fuel v s', (Plan.write (members args)
        (.integer (if allZero args then ((args.length / 2 : ℕ) : ℤ) else -1))).Carried fuel s v s' ∧
      ((StringArgs args ∧ Even args.length ∧ allZero args = true) ∧ ¬ Signals .zadd v ∧
          s'.Denotes (m.setAll ((pairs args).map fun e => (e.2, []))) ∨
        ¬ (StringArgs args ∧ Even args.length ∧ allZero args = true) ∧ Signals .zadd v ∧ s'.Denotes m)) ↔
      ScoredStrings args ∧ Fits (members args) ∧
        if allZero args = true then Even args.length else m.setAll (members args) = m := by
  rw [and_iff_right hscored]
  cases hzero : allZero args with
  | true =>
    have hstr : StringArgs args := (strings_of_allZero args hzero).mpr hscored
    rw [if_pos rfl, if_pos rfl]
    constructor
    · rintro ⟨_, _, s', ⟨rfl, hs⟩, ⟨hu, -⟩ | ⟨-, hsig, -⟩⟩
      · exact ⟨hs.fits, hu.2.1⟩
      · exact absurd hsig not_signals_integer
    · rintro ⟨hfit, heven⟩
      obtain ⟨fuel, s', hs⟩ := stored_of_guarded _ h hg hfit
      refine ⟨fuel, _, s', ⟨rfl, hs⟩, Or.inl ⟨⟨hstr, heven, rfl⟩, not_signals_integer, ?_⟩⟩
      rw [← members_of_allZero args hzero]
      exact hs.denotes_guarded hg h
  | false =>
    rw [if_neg Bool.false_ne_true, if_neg Bool.false_ne_true]
    constructor
    · rintro ⟨_, _, s', ⟨-, hs⟩, ⟨⟨-, -, hz⟩, -⟩ | ⟨-, -, hsame⟩⟩
      · cases hz
      · exact ⟨hs.fits, hsame.unique (hs.denotes_guarded hg h)⟩
    · rintro ⟨hfit, hsame⟩
      obtain ⟨fuel, s', hs⟩ := stored_of_guarded _ h hg hfit
      refine ⟨fuel, _, s', ⟨rfl, hs⟩, Or.inr ⟨fun hu => ?_, Or.inr ⟨rfl, rfl⟩, ?_⟩⟩
      · cases hu.2.2
      · exact hsame ▸ hs.denotes_guarded hg h

theorem zadd_allOrNothing (h : s.Denotes m) (hname : commandName command = some .zadd)
    (hg : Guarded (plan command m .zadd).writes s) :
    AllOrNothing command .zadd s m ↔ Whole command m .zadd := by
  simp only [AllOrNothing, answers_named h hname, plan, Usable, Whole, KeyMap.applied] at hg ⊢
  cases harg : getArgOrNull command 1 with
  | none =>
    refine iff_of_true ⟨0, _, s, ⟨rfl, rfl⟩, Or.inr ⟨fun hu => ?_, signals_wrongArguments, h⟩⟩ ?_
    · cases hu.1
    · rintro ⟨⟩
  | some key =>
    simp only [harg, Option.some.injEq] at hg ⊢
    by_cases hroot : key = bytes "$ROOT$"
    · rw [if_neg (not_not.mpr hroot)] at hg ⊢
      simp only [hroot, true_and, forall_const]
      by_cases hscored : ScoredStrings (command.drop 2)
      · rw [if_pos hscored] at hg ⊢
        exact zadd_members h hg hscored
      · rw [if_neg hscored]
        refine iff_of_false ?_ fun hw => hscored hw.1
        rintro ⟨_, _, _, hc, _⟩
        exact hc
    · rw [if_pos hroot]
      refine iff_of_true ⟨0, _, s, ⟨rfl, rfl⟩, Or.inr ⟨fun hu => hroot hu.1, Or.inl ⟨_, rfl⟩, h⟩⟩ ?_
      exact fun he => absurd he hroot

/-- For each of the commands with a list of arguments: all of them, or an error and nothing. -/
theorem allOrNothing_iff (h : s.Denotes m) (hname : commandName command = some name)
    (hlist : name = .del ∨ name = .mset ∨ name = .zadd) (hg : Guarded (plan command m name).writes s) :
    AllOrNothing command name s m ↔ Whole command m name := by
  rcases hlist with rfl | rfl | rfl
  · exact del_allOrNothing h hname
  · exact mset_allOrNothing h hname hg
  · exact zadd_allOrNothing h hname hg

def msetPair : List RespValue := [bytes "MSET", bytes "a", bytes "b"].map bulk

def msetSixKeys : List RespValue := bulk (bytes "MSET") :: sixKeys.flatMap fun e => [bulk e.1, bulk e.2]

theorem allOrNothing_sixKeys : AllOrNothing msetSixKeys .mset Server.start KeyMap.empty := by
  have hwrites : (plan msetSixKeys KeyMap.empty .mset).writes = sixKeys := rfl
  have hg : Guarded (plan msetSixKeys KeyMap.empty .mset).writes Server.start := hwrites ▸ sixKeys_guarded
  have hwhole : Whole msetSixKeys KeyMap.empty .mset := ⟨by decide, by decide, by decide +kernel⟩
  exact (allOrNothing_iff Server.start_denotes (by decide) (by decide) hg).mpr hwhole

/-- `MSET a b c` is answered with OK. -/
theorem not_allOrNothing_odd :
    ¬ ∀ (s : Server) (m : KeyMap) (command : List RespValue) (name : CommandName), s.Denotes m →
      commandName command = some name → (name = .del ∨ name = .mset ∨ name = .zadd) →
      AllOrNothing command name s m := by
  intro hall
  have hodd := hall Server.start KeyMap.empty (msetPair ++ [bulk (bytes "c")]) .mset
    Server.start_denotes (by decide) (by decide)
  have hg : Guarded (plan (msetPair ++ [bulk (bytes "c")]) KeyMap.empty .mset).writes
      Server.start := start_guarded (bytes "a") (bytes "b")
  have hwhole := (mset_allOrNothing Server.start_denotes (by decide) hg).mp hodd
  exact absurd hwhole.2.1 (by decide)

end BtreeRedis
