import BtreeRedis.Server.Counters
import BtreeRedis.Tree.ScanBuffer

/-!
# Commands that only read

A run of commands with further commands put in between. What these read, and the bytes that their
scans leave in the static buffer, does not reach the replies to the others, as long as the
inserted commands can be answered and no `EXISTS` among them names a stored key.
-/

namespace BtreeRedis

open SortedAssoc Decimal ApiImpl CommandContext RespApi

/-- Servers that differ in the bytes of the buffer only. -/
structure SameStore (s t : Server) : Prop where
  btree : t.btree = s.btree
  buffer : t.keyOut.length = s.keyOut.length
  free : t.free = s.free

variable {fuel : ℕ} {s s' t : Server} {m : KeyMap} {v : RespValue} {command : List RespValue}

namespace SameStore

theorem refl (s : Server) : SameStore s s := ⟨rfl, rfl, rfl⟩

theorem denotes (h : SameStore s t) (hs : s.Denotes m) : t.Denotes m :=
  ⟨h.btree ▸ hs.btree, h.buffer.trans hs.buffer⟩

theorem removeImpl {key : Bytes} {found : Bool} (h : SameStore s t)
    (hr : ApiImpl.removeImpl key s = .ok (found, s')) :
    ∃ t', ApiImpl.removeImpl key t = .ok (found, t') ∧ SameStore s' t' := by
  obtain ⟨⟨removed, btree⟩, hrem, he⟩ := bind_eq_ok.mp hr
  obtain ⟨rfl, rfl⟩ := Prod.mk.inj (Except.ok.inj he)
  refine ⟨{ t with btree := btree, free := if removed then t.free.tail else t.free }, ?_, rfl, h.buffer, ?_⟩
  · rw [ApiImpl.removeImpl, h.btree, hrem]
    rfl
  · rw [h.free]

theorem insertImpl {key val : Bytes} (h : SameStore s t) (hr : ApiImpl.insertImpl fuel key val s = .ok ((), s')) :
    ∃ t', ApiImpl.insertImpl fuel key val t = .ok ((), t') ∧ SameStore s' t' := by
  obtain ⟨btree, hb, rfl⟩ := insertImpl_eq_ok.mp hr
  exact ⟨{ t with btree := btree, free := t.free.tail }, insertImpl_eq_ok.mpr ⟨btree, h.btree ▸ hb, rfl⟩, rfl, h.buffer,
    congrArg Stream'.tail h.free⟩

theorem stored {es : List (Bytes × Bytes)} (h : SameStore s t) (hs : Stored fuel noGuard es s s') :
    ∃ t', Stored fuel noGuard es t t' ∧ SameStore s' t' := by
  induction hs generalizing t with
  | nil => exact ⟨t, .nil t, h⟩
  | cons hr hg hi _ ih =>
    obtain ⟨t₁, hr', h₁⟩ := h.removeImpl hr
    obtain ⟨t₂, hi', h₂⟩ := h₁.insertImpl hi
    obtain ⟨t₃, hs', h₃⟩ := ih h₂
    exact ⟨t₃, .cons hr' trivial hi' hs', h₃⟩

theorem removals {ks : List Bytes} (h : SameStore s t) (hs : Removals ks s s') :
    ∃ t', Removals ks t t' ∧ SameStore s' t' := by
  induction ks generalizing s t with
  | nil =>
    obtain rfl := hs
    exact ⟨t, rfl, h⟩
  | cons key ks ih =>
    obtain ⟨found, s₁, hr, hs⟩ := hs
    obtain ⟨t₁, hr', h₁⟩ := h.removeImpl hr
    obtain ⟨t', hs', h'⟩ := ih h₁ hs
    exact ⟨t', ⟨found, t₁, hr', hs'⟩, h'⟩

end SameStore

theorem zrange_sameStore {min : Bytes} {limit : ℕ} {ks : List Bytes} (hs : s.Denotes m) (h : SameStore s t)
    (hr : zrange fuel min limit s = .ok (ks, s')) :
    SameStore s s' ∧ ∃ t', zrange fuel min limit t = .ok (ks, t') ∧ SameStore s' t' := by
  by_cases hl : limit = 0
  · rw [zrange, if_pos hl] at hr ⊢
    obtain ⟨rfl, rfl⟩ := state_pure_eq_ok.mp hr
    exact ⟨.refl _, t, rfl, h⟩
  · obtain ⟨keyOut, hscan, rfl⟩ := (zrange_eq_ok hl).mp hr
    obtain ⟨⟨keyOut', ks'⟩, hscan', rfl, hlen, hlen'⟩ :=
      BTree.rangeLookupImpl_agree hs.btree.inv rfl h.buffer hscan
    refine ⟨⟨rfl, hlen, rfl⟩, { t with keyOut := keyOut' }, (zrange_eq_ok hl).mpr ⟨keyOut', ?_, rfl⟩, h.btree,
      hlen'.trans hlen.symm, h.free⟩
    rw [h.btree, h.free]
    exact hscan'

theorem Plan.Carried.sameStore {p : Plan} (hs : s.Denotes m) (h : SameStore s t)
    (hc : p.Carried fuel s v s') : ∃ t', p.Carried fuel t v t' ∧ SameStore s' t' := by
  cases p with
  | reply value =>
    obtain ⟨rfl, rfl⟩ := hc
    exact ⟨t, ⟨rfl, rfl⟩, h⟩
  | write es value =>
    obtain ⟨t', ht', h'⟩ := h.stored hc.2
    exact ⟨t', ⟨hc.1, ht'⟩, h'⟩
  | erase ks value =>
    obtain ⟨t', ht', h'⟩ := h.removals hc.2
    exact ⟨t', ⟨hc.1, ht'⟩, h'⟩
  | flush =>
    obtain ⟨rfl, rfl⟩ := hc
    exact ⟨_, ⟨rfl, rfl⟩, rfl, h.buffer, congrArg Stream'.tail h.free⟩
  | memory =>
    obtain ⟨rfl, rfl⟩ := hc
    exact ⟨t, ⟨by rw [h.btree], rfl⟩, h⟩
  | scan min limit =>
    obtain ⟨ks, hr, rfl⟩ := hc
    obtain ⟨-, t', hr', h'⟩ := zrange_sameStore hs h hr
    exact ⟨t', ⟨ks, hr', rfl⟩, h'⟩
  | undefined => exact hc.elim

def Plan.next : Plan → KeyMap → KeyMap
  | .write es _, m => m.setAll es
  | .erase ks _, m => m.eraseAll ks
  | .flush, _ => KeyMap.empty
  | _, m => m

theorem Plan.Carried.denotes {p : Plan} (h : s.Denotes m) (hg : Guarded p.writes s)
    (hc : p.Carried fuel s v s') : s'.Denotes (p.next m) := by
  cases p with
  | reply value => exact hc.2 ▸ h
  | write es value => exact hc.2.denotes_guarded hg h
  | erase ks value => exact hc.2.denotes h
  | flush =>
    obtain ⟨-, rfl⟩ := hc
    exact ⟨BTree.empty_denotes, h.buffer⟩
  | memory => exact hc.2 ▸ h
  | scan min limit =>
    obtain ⟨ks, hr, -⟩ := hc
    exact (zrange_sameStore h (.refl s) hr).1.denotes h
  | undefined => exact hc.elim

def IsRead (name : CommandName) : Prop :=
  name ∈ [CommandName.get, .mget, .exists, .zrange, .ping, .info]

instance (name : CommandName) : Decidable (IsRead name) := inferInstanceAs (Decidable (_ ∈ _))

/-- A reading command with proper arguments and, for a scan, leaves that the buffer takes; `EXISTS` names no
stored key before an argument that is no string. -/
def Harmless (command : List RespValue) (s : Server) (m : KeyMap) : Prop :=
  ∃ name, commandName command = some name ∧ IsRead name ∧ Proper command m name ∧
    (name = .exists → ∀ k ∈ keysOf (command.drop 1), m k = none) ∧ (planOf command m).Scannable s

def Plan.Keeps (m : KeyMap) : Plan → Prop
  | .reply _ => True
  | .memory => True
  | .scan _ _ => True
  | .erase ks _ => ∀ k ∈ ks, m k = none
  | .undefined => True
  | _ => False

theorem plan_keeps {name : CommandName} (hread : IsRead name)
    (hexists : name = .exists → ∀ k ∈ keysOf (command.drop 1), m k = none) :
    (plan command m name).Keeps m := by
  cases name
  case ping => trivial
  case info => trivial
  case get =>
    rw [plan]
    split <;> trivial
  case mget =>
    rw [plan]
    split_ifs <;> trivial
  case «exists» =>
    rw [plan]
    split_ifs
    · trivial
    · exact hexists rfl
    · exact hexists rfl
  case zrange =>
    rw [plan]
    split
    · rename_i key minArg limitArg _ _ _
      cases hs : Plan.scanArgs command key minArg limitArg with
      | error f => trivial
      | ok p => rcases Plan.scanArgs_cases hs with ⟨u, rfl⟩ | ⟨min, limit, rfl⟩ <;> trivial
    · trivial
  all_goals simp [IsRead] at hread

theorem ApiImpl.Removals.eq_of_absent {ks : List Bytes} (h : s.Denotes m) (hks : ∀ k ∈ ks, m k = none)
    (hs : Removals ks s s') : s' = s := by
  induction ks generalizing s m with
  | nil => exact hs
  | cons key ks ih =>
    obtain ⟨hkey, hks⟩ := List.forall_mem_cons.mp hks
    obtain ⟨found, t, hr, hs⟩ := hs
    obtain ⟨t', hr', -, -, hsame⟩ := removeImpl_spec h key
    obtain ⟨-, rfl⟩ := Prod.mk.inj (Except.ok.inj (hr'.symm.trans hr))
    obtain rfl := hsame hkey
    exact ih h hks hs

theorem Plan.Keeps.sameStore {p : Plan} (hk : p.Keeps m) (h : s.Denotes m) (hc : p.Carried fuel s v s') :
    SameStore s s' := by
  cases p with
  | reply value => exact hc.2 ▸ .refl s
  | memory => exact hc.2 ▸ .refl s
  | scan min limit =>
    obtain ⟨ks, hr, -⟩ := hc
    exact (zrange_sameStore h (.refl s) hr).1
  | erase ks value => exact hc.2.eq_of_absent h hk ▸ .refl s
  | undefined => exact hc.elim
  | write => exact hk.elim
  | flush => exact hk.elim

theorem Plan.Keeps.writes {p : Plan} (hk : p.Keeps m) : p.writes = [] := by
  cases p with
  | write => exact hk.elim
  | _ => rfl

theorem Harmless.answers (hh : Harmless command s m) (h : s.Denotes m) :
    ∃ fuel v s', Answers (processCommand fuel command) s v s' ∧ SameStore s s' := by
  obtain ⟨name, hname, hread, hproper, hexists, hscan⟩ := hh
  have hk : (planOf command m).Keeps m := planOf_of_name hname m ▸ plan_keeps hread hexists
  have hg : Guarded (planOf command m).writes s := hk.writes ▸ trivial
  have hfit : Fits (planOf command m).writes := fun e he => absurd (hk.writes ▸ he) List.not_mem_nil
  have hne : planOf command m ≠ .undefined := by
    rw [planOf_of_name hname]
    exact (plan_ne_undefined name).mpr hproper
  obtain ⟨fuel, v, s', hc⟩ := (carried_iff h _ hg).mpr ⟨hne, hfit, hscan⟩
  exact ⟨fuel, v, s', (answers_processCommand h).mpr hc, hk.sameStore h hc⟩

inductive Step
  | original (command : List RespValue)
  | inserted (command : List RespValue)

def originals : List Step → List Step
  | [] => []
  | .original command :: steps => .original command :: originals steps
  | .inserted _ :: steps => originals steps

/-- A run of commands that are all answered, with the replies to the original ones. -/
inductive Run : List Step → Server → List RespValue → Server → Prop
  | nil (s : Server) : Run [] s [] s
  | original {fuel : ℕ} {command : List RespValue} {steps : List Step} {v : RespValue} {vs : List RespValue}
      {s s₁ s' : Server} : Answers (processCommand fuel command) s v s₁ → Run steps s₁ vs s' →
      Run (.original command :: steps) s (v :: vs) s'
  | inserted {fuel : ℕ} {command : List RespValue} {steps : List Step} {v : RespValue} {vs : List RespValue}
      {s s₁ s' : Server} : Answers (processCommand fuel command) s v s₁ → Run steps s₁ vs s' →
      Run (.inserted command :: steps) s vs s'

/-- Every inserted command is harmless where the original run has come to, and the insertions of
the original commands meet the conditions of the tree. -/
def HarmlessRun : List Step → Server → KeyMap → Prop
  | [], _, _ => True
  | .inserted command :: steps, s, m => Harmless command s m ∧ HarmlessRun steps s m
  | .original command :: steps, s, m => Guarded (planOf command m).writes s ∧
      ∀ fuel v s', Answers (processCommand fuel command) s v s' →
        HarmlessRun steps s' ((planOf command m).next m)

variable {steps : List Step} {vs : List RespValue} {s₁ : Server}

theorem run_sameStore (steps : List Step) (h : s.Denotes m) (hst : SameStore s t) (hh : HarmlessRun steps s m)
    (hr : Run (originals steps) s vs s₁) : ∃ s₂, Run steps t vs s₂ ∧ SameStore s₁ s₂ := by
  induction steps generalizing s t m vs with
  | nil =>
    cases hr
    exact ⟨t, .nil t, hst⟩
  | cons step steps ih =>
    cases step with
    | original command =>
      obtain ⟨hg, hrest⟩ := hh
      cases hr with
      | original hans hr =>
        have hc := (answers_processCommand h).mp hans
        obtain ⟨t₁, hc', hst₁⟩ := hc.sameStore h hst
        obtain ⟨s₂, hrun, hsame⟩ := ih (hc.denotes h hg) hst₁ (hrest _ _ _ hans) hr
        exact ⟨s₂, .original ((answers_processCommand (hst.denotes h)).mpr hc') hrun, hsame⟩
    | inserted command =>
      obtain ⟨hcommand, hrest⟩ := hh
      obtain ⟨fuel, v, s', hans, hs'⟩ := hcommand.answers h
      obtain ⟨t₁, hc', hst₁⟩ := ((answers_processCommand h).mp hans).sameStore h hst
      have hst' : SameStore s t₁ :=
        ⟨hst₁.btree.trans hs'.btree, hst₁.buffer.trans hs'.buffer, hst₁.free.trans hs'.free⟩
      obtain ⟨s₂, hrun, hsame⟩ := ih h hst' hrest hr
      exact ⟨s₂, .inserted ((answers_processCommand (hst.denotes h)).mpr hc') hrun, hsame⟩

/-- Harmless commands put into a run change no reply to the others and nothing in the tree. -/
theorem run_unchanged (steps : List Step) (h : s.Denotes m) (hh : HarmlessRun steps s m)
    (hr : Run (originals steps) s vs s₁) : ∃ s₂, Run steps s vs s₂ ∧ s₂.btree = s₁.btree := by
  obtain ⟨s₂, hrun, hsame⟩ := run_sameStore steps h (.refl s) hh hr
  exact ⟨s₂, hrun, hsame.btree⟩

theorem msetPair_answers : ∃ fuel s₁, Answers (processCommand fuel msetPair) Server.start Plan.ok s₁ ∧
    s₁.Denotes (KeyMap.empty.setAll [(bytes "a", bytes "b")]) := by
  have hg := start_guarded (bytes "a") (bytes "b")
  obtain ⟨fuel, s₁, hs⟩ := stored_of_guarded _ Server.start_denotes hg (by decide)
  have hc : (planOf msetPair KeyMap.empty).Carried fuel Server.start Plan.ok s₁ := ⟨rfl, hs⟩
  exact ⟨fuel, s₁, (answers_processCommand Server.start_denotes).mpr hc, hs.denotes_guarded hg Server.start_denotes⟩

def existsCommand (key : Bytes) : List RespValue := [bytes "EXISTS", key].map bulk

def readingSteps : List Step := [.inserted (existsCommand [6]), .original (getCommand [4]), .inserted (mgetCommand [[1], [4]]),
  .inserted (zrangeCommand [2] (bytes "3")), .original (setCommand [6] BTree.kilobyte), .inserted (mgetCommand [[1], [4]]),
  .inserted (existsCommand [7]), .original (getCommand [6])]

theorem exists_harmless {key : Bytes} (hkey : m key = none) : Harmless (existsCommand key) s m := by
  have hname : commandName (existsCommand key) = some .exists := by
    have hroot : getArgOrNull (existsCommand key) 0 = some (bytes "EXISTS") := rfl
    rw [commandName, hroot]
    decide
  refine ⟨.exists, hname, by decide, trivial, fun _ k hk => ?_, ?_⟩
  · obtain rfl := List.mem_singleton.mp hk
    exact hkey
  · rw [planOf_of_name hname]
    trivial

theorem mget_harmless (h1 : m [1] ≠ none) (h4 : m [4] ≠ none) : Harmless (mgetCommand [[1], [4]]) s m := by
  have hname : commandName (mgetCommand [[1], [4]]) = some .mget := by decide
  have hargs : StringArgs ((mgetCommand [[1], [4]]).drop 1) ∧ ∀ arg ∈ (mgetCommand [[1], [4]]).drop 1, m arg.str ≠ none := by
    refine ⟨by decide, List.forall_mem_cons.mpr ⟨h1, ?_⟩⟩
    exact List.forall_mem_singleton.mpr h4
  refine ⟨.mget, hname, by decide, hargs, fun he => (nomatch he), ?_⟩
  rw [planOf_of_name hname, plan, if_pos hargs]
  trivial

theorem zrange_harmless (hscan : s.CanScan [2] (limitOf 3)) : Harmless (zrangeCommand [2] (bytes "3")) s m := by
  have hname : commandName (zrangeCommand [2] (bytes "3")) = some .zrange := by decide
  have hplan : planOf (zrangeCommand [2] (bytes "3")) m = .scan [2] (limitOf 3) := planOf_zrangeCommand (by decide)
  refine ⟨.zrange, hname, by decide, ?_, fun he => (nomatch he), ?_⟩
  · refine (plan_ne_undefined .zrange).mp ?_
    rw [← planOf_of_name hname, hplan]
    simp
  · rw [hplan]
    exact hscan

theorem run_unchanged_reads : ∃ s s₁ s₂ : Server, s.Denotes (KeyMap.empty.setAll sixKeys) ∧
    Run (originals readingSteps) s [bulk [7], Plan.ok, bulk BTree.kilobyte] s₁ ∧
    Run readingSteps s [bulk [7], Plan.ok, bulk BTree.kilobyte] s₂ ∧ s₂.btree = s₁.btree := by
  obtain ⟨m, hm⟩ : ∃ m, m = KeyMap.empty.setAll sixKeys := ⟨_, rfl⟩
  obtain ⟨m', hm'⟩ : ∃ m', m' = m.setAll [([6], BTree.kilobyte)] := ⟨_, rfl⟩
  have hrun : storeReaches 4 sixKeys (fun s => decide
      (s.CanScan [2] (limitOf 3) ∧ GuardedWithin 4 [([6], BTree.kilobyte)] s)) = true := by
    decide +kernel
  obtain ⟨s, hden, hscan, hwithin⟩ := storeReaches_spec hrun
  have hg : Guarded [([6], BTree.kilobyte)] s := hwithin.guarded
  rw [← hm] at hden
  have hbefore : m [6] = none ∧ m [1] ≠ none ∧ m [4] ≠ none := by
    subst hm
    decide
  have hbehind : m' [7] = none ∧ m' [1] ≠ none ∧ m' [4] ≠ none := by
    subst hm' hm
    decide
  have hh : HarmlessRun readingSteps s m := by
    refine ⟨exists_harmless hbefore.1, trivial, fun _ _ t ht => ?_⟩
    obtain ⟨-, rfl⟩ : _ ∧ t = s := (answers_processCommand hden).mp ht
    refine ⟨mget_harmless hbefore.2.1 hbefore.2.2, zrange_harmless hscan, hg, fun _ _ _ _ => ?_⟩
    subst hm'
    exact ⟨mget_harmless hbehind.2.1 hbehind.2.2, exists_harmless hbehind.1, trivial, fun _ _ _ _ => trivial⟩
  obtain ⟨fuel, s₁, hs⟩ := stored_of_guarded _ hden hg (by decide +kernel)
  have hden' := hs.denotes_guarded hg hden
  rw [← hm'] at hden'
  have hget : Answers (processCommand 0 (getCommand [4])) s (bulk [7]) s :=
    (answers_processCommand hden).mpr ⟨by subst hm; rfl, rfl⟩
  have hset : Answers (processCommand fuel (setCommand [6] BTree.kilobyte)) s Plan.ok s₁ :=
    (answers_processCommand hden).mpr ⟨rfl, hs⟩
  have hlast : Answers (processCommand 0 (getCommand [6])) s₁ (bulk BTree.kilobyte) s₁ :=
    (answers_processCommand hden').mpr ⟨by subst hm'; rfl, rfl⟩
  have horiginals := Run.original hget (.original hset (.original hlast (.nil s₁)))
  obtain ⟨s₂, hinserted, hsame⟩ := run_unchanged readingSteps hden hh horiginals
  exact ⟨s, s₁, s₂, hm ▸ hden, horiginals, hinserted, hsame⟩

/-- `EXISTS a` after `MSET a b`. -/
theorem run_changed_exists : ¬ ∀ (steps : List Step) (s : Server) (m : KeyMap) (vs : List RespValue) (s₁ : Server),
    s.Denotes m →
    (∀ command, .inserted command ∈ steps → ∃ name, commandName command = some name ∧ IsRead name) →
    Run (originals steps) s vs s₁ → ∃ s₂, Run steps s vs s₂ ∧ s₂.btree = s₁.btree := by
  intro hall
  obtain ⟨-, s, -, h⟩ := msetPair_answers
  obtain ⟨command, hcommand⟩ : ∃ command, command = existsCommand (bytes "a") := ⟨_, rfl⟩
  have hread : ∀ c, Step.inserted c ∈ [Step.inserted command] →
      ∃ name, commandName c = some name ∧ IsRead name := by
    intro c hc
    obtain rfl := Step.inserted.inj (List.mem_singleton.mp hc)
    subst hcommand
    exact ⟨.exists, by decide, by decide⟩
  obtain ⟨s₂, hrun, hsame⟩ := hall [.inserted command] s _ [] s h hread (.nil s)
  cases hrun with
  | inserted hans hrun =>
    cases hrun
    have hc := (answers_processCommand h).mp hans
    have hplan : planOf command (KeyMap.empty.setAll [(bytes "a", bytes "b")]) =
        .erase [bytes "a"] (.integer 1) := by
      subst hcommand
      rfl
    rw [hplan] at hc
    have hg : Guarded (Plan.erase [bytes "a"] (.integer 1)).writes s := trivial
    have hden := hc.denotes h hg
    have hold : s₂.Denotes (KeyMap.empty.setAll [(bytes "a", bytes "b")]) := ⟨hsame ▸ h.btree, hden.buffer⟩
    have heq := congrFun (hden.unique hold) (bytes "a")
    exact absurd heq (by decide)

end BtreeRedis
