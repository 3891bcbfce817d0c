import BtreeRedis.Resp.Prefix
import BtreeRedis.Server.LexRange
import BtreeRedis.Server.Plain

/-!
# The server as a process

The process takes one connection after another and on each one command after another, all on
the one tree. Seen from outside it is a map: what the connections are sent are the encoded
replies of a map to the commands that arrived, in their order.
-/

namespace BtreeRedis

open SortedAssoc Reader Connection ApiImpl CommandContext RespApi

variable {σ : Type} {alloc : Allocator} {fuel fuel' : ℕ}

/-- The handler of `main`. Nothing catches a fault of a command. -/
def handleCommand (fuel : ℕ) : Except ServerFault Context → List RespValue →
    Except ServerFault Context × Option ReadFault
  | .error f, _ => (.error f, some .runtimeError)
  | .ok c, command => match processCommand fuel command c with
    | .ok ((), c') => (.ok c', none)
    | .error f => (.error f, some .runtimeError)

/-- One turn of the loop of `main`, for a socket that delivers these chunks. -/
def serveConnection (alloc : Allocator) (fuel : ℕ) (s : Server) (chunks : List Bytes) :
    Except ServerFault Context × Option ReadFault :=
  run alloc (handleCommand fuel) (.ok ⟨s, []⟩) (accept chunks)

def written (sent : List (RespValue × Bytes)) : Bytes := sent.flatMap Prod.snd

/-- The loop of `main`: what each connection is sent, unless the process ends before. -/
def mainLoop (alloc : Allocator) (fuel : ℕ) : List (List Bytes) → Server → Option (List Bytes × Server)
  | [], s => some ([], s)
  | chunks :: connections, s => match serveConnection alloc fuel s chunks with
    | (.ok c, none) => (mainLoop alloc fuel connections c.server).map fun r => (written c.sent :: r.1, r.2)
    | _ => none

abbrev Exchange := List RespValue × RespValue

inductive Served (fuel : ℕ) : List Exchange → Server → Server → Prop
  | nil (s : Server) : Served fuel [] s s
  | cons {command : List RespValue} {v : RespValue} {xs : List Exchange} {s s₁ s' : Server} :
      Answers (processCommand fuel command) s v s₁ → Served fuel xs s₁ s' → Served fuel ((command, v) :: xs) s s'

def Transcript (xs : List Exchange) (w : Bytes) : Prop := RespValue.writeItems (xs.map Prod.snd) = .ok w

/-- Each connection brings these commands, complete, and then ends where the reader waits. -/
def Delivers (alloc : Allocator) (commandss : List (List (List RespValue))) (connections : List (List Bytes)) : Prop :=
  List.Forall₂ (fun commands chunks => WellFormed alloc commands chunks.flatten) commandss connections

def commandsOf (sessions : List (List Exchange)) : List (List (List RespValue)) := sessions.map (List.map Prod.fst)

section Loop
variable {handler : σ → List RespValue → σ × Option ReadFault}

def handleAll (handler : σ → List RespValue → σ × Option ReadFault) :
    List (List RespValue) → σ → σ × Option ReadFault
  | [], s => (s, none)
  | command :: commands, s => match handler s command with
    | (s', some e) => (s', caught e)
    | (s', none) => handleAll handler commands s'

theorem runLoop_handleAll {commands : List (List RespValue)} (fuel : ℕ) (s : σ) {c : Connection}
    (h : WellFormed alloc commands c.stream) (hl : c.stream.length < fuel) :
    runLoop alloc handler fuel s c = handleAll handler commands s := by
  induction commands generalizing fuel s c with
  | nil =>
    obtain ⟨body, rest, hs, ⟨⟩, hw⟩ := h
    obtain ⟨k, rfl⟩ := Nat.exists_eq_add_of_lt hl
    have hclosed : CFails (readCommand alloc) rest .connectionClosed := (readValue_waiting hw).bind
    rw [runLoop, hclosed c hs]
    rfl
  | cons args commands ih =>
    obtain ⟨_, rest, hs, hb, hw⟩ := h
    rw [List.map_cons] at hb
    rcases hb with _ | @⟨_, _, text, body, ht, hb⟩
    obtain ⟨k, rfl⟩ := Nat.exists_eq_add_of_lt hl
    rw [List.append_assoc] at hs
    obtain ⟨c', hc', hs'⟩ := readCommand_encoded ht (body ++ rest) c hs
    have hpos := ht.pos
    have hlen : c'.stream.length < c.stream.length := by
      rw [hs, hs']
      simp only [List.length_append]
      omega
    simp only [runLoop, hc', handleAll]
    cases hst : handler s args with
    | mk s' o =>
      cases o with
      | none => exact ih _ s' ⟨body, rest, hs', hb, hw⟩ (by omega)
      | some e => rfl

theorem runLoop_wellFormed_of_returned (hh : ∀ s command, (handler s command).2 ≠ some .connectionClosed)
    (fuel : ℕ) (s : σ) {c : Connection} (h : (runLoop alloc handler fuel s c).2 = none) :
    ∃ commands, WellFormed alloc commands c.stream := by
  induction fuel generalizing s c with
  | zero => cases h
  | succ fuel ih =>
    rcases @readCommand_outcome alloc c.stream with @⟨args, text, rest, hs, ht, hr⟩ | ⟨hw, -⟩ | @⟨e, he, hf⟩
    · obtain ⟨c', hc', hrest⟩ := hr c rfl
      have hnot := hh s args
      simp only [runLoop, hc'] at h
      rcases hst : handler s args with ⟨s', _ | e⟩
      · simp only [hst] at h
        obtain ⟨commands, body, rest', hs', hb, hw⟩ := ih s' h
        refine ⟨args :: commands, text ++ body, rest', ?_, .cons ht hb, hw⟩
        rw [hs, ← hrest, hs', List.append_assoc]
      · rw [hst] at hnot
        simp only [hst, caught, if_neg fun he : e = .connectionClosed => hnot (he ▸ rfl)] at h
        cases h
    · exact ⟨[], [], c.stream, rfl, .nil, hw⟩
    · rw [runLoop, hf c rfl] at h
      simp only [caught, if_neg he.ne_closed] at h
      cases h

theorem run_returned_iff (hh : ∀ s command, (handler s command).2 ≠ some .connectionClosed) {s s' : σ}
    {chunks : List Bytes} : run alloc handler s (accept chunks) = (s', none) ↔
      ∃ commands, WellFormed alloc commands chunks.flatten ∧ handleAll handler commands s = (s', none) := by
  have hrun : ∀ {commands}, WellFormed alloc commands chunks.flatten →
      run alloc handler s (accept chunks) = handleAll handler commands s := fun h =>
    runLoop_handleAll _ s h (Nat.lt_succ_self _)
  constructor
  · intro h
    obtain ⟨commands, hc⟩ := runLoop_wellFormed_of_returned hh _ s (congrArg Prod.snd h)
    exact ⟨commands, hc, (hrun hc).symm.trans h⟩
  · rintro ⟨commands, hc, h⟩
    exact (hrun hc).trans h

end Loop

variable {s s' : Server} {m m' : KeyMap} {command : List RespValue} {v : RespValue} {w : Bytes} {xs : List Exchange}

theorem processCommand_eq_ok {sent : List (RespValue × Bytes)} {c : Context} :
    processCommand fuel command ⟨s, sent⟩ = .ok ((), c) ↔
      ∃ v w, v.writeValue = .ok w ∧ Answers (processCommand fuel command) s v c.server ∧ c.sent = sent ++ [(v, w)] := by
  constructor
  · intro h
    obtain ⟨v, -, w, hw, hv⟩ := sends_processCommand fuel command _ _ h
    obtain ⟨-, hc⟩ := Prod.mk.inj (Except.ok.inj ((hv sent).symm.trans h))
    exact ⟨v, w, hw, ⟨w, hw, hv⟩, (congrArg Context.sent hc).symm⟩
  · rintro ⟨v, w, hw, ⟨w', hw', hv⟩, hsent⟩
    obtain rfl := Except.ok.inj (hw.symm.trans hw')
    rw [hv sent, ← hsent]

def Sent (x : Exchange) (p : RespValue × Bytes) : Prop := p.1 = x.2 ∧ x.2.writeValue = .ok p.2

theorem handleAll_iff {commands : List (List RespValue)} {sent : List (RespValue × Bytes)} {c : Context} :
    handleAll (handleCommand fuel) commands (.ok ⟨s, sent⟩) = (.ok c, none) ↔
      ∃ (xs : List Exchange) (new : List (RespValue × Bytes)), xs.map Prod.fst = commands ∧ Served fuel xs s c.server ∧
        c.sent = sent ++ new ∧ List.Forall₂ Sent xs new := by
  induction commands generalizing s sent with
  | nil =>
    constructor
    · intro hc
      obtain rfl := Except.ok.inj (congrArg Prod.fst hc)
      exact ⟨[], [], rfl, .nil _, (List.append_nil _).symm, .nil⟩
    · rintro ⟨xs, new, hxs, hserved, hsent, hnew⟩
      obtain rfl := List.map_eq_nil_iff.mp hxs
      cases hnew
      obtain ⟨server, sent'⟩ := c
      cases hserved
      obtain rfl : sent' = sent := hsent.trans (List.append_nil sent)
      rfl
  | cons command commands ih =>
    rw [handleAll, handleCommand]
    constructor
    · intro hc
      cases hp : processCommand fuel command ⟨s, sent⟩ with
      | error f =>
        rw [hp] at hc
        cases congrArg Prod.snd hc
      | ok r =>
        obtain ⟨⟨⟩, c₁⟩ := r
        rw [hp] at hc
        obtain ⟨v, w, hw, hans, hsent⟩ := processCommand_eq_ok.mp hp
        obtain ⟨xs, new, rfl, hserved, hnew, hall⟩ := ih.mp hc
        refine ⟨(command, v) :: xs, (v, w) :: new, rfl, .cons hans hserved, ?_, .cons ⟨rfl, hw⟩ hall⟩
        rw [hnew, hsent, List.append_assoc, List.singleton_append]
    · rintro ⟨xs, new, hxs, hserved, hsent, hall⟩
      cases hserved with
      | nil => cases hxs
      | @cons _ v xs _ s₁ _ hans hserved =>
        rw [List.map_cons, List.cons.injEq] at hxs
        obtain ⟨rfl, hxs⟩ := hxs
        cases hall with
        | @cons _ p _ new hp hall =>
          obtain ⟨u, w⟩ := p
          obtain ⟨rfl, hw⟩ := hp
          have hone : processCommand fuel _ ⟨s, sent⟩ = .ok ((), ⟨s₁, sent ++ [(_, w)]⟩) :=
            processCommand_eq_ok.mpr ⟨_, w, hw, hans, rfl⟩
          rw [hone]
          refine ih.mpr ⟨xs, new, hxs, hserved, ?_, hall⟩
          rw [hsent, List.append_assoc, List.singleton_append]

theorem transcript_of_sent {xs : List Exchange} {new : List (RespValue × Bytes)} (h : List.Forall₂ Sent xs new) :
    Transcript xs (written new) := by
  induction h with
  | nil => rfl
  | cons hx _ ih =>
    rw [Transcript, List.map_cons, RespValue.writeItems, hx.2, ok_bind, ih]
    rfl

theorem exists_sent {xs : List Exchange} (h : Served fuel xs s s') :
    ∃ new, List.Forall₂ Sent xs new := by
  induction h with
  | nil => exact ⟨[], .nil⟩
  | @cons command v xs s s₁ s' hans _ ih =>
    obtain ⟨w, hw, -⟩ := hans
    obtain ⟨new, hnew⟩ := ih
    exact ⟨(v, w) :: new, .cons ⟨rfl, hw⟩ hnew⟩

theorem serveConnection_iff {chunks : List Bytes} {c : Context} :
    serveConnection alloc fuel s chunks = (.ok c, none) ↔
      ∃ xs : List Exchange, WellFormed alloc (xs.map Prod.fst) chunks.flatten ∧ Served fuel xs s c.server ∧
        List.Forall₂ Sent xs c.sent := by
  have hthrown : ∀ s command, (handleCommand fuel s command).2 ≠ some .connectionClosed := by
    intro s command
    cases s with
    | error f => exact fun h => by cases h
    | ok c =>
      rw [handleCommand]
      cases processCommand fuel command c with
      | error f => exact fun h => by cases h
      | ok r => exact fun h => by cases h
  rw [serveConnection, run_returned_iff hthrown]
  constructor
  · rintro ⟨_, hwell, hall⟩
    obtain ⟨xs, new, rfl, hserved, hsent, hnew⟩ := handleAll_iff.mp hall
    exact ⟨xs, hwell, hserved, hsent ▸ hnew⟩
  · rintro ⟨xs, hwell, hserved, hsent⟩
    exact ⟨_, hwell, handleAll_iff.mpr ⟨xs, c.sent, rfl, hserved, rfl, hsent⟩⟩

theorem Served.append {xs ys : List Exchange} {s₁ : Server} (h : Served fuel xs s s₁) (h' : Served fuel ys s₁ s') :
    Served fuel (xs ++ ys) s s' := by
  induction h with
  | nil => exact h'
  | cons hans _ ih => exact .cons hans (ih h')

theorem Served.split {xs ys : List Exchange} (h : Served fuel (xs ++ ys) s s') :
    ∃ s₁, Served fuel xs s s₁ ∧ Served fuel ys s₁ s' := by
  induction xs generalizing s with
  | nil => exact ⟨s, .nil s, h⟩
  | cons x xs ih =>
    cases h with
    | cons hans h =>
      obtain ⟨s₁, hxs, hys⟩ := ih h
      exact ⟨s₁, .cons hans hxs, hys⟩

theorem mainLoop_iff {connections : List (List Bytes)} {ws : List Bytes} :
    mainLoop alloc fuel connections s = some (ws, s') ↔ ∃ sessions : List (List Exchange),
      Delivers alloc (commandsOf sessions) connections ∧ Served fuel sessions.flatten s s' ∧
        List.Forall₂ Transcript sessions ws := by
  induction connections generalizing s ws with
  | nil =>
    constructor
    · intro h
      obtain ⟨rfl, rfl⟩ := Prod.mk.inj (Option.some.inj h)
      exact ⟨[], .nil, .nil _, .nil⟩
    · rintro ⟨sessions, hwell, hserved, hws⟩
      obtain rfl : sessions = [] := List.map_eq_nil_iff.mp (List.forall₂_nil_right_iff.mp hwell)
      cases hws
      cases hserved
      rfl
  | cons chunks connections ih =>
    rw [mainLoop]
    constructor
    · intro h
      split at h
      · rename_i c hc
        obtain ⟨⟨ws, t⟩, hrest, he⟩ := Option.map_eq_some_iff.mp h
        obtain ⟨rfl, rfl⟩ := Prod.mk.inj he
        obtain ⟨xs, hwell, hserved, hsent⟩ := serveConnection_iff.mp hc
        obtain ⟨sessions, hwells, hserveds, hws⟩ := ih.mp hrest
        exact ⟨xs :: sessions, .cons hwell hwells, hserved.append hserveds, .cons (transcript_of_sent hsent) hws⟩
      · cases h
    · rintro ⟨sessions, hwell, hserved, hws⟩
      cases hws with
      | nil => cases hwell
      | @cons xs w sessions ws hw hws =>
        cases hwell with
        | cons hwell hwells =>
          obtain ⟨s₁, hxs, hrest⟩ := hserved.split
          obtain ⟨new, hnew⟩ := exists_sent hxs
          have hone : serveConnection alloc fuel s chunks = (.ok ⟨s₁, new⟩, none) :=
            serveConnection_iff.mpr ⟨xs, hwell, hxs, hnew⟩
          have hw' : written new = w := Except.ok.inj ((transcript_of_sent hnew).symm.trans hw)
          simp only [hone, ih.mpr ⟨sessions, hwells, hrest, hws⟩, hw', Option.map_some]

def KeyMap.Lists (m : KeyMap) (min : Bytes) (ks : List Bytes) : Prop :=
  Ascending ks ∧ ∀ k, k ∈ ks ↔ min ≤ k ∧ m k ≠ none

/-- What a map replies to a plan. Of the memory it knows only that it is made of pages. -/
def Plan.Replies (m : KeyMap) : Plan → RespValue → Prop
  | .reply value, v => v = value
  | .write _ value, v => v = value
  | .erase _ value, v => v = value
  | .flush, v => v = Plan.ok
  | .memory, v => ∃ pages, 0 < pages ∧ v = .bulkString (some (infoText (pointerSize + pageSize * pages)))
  | .scan min limit, v => ∃ ks, m.Lists min ks ∧ v = Plan.values ((ks.take limit).map some)
  | .undefined, _ => False

inductive KeyMap.Session : List Exchange → KeyMap → KeyMap → Prop
  | nil (m : KeyMap) : Session [] m m
  | cons {command : List RespValue} {v : RespValue} {xs : List Exchange} {m m' : KeyMap} :
      (planOf command m).Replies m v → Session xs ((planOf command m).next m) m' → Session ((command, v) :: xs) m m'

/-- The insertions of the commands meet the conditions of the tree, wherever their answers lead. -/
def GuardedSession : List (List RespValue) → Server → KeyMap → Prop
  | [], _, _ => True
  | command :: commands, s, m => Guarded (planOf command m).writes s ∧
      ∀ fuel v s₁, Answers (processCommand fuel command) s v s₁ →
        GuardedSession commands s₁ ((planOf command m).next m)

theorem WellFormed.unique {commands commands' : List (List RespValue)} {text : Bytes}
    (h : WellFormed alloc commands text) (h' : WellFormed alloc commands' text) : commands = commands' := by
  have hstream : (accept [text]).stream = text := List.append_nil text
  have hrun : ∀ {cs}, WellFormed alloc cs text → run alloc (record (total fun (_ : Unit) _ => ())) ((), [])
      (accept [text]) = ((cs.foldl (fun _ _ => ()) (), [] ++ cs), none) := fun hcs =>
    runLoop_wellFormed _ () [] (hstream.symm ▸ hcs) (Nat.lt_succ_self _)
  have hboth := (hrun h).symm.trans (hrun h')
  exact congrArg (fun r => r.1.2) hboth

theorem AnyNode.nodeCount_pos : (h : ℕ) → (n : AnyNode h) → 0 < AnyNode.nodeCount h n
  | 0, _ => Nat.zero_lt_one
  | _ + 1, _ => Nat.add_pos_left Nat.zero_lt_one _

theorem Server.Denotes.lists (h : s.Denotes m) (min : Bytes) : m.Lists min (s.btree.keysFrom min) := by
  have hsub : (s.btree.keysFrom min).Sublist (keys s.btree.entries) := List.filter_sublist.map Prod.fst
  refine ⟨h.btree.inv.ascending.sublist hsub, fun k => ?_⟩
  have hmem : k ∈ keys s.btree.entries ↔ _ := h.btree.mem_iff
  rw [Option.isSome_iff_ne_none] at hmem
  rw [← hmem, BTree.keysFrom, keys, keys, List.mem_map, List.mem_map]
  constructor
  · rintro ⟨e, he, rfl⟩
    obtain ⟨he, hle⟩ := List.mem_filter.mp he
    exact ⟨of_decide_eq_true hle, e, he, rfl⟩
  · rintro ⟨hle, e, he, rfl⟩
    exact ⟨e, List.mem_filter.mpr ⟨he, decide_eq_true hle⟩, rfl⟩

theorem Plan.Carried.replies {p : Plan} (h : s.Denotes m) (hc : p.Carried fuel s v s') : p.Replies m v := by
  cases p with
  | reply value => exact hc.1
  | write es value => exact hc.1
  | erase ks value => exact hc.1
  | flush => exact hc.1
  | memory => exact ⟨_, AnyNode.nodeCount_pos _ _, hc.1⟩
  | scan min limit =>
    obtain ⟨ks, hr, rfl⟩ := hc
    refine ⟨_, h.lists min, ?_⟩
    rcases Nat.eq_zero_or_pos limit with rfl | hl
    · obtain ⟨rfl, -⟩ := Prod.mk.inj (Except.ok.inj hr)
      rfl
    · rw [zrange_spec h hl hr]
  | undefined => exact hc.elim

theorem Served.session (hserved : Served fuel xs s s') (h : s.Denotes m) (hg : GuardedSession (xs.map Prod.fst) s m) :
    ∃ m', KeyMap.Session xs m m' ∧ s'.Denotes m' := by
  induction hserved generalizing m with
  | nil => exact ⟨m, .nil m, h⟩
  | @cons command v xs s s₁ s' hans _ ih =>
    have hc := (answers_processCommand h).mp hans
    obtain ⟨m', hsession, hden⟩ := ih (hc.denotes h hg.1) (hg.2 fuel v s₁ hans)
    exact ⟨m', .cons (hc.replies h) hsession, hden⟩

theorem BTree.rangeLoop_mono {σ : Type} (found : Callback σ) (free : FreeBytes) (t : BTree) {fuel fuel' : ℕ} (hle : fuel ≤ fuel')
    {leafKey : Option Bytes} {keyLen : ℕ} {keyOut : Bytes} {state : σ} {r : Bytes × σ}
    (h : t.rangeLoop found free fuel leafKey keyLen keyOut state = .ok r) :
    t.rangeLoop found free fuel' leafKey keyLen keyOut state = .ok r := by
  induction fuel generalizing fuel' leafKey keyLen keyOut state with
  | zero => cases h
  | succ fuel ih =>
    obtain ⟨fuel', rfl⟩ : ∃ n, fuel' = n + 1 := ⟨fuel' - 1, by omega⟩
    simp only [rangeLoop, bind_eq_ok] at h ⊢
    obtain ⟨leaf, hleaf, scanned, hscanned, h⟩ := h
    refine ⟨leaf, hleaf, scanned, hscanned, ?_⟩
    split_ifs at h ⊢ with hmore hend
    · exact h
    · simp only [bind_eq_ok] at h ⊢
      obtain ⟨keyOut₁, h₁, keyOut₂, h₂, h⟩ := h
      exact ⟨keyOut₁, h₁, keyOut₂, h₂, ih (Nat.le_of_succ_le_succ hle) h⟩
    · exact h

/-- With more fuel a command that was answered is answered alike. -/
theorem Plan.Carried.mono {p : Plan} (hle : fuel ≤ fuel')
    (h : p.Carried fuel s v s') : p.Carried fuel' s v s' := by
  cases p with
  | write es value => exact ⟨h.1, h.2.mono hle fun _ _ _ hg => hg⟩
  | scan min limit =>
    obtain ⟨ks, hr, hv⟩ := h
    refine ⟨ks, ?_, hv⟩
    rcases eq_or_ne limit 0 with rfl | hl
    · exact hr
    · obtain ⟨keyOut, hscan, hs⟩ := (zrange_eq_ok hl).mp hr
      obtain ⟨keyOut₁, hstart, hloop⟩ := bind_eq_ok.mp hscan
      exact (zrange_eq_ok hl).mpr ⟨keyOut, bind_eq_ok.mpr ⟨keyOut₁, hstart, BTree.rangeLoop_mono _ _ _ hle hloop⟩, hs⟩
  | _ => exact h

theorem answers_mono (h : s.Denotes m) (hle : fuel ≤ fuel') (ha : Answers (processCommand fuel command) s v s') :
    Answers (processCommand fuel' command) s v s' :=
  (answers_processCommand h).mpr (((answers_processCommand h).mp ha).mono hle)

/-- Each command has proper arguments, writes entries of admissible sizes, and scans leaves that the buffer takes. -/
def Serviceable : List (List RespValue) → Server → KeyMap → Prop
  | [], _, _ => True
  | command :: commands, s, m =>
      (Answerable command m ∧ Fits (planOf command m).writes ∧ (planOf command m).Scannable s) ∧
      ∀ fuel v s₁, Answers (processCommand fuel command) s v s₁ → Serviceable commands s₁ ((planOf command m).next m)

theorem Served.mono (hserved : Served fuel xs s s') (h : s.Denotes m) (hg : GuardedSession (xs.map Prod.fst) s m)
    (hle : fuel ≤ fuel') : Served fuel' xs s s' := by
  induction hserved generalizing m with
  | nil => exact .nil _
  | cons hans _ ih =>
    have hden := ((answers_processCommand h).mp hans).denotes h hg.1
    exact .cons (answers_mono h hle hans) (ih hden (hg.2 _ _ _ hans))

theorem answered_iff (h : s.Denotes m) (hg : Guarded (planOf command m).writes s) :
    (∃ fuel v s₁, Answers (processCommand fuel command) s v s₁) ↔
      Answerable command m ∧ Fits (planOf command m).writes ∧ (planOf command m).Scannable s := by
  simp only [answers_processCommand h, carried_iff h _ hg, planOf_ne_undefined]

theorem served_iff (commands : List (List RespValue)) (h : s.Denotes m) (hg : GuardedSession commands s m) :
    (∃ (fuel : ℕ) (xs : List Exchange) (s' : Server), xs.map Prod.fst = commands ∧ Served fuel xs s s') ↔
      Serviceable commands s m := by
  induction commands generalizing s m with
  | nil => exact iff_of_true ⟨0, [], s, rfl, .nil s⟩ trivial
  | cons command commands ih =>
    rw [Serviceable, ← answered_iff h hg.1]
    constructor
    · rintro ⟨fuel, xs, s', hxs, hserved⟩
      cases hserved with
      | nil => cases hxs
      | @cons _ v xs _ s₁ _ hans hserved =>
        rw [List.map_cons, List.cons.injEq] at hxs
        obtain ⟨rfl, rfl⟩ := hxs
        refine ⟨⟨fuel, v, s₁, hans⟩, fun fuel' v' s₁' hans' => ?_⟩
        have hmax := answers_mono h (Nat.le_max_left fuel fuel') hans
        obtain ⟨-, rfl⟩ := hmax.unique (answers_mono h (Nat.le_max_right fuel fuel') hans')
        have hden := ((answers_processCommand h).mp hans).denotes h hg.1
        exact (ih hden (hg.2 _ _ _ hans)).mp ⟨fuel, xs, s', rfl, hserved⟩
    · rintro ⟨⟨fuel, v, s₁, hans⟩, hrest⟩
      have hden := ((answers_processCommand h).mp hans).denotes h hg.1
      have hg' := hg.2 _ _ _ hans
      obtain ⟨fuel', xs, s', rfl, hserved⟩ := (ih hden hg').mpr (hrest _ _ _ hans)
      refine ⟨max fuel fuel', (command, v) :: xs, s', rfl, .cons (answers_mono h (Nat.le_max_left ..) hans) ?_⟩
      exact hserved.mono hden hg' (Nat.le_max_right ..)

theorem exists_sessions {commandss : List (List (List RespValue))} {xs : List Exchange}
    (h : xs.map Prod.fst = commandss.flatten) :
    ∃ sessions : List (List Exchange), sessions.flatten = xs ∧ commandsOf sessions = commandss := by
  induction commandss generalizing xs with
  | nil =>
    obtain rfl := List.map_eq_nil_iff.mp h
    exact ⟨[], rfl, rfl⟩
  | cons commands commandss ih =>
    rw [List.flatten_cons, List.map_eq_append_iff] at h
    obtain ⟨ys, zs, rfl, rfl, hzs⟩ := h
    obtain ⟨sessions, rfl, rfl⟩ := ih hzs
    exact ⟨ys :: sessions, rfl, rfl⟩

theorem exists_transcripts {sessions : List (List Exchange)} (h : Served fuel sessions.flatten s s') :
    ∃ ws, List.Forall₂ Transcript sessions ws := by
  induction sessions generalizing s with
  | nil => exact ⟨[], .nil⟩
  | cons xs sessions ih =>
    obtain ⟨s₁, hxs, hrest⟩ := h.split
    obtain ⟨new, hnew⟩ := exists_sent hxs
    obtain ⟨ws, hws⟩ := ih hrest
    exact ⟨written new :: ws, .cons (transcript_of_sent hnew) hws⟩

theorem exists_mainLoop {commandss : List (List (List RespValue))} {connections : List (List Bytes)}
    (hwell : Delivers alloc commandss connections) (hserved : Served fuel xs s s')
    (hxs : xs.map Prod.fst = commandss.flatten) : ∃ ws, mainLoop alloc fuel connections s = some (ws, s') := by
  obtain ⟨sessions, rfl, rfl⟩ := exists_sessions hxs
  obtain ⟨ws, hws⟩ := exists_transcripts hserved
  exact ⟨ws, mainLoop_iff.mpr ⟨sessions, hwell, hserved, hws⟩⟩

theorem Sendable.exists_encoded {args : List Bytes} (h : Sendable args) :
    ∃ text, Encoded generous (.array (args.map bulk)) text := by
  have hadm : Admissible generous (.array (args.map bulk)) := by
    rw [Admissible, List.length_map, admissibleItems_iff]
    refine ⟨h.1, rfl, ?_⟩
    intro v hv
    obtain ⟨arg, harg, rfl⟩ := List.mem_map.mp hv
    exact ⟨h.2 arg harg, rfl⟩
  obtain ⟨text, -, hencoded⟩ := Admissible.written _ hadm
  exact ⟨text, hencoded⟩

theorem Encoded.wellFormed {command : List RespValue} {text : Bytes} (h : Encoded alloc (.array command) text) :
    WellFormed alloc [command] text := by
  refine ⟨text ++ [], [], ?_, .cons h .nil, .type⟩
  rw [List.append_nil, List.append_nil]

def setA : List RespValue := [bytes "SET", bytes "a", bytes "b"].map bulk

def getA : List RespValue := [bytes "GET", bytes "a"].map bulk

theorem sendable_setA : Sendable [bytes "SET", bytes "a", bytes "b"] := ⟨by decide, by decide⟩

theorem sendable_getA : Sendable [bytes "GET", bytes "a"] := ⟨by decide, by decide⟩

theorem guardedSession_setA : GuardedSession [setA, getA] Server.start KeyMap.empty :=
  ⟨start_guarded _ _, fun _ _ _ _ => ⟨trivial, fun _ _ _ _ => trivial⟩⟩

theorem exists_delivered : ∃ connections, Delivers generous [[setA], [getA]] connections := by
  obtain ⟨t, ht⟩ := sendable_setA.exists_encoded
  obtain ⟨u, hu⟩ := sendable_getA.exists_encoded
  refine ⟨[[t], [u]], .cons ?_ (.cons ?_ .nil)⟩
  · rw [List.flatten_singleton]
    exact ht.wellFormed
  · rw [List.flatten_singleton]
    exact hu.wellFormed

theorem Delivers.unique {commandss commandss' : List (List (List RespValue))} {connections : List (List Bytes)}
    (h : Delivers alloc commandss connections) (h' : Delivers alloc commandss' connections) :
    commandss = commandss' := by
  induction h generalizing commandss' with
  | nil => exact (List.forall₂_nil_right_iff.mp h').symm
  | cons hc _ ih =>
    cases h' with
    | cons hc' hrest => rw [hc.unique hc', ih hrest]

theorem delivers_setA_getA {connections : List (List Bytes)} (hd : Delivers generous [[setA], [getA]] connections)
    (commandss : List (List (List RespValue))) (hd' : Delivers generous commandss connections) :
    GuardedSession commandss.flatten Server.start KeyMap.empty := by
  obtain rfl := hd.unique hd'
  exact guardedSession_setA

theorem serviceable_setA_getA : Serviceable [setA, getA] Server.start KeyMap.empty := by
  have hset : Answerable setA KeyMap.empty := by
    intro name hn
    obtain rfl : name = .set := Option.some.inj (hn.symm.trans (by decide))
    trivial
  have hget : Answerable getA ((planOf setA KeyMap.empty).next KeyMap.empty) := by
    intro name hn
    obtain rfl : name = .get := Option.some.inj (hn.symm.trans (by decide))
    trivial
  refine ⟨⟨hset, by decide, trivial⟩, ?_⟩
  intro _ _ _ _
  refine ⟨⟨hget, by decide, trivial⟩, ?_⟩
  intro _ _ _ _
  trivial

end BtreeRedis
