import BtreeRedis.Resp.Session
import BtreeRedis.Server.MultiGet

/-!
# A client of the server

The client hands its arguments to hiredis together with their lengths, and the server reads,
stores and answers by length. Only the wrapper around a reply takes its text up to the first
zero byte, so that a value comes back whole exactly if it has none.
-/

namespace BtreeRedis

open Reader Connection CommandContext RespApi ApiImpl SortedAssoc

inductive RedisType
  | string | array | integer | nil | status | error | double | bool | map | set | attr | push | bignum | verb
  deriving DecidableEq

def getTypeName : RedisType → String
  | .string => "STRING"
  | .array => "ARRAY"
  | .integer => "INTEGER"
  | .nil => "NIL"
  | .status => "STATUS"
  | .error => "ERROR"
  | .double => "DOUBLE"
  | .bool => "BOOL"
  | .map => "MAP"
  | .set => "SET"
  | .attr => "ATTR"
  | .push => "PUSH"
  | .bignum => "BIGNUM"
  | .verb => "VERB"

inductive ClientFault
  | runtimeError (message : String)
  | disconnected

/-- `redisReply`, for the types that the server replies with. -/
inductive RedisReply
  | string (bytes : Bytes)
  | array (element : List RedisReply)
  | integer (value : ℤ)
  | nil
  | status (bytes : Bytes)
  | error (bytes : Bytes)

/-- What `std::string` makes of a `const char*`: the bytes before the first zero byte. -/
def cString (memory : Bytes) : Bytes := memory.takeWhile fun b => b ≠ 0

namespace RedisReply

def getType : RedisReply → RedisType
  | string _ => .string
  | array _ => .array
  | integer _ => .integer
  | nil => .nil
  | status _ => .status
  | error _ => .error

/-- The memory behind `reply->str`: hiredis puts a zero byte behind the `reply->len` bytes. -/
def str : RedisReply → Bytes
  | string bytes | status bytes | error bytes => bytes ++ [0]
  | _ => []

def assertType (reply : RedisReply) (type : RedisType) : Except ClientFault Unit :=
  if reply.getType = type then .ok ()
  else .error (.runtimeError ("Expected " ++ getTypeName type ++ ", got " ++ getTypeName reply.getType))

def getString (reply : RedisReply) : Except ClientFault Bytes := do
  reply.assertType .string
  pure (cString reply.str)

def getArray (reply : RedisReply) : Except ClientFault (List RedisReply) := do
  reply.assertType .array
  match reply with
  | array element => pure element
  | _ => pure []

mutual

def ofValue : RespValue → RedisReply
  | .integer value => integer value
  | .simpleString value => status (value.getD [])
  | .error message => error (message.getD [])
  | .bulkString value => string (value.getD [])
  | .nullBulkString => nil
  | .array value => array (ofValues value)

def ofValues : List RespValue → List RedisReply
  | [] => []
  | v :: vs => ofValue v :: ofValues vs

end

end RedisReply

def RespValue.Textual : RespValue → Prop
  | .integer _ => False
  | .array value => ∀ v ∈ value, ∃ str, v = .bulkString str
  | _ => True

/-- What the client calls of hiredis: the bytes that `redisCommandArgv` sends for the pointers and lengths it is
given, and the reply object that it makes of the bytes it receives. -/
structure Hiredis where
  commandArgv : List Bytes → List ℕ → Bytes
  reply : Bytes → Option RedisReply

/-- Arguments are sent as an array of bulk strings of the lengths given, and replies carry their exact bytes. -/
structure Hiredis.Documented (h : Hiredis) : Prop where
  framesByLength : ∀ args : List (Bytes × ℕ), (∀ a ∈ args, a.2 ≤ a.1.length) →
    (RespValue.array (args.map fun a => bulk (a.1.take a.2))).writeValue =
      .ok (h.commandArgv (args.map Prod.fst) (args.map Prod.snd))
  exactBytes : ∀ v text, v.Textual → Parses v text → h.reply text = some (.ofValue v)

/-- The server takes one command off a fresh connection: what it writes, and how it is left. -/
def serve (fuel : ℕ) (chunks : List Bytes) (s : Server) : Option (Bytes × Server) :=
  match readCommand generous (accept chunks) with
  | .error _ => none
  | .ok (command, _) =>
    match processCommand fuel command ⟨s, []⟩ with
    | .error _ => none
    | .ok ((), c) => some (c.sent.flatMap Prod.snd, c.server)

namespace RedisClient

/-- `c_str()` and `size()` of each argument; behind the argument there is a zero byte. -/
def makeArgsArrays (args : List Bytes) : List Bytes × List ℕ := (args.map (· ++ [0]), args.map List.length)

/-- `run`, with the server at the other end of a socket that delivers in chunks. -/
def run (hiredis : Hiredis) (deliver : Bytes → List Bytes) (fuel : ℕ) (args : List Bytes) (s : Server) :
    Except ClientFault (RedisReply × Server) :=
  let (argv, argc) := makeArgsArrays args
  match serve fuel (deliver (hiredis.commandArgv argv argc)) s with
  | none => .error .disconnected
  | some (written, s) =>
    match hiredis.reply written with
    | none => .error .disconnected
    | some reply => .ok (reply, s)

def SetAll (hiredis : Hiredis) (deliver : Bytes → List Bytes) (fuel : ℕ) :
    List (Bytes × Bytes) → Server → Server → Prop
  | [], s, s' => s' = s
  | (key, value) :: es, s, s' => ∃ reply s₁,
    run hiredis deliver fuel [bytes "SET", key, value] s = .ok (reply, s₁) ∧ SetAll hiredis deliver fuel es s₁ s'

/-- Each key that was stored is read back with the value it was given last, alone and as one of all. -/
def BinarySafe (hiredis : Hiredis) (deliver : Bytes → List Bytes) (es : List (Bytes × Bytes)) (s : Server) : Prop :=
  ∃ fuel s', SetAll hiredis deliver fuel es s s' ∧
    (∀ key value, es.reverse.lookup key = some value → ∃ reply s'',
      run hiredis deliver fuel [bytes "GET", key] s' = .ok (reply, s'') ∧ reply.getString = .ok value) ∧
    ∃ reply s'' elements, run hiredis deliver fuel (bytes "MGET" :: keys es) s' = .ok (reply, s'') ∧
      reply.getArray = .ok elements ∧
      List.Forall₂ (fun key element => ∀ value, es.reverse.lookup key = some value →
        element.getString = .ok value) (keys es) elements

end RedisClient

theorem cString_zero_iff {s : Bytes} : cString (s ++ [0]) = s ↔ (0 : Byte) ∉ s := by
  induction s with
  | nil => simp [cString]
  | cons b s ih =>
    rw [cString, List.cons_append, List.takeWhile_cons, List.mem_cons, not_or]
    by_cases hb : b = 0
    · simp [hb]
    · rw [if_pos (by simpa using hb), List.cons.injEq, and_iff_right rfl]
      exact ih.trans (and_iff_right (Ne.symm hb)).symm

theorem RedisReply.getString_iff {value : Bytes} :
    (RedisReply.string value).getString = .ok value ↔ (0 : Byte) ∉ value := by
  rw [← cString_zero_iff]
  exact ⟨Except.ok.inj, congrArg Except.ok⟩

theorem RedisReply.ofValues_eq_map (vs : List RespValue) : ofValues vs = vs.map ofValue := by
  induction vs with
  | nil => rfl
  | cons v vs ih => rw [ofValues, ih, List.map_cons]

section
variable {hiredis : Hiredis} {deliver : Bytes → List Bytes} {fuel : ℕ} {args : List Bytes} {s s' : Server}
  {m : KeyMap} {es : List (Bytes × Bytes)} {v : RespValue}

def Sendable (args : List Bytes) : Prop := args.length ≤ int64Max ∧ ∀ arg ∈ args, arg.length + 2 ≤ int64Max

theorem Sendable.encoded (h : Sendable args) (hdoc : hiredis.Documented) :
    Encoded generous (.array (args.map bulk)) (hiredis.commandArgv (RedisClient.makeArgsArrays args).1
      (RedisClient.makeArgsArrays args).2) := by
  have hadm : Admissible generous (.array (args.map bulk)) := by
    rw [Admissible, List.length_map, admissibleItems_iff]
    refine ⟨h.1, rfl, ?_⟩
    intro v hv
    obtain ⟨arg, harg, rfl⟩ := List.mem_map.mp hv
    exact ⟨h.2 arg harg, rfl⟩
  obtain ⟨text, htext, hencoded⟩ := Admissible.written _ hadm
  have hframes := hdoc.framesByLength (args.map fun arg => (arg ++ [0], arg.length)) (by
    intro a ha
    obtain ⟨arg, -, rfl⟩ := List.mem_map.mp ha
    rw [List.length_append]
    exact Nat.le_add_right _ _)
  have hargs : (args.map fun arg => (arg ++ [0], arg.length)).map (fun a => bulk (a.1.take a.2)) = args.map bulk := by
    rw [List.map_map]
    exact List.map_congr_left fun arg _ => congrArg bulk List.take_left
  rw [hargs, htext, List.map_map, List.map_map] at hframes
  have htext' : text = hiredis.commandArgv (RedisClient.makeArgsArrays args).1 (RedisClient.makeArgsArrays args).2 :=
    Except.ok.inj hframes
  rw [← htext']
  exact hencoded

theorem Sendable.read (h : Sendable args) (hdoc : hiredis.Documented)
    (hdeliver : ∀ text, (deliver text).flatten = text) :
    ∃ c, readCommand generous (accept (deliver (hiredis.commandArgv (RedisClient.makeArgsArrays args).1
      (RedisClient.makeArgsArrays args).2))) = .ok (args.map bulk, c) := by
  have hread := readCommand_encoded (h.encoded hdoc) []
  obtain ⟨c, hc, -⟩ := hread (accept (deliver _)) (by rw [stream_accept, hdeliver, List.append_nil])
  exact ⟨c, hc⟩

theorem clean_of_answers (hname : unknownName (args.map bulk) = none)
    (h : Answers (processCommand fuel (args.map bulk)) s v s') : Clean v := by
  obtain ⟨w, -, hsent⟩ := h
  obtain ⟨v', hclean, w', -, hsent'⟩ := sends_processCommand fuel (args.map bulk) ⟨s, []⟩ _ (hsent [])
  have hboth := (hsent []).symm.trans (hsent' [])
  simp only [List.nil_append, Except.ok.injEq, Prod.mk.injEq, Context.mk.injEq, List.cons.injEq, true_and, and_true]
    at hboth
  obtain rfl := hboth.1
  refine hclean.resolve_right ?_
  rintro ⟨name, hunknown, -⟩
  rw [hname] at hunknown
  cases hunknown

theorem run_eq_ok (hdoc : hiredis.Documented) (hdeliver : ∀ text, (deliver text).flatten = text)
    (hsend : Sendable args) (hname : unknownName (args.map bulk) = none)
    (htextual : ∀ v s', Answers (processCommand fuel (args.map bulk)) s v s' → v.Textual) {reply : RedisReply} :
    RedisClient.run hiredis deliver fuel args s = .ok (reply, s') ↔
      ∃ v, Answers (processCommand fuel (args.map bulk)) s v s' ∧ reply = .ofValue v := by
  obtain ⟨c, hc⟩ := hsend.read hdoc hdeliver
  have hanswered : ∀ {v s'}, Answers (processCommand fuel (args.map bulk)) s v s' →
      RedisClient.run hiredis deliver fuel args s = .ok (.ofValue v, s') := by
    intro v s' h
    have hclean := clean_of_answers hname h
    have htext := htextual v s' h
    obtain ⟨w, hw, hsent⟩ := h
    have hreply := hdoc.exactBytes v w htext (hclean.parses v hw)
    simp only [RedisClient.run, serve, hc, hsent, List.nil_append, List.flatMap_cons, List.flatMap_nil,
      List.append_nil, hreply]
  constructor
  · intro h
    cases hp : processCommand fuel (args.map bulk) ⟨s, []⟩ with
    | error e => simp only [RedisClient.run, serve, hc, hp, reduceCtorEq] at h
    | ok r =>
      obtain ⟨⟨⟩, c'⟩ := r
      obtain ⟨v, -, hv⟩ := sends_processCommand fuel (args.map bulk) ⟨s, []⟩ c' hp
      rw [hanswered hv] at h
      simp only [Except.ok.injEq, Prod.mk.injEq] at h
      obtain ⟨rfl, rfl⟩ := h
      exact ⟨v, hv, rfl⟩
  · rintro ⟨v, hv, rfl⟩
    exact hanswered hv

theorem KeyMap.setAll_apply (m : KeyMap) (es : List (Bytes × Bytes)) (key : Bytes) :
    m.setAll es key = (es.reverse.lookup key).or (m key) := by
  induction es generalizing m with
  | nil => rfl
  | cons e es ih =>
    have hset : m.set e.1 e.2 key = ([e].lookup key).or (m key) := by
      by_cases hkey : key = e.1
      · rw [hkey, KeyMap.set_same, List.lookup_cons_self, Option.some_or]
      · rw [KeyMap.set, Function.update_of_ne hkey, List.lookup_cons, beq_false_of_ne hkey]
        rfl
    change (m.set e.1 e.2).setAll es key = _
    rw [ih, hset, List.reverse_cons, List.lookup_append, Option.or_assoc]

theorem ApiImpl.Guarded.cons {key value : Bytes} (hg : Guarded ((key, value) :: es) s) :
    Guarded [(key, value)] s ∧ ∀ s₁, Stored fuel noGuard [(key, value)] s s₁ → Guarded es s₁ := by
  constructor
  · exact fun found t hr => ⟨(hg found t hr).1, fun _ _ _ => trivial⟩
  · intro s₁ hs
    cases hs with
    | cons hr _ hi hrest =>
      rw [← stored_nil.mp hrest] at hi
      exact (hg _ _ hr).2 _ _ hi

theorem sendable_of_fits (hfit : Fits es) {key value : Bytes} (h : (key, value) ∈ es) :
    Sendable [bytes "SET", key, value] ∧ Sendable [bytes "GET", key] := by
  have hsize : key.length + value.length ≤ maxKVSize := hfit _ h
  have hbound : maxKVSize + 2 ≤ int64Max := by decide
  have hlen : ∀ text : Bytes, text.length ≤ maxKVSize → text.length + 2 ≤ int64Max := fun text ht => by omega
  have hset : (bytes "SET").length ≤ maxKVSize := by decide
  have hget : (bytes "GET").length ≤ maxKVSize := by decide
  refine ⟨⟨show 3 ≤ int64Max by decide, ?_⟩, show 2 ≤ int64Max by decide, ?_⟩
  · simp only [List.forall_mem_cons, List.not_mem_nil, false_imp_iff, implies_true, and_true]
    exact ⟨hlen _ hset, hlen _ (by omega), hlen _ (by omega)⟩
  · simp only [List.forall_mem_cons, List.not_mem_nil, false_imp_iff, implies_true, and_true]
    exact ⟨hlen _ hget, hlen _ (by omega)⟩

theorem ofValue_getReply {key value : Bytes} (h : m key = some value) :
    RedisReply.ofValue (getReply m key) = .string value := by
  rw [getReply, h]
  rfl

theorem mem_of_last {key value : Bytes} (h : es.reverse.lookup key = some value) : (key, value) ∈ es := by
  obtain ⟨before, after, he, -⟩ := List.lookup_eq_some_iff.mp h
  exact List.mem_reverse.mp (he ▸ List.mem_append_right before List.mem_cons_self)

variable (hdoc : hiredis.Documented) (hdeliver : ∀ text, (deliver text).flatten = text)
include hdoc hdeliver

theorem run_set {key value : Bytes} (hsend : Sendable [bytes "SET", key, value]) (h : s.Denotes m) :
    (∃ reply, RedisClient.run hiredis deliver fuel [bytes "SET", key, value] s = .ok (reply, s')) ↔
      Stored fuel noGuard [(key, value)] s s' := by
  have hname : unknownName ([bytes "SET", key, value].map bulk) = none := rfl
  have hplan : planOf ([bytes "SET", key, value].map bulk) m = .write [(key, value)] Plan.ok := rfl
  have hanswer : ∀ {v s'}, Answers (processCommand fuel ([bytes "SET", key, value].map bulk)) s v s' ↔
      v = Plan.ok ∧ Stored fuel noGuard [(key, value)] s s' := by
    intro v s'
    rw [answers_processCommand h, hplan, Plan.Carried]
  have htextual : ∀ v s', Answers (processCommand fuel ([bytes "SET", key, value].map bulk)) s v s' →
      v.Textual := by
    intro v s' hv
    rw [(hanswer.mp hv).1]
    trivial
  simp only [run_eq_ok hdoc hdeliver hsend hname htextual, hanswer]
  constructor
  · rintro ⟨_, _, ⟨_, hs⟩, _⟩
    exact hs
  · intro hs
    exact ⟨_, _, ⟨rfl, hs⟩, rfl⟩

theorem setAll_iff (h : s.Denotes m) (hg : Guarded es s) (hfit : Fits es) :
    RedisClient.SetAll hiredis deliver fuel es s s' ↔ Stored fuel noGuard es s s' := by
  induction es generalizing s m with
  | nil => exact stored_nil.symm
  | cons e es ih =>
    obtain ⟨key, value⟩ := e
    have hset : ∀ s₁,
        (∃ reply, RedisClient.run hiredis deliver fuel [bytes "SET", key, value] s = .ok (reply, s₁)) ↔
        Stored fuel noGuard [(key, value)] s s₁ := fun s₁ =>
      run_set hdoc hdeliver (sendable_of_fits hfit List.mem_cons_self).1 h
    obtain ⟨hhead, hrest⟩ := hg.cons
    have hfits : Fits es := fun e he => hfit e (List.mem_cons_of_mem _ he)
    constructor
    · rintro ⟨reply, s₁, hrun, hs⟩
      have hone := (hset s₁).mp ⟨reply, hrun⟩
      have hmore := (ih (hone.denotes_guarded hhead h) (hrest s₁ hone) hfits).mp hs
      exact hone.append hmore
    · intro hs
      obtain ⟨s₁, hs₁, hmore⟩ := stored_cons.mp hs
      have hone : Stored fuel noGuard [(key, value)] s s₁ := stored_cons.mpr ⟨s₁, hs₁, .nil s₁⟩
      obtain ⟨reply, hrun⟩ := (hset s₁).mpr hone
      exact ⟨reply, s₁, hrun, (ih (hone.denotes_guarded hhead h) (hrest s₁ hone) hfits).mpr hmore⟩

theorem run_get {key : Bytes} (hsend : Sendable [bytes "GET", key]) (h : s.Denotes m) {reply : RedisReply} :
    RedisClient.run hiredis deliver fuel [bytes "GET", key] s = .ok (reply, s') ↔
      reply = .ofValue (getReply m key) ∧ s' = s := by
  have hname : unknownName ([bytes "GET", key].map bulk) = none := rfl
  have hget : ∀ {v s'}, Answers (processCommand fuel ([bytes "GET", key].map bulk)) s v s' ↔
      v = getReply m key ∧ s' = s := answers_getCommand h key
  have htextual : ∀ v s', Answers (processCommand fuel ([bytes "GET", key].map bulk)) s v s' → v.Textual := by
    intro v s' hv
    rw [(hget.mp hv).1, getReply]
    cases m key <;> trivial
  simp only [run_eq_ok hdoc hdeliver hsend hname htextual, hget]
  constructor
  · rintro ⟨_, ⟨rfl, hs⟩, hr⟩
    exact ⟨hr, hs⟩
  · rintro ⟨hr, hs⟩
    exact ⟨_, ⟨rfl, hs⟩, hr⟩

theorem run_mget {ks : List Bytes} (hsend : Sendable (bytes "MGET" :: ks)) (h : s.Denotes m)
    (hall : ∀ key ∈ ks, m key ≠ none) :
    RedisClient.run hiredis deliver fuel (bytes "MGET" :: ks) s =
      .ok (.array (ks.map fun key => .ofValue (getReply m key)), s) := by
  have hname : unknownName ((bytes "MGET" :: ks).map bulk) = none := rfl
  have htextual : ∀ v s', Answers (processCommand fuel ((bytes "MGET" :: ks).map bulk)) s v s' → v.Textual := by
    intro v s' hv
    rw [((answers_mgetCommand h).mp hv).2.1]
    intro u hu
    obtain ⟨str, -, rfl⟩ := List.mem_map.mp hu
    exact ⟨str, rfl⟩
  rw [run_eq_ok hdoc hdeliver hsend hname htextual]
  refine ⟨_, (answers_mgetCommand h).mpr ⟨hall, rfl, rfl⟩, ?_⟩
  rw [values_eq_getReplies hall, RedisReply.ofValue, RedisReply.ofValues_eq_map, List.map_map]
  rfl

theorem RedisClient.BinarySafe.zeroFree (h : s.Denotes m) (hg : Guarded es s) (hfit : Fits es)
    (hsafe : RedisClient.BinarySafe hiredis deliver es s) {key value : Bytes}
    (hlast : es.reverse.lookup key = some value) : (0 : Byte) ∉ value := by
  obtain ⟨fuel, s', hset, hget, -⟩ := hsafe
  have hs := (setAll_iff hdoc hdeliver h hg hfit).mp hset
  have hmap : m.setAll es key = some value := by rw [KeyMap.setAll_apply, hlast, Option.some_or]
  obtain ⟨reply, s'', hrun, hstring⟩ := hget key value hlast
  have hsend := (sendable_of_fits hfit (mem_of_last hlast)).2
  obtain ⟨rfl, -⟩ := (run_get hdoc hdeliver hsend (hs.denotes_guarded hg h)).mp hrun
  rw [ofValue_getReply hmap, RedisReply.getString_iff] at hstring
  exact hstring

/-- What is stored comes back byte for byte exactly if no value has a zero byte. -/
theorem binarySafe_iff (h : s.Denotes m) (hg : Guarded es s) (hfit : Fits es) (hlen : es.length < int64Max) :
    RedisClient.BinarySafe hiredis deliver es s ↔
      ∀ key value, es.reverse.lookup key = some value → (0 : Byte) ∉ value := by
  constructor
  · exact fun hsafe key value hlast => hsafe.zeroFree hdoc hdeliver h hg hfit hlast
  · intro hzero
    obtain ⟨fuel, s', hs⟩ := stored_of_guarded es h hg hfit
    have hden := hs.denotes_guarded hg h
    have hmap : ∀ {key value}, es.reverse.lookup key = some value → m.setAll es key = some value := by
      intro key value hlast
      rw [KeyMap.setAll_apply, hlast, Option.some_or]
    have hback : ∀ {key value}, es.reverse.lookup key = some value →
        (RedisReply.ofValue (getReply (m.setAll es) key)).getString = .ok value := by
      intro key value hlast
      rw [ofValue_getReply (hmap hlast), RedisReply.getString_iff]
      exact hzero key value hlast
    have hsend : Sendable (bytes "MGET" :: keys es) := by
      refine ⟨by rw [List.length_cons, keys, List.length_map]; exact hlen, ?_⟩
      rw [List.forall_mem_cons]
      refine ⟨by decide, fun key hkey => ?_⟩
      obtain ⟨⟨key, value⟩, he, rfl⟩ := List.mem_map.mp hkey
      exact (sendable_of_fits hfit he).2.2 key (List.mem_cons_of_mem _ List.mem_cons_self)
    have hall : ∀ key ∈ keys es, m.setAll es key ≠ none := by
      intro key hkey
      have hsome : (es.reverse.lookup key).isSome := by
        rw [SortedAssoc.lookup_isSome, keys, List.map_reverse]
        exact List.mem_reverse.mpr hkey
      obtain ⟨value, hlast⟩ := Option.isSome_iff_exists.mp hsome
      rw [hmap hlast]
      exact Option.some_ne_none value
    refine ⟨fuel, s', (setAll_iff hdoc hdeliver h hg hfit).mpr hs, ?_, ?_⟩
    · intro key value hlast
      have hget := sendable_of_fits hfit (mem_of_last hlast)
      exact ⟨_, s', (run_get hdoc hdeliver hget.2 hden).mpr ⟨rfl, rfl⟩, hback hlast⟩
    · refine ⟨_, s', _, run_mget hdoc hdeliver hsend hden hall, rfl, ?_⟩
      rw [List.forall₂_map_right_iff, List.forall₂_same]
      exact fun key _ value hlast => hback hlast

end

open Classical in
noncomputable def Hiredis.documented : Hiredis where
  commandArgv argv argc :=
    match (RespValue.array ((argv.zip argc).map fun a => bulk (a.1.take a.2))).writeValue with
    | .ok text => text
    | .error _ => []
  reply text := if h : ∃ v, Parses v text then some (.ofValue h.choose) else none

theorem Hiredis.documented_documented : Hiredis.documented.Documented := by
  constructor
  · intro args _
    have hargs : (args.map Prod.fst).zip (args.map Prod.snd) = args := by
      rw [List.zip_map', List.map_id']
    have hvalues : RespValue.array (args.map fun a => bulk (a.1.take a.2)) =
        Plan.values (args.map fun a => some (a.1.take a.2)) := by
      rw [Plan.values, List.map_map]
      rfl
    have hsome : ∀ val ∈ args.map fun a => some (a.1.take a.2), val ≠ none := by
      rw [List.forall_mem_map]
      exact fun a _ => Option.some_ne_none _
    obtain ⟨w, hw⟩ := writeValue_values.mpr hsome
    rw [Hiredis.documented]
    dsimp only
    rw [hargs, hvalues, hw]
  · intro v text _ h
    have hex : ∃ v, Parses v text := ⟨v, h⟩
    have hsame : text ++ [] = text ++ [] := rfl
    rw [Hiredis.documented]
    dsimp only
    rw [dif_pos hex, (Parses.unique hex.choose_spec h hsame).1]

theorem binarySafe_line :
    RedisClient.BinarySafe Hiredis.documented (fun text => [text]) [(bytes "a", [98, 13, 10])] Server.start := by
  refine (binarySafe_iff Hiredis.documented_documented (fun _ => List.flatten_singleton) Server.start_denotes
    (start_guarded _ _) (by decide) (by decide)).mpr ?_
  intro key value hlast
  obtain ⟨-, rfl⟩ := Prod.mk.inj (List.mem_singleton.mp (mem_of_last hlast))
  decide

/-- The value ends for the client at its zero byte. -/
theorem not_binarySafe_zero :
    ¬ ∀ (hiredis : Hiredis) (deliver : Bytes → List Bytes) (es : List (Bytes × Bytes)) (s : Server) (m : KeyMap),
      hiredis.Documented → (∀ text, (deliver text).flatten = text) → s.Denotes m → Guarded es s → Fits es →
      RedisClient.BinarySafe hiredis deliver es s := by
  intro hall
  have hg := start_guarded (bytes "a") [97, 0, 98]
  have hsafe := hall Hiredis.documented (fun text => [text]) [(bytes "a", [97, 0, 98])] Server.start KeyMap.empty
    Hiredis.documented_documented (fun _ => List.flatten_singleton) Server.start_denotes hg (by decide)
  have hzero := hsafe.zeroFree Hiredis.documented_documented (fun _ => List.flatten_singleton) Server.start_denotes hg
    (by decide) (show [(bytes "a", ([97, 0, 98] : Bytes))].reverse.lookup (bytes "a") = some [97, 0, 98] by decide)
  exact hzero (by decide)

end BtreeRedis
