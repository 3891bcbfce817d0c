import BtreeRedis.Lib.Channel
import BtreeRedis.Lib.Machine
import BtreeRedis.Server.Process

/-!
# Commands in flight

A client may append several commands and collect their replies later. Its library sends
what has been appended only once it waits for a reply, the bytes of both directions
travel in pieces, and the server answers whatever is complete. However these steps are
interleaved, the replies are those of the same commands run one at a time.
-/

namespace BtreeRedis

open Reader Connection CommandContext RespApi ApiImpl

/-- The buffers of a `redisContext`: what is to be sent, and what has been received. -/
structure RedisContext where
  obuf : Bytes
  reader : Bytes

/-- What the client calls of hiredis: the bytes that `redisAppendCommandArgv` appends for the pointers and lengths it
is given, and the reply object that is taken off the bytes received, once there is a whole one. -/
structure BufferedHiredis where
  appendCommandArgv : List Bytes → List ℕ → Bytes
  getReplyFromReader : Bytes → Option (RedisReply × Bytes)

/-- `redisCommandArgv` appends a command and takes the reply to it. -/
def BufferedHiredis.blocking (hiredis : BufferedHiredis) : Hiredis where
  commandArgv := hiredis.appendCommandArgv
  reply received := (hiredis.getReplyFromReader received).map Prod.fst

/-- Arguments are appended as an array of bulk strings of the lengths given. The first reply is taken as soon as it
is there whole, with its exact bytes, and no byte behind it is taken. -/
structure BufferedHiredis.Documented (h : BufferedHiredis) : Prop where
  framesByLength : ∀ args : List (Bytes × ℕ), (∀ a ∈ args, a.2 ≤ a.1.length) →
    (RespValue.array (args.map fun a => bulk (a.1.take a.2))).writeValue =
      .ok (h.appendCommandArgv (args.map Prod.fst) (args.map Prod.snd))
  takesFirst : ∀ v text rest, v.Plain → Parses v text → h.getReplyFromReader (text ++ rest) = some (.ofValue v, rest)
  waitsForWhole : ∀ v received missing, v.Plain → Parses v (received ++ missing) → missing ≠ [] →
    h.getReplyFromReader received = none

inductive ClientCall
  | appendRun (args : List Bytes)
  | getReply
  deriving DecidableEq

namespace RedisClient

variable (hiredis : BufferedHiredis)

def frame (args : List Bytes) : Bytes :=
  hiredis.appendCommandArgv (makeArgsArrays args).1 (makeArgsArrays args).2

def appendRun (args : List Bytes) (context : RedisContext) : RedisContext :=
  { context with obuf := context.obuf ++ frame hiredis args }

/-- `getReply`, where it returns without having to send or to receive. -/
def getReply (context : RedisContext) : Option (RedisReply × RedisContext) :=
  (hiredis.getReplyFromReader context.reader).map fun r => (r.1, { context with reader := r.2 })

/-- `handleRedisErrorCode`, for the code of a connection that has failed. -/
def sendFault : ClientFault := .runtimeError "Error sending pipelined command: -1"

end RedisClient

/-- A client that still has these calls to make, a server, and what is on the way between them. -/
structure Pipeline where
  program : List ClientCall
  context : RedisContext
  inbound : Bytes
  /-- Nothing once the process has ended. -/
  server : Option Server
  outbound : Bytes
  got : List RedisReply
  thrown : Option ClientFault

namespace Pipeline

def start (program : List ClientCall) (s : Server) : Pipeline := ⟨program, ⟨[], []⟩, [], some s, [], [], none⟩

def Waits (hiredis : BufferedHiredis) (p : Pipeline) : Prop :=
  p.program.head? = some .getReply ∧ RedisClient.getReply hiredis p.context = none

inductive Step (hiredis : BufferedHiredis) (fuel : ℕ) : Pipeline → Pipeline → Prop
  | append {p : Pipeline} {args : List Bytes} {program : List ClientCall}
      (hp : p.program = .appendRun args :: program) :
      Step hiredis fuel p { p with program, context := RedisClient.appendRun hiredis args p.context }
  | reply {p : Pipeline} {program : List ClientCall} {reply : RedisReply} {context : RedisContext}
      (hp : p.program = .getReply :: program) (hr : RedisClient.getReply hiredis p.context = some (reply, context)) :
      Step hiredis fuel p { p with program, context, got := p.got ++ [reply] }
  /-- A part of what is to be sent is written to the socket. -/
  | write {p : Pipeline} {now later : Bytes} (hw : p.Waits hiredis) (ho : p.context.obuf = now ++ later)
      (hnow : now ≠ []) :
      Step hiredis fuel p { p with context := { p.context with obuf := later }, inbound := p.inbound ++ now }
  /-- A part of what has been written is received, once everything is sent. -/
  | read {p : Pipeline} {now later : Bytes} (hw : p.Waits hiredis) (ho : p.context.obuf = [])
      (hs : p.outbound = now ++ later) (hnow : now ≠ []) :
      Step hiredis fuel p
        { p with context := { p.context with reader := p.context.reader ++ now }, outbound := later }
  /-- The server has a whole command and answers it. -/
  | serve {p : Pipeline} {s : Server} {command : List RespValue} {c : Connection} {answered : Context}
      (hs : p.server = some s) (hc : readCommand generous (accept [p.inbound]) = .ok (command, c))
      (ha : processCommand fuel command ⟨s, []⟩ = .ok ((), answered)) :
      Step hiredis fuel p { p with
        inbound := c.stream, server := some answered.server, outbound := p.outbound ++ written answered.sent }
  /-- The reader or a command fails, which ends the process. -/
  | abort {p : Pipeline} {s : Server} (hs : p.server = some s)
      (hc : (∃ e, readCommand generous (accept [p.inbound]) = .error e ∧ e ≠ .connectionClosed) ∨
        ∃ command c f, readCommand generous (accept [p.inbound]) = .ok (command, c) ∧
          processCommand fuel command ⟨s, []⟩ = .error f) :
      Step hiredis fuel p { p with server := none }
  /-- The connection to a process that has ended is lost, with whatever is on it. -/
  | hangUp {p : Pipeline} (hw : p.Waits hiredis) (hs : p.server = none) :
      Step hiredis fuel p { p with program := [], thrown := some RedisClient.sendFault }

def Reaches (hiredis : BufferedHiredis) (fuel : ℕ) : Pipeline → Pipeline → Prop :=
  Relation.ReflTransGen (Step hiredis fuel)

def Halted (hiredis : BufferedHiredis) (fuel : ℕ) (p : Pipeline) : Prop := ∀ q, ¬ Step hiredis fuel p q

def Finished (p : Pipeline) : Prop := p.program = [] ∧ p.thrown = none

end Pipeline

def issued : List ClientCall → List (List Bytes)
  | [] => []
  | .appendRun args :: program => args :: issued program
  | .getReply :: program => issued program

def awaited (program : List ClientCall) : ℕ := program.count .getReply

/-- No reply is awaited before its command is appended; this many are outstanding. -/
def Matched : List ClientCall → ℕ → Prop
  | [], _ => True
  | .appendRun _ :: program, n => Matched program (n + 1)
  | .getReply :: program, n => 0 < n ∧ Matched program (n - 1)

/-- A command that reaches the reader, and whose reply is one line where it echoes the name. -/
def Issuable (args : List Bytes) : Prop :=
  Sendable args ∧ ∀ name, unknownName (args.map bulk) = some name → LineText name

section Codes
variable {hiredis : BufferedHiredis} {deliver : Bytes → List Bytes} {fuel : ℕ} {args : List Bytes} {s s' : Server}
  {v : RespValue} {p q : Bytes}

def Replied (v : RespValue) (text : Bytes) : Prop := v.Plain ∧ Parses v text

def Requested (hiredis : BufferedHiredis) (args : List Bytes) (text : Bytes) : Prop :=
  text = RedisClient.frame hiredis args

theorem Issuable.replied (h : Issuable args) (ha : Answers (processCommand fuel (args.map bulk)) s v s') {w : Bytes}
    (hw : v.writeValue = .ok w) : Replied v w := by
  have hlen : (args.map bulk).length ≤ int64Max := by
    rw [List.length_map]
    exact h.1.1
  refine ⟨(sends_plain_processCommand fuel _ hlen).of_answers ha, ?_⟩
  rcases (sends_processCommand fuel _).of_answers ha with hclean | ⟨name, hn, rfl⟩
  · exact hclean.parses _ hw
  · exact (clean_error ((lineText_message name).mpr (h.2 name hn))).parses _ hw

theorem RespValue.Textual.plain (h : v.Textual) : v.Plain := by
  cases v with
  | integer => exact h.elim
  | array vs => exact h
  | _ => trivial

theorem BufferedHiredis.Documented.reply (hdoc : hiredis.Documented) (h : Replied v p) :
    hiredis.blocking.reply p = some (.ofValue v) := by
  have htakes := hdoc.takesFirst v p [] h.1 h.2
  rw [List.append_nil] at htakes
  change (hiredis.getReplyFromReader p).map Prod.fst = _
  rw [htakes, Option.map_some]

theorem BufferedHiredis.Documented.blocking (hdoc : hiredis.Documented) : hiredis.blocking.Documented :=
  ⟨hdoc.framesByLength, fun _ _ htextual h => hdoc.reply ⟨htextual.plain, h⟩⟩

theorem Issuable.encoded (h : Issuable args) (hdoc : hiredis.Documented) :
    Encoded generous (.array (args.map bulk)) (RedisClient.frame hiredis args) :=
  h.1.encoded hdoc.blocking

theorem Issuable.readCommand (h : Issuable args) (hdoc : hiredis.Documented) (rest : Bytes) :
    ∃ c, readCommand generous (accept [RedisClient.frame hiredis args ++ rest]) = .ok (args.map bulk, c) ∧
      c.stream = rest := by
  refine readCommand_encoded (h.encoded hdoc) rest (accept [_]) ?_
  rw [stream_accept, List.flatten_singleton]

theorem Issuable.waits (h : Issuable args) (hdoc : hiredis.Documented)
    (hcut : RedisClient.frame hiredis args = p ++ q) (hq : q ≠ []) :
    BtreeRedis.readCommand generous (accept [p]) = .error .connectionClosed := by
  have hw : CFails (BtreeRedis.readCommand generous) p .connectionClosed :=
    (readValue_waiting ((h.encoded hdoc).waiting hcut hq)).bind
  refine hw (accept [p]) ?_
  rw [stream_accept, List.flatten_singleton]

theorem BufferedHiredis.Documented.nothing (hdoc : hiredis.Documented) : hiredis.getReplyFromReader [] = none :=
  hdoc.waitsForWhole .nullBulkString [] _ trivial .nullBulkString (List.cons_ne_nil _ _)

theorem Issuable.run_eq_ok (h : Issuable args) (hdoc : hiredis.Documented)
    (hdeliver : ∀ text, (deliver text).flatten = text) {reply : RedisReply} :
    RedisClient.run hiredis.blocking deliver fuel args s = .ok (reply, s') ↔
      ∃ v, Answers (processCommand fuel (args.map bulk)) s v s' ∧ reply = .ofValue v := by
  obtain ⟨c, hc⟩ := h.1.read hdoc.blocking hdeliver
  have hanswered : ∀ {v s'}, Answers (processCommand fuel (args.map bulk)) s v s' →
      RedisClient.run hiredis.blocking deliver fuel args s = .ok (.ofValue v, s') := by
    intro v s' ha
    obtain ⟨w, hw, hsent⟩ := id ha
    have hreply := hdoc.reply (h.replied ha hw)
    simp only [RedisClient.run, serve, hc, hsent, List.nil_append, List.flatMap_cons, List.flatMap_nil,
      List.append_nil, hreply]
  constructor
  · intro hr
    cases hp : processCommand fuel (args.map bulk) ⟨s, []⟩ with
    | error e => simp only [RedisClient.run, serve, hc, hp, reduceCtorEq] at hr
    | ok r =>
      obtain ⟨⟨⟩, c'⟩ := r
      obtain ⟨v, -, hv⟩ := sends_processCommand fuel (args.map bulk) ⟨s, []⟩ c' hp
      rw [hanswered hv] at hr
      obtain ⟨rfl, rfl⟩ := Prod.mk.inj (Except.ok.inj hr)
      exact ⟨v, hv, rfl⟩
  · rintro ⟨v, hv, rfl⟩
    exact hanswered hv

end Codes

/-- The commands that were answered, those on their way to the server, and those that are not issued yet; of the
answers, those that the client has and those on their way to it. -/
structure Pipeline.Accounts (hiredis : BufferedHiredis) (fuel : ℕ) (program : List ClientCall) (s : Server)
    (p : Pipeline) (done pending more : List (List Bytes)) (arrived waiting : List RespValue) (s₁ : Server) :
    Prop where
  appended : issued program = done ++ pending ++ more
  served : ∃ xs : List Exchange, xs.map Prod.fst = done.map (List.map bulk) ∧ xs.map Prod.snd = arrived ++ waiting ∧
    Served fuel xs s s₁
  server : p.server = some s₁ ∨ p.server = none
  requests : Carries (Requested hiredis) pending (p.inbound ++ p.context.obuf)
  replies : Carries Replied waiting (p.context.reader ++ p.outbound)
  got : p.got = arrived.map .ofValue
  remaining : p.thrown = none → more = issued p.program ∧
    (Matched program 0 ↔ Matched p.program (waiting.length + pending.length)) ∧
    arrived.length + awaited p.program = awaited program
  failed : p.thrown ≠ none → p.program = []

namespace Pipeline

variable {hiredis : BufferedHiredis} {fuel : ℕ} {program : List ClientCall} {s s₁ : Server} {p q : Pipeline}
  {done pending more : List (List Bytes)} {arrived waiting : List RespValue}

def Inv (hiredis : BufferedHiredis) (fuel : ℕ) (program : List ClientCall) (s : Server) (p : Pipeline) : Prop :=
  ∃ done pending more arrived waiting s₁, p.Accounts hiredis fuel program s done pending more arrived waiting s₁

theorem start_inv (program : List ClientCall) (s : Server) : (start program s).Inv hiredis fuel program s := by
  refine ⟨[], [], issued program, [], [], s, rfl, ⟨[], rfl, rfl, .nil s⟩, Or.inl rfl, .nil, .nil, rfl, ?_, ?_⟩
  · exact fun _ => ⟨rfl, Iff.rfl, Nat.zero_add _⟩
  · exact fun h => absurd rfl h

namespace Accounts

variable (h : p.Accounts hiredis fuel program s done pending more arrived waiting s₁)
include h

theorem running {call : ClientCall} {rest : List ClientCall} (hp : p.program = call :: rest) : p.thrown = none := by
  by_contra hthrown
  rw [h.failed hthrown] at hp
  cases hp

theorem append {args : List Bytes} {rest : List ClientCall} (hp : p.program = .appendRun args :: rest) :
    Inv hiredis fuel program s { p with program := rest, context := RedisClient.appendRun hiredis args p.context } := by
  obtain ⟨hmore, hmatched, htaken⟩ := h.remaining (h.running hp)
  rw [hp] at hmore hmatched htaken
  refine ⟨done, pending ++ [args], issued rest, arrived, waiting, s₁, ?_, h.served, h.server, ?_, h.replies,
    h.got, fun _ => ⟨rfl, ?_, htaken⟩, fun hthrown => absurd (h.running hp) hthrown⟩
  · rw [h.appended, hmore, issued]
    simp only [List.append_assoc, List.singleton_append]
  · rw [RedisClient.appendRun, ← List.append_assoc]
    exact h.requests.append rfl
  · rw [hmatched, Matched, List.length_append, List.length_singleton, Nat.add_assoc]

theorem reply (hdoc : hiredis.Documented) {rest : List ClientCall} {reply : RedisReply} {context : RedisContext}
    (hp : p.program = .getReply :: rest) (hr : RedisClient.getReply hiredis p.context = some (reply, context)) :
    Inv hiredis fuel program s { p with program := rest, context, got := p.got ++ [reply] } := by
  obtain ⟨hmore, hmatched, htaken⟩ := h.remaining (h.running hp)
  rw [hp] at hmore hmatched htaken
  obtain ⟨⟨r, reader'⟩, htake, he⟩ := Option.map_eq_some_iff.mp hr
  obtain ⟨rfl, rfl⟩ := Prod.mk.inj he
  rcases h.replies.near_cases with ⟨rfl, hreader, -⟩ | @⟨v, waiting, text, tail, rfl, hv, hreader, hrest⟩ |
    ⟨rfl, hv, htext, hcut, -⟩
  · rw [hreader, hdoc.nothing] at htake
    cases htake
  · rw [hreader, hdoc.takesFirst v text tail hv.1 hv.2] at htake
    obtain ⟨rfl, rfl⟩ := Prod.mk.inj (Option.some.inj htake)
    obtain ⟨xs, hdone, hvalues, hserved⟩ := h.served
    refine ⟨done, pending, more, arrived ++ [v], waiting, s₁, h.appended, ⟨xs, hdone, ?_, hserved⟩, h.server,
      h.requests, hrest, ?_, fun _ => ⟨hmore, ?_, ?_⟩, fun hthrown => absurd (h.running hp) hthrown⟩
    · rw [hvalues, List.append_assoc, List.singleton_append]
    · rw [h.got, List.map_append, List.map_singleton]
    · rw [hmatched, Matched, List.length_cons]
      have hpos : 0 < waiting.length + 1 + pending.length := by omega
      rw [show waiting.length + 1 + pending.length - 1 = waiting.length + pending.length by omega]
      exact and_iff_right hpos
    · rw [awaited, List.count_cons_self] at htaken
      rw [List.length_append, List.length_singleton, awaited]
      exact (Nat.add_right_comm ..).trans htaken
  · rw [hdoc.waitsForWhole _ _ _ hv.1 (htext ▸ hv.2) hcut] at htake
    cases htake

theorem write {now later : Bytes} (ho : p.context.obuf = now ++ later) : Inv hiredis fuel program s
    { p with context := { p.context with obuf := later }, inbound := p.inbound ++ now } := by
  refine ⟨done, pending, more, arrived, waiting, s₁, h.appended, h.served, h.server, ?_, h.replies, h.got, h.remaining,
    h.failed⟩
  rw [List.append_assoc, ← ho]
  exact h.requests

theorem read {now later : Bytes} (hs : p.outbound = now ++ later) : Inv hiredis fuel program s
    { p with context := { p.context with reader := p.context.reader ++ now }, outbound := later } := by
  refine ⟨done, pending, more, arrived, waiting, s₁, h.appended, h.served, h.server, h.requests, ?_, h.got, h.remaining,
    h.failed⟩
  rw [List.append_assoc, ← hs]
  exact h.replies

theorem issuable (hissue : ∀ args ∈ issued program, Issuable args) {args : List Bytes}
    (hmem : args ∈ pending) : Issuable args := by
  refine hissue args ?_
  rw [h.appended]
  exact List.mem_append_left _ (List.mem_append_right _ hmem)

theorem reads (hdoc : hiredis.Documented) (hissue : ∀ args ∈ issued program, Issuable args) :
    (readCommand generous (accept [p.inbound]) = .error .connectionClosed ∧ (p.context.obuf = [] → pending = [])) ∨
    ∃ args rest c, pending = args :: rest ∧ readCommand generous (accept [p.inbound]) = .ok (args.map bulk, c) ∧
      Carries (Requested hiredis) rest (c.stream ++ p.context.obuf) := by
  rcases h.requests.near_cases with ⟨rfl, hin, -⟩ | @⟨args, rest, _, tail, rfl, rfl, hin, hrest⟩ |
    @⟨args, rest, _, cut, rfl, rfl, htext, hcut, hfar⟩
  · have hclosed : CFails (readCommand generous) [] .connectionClosed := (readValue_waiting .type).bind
    rw [hin]
    exact Or.inl ⟨hclosed (accept [[]]) rfl, fun _ => rfl⟩
  · obtain ⟨c, hc, hstream⟩ := (h.issuable hissue List.mem_cons_self).readCommand hdoc tail
    rw [hin]
    exact Or.inr ⟨args, rest, c, rfl, hc, hstream.symm ▸ hrest⟩
  · exact Or.inl ⟨(h.issuable hissue List.mem_cons_self).waits hdoc htext hcut, fun hobuf => absurd hobuf hfar⟩

theorem answered_length : arrived.length + waiting.length = done.length := by
  obtain ⟨xs, hdone, hvalues, -⟩ := h.served
  have hlen := congrArg List.length hdone
  have hlen' := congrArg List.length hvalues
  simp only [List.length_map, List.length_append] at hlen hlen'
  omega

theorem server_eq {t : Server} (hs : p.server = some t) : t = s₁ := by
  rcases h.server with hserver | hserver
  · exact Option.some.inj (hs.symm.trans hserver)
  · rw [hs] at hserver
    cases hserver

theorem serve (hdoc : hiredis.Documented) (hissue : ∀ args ∈ issued program, Issuable args) {t : Server}
    {command : List RespValue} {c : Connection} {answered : Context} (hs : p.server = some t)
    (hc : readCommand generous (accept [p.inbound]) = .ok (command, c))
    (ha : processCommand fuel command ⟨t, []⟩ = .ok ((), answered)) :
    Inv hiredis fuel program s { p with
      inbound := c.stream, server := some answered.server, outbound := p.outbound ++ written answered.sent } := by
  rcases h.reads hdoc hissue with ⟨hclosed, -⟩ | ⟨args, rest, c', rfl, hc', hrest⟩
  · rw [hc] at hclosed
    cases hclosed
  obtain ⟨rfl, rfl⟩ := Prod.mk.inj (Except.ok.inj (hc.symm.trans hc'))
  obtain rfl := h.server_eq hs
  obtain ⟨v, w, hw, hans, hsent⟩ := processCommand_eq_ok.mp ha
  have hreplied := (h.issuable hissue List.mem_cons_self).replied hans hw
  obtain ⟨xs, hdone, hvalues, hserved⟩ := h.served
  refine ⟨done ++ [args], rest, more, arrived, waiting ++ [v], answered.server, ?_, ⟨xs ++ [(args.map bulk, v)], ?_, ?_,
    hserved.append (.cons hans (.nil _))⟩, Or.inl rfl, hrest, ?_, h.got, fun hthrown => ?_, h.failed⟩
  · rw [h.appended]
    simp only [List.append_assoc, List.cons_append, List.nil_append]
  · rw [List.map_append, List.map_append, hdone]
    rfl
  · rw [List.map_append, hvalues, List.append_assoc]
    rfl
  · rw [hsent, ← List.append_assoc]
    have hwritten : written ([] ++ [(v, w)]) = w := List.append_nil w
    rw [hwritten]
    exact h.replies.append hreplied
  · obtain ⟨hmore, hmatched, htaken⟩ := h.remaining hthrown
    refine ⟨hmore, ?_, htaken⟩
    rw [hmatched, List.length_cons, List.length_append, List.length_singleton,
      show waiting.length + 1 + rest.length = waiting.length + (rest.length + 1) by omega]

theorem abort : Inv hiredis fuel program s { p with server := none } :=
  ⟨done, pending, more, arrived, waiting, s₁, h.appended, h.served, Or.inr rfl, h.requests, h.replies, h.got,
    h.remaining, h.failed⟩

theorem hangUp : Inv hiredis fuel program s { p with program := [], thrown := some RedisClient.sendFault } := by
  refine ⟨done, pending, more, arrived, waiting, s₁, h.appended, h.served, h.server, h.requests, h.replies, h.got, ?_,
    fun _ => rfl⟩
  intro hthrown
  cases hthrown

end Accounts

theorem Step.inv (hdoc : hiredis.Documented) (hissue : ∀ args ∈ issued program, Issuable args)
    (h : p.Inv hiredis fuel program s) (hstep : Step hiredis fuel p q) : q.Inv hiredis fuel program s := by
  obtain ⟨done, pending, more, arrived, waiting, s₁, h⟩ := h
  cases hstep with
  | append hp => exact h.append hp
  | reply hp hr => exact h.reply hdoc hp hr
  | write _ ho _ => exact h.write ho
  | read _ _ hs _ => exact h.read hs
  | serve hs hc ha => exact h.serve hdoc hissue hs hc ha
  | abort => exact h.abort
  | hangUp => exact h.hangUp

theorem Reaches.inv (hdoc : hiredis.Documented) (hissue : ∀ args ∈ issued program, Issuable args)
    (h : Reaches hiredis fuel (start program s) p) : p.Inv hiredis fuel program s := by
  induction h with
  | refl => exact start_inv program s
  | tail _ hstep ih => exact hstep.inv hdoc hissue ih

section Replies
variable {deliver : Bytes → List Bytes} {commands : List (List Bytes)} {xs : List Exchange}

theorem run_of_served (hdoc : hiredis.Documented) (hdeliver : ∀ text, (deliver text).flatten = text)
    (hissue : ∀ args ∈ commands, Issuable args) (hxs : xs.map Prod.fst = commands.map (List.map bulk))
    (h : Served fuel xs s s₁) :
    Machine.Run (RedisClient.run hiredis.blocking deliver fuel) commands s (xs.map fun x => .ofValue x.2) s₁ := by
  induction h generalizing commands with
  | nil =>
    obtain rfl := List.map_eq_nil_iff.mp hxs.symm
    exact .nil _
  | @cons command v xs _ _ _ hans _ ih =>
    obtain ⟨args, commands, rfl, hargs, hrest⟩ := List.map_eq_cons_iff.mp hxs.symm
    obtain rfl : args.map bulk = command := hargs
    rw [List.forall_mem_cons] at hissue
    exact .cons ((hissue.1.run_eq_ok hdoc hdeliver).mpr ⟨_, hans, rfl⟩) (ih hissue.2 hrest.symm)

variable (hdoc : hiredis.Documented) (hdeliver : ∀ text, (deliver text).flatten = text)
include hdoc hdeliver

theorem Accounts.run (h : p.Accounts hiredis fuel program s done pending more arrived waiting s₁)
    (hissue : ∀ args ∈ issued program, Issuable args) :
    Machine.Run (RedisClient.run hiredis.blocking deliver fuel) done s (p.got ++ waiting.map .ofValue) s₁ := by
  obtain ⟨xs, hdone, hvalues, hserved⟩ := h.served
  have hmem : ∀ args ∈ done, Issuable args := by
    intro args hargs
    refine hissue args ?_
    rw [h.appended]
    exact List.mem_append_left _ (List.mem_append_left _ hargs)
  have hrun := run_of_served hdoc hdeliver hmem hdone hserved
  have hreplies : (xs.map fun x => RedisReply.ofValue x.2) = p.got ++ waiting.map .ofValue := by
    rw [h.got, ← List.map_append, ← hvalues, List.map_map]
    rfl
  rwa [hreplies] at hrun

/-- Whatever order the steps are taken in, the client has the first replies of the commands run one at a time, each
once and in their order, and the server has executed the first commands, each once. -/
theorem pipeline_safe (hissue : ∀ args ∈ issued program, Issuable args)
    (hreach : Reaches hiredis fuel (start program s) p) :
    p.got <+: Machine.answers (RedisClient.run hiredis.blocking deliver fuel) (issued program) s ∧
    ∀ s₁, p.server = some s₁ → ∃ done replies, done <+: issued program ∧ p.got <+: replies ∧
      Machine.Run (RedisClient.run hiredis.blocking deliver fuel) done s replies s₁ := by
  obtain ⟨done, pending, more, arrived, waiting, s₁, h⟩ := hreach.inv hdoc hissue
  have hrun := h.run hdoc hdeliver hissue
  constructor
  · rw [h.appended, List.append_assoc]
    exact (List.prefix_append _ _).trans (hrun.prefix_answers _)
  · intro t ht
    obtain rfl := h.server_eq ht
    refine ⟨done, _, ?_, List.prefix_append _ _, hrun⟩
    rw [h.appended, List.append_assoc]
    exact List.prefix_append _ _

theorem Accounts.answers (h : p.Accounts hiredis fuel program s done pending more arrived waiting s₁)
    (hissue : ∀ args ∈ issued program, Issuable args) {replies : List RedisReply} {s' : Server}
    (hrun : Machine.Run (RedisClient.run hiredis.blocking deliver fuel) (issued program) s replies s')
    {args : List Bytes} {rest : List (List Bytes)} (hpending : pending = args :: rest) :
    ∃ answered, processCommand fuel (args.map bulk) ⟨s₁, []⟩ = .ok ((), answered) := by
  rw [h.appended, List.append_assoc] at hrun
  obtain ⟨_, bs, u, rfl, hdone, hrest⟩ := hrun.split
  obtain ⟨-, rfl⟩ := hdone.unique (h.run hdoc hdeliver hissue)
  subst hpending
  rw [List.cons_append] at hrest
  cases hrest with
  | cons hone _ =>
    have hissuable := h.issuable hissue List.mem_cons_self
    obtain ⟨v, ⟨w, -, hans⟩, -⟩ := (hissuable.run_eq_ok hdoc hdeliver).mp hone
    exact ⟨_, hans []⟩

theorem Reaches.alive (hissue : ∀ args ∈ issued program, Issuable args) {replies : List RedisReply} {s' : Server}
    (hrun : Machine.Run (RedisClient.run hiredis.blocking deliver fuel) (issued program) s replies s')
    (hreach : Reaches hiredis fuel (start program s) p) : p.server ≠ none ∧ p.thrown = none := by
  induction hreach with
  | refl => exact ⟨Option.some_ne_none s, rfl⟩
  | @tail p q hreach hstep ih =>
    obtain ⟨done, pending, more, arrived, waiting, s₁, h⟩ := Reaches.inv hdoc hissue hreach
    cases hstep with
    | append => exact ih
    | reply => exact ih
    | write => exact ih
    | read => exact ih
    | serve => exact ⟨Option.some_ne_none _, ih.2⟩
    | hangUp _ hs => exact absurd hs ih.1
    | abort hs hc =>
      obtain rfl := h.server_eq hs
      rcases h.reads hdoc hissue with ⟨hclosed, -⟩ | ⟨args, rest, c, hpending, hread, -⟩
      · rcases hc with ⟨e, he, hne⟩ | ⟨command, c, f, hok, -⟩
        · rw [hclosed] at he
          exact absurd (Except.error.inj he).symm hne
        · rw [hclosed] at hok
          cases hok
      · obtain ⟨answered, ha⟩ := h.answers hdoc hdeliver hissue hrun hpending
        rcases hc with ⟨e, he, -⟩ | ⟨command, c', f, hok, hf⟩
        · rw [hread] at he
          cases he
        · obtain ⟨rfl, -⟩ := Prod.mk.inj (Except.ok.inj (hread.symm.trans hok))
          rw [ha] at hf
          cases hf

theorem Accounts.halted (h : p.Accounts hiredis fuel program s done pending more arrived waiting s₁)
    (hissue : ∀ args ∈ issued program, Issuable args) {replies : List RedisReply} {s' : Server}
    (hrun : Machine.Run (RedisClient.run hiredis.blocking deliver fuel) (issued program) s replies s')
    (hserver : p.server = some s₁) (hhalted : Halted hiredis fuel p) :
    p.program = [] ∨ ((∃ rest, p.program = .getReply :: rest) ∧ waiting = [] ∧ pending = []) := by
  cases hp : p.program with
  | nil => exact Or.inl rfl
  | cons call rest =>
    cases call with
    | appendRun args => exact absurd (.append hp) (hhalted _)
    | getReply =>
      have hnone : RedisClient.getReply hiredis p.context = none := by
        cases hr : RedisClient.getReply hiredis p.context with
        | none => rfl
        | some r => exact absurd (.reply hp hr) (hhalted _)
      have hwaits : p.Waits hiredis := ⟨by rw [hp, List.head?_cons], hnone⟩
      have hobuf : p.context.obuf = [] := by
        by_contra hne
        exact hhalted _ (.write hwaits (List.append_nil _).symm hne)
      have houtbound : p.outbound = [] := by
        by_contra hne
        exact hhalted _ (.read hwaits hobuf (List.append_nil _).symm hne)
      refine Or.inr ⟨⟨rest, rfl⟩, ?_, ?_⟩
      · rcases h.replies.near_cases with ⟨hw, -, -⟩ | @⟨v, _, text, tail, -, hv, hreader, -⟩ | ⟨-, -, -, -, hfar⟩
        · exact hw
        · rw [RedisClient.getReply, hreader, hdoc.takesFirst v text tail hv.1 hv.2] at hnone
          cases hnone
        · exact absurd houtbound hfar
      · rcases h.reads hdoc hissue with ⟨-, hempty⟩ | ⟨args, rest, c, hpending, hread, -⟩
        · exact hempty hobuf
        · obtain ⟨answered, ha⟩ := h.answers hdoc hdeliver hissue hrun hpending
          exact absurd (.serve hserver hread ha) (hhalted _)

end Replies

theorem readCommand_shorter {alloc : Allocator} {c c' : Connection} {command : List RespValue}
    (h : readCommand alloc c = .ok (command, c')) : c'.stream.length < c.stream.length := by
  rcases @readCommand_outcome alloc c.stream with @⟨args, text, rest, hs, ht, hr⟩ | ⟨-, hr⟩ | ⟨-, hr⟩
  · obtain ⟨c'', hc, hrest⟩ := hr c rfl
    obtain ⟨-, rfl⟩ := Prod.mk.inj (Except.ok.inj (h.symm.trans hc))
    have hpos := ht.pos
    rw [hrest, hs, List.length_append]
    omega
  · rw [hr c rfl] at h
    cases h
  · rw [hr c rfl] at h
    cases h

/-- The calls to make, the bytes to send, the bytes the server has not read, whether it runs, and the bytes that the
client has not received. -/
def effort (p : Pipeline) : ℕ × ℕ × ℕ × ℕ × ℕ :=
  (p.program.length, p.context.obuf.length, p.inbound.length, if p.server = none then 0 else 1, p.outbound.length)

def Less : ℕ × ℕ × ℕ × ℕ × ℕ → ℕ × ℕ × ℕ × ℕ × ℕ → Prop :=
  Prod.Lex (· < ·) (Prod.Lex (· < ·) (Prod.Lex (· < ·) (Prod.Lex (· < ·) (· < ·))))

theorem less_wellFounded : WellFounded Less :=
  have hlt : WellFounded fun m n : ℕ => m < n := Nat.lt_wfRel.wf
  WellFounded.prod_lex hlt (WellFounded.prod_lex hlt (WellFounded.prod_lex hlt (WellFounded.prod_lex hlt hlt)))

theorem Step.less (h : Step hiredis fuel p q) : Less q.effort p.effort := by
  have hshort : ∀ {bytes now later : Bytes}, bytes = now ++ later → now ≠ [] → later.length < bytes.length := by
    rintro _ now later rfl hnow
    have hpos := List.length_pos_iff.mpr hnow
    rw [List.length_append]
    omega
  have hfewer : ∀ {call : ClientCall} {calls rest : List ClientCall}, calls = call :: rest →
      rest.length < calls.length := by
    rintro call _ rest rfl
    exact Nat.lt_succ_self _
  cases h with
  | append hp => exact .left _ _ (hfewer hp)
  | reply hp _ => exact .left _ _ (hfewer hp)
  | write _ ho hnow => exact .right _ (.left _ _ (hshort ho hnow))
  | serve _ hc _ =>
    have hlt := readCommand_shorter hc
    rw [stream_accept, List.flatten_singleton] at hlt
    exact .right _ (.right _ (.left _ _ hlt))
  | abort hs _ =>
    refine .right _ (.right _ (.right _ (.left _ _ ?_)))
    rw [hs, if_pos rfl, if_neg (Option.some_ne_none _)]
    exact Nat.zero_lt_one
  | read _ _ hs hnow => exact .right _ (.right _ (.right _ (.right _ (hshort hs hnow))))
  | hangUp hw _ =>
    obtain ⟨rest, hp⟩ := List.head?_eq_some_iff.mp hw.1
    refine .left _ _ ?_
    rw [hp]
    exact Nat.zero_lt_succ _

theorem step_wellFounded : WellFounded fun q p => Step hiredis fuel p q :=
  Subrelation.wf Step.less (InvImage.wf effort less_wellFounded)

theorem exists_halted (hiredis : BufferedHiredis) (fuel : ℕ) (p : Pipeline) :
    ∃ q, Reaches hiredis fuel p q ∧ Halted hiredis fuel q := by
  have hwf : WellFounded fun q p => Step hiredis fuel p q := step_wellFounded
  induction p using hwf.induction with
  | _ p ih =>
    by_cases hp : Halted hiredis fuel p
    · exact ⟨p, .refl, hp⟩
    · simp only [Halted, not_forall, not_not] at hp
      obtain ⟨q, hstep⟩ := hp
      obtain ⟨r, hreach, hr⟩ := ih q hstep
      exact ⟨r, .head hstep hreach, hr⟩

end Pipeline

open Classical in
noncomputable def BufferedHiredis.documented : BufferedHiredis where
  appendCommandArgv := Hiredis.documented.commandArgv
  getReplyFromReader received :=
    if h : ∃ r : RespValue × Bytes × Bytes, Replied r.1 r.2.1 ∧ received = r.2.1 ++ r.2.2 then
      some (.ofValue h.choose.1, h.choose.2.2)
    else none

theorem BufferedHiredis.documented_documented : BufferedHiredis.documented.Documented := by
  refine ⟨Hiredis.documented_documented.framesByLength, ?_, ?_⟩
  · intro v text rest hplain h
    have hex : ∃ r : RespValue × Bytes × Bytes, Replied r.1 r.2.1 ∧ text ++ rest = r.2.1 ++ r.2.2 :=
      ⟨(v, text, rest), ⟨hplain, h⟩, rfl⟩
    obtain ⟨hv, hrest⟩ := Parses.unique h hex.choose_spec.1.2 hex.choose_spec.2
    rw [BufferedHiredis.documented]
    dsimp only
    rw [dif_pos hex, ← hv, ← hrest]
  · intro v received missing hplain h hmissing
    rw [BufferedHiredis.documented]
    dsimp only
    refine dif_neg ?_
    rintro ⟨⟨v', text, rest⟩, hreplied, rfl⟩
    have hsplit : text ++ rest ++ missing ++ [] = text ++ (rest ++ missing) := by
      rw [List.append_nil, List.append_assoc]
    obtain ⟨-, hnil⟩ := Parses.unique h hreplied.2 hsplit
    exact hmissing (List.append_eq_nil_iff.mp hnil.symm).2

def pipelined : List ClientCall :=
  [.appendRun [bytes "SET", bytes "a", bytes "b"], .appendRun [bytes "GET", bytes "a"], .getReply, .getReply]

theorem pipelined_issuable : ∀ args ∈ issued pipelined, Issuable args := by
  intro args hargs
  rcases List.mem_pair.mp hargs with rfl | rfl
  · exact ⟨⟨by decide, by decide⟩, fun _ hn => by cases hn⟩
  · exact ⟨⟨by decide, by decide⟩, fun _ hn => by cases hn⟩

namespace Pipeline

theorem pipelined_run : ∃ fuel replies s', Machine.Run
    (RedisClient.run BufferedHiredis.documented.blocking (fun text => [text]) fuel) (issued pipelined) Server.start
    replies s' := by
  obtain ⟨fuel, xs, s', hxs, hserved⟩ :=
    (served_iff _ Server.start_denotes guardedSession_setA).mpr serviceable_setA_getA
  exact ⟨fuel, _, s', run_of_served BufferedHiredis.documented_documented (fun _ => List.flatten_singleton)
    pipelined_issuable hxs hserved⟩

theorem pipeline_safe_pipelined : ∃ fuel replies s' p, Machine.Run
      (RedisClient.run BufferedHiredis.documented.blocking (fun text => [text]) fuel) (issued pipelined) Server.start
      replies s' ∧
    Reaches BufferedHiredis.documented fuel (start pipelined Server.start) p ∧
    Halted BufferedHiredis.documented fuel p ∧ p.server ≠ none ∧ p.thrown = none ∧ p.got <+: Machine.answers
      (RedisClient.run BufferedHiredis.documented.blocking (fun text => [text]) fuel) (issued pipelined)
      Server.start := by
  obtain ⟨fuel, replies, s', hrun⟩ := pipelined_run
  obtain ⟨p, hreach, hhalted⟩ := exists_halted BufferedHiredis.documented fuel (start pipelined Server.start)
  obtain ⟨hserver, hthrown⟩ := hreach.alive BufferedHiredis.documented_documented
    (fun _ => List.flatten_singleton) pipelined_issuable hrun
  exact ⟨fuel, replies, s', p, hrun, hreach, hhalted, hserver, hthrown,
    (pipeline_safe BufferedHiredis.documented_documented (fun _ => List.flatten_singleton) pipelined_issuable
      hreach).1⟩

end Pipeline

end BtreeRedis
