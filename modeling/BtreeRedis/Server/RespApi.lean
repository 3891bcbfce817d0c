import BtreeRedis.Server.Api

/-!
# The commands

`processCommand` looks up the handler of a command by its name and calls it. The
handlers check their arguments, call the operations and respond; what has been sent
to the client is kept with the bytes that the serializer wrote for it.
-/

namespace BtreeRedis

open Decimal

structure Context where
  server : Server
  sent : List (RespValue × Bytes)

abbrev Handler := StateT Context (Except ServerFault)

def toLower (b : Byte) : Byte := if 65 ≤ b.val ∧ b.val ≤ 90 then b + 32 else b

def toLowerCopy (s : Bytes) : Bytes := s.map toLower

def iequals (s t : Bytes) : Bool := toLowerCopy s = toLowerCopy t

namespace CommandContext

def respond (value : RespValue) : Handler Unit := fun c => do
  let written ← value.writeValue
  pure ((), { c with sent := c.sent ++ [(value, written)] })

def simpleString (s : Bytes) : RespValue := .simpleString (some s)

def error (s : Bytes) : RespValue := .error (some s)

def respondOk : Handler Unit := respond (simpleString (bytes "OK"))

def respondErrorWrongArguments : Handler Unit :=
  respond (error (bytes "wrong number of arguments for command"))

def respondErrorNoInteger : Handler Unit :=
  respond (error (bytes "value is not an integer or out of range"))

def getArgOrNull (command : List RespValue) (arg : ℕ) : Option Bytes :=
  match command[arg]? with
  | some (.bulkString value) => value
  | _ => none

def argIs (command : List RespValue) (arg : ℕ) (str : Bytes) : Except ServerFault Bool :=
  match command[arg]? with
  | some (.bulkString value) => do pure (iequals (← deref value) str)
  | _ => pure false

end CommandContext

open CommandContext

def api {α : Type} (f : Api α) : Handler α := fun c => do
  let (a, server) ← f c.server
  pure (a, { c with server })

namespace RespApi

variable (fuel : ℕ) (command : List RespValue)

def rootError : Bytes := bytes ("For simplicity, only $ROOT$ is allowed for the key to operate on " ++
  "the entire BTree-Implementation. This is all that's needed for this specific benchmarking use-case")

def infoText (memory : ℕ) : Bytes :=
  bytes "# Server\r\nredis_version:8.6.2\r\nredis_mode:standalone\r\n\r\n# Memory\r\n" ++
    bytes "used_memory_dataset:" ++ text memory ++ bytes "\r\n"

def onInfo : Handler Unit := do
  let memory ← api ApiImpl.getMemory
  respond (.bulkString (some (infoText memory)))

def onPing : Handler Unit := respond (simpleString (bytes "PONG"))

def onGet : Handler Unit :=
  match getArgOrNull command 1 with
  | none => respondErrorWrongArguments
  | some key => do
    match ← api (ApiImpl.get key) with
    | none => respond .nullBulkString
    | some val => respond (.bulkString (some val))

def onSet : Handler Unit :=
  match getArgOrNull command 1 with
  | none => respondErrorWrongArguments
  | some key =>
    match getArgOrNull command 2 with
    | none => respondErrorWrongArguments
    | some val => do
      api (ApiImpl.set fuel key val)
      respondOk

/-- The loop of `onDel` and `onExists`, with the operation of either. -/
def countLoop (op : Bytes → Api Bool) : List RespValue → ℤ → Handler Unit
  | [], count => respond (.integer count)
  | arg :: args, count =>
    match arg.getAsString with
    | none => respondErrorWrongArguments
    | some key => do
      let done ← api (op key)
      countLoop op args (if done then count + 1 else count)

def countKeys (op : Bytes → Api Bool) : Handler Unit :=
  if command.length < 2 then respondErrorWrongArguments else countLoop op (command.drop 1) 0

def onDel : Handler Unit := countKeys command ApiImpl.del

def onExists : Handler Unit := countKeys command ApiImpl.existsKey

/-- `onIncr` and `onDecr` for an amount of 1 and -1. -/
def incrementBy (amount : ℤ) : Handler Unit :=
  match getArgOrNull command 1 with
  | none => respondErrorWrongArguments
  | some key => do
    match ← api (ApiImpl.increment fuel key amount) with
    | none => respondErrorNoInteger
    | some result => respond (.integer result)

def onIncr : Handler Unit := incrementBy fuel command 1

def onDecr : Handler Unit := incrementBy fuel command (-1)

/-- `onIncrBy` and `onDecrBy`, which negates the amount. -/
def incrementByArg (amountOf : ℤ → Except ServerFault ℤ) : Handler Unit :=
  match getArgOrNull command 1 with
  | none => respondErrorWrongArguments
  | some key =>
    match getArgOrNull command 2 with
    | none => respondErrorWrongArguments
    | some amountStr => do
      match ← ArgParsing.parseIntStrict amountStr with
      | none => respondErrorNoInteger
      | some amount => do
        let amount ← amountOf amount
        match ← api (ApiImpl.increment fuel key amount) with
        | none => respondErrorNoInteger
        | some result => respond (.integer result)

def onIncrBy : Handler Unit := incrementByArg fuel command fun amount => pure amount

def onDecrBy : Handler Unit := incrementByArg fuel command fun amount => checked (-amount)

def onMGet : Handler Unit := do
  let result ← api (ApiImpl.mget (command.drop 1))
  respond (.array (result.map .bulkString))

def onMSet : Handler Unit := do
  api (ApiImpl.mset fuel (command.drop 1))
  respondOk

def onZAdd : Handler Unit :=
  match getArgOrNull command 1 with
  | none => respondErrorWrongArguments
  | some key =>
    if key ≠ bytes "$ROOT$" then respond (error rootError)
    else do
      let result ← api (ApiImpl.zadd fuel (command.drop 2))
      respond (.integer result)

def onZRange : Handler Unit :=
  match getArgOrNull command 1, getArgOrNull command 2, getArgOrNull command 7 with
  | some key, some minArg, some limitArg => do
    if key ≠ bytes "$ROOT$" then respond (error rootError)
    else if !(← argIs command 4 (bytes "bylex")) then
      respond (error (bytes "ZRANGE command is only supported with BYLEX"))
    else if !(← argIs command 3 (bytes "+")) then
      respond (error (bytes "ZRANGE command is only supported with a max of + (infinite)"))
    else if !(← argIs command 5 (bytes "limit")) then
      respond (error (bytes "ZRANGE command requires the LIMIT part"))
    else if !(← argIs command 6 (bytes "0")) then
      respond (error (bytes "ZRANGE command requires the LIMIT part"))
    else
      match ← ArgParsing.parseIntStrict limitArg with
      | none => respondErrorNoInteger
      | some limit =>
        -- The byte behind the end of an empty string is zero.
        if minArg.head? ≠ some (ascii '[') then
          respond (error (bytes "ZRANGE min value must start with ["))
        else do
          let result ← api (ApiImpl.zrange fuel (minArg.drop 1) (limit % 2 ^ 64).toNat)
          respond (.array (result.map fun key => .bulkString (some key)))
  | _, _, _ => respondErrorWrongArguments

def onFlushAll : Handler Unit := do
  api ApiImpl.flushAll
  respondOk

inductive CommandName
  | ping | info | get | set | del | exists | incr | incrby | decr | decrby | mget | mset | zadd | zrange
  | flushall
  deriving DecidableEq, Repr

def commandMap : List (Bytes × CommandName) :=
  [(bytes "ping", .ping), (bytes "info", .info), (bytes "get", .get), (bytes "set", .set),
    (bytes "del", .del), (bytes "exists", .exists), (bytes "incr", .incr), (bytes "incrby", .incrby),
    (bytes "decr", .decr), (bytes "decrby", .decrby), (bytes "mget", .mget), (bytes "mset", .mset),
    (bytes "zadd", .zadd), (bytes "zrange", .zrange), (bytes "flushall", .flushall)]

def commandFn : CommandName → Handler Unit
  | .ping => onPing
  | .info => onInfo
  | .get => onGet command
  | .set => onSet fuel command
  | .del => onDel command
  | .exists => onExists command
  | .incr => onIncr fuel command
  | .incrby => onIncrBy fuel command
  | .decr => onDecr fuel command
  | .decrby => onDecrBy fuel command
  | .mget => onMGet command
  | .mset => onMSet fuel command
  | .zadd => onZAdd fuel command
  | .zrange => onZRange fuel command
  | .flushall => onFlushAll

def unknownCommand (name : Bytes) : RespValue :=
  error (bytes "ERR unknown command '" ++ name ++ bytes "'")

def processCommand : Handler Unit :=
  match getArgOrNull command 0 with
  | none => respondErrorWrongArguments
  | some rootCommand =>
    match commandMap.lookup (toLowerCopy rootCommand) with
    | none => respond (unknownCommand rootCommand)
    | some name => commandFn fuel command name

end RespApi

end BtreeRedis
