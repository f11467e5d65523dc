import Mathlib.Logic.Function.Basic
import RedisRoaring.Iterator
import RedisRoaring.Persistence

/-!
# The commands

The handlers of the module. What the server keeps is a parameter or a map: the
keyspace maps keys to values, values of other types stay as they are given, and
`parse` stands for `RedisModule_StringToLongLong`. A handler answers with what it
sends to the client, its status, and whether it asked for replication.
-/

namespace RedisRoaring

open Exec

/-! ## What the server provides -/

/-- `RedisModuleString`: its bytes. -/
abbrev RedisString := List UInt8

/-- The value of a key: of `RoaringType`, or of another type. -/
inductive Value (O : Type) where
  | roaring (bitmap : RoaringBitmap)
  | other (value : O)
  deriving DecidableEq

/-- The keyspace: an absent key has no value. -/
abbrev Keyspace (O : Type) := RedisString → Option (Value O)

/-- What a handler sends to the client. -/
inductive Reply where
  /-- `RedisModule_ReplyWithArray`: that many replies follow. -/
  | array (len : Nat)
  /-- `RedisModule_ReplyWithLongLong`: every value sent is a cardinality, a member or a flag. -/
  | longLong (ll : Nat)
  /-- `RedisModule_ReplyWithError`. -/
  | error (err : String)
  /-- `RedisModule_WrongArity`. -/
  | wrongArity
  deriving DecidableEq, Repr

/-- What a handler returns. -/
inductive Status where
  | redismoduleOk
  | redismoduleErr
  deriving DecidableEq, Repr

/-- What is seen of an invocation from outside. -/
structure Answer where
  replies : List Reply
  status : Status
  /-- `RedisModule_ReplicateVerbatim` was called. -/
  replicated : Bool
  deriving DecidableEq, Repr

/-- Replies that go with `REDISMODULE_OK` and without replication. -/
def Answer.replying (replies : List Reply) : Answer := { replies, status := .redismoduleOk, replicated := false }

/-- An error reply. -/
def Answer.failing (err : String) : Answer :=
  { replies := [.error err], status := .redismoduleErr, replicated := false }

/-- The error reply of `RedisModule_WrongArity`, which a handler returns as its status. -/
def Answer.wrongArity : Answer := .replying [.wrongArity]

/-- `REDISMODULE_ERRORMSG_WRONGTYPE`. -/
def errormsgWrongtype : String := "WRONGTYPE Operation against a key holding the wrong kind of value"

/-- The cast `(uint32_t)value` of a `long long`. -/
def narrow (value : Int64) : UInt32 := value.toUInt64.toUInt32

section Handlers

variable {O : Type} (parse : RedisString → Option Int64) (keyspace : Keyspace O)

/-! ## ADD and REMOVE -/

/-- `_cmdAddOrRemove` from the opened key on, with the values at hand. -/
def updateKey (adding : Bool) (key : RedisString) (values : List UInt32) : Outcome (Keyspace O × Answer) := do
  let done : Answer := { replies := [.longLong 1], status := .redismoduleOk, replicated := true }
  match keyspace key with
  | some (.other _) => return (keyspace, .failing errormsgWrongtype)
  | none =>
    if adding then
      let bitmap ← roaringBitmapAddMany roaringBitmapCreate values
      return (Function.update keyspace key (some (.roaring bitmap)), done)
    else return (keyspace, .replying [.longLong 1])
  | some (.roaring bitmap) =>
    if adding then
      let bitmap ← roaringBitmapAddMany bitmap values
      return (Function.update keyspace key (some (.roaring bitmap)), done)
    else
      let bitmap ← values.foldlM roaringBitmapRemove bitmap
      if roaringBitmapIsEmpty bitmap then return (Function.update keyspace key none, done)
      else return (Function.update keyspace key (some (.roaring bitmap)), done)

/-- `_cmdAddOrRemove`: every value is parsed before the key is opened. -/
def cmdAddOrRemove (adding : Bool) : List RedisString → Outcome (Keyspace O × Answer)
  | key :: arg :: args =>
    match (arg :: args).mapM parse with
    | none => .ok (keyspace, .failing "Invalid argument, expects <key> <int>...")
    | some values => updateKey keyspace adding key (values.map narrow)
  | _ => .ok (keyspace, .wrongArity)

/-- `cmdAdd`. -/
def cmdAdd (args : List RedisString) : Outcome (Keyspace O × Answer) := cmdAddOrRemove parse keyspace true args

/-- `cmdRemove`. -/
def cmdRemove (args : List RedisString) : Outcome (Keyspace O × Answer) := cmdAddOrRemove parse keyspace false args

/-! ## CARD -/

/-- `format_err` of `cmdCard`. -/
def formatErr : String :=
  "Expects format roaring.card included1 [included2 included3 ...] [! excluded1 [excluded2] ...]"

/-- `bang`: the string `"!"`. -/
def bang : RedisString := [0x21]

/-- The loop of `cmdCard`: what has been made of the bitmap when the arguments
are through, or the error to reply. -/
def cardLoop (keyspace : Keyspace O) (bitmap : RoaringBitmap) (bangFound : Bool) :
    List RedisString → Outcome (Keyspace O × Except String RoaringBitmap)
  | [] => .ok (keyspace, .ok bitmap)
  | arg :: args =>
    if arg = bang then
      if bangFound then .ok (keyspace, .error formatErr)
      else cardLoop keyspace bitmap true args
    else
      match keyspace arg with
      | none => cardLoop keyspace bitmap bangFound args
      | some (.other _) => .ok (keyspace, .error errormsgWrongtype)
      | some (.roaring argBitmap) =>
        if bangFound then do
          let bitmap ← roaringBitmapAndnotInplace bitmap argBitmap
          cardLoop keyspace bitmap bangFound args
        else do
          -- the union may mark the containers of its second operand as shared
          let (bitmap, argBitmap) ← roaringBitmapOrInplace bitmap argBitmap
          cardLoop (Function.update keyspace arg (some (.roaring argBitmap))) bitmap bangFound args

/-- `cmdCard`. -/
def cmdCard (args : List RedisString) : Outcome (Keyspace O × Answer) := do
  if args = [] then return (keyspace, .wrongArity)
  let (keyspace, outcome) ← cardLoop keyspace roaringBitmapCreate false args
  match outcome with
  | .error err => return (keyspace, .failing err)
  | .ok bitmap => return (keyspace, .replying [.longLong (roaringBitmapGetCardinality bitmap)])

/-! ## MEMBERS and ISMEMBER -/

/-- The loop of `cmdMembers`: the integers it sends. It has no bound in the
source; a run of more rounds than there are 32-bit values is a fault here. -/
def membersLoop (bitmap : RoaringBitmap) : Nat → Iterator → Outcome (List Reply)
  | 0, _ => .error .outOfFuel
  | rounds + 1, it => do
    if it.hasValue then
      let sent := Reply.longLong it.currentValue.toNat
      let (it, _) ← roaringAdvanceUint32Iterator bitmap it
      return sent :: (← membersLoop bitmap rounds it)
    else return []

/-- `cmdMembers`. -/
def cmdMembers : List RedisString → Outcome (Keyspace O × Answer)
  | [key] =>
    match keyspace key with
    | none => .ok (keyspace, .replying [.array 0])
    | some (.other _) => .ok (keyspace, .failing errormsgWrongtype)
    | some (.roaring bitmap) => do
      let it ← roaringCreateIterator bitmap
      let integers ← membersLoop bitmap (2 ^ 32 + 1) it
      return (keyspace, .replying (.array (roaringBitmapGetCardinality bitmap) :: integers))
  | _ => .ok (keyspace, .wrongArity)

/-- `cmdIsMember`: a value that does not parse is left at `-1`. -/
def cmdIsMember : List RedisString → Outcome (Keyspace O × Answer)
  | [key, arg] =>
    match keyspace key with
    | none => .ok (keyspace, .replying [.longLong 0])
    | some (.other _) => .ok (keyspace, .failing errormsgWrongtype)
    | some (.roaring bitmap) => do
      let value := (parse arg).getD (-1)
      let contains ← roaringBitmapContains bitmap (narrow value)
      return (keyspace, .replying [.longLong contains.toNat])
  | _ => .ok (keyspace, .wrongArity)

end Handlers

/-! ## Invocations -/

/-- The registered commands. -/
inductive Command where
  | add
  | remove
  | card
  | members
  | ismember
  deriving DecidableEq, Repr

/-- A command with the arguments that follow its name. -/
structure Invocation where
  command : Command
  args : List RedisString
  deriving DecidableEq, Repr

/-- The handler that `RedisModule_OnLoad` registers for each command. -/
def exec {O : Type} (parse : RedisString → Option Int64) (keyspace : Keyspace O) (invocation : Invocation) :
    Outcome (Keyspace O × Answer) :=
  match invocation.command with
  | .add => cmdAdd parse keyspace invocation.args
  | .remove => cmdRemove parse keyspace invocation.args
  | .card => cmdCard keyspace invocation.args
  | .members => cmdMembers keyspace invocation.args
  | .ismember => cmdIsMember parse keyspace invocation.args

end RedisRoaring
