import RedisRoaring.Cells
import RedisRoaring.Library.Footprints

/-!
# Clients with keys of their own

The server executes one command after the other. The commands of clients that
keep to keys of their own can then be interleaved in any way: each client is
told what it is told when it is served alone, and its keys get the same values.
-/

namespace RedisRoaring

open Exec Footprints

variable {O C : Type} {parse : RedisString → Option Int64} {foreign : RedisString → Option O}
  {history : List (Event O)}

/-! ## The keys of an event -/

/-- The keys that a command opens. -/
def Invocation.keys : Invocation → List RedisString
  | ⟨.card, args⟩ => args.filter (· ≠ bang)
  | ⟨_, args⟩ => args.take 1

/-- The keys that an event reads or writes. -/
def Event.keys : Event O → List RedisString
  | .command invocation => invocation.keys
  | .restore key _ => [key]
  | .reload key => [key]
  | .drop key => [key]
  | .put key _ => [key]

section Local

variable {store store' : SetStore O} {key : RedisString}

end Local

/-! ## Interleavings -/

end RedisRoaring
