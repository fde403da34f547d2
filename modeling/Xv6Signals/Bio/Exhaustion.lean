import Xv6Signals.Bio.Coherence
import Mathlib.Data.List.Perm.Subperm

namespace Xv6Signals.Bio
open Lib List

variable {s : Shared} {dev blockno : Word} {i : BufId}

def Shared.pinned (s : Shared) : Nat :=
  (List.finRange 30).countP fun i => s.logged (s.cache.buf i).dev (s.cache.buf i).blockno

def UseOp.reader (s : Shared) : UseOp → Prop
  | .bget pid dev _ => pid < 64 ∧ dev = 1 ∧ ∀ u ∈ s.uses, u.pid ≠ pid
  | .act _ (.modify _) => False
  | .act _ .logWrite => False
  | .act _ .bwrite => False
  | .act _ _ => True

instance decidableReader (s : Shared) (op : UseOp) : Decidable (op.reader s) := by
  unfold UseOp.reader
  split <;> infer_instance

end Xv6Signals.Bio
