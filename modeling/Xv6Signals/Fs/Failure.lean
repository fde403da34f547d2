import Xv6Signals.Fs.LogBound
import Xv6Signals.Fs.Ownership

namespace Xv6Signals
open Lib Function

variable {sb : Superblock} {s t : Sys} {p : ProcSlot} {x : ProcFiles} {ip : Slot} {α : Type}
  {F : FsPanic → Fs → Prop} {path : List Byte}

def Sys.refs (s : Sys) (ip : Slot) : Nat := cwdCount s.proc ip + fileCount s.file ip

end Xv6Signals
