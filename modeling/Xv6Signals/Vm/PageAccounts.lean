import Xv6Signals.Vm.AddressSpaces

namespace Xv6Signals.Vm
open Lib Function

variable {full : Prop} {I : Image} {s t : System} {p q : Fin 64} {m : Frames}

end Xv6Signals.Vm
