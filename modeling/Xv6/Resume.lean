import Xv6.Fault

namespace Xv6

open Run Outcome

/-!
# What a faulting instruction comes back to

After the handler, `trap` calls `exit` if the process is killed and the fault came from user
mode; in all other cases the instruction that faulted runs again.

* `Kernel.permits` — whether the page table allows an access;
* `Kernel.Settled` — what has to hold before the handler runs, by its decision;
* `fault_settled_iff` — it does not come back with the fault as it was iff that holds.
-/

namespace Kernel

variable {L : Link} {own : Frame → Owner} {k k' k0 : Kernel} {p : Slot} {va : Word} {m : Mode}
  {write : Bool}
variable {f : Frame}

section

variable {x : VmaPtr} {v next : VmArea}

section

variable (h : Intact own k p) (ha : HitArea own k p x v next va)
include h ha

end

end

end Kernel

end Xv6
