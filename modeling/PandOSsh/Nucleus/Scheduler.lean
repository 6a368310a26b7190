import PandOSsh.Nucleus.State

/-!
# The scheduler (phase2/src/scheduler.c)

`WAIT` ends the kernel entry: the interrupt that ends the wait is the next one.
-/

namespace PandOSsh.Nucleus
variable {Q : Type} [QueueApi Q]

/-- The fields that `dispatch` sets for the process it takes. -/
def load (p : Pcb) (k : Kernel Q) : Kernel Q :=
  { k with currProc := some p, todStart := k.now, cpu := .run (k.pcb p).pS }

def dispatch (k : Kernel Q) : Option (Kernel Q) :=
  if QueueApi.emptyProcQ k.store then
    if k.processCount = 0 then some { k with cpu := .halt }
    else if 0 < k.softBlockCount then some { k with cpu := .wait }
    else some { k with cpu := .panic }
  else
    (QueueApi.removeProcQ k.store).bind fun r =>
      r.2.map fun pcb => load pcb { k with store := r.1 }

end PandOSsh.Nucleus
