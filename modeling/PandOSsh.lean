import PandOSsh.Nucleus.Refine
import PandOSsh.Nucleus.Counters
import PandOSsh.Nucleus.CpuTime
import PandOSsh.Nucleus.DeviceIo
import PandOSsh.Nucleus.ClockTick
import PandOSsh.Nucleus.Pids
import PandOSsh.Nucleus.UserMode
import PandOSsh.Nucleus.Semaphores
import PandOSsh.Nucleus.ContextSwitch
import PandOSsh.Nucleus.Termination
import PandOSsh.Nucleus.Machine
import PandOSsh.Nucleus.FirstRun
import PandOSsh.Nucleus.RoundRobin
import PandOSsh.Phase1.AslMap
import PandOSsh.Phase1.ProcQueue
import PandOSsh.Phase1.PcbRecycling
import PandOSsh.Phase1.Tables
import PandOSsh.SupportLevel.Exclusion
import PandOSsh.SupportLevel.PageNumbers
import PandOSsh.SupportLevel.Eviction
import PandOSsh.SupportLevel.TerminalCalls
import PandOSsh.SupportLevel.Stacks
import PandOSsh.SupportLevel.FlatMemory
import PandOSsh.SupportLevel.Termination
import PandOSsh.SupportLevel.Leaks
import PandOSsh.SupportLevel.Progress
import PandOSsh.SupportLevel.Services
import PandOSsh.SupportLevel.Replacement
import PandOSsh.SupportLevel.BoundedWait
import PandOSsh.Testers.Shell
import PandOSsh.Testers.Calc
import PandOSsh.Testers.Session
import PandOSsh.Testers.Calculation
