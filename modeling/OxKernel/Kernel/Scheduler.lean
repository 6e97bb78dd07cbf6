import OxKernel.Kernel.Queue

/-!
# The scheduler

`schedule`, which handles the alarms, wakes processes with a signal, counts all counters
down and goes on with the process that has the highest one.

## Main definitions

* `Process.alarmed` — the first loop of `schedule`, for one process.
* `choose` — the process that `schedule` goes on with.
* `schedule`, `kpause` — the functions.
-/
namespace OxKernel.Kernel

open Lib (Call)

/-- The signals the kernel sends. -/
def sigHup : UInt32 := 1
def sigKill : UInt32 := 9
def sigAlrm : UInt32 := 14
def sigChld : UInt32 := 17
def sigStop : UInt32 := 19

/-- What `schedule` finds outside the kernel's memory: the clock at the time the first loop is
at a process, and the address of `kstart`. -/
structure Env where
  ktime : Ptr → Int32
  kstart : UInt32

/-- `can_block`. -/
def canBlock : UInt32 := ~~~((1 <<< sigKill) ||| (1 <<< sigStop))

namespace Process
variable (x : Process)

/-- The process has a signal that is not blocked. -/
def Pending : Prop := x.signal &&& ~~~(canBlock &&& x.blocked) ≠ 0

instance : Decidable x.Pending := inferInstanceAs (Decidable (_ ≠ _))

/-- The test for the alarm. -/
def AlarmTest (now : Int32) : Prop := x.alarm ≠ 0 ∧ x.alarm + x.startTime ≥ now

instance (now : Int32) : Decidable (x.AlarmTest now) := inferInstanceAs (Decidable (_ ∧ _))

/-- The alarm signal. -/
def postAlarm (now : Int32) : Process :=
  if x.AlarmTest now then { x with signal := x.signal ||| 1 <<< sigAlrm, alarm := 0 } else x

/-- A process with a signal runs. -/
def wake : Process :=
  if x.Pending ∧ x.state = pInterruptible then { x with state := pRunning } else x

/-- The first loop, for one process. -/
def alarmed (now : Int32) : Process := (x.postAlarm now).wake

/-- `p_counter--`. -/
def countDown : Process := { x with counter := x.counter - 1 }

end Process

/-- The last loop: the process with the highest counter, the first one if there are more. -/
def choose (me : Ptr) : KernelM Ptr := do
  let r ← Call.withLocal me (eachProcess Prod.fst fun curr =>
    Call.modify fun (s, proc) =>
      if (s.mem proc).counter < (s.mem curr).counter then (s, curr) else (s, proc))
  pure r.2

/-- `find_process`. -/
def findProcess (pid : Int32) : KernelM (Option Ptr) :=
  tableLoop id fun curr => do
    let s ← Call.get
    pure (if (s.mem curr).pid = pid then some curr else none)

/-- `find_init`. -/
def findInit : KernelM (Option Ptr) := findProcess 1

section Calls
variable (e : Env)

/-- The switch from one process to another; `before` is what the other one was when `schedule`
was entered. -/
def switchTo (me proc : Ptr) (before : Process) : KernelM Unit := do
  Call.modify fun s => { s with previousProcess := some me, currentProcess := some proc }
  let s ← Call.get
  let firstExec := (s.mem proc).firstExec
  let mode : Int32 := if firstExec = 0 ∨ firstExec = 1 then 1 else 0
  if firstExec = 1 then
    Call.modify fun s => s.update proc fun x => { x with eip := e.kstart }
  else pure ()
  Call.modify fun s => s.update proc fun x => { x with firstExec := 2 }
  let s ← Call.get
  if (s.mem proc).eip = 0 then panic "error current_process->p_tss.eip == 0x0\n"
  else Call.modify fun s =>
    { s with firstTime := 0, switches := ⟨proc, before, s.mem proc, mode⟩ :: s.switches }

/-- `schedule`. -/
def schedule : KernelM Unit := do
  let s₀ ← Call.get
  match s₀.currentProcess with
  | none => panic "current_process is null\n"
  | some me => do
    eachProcess id fun curr => Call.modify fun s => s.update curr fun x => x.alarmed (e.ktime curr)
    eachProcess id fun curr => Call.modify fun s => s.update curr Process.countDown
    let proc ← choose me
    Call.modify fun s => s.update me Process.countDown
    let s ← Call.get
    if s.firstTime ≠ 0 ∨ (proc ≠ me ∧ (s.mem me).tssSeg ≠ 0) then
      switchTo e me proc (s₀.mem proc)
    else pure ()

/-- `p->p_state = state`. -/
def setState (p : Ptr) (state : Int32) : KernelM Unit :=
  Call.modify fun s => s.update p fun x => { x with state := state }

/-- `kpause`. -/
def kpause : KernelM Int32 := do
  let s ← Call.get
  let me ← deref s.currentProcess
  setState me pInterruptible
  schedule e
  pure 0

end Calls
end OxKernel.Kernel
