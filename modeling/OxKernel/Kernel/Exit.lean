import OxKernel.Kernel.Scheduler

/-!
# Signals to processes, exit and wait

The functions of `exit.c`. `kwaitpid` is in two parts, since another process runs while it
waits: one up to the call of `schedule`, and one from there on.

## Main definitions

* `freeProcess` — takes a process out of its queue.
* `dispatchSignal`, `kkill` — signals.
* `kexit`, `kwaitpid`, `kwaitpidResume` — the functions.
-/
namespace OxKernel.Kernel

open Lib (Call)
open Fs (Inode DirStream maxFiles maxDir)

def ePerm : Int32 := 1
def eIntr : Int32 := 4
def eInval : Int32 := 22

def wNoHang : Int32 := 1
def wUntraced : Int32 := 2

/-- The tables of files and directories of a process. -/
structure Tables where
  fileTab : Fin maxFiles → Inode
  fileDesc : Fin maxFiles → InodePtr
  dirTab : Fin maxDir → DirStream

/-- The rest of `free_process` after the files are closed; `kfree` comes after it. `exit.c`
declares `GDT_MAP` as a pointer, so its last store, of a zero for entry `i`, goes to the word `i`
behind the address that the first four bytes of the map make up (`compiledStore`), not to the map;
it is not a part of the state here. -/
def unlinkProcess (p : Ptr) : KernelM Unit := do
  let s ← Call.get
  let priority := (s.mem p).priority
  panicIf (priority < 0 ∨ priority ≥ 32) "free_process:: invalid priority"
  let i ← queueOf priority
  if s.processTab i = some p then setTab i (s.mem p).next else pure ()
  let s ← Call.get
  match (s.mem p).next with
  | some behind => setPrev behind (s.mem p).prev
  | none => pure ()
  let s ← Call.get
  match (s.mem p).prev with
  | some before => setNext before (s.mem p).next
  | none => pure ()
  let s ← Call.get
  panicIf (((s.mem p).tssSeg / 8).toNat > nrGdt) "free_process:: invalid tss\n"

/-- `free_process`; `close` is what the file system makes of the tables of the process. -/
def freeProcess (close : Process → Tables) : Option Ptr → KernelM Unit
  | none => pure ()
  | some p => do
    let s ← Call.get
    let tmp := s.currentProcess
    Call.modify fun s => { s with currentProcess := some p }
    Call.modify fun s => s.update p fun x =>
      { x with
        fileTab := (close x).fileTab
        fileDesc := (close x).fileDesc
        dirTab := (close x).dirTab }
    Call.modify fun s => { s with currentProcess := tmp }
    unlinkProcess p

/-- `1 << signal`. -/
def signalBit (signal : Int32) : UInt32 := 1 <<< signal.toUInt32

/-- `p->p_signal |= bit`. -/
def postSignal (p : Ptr) (bit : UInt32) : KernelM Unit :=
  Call.modify fun s => s.update p fun x => { x with signal := x.signal ||| bit }

/-- A signal that exists. -/
def ValidSignal (signal : Int32) : Prop := 1 ≤ signal ∧ signal ≤ 22

instance (signal : Int32) : Decidable (ValidSignal signal) := inferInstanceAs (Decidable (_ ∧ _))

/-- `dispatch_signal`. -/
def dispatchSignal (signal : Int32) (isRoot : Bool) (proc : Option Ptr) : KernelM Int32 :=
  match proc with
  | none => pure eInval
  | some p =>
    if ¬ ValidSignal signal then pure eInval
    else if isRoot then do
      postSignal p (signalBit signal)
      pure 0
    else do
      let s ← Call.get
      let me ← deref s.currentProcess
      if (s.mem me).euid = (s.mem p).euid ∨ (s.mem me).euid = 0 then do
        postSignal p (signalBit signal)
        pure 0
      else pure ePerm

/-- `terminate_session`. -/
def terminateSession : KernelM Unit :=
  eachProcess id fun curr => do
    let s ← Call.get
    let me ← deref s.currentProcess
    if (s.mem curr).session = (s.mem me).session then postSignal curr (1 <<< sigHup) else pure ()

/-- `signal_parent`. -/
def signalParent (pid : Int32) : KernelM Unit := do
  let r ← tableLoop id fun curr => do
    let s ← Call.get
    if (s.mem curr).pid = pid then do
      postSignal curr (1 <<< sigChld)
      pure (some ())
    else pure none
  match r with
  | some () => pure ()
  | none => panic "signal_parent:: parent not found!"

section Kill
variable (pid signal : Int32)

/-- `if((error=dispatch_signal(…))) { rtvl = error; }`. -/
def dispatchTo (isRoot : Bool) (curr : Ptr) : Call Stop (State × Int32) Unit := do
  let error ← Call.lift (dispatchSignal signal isRoot (some curr))
  Call.modify fun (s, rtvl) => (s, if error ≠ 0 then error else rtvl)

/-- One process in the loop of `kkill`. -/
def kkillStep (curr : Ptr) : Call Stop (State × Int32) Unit := do
  let (s, _) ← Call.get
  let mine ← if pid = 0 then do
      let me ← Call.lift (deref s.currentProcess)
      pure (decide ((s.mem curr).pgrp = (s.mem me).pid))
    else pure false
  if pid = 0 ∧ mine then dispatchTo signal true curr
  else if pid > 0 ∧ (s.mem curr).pid = pid then dispatchTo signal false curr
  else if pid = -1 then dispatchTo signal false curr
  else if (s.mem curr).pgrp = -pid then dispatchTo signal false curr
  else pure ()

/-- `kkill`. -/
def kkill : KernelM Int32 := do
  let r ← Call.withLocal 0 (eachProcess Prod.fst (kkillStep pid signal))
  pure r.2

end Kill

section Exit
variable (e : Env)

/-- One process in the loop of `kexit`. -/
def orphanStep (curr : Ptr) : KernelM Unit := do
  let s ← Call.get
  let me ← deref s.currentProcess
  if (s.mem curr).parent = (s.mem me).pid then do
    Call.modify fun s => s.update curr fun x => { x with parent := 1 }
    if (s.mem curr).state = pZombie then do
      -- The source has the pointer `init` in the place of `is_root`.
      let _ ← dispatchSignal 17 true (some curr)
      pure ()
    else pure ()
  else pure ()

/-- `kexit` up to the call of `schedule`, if there is an init process. -/
def kexitBody (exitCode : Int32) : KernelM Unit := do
  eachProcess id orphanStep
  let s ← Call.get
  let me ← deref s.currentProcess
  if (s.mem me).leader ≠ 0 then terminateSession else pure ()
  Call.modify fun s => s.update me fun x => { x with exitCode := exitCode }
  let s ← Call.get
  signalParent (s.mem me).parent

/-- `kexit`. -/
def kexit (exitCode : Int32) : KernelM Int32 := do
  match ← findInit with
  | none => pure 0
  | some _ => do
    kexitBody exitCode
    schedule e
    pure (-1)

/-- What `kwaitpid` comes to: a result, with the status if one was stored; the call of
`schedule`; or its end, where it returns no value. -/
inductive WaitResult
  | returned (value : Int32) (status : Option Int32)
  | waits
  | noValue
  deriving DecidableEq

/-- The tests of `kwaitpid` for a process. -/
def Process.SelectedBy (x : Process) (pid : Int32) (me : Process) : Prop :=
  x.parent = me.pid ∧
    if pid > 0 then x.pid = pid
    else if pid = 0 then x.pgrp = me.pgrp
    else if pid ≠ -1 then x.pgrp = -pid
    else True

instance (x : Process) (pid : Int32) (me : Process) : Decidable (x.SelectedBy pid me) := by
  unfold Process.SelectedBy
  infer_instance

variable (close : Process → Tables) (pid options : Int32)

/-- One process in the loop of `kwaitpid`. -/
def waitStep (curr : Ptr) : Call Stop (State × Bool) (Option (Int32 × Int32)) := do
  let (s, _) ← Call.get
  let me ← Call.lift (deref s.currentProcess)
  if curr = me then pure none
  else if ¬ (s.mem curr).SelectedBy pid (s.mem me) then pure none
  else if (s.mem curr).state = pStopped then
    if options &&& wUntraced = 0 then pure none
    else pure (some ((s.mem curr).pid, 0x7F))
  else if (s.mem curr).state = pZombie then do
    Call.modify fun (s, fixup) => (s.update me fun x =>
      { x with cutime := x.cutime + (s.mem curr).utime, cstime := x.cstime + (s.mem curr).stime },
      fixup)
    let (s, _) ← Call.get
    Call.lift (freeProcess close (some curr))
    pure (some ((s.mem curr).pid, (s.mem curr).exitCode))
  else do
    Call.modify fun (s, _) => (s, true)
    pure none

/-- The loop of `kwaitpid` and what follows it. -/
def waitScan (fixup : Bool) : KernelM WaitResult := do
  let (r, fixup) ← Call.withLocal fixup (tableLoop Prod.fst (waitStep close pid options))
  match r with
  | some (value, status) => pure (.returned value (some status))
  | none =>
    if fixup then
      if options &&& wNoHang ≠ 0 then pure (.returned 0 none) else pure .waits
    else pure .noValue

/-- `kwaitpid` from the label `retry` up to its result or through the call of `schedule`. -/
def retry (fixup : Bool) : KernelM WaitResult := do
  match ← waitScan close pid options fixup with
  | .waits => do
    let s ← Call.get
    let me ← deref s.currentProcess
    setState me pInterruptible
    schedule e
    pure .waits
  | r => pure r

/-- `kwaitpid` up to its result or through the call of `schedule`. -/
def kwaitpid : KernelM WaitResult := retry e close pid options false

/-- `kwaitpid` from the call of `schedule` on, when the process runs again; `fixup` is set then
and stays so. -/
def kwaitpidResume : KernelM WaitResult := do
  let s ← Call.get
  let me ← deref s.currentProcess
  Call.modify fun s => s.update me fun x => { x with signal := x.signal &&& ~~~(1 <<< sigChld) }
  let s ← Call.get
  if (s.mem me).signal &&& (1 <<< sigChld) = 0 then retry e close pid options true
  else pure (.returned eIntr none)

end Exit
end OxKernel.Kernel
