import OxKernel.Kernel.Exit
import Mathlib

/-!
# New processes

The functions of `fork.c` that make a process. Both link it in behind the head of its queue.

## Main definitions

* `createInitTask` — the first process.
* `kfork` — a copy of the current process.
* `schedulerInit` — `scheduler_init`.
-/
namespace OxKernel.Kernel

open Lib (Call)
open Fs (maxFiles)

/-- The first entry of `GDT_MAP` from `i` on that is not in use. -/
def freeGdt (map : Fin nrGdt → UInt8) : ℕ → ℕ → Option (Fin nrGdt)
  | 0, _ => none
  | n + 1, i =>
    if h : i < nrGdt then
      if map ⟨i, h⟩ = 0 then some ⟨i, h⟩ else freeGdt map n (i + 1)
    else none

/-- `alloc_gdt`. -/
def allocGdt : KernelM (Fin nrGdt) := do
  let s ← Call.get
  match freeGdt s.gdtMap nrGdt 0 with
  | some i => do
    Call.modify fun s => { s with gdtMap := Function.update s.gdtMap i 1 }
    pure i
  | none => panic "alloc_gdt:: no free gdt descriptors\n"

/-- `kgenpid`. -/
def kgenpid : KernelM Int32 := do
  let s ← Call.get
  Call.modify fun s => { s with nextPid := s.nextPid + 1 }
  pure (s.nextPid % 1073741824)

/-- `memset(proc, 0x0, msize)`. -/
def clearProcess (p : Ptr) : KernelM Unit := Call.modify fun s => s.update p fun _ => Process.zero

/-- The insertion into the queue in `kfork` and `create_init_task`. -/
def linkSecond (p : Ptr) : KernelM Unit := do
  let s ← Call.get
  let i ← queueOf (s.mem p).priority
  match s.processTab i with
  | some head => do
    setNext p (s.mem head).next
    setPrev p (some head)
    let s ← Call.get
    let second ← deref (s.mem p).next
    setPrev second (some p)
    setNext head (some p)
  | none => do
    -- Insert as the head.
    setNext p (some p)
    setPrev p (some p)
    setTab i (some p)

/-- `create_init_task`; `init` is the address of the function it starts. -/
def createInitTask (proc : Ptr) (init : UInt32) : KernelM Unit := do
  clearProcess proc
  let i ← allocGdt
  Call.modify fun s => s.update proc fun x =>
    { x with
      tssSeg := UInt16.ofNat (i * 8)
      state := pUninteruptible
      pid := 1
      parent := 1
      counter := 1048576
      priority := 0
      eip := init }
  linkSecond proc

/-- `scheduler_init`. -/
def schedulerInit (proc : Ptr) (init : UInt32) : KernelM Unit := do
  createInitTask proc init
  Call.modify fun s => { s with currentProcess := s.processTab 0 }

/-- The inner loop of `kfork` over the descriptors, for each `file_desc[i]`. -/
def forkedDesc (parent proc : Ptr) (fileDesc : Fin maxFiles → InodePtr) : InodePtr :=
  (List.finRange maxFiles).foldl
    (fun d j => if fileDesc j = .fileTab parent j then .fileDesc proc j else d) .null

/-- `kfork`, with the memory from `kmalloc` for the process and from `malloc` for its image,
and the instruction pointer of the system call. -/
def kfork (proc : Ptr) (exec eip : UInt32) : KernelM Int32 := do
  let s ← Call.get
  let parent ← deref s.currentProcess
  clearProcess proc
  let i ← allocGdt
  let pid ← kgenpid
  let s ← Call.get
  let x := s.mem parent
  Call.modify fun s => s.update proc fun y =>
    { y with
      tssSeg := UInt16.ofNat (i * 8)
      state := pUninteruptible
      pid := pid
      parent := x.pid
      counter := 1048576
      priority := 0
      -- `p_exec` is still NULL here.
      eip := y.exec + (eip - x.exec)
      exec := exec
      execSize := x.execSize
      elfEntry := x.elfEntry
      argc := x.argc
      envp := x.envp
      deleteArgv := y.deleteArgv
      firstExec := 0
      cwd := x.cwd
      umask := x.umask
      owner := x.owner
      group := x.group
      dirTab := x.dirTab
      fileTab := x.fileTab
      fileDesc := fun _ => forkedDesc parent proc x.fileDesc
      uid := x.uid
      euid := x.euid
      suid := x.suid
      gid := x.gid
      egid := x.egid
      sgid := x.sgid }
  linkSecond proc
  let s ← Call.get
  pure (s.mem proc).pid

end OxKernel.Kernel
