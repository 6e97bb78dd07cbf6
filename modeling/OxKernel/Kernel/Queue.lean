import OxKernel.Kernel.Process

/-!
# Process queues

The functions of `process_queue.c`. A queue is a ring of processes; the head is in
`process_tab`, the tail in front of it, and `process_size_tab` holds the length. The checks of
the macros are only made in a build with `__VERBOSE_ERROR_CHECKING__`.

## Main definitions

* `queueReadFront`, `queueInsert`, `queueInsertP`, `queueRemove` — the functions.
-/
namespace OxKernel.Kernel

open Lib (Call Links)

/-! ## Single accesses -/

/-- `p->p_next = q`. -/
def setNext (p : Ptr) (q : Option Ptr) : KernelM Unit := Call.modify fun s => s.setNext p q

/-- `p->p_prev = q`. -/
def setPrev (p : Ptr) (q : Option Ptr) : KernelM Unit := Call.modify fun s => s.setPrev p q

/-- `process_tab[i] = q`. -/
def setTab (i : Fin nrPriority) (q : Option Ptr) : KernelM Unit := Call.modify fun s => s.setTab i q

/-- `process_size_tab[i] = n`. -/
def setSize (i : Fin nrPriority) (n : UInt32) : KernelM Unit := Call.modify fun s => s.setSize i n

/-- `PANIC`. -/
def panic {α : Type} (message : String) : KernelM α := Call.fail (.panic message)

/-- `PANIC` if a condition holds. -/
def panicIf (c : Prop) [Decidable c] (message : String) : KernelM Unit :=
  Call.require (¬ c) (.panic message)

section Checks
variable (verbose : Bool)

/-- The checks of a priority that two macros share. -/
def checkRange (priority : Int32) : KernelM Unit := do
  panicIf (priority > 32) "process priority greator than Nr_PRIORITY"
  panicIf (priority < 0) "process priority less than zero"

/-- `CHECK_PROC_PRIORITY`. -/
def checkProcPriority (procQ : Option Ptr) : KernelM Unit :=
  if verbose then do
    panicIf (procQ = none) "trying to read from empty queue"
    let p ← deref procQ
    let s ← Call.get
    checkRange (s.mem p).priority
  else pure ()

/-- `CHECK_PROC_PTR`. -/
def checkProcPtr (procQ : Option Ptr) : KernelM Unit :=
  if verbose then panicIf (procQ = none) "NULL process pointer" else pure ()

/-- `CHECK_PRIORITY`. -/
def checkPriority (priority : Int32) : KernelM Unit :=
  if verbose then checkRange priority else pure ()

/-- `CHECK_QUEUE_SIZE`. -/
def checkQueueSize (size : UInt32) (i : Fin nrPriority) : KernelM Unit :=
  if verbose then do
    let s ← Call.get
    panicIf (size = 0 ∧ s.processTab i ≠ none) "queue size is zero, with non empty queue"
    panicIf (size ≠ 0 ∧ s.processTab i = none) "queue size not zero, with empty queue"
  else pure ()

/-! ## The functions -/

/-- `process_size_tab[i]++`. -/
def incSize (i : Fin nrPriority) : KernelM Unit := do
  let s ← Call.get
  setSize i (s.processSizeTab i + 1)

/-- `process_size_tab[i]--`. -/
def decSize (i : Fin nrPriority) : KernelM Unit := do
  let s ← Call.get
  setSize i (s.processSizeTab i - 1)

/-- The only process of a queue leaves it. -/
def takeOnly (p : Ptr) (i : Fin nrPriority) : KernelM Unit := do
  setTab i none
  setPrev p none
  setNext p none
  decSize i

/-- A process is linked in between the tail and the head of its queue. -/
def linkLast (p : Ptr) (i : Fin nrPriority) : KernelM Unit := do
  let s ← Call.get
  setNext p (s.processTab i)
  let s ← Call.get
  let head ← deref (s.processTab i)
  setPrev p (s.mem head).prev
  let s ← Call.get
  let head ← deref (s.processTab i)
  let tail ← deref (s.mem head).prev
  setNext tail (some p)
  let s ← Call.get
  let head ← deref (s.processTab i)
  setPrev head (some p)
  incSize i

/-- The message about a process that is linked to itself on a longer queue. -/
def singleNodeMessage : String := "queue size not equal to one, with a single node queue"

/-- `queue_read_front`. -/
def queueReadFront (procQ : Option Ptr) : KernelM (Option Ptr) := do
  checkProcPriority verbose procQ
  let p ← deref procQ
  let s ← Call.get
  let i ← queueOf (s.mem p).priority
  let size := s.processSizeTab i
  if (s.mem p).next = some p ∧ (s.mem p).prev = some p ∧ size = 1 then do
    takeOnly p i
    pure procQ
  else do
    panicIf ((s.mem p).next = some p ∧ (s.mem p).prev = some p ∧ size ≠ 1) singleNodeMessage
    let head ← deref (s.processTab i)
    let tail ← deref (s.mem head).prev
    setNext tail (s.mem head).next
    let s ← Call.get
    let head ← deref (s.processTab i)
    let second ← deref (s.mem head).next
    setPrev second (s.mem head).prev
    let s ← Call.get
    let head ← deref (s.processTab i)
    setTab i (s.mem head).next
    setPrev p none
    setNext p none
    decSize i
    pure procQ

/-- `queue_insert`. -/
def queueInsert (procQ proc : Option Ptr) : KernelM Unit := do
  checkProcPriority verbose procQ
  let q ← deref procQ
  let s ← Call.get
  let priority := (s.mem q).priority
  let p ← deref proc
  Call.modify fun s => s.update p fun x => { x with priority := priority }
  let i ← queueOf priority
  linkLast p i

/-- `queue_insert_p`. -/
def queueInsertP (procQ : Option Ptr) (priority : Int32) : KernelM Unit := do
  checkProcPtr verbose procQ
  checkPriority verbose priority
  let p ← deref procQ
  Call.modify fun s => s.update p fun x => { x with priority := priority }
  let i ← queueOf priority
  let s ← Call.get
  if s.processTab i = none ∧ s.processSizeTab i = 0 then do
    setPrev p (some p)
    setNext p (some p)
    setTab i (some p)
    incSize i
  else do
    panicIf (s.processTab i = none ∧ s.processSizeTab i ≠ 0) "NULL process table entry"
    linkLast p i

/-- `queue_remove`. -/
def queueRemove (procQ : Option Ptr) : KernelM Unit := do
  checkProcPriority verbose procQ
  let p ← deref procQ
  let s ← Call.get
  let i ← queueOf (s.mem p).priority
  let size := s.processSizeTab i
  if size = 0 ∧ s.processTab i = none then pure ()
  else do
    checkQueueSize verbose size i
    if (s.mem p).next = some p ∧ (s.mem p).prev = some p ∧ size = 1 then takeOnly p i
    else do
      panicIf ((s.mem p).next = some p ∧ (s.mem p).prev = some p ∧ size ≠ 1) singleNodeMessage
      let tmp ← deref (s.processTab i)
      if tmp = p then setTab i (s.mem p).next else pure ()
      let s ← Call.get
      -- A provisional value, when the process is the tail.
      if (s.mem tmp).prev = some p then do
        let head ← deref (s.processTab i)
        let before ← deref (s.mem p).prev
        setPrev head (s.mem before).prev
      else pure ()
      let s ← Call.get
      let before ← deref (s.mem p).prev
      setNext before (s.mem p).next
      let s ← Call.get
      let behind ← deref (s.mem p).next
      setPrev behind (s.mem p).prev
      setPrev p none
      setNext p none
      decSize i

end Checks
end OxKernel.Kernel
