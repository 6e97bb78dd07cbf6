import OxKernel.Lib.Circle
import Mathlib

/-!
# Interrupts

A model of `arch/interrupt.c`: the dispatch table of the interrupt requests, the table of the
handlers that share one, and the probe for the request of a device.

A panic stops the kernel; it is an error with its text. The masks of the interrupt controller are
left out, but for `irq_mask`.

## Main definitions

* `IrqState` — the tables and the masks.
* `installShared`, `uninstallShared`, `sharedHandler` — handlers that share a request.
* `interruptInstallHandler`, `interruptUninstallHandler` — what the drivers call.
* `irqProbe`, `irqDispatch`, `irqProbeDone` — a probe, and an interrupt.
-/
namespace OxKernel.Platform

open Lib (Loop doWhile next)

/-- `Nr_IRQ`. -/
abbrev nrIrq : ℕ := 16

theorem nrIrq_ne_zero : nrIrq ≠ 0 := Nat.succ_ne_zero 15

instance : NeZero nrIrq := ⟨nrIrq_ne_zero⟩

/-- `Nr_IRQ_SLOT`. -/
def nrIrqSlot : ℕ := 2

/-- `Nr_IRQ_ELEM`. -/
abbrev nrIrqElem : ℕ := 32

/-- `IRQ_INVALID`. -/
def irqInvalid : ℤ := -1

/-- `irq_stat_t`. -/
inductive IrqStat
  | irqDisable
  | irqEnable
  deriving DecidableEq

/-- `irq_type_t`. -/
def irqExcl : UInt32 := 0
def irqShared : UInt32 := 1

/-- `interrupt_handler_t`: the functions that a driver may name, and `shared_handler`. -/
inductive InterruptHandler
  | null
  | interruptDefaultIrq
  | sharedHandler
  | driver (address : UInt32)
  deriving DecidableEq

/-- An entry of `irq_dispatch_tab`. The static `probe_handler` is stored by `irq_probe` only. -/
inductive DispatchEntry
  | probeHandler
  | handler (h : InterruptHandler)
  deriving DecidableEq

/-- `shared_handler_t`, with the address of its `info`. -/
structure SharedHandler where
  irq : ℤ
  handler : InterruptHandler
  info : UInt32
  deriving DecidableEq

/-- The global variables. -/
structure IrqState where
  dispatchTab : Fin nrIrq → DispatchEntry
  infoTab : Fin nrIrq → UInt32
  typeMask : Fin nrIrq → UInt32
  sharedTab : Fin nrIrqElem → SharedHandler
  nrShared : ℤ
  probing : Bool
  probeMask : UInt32
  inUseMask : UInt32
  irqTmp : Fin nrIrq → DispatchEntry
  irqMask : UInt32

/-- The text of a panic. -/
abbrev Panic := String

/-- The variables before any call. -/
def IrqState.zero : IrqState where
  dispatchTab _ := .handler .null
  infoTab _ := 0
  typeMask _ := irqExcl
  sharedTab _ := ⟨0, .null, 0⟩
  nrShared := 0
  probing := false
  probeMask := 0
  inUseMask := 0
  irqTmp _ := .handler .null
  irqMask := 0xFFFF

/-- `interrupt_init`. -/
def interruptInit (s : IrqState) : IrqState :=
  { s with
    dispatchTab := fun _ => .handler .interruptDefaultIrq
    sharedTab := fun k => ⟨irqInvalid, .interruptDefaultIrq, (s.sharedTab k).info⟩ }

/-- `disable_irq`. -/
def disableIrq (irq : Fin nrIrq) (s : IrqState) : IrqState :=
  let mask := s.irqMask ||| 1 <<< UInt32.ofNat irq
  { s with irqMask := if mask &&& 0xFF00 = 0xFF00 then mask ||| 4 else mask }

/-! ## Shared requests -/

/-- The number of slots in front of `end`, which a walk through `IRQ_SHARED_TAB` never uses. -/
abbrev nrCircle : ℕ := 31

/-- A slot in front of `end`. -/
def IrqState.slot (s : IrqState) (i : Fin nrCircle) : SharedHandler := s.sharedTab i.castSucc

/-- Write a slot. -/
def IrqState.setSlot (s : IrqState) (i : Fin nrCircle) (x : SharedHandler) : IrqState :=
  { s with sharedTab := Function.update s.sharedTab i.castSucc x }

/-- The slot that the walk for a request starts at. -/
def firstSlot (irq : Fin nrIrq) : Fin nrCircle :=
  ⟨irq * nrIrqSlot, (Nat.mul_le_mul_right nrIrqSlot (Nat.le_of_lt_succ irq.isLt)).trans_lt (by decide)⟩

/-- The two values of `pass` in `install_shared`. -/
def firstPass : Fin 2 := ⟨0, Nat.two_pos⟩
def secondPass : Fin 2 := Fin.last 1

/-- The search for a free slot in `install_shared`; `pass` counts how often `ptr` has come to `end`,
and the search is given up the second time. -/
def freeSlot (s : IrqState) : Loop (Fin nrCircle × Fin 2) (Option (Fin nrCircle)) ℕ where
  body x :=
    if (s.slot x.1).irq = irqInvalid then .inr (some x.1)
    else if x.1.val + 1 = nrCircle then
      if x.2 = secondPass then .inr none else .inl (next x.1, secondPass)
    else .inl (next x.1, x.2)
  variant x := (2 - x.2.val) * nrCircle - x.1.val
  decreases := by
    intro x x' h
    have hlt : x.1.val < 31 := x.1.isLt
    split at h
    · cases h
    · split at h
      · split at h
        · cases h
        · rename_i hlast hpass
          cases h
          have h1 : x.2.val ≠ 1 := fun h => hpass (Fin.ext h)
          have h0 : x.2.val = 0 := by omega
          have hnext : (next x.1).val = 0 := by rw [Lib.val_next, hlast, Nat.mod_self]
          show (2 - 1) * 31 - (next x.1).val < (2 - x.2.val) * 31 - x.1.val
          omega
      · rename_i hlast
        cases h
        have hnext : (next x.1).val = x.1.val + 1 := by
          rw [Lib.val_next]
          exact Nat.mod_eq_of_lt (by omega)
        show (2 - x.2.val) * 31 - (next x.1).val < (2 - x.2.val) * 31 - x.1.val
        omega

/-- `panic` in `install_shared`. -/
def cannotShare : Panic := "install_shared: can not convert IRQ_EXCL to IRQ_SHARED\n"
def sharedTabFull : Panic := "install_shared: IRQ_SHARED_TAB full.\n"
def noSlot : Panic := "install_shared: failed to find slot\n"

/-- The first test in `install_shared`: a request that is not in use may be shared. -/
def shareIrq (irq : Fin nrIrq) (s : IrqState) : IrqState :=
  if s.typeMask irq = irqExcl ∧ s.dispatchTab irq = .handler .interruptDefaultIrq then
    { s with typeMask := Function.update s.typeMask irq irqShared }
  else s

/-- The rest of `install_shared`, for a request that is shared. -/
def installSlot (irq : Fin nrIrq) (handler : InterruptHandler) (info : UInt32) (s : IrqState) :
    Except Panic IrqState :=
  if s.nrShared = nrIrqElem - 1 then .error sharedTabFull
  else
    match (freeSlot s).run (firstSlot irq, firstPass) with
    | none => .error noSlot
    | some i =>
      let s := { s.setSlot i ⟨irq, handler, info⟩ with nrShared := s.nrShared + 1 }
      .ok { s with
        dispatchTab := Function.update s.dispatchTab irq (.handler .sharedHandler)
        infoTab := Function.update s.infoTab irq 0 }

/-- `install_shared`. -/
def installShared (irq : Fin nrIrq) (handler : InterruptHandler) (info : UInt32) (s : IrqState) :
    Except Panic IrqState :=
  let s := shareIrq irq (disableIrq irq s)
  if s.typeMask irq ≠ irqShared then .error cannotShare else installSlot irq handler info s

/-- A slot becomes free. -/
def IrqState.freeAt (s : IrqState) (i : Fin nrCircle) : IrqState :=
  { s.setSlot i ⟨irqInvalid, .interruptDefaultIrq, 0⟩ with nrShared := s.nrShared - 1 }

/-- One round in `uninstall_shared`. -/
def uninstallSlot (irq : Fin nrIrq) (handler : InterruptHandler) (i : Fin nrCircle) (s : IrqState) :
    IrqState ⊕ IrqState :=
  if (s.slot i).irq = irq ∧ handler = .null then .inl (s.freeAt i)
  else if (s.slot i).irq = irq ∧ (s.slot i).handler = handler then .inr (s.freeAt i)
  else .inl s

/-- `uninstall_shared`. -/
def uninstallShared (irq : Fin nrIrq) (handler : InterruptHandler) (s : IrqState) : IrqState :=
  let s := disableIrq irq s
  if s.nrShared = 0 then s
  else
    let s := (doWhile (firstSlot irq) (uninstallSlot irq handler)).run (firstSlot irq, s)
    if handler = .null then
      { s with
        typeMask := Function.update s.typeMask irq irqExcl
        dispatchTab := Function.update s.dispatchTab irq (.handler .interruptDefaultIrq)
        infoTab := Function.update s.infoTab irq 0 }
    else s

/-- One round in `shared_handler`, with the handlers called so far. -/
def callSlot (enable : InterruptHandler → Fin nrIrq → IrqStat) (irq : Fin nrIrq) (s : IrqState)
    (i : Fin nrCircle) (x : List InterruptHandler × IrqStat) :
    (List InterruptHandler × IrqStat) ⊕ (List InterruptHandler × IrqStat) :=
  if (s.slot i).irq = irq then
    .inl (x.1 ++ [(s.slot i).handler],
      if enable (s.slot i).handler irq = .irqEnable then .irqEnable else x.2)
  else .inl x

/-- `shared_handler`: the handlers it calls, and its result. What a handler returns for a request
is given by `enable`. -/
def sharedHandler (enable : InterruptHandler → Fin nrIrq → IrqStat) (irq : Fin nrIrq)
    (s : IrqState) : Except Panic (List InterruptHandler × IrqStat) :=
  if s.nrShared = 0 then .error "shared_handler: IRQ not shared\n"
  else .ok ((doWhile (firstSlot irq) (callSlot enable irq s)).run (firstSlot irq, [], .irqDisable))

/-! ## What the drivers call -/

/-- The request, if there is one of this number. -/
def irqIndex (irq : Int32) : Option (Fin nrIrq) :=
  if h : 0 ≤ irq.toInt ∧ irq.toInt < nrIrq then some ⟨irq.toInt.toNat, by omega⟩ else none

/-- `interrupt_install_handler`. -/
def interruptInstallHandler (irq : Int32) (type : UInt32) (handler : InterruptHandler)
    (info : UInt32) (s : IrqState) : Except Panic IrqState :=
  if s.probing then .error "interrupt_install_handler: Inconsistent state\n"
  else
    match irqIndex irq with
    | none => .error "interrupt_install_handler: invalid IRQ (%d)\n"
    | some i =>
      if type = irqShared then installShared i handler info s
      else if type = irqExcl then
        if s.typeMask i = irqShared then
          .error "interrupt_install_handler: can not convert IRQ_SHARED to IRQ_EXCL\n"
        else if s.dispatchTab i = .handler handler then .ok s
        else if s.dispatchTab i ≠ .handler .interruptDefaultIrq then
          .error "interrupt_install_handler: invalid handler installed\n"
        else
          let s := disableIrq i s
          .ok { s with
            dispatchTab := Function.update s.dispatchTab i (.handler handler)
            infoTab := Function.update s.infoTab i info }
      else .error "interrupt_install_handler: invalid IRQ type (%d)\n"

/-- `interrupt_uninstall_handler`. -/
def interruptUninstallHandler (irq : Int32) (handler : InterruptHandler) (s : IrqState) :
    Except Panic IrqState :=
  if s.probing then .error "interrupt_uninstall_handler: Inconsistent state\n"
  else
    match irqIndex irq with
    | none => .error "interrupt_uinstall_handler: invalid IRQ (%d)\n"
    | some i =>
      if s.typeMask i = irqShared then .ok (uninstallShared i handler s)
      else if s.typeMask i = irqExcl then
        let s := disableIrq i s
        .ok { s with
          dispatchTab := Function.update s.dispatchTab i (.handler .interruptDefaultIrq)
          infoTab := Function.update s.infoTab i 0 }
      else .ok s

/-! ## Probes -/

/-- One request in `irq_probe`. -/
def probeIrq (s : IrqState) (i : Fin nrIrq) : IrqState :=
  { s with
    irqTmp := Function.update s.irqTmp i (s.dispatchTab i)
    inUseMask :=
      if s.typeMask i = irqExcl ∧ s.dispatchTab i ≠ .handler .interruptDefaultIrq then
        s.inUseMask ||| 1 <<< UInt32.ofNat i
      else s.inUseMask
    dispatchTab := Function.update s.dispatchTab i .probeHandler }

/-- `irq_probe`, with a primer that leaves these variables alone. -/
def irqProbe (s : IrqState) : Except Panic IrqState :=
  if s.probing then .error "irq_probe: inconsistent system state\n"
  else .ok ((List.finRange nrIrq).foldl probeIrq s)

/-- `probe_handler`. -/
def probeHandler (irq : Fin nrIrq) (s : IrqState) : IrqState :=
  { s with probeMask := s.probeMask ||| 1 <<< UInt32.ofNat irq }

/-- An interrupt: the entry of the dispatch table is called. The handlers of drivers leave these
variables alone. -/
def irqDispatch (irq : Fin nrIrq) (s : IrqState) : IrqState :=
  match s.dispatchTab irq with
  | .probeHandler => probeHandler irq s
  | .handler _ => s

/-- One request in the scan of `irq_probe_done`: `_irq` and `ret`. -/
def scanMask (mask : UInt32) (x : ℤ × Bool) (i : Fin nrIrq) : ℤ × Bool :=
  if mask &&& 1 <<< UInt32.ofNat i ≠ 0 then if x.1 ≠ irqInvalid then (x.1, false) else (i, true)
  else x

/-- `irq_probe_done`: its result and `*irq`, for a pointer that is not NULL or is. -/
def irqProbeDone (irq : Bool) (s : IrqState) : (Bool × Option ℤ) × IrqState :=
  if irq = false then ((false, none), s)
  else
    let mask := s.probeMask &&& ~~~s.inUseMask
    let x := (List.finRange nrIrq).foldl (scanMask mask) (irqInvalid, false)
    ((x.2, some (if x.2 then x.1 else irqInvalid)),
      { s with dispatchTab := s.irqTmp, probeMask := 0, inUseMask := 0, probing := false })

end OxKernel.Platform
