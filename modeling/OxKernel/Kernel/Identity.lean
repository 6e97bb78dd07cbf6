import OxKernel.Kernel.Fork
import OxKernel.Lib.Keeps

/-!
# What makes a process known

The numbers of the processes, their entries of the GDT and the two generators, which no call
but `kfork` changes.

## Main definitions

* `State.SameIds` — two states agree on all of them.

## Main results

* `kexit_keeps`, `freeProcess_keeps`, `linkSecond_keeps` — the calls.
-/
namespace OxKernel.Kernel

open Lib (Call)
open Lib.Call (Keeps)

/-- The numbers, the entries of the GDT and the generators are the same. -/
structure State.SameIds (s t : State) : Prop where
  pid : ∀ p, (t.mem p).pid = (s.mem p).pid
  tssSeg : ∀ p, (t.mem p).tssSeg = (s.mem p).tssSeg
  nextPid : t.nextPid = s.nextPid
  gdtMap : t.gdtMap = s.gdtMap

section Frame
variable {s₀ : State} {p : Ptr}

theorem State.SameIds.refl (s : State) : s.SameIds s := ⟨fun _ => rfl, fun _ => rfl, rfl, rfl⟩

/-- A change of a process that leaves its number and its entry alone. -/
theorem State.SameIds.update {s t : State} {f : Process → Process} (h : s.SameIds t)
    (hpid : ∀ x, (f x).pid = x.pid) (htss : ∀ x, (f x).tssSeg = x.tssSeg) :
    s.SameIds (t.update p f) where
  pid x := (State.update_field Process.pid hpid).trans (h.pid x)
  tssSeg x := (State.update_field Process.tssSeg htss).trans (h.tssSeg x)
  nextPid := h.nextPid
  gdtMap := h.gdtMap

theorem keeps_update {f : Process → Process} (hpid : ∀ x, (f x).pid = x.pid)
    (htss : ∀ x, (f x).tssSeg = x.tssSeg) :
    Keeps s₀.SameIds (Call.modify fun s => s.update p f : KernelM Unit) :=
  .modify fun _ h => h.update hpid htss

theorem keeps_deref {o : Option Ptr} : Keeps s₀.SameIds (deref o) := by
  cases o with
  | none => exact .fail _
  | some p => exact .pure p

theorem keeps_panic {α : Type} {message : String} : Keeps s₀.SameIds (panic message : KernelM α) :=
  .fail _

theorem keeps_panicIf {c : Prop} [Decidable c] {message : String} :
    Keeps s₀.SameIds (panicIf c message) := Keeps.ite (.pure ()) (.fail _)

theorem keeps_queueOf {priority : Int32} : Keeps s₀.SameIds (queueOf priority) := by
  rw [queueOf]
  split
  · exact .pure _
  · exact .fail _

theorem keeps_tableLoop {σ ρ : Type} {P : σ → Prop} {view : σ → State}
    {body : Ptr → Call Stop σ (Option ρ)} (h : ∀ p, Keeps P (body p)) :
    Keeps P (tableLoop view body) :=
  .firstOf fun _ => .get_bind fun _ => .ringLoop h

theorem keeps_eachProcess {σ : Type} {P : σ → Prop} {view : σ → State}
    {body : Ptr → Call Stop σ Unit} (h : ∀ p, Keeps P (body p)) :
    Keeps P (eachProcess view body) :=
  (keeps_tableLoop fun p => (h p).bind fun _ => .pure none).bind fun _ => .pure ()

theorem keeps_setNext {q : Option Ptr} : Keeps s₀.SameIds (setNext p q) :=
  keeps_update (fun _ => rfl) fun _ => rfl

theorem keeps_setPrev {q : Option Ptr} : Keeps s₀.SameIds (setPrev p q) :=
  keeps_update (fun _ => rfl) fun _ => rfl

theorem keeps_setTab {i : Fin nrPriority} {q : Option Ptr} : Keeps s₀.SameIds (setTab i q) :=
  .modify fun _ h => ⟨h.pid, h.tssSeg, h.nextPid, h.gdtMap⟩

theorem keeps_postSignal {bit : UInt32} : Keeps s₀.SameIds (postSignal p bit) :=
  keeps_update (fun _ => rfl) fun _ => rfl

/-! ## The calls -/

/-- The insertion into a queue. -/
theorem linkSecond_keeps : Keeps s₀.SameIds (linkSecond p) := by
  refine .get_bind fun s => keeps_queueOf.bind fun i => ?_
  cases s.processTab i with
  | none => exact keeps_setNext.bind fun _ => keeps_setPrev.bind fun _ => keeps_setTab
  | some head =>
      exact keeps_setNext.bind fun _ => keeps_setPrev.bind fun _ => .get_bind fun s =>
        keeps_deref.bind fun second => keeps_setPrev.bind fun _ => keeps_setNext

/-- A change for a pointer that is not NULL, and the rest of a function. -/
theorem keeps_ifSome {o : Option Ptr} {f : Ptr → KernelM Unit} {rest : Unit → KernelM Unit}
    (hf : ∀ p, Keeps s₀.SameIds (f p)) (hrest : Keeps s₀.SameIds (rest ())) :
    Keeps s₀.SameIds (match o with
      | some p => f p >>= rest
      | none => rest ()) := by
  cases o with
  | none => exact hrest
  | some p => exact (hf p).bind fun _ => hrest

theorem unlinkProcess_keeps : Keeps s₀.SameIds (unlinkProcess p) := by
  have hlinks : Keeps s₀.SameIds (do
      let s ← Call.get
      match (s.mem p).next with
      | some behind => setPrev behind (s.mem p).prev
      | none => pure ()
      let s ← Call.get
      match (s.mem p).prev with
      | some before => setNext before (s.mem p).next
      | none => pure ()
      let s ← Call.get
      panicIf (((s.mem p).tssSeg / 8).toNat > nrGdt) "free_process:: invalid tss\n") :=
    .get_bind fun s => keeps_ifSome (fun _ => keeps_setPrev) <| .get_bind fun s =>
      keeps_ifSome (fun _ => keeps_setNext) <| .get_bind fun s => keeps_panicIf
  refine .get_bind fun s => keeps_panicIf.bind fun _ => keeps_queueOf.bind fun i => ?_
  dsimp only
  split
  · exact keeps_setTab.bind fun _ => hlinks
  · exact hlinks

theorem keeps_setCurrent {f : State → Option Ptr} :
    Keeps s₀.SameIds (Call.modify fun s => { s with currentProcess := f s } : KernelM Unit) :=
  .modify fun _ h => ⟨h.pid, h.tssSeg, h.nextPid, h.gdtMap⟩

/-- **`free_process`**. -/
theorem freeProcess_keeps {close : Process → Tables} {o : Option Ptr} :
    Keeps s₀.SameIds (freeProcess close o) := by
  cases o with
  | none => exact .pure ()
  | some p =>
      refine .get_bind fun s => ?_
      dsimp only
      refine keeps_setCurrent.bind fun _ => ?_
      refine Keeps.bind ?_ fun _ => keeps_setCurrent.bind fun _ => unlinkProcess_keeps
      exact keeps_update (fun _ => rfl) fun _ => rfl

theorem findInit_keeps : Keeps s₀.SameIds findInit :=
  keeps_tableLoop fun _ => .get_bind fun _ => .pure _

theorem alarmed_pid (x : Process) (now : Int32) : (x.alarmed now).pid = x.pid := by
  rw [Process.alarmed, Process.wake, Process.postAlarm]
  split <;> split <;> rfl

theorem alarmed_tssSeg (x : Process) (now : Int32) : (x.alarmed now).tssSeg = x.tssSeg := by
  rw [Process.alarmed, Process.wake, Process.postAlarm]
  split <;> split <;> rfl

theorem choose_keeps {me : Ptr} : Keeps s₀.SameIds (choose me) := by
  refine Keeps.bind (.withLocal (keeps_eachProcess fun p => .modify fun s h => ?_)) fun _ => .pure _
  dsimp only
  split <;> exact h

theorem switchTo_keeps {e : Env} {me proc : Ptr} {before : Process} :
    Keeps s₀.SameIds (switchTo e me proc before) := by
  have hprevious : Keeps s₀.SameIds (Call.modify fun s =>
      { s with previousProcess := some me, currentProcess := some proc } : KernelM Unit) :=
    .modify fun _ h => ⟨h.pid, h.tssSeg, h.nextPid, h.gdtMap⟩
  have hlast : ∀ mode, Keeps s₀.SameIds (Call.modify fun s =>
      { s with firstTime := 0, switches := ⟨proc, before, s.mem proc, mode⟩ :: s.switches } :
        KernelM Unit) := fun _ => .modify fun _ h => ⟨h.pid, h.tssSeg, h.nextPid, h.gdtMap⟩
  refine hprevious.bind fun _ => .get_bind fun s => ?_
  dsimp only
  split
  · refine Keeps.bind ?_ fun _ => Keeps.bind ?_ fun _ => .get_bind fun s => ?_
    · exact keeps_update (fun _ => rfl) fun _ => rfl
    · exact keeps_update (fun _ => rfl) fun _ => rfl
    · exact keeps_panic.ite (hlast _)
  · refine Keeps.bind ?_ fun _ => .get_bind fun s => ?_
    · exact keeps_update (fun _ => rfl) fun _ => rfl
    · exact keeps_panic.ite (hlast _)

theorem schedule_keeps {e : Env} : Keeps s₀.SameIds (schedule e) := by
  refine .get_bind fun s => ?_
  cases s.currentProcess with
  | none => exact keeps_panic
  | some me =>
      have hdown : ∀ p, Keeps s₀.SameIds
          (Call.modify fun s => s.update p Process.countDown : KernelM Unit) :=
        fun p => keeps_update (fun _ => rfl) fun _ => rfl
      refine (keeps_eachProcess fun p => keeps_update (fun x => alarmed_pid x _)
        fun x => alarmed_tssSeg x _).bind fun _ => ?_
      refine (keeps_eachProcess hdown).bind fun _ => choose_keeps.bind fun proc => ?_
      exact (hdown me).bind fun _ => .get_bind fun s => switchTo_keeps.ite (.pure ())

theorem dispatchSignal_keeps {signal : Int32} {isRoot : Bool} {o : Option Ptr} :
    Keeps s₀.SameIds (dispatchSignal signal isRoot o) := by
  have hpost : ∀ p, Keeps s₀.SameIds
      (do postSignal p (signalBit signal); pure 0 : KernelM Int32) :=
    fun p => keeps_postSignal.bind fun _ => .pure 0
  cases o with
  | none => exact .pure _
  | some p =>
      exact (Keeps.pure _).ite ((hpost p).ite
        (.get_bind fun _ => keeps_deref.bind fun _ => (hpost p).ite (.pure _)))

theorem orphanStep_keeps : Keeps s₀.SameIds (orphanStep p) := by
  refine .get_bind fun _ => keeps_deref.bind fun _ => Keeps.ite ?_ (.pure ())
  refine Keeps.bind ?_ fun _ => (dispatchSignal_keeps.bind fun _ => .pure ()).ite (.pure ())
  exact keeps_update (fun _ => rfl) fun _ => rfl

theorem terminateSession_keeps : Keeps s₀.SameIds terminateSession :=
  keeps_eachProcess fun _ => .get_bind fun _ => keeps_deref.bind fun _ =>
    keeps_postSignal.ite (.pure ())

theorem signalParent_keeps {pid : Int32} : Keeps s₀.SameIds (signalParent pid) := by
  refine (keeps_tableLoop fun p => .get_bind fun _ =>
    (keeps_postSignal.bind fun _ => .pure _).ite (.pure none)).bind fun r => ?_
  cases r with
  | none => exact keeps_panic
  | some u => exact .pure ()

theorem kexitBody_keeps {exitCode : Int32} : Keeps s₀.SameIds (kexitBody exitCode) := by
  have hrest : ∀ me, Keeps s₀.SameIds (do
      Call.modify fun s => s.update me fun x => { x with exitCode := exitCode }
      let s ← Call.get
      signalParent (s.mem me).parent) := by
    intro me
    refine Keeps.bind ?_ fun _ => .get_bind fun _ => signalParent_keeps
    exact keeps_update (fun _ => rfl) fun _ => rfl
  refine (keeps_eachProcess fun _ => orphanStep_keeps).bind fun _ => .get_bind fun _ =>
    keeps_deref.bind fun me => ?_
  dsimp only
  split
  · exact terminateSession_keeps.bind fun _ => hrest me
  · exact hrest me

/-- **`kexit`**. -/
theorem kexit_keeps {e : Env} {exitCode : Int32} : Keeps s₀.SameIds (kexit e exitCode) := by
  refine findInit_keeps.bind fun o => ?_
  cases o with
  | none => exact .pure 0
  | some init => exact kexitBody_keeps.bind fun _ => schedule_keeps.bind fun _ => .pure _

end Frame
end OxKernel.Kernel
