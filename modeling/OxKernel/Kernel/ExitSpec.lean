import OxKernel.Kernel.Kill
import OxKernel.Kernel.ScheduleSpec

/-!
# What one call of `kexit` does

The loops of `kkill`, of `terminate_session` and of `signal_parent` change signals only. The
loop of `kexit` over the children of the process changes their parent, too.

## Main definitions

* `State.Resignalled` — two states that differ in signals only.
* `Process.orphaned` — what the loop of `kexit` makes of a process.
* `kexit_cases` — the results of the function.
-/
namespace OxKernel.Kernel

open Lib (Call)

/-! ## Changes of signals -/

/-- The process with other signals. -/
def Process.withSignal (x : Process) (signal : UInt32) : Process := { x with signal := signal }

namespace State
variable {s t u : State} {q : Fin nrPriority → List Ptr} {p x : Ptr} {bit : UInt32}

/-- Two states that differ in the signals of processes only. -/
def Resignalled (s t : State) : Prop :=
  ∃ f : Ptr → UInt32, t = { s with mem := fun p => (s.mem p).withSignal (f p) }

theorem Resignalled.refl (s : State) : s.Resignalled s := ⟨fun p => (s.mem p).signal, rfl⟩

theorem Resignalled.trans (h : s.Resignalled t) (h' : t.Resignalled u) : s.Resignalled u := by
  obtain ⟨f, rfl⟩ := h
  obtain ⟨g, rfl⟩ := h'
  exact ⟨g, rfl⟩

theorem resignalled_update {f : Process → Process} 
    (hf : ∀ y, f y = y.withSignal (f y).signal) : s.Resignalled (s.update p f) := by
  refine ⟨fun x => ((s.update p f).mem x).signal, ?_⟩
  show ({ s with mem := _ } : State) = { s with mem := _ }
  congr 1
  funext x
  show Function.update s.mem p (f (s.mem p)) x = (s.mem x).withSignal ((s.update p f).mem x).signal
  by_cases hx : x = p
  · rw [hx, update_self, Function.update_self]
    exact hf _
  · rw [update_of_ne hx, Function.update_of_ne hx]
    rfl

/-- A field besides the signals. -/
theorem Resignalled.field {α : Type} (h : s.Resignalled t) (g : Process → α)
    (hg : ∀ y v, g (y.withSignal v) = g y) : g (t.mem x) = g (s.mem x) := by
  obtain ⟨f, rfl⟩ := h
  exact hg _ _

theorem Resignalled.queues (h : s.Resignalled t) (hq : s.Queues q) : t.Queues q := by
  obtain ⟨f, rfl⟩ := h
  exact hq.congr rfl fun _ _ _ => ⟨rfl, rfl, rfl⟩

theorem Resignalled.current (h : s.Resignalled t) : t.currentProcess = s.currentProcess := by
  obtain ⟨f, rfl⟩ := h
  rfl

theorem Resignalled.switches (h : s.Resignalled t) : t.switches = s.switches := by
  obtain ⟨f, rfl⟩ := h
  rfl

end State

section Signals
variable {s s' : State} {q : Fin nrPriority → List Ptr} {me p : Ptr} {pid signal rtvl : Int32}
  {isRoot : Bool}

theorem postSignal_run {bit : UInt32} {u : Unit} (h : postSignal p bit s = some (.ok u, s')) :
    s.Resignalled s' := by
  cases h
  exact State.resignalled_update fun _ => rfl

theorem dispatchSignal_resignals (h : dispatchSignal signal isRoot (some p) s = some (.ok rtvl, s')) :
    s.Resignalled s' := by
  have hpost : ∀ bit (v : Int32), (do
      postSignal p bit
      pure v : KernelM Int32) s = some (.ok rtvl, s') → s.Resignalled s' := by
    intro bit v h
    cases h
    exact postSignal_run rfl
  by_cases hv : ValidSignal signal
  · replace h : (if isRoot then do
        postSignal p (signalBit signal)
        pure 0
      else do
        let s ← Call.get
        let me ← deref s.currentProcess
        if (s.mem me).euid = (s.mem p).euid ∨ (s.mem me).euid = 0 then do
          postSignal p (signalBit signal)
          pure 0
        else pure ePerm : KernelM Int32) s = some (.ok rtvl, s') := by
      rw [← h]
      exact (congrFun (if_neg (not_not.mpr hv)) s).symm
    cases isRoot with
    | true => exact hpost _ 0 h
    | false =>
        obtain ⟨t, s₁, hget, h⟩ := Call.bind_eq_ok.mp h
        cases hget
        obtain ⟨me, s₁, hme, h⟩ := Call.bind_eq_ok.mp h
        rw [(deref_eq_ok.mp hme).2] at h
        split at h
        · exact hpost _ 0 h
        · cases h
          exact .refl s
  · have hinval : dispatchSignal signal isRoot (some p) s = some (.ok eInval, s) :=
      congrFun (if_pos hv) s
    rw [hinval] at h
    cases h
    exact .refl s

theorem dispatchTo_resignals {t t' : State × Int32} {u : Unit}
    (h : dispatchTo signal isRoot p t = some (.ok u, t')) : t.1.Resignalled t'.1 := by
  obtain ⟨s, rtvl⟩ := t
  obtain ⟨error, t₁, hlift, hret⟩ := Call.bind_eq_ok.mp h
  cases hret
  exact dispatchSignal_resignals (Call.lift_eq_ok.mp hlift).1

theorem kkillStep_resignals {t t' : State × Int32} {u : Unit}
    (h : kkillStep pid signal p t = some (.ok u, t')) : t.1.Resignalled t'.1 := by
  obtain ⟨t₁, t₂, hget, h⟩ := Call.bind_eq_ok.mp h
  cases hget
  have hrest : ∀ mine : Bool, (if pid = 0 ∧ mine then dispatchTo signal true p
      else if pid > 0 ∧ (t.1.mem p).pid = pid then dispatchTo signal false p
      else if pid = -1 then dispatchTo signal false p
      else if (t.1.mem p).pgrp = -pid then dispatchTo signal false p
      else pure () : Call Stop (State × Int32) Unit) t = some (.ok u, t') →
        t.1.Resignalled t'.1 := by
    intro mine h
    split at h
    · exact dispatchTo_resignals h
    · split at h
      · exact dispatchTo_resignals h
      · split at h
        · exact dispatchTo_resignals h
        · split at h
          · exact dispatchTo_resignals h
          · cases h
            exact .refl t.1
  by_cases hzero : pid = 0
  · have hgo := (congrFun (if_pos hzero) t).symm.trans h
    obtain ⟨me, t₂, hme, h⟩ := Call.bind_eq_ok.mp hgo
    have ht₂ : t₂ = t := by
      obtain ⟨hme, hsnd⟩ := Call.lift_eq_ok.mp hme
      exact Prod.ext (deref_eq_ok.mp hme).2 hsnd
    rw [ht₂] at h
    exact hrest _ h
  · exact hrest false ((congrFun (if_neg hzero) t).symm.trans h)

/-- **`kkill`** changes signals only. -/
theorem kkill_resignals (hq : s.Queues q) (h : kkill pid signal s = some (.ok rtvl, s')) :
    s.Resignalled s' := by
  obtain ⟨⟨u, v⟩, s₁, hloop, hret⟩ := Call.bind_eq_ok.mp h
  cases hret
  exact eachProcess_returns (P := fun t : State × Int32 => s.Resignalled t.1)
    (fun t ht => ht.queues hq) (fun p t t' ht hrun => ht.trans (kkillStep_resignals hrun))
    (.refl s) (Call.withLocal_eq_ok.mp hloop)

/-- `terminate_session` changes signals only. -/
theorem terminateSession_resignals (hq : s.Queues q) {u : Unit}
    (h : terminateSession s = some (.ok u, s')) : s.Resignalled s' := by
  refine eachProcess_returns (P := s.Resignalled) (fun t ht => ht.queues hq)
    (fun p t t' ht hrun => ht.trans ?_) (.refl s) h
  obtain ⟨t₁, t₂, hget, hrun⟩ := Call.bind_eq_ok.mp hrun
  cases hget
  obtain ⟨me, t₂, hme, hrun⟩ := Call.bind_eq_ok.mp hrun
  rw [(deref_eq_ok.mp hme).2] at hrun
  split at hrun
  · exact postSignal_run hrun
  · cases hrun
    exact .refl t

/-- `signal_parent` changes signals only. -/
theorem signalParent_resignals (hq : s.Queues q) {u : Unit}
    (h : signalParent pid s = some (.ok u, s')) : s.Resignalled s' := by
  obtain ⟨r, s₁, hloop, hret⟩ := Call.bind_eq_ok.mp h
  have hs₁ : s.Resignalled s₁ := by
    refine tableLoop_returns (P := s.Resignalled) (fun t ht => ht.queues hq)
      (fun p t r t' ht hrun => ht.trans ?_) (.refl s) hloop
    obtain ⟨t₁, t₂, hget, hrun⟩ := Call.bind_eq_ok.mp hrun
    cases hget
    split at hrun
    · obtain ⟨u, t₂, hpost, hrun⟩ := Call.bind_eq_ok.mp hrun
      cases hrun
      exact postSignal_run hpost
    · cases hrun
      exact .refl t
  cases r with
  | none => cases hret
  | some u =>
      cases hret
      exact hs₁

end Signals

/-! ## The end of a process -/

/-- What the loop of `kexit` makes of a process. -/
def Process.orphaned (pid : Int32) (x : Process) : Process :=
  if x.parent = pid then
    if x.state = pZombie then { x with parent := 1, signal := x.signal ||| signalBit 17 }
    else { x with parent := 1 }
  else x

/-- Only the parent and the signals change. -/
theorem Process.orphaned_field {α : Type} (g : Process → α)
    (hg : ∀ y u v, g { y with parent := u, signal := v } = g y) (pid : Int32) (x : Process) :
    g (x.orphaned pid) = g x := by
  rw [orphaned]
  split
  · split
    · exact hg x _ _
    · exact hg x _ x.signal
  · rfl

section Exit
variable {s s' : State} {q : Fin nrPriority → List Ptr} {me p : Ptr} {pid exitCode v : Int32}
  {e : Env}

theorem orphanStep_run (hme : s.currentProcess = some me) :
    orphanStep p s = some (.ok (), s.update p (Process.orphaned (s.mem me).pid)) := by
  have hderef : deref s.currentProcess s = some (.ok me, s) := deref_run hme s
  refine (Call.bind_of_ok rfl).trans ?_
  refine (Call.bind_of_ok hderef).trans ?_
  by_cases hp : (s.mem p).parent = (s.mem me).pid
  · rw [if_pos hp]
    refine (Call.bind_of_ok rfl).trans ?_
    by_cases hz : (s.mem p).state = pZombie
    · rw [if_pos hz]
      have hpost : (s.update p fun x => { x with parent := 1 }).update p
          (fun x => { x with signal := x.signal ||| signalBit 17 }) =
          s.update p (Process.orphaned (s.mem me).pid) := by
        rw [State.update_update]
        refine State.update_congr ?_
        rw [Process.orphaned, if_pos hp, if_pos hz]
      rw [← hpost]
      rfl
    · rw [if_neg hz]
      refine congrArg (fun t => some (Except.ok (), t)) (State.update_congr ?_)
      rw [Process.orphaned, if_pos hp, if_neg hz]
  · rw [if_neg hp]
    have hsame : s.update p (Process.orphaned (s.mem me).pid) = s := by
      rw [State.update, Process.orphaned, if_neg hp, Function.update_eq_self]
    rw [hsame]
    rfl

theorem orphanLoop_run (hq : s.Queues q) (hme : s.currentProcess = some me) :
    eachProcess id orphanStep s = some (.ok (),
      s.updateAll (State.procs q) fun _ => Process.orphaned (s.mem me).pid) := by
  have hstep : ∀ i, ∀ p ∈ q i, ∀ t : State,
      t.Queues q ∧ t.currentProcess = some me ∧ (t.mem me).pid = (s.mem me).pid →
      orphanStep p t = some (.ok (), t.update p (Process.orphaned (s.mem me).pid)) ∧
        (t.update p (Process.orphaned (s.mem me).pid)).Queues q ∧
        (t.update p (Process.orphaned (s.mem me).pid)).currentProcess = some me ∧
        ((t.update p (Process.orphaned (s.mem me).pid)).mem me).pid = (s.mem me).pid := by
    rintro i p - t ⟨htq, htme, htpid⟩
    rw [orphanStep_run htme, htpid]
    refine ⟨rfl, htq.update fun x => ?_, htme, ?_⟩
    · exact ⟨Process.orphaned_field Process.next (fun _ _ _ => rfl) _ x,
        Process.orphaned_field Process.prev (fun _ _ _ => rfl) _ x,
        Process.orphaned_field Process.priority (fun _ _ _ => rfl) _ x⟩
    · exact (State.update_field Process.pid
        fun y => Process.orphaned_field Process.pid (fun _ _ _ => rfl) _ y).trans htpid
  have hloop : eachProcess id orphanStep s = some (.ok (), (State.procs q).foldl
      (fun t p => t.update p (Process.orphaned (s.mem me).pid)) s) :=
    eachProcess_eq (P := fun t : State =>
      t.Queues q ∧ t.currentProcess = some me ∧ (t.mem me).pid = (s.mem me).pid)
      (f := fun p (t : State) => t.update p (Process.orphaned (s.mem me).pid))
      (fun t ht => ht.1) hstep ⟨hq, hme, rfl⟩
  rw [State.foldl_update hq.nodup] at hloop
  exact hloop

/-- The state after the orphans have another parent. -/
def State.reparented (s : State) (q : Fin nrPriority → List Ptr) (me : Ptr) : State :=
  s.updateAll (State.procs q) fun _ => Process.orphaned (s.mem me).pid

theorem State.Queues.reparented (hq : s.Queues q) : (s.reparented q me).Queues q :=
  hq.updateAll fun _ x => ⟨Process.orphaned_field Process.next (fun _ _ _ => rfl) _ x,
    Process.orphaned_field Process.prev (fun _ _ _ => rfl) _ x,
    Process.orphaned_field Process.priority (fun _ _ _ => rfl) _ x⟩

/-- `current_process->p_exit_code = exit_code`. -/
def State.setExitCode (s : State) (me : Ptr) (exitCode : Int32) : State :=
  s.update me fun x => { x with exitCode := exitCode }

/-- Up to the call of `schedule`. -/
theorem kexitBody_cases (hq : s.Queues q) (hme : s.currentProcess = some me) {u : Unit}
    (h : kexitBody exitCode s = some (.ok u, s')) :
    ∃ t, (s.reparented q me).Resignalled t ∧ (t.setExitCode me exitCode).Resignalled s' := by
  obtain ⟨u, s₁, horphan, h⟩ := Call.bind_eq_ok.mp h
  rw [orphanLoop_run hq hme] at horphan
  cases horphan
  obtain ⟨s₁, s₂, hget, h⟩ := Call.bind_eq_ok.mp h
  cases hget
  obtain ⟨m, s₂, hm, h⟩ := Call.bind_eq_ok.mp h
  obtain ⟨hm, hs₂⟩ := deref_eq_ok.mp hm
  obtain rfl : me = m := Option.some.inj (hme.symm.trans hm)
  rw [hs₂] at h
  have hrest : ∀ t, (s.reparented q me).Resignalled t → (do
      Call.modify fun s => s.update me fun x => { x with exitCode := exitCode }
      let s ← Call.get
      signalParent (s.mem me).parent : KernelM Unit) t = some (.ok u, s') →
        ∃ t, (s.reparented q me).Resignalled t ∧ (t.setExitCode me exitCode).Resignalled s' := by
    intro t ht hrun
    have hqueues : (t.setExitCode me exitCode).Queues q :=
      (ht.queues hq.reparented).update fun _ => ⟨rfl, rfl, rfl⟩
    exact ⟨t, ht, signalParent_resignals hqueues hrun⟩
  split at h
  · obtain ⟨u, t, hsession, h⟩ := Call.bind_eq_ok.mp h
    exact hrest t (terminateSession_resignals hq.reparented hsession) h
  · exact hrest _ (.refl _) h

/-- `find_process`. -/
theorem findProcess_cases (hq : s.Queues q) {o : Option Ptr}
    (h : findProcess pid s = some (.ok o, s')) :
    s' = s ∧ (o = none ↔ ∀ p ∈ State.procs q, (s.mem p).pid ≠ pid) := by
  let body (p : Ptr) : KernelM (Option Ptr) := do
    let s ← Call.get
    pure (if (s.mem p).pid = pid then some p else none)
  have hbody : ∀ p t, body p t =
      some (.ok (if (t.mem p).pid = pid then some p else none), t) := fun p t => rfl
  have hloop : findProcess pid s = Lib.firstOf body (State.procs q) s := by
    refine tableLoop_eq (P := fun t => t = s) (fun t ht => ht ▸ hq) (fun i p _ t t' ht hrun => ?_) rfl
    rw [← ht]
    exact (Prod.mk.inj (Option.some.inj hrun)).2.symm
  rw [hloop] at h
  have hquiet : ∀ p ∈ State.procs q, (s.mem p).pid ≠ pid → ∀ t, t = s →
      body p t = some (.ok none, t) ∧ t = s := fun p _ hp t ht =>
    ⟨by rw [hbody, ht, if_neg hp], ht⟩
  rcases Lib.firstOf_split (P := fun t => t = s) (c := fun p => (s.mem p).pid ≠ pid)
      (f := fun _ t => t) hquiet (s := s) rfl with
    ⟨hall, hrun⟩ | ⟨l₁, p, l₂, t, hl, -, hp, rfl, hret⟩
  · have hsame : ∀ l : List Ptr, l.foldl (fun (t : State) _ => t) s = s := fun l => by
      induction l with
      | nil => rfl
      | cons a l ih => exact ih
    rw [hrun, hsame] at h
    cases h
    exact ⟨rfl, iff_of_true rfl hall⟩
  · have hpid : (t.mem p).pid = pid := not_not.mp hp
    rw [hret p t (by rw [hbody, if_pos hpid])] at h
    cases h
    have hmem : p ∈ State.procs q := by
      rw [hl]
      simp
    exact ⟨rfl, iff_of_false (by simp) fun hall => hall p hmem hpid⟩

/-- **`kexit`** without an init process, or up to the call of `schedule` and through it. -/
theorem kexit_cases (hq : s.Queues q) (hme : s.currentProcess = some me)
    (h : kexit e exitCode s = some (.ok v, s')) :
    ((∀ p ∈ State.procs q, (s.mem p).pid ≠ 1) ∧ v = 0 ∧ s' = s) ∨
    ((∃ p ∈ State.procs q, (s.mem p).pid = 1) ∧ v = -1 ∧
      ∃ t u, (s.reparented q me).Resignalled t ∧ (t.setExitCode me exitCode).Resignalled u ∧
        schedule e u = some (.ok (), s')) := by
  obtain ⟨o, s₁, hinit, h⟩ := Call.bind_eq_ok.mp h
  obtain ⟨rfl, ho⟩ := findProcess_cases hq hinit
  cases o with
  | none =>
      cases h
      exact .inl ⟨ho.mp rfl, rfl, rfl⟩
  | some p =>
      obtain ⟨u, s₂, hbody, h⟩ := Call.bind_eq_ok.mp h
      obtain ⟨u, s₃, hsched, h⟩ := Call.bind_eq_ok.mp h
      cases h
      obtain ⟨t, ht, ht'⟩ := kexitBody_cases hq hme hbody
      refine .inr ⟨?_, rfl, t, s₂, ht, ht', hsched⟩
      by_contra hne
      push Not at hne
      exact absurd (ho.mpr hne) (by simp)

end Exit
end OxKernel.Kernel
