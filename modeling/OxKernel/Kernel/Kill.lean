import OxKernel.Kernel.Exit

/-!
# Who gets a signal

`kkill` goes through all processes with one chain of tests. A process that fails the test of
its own case comes to the last one, which is about the group.

## Main definitions

* `Process.Named` — the processes a signal is for.
* `Process.Hit` — the processes that get it.
-/
namespace OxKernel.Kernel

open Lib (Call)

namespace Process
variable (me : Process) (pid : Int32) (x : Process)

/-- The permission test of `dispatch_signal`. -/
def Permits : Prop := me.euid = x.euid ∨ me.euid = 0

instance : Decidable (me.Permits x) := inferInstanceAs (Decidable (_ ∨ _))

/-- The processes a signal is for: one process, the group that the caller leads, all processes,
or a group. -/
def Named : Prop :=
  if pid > 0 then x.pid = pid ∧ me.Permits x
  else if pid = 0 then x.pgrp = me.pid
  else if pid = -1 then me.Permits x
  else x.pgrp = -pid ∧ me.Permits x

instance : Decidable (me.Named pid x) := by
  unfold Named
  infer_instance

/-- The processes that the chain of tests of `kkill` comes to `dispatch_signal` with a permission
for. -/
def Hit : Prop :=
  if pid = 0 ∧ x.pgrp = me.pid then True
  else if pid > 0 ∧ x.pid = pid then me.Permits x
  else if pid = -1 then me.Permits x
  else x.pgrp = -pid ∧ me.Permits x

instance : Decidable (me.Hit pid x) := by
  unfold Hit
  infer_instance

/-- The signal is posted if a condition holds. -/
def postIf (c : Prop) [Decidable c] (bit : UInt32) : Process :=
  if c then { x with signal := x.signal ||| bit } else x

theorem postIf_of_pos {c : Prop} [Decidable c] {bit : UInt32} (h : c) :
    x.postIf c bit = { x with signal := x.signal ||| bit } := if_pos h

theorem postIf_of_neg {c : Prop} [Decidable c] {bit : UInt32} (h : ¬ c) : x.postIf c bit = x :=
  if_neg h

theorem postIf_congr {c d : Prop} [Decidable c] [Decidable d] {bit : UInt32} (h : c ↔ d) :
    x.postIf c bit = x.postIf d bit := by
  rw [postIf, postIf]
  exact if_congr h rfl rfl

/-- Only the signals change. -/
theorem postIf_field {α : Type} (g : Process → α) (hg : ∀ y v, g { y with signal := v } = g y)
    {c : Prop} [Decidable c] {bit : UInt32} : g (x.postIf c bit) = g x := by
  rw [postIf]
  split
  · exact hg x _
  · rfl

end Process

section Kill
variable {s : State} {q : Fin nrPriority → List Ptr} {me p : Ptr} {pid signal : Int32}

/-- What `dispatch_signal` does with a valid signal. -/
theorem dispatchSignal_run (hs : ValidSignal signal) (hme : s.currentProcess = some me)
    (isRoot : Bool) (p : Ptr) :
    ∃ error, dispatchSignal signal isRoot (some p) s = some (.ok error,
      s.update p fun x => x.postIf (isRoot = true ∨ (s.mem me).Permits x) (signalBit signal)) := by
  show ∃ error, (if ¬ ValidSignal signal then pure eInval else _ : KernelM Int32) s = _
  rw [if_neg (not_not.mpr hs)]
  by_cases hroot : isRoot = true
  · refine ⟨0, ?_⟩
    rw [if_pos hroot]
    refine (Call.bind_of_ok rfl).trans ?_
    refine congrArg (pure (0 : Int32) : KernelM Int32) (State.update_congr ?_)
    rw [Process.postIf_of_pos _ (.inl hroot)]
  · rw [if_neg hroot]
    by_cases hp : (s.mem me).euid = (s.mem p).euid ∨ (s.mem me).euid = 0
    · refine ⟨0, ?_⟩
      refine (Call.bind_of_ok rfl).trans ?_
      rw [hme]
      refine (Call.bind_of_ok rfl).trans ?_
      rw [if_pos hp]
      refine (Call.bind_of_ok rfl).trans ?_
      refine congrArg (pure (0 : Int32) : KernelM Int32) (State.update_congr ?_)
      rw [Process.postIf_of_pos _ (.inr hp)]
    · refine ⟨ePerm, ?_⟩
      refine (Call.bind_of_ok rfl).trans ?_
      rw [hme]
      refine (Call.bind_of_ok rfl).trans ?_
      rw [if_neg hp]
      refine congrArg (pure ePerm : KernelM Int32) (?_ : s = _)
      rw [State.update, Process.postIf_of_neg _ fun h => h.elim hroot hp, Function.update_eq_self]

/-- What the loop of `kkill` keeps. -/
structure SameTargets (q : Fin nrPriority → List Ptr) (s t : State) : Prop where
  queues : t.Queues q
  current : t.currentProcess = s.currentProcess
  mem : ∀ p, ((t.mem p).pid, (t.mem p).pgrp, (t.mem p).euid) =
    ((s.mem p).pid, (s.mem p).pgrp, (s.mem p).euid)

theorem SameTargets.post {t : State} {c : Process → Prop} [∀ x, Decidable (c x)] {bit : UInt32}
    (h : SameTargets q s t) : SameTargets q s (t.update p fun x => x.postIf (c x) bit) where
  queues := h.queues.update fun x => ⟨x.postIf_field Process.next fun _ _ => rfl,
    x.postIf_field Process.prev fun _ _ => rfl, x.postIf_field Process.priority fun _ _ => rfl⟩
  current := h.current
  mem y := by
    rw [← h.mem y]
    exact State.update_field (fun x => (x.pid, x.pgrp, x.euid)) fun x =>
      x.postIf_field (fun x => (x.pid, x.pgrp, x.euid)) fun _ _ => rfl

/-- Both processes of a test are as they were. -/
theorem SameTargets.hit_iff {t : State} (h : SameTargets q s t) :
    (t.mem me).Hit pid (t.mem p) ↔ (s.mem me).Hit pid (s.mem p) := by
  have hm := h.mem me
  have hp := h.mem p
  simp only [Prod.mk.injEq] at hm hp
  rw [Process.Hit, Process.Hit, Process.Permits, Process.Permits, hm.1, hm.2.2, hp.1, hp.2.1, hp.2.2]

theorem dispatchTo_run {t : State} {rtvl : Int32} (hs : ValidSignal signal)
    (hme : t.currentProcess = some me) {isRoot : Bool}
    (hhit : (t.mem me).Hit pid (t.mem p) ↔ isRoot = true ∨ (t.mem me).Permits (t.mem p)) :
    ∃ rtvl', dispatchTo signal isRoot p (t, rtvl) = some (.ok (),
      (t.update p fun x => x.postIf ((t.mem me).Hit pid x) (signalBit signal), rtvl')) := by
  obtain ⟨error, hrun⟩ := dispatchSignal_run hs hme isRoot p
  have hsame : (t.update p fun x => x.postIf (isRoot = true ∨ (t.mem me).Permits x)
      (signalBit signal)) = t.update p fun x => x.postIf ((t.mem me).Hit pid x) (signalBit signal) :=
    State.update_congr (Process.postIf_congr _ hhit.symm)
  rw [hsame] at hrun
  exact ⟨_, Call.bind_of_ok (Call.lift_of_ok hrun)⟩

/-- **One process in the loop of `kkill`.** -/
theorem kkillStep_run {t : State} {rtvl : Int32} (hs : ValidSignal signal)
    (hme : t.currentProcess = some me) (p : Ptr) :
    ∃ rtvl', kkillStep pid signal p (t, rtvl) = some (.ok (),
      (t.update p fun x => x.postIf ((t.mem me).Hit pid x) (signalBit signal), rtvl')) := by
  have hrest : ∀ mine : Bool, (mine = true ↔ pid = 0 ∧ (t.mem p).pgrp = (t.mem me).pid) →
      ∃ rtvl', (if pid = 0 ∧ mine then dispatchTo signal true p
        else if pid > 0 ∧ (t.mem p).pid = pid then dispatchTo signal false p
        else if pid = -1 then dispatchTo signal false p
        else if (t.mem p).pgrp = -pid then dispatchTo signal false p
        else pure () : Call Stop (State × Int32) Unit) (t, rtvl) = some (.ok (),
        (t.update p fun x => x.postIf ((t.mem me).Hit pid x) (signalBit signal), rtvl')) := by
    intro mine hmine
    by_cases hown : pid = 0 ∧ (t.mem p).pgrp = (t.mem me).pid
    · rw [if_pos ⟨hown.1, hmine.mpr hown⟩]
      refine dispatchTo_run hs hme ?_
      rw [Process.Hit, if_pos hown]
      simp
    · rw [if_neg fun h => hown (hmine.mp h.2)]
      by_cases hpid : pid > 0 ∧ (t.mem p).pid = pid
      · rw [if_pos hpid]
        refine dispatchTo_run hs hme ?_
        rw [Process.Hit, if_neg hown, if_pos hpid]
        simp
      · rw [if_neg hpid]
        by_cases hall : pid = -1
        · rw [if_pos hall]
          refine dispatchTo_run hs hme ?_
          rw [Process.Hit, if_neg hown, if_neg hpid, if_pos hall]
          simp
        · rw [if_neg hall]
          by_cases hgrp : (t.mem p).pgrp = -pid
          · rw [if_pos hgrp]
            refine dispatchTo_run hs hme ?_
            rw [Process.Hit, if_neg hown, if_neg hpid, if_neg hall]
            simp [hgrp]
          · rw [if_neg hgrp]
            refine ⟨rtvl, ?_⟩
            have hmiss : ¬ (t.mem me).Hit pid (t.mem p) := by
              rw [Process.Hit, if_neg hown, if_neg hpid, if_neg hall]
              exact fun h => hgrp h.1
            rw [State.update, Process.postIf_of_neg _ hmiss, Function.update_eq_self]
            rfl
  by_cases hzero : pid = 0
  · obtain ⟨rtvl', hrun⟩ := hrest (decide ((t.mem p).pgrp = (t.mem me).pid)) (by simp [hzero])
    refine ⟨rtvl', ?_⟩
    refine (Call.bind_of_ok rfl).trans ?_
    refine (congrFun (if_pos hzero) (t, rtvl)).trans ?_
    refine (Call.bind_of_ok (Call.lift_of_ok (deref_run hme t))).trans ?_
    exact (Call.bind_of_ok rfl).trans hrun
  · obtain ⟨rtvl', hrun⟩ := hrest false (by simp [hzero])
    refine ⟨rtvl', ?_⟩
    refine (Call.bind_of_ok rfl).trans ?_
    refine (congrFun (if_neg hzero) (t, rtvl)).trans ?_
    exact (Call.bind_of_ok rfl).trans hrun

/-- What `kkill` makes of the processes of a list. -/
def State.hitAll (s : State) (me : Ptr) (pid signal : Int32) (l : List Ptr) : State :=
  s.updateAll l fun p x => x.postIf ((s.mem me).Hit pid (s.mem p)) (signalBit signal)

/-- **`kkill`** returns, and changes exactly the processes that its tests hit. -/
theorem kkill_run (hq : s.Queues q) (hs : ValidSignal signal) (hme : s.currentProcess = some me) :
    ∃ rtvl, kkill pid signal s = some (.ok rtvl, s.hitAll me pid signal (State.procs q)) := by
  -- The local variable after one process.
  let r (p : Ptr) (t : State × Int32) : Int32 :=
    match kkillStep pid signal p t with
    | some (_, (_, rtvl)) => rtvl
    | none => 0
  have hstep : ∀ i, ∀ p ∈ q i, ∀ t : State × Int32, SameTargets q s t.1 →
      kkillStep pid signal p t = some (.ok (), (t.1.update p fun x =>
        x.postIf ((s.mem me).Hit pid (s.mem p)) (signalBit signal), r p t)) ∧
      SameTargets q s (t.1.update p fun x =>
        x.postIf ((s.mem me).Hit pid (s.mem p)) (signalBit signal)) := by
    rintro i p - ⟨t, rtvl⟩ ht
    obtain ⟨rtvl', hrun⟩ := @kkillStep_run _ _ _ _ rtvl hs (ht.current.trans hme) p
    have hr : r p (t, rtvl) = rtvl' := by
      show (match kkillStep pid signal p (t, rtvl) with
        | some (_, (_, rtvl)) => rtvl | none => 0) = _
      rw [hrun]
    have hsame : (t.update p fun x => x.postIf ((t.mem me).Hit pid x) (signalBit signal)) =
        t.update p fun x => x.postIf ((s.mem me).Hit pid (s.mem p)) (signalBit signal) :=
      State.update_congr (Process.postIf_congr _ ht.hit_iff)
    rw [hr, ← hsame]
    exact ⟨hrun, ht.post⟩
  have hloop := eachProcess_eq (P := fun t : State × Int32 => SameTargets q s t.1)
    (f := fun p t => (t.1.update p fun x =>
      x.postIf ((s.mem me).Hit pid (s.mem p)) (signalBit signal), r p t))
    (fun t ht => ht.queues) hstep (s := (s, 0)) ⟨hq, rfl, fun _ => rfl⟩
  have hfst : ∀ (l : List Ptr) (t : State × Int32),
      (l.foldl (fun t p => (t.1.update p fun x =>
        x.postIf ((s.mem me).Hit pid (s.mem p)) (signalBit signal), r p t)) t).1 =
      l.foldl (fun t p => t.update p fun x =>
        x.postIf ((s.mem me).Hit pid (s.mem p)) (signalBit signal)) t.1 := by
    intro l
    induction l with
    | nil => exact fun t => rfl
    | cons a l ih => exact fun t => ih _
  have hstate := hfst (State.procs q) (s, 0)
  rw [State.foldl_update hq.nodup] at hstate
  revert hloop hstate
  generalize (State.procs q).foldl (fun t p => (t.1.update p fun x =>
    x.postIf ((s.mem me).Hit pid (s.mem p)) (signalBit signal), r p t)) (s, (0 : Int32)) = t
  obtain ⟨t, rtvl⟩ := t
  rintro hloop rfl
  exact ⟨rtvl, Call.bind_of_ok (Call.withLocal_of_ok hloop)⟩

/-- What a signal is for. -/
def State.signalled (s : State) (me : Ptr) (pid signal : Int32) (l : List Ptr) : State :=
  s.updateAll l fun p x => x.postIf ((s.mem me).Named pid (s.mem p)) (signalBit signal)

/-- A process that is hit without being meant: the signal is for the group of the caller, and the
process is in the group 0. -/
theorem hit_iff_named {me x : Process} (hpgrp : 0 ≤ x.pgrp) :
    me.Hit pid x ↔ me.Named pid x ∨ (pid = 0 ∧ x.pgrp = 0 ∧ me.Permits x) := by
  have hsign : pid > 0 → x.pgrp ≠ -pid := by
    intro hpos he
    rw [he, Int32.le_iff_toInt_le, Int32.toInt_neg] at hpgrp
    have h0 : (0 : Int32).toInt = 0 := by decide
    have hp : 0 < pid.toInt := by
      have := Int32.lt_iff_toInt_lt.mp hpos
      rwa [h0] at this
    have hlt := pid.toInt_lt
    rw [h0, Int.bmod_eq_of_le (by omega) (by omega)] at hpgrp
    omega
  rw [Process.Hit, Process.Named]
  by_cases hzero : pid = 0
  · subst hzero
    by_cases hown : x.pgrp = me.pid
    · simp [hown]
    · have hneg : ¬ (0 : Int32) > 0 := by decide
      have hne : (0 : Int32) ≠ -1 := by decide
      simp [hown, hneg, hne]
  · by_cases hpos : pid > 0
    · have hne : pid ≠ -1 := by
        rintro rfl
        exact absurd hpos (by decide)
      by_cases hpid : x.pid = pid
      · simp [hzero, hpos, hpid]
      · simp [hzero, hpos, hpid, hne, hsign hpos]
    · simp [hzero, hpos]

/-- Two changes of the same processes. -/
theorem State.updateAll_eq_iff {l : List Ptr} {f g : Ptr → Process → Process} :
    s.updateAll l f = s.updateAll l g ↔ ∀ p ∈ l, f p (s.mem p) = g p (s.mem p) := by
  constructor
  · intro h p hp
    have hf : (s.updateAll l f).mem p = f p (s.mem p) := updateAll_of_mem hp
    have hg : (s.updateAll l g).mem p = g p (s.mem p) := updateAll_of_mem hp
    rw [← hf, ← hg, h]
  · intro h
    show ({ s with mem := _ } : State) = { s with mem := _ }
    congr 1
    funext p
    by_cases hp : p ∈ l
    · rw [if_pos hp, if_pos hp, h p hp]
    · rw [if_neg hp, if_neg hp]

/-- Posting a signal that is posted already. -/
theorem Process.postIf_eq_self {x : Process} {c : Prop} [Decidable c] {bit : UInt32} :
    x.postIf c bit = x ↔ (c → x.signal ||| bit = x.signal) := by
  by_cases h : c
  · rw [postIf_of_pos x h]
    constructor
    · exact fun he _ => congrArg Process.signal he
    · intro he
      rw [he h]
  · rw [postIf_of_neg x h]
    exact ⟨fun _ hc => absurd hc h, fun _ => rfl⟩

/-- **`kkill` signals exactly those it should**, and changes nothing else, if and only if the
signal is not for the group of the caller, or no process of the group 0 that the caller does not
lead and may signal lacks it. -/
theorem kkill_frame (hq : s.Queues q) (hs : ValidSignal signal)
    (hme : s.currentProcess = some me) (hpgrp : ∀ p ∈ State.procs q, 0 ≤ (s.mem p).pgrp) :
    (∃ rtvl, kkill pid signal s =
      some (.ok rtvl, s.signalled me pid signal (State.procs q))) ↔
      pid ≠ 0 ∨ ∀ p ∈ State.procs q, (s.mem p).pgrp = 0 → (s.mem p).pgrp ≠ (s.mem me).pid →
        (s.mem me).Permits (s.mem p) →
        (s.mem p).signal ||| signalBit signal = (s.mem p).signal := by
  obtain ⟨rtvl, hrun⟩ := @kkill_run s q me pid signal hq hs hme
  have hiff : (∃ rtvl, kkill pid signal s =
      some (.ok rtvl, s.signalled me pid signal (State.procs q))) ↔
      s.hitAll me pid signal (State.procs q) = s.signalled me pid signal (State.procs q) := by
    rw [hrun]
    constructor
    · rintro ⟨rtvl', h⟩
      exact (Prod.mk.inj (Option.some.inj h)).2
    · intro h
      exact ⟨rtvl, by rw [h]⟩
  rw [hiff, State.hitAll, State.signalled, State.updateAll_eq_iff]
  constructor
  · intro h
    refine or_iff_not_imp_left.mpr fun hpid p hp hzero hne hpermits => ?_
    have hpid : pid = 0 := not_not.mp hpid
    have hhit : (s.mem me).Hit pid (s.mem p) :=
      (hit_iff_named (hpgrp p hp)).mpr (.inr ⟨hpid, hzero, hpermits⟩)
    have hnamed : ¬ (s.mem me).Named pid (s.mem p) := by
      rw [Process.Named, if_neg (by rw [hpid]; decide), if_pos hpid]
      exact hne
    have hsame := h p hp
    rw [Process.postIf_of_neg _ hnamed] at hsame
    exact Process.postIf_eq_self.mp hsame hhit
  · intro h p hp
    by_cases hnamed : (s.mem me).Named pid (s.mem p)
    · exact Process.postIf_congr _ (iff_of_true ((hit_iff_named (hpgrp p hp)).mpr (.inl hnamed))
        hnamed)
    · rw [Process.postIf_of_neg _ hnamed, Process.postIf_eq_self]
      intro hhit
      obtain ⟨hpid, hzero, hpermits⟩ := ((hit_iff_named (hpgrp p hp)).mp hhit).resolve_left hnamed
      refine h.resolve_left (not_not.mpr hpid) p hp hzero ?_ hpermits
      rw [Process.Named, if_neg (by rw [hpid]; decide), if_pos hpid] at hnamed
      exact hnamed

end Kill

/-! ## Two processes of the group 0 -/

/-- A process with the id 1, which calls `kkill`, and one with the id 2, both in the group 0. -/
def killState : State :=
  State.ofList [firstProcess, secondProcess]
    (fun p => { Process.zero with pid := if p = firstProcess then 1 else 2 }) firstProcess

theorem killState_queues :
    killState.Queues (Function.update (fun _ => []) 0 [firstProcess, secondProcess]) :=
  State.queues_ofList (by decide)

theorem kkill_frame_killState : (∃ rtvl, kkill 2 1 killState =
    some (.ok rtvl, killState.signalled firstProcess 2 1
      (State.procs (Function.update (fun _ => []) 0 [firstProcess, secondProcess])))) ↔
    (2 : Int32) ≠ 0 ∨ ∀ p ∈ State.procs (Function.update (fun _ => []) 0 [firstProcess, secondProcess]),
      (killState.mem p).pgrp = 0 → (killState.mem p).pgrp ≠ (killState.mem firstProcess).pid →
        (killState.mem firstProcess).Permits (killState.mem p) →
        (killState.mem p).signal ||| signalBit 1 = (killState.mem p).signal :=
  kkill_frame killState_queues (by decide) rfl fun p _ => show (0 : Int32) ≤ 0 by decide

/-- `kkill(0, SIGHUP)` of the first process signals the second one, which is not in its group. -/
theorem kkill_signals_group_zero : ∃ rtvl s', kkill 0 1 killState = some (.ok rtvl, s') ∧
    (killState.mem secondProcess).pgrp ≠ (killState.mem firstProcess).pid ∧
    (killState.mem secondProcess).signal = 0 ∧ (s'.mem secondProcess).signal = 2 := by
  have hvalid : ValidSignal 1 := by decide
  have hme : killState.currentProcess = some firstProcess := rfl
  obtain ⟨rtvl, hrun⟩ : ∃ rtvl, kkill 0 1 killState = some (.ok rtvl, killState.hitAll firstProcess
      0 1 (State.procs (Function.update (fun _ => []) 0 [firstProcess, secondProcess]))) :=
    kkill_run killState_queues hvalid hme
  refine ⟨rtvl, _, hrun, show (0 : Int32) ≠ 1 by decide, rfl, ?_⟩
  have hmem : secondProcess ∈
      State.procs (Function.update (fun _ => []) 0 [firstProcess, secondProcess]) := by
    rw [State.procs_ofList]
    exact List.mem_cons_of_mem _ List.mem_cons_self
  have hhit : (killState.mem firstProcess).Hit 0 (killState.mem secondProcess) :=
    (hit_iff_named (show (0 : Int32) ≤ 0 by decide)).mpr (.inr ⟨rfl, rfl, .inl rfl⟩)
  rw [State.hitAll, State.updateAll_of_mem hmem, Process.postIf_of_pos _ hhit]
  show (0 : UInt32) ||| signalBit 1 = 2
  decide

end OxKernel.Kernel
