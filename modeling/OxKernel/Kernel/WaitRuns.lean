import OxKernel.Kernel.Eligible

/-!
# Exit and wait

The protocol of `kexit` and `kwaitpid`. `kexit` stores the code and leaves the state as it is, so
that `kwaitpid` takes the process for one to wait for.

## Main definitions

* `Family` — a state together with the processes that have exited and those that were reported.
* `FamilyCall` — the calls of the protocol and of the scheduler.
* `WaitAgrees` — what `kwaitpid` does in answer to the exits.
* `FirstZombie` — the condition under which it does.
-/
namespace OxKernel.Kernel

open Lib (Call)

/-- `ECHILD`. -/
def eChild : Int32 := 10

/-! ## No new zombies -/

section Calm
variable {s s' s'' : State} {q : Fin nrPriority → List Ptr} {me p x : Ptr} {e : Env}
  {close : Process → Tables} {pid options exitCode : Int32} {fixup : Bool} {r : WaitResult}

theorem State.Queues.queued_congr (h : s.Queues q) (h' : s'.Queues q) (p : Ptr) :
    s'.Queued p ↔ s.Queued p :=
  h'.queued_iff.trans h.queued_iff.symm

/-- The queues stay rings, no process is new in the table, and no process is a new zombie. -/
structure State.Calm (s s' : State) : Prop where
  queues : (∃ q, s.Queues q) → ∃ q, s'.Queues q
  queued : (∃ q, s.Queues q) → ∀ p, s'.Queued p → s.Queued p
  zombie : (∃ q, s.Queues q) → ∀ p, (s'.mem p).state = pZombie →
    (s.mem p).state = pZombie ∧ (s'.mem p).exitCode = (s.mem p).exitCode

theorem State.Calm.refl (s : State) : s.Calm s := ⟨id, fun _ _ h => h, fun _ _ h => ⟨h, rfl⟩⟩

theorem State.Calm.trans (h : s.Calm s') (h' : s'.Calm s'') : s.Calm s'' where
  queues hq := h'.queues (h.queues hq)
  queued hq p hp := h.queued hq p (h'.queued (h.queues hq) p hp)
  zombie hq p hp := by
    obtain ⟨hz', hc'⟩ := h'.zombie (h.queues hq) p hp
    obtain ⟨hz, hc⟩ := h.zombie hq p hz'
    exact ⟨hz, hc'.trans hc⟩

/-- A change that keeps the rings. -/
theorem State.Calm.of_queues (hqueues : ∀ q, s.Queues q → s'.Queues q)
    (hzombie : ∀ q, s.Queues q → ∀ p, (s'.mem p).state = pZombie →
      (s.mem p).state = pZombie ∧ (s'.mem p).exitCode = (s.mem p).exitCode) : s.Calm s' where
  queues := fun ⟨q, hq⟩ => ⟨q, hqueues q hq⟩
  queued := fun ⟨q, hq⟩ p hp => (hq.queued_congr (hqueues q hq) p).mp hp
  zombie := fun ⟨q, hq⟩ => hzombie q hq

theorem State.Resignalled.calm (h : s.Resignalled s') : s.Calm s' := by
  refine .of_queues (fun q hq => h.queues hq) fun q _ p hp => ?_
  have hstate := h.field (x := p) Process.state fun _ _ => rfl
  have hcode := h.field (x := p) Process.exitCode fun _ _ => rfl
  exact ⟨hstate.symm.trans hp, hcode⟩

/-- A process in the first loop of `schedule` becomes no zombie. -/
theorem Process.alarmed_zombie {x : Process} {now : Int32} (h : (x.alarmed now).state = pZombie) :
    x.state = pZombie := by
  have hpost : (x.postAlarm now).state = x.state := by
    rw [postAlarm]
    split
    · rfl
    · rfl
  rw [alarmed, wake] at h
  split at h
  · exact absurd h (show pRunning ≠ pZombie by decide)
  · rwa [hpost] at h

theorem schedule_calm (h : schedule e s = some (.ok (), s')) : s.Calm s' := by
  refine .of_queues (fun q hq => schedule_queues hq h) fun q hq p hp => ?_
  have hstate := schedule_field Process.state hq (fun _ _ => rfl) (fun _ _ _ => rfl) h p
  have hcode := schedule_field Process.exitCode hq (fun _ _ => rfl) (fun _ _ _ => rfl) h p
  rw [hp] at hstate
  rw [hcode]
  by_cases hmem : p ∈ State.procs q
  · rw [if_pos hmem] at hstate ⊢
    exact ⟨Process.alarmed_zombie hstate.symm,
      Process.alarmed_field Process.exitCode _ _ (fun _ _ _ => rfl) fun _ _ => rfl⟩
  · rw [if_neg hmem] at hstate ⊢
    exact ⟨hstate.symm, rfl⟩

theorem paused_calm : s.Calm (s.paused me) := by
  refine .of_queues (fun q hq => hq.update fun _ => ⟨rfl, rfl, rfl⟩) fun q _ p hp => ?_
  rw [State.paused, State.update_mem] at hp ⊢
  split at hp
  · exact absurd hp (show pInterruptible ≠ pZombie by decide)
  · next hne =>
    rw [if_neg hne]
    exact ⟨hp, rfl⟩

theorem childCleared_calm : s.Calm (s.childCleared me) :=
  (State.resignalled_update fun _ => rfl : s.Resignalled (s.childCleared me)).calm

theorem State.Calm.of_exists (h : (∃ q, s.Queues q) → s.Calm s') : s.Calm s' :=
  ⟨fun hq => (h hq).queues hq, fun hq => (h hq).queued hq, fun hq => (h hq).zombie hq⟩

/-- Who is in the table after a zombie is freed: it stays if it was alone on its queue. -/
theorem State.Queues.queued_reaped {i : Fin nrPriority} {before behind : Ptr} (h : s.Queues q)
    (hme : p ≠ me) (hp : p ∈ q i) (hprev : (s.mem p).prev = some before)
    (hnext : (s.mem p).next = some behind) :
    (∃ q', (s.reaped me p close before behind i).Queues q') ∧
      ∀ x, (s.reaped me p close before behind i).Queued x ↔
        s.Queued x ∧ ((s.mem p).next = some p ∨ x ≠ p) := by
  by_cases hself : behind = p
  · have hring := h.ring i
    rw [hself] at hnext
    rw [(h.ring i).eq_singleton hp hnext] at hring
    have hbefore : before = p :=
      Option.some.inj (hprev.symm.trans (Lib.Links.isRing_singleton.mp hring).2)
    rw [hself, hbefore]
    have hnew : (s.reaped me p close p p i).Queues q := h.reaped_of_alone hp hnext
    exact ⟨⟨q, hnew⟩, fun x => by simp [h.queued_congr hnew x, hnext]⟩
  · have hnew : (s.reaped me p close before behind i).Queues (Function.update q i ((q i).erase p)) :=
      h.reaped hme hp hprev hnext hself
    refine ⟨⟨_, hnew⟩, fun x => ?_⟩
    have hne : ¬ (s.mem p).next = some p := by
      rw [hnext]
      simpa using hself
    rw [hnew.queued_iff, h.mem_erase hp, h.queued_iff, or_iff_right hne]

theorem waitScan_calm (hme : s.currentProcess = some me)
    (h : waitScan close pid options fixup s = some (.ok r, s')) : s.Calm s' := by
  refine .of_exists fun ⟨q, hq⟩ => ?_
  rcases waitScan_cases hq hme h with ⟨l₁, p, l₂, -, -, hdue, hreaped⟩ | ⟨-, rfl, -⟩
  · cases hreaped with
    | stopped => exact .refl s
    | @zombie i before behind hz hp hprev hnext =>
        obtain ⟨hqueues, hqueued⟩ := @State.Queues.queued_reaped s q me p close i before behind hq
          hdue.1 hp hprev hnext
        refine ⟨fun _ => hqueues, fun _ x hx => ((hqueued x).mp hx).1, fun _ x hx => ?_⟩
        have hsame : (((s.reaped me p close before behind i).mem x).state,
            ((s.reaped me p close before behind i).mem x).exitCode) =
            ((s.mem x).state, (s.mem x).exitCode) :=
          State.reaped_field (fun y => (y.state, y.exitCode)) (fun _ _ _ => rfl)
            (fun _ _ _ _ => rfl) fun _ _ _ => rfl
        rw [Prod.mk.injEq] at hsame
        exact ⟨hsame.1.symm.trans hx, hsame.2⟩
  · exact .refl s'

theorem retry_calm (hme : s.currentProcess = some me)
    (h : retry e close pid options fixup s = some (.ok r, s')) : s.Calm s' := by
  refine .of_exists fun ⟨q, hq⟩ => ?_
  rcases retry_cases hq hme h with ⟨-, hscan⟩ | ⟨-, -, hsched⟩
  · exact waitScan_calm hme hscan
  · exact paused_calm.trans (schedule_calm hsched)

end Calm

/-! ## The protocol -/

/-- A state, with the processes that have called `kexit` and their codes, and those that
`kwaitpid` has reported and taken out of the table. -/
structure Family where
  state : State
  exited : Ptr → Option Int32
  reported : List Ptr

/-- A call of one of the functions; `resume` is the rest of `kwaitpid` from its call of `schedule`
on. -/
inductive FamilyCall
  | kexit (e : Env) (exitCode : Int32)
  | kwaitpid (e : Env) (close : Process → Tables) (pid options : Int32)
  | resume (e : Env) (close : Process → Tables) (pid options : Int32)
  | schedule (e : Env)
  | kpause (e : Env)
  | kkill (pid signal : Int32)

section Family
variable (s : State) (exited : Ptr → Option Int32) (me : Ptr) (pid options : Int32) (r : WaitResult)
  (s' : State) (p : Ptr) (run : Option (Except Stop WaitResult × State))

/-- A child that `kwaitpid` selects. -/
def State.Child : Prop := s.Queued p ∧ p ≠ me ∧ (s.mem p).SelectedBy pid (s.mem me)

/-- A child that has exited is reported: its pid is returned, its code is stored. -/
def Reports : Prop :=
  s.Child me pid p ∧
    ∃ code, exited p = some code ∧ r = .returned (s.mem p).pid (some code)

/-- What a run of `kwaitpid` does in answer to the exits: if a selected child has exited, it
returns, such a child is reported and leaves the table, which no other process does; if there is no
selected child, it returns `ECHILD`. -/
structure WaitAgrees : Prop where
  exit : (∃ p, s.Child me pid p ∧ exited p ≠ none) →
    ∃ r s' p, run = some (.ok r, s') ∧ Reports s exited me pid r p ∧
      ∀ x, s'.Queued x ↔ s.Queued x ∧ x ≠ p
  none : (¬ ∃ p, s.Child me pid p) → ∃ s', run = some (.ok (.returned eChild none), s')

/-- There is a selected child, and if one has exited, the first child that is due is a zombie
which is not alone on its queue. -/
def FirstZombie : Prop :=
  (∃ p, s.Child me pid p) ∧
    ((∃ p, s.Child me pid p ∧ exited p ≠ none) →
      ∃ q l₁ p l₂, s.Queues q ∧ State.procs q = l₁ ++ p :: l₂ ∧
        (∀ x ∈ l₁, ¬ s.Due me pid options x) ∧ s.Due me pid options p ∧
        (s.mem p).state = pZombie ∧ (s.mem p).next ≠ some p)

/-- A process that was reported is recorded if it is not in the table any more. -/
def Recorded (old new : List Ptr) : Prop :=
  (∃ p, Reports s exited me pid r p ∧ ¬ s'.Queued p ∧ new = p :: old) ∨
    ((∀ p, Reports s exited me pid r p → s'.Queued p) ∧ new = old)

/-- Every zombie in the table has exited, with its code. -/
def ZombiesExited : Prop :=
  ∀ p, s.Queued p → (s.mem p).state = pZombie → exited p = some (s.mem p).exitCode

end Family

namespace FamilyCall

/-- What a call of the current process may do. -/
def Step (call : FamilyCall) (c c' : Family) : Prop :=
  ∃ me, c.state.currentProcess = some me ∧
    match call with
    | kexit e exitCode =>
        (∃ v, Kernel.kexit e exitCode c.state = some (.ok v, c'.state)) ∧
          c'.exited = Function.update c.exited me (some exitCode) ∧ c'.reported = c.reported
    | kwaitpid e close pid options =>
        ∃ r, Kernel.kwaitpid e close pid options c.state = some (.ok r, c'.state) ∧
          c'.exited = c.exited ∧
          Recorded c.state c.exited me pid r c'.state c.reported c'.reported
    | resume e close pid options =>
        ∃ r, Kernel.kwaitpidResume e close pid options c.state = some (.ok r, c'.state) ∧
          c'.exited = c.exited ∧
          Recorded (c.state.childCleared me) c.exited me pid r c'.state c.reported c'.reported
    | schedule e => Kernel.schedule e c.state = some (.ok (), c'.state) ∧
        c'.exited = c.exited ∧ c'.reported = c.reported
    | kpause e => (∃ v, Kernel.kpause e c.state = some (.ok v, c'.state)) ∧
        c'.exited = c.exited ∧ c'.reported = c.reported
    | kkill pid signal => (∃ v, Kernel.kkill pid signal c.state = some (.ok v, c'.state)) ∧
        c'.exited = c.exited ∧ c'.reported = c.reported

/-- There is a process 1 when a process exits, and `kwaitpid` comes to a zombie first if there is
one to report. -/
def Guard (c : Family) : FamilyCall → Prop
  | kexit _ _ => ∃ p, c.state.Queued p ∧ (c.state.mem p).pid = 1
  | kwaitpid _ _ pid options =>
      ∀ me, c.state.currentProcess = some me → FirstZombie c.state c.exited me pid options
  | resume _ _ pid options => ∀ me, c.state.currentProcess = some me →
      FirstZombie (c.state.childCleared me) c.exited me pid options
  | schedule _ => True
  | kpause _ => True
  | kkill _ _ => True

/-- The runs from any table whose zombies, and no others, have exited. -/
def system : Lib.System Family FamilyCall where
  init c := (∃ q, c.state.Queues q) ∧ c.reported = [] ∧
    ∀ p, c.state.Queued p → c.exited p =
      if (c.state.mem p).state = pZombie then some (c.state.mem p).exitCode else none
  step := Step

/-- What every guarded run keeps. -/
structure Kept (c : Family) : Prop where
  queues : ∃ q, c.state.Queues q
  zombies : ZombiesExited c.state c.exited
  nodup : c.reported.Nodup
  gone : ∀ p ∈ c.reported, ¬ c.state.Queued p

variable {c c' : Family} {s s' : State} {exited : Ptr → Option Int32} {e : Env}
  {q : Fin nrPriority → List Ptr} {me p : Ptr} {call : FamilyCall}
  {close : Process → Tables} {pid options exitCode v : Int32} {fixup : Bool} {r : WaitResult}

theorem zombiesExited_of_calm (hcalm : s.Calm s') (hq : ∃ q, s.Queues q)
    (h : ZombiesExited s exited) : ZombiesExited s' exited := by
  intro p hp hz
  obtain ⟨hold, hcode⟩ := hcalm.zombie hq p hz
  rw [hcode]
  exact h p (hcalm.queued hq p hp) hold

/-- **A call other than `kexit`** that makes no zombies. -/
theorem kept_of_calm (h : Kept c) (hcalm : c.state.Calm c'.state) (hexited : c'.exited = c.exited)
    (hreported : c'.reported = c.reported) : Kept c' where
  queues := hcalm.queues h.queues
  zombies := by
    rw [hexited]
    exact zombiesExited_of_calm hcalm h.queues h.zombies
  nodup := by
    rw [hreported]
    exact h.nodup
  gone p hp := by
    rw [hreported] at hp
    exact fun hq => h.gone p hp (hcalm.queued h.queues p hq)

/-- A call of `kwaitpid`. -/
theorem kept_of_recorded {s : State} (h : Kept c) (hcalm : c.state.Calm c'.state)
    (hqueued : ∀ p, s.Queued p → c.state.Queued p) (hexited : c'.exited = c.exited)
    (hrecorded : Recorded s c.exited me pid r c'.state c.reported c'.reported) : Kept c' := by
  rcases hrecorded with ⟨p, hreports, hgone, hnew⟩ | ⟨-, hsame⟩
  · refine ⟨hcalm.queues h.queues, ?_, ?_, ?_⟩
    · rw [hexited]
      exact zombiesExited_of_calm hcalm h.queues h.zombies
    · rw [hnew]
      exact List.nodup_cons.mpr ⟨fun hp => h.gone p hp (hqueued p hreports.1.1), h.nodup⟩
    · intro x hx
      rw [hnew] at hx
      rcases List.mem_cons.mp hx with rfl | hx
      · exact hgone
      · exact fun hq => h.gone x hx (hcalm.queued h.queues x hq)
  · exact kept_of_calm h hcalm hexited hsame

theorem reparented_calm : s.Calm (s.reparented q me) := by
  refine .of_queues (fun q' hq => hq.updateAll fun _ x => ?_) fun q' _ p hp => ?_
  · exact ⟨Process.orphaned_field Process.next (fun _ _ _ => rfl) _ x,
      Process.orphaned_field Process.prev (fun _ _ _ => rfl) _ x,
      Process.orphaned_field Process.priority (fun _ _ _ => rfl) _ x⟩
  · have hfield : ∀ {α : Type} (g : Process → α),
        (∀ y u v, g { y with parent := u, signal := v } = g y) →
        g ((s.reparented q me).mem p) = g (s.mem p) := by
      intro α g hg
      by_cases hmem : p ∈ State.procs q
      · rw [State.reparented, State.updateAll_of_mem hmem]
        exact Process.orphaned_field g hg _ _
      · rw [State.reparented, State.updateAll_of_not_mem hmem]
    exact ⟨(hfield Process.state fun _ _ _ => rfl).symm.trans hp,
      hfield Process.exitCode fun _ _ _ => rfl⟩

/-- The exit code of the current process is the one it has exited with. -/
theorem zombiesExited_setExitCode (hq : ∃ q, s.Queues q) (h : ZombiesExited s exited) :
    ZombiesExited (s.setExitCode me exitCode) (Function.update exited me (some exitCode)) := by
  intro p hp hz
  obtain ⟨q, hq⟩ := hq
  have hset : (s.setExitCode me exitCode).Queues q := hq.update fun _ => ⟨rfl, rfl, rfl⟩
  have hqueued : s.Queued p := (hq.queued_congr hset p).mp hp
  rw [State.setExitCode, State.update_mem] at hz ⊢
  by_cases hpm : p = me
  · rw [if_pos hpm, hpm, Function.update_self]
  · rw [if_neg hpm] at hz ⊢
    rw [Function.update_of_ne hpm]
    exact h p hqueued hz

theorem kept_kexit (h : Kept c) (hinit : ∃ p, c.state.Queued p ∧ (c.state.mem p).pid = 1)
    (hme : c.state.currentProcess = some me)
    (hrun : Kernel.kexit e exitCode c.state = some (.ok v, c'.state))
    (hexited : c'.exited = Function.update c.exited me (some exitCode))
    (hreported : c'.reported = c.reported) : Kept c' := by
  obtain ⟨q, hq⟩ := h.queues
  rcases kexit_cases hq hme hrun with ⟨hnone, -, -⟩ | ⟨-, -, t, u, ht, hu, hsched⟩
  · obtain ⟨p, hp, hpid⟩ := hinit
    exact absurd hpid (hnone p (State.mem_procs.mpr (hq.queued_iff.mp hp)))
  · have hbefore : c.state.Calm t := reparented_calm.trans ht.calm
    have hafter : (t.setExitCode me exitCode).Calm c'.state := hu.calm.trans (schedule_calm hsched)
    obtain ⟨qt, hqt⟩ := hbefore.queues h.queues
    have hset : (t.setExitCode me exitCode).Queues qt := hqt.update fun _ => ⟨rfl, rfl, rfl⟩
    refine ⟨hafter.queues ⟨qt, hset⟩, ?_, ?_, fun p hp hpq => ?_⟩
    · rw [hexited]
      exact zombiesExited_of_calm hafter ⟨qt, hset⟩
        (zombiesExited_setExitCode ⟨qt, hqt⟩ (zombiesExited_of_calm hbefore h.queues h.zombies))
    · rw [hreported]
      exact h.nodup
    · rw [hreported] at hp
      have hp₁ := hafter.queued ⟨qt, hset⟩ p hpq
      have hp₂ := (hqt.queued_congr hset p).mp hp₁
      exact h.gone p hp (hbefore.queued h.queues p hp₂)

theorem childCleared_queued (hq : ∃ q, s.Queues q) (p : Ptr) :
    (s.childCleared me).Queued p → s.Queued p := childCleared_calm.queued hq p

/-- **What one call keeps.** -/
theorem kept_step (h : Kept c) (hguard : Guard c call) (hstep : Step call c c') : Kept c' := by
  obtain ⟨me, hme, hstep⟩ := hstep
  cases call with
  | kexit e exitCode =>
      obtain ⟨⟨v, hrun⟩, hexited, hreported⟩ := hstep
      exact kept_kexit h hguard hme hrun hexited hreported
  | kwaitpid e close pid options =>
      obtain ⟨r, hrun, hexited, hrecorded⟩ := hstep
      exact kept_of_recorded h (retry_calm hme hrun) (fun _ hp => hp) hexited hrecorded
  | resume e close pid options =>
      obtain ⟨r, hrun, hexited, hrecorded⟩ := hstep
      rw [kwaitpidResume_eq hme] at hrun
      have hcalm : (c.state.childCleared me).Calm c'.state := retry_calm hme hrun
      exact kept_of_recorded h (childCleared_calm.trans hcalm) (childCleared_queued h.queues)
        hexited hrecorded
  | schedule e =>
      obtain ⟨hrun, hexited, hreported⟩ := hstep
      exact kept_of_calm h (schedule_calm hrun) hexited hreported
  | kpause e =>
      obtain ⟨⟨v, hrun⟩, hexited, hreported⟩ := hstep
      exact kept_of_calm h (paused_calm.trans (schedule_calm (RunCall.kpause_run hme hrun)))
        hexited hreported
  | kkill pid signal =>
      obtain ⟨⟨v, hrun⟩, hexited, hreported⟩ := hstep
      obtain ⟨q, hq⟩ := h.queues
      exact kept_of_calm h (kkill_resignals hq hrun).calm hexited hreported

theorem kept_init (h : system.init c) : Kept c := by
  obtain ⟨hq, hreported, hexited⟩ := h
  refine ⟨hq, fun p hp hz => ?_, ?_, ?_⟩
  · rw [hexited p hp, if_pos hz]
  · rw [hreported]
    exact List.nodup_nil
  · rw [hreported]
    simp

/-- The first child that is due is one. -/
theorem first_unique {D : Ptr → Prop} {l₁ l₂ m₁ m₂ : List Ptr} {x y : Ptr}
    (h : l₁ ++ x :: l₂ = m₁ ++ y :: m₂) (hl : ∀ z ∈ l₁, ¬ D z) (hx : D x) (hm : ∀ z ∈ m₁, ¬ D z)
    (hy : D y) : x = y := by
  classical
  have hfind : ∀ (l₁ l₂ : List Ptr) (x : Ptr), (∀ z ∈ l₁, ¬ D z) → D x →
      (l₁ ++ x :: l₂).find? (fun z => D z) = some x := by
    intro l₁ l₂ x hl hx
    rw [List.find?_append, List.find?_eq_none.mpr (by simpa using hl),
      List.find?_cons_of_pos (by simpa using hx)]
    rfl
  have hfirst := hfind l₁ l₂ x hl hx
  rw [h, hfind m₁ m₂ y hm hy] at hfirst
  exact (Option.some.inj hfirst).symm

/-- **The loop of `kwaitpid` returns** when the first child that is due is a zombie. -/
theorem waitScan_zombie {l₁ l₂ : List Ptr} (hq : s.Queues q) (hme : s.currentProcess = some me)
    (hl : State.procs q = l₁ ++ p :: l₂) (hbefore : ∀ x ∈ l₁, ¬ s.Due me pid options x)
    (hdue : s.Due me pid options p) (hzombie : (s.mem p).state = pZombie) :
    ∃ i before behind, p ∈ q i ∧ (s.mem p).prev = some before ∧ (s.mem p).next = some behind ∧
      waitScan close pid options fixup s =
        some (.ok (.returned (s.mem p).pid (some (s.mem p).exitCode)),
          s.reaped me p close before behind i) := by
  have hmem : p ∈ State.procs q := hl ▸ by simp
  obtain ⟨i, hi⟩ := State.mem_procs.mp hmem
  obtain ⟨before, behind, hidx, hprev, hnext⟩ := hq.neighbours hi
  refine ⟨i, before, behind, hi, hprev, hnext, ?_⟩
  rcases @waitLoop_cases s q me close pid options fixup hq hme with
    ⟨hnone, -⟩ | ⟨m₁, y, m₂, fixup', hm, hbefore', hdue', hreturn⟩
  · exact absurd hdue (hnone p hmem)
  · obtain rfl : p = y := first_unique (hl.symm.trans hm) hbefore hdue hbefore' hdue'
    have hloop := hreturn _ _ (waitStep_zombie hme hdue hzombie hidx hprev hnext)
    exact Call.bind_of_ok (Call.withLocal_of_ok hloop)

/-- **When `kwaitpid` answers an exit**: exactly if the first child that is due is a zombie which
is not alone on its queue. -/
theorem waitAgrees_iff (hq : ∃ q, s.Queues q) (hz : ZombiesExited s exited)
    (hme : s.currentProcess = some me) :
    WaitAgrees s exited me pid (retry e close pid options fixup s) ↔
      FirstZombie s exited me pid options := by
  constructor
  · intro h
    refine ⟨?_, fun ⟨p, hp, hexit⟩ => ?_⟩
    · -- Without a child the result would have to be `ECHILD`, which no branch returns.
      by_contra hnone
      obtain ⟨s', hrun⟩ := h.none hnone
      obtain ⟨q, hq⟩ := hq
      rcases retry_cases hq hme hrun with ⟨-, hscan⟩ | ⟨hwaits, -, -⟩
      · rcases waitScan_cases hq hme hscan with ⟨l₁, p, l₂, hl, -, hdue, -⟩ | ⟨-, -, hres⟩
        · have hp : s.Queued p := hq.queued_iff.mpr (State.mem_procs.mp (hl ▸ by simp))
          exact hnone ⟨p, hp, hdue.1, hdue.2.1⟩
        · split at hres
          · split at hres
            · cases hres
            · cases hres
          · cases hres
      · cases hwaits
    · obtain ⟨r, s', x, hrun, ⟨hx, code, hcode, hr⟩, hgone⟩ := h.exit ⟨p, hp, hexit⟩
      obtain ⟨q, hq⟩ := hq
      rcases retry_cases hq hme hrun with ⟨-, hscan⟩ | ⟨hwaits, -, -⟩
      · rcases waitScan_cases hq hme hscan with
          ⟨l₁, y, l₂, hl, hbefore, hdue, hreaped⟩ | ⟨-, -, hres⟩
        · refine ⟨q, l₁, y, l₂, hq, hl, hbefore, hdue, ?_⟩
          cases hreaped with
          | stopped => exact absurd rfl ((hgone x).mp hx.1).2
          | @zombie i before behind hzy hy hprev hnext =>
              refine ⟨hzy, fun hself => ?_⟩
              obtain ⟨-, hqueued⟩ := @State.Queues.queued_reaped s q me y close i before behind hq
                hdue.1 hy hprev hnext
              exact absurd rfl ((hgone x).mp ((hqueued x).mpr ⟨hx.1, .inl hself⟩)).2
        · rw [hr] at hres
          split at hres
          · split at hres
            · cases (WaitResult.returned.inj hres).2
            · cases hres
          · cases hres
      · rw [hr] at hwaits
        cases hwaits
  · rintro ⟨hchild, hfirst⟩
    refine ⟨fun hexit => ?_, fun hnone => absurd hchild hnone⟩
    obtain ⟨q, l₁, p, l₂, hq, hl, hbefore, hdue, hzombie, halone⟩ := hfirst hexit
    have hp : s.Queued p := hq.queued_iff.mpr (State.mem_procs.mp (hl ▸ by simp))
    have hcode : exited p = some (s.mem p).exitCode := hz p hp hzombie
    obtain ⟨i, before, behind, hpi, hprev, hnext, hscan⟩ :=
      @waitScan_zombie s q me p close pid options fixup l₁ l₂ hq hme hl hbefore hdue hzombie
    obtain ⟨-, hqueued⟩ := @State.Queues.queued_reaped s q me p close i before behind hq
      hdue.1 hpi hprev hnext
    refine ⟨_, _, p, Call.bind_of_ok hscan, ⟨⟨hp, hdue.1, hdue.2.1⟩, _, hcode, rfl⟩, fun x => ?_⟩
    rw [hqueued, or_iff_right halone]

/-- The orphans of a process that exits have the parent 1. -/
theorem kexit_orphans (hq : ∃ q, s.Queues q) (hme : s.currentProcess = some me)
    (hrun : Kernel.kexit e exitCode s = some (.ok v, s'))
    (hinit : ∃ p, s.Queued p ∧ (s.mem p).pid = 1) (hp : s.Queued p)
    (hparent : (s.mem p).parent = (s.mem me).pid) : (s'.mem p).parent = 1 := by
  obtain ⟨q, hq⟩ := hq
  rcases kexit_cases hq hme hrun with ⟨hnone, -, -⟩ | ⟨-, -, t, u, ht, hu, hsched⟩
  · obtain ⟨x, hx, hpid⟩ := hinit
    exact absurd hpid (hnone x (State.mem_procs.mpr (hq.queued_iff.mp hx)))
  · have hmem : p ∈ State.procs q := State.mem_procs.mpr (hq.queued_iff.mp hp)
    have horphan : ((s.reparented q me).mem p).parent = 1 := by
      rw [State.reparented, State.updateAll_of_mem hmem, Process.orphaned, if_pos hparent]
      split <;> rfl
    have hqu : u.Queues q := by
      refine hu.queues ?_
      exact (ht.queues hq.reparented).update fun _ => ⟨rfl, rfl, rfl⟩
    have hsame : (u.mem p).parent = 1 := by
      rw [hu.field Process.parent fun _ _ => rfl]
      refine Eq.trans (State.update_field Process.parent fun _ => rfl) ?_
      rw [ht.field Process.parent fun _ _ => rfl]
      exact horphan
    have halarmed : ((u.mem p).alarmed (e.ktime p)).parent = (u.mem p).parent :=
      Process.alarmed_field Process.parent _ _ (fun _ _ _ => rfl) fun _ _ => rfl
    rw [schedule_field Process.parent hqu (fun _ _ => rfl) (fun _ _ _ => rfl) hsched, if_pos hmem,
      halarmed]
    exact hsame

/-- **Exit and wait.** In every run in which there is a process 1 when a process exits, and
`kwaitpid` comes to a zombie first whenever a child has exited, no child is reported twice, and the
next call of `kwaitpid` returns and answers the exits exactly if it comes to a zombie first; the
orphans of the next process that exits have the parent 1. -/
theorem exit_and_wait_agree (h : system.Reach Guard c) (hme : c.state.currentProcess = some me) :
    c.reported.Nodup ∧ (∀ p ∈ c.reported, ¬ c.state.Queued p) ∧
      (∀ e close pid options,
        WaitAgrees c.state c.exited me pid (Kernel.kwaitpid e close pid options c.state) ↔
          Guard c (kwaitpid e close pid options)) ∧
      (∀ e close pid options,
        WaitAgrees (c.state.childCleared me) c.exited me pid
            (Kernel.kwaitpidResume e close pid options c.state) ↔
          Guard c (resume e close pid options)) ∧
      ∀ e exitCode v s', Kernel.kexit e exitCode c.state = some (.ok v, s') →
        Guard c (kexit e exitCode) → ∀ p, c.state.Queued p →
          (c.state.mem p).parent = (c.state.mem me).pid → (s'.mem p).parent = 1 := by
  have hkept : Kept c := h.invariant (fun c hc => kept_init hc)
    fun c call c' hc hg hstep => kept_step hc hg hstep
  have hcurrent : ∀ m, c.state.currentProcess = some m → m = me := fun m hm =>
    Option.some.inj (hm.symm.trans hme)
  refine ⟨hkept.nodup, hkept.gone, fun e close pid options => ?_, fun e close pid options => ?_,
    fun e exitCode v s' hrun hinit p hp hparent =>
      kexit_orphans hkept.queues hme hrun hinit hp hparent⟩
  · refine (waitAgrees_iff hkept.queues hkept.zombies hme).trans ⟨fun hfirst m hm => ?_, ?_⟩
    · rw [hcurrent m hm]
      exact hfirst
    · exact fun hguard => hguard me hme
  · rw [kwaitpidResume_eq hme]
    refine (waitAgrees_iff (childCleared_calm.queues hkept.queues)
      (zombiesExited_of_calm childCleared_calm hkept.queues hkept.zombies) hme).trans
        ⟨fun hfirst m hm => ?_, ?_⟩
    · rw [hcurrent m hm]
      exact hfirst
    · exact fun hguard => hguard me hme

/-! ## A parent and a child -/

/-- The table of the process 1 and its child, which is the current process. -/
def familyState : State :=
  State.ofList Calls.pair
    (fun p =>
      { Process.zero with
        tssSeg := 8
        eip := 1
        counter := if p = firstProcess then 5 else 4
        pid := if p = firstProcess then 1 else 2
        parent := 1
        state := pRunning }) secondProcess

/-- The files are left open. -/
def keepOpen (x : Process) : Tables := ⟨x.fileTab, x.fileDesc, x.dirTab⟩

def family : Family := ⟨familyState, fun _ => none, []⟩

theorem familyState_queues :
    familyState.Queues (Function.update (fun _ => []) 0 Calls.pair) :=
  State.queues_ofList (by decide)

theorem reach_family {guard : Family → FamilyCall → Prop} : system.Reach guard family := by
  refine .init ⟨⟨_, familyState_queues⟩, rfl, fun p _ => ?_⟩
  have hstate : (family.state.mem p).state = pRunning := rfl
  rw [hstate]
  rfl

/-- The child exits with 7; its parent calls `kwaitpid` with `WNOHANG` for any child and gets 0. -/
theorem kwaitpid_misses_exit : ∃ s₁ s₂, system.Reach (fun _ _ => True) family ∧
    Kernel.kexit ⟨fun _ => 0, 1⟩ 7 familyState = some (.ok (-1), s₁) ∧
    s₁.currentProcess = some firstProcess ∧ s₁.Child firstProcess (-1) secondProcess ∧
    Kernel.kwaitpid ⟨fun _ => 0, 1⟩ keepOpen (-1) wNoHang s₁ = some (.ok (.returned 0 none), s₂) := by
  have hexit : ((Kernel.kexit ⟨fun _ => 0, 1⟩ 7 familyState).map Prod.fst) = some (.ok (-1)) := by
    decide +kernel
  obtain ⟨⟨r, s⟩, hexit, rfl⟩ := Option.map_eq_some_iff.mp hexit
  have hfacts : ((Kernel.kexit ⟨fun _ => 0, 1⟩ 7 familyState).all fun p =>
      p.2.currentProcess = some firstProcess ∧ p.2.processTab 0 = some firstProcess ∧
        (p.2.mem firstProcess).next = some secondProcess ∧
        (p.2.mem secondProcess).SelectedBy (-1) (p.2.mem firstProcess)) = true := by
    decide +kernel
  have hwait : ((Kernel.kexit ⟨fun _ => 0, 1⟩ 7 familyState).bind fun p =>
      (Kernel.kwaitpid ⟨fun _ => 0, 1⟩ keepOpen (-1) wNoHang p.2).map Prod.fst) =
      some (.ok (.returned 0 none)) := by
    decide +kernel
  rw [hexit] at hfacts hwait
  obtain ⟨hcurrent, htab, hnext, hselected⟩ := of_decide_eq_true hfacts
  obtain ⟨⟨r', s₂⟩, hkwait, rfl⟩ := Option.map_eq_some_iff.mp hwait
  exact ⟨s, s₂, reach_family, hexit, hcurrent, ⟨⟨0, firstProcess, htab, .single hnext⟩,
    by decide, hselected⟩, hkwait⟩

/-! ## An exit and a wait -/

/-- The processes of `reapState`. -/
def three : List Ptr := [firstProcess, secondProcess, thirdProcess]

/-- The process 1 and two children of it: 2 is a zombie that has exited with 7, and 3 runs. -/
def reapState : State :=
  State.ofList three
    (fun p =>
      { Process.zero with
        tssSeg := 8
        eip := 1
        counter := if p = firstProcess then 5 else 4
        pid := if p = firstProcess then 1 else if p = secondProcess then 2 else 3
        parent := 1
        state := if p = secondProcess then pZombie else pRunning
        exitCode := if p = secondProcess then 7 else 0 }) thirdProcess

def reapFamily : Family := ⟨reapState, fun p => if p = secondProcess then some 7 else none, []⟩

theorem reapState_queues : reapState.Queues (Function.update (fun _ => []) 0 three) :=
  State.queues_ofList (by decide)

theorem reach_reapFamily : system.Reach Guard reapFamily := by
  refine .init ⟨⟨_, reapState_queues⟩, rfl, fun p hp => ?_⟩
  replace hp : reapState.Queued p := hp
  rw [reapState_queues.queued_iff, ← State.mem_procs, State.procs_ofList] at hp
  rcases List.mem_cons.mp hp with rfl | hp
  · decide
  · rcases List.mem_pair.mp hp with rfl | rfl <;> decide

/-- `kexit` keeps the queues. -/
theorem kexit_queues (hq : s.Queues q) (hme : s.currentProcess = some me)
    (hrun : Kernel.kexit e exitCode s = some (.ok v, s')) : s'.Queues q := by
  rcases kexit_cases hq hme hrun with ⟨-, -, rfl⟩ | ⟨-, -, t, u, ht, hu, hsched⟩
  · exact hq
  · have hset : (t.setExitCode me exitCode).Queues q :=
      (ht.queues hq.reparented).update fun _ => ⟨rfl, rfl, rfl⟩
    exact schedule_queues (hu.queues hset) hsched

/-- A report leaves the current process. -/
theorem retry_reports (hq : s.Queues q) (hme : s.currentProcess = some me) {value code : Int32}
    (hrun : retry e close pid options fixup s = some (.ok (.returned value (some code)), s')) :
    s'.currentProcess = some me := by
  rcases retry_cases hq hme hrun with ⟨-, hscan⟩ | ⟨hwaits, -, -⟩
  · rcases waitScan_cases hq hme hscan with ⟨l₁, p, l₂, -, -, -, hreaped⟩ | ⟨-, rfl, -⟩
    · cases hreaped with
      | stopped => exact hme
      | zombie =>
          rw [State.reaped, State.freed]
          split <;> exact hme
    · exact hme
  · cases hwaits

/-- The process 3 exits, and its parent waits for the process 2, which is reported. -/
theorem exit_and_wait_agree_family : ∃ c p, system.Reach Guard c ∧
    c.exited thirdProcess = some 9 ∧ c.reported = [p] ∧ ¬ c.state.Queued p ∧
    (∀ e close pid options, WaitAgrees c.state c.exited firstProcess pid
        (Kernel.kwaitpid e close pid options c.state) ↔ Guard c (kwaitpid e close pid options)) ∧
    ∀ e exitCode v s', Kernel.kexit e exitCode c.state = some (.ok v, s') →
      Guard c (kexit e exitCode) → ∀ p, c.state.Queued p →
        (c.state.mem p).parent = (c.state.mem firstProcess).pid → (s'.mem p).parent = 1 := by
  have hexit : ((Kernel.kexit ⟨fun _ => 0, 1⟩ 9 reapState).map fun r =>
      (r.1, decide (r.2.currentProcess = some firstProcess ∧
        (r.2.mem secondProcess).state = pZombie ∧
        (r.2.mem secondProcess).next ≠ some secondProcess ∧
        (r.2.mem secondProcess).SelectedBy 2 (r.2.mem firstProcess)))) =
      some (.ok (-1), true) := by
    decide +kernel
  obtain ⟨⟨r, s₁⟩, hexit, hfacts⟩ := Option.map_eq_some_iff.mp hexit
  obtain ⟨rfl, hfacts⟩ := Prod.ext_iff.mp hfacts
  obtain ⟨hcurrent, hzombie, halone, hselected⟩ := of_decide_eq_true hfacts
  have hq : s₁.Queues (Function.update (fun _ => []) 0 three) :=
    kexit_queues reapState_queues rfl hexit
  let c₁ : Family := ⟨s₁, Function.update reapFamily.exited thirdProcess (some 9), []⟩
  have hinit : Guard reapFamily (kexit ⟨fun _ => 0, 1⟩ 9) :=
    ⟨firstProcess, reapState_queues.queued_iff.mpr (State.mem_procs.mp (by
      rw [State.procs_ofList]
      decide)), by decide⟩
  have hreach₁ : system.Reach Guard c₁ :=
    .step (c := kexit ⟨fun _ => 0, 1⟩ 9) reach_reapFamily hinit
      ⟨thirdProcess, rfl, ⟨-1, hexit⟩, rfl, rfl⟩
  have hdue : s₁.Due firstProcess 2 wNoHang secondProcess :=
    ⟨by decide, hselected, .inr hzombie⟩
  have hqueued : s₁.Queued secondProcess := hq.queued_iff.mpr (State.mem_procs.mp (by
    rw [State.procs_ofList]
    decide))
  have hfirst : FirstZombie s₁ c₁.exited firstProcess 2 wNoHang := by
    refine ⟨⟨secondProcess, hqueued, hdue.1, hselected⟩, fun _ => ⟨_, [firstProcess],
      secondProcess, [thirdProcess], hq, State.procs_ofList, fun x hx hd => ?_, hdue, hzombie,
      halone⟩⟩
    exact hd.1 (List.mem_singleton.mp hx)
  have hkept₁ : Kept c₁ := hreach₁.invariant (fun c hc => kept_init hc)
    fun c call c' hc hg hstep => kept_step hc hg hstep
  have hagrees : WaitAgrees s₁ c₁.exited firstProcess 2
      (retry ⟨fun _ => 0, 1⟩ keepOpen 2 wNoHang false s₁) :=
    (waitAgrees_iff ⟨_, hq⟩ hkept₁.zombies hcurrent).mpr hfirst
  obtain ⟨r, s₂, p, hwait, hreports, hgone⟩ :=
    hagrees.exit
      ⟨secondProcess, ⟨hqueued, hdue.1, hselected⟩, by
        rw [hkept₁.zombies secondProcess hqueued hzombie]
        exact Option.some_ne_none _⟩
  have hpgone : ¬ s₂.Queued p := fun hp => ((hgone p).mp hp).2 rfl
  let c₂ : Family := ⟨s₂, c₁.exited, [p]⟩
  have hguard : Guard c₁ (kwaitpid ⟨fun _ => 0, 1⟩ keepOpen 2 wNoHang) := by
    intro me hme
    obtain rfl : firstProcess = me := Option.some.inj (hcurrent.symm.trans hme)
    exact hfirst
  have hreach₂ : system.Reach Guard c₂ :=
    .step (c := kwaitpid ⟨fun _ => 0, 1⟩ keepOpen 2 wNoHang) hreach₁ hguard
      ⟨firstProcess, hcurrent, r, hwait, rfl, .inl ⟨p, hreports, hpgone, rfl⟩⟩
  have hcurrent₂ : s₂.currentProcess = some firstProcess := by
    obtain ⟨-, code, -, rfl⟩ := hreports
    exact retry_reports hq hcurrent hwait
  obtain ⟨-, -, hagree, -, horphans⟩ := exit_and_wait_agree hreach₂ hcurrent₂
  have hnine : c₂.exited thirdProcess = some 9 :=
    Function.update_self thirdProcess (some 9) reapFamily.exited
  exact ⟨c₂, p, hreach₂, hnine, rfl, hpgone, hagree, horphans⟩

end FamilyCall
end OxKernel.Kernel
