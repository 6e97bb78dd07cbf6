import OxKernel.Kernel.Balance
import OxKernel.Kernel.ExitSpec
import OxKernel.Kernel.Wait
import OxKernel.Lib.Reach

/-!
# Which processes the scheduler switches to

`schedule` goes by the counters alone. A process that may not run is switched to when it has the
highest counter.

## Main definitions

* `Switch.Proper` — a switch to a process that may run.
* `State.Next` — the process with the highest counter.
* `State.Safe` — the process with the highest counter may run.
* `RunCall` — the calls that go through `schedule`, and `kkill`.
-/
namespace OxKernel.Kernel

open Lib (Call)

/-- A switch to a process that may run: it was neither a zombie nor stopped, and if it was
interruptible it has a signal that is not blocked, and runs. -/
def Switch.Proper (sw : Switch) : Prop :=
  sw.before.state ≠ pZombie ∧ sw.before.state ≠ pStopped ∧
    (sw.before.state = pInterruptible → sw.after.Pending ∧ sw.after.state = pRunning)

namespace State
variable (s : State) (e : Env) (q : Fin nrPriority → List Ptr) (me p : Ptr)

/-- The counter that `schedule` looks at. -/
def ticked : ℤ :=
  (if p ∈ procs q then (s.mem p).counter - 1 else (s.mem p).counter).toInt

/-- The process with the highest counter: the current one if no other is higher, and the first
one in the table otherwise. -/
def Next : Prop :=
  (p = me ∧ ∀ x ∈ procs q, s.ticked q x ≤ s.ticked q me) ∨ Leads (s.ticked q) me (procs q) p

/-- A process that is neither a zombie nor stopped, nor one in the table that waits without a
signal. -/
def MayRun : Prop :=
  (s.mem p).state ≠ pZombie ∧ (s.mem p).state ≠ pStopped ∧
    ((s.mem p).state = pInterruptible →
      p ∈ procs q ∧ ((s.mem p).postAlarm (e.ktime p)).Pending)

/-- The process with the highest counter may run, if there is a switch to it. -/
def Safe : Prop :=
  ∀ q me p, s.Queues q → s.currentProcess = some me → s.Next q me p → s.Switches me p →
    s.MayRun e q p

/-- `current_process->p_state = P_INTERRUPTIBLE`. -/
def paused : State := s.update me fun x => { x with state := pInterruptible }

end State

section Choice
variable {s s' : State} {e : Env} {q : Fin nrPriority → List Ptr} {me p : Ptr}

/-- Nobody leads a process that has the highest counter. -/
theorem leader_eq_self {α β : Type} [LinearOrder β] {c : α → β} {me : α} {l : List α}
    (h : ∀ x ∈ l, c x ≤ c me) : leader c me l = me := by
  rcases leader_spec c me l with h' | hlead
  · exact h'.1
  · exact absurd (h _ hlead.mem) (not_le.mpr hlead.current)

theorem State.aged_counter : ((s.aged e q).mem p).counter.toInt = s.ticked q p := by
  rw [ticked]
  by_cases hp : p ∈ procs q
  · rw [aged_of_mem hp, if_pos hp]
    have hcount : ((s.mem p).alarmed (e.ktime p)).counter = (s.mem p).counter :=
      Process.alarmed_field Process.counter _ _ (fun _ _ _ => rfl) fun _ _ => rfl
    rw [Process.countDown, hcount]
  · rw [aged_of_not_mem hp, if_neg hp]

/-- **The process that `schedule` goes on with.** -/
theorem State.next_iff : s.Next q me p ↔ s.chosen e q me = p := by
  have hticked : s.chosen e q me = leader (s.ticked q) me (procs q) := by
    rw [chosen]
    congr 1
    funext x
    exact aged_counter
  rw [hticked]
  constructor
  · rintro (⟨rfl, hle⟩ | hlead)
    · exact leader_eq_self hle
    · exact hlead.leader_eq
  · rintro rfl
    exact leader_spec (s.ticked q) me (procs q)

/-- The fields that decide whether a process may run, at the time of the switch. -/
theorem entered_fields :
    ((((s.counted e q me).mem p).entered e.kstart).state,
      (((s.counted e q me).mem p).entered e.kstart).signal,
      (((s.counted e q me).mem p).entered e.kstart).blocked) =
    (if p ∈ State.procs q then (((s.mem p).alarmed (e.ktime p)).state,
        ((s.mem p).alarmed (e.ktime p)).signal, ((s.mem p).alarmed (e.ktime p)).blocked)
      else ((s.mem p).state, (s.mem p).signal, (s.mem p).blocked)) := by
  have hentered : ∀ x : Process, ((x.entered e.kstart).state, (x.entered e.kstart).signal,
      (x.entered e.kstart).blocked) = (x.state, x.signal, x.blocked) := fun x =>
    Process.entered_field (fun x => (x.state, x.signal, x.blocked)) fun _ _ _ => rfl
  have hcounted : (((s.counted e q me).mem p).state, ((s.counted e q me).mem p).signal,
      ((s.counted e q me).mem p).blocked) = (((s.aged e q).mem p).state,
      ((s.aged e q).mem p).signal, ((s.aged e q).mem p).blocked) :=
    State.update_field (fun x => (x.state, x.signal, x.blocked)) fun _ => rfl
  rw [hentered, hcounted]
  by_cases hp : p ∈ State.procs q
  · rw [State.aged_of_mem hp, if_pos hp]
    rfl
  · rw [State.aged_of_not_mem hp, if_neg hp]

theorem Process.pending_congr {x y : Process} (hsignal : x.signal = y.signal)
    (hblocked : x.blocked = y.blocked) : x.Pending ↔ y.Pending := by
  rw [Pending, Pending, hsignal, hblocked]

/-- An interruptible process in the first loop: it runs afterwards exactly if it has a signal. -/
theorem Process.alarmed_interruptible {x : Process} {now : Int32} (h : x.state = pInterruptible) :
    ((x.alarmed now).Pending ∧ (x.alarmed now).state = pRunning) ↔ (x.postAlarm now).Pending := by
  have hstate : (x.postAlarm now).state = pInterruptible := by
    rw [postAlarm]
    split
    · exact h
    · exact h
  rw [alarmed, wake]
  by_cases hp : (x.postAlarm now).Pending
  · rw [if_pos ⟨hp, hstate⟩]
    exact iff_of_true ⟨hp, rfl⟩ hp
  · rw [if_neg fun hc => hp hc.1]
    exact iff_of_false (fun hc => hp hc.1) hp

/-- A switch of `schedule` is proper exactly if the process may run. -/
theorem proper_iff {mode : Int32} :
    Switch.Proper ⟨p, s.mem p, ((s.counted e q me).mem p).entered e.kstart, mode⟩ ↔
      s.MayRun e q p := by
  have hfields := @entered_fields s e q me p
  rw [Switch.Proper, State.MayRun]
  refine and_congr_right fun hz => and_congr_right fun hst => imp_congr_right fun hint => ?_
  by_cases hp : p ∈ State.procs q
  · rw [if_pos hp] at hfields
    obtain ⟨hstate, hsignal, hblocked⟩ : _ ∧ _ ∧ _ := by simpa only [Prod.mk.injEq] using hfields
    rw [Process.pending_congr hsignal hblocked, hstate, Process.alarmed_interruptible hint]
    exact (and_iff_right hp).symm
  · rw [if_neg hp] at hfields
    obtain ⟨hstate, -, -⟩ : _ ∧ _ ∧ _ := by simpa only [Prod.mk.injEq] using hfields
    refine iff_of_false (fun hc => ?_) fun hc => hp hc.1
    rw [hstate] at hc
    have hne : pInterruptible ≠ pRunning := by decide
    exact hne (hint.symm.trans hc.2)

/-- **One call of `schedule`** goes on with a process that may run exactly if the process with the
highest counter may. -/
theorem schedule_proper (hq : s.Queues q) (hrun : schedule e s = some (.ok (), s'))
    (hold : ∀ sw ∈ s.switches, sw.Proper) : (∀ sw ∈ s'.switches, sw.Proper) ↔ s.Safe e := by
  constructor
  · intro hall q' m p hq' hm hnext hswitches
    have hp : s.chosen e q' m = p := State.next_iff.mp hnext
    rcases schedule_cases hq' hm hrun with ⟨hnot, -⟩ | ⟨-, rfl⟩
    · rw [hp] at hnot
      exact absurd hswitches hnot
    · have hmem := hall _ List.mem_cons_self
      rw [hp] at hmem
      exact proper_iff.mp hmem
  · intro hsafe sw hsw
    obtain ⟨m, hm⟩ := schedule_current hrun
    rcases schedule_cases hq hm hrun with ⟨-, rfl⟩ | ⟨hswitches, rfl⟩
    · exact hold sw hsw
    · rcases List.mem_cons.mp hsw with rfl | hsw
      · exact proper_iff.mpr (hsafe q m _ hq hm (State.next_iff.mpr rfl) hswitches)
      · exact hold sw hsw

end Choice

/-! ## Runs -/

/-- A call of one of the functions; `resume` is the rest of `kwaitpid` from its call of `schedule`
on. -/
inductive RunCall
  | schedule (e : Env)
  | kpause (e : Env)
  | kkill (pid signal : Int32)
  | kwaitpid (e : Env) (close : Process → Tables) (pid options : Int32)
  | resume (e : Env) (close : Process → Tables) (pid options : Int32)

namespace RunCall

/-- What a call of the current process may do. -/
def Step (call : RunCall) (s s' : State) : Prop :=
  ∃ me, s.currentProcess = some me ∧
    match call with
    | schedule e => Kernel.schedule e s = some (.ok (), s')
    | kpause e => ∃ v, Kernel.kpause e s = some (.ok v, s')
    | kkill pid signal => ∃ v, Kernel.kkill pid signal s = some (.ok v, s')
    | kwaitpid e close pid options => ∃ r, Kernel.kwaitpid e close pid options s = some (.ok r, s')
    | resume e close pid options =>
        ∃ r, Kernel.kwaitpidResume e close pid options s = some (.ok r, s')

/-- Where a call comes to `schedule`, the process with the highest counter may run. -/
def Guard (s : State) : RunCall → Prop
  | schedule e => s.Safe e
  | kpause e => ∀ me, s.currentProcess = some me → (s.paused me).Safe e
  | kkill _ _ => True
  | kwaitpid e _ pid options => ∀ me q, s.currentProcess = some me → s.Queues q →
      s.WillWait me pid options q false → (s.paused me).Safe e
  | resume e _ pid options => ∀ me q, s.currentProcess = some me → s.Queues q →
      (s.childCleared me).WillWait me pid options q true → ((s.childCleared me).paused me).Safe e

/-- The runs from any table, with nothing switched to yet. -/
def system : Lib.System State RunCall where
  init s := (∃ q, s.Queues q) ∧ s.switches = []
  step := Step

/-- The queues are rings, and all switches were proper. -/
def Kept (s : State) : Prop := (∃ q, s.Queues q) ∧ ∀ sw ∈ s.switches, sw.Proper

variable {s s' : State} {e : Env} {q : Fin nrPriority → List Ptr} {me : Ptr} {call : RunCall}
  {close : Process → Tables} {pid options : Int32} {fixup : Bool} {r : WaitResult}

theorem kept_schedule (h : Kept s) (hsafe : s.Safe e)
    (hrun : Kernel.schedule e s = some (.ok (), s')) : Kept s' := by
  obtain ⟨⟨q, hq⟩, hold⟩ := h
  exact ⟨⟨q, schedule_queues hq hrun⟩, (schedule_proper hq hrun hold).mpr hsafe⟩

theorem kept_paused (h : Kept s) : Kept (s.paused me) := by
  obtain ⟨⟨q, hq⟩, hold⟩ := h
  exact ⟨⟨q, hq.update fun _ => ⟨rfl, rfl, rfl⟩⟩, hold⟩

theorem kept_childCleared (h : Kept s) : Kept (s.childCleared me) := by
  obtain ⟨⟨q, hq⟩, hold⟩ := h
  exact ⟨⟨q, hq.update fun _ => ⟨rfl, rfl, rfl⟩⟩, hold⟩

theorem queues_of_childCleared (h : (s.childCleared me).Queues q) : s.Queues q := by
  have hsame : ∀ p, ((s.childCleared me).mem p).next = (s.mem p).next ∧
      ((s.childCleared me).mem p).prev = (s.mem p).prev ∧
      ((s.childCleared me).mem p).priority = (s.mem p).priority := fun p =>
    ⟨State.update_field Process.next fun _ => rfl, State.update_field Process.prev fun _ => rfl,
      State.update_field Process.priority fun _ => rfl⟩
  exact h.congr rfl fun _ p _ => ⟨(hsame p).1.symm, (hsame p).2.1.symm, (hsame p).2.2.symm⟩

theorem kpause_run {v : Int32} (hme : s.currentProcess = some me)
    (hrun : Kernel.kpause e s = some (.ok v, s')) :
    Kernel.schedule e (s.paused me) = some (.ok (), s') := by
  obtain ⟨t, s₁, hget, hrun⟩ := Call.bind_eq_ok.mp hrun
  cases hget
  obtain ⟨m, s₁, hm, hrun⟩ := Call.bind_eq_ok.mp hrun
  obtain ⟨hm, hs₁⟩ := deref_eq_ok.mp hm
  obtain rfl : me = m := Option.some.inj (hme.symm.trans hm)
  rw [hs₁] at hrun
  obtain ⟨u, s₂, hset, hrun⟩ := Call.bind_eq_ok.mp hrun
  cases hset
  obtain ⟨u, s₃, hsched, hrun⟩ := Call.bind_eq_ok.mp hrun
  cases hrun
  exact hsched

theorem kept_scan (h : Kept s) (hme : s.currentProcess = some me)
    (hrun : waitScan close pid options fixup s = some (.ok r, s')) : Kept s' := by
  obtain ⟨⟨q, hq⟩, hold⟩ := h
  rcases waitScan_cases hq hme hrun with ⟨l₁, p, l₂, -, -, hdue, hreaped⟩ | ⟨-, rfl, -⟩
  · cases hreaped with
    | stopped => exact ⟨⟨q, hq⟩, hold⟩
    | zombie hz hp hprev hnext =>
        refine ⟨hq.exists_reaped hdue.1 hp hprev hnext, ?_⟩
        rw [State.reaped_switches]
        exact hold
  · exact ⟨⟨q, hq⟩, hold⟩

theorem kept_retry (h : Kept s) (hme : s.currentProcess = some me)
    (hsafe : ∀ q, s.Queues q → s.WillWait me pid options q fixup → (s.paused me).Safe e)
    (hrun : retry e close pid options fixup s = some (.ok r, s')) : Kept s' := by
  obtain ⟨q, hq⟩ := h.1
  rcases retry_cases hq hme hrun with ⟨-, hscan⟩ | ⟨-, hw, hsched⟩
  · exact kept_scan h hme hscan
  · exact kept_schedule (kept_paused h) (hsafe q hq hw) hsched

/-- **What one call keeps.** -/
theorem kept_step (h : Kept s) (hguard : Guard s call) (hstep : Step call s s') : Kept s' := by
  obtain ⟨me, hme, hstep⟩ := hstep
  cases call with
  | schedule e => exact kept_schedule h hguard hstep
  | kpause e =>
      obtain ⟨v, hrun⟩ := hstep
      exact kept_schedule (kept_paused h) (hguard me hme) (kpause_run hme hrun)
  | kkill pid signal =>
      obtain ⟨v, hrun⟩ := hstep
      obtain ⟨⟨q, hq⟩, hold⟩ := h
      have hsame := kkill_resignals hq hrun
      refine ⟨⟨q, hsame.queues hq⟩, ?_⟩
      rw [hsame.switches]
      exact hold
  | kwaitpid e close pid options =>
      obtain ⟨r, hrun⟩ := hstep
      exact kept_retry h hme (fun q hq => hguard me q hme hq) hrun
  | resume e close pid options =>
      obtain ⟨r, hrun⟩ := hstep
      rw [kwaitpidResume_eq hme] at hrun
      refine kept_retry (kept_childCleared h) hme (fun q hq => ?_) hrun
      exact hguard me q hme (queues_of_childCleared hq)

/-- **Which processes the scheduler switches to.** In every run in which the process with the
highest counter may run wherever a call comes to `schedule`, all switches were to processes that
may run; and the next call of `schedule` keeps that exactly if the process with the highest
counter may run. -/
theorem never_runs_ineligible (h : system.Reach Guard s) :
    (∀ sw ∈ s.switches, sw.Proper) ∧
      ∀ e s', Kernel.schedule e s = some (.ok (), s') →
        ((∀ sw ∈ s'.switches, sw.Proper) ↔ Guard s (schedule e)) := by
  have hkept : Kept s := h.invariant
    (fun s hs => ⟨hs.1, by rw [hs.2]; simp⟩) fun s call s' hs hg hstep => kept_step hs hg hstep
  obtain ⟨⟨q, hq⟩, hold⟩ := hkept
  exact ⟨hold, fun e s' hrun => schedule_proper hq hrun hold⟩

/-! ## A process that waits -/

/-- The table of a process that runs, the current one, and one that waits and has the higher
counter. -/
def waitingState : State :=
  State.ofList Calls.pair
    (fun p =>
      { Process.zero with
        tssSeg := 8
        eip := 1
        counter := if p = firstProcess then 1 else 5
        state := if p = firstProcess then pRunning else pInterruptible }) firstProcess

theorem waitingState_queues : waitingState.Queues (Function.update (fun _ => []) 0 Calls.pair) :=
  State.queues_ofList (by decide)

theorem waitingState_ticked {p : Ptr} (hp : p ∈ Calls.pair) :
    waitingState.ticked (Function.update (fun _ => []) 0 Calls.pair) p =
      if p = firstProcess then 0 else 4 := by
  have hmem : p ∈ State.procs (Function.update (fun _ => []) 0 Calls.pair) := by
    rw [State.procs_ofList]
    exact hp
  rw [State.ticked, if_pos hmem]
  show ((if p = firstProcess then 1 else 5 : Int32) - 1).toInt = _
  split <;> decide

theorem waitingState_chosen :
    waitingState.chosen ⟨fun _ => 0, 1⟩ (Function.update (fun _ => []) 0 Calls.pair)
      firstProcess = secondProcess := by
  have hfirst := waitingState_ticked (p := firstProcess) (by decide)
  have hsecond := waitingState_ticked (p := secondProcess) (by decide)
  rw [if_pos rfl] at hfirst
  rw [if_neg (by decide)] at hsecond
  apply State.next_iff.mp
  refine .inr ⟨⟨[firstProcess], [], ?_, ?_, ?_⟩, ?_⟩
  · rw [State.procs_ofList]
    rfl
  · intro x hx
    rw [List.mem_singleton.mp hx, hfirst, hsecond]
    omega
  · simp
  · rw [hfirst, hsecond]
    omega

/-- `schedule` switches to the process that waits, without a signal. -/
theorem schedule_runs_waiting : ∃ s', system.Reach (fun _ _ => True) waitingState ∧
    Kernel.schedule ⟨fun _ => 0, 1⟩ waitingState = some (.ok (), s') ∧
    ∃ sw ∈ s'.switches, sw.process = secondProcess ∧ sw.before.state = pInterruptible ∧
      ¬ sw.after.Pending ∧ sw.after.state = pInterruptible := by
  have hrun := @schedule_eq waitingState (Function.update (fun _ => []) 0 Calls.pair)
    ⟨fun _ => 0, 1⟩ firstProcess waitingState_queues rfl
  have hswitches : waitingState.Switches firstProcess secondProcess := by decide
  have hin : secondProcess ∈ State.procs (Function.update (fun _ => []) 0 Calls.pair) := by
    rw [State.procs_ofList]
    decide
  have hmem : (waitingState.counted ⟨fun _ => 0, 1⟩ (Function.update (fun _ => []) 0 Calls.pair)
      firstProcess).mem secondProcess = ((waitingState.mem secondProcess).alarmed 0).countDown := by
    rw [State.counted, State.update_of_ne (by decide), State.aged_of_mem hin]
  have heip : ¬ ((((waitingState.mem secondProcess).alarmed 0).countDown).entered 1).eip = 0 := by
    decide
  rw [waitingState_chosen, if_pos hswitches, switchTo_eq, hmem, if_neg heip] at hrun
  refine ⟨_, .init ⟨⟨_, waitingState_queues⟩, rfl⟩, hrun, _, List.mem_cons_self, rfl, by decide, ?_, ?_⟩
  · rw [hmem]
    decide
  · rw [hmem]
    decide

/-- The same table, where the process that waits has a signal. -/
def signalledState : State :=
  waitingState.update secondProcess fun x => { x with signal := 1 <<< sigHup }

theorem signalledState_queues :
    signalledState.Queues (Function.update (fun _ => []) 0 Calls.pair) :=
  waitingState_queues.update fun _ => ⟨rfl, rfl, rfl⟩

theorem signalledState_safe : signalledState.Safe ⟨fun _ => 0, 1⟩ := by
  intro q me p hq hme hnext _
  have hsame : ∀ x, x ∈ State.procs q ↔ x ∈ Calls.pair := by
    intro x
    rw [State.mem_procs, ← hq.queued_iff, signalledState_queues.queued_iff, ← State.mem_procs,
      State.procs_ofList]
  have hmem : p ∈ Calls.pair := by
    rcases hnext with ⟨rfl, -⟩ | hlead
    · obtain rfl : firstProcess = p := Option.some.inj hme
      decide
    · exact (hsame p).mp hlead.mem
  rcases List.mem_pair.mp hmem with rfl | rfl
  · exact ⟨by decide, by decide, fun h => absurd h (by decide)⟩
  · exact ⟨by decide, by decide, fun _ => ⟨(hsame _).mpr hmem, by decide⟩⟩

/-- Here `schedule` switches to the process that waited, which runs then. -/
theorem never_runs_ineligible_signalled : ∃ s', system.Reach Guard s' ∧
    s'.switches.map Switch.process = [secondProcess] ∧ (∀ sw ∈ s'.switches, sw.Proper) ∧
    ∀ e s'', Kernel.schedule e s' = some (.ok (), s'') →
      ((∀ sw ∈ s''.switches, sw.Proper) ↔ Guard s' (schedule e)) := by
  have hrun : ((Kernel.schedule ⟨fun _ => 0, 1⟩ signalledState).map fun r =>
      (r.1, r.2.switches.map Switch.process)) = some (.ok (), [secondProcess]) := by
    decide +kernel
  obtain ⟨⟨r, s'⟩, hrun, hswitches⟩ := Option.map_eq_some_iff.mp hrun
  obtain ⟨rfl, hswitches⟩ := Prod.ext_iff.mp hswitches
  have hreach : system.Reach Guard s' :=
    .step (c := schedule ⟨fun _ => 0, 1⟩) (.init ⟨⟨_, signalledState_queues⟩, rfl⟩)
      signalledState_safe ⟨firstProcess, rfl, hrun⟩
  exact ⟨s', hreach, hswitches, never_runs_ineligible hreach⟩

end RunCall
end OxKernel.Kernel
