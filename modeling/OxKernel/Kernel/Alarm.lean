import OxKernel.Kernel.Balance
import OxKernel.Lib.Reach

/-!
# Alarms

The system call stores the start and the length of an alarm, and `schedule` compares them with
the clock. Beside the kernel runs a plain timer, which holds the deadline of each alarm that
was set and has not gone off.

## Main definitions

* `sysAlarm` — the system call.
* `Timers` — the kernel and the deadlines.
* `Timers.Due` — the alarms that go off in a call of `schedule`.
* `Timers.Posted` — what the call makes of a process when exactly these go off.
-/
namespace OxKernel.Kernel

open Lib (Call)

/-- `sys_alarm`, at the time `now`. -/
def sysAlarm (seconds : UInt32) (now : Int32) : KernelM UInt32 := do
  let s ← Call.get
  let me ← deref s.currentProcess
  let oldAlarm := (s.mem me).alarm.toUInt32
  Call.modify fun s => s.update me fun x => { x with alarm := seconds.toInt32 }
  Call.modify fun s => s.update me fun x => { x with startTime := now }
  pure oldAlarm

/-- The deadline of the alarm of a process. -/
def Process.deadline (x : Process) : Option Int32 :=
  if x.alarm = 0 then none else some (x.alarm + x.startTime)

/-- The kernel, and the deadlines of the alarms that have not gone off. -/
structure Timers where
  state : State
  armed : Ptr → Option Int32

/-- A system call of the current process, or a call of `schedule`. -/
inductive AlarmCall
  | alarm (seconds : UInt32) (now : Int32)
  | schedule (e : Env)

namespace Timers
variable (c : Timers) (e : Env) (p : Ptr)

/-- The alarm of the process goes off: the clock has come to its deadline. -/
def Due : Prop := ∃ d, c.armed p = some d ∧ d ≤ e.ktime p

/-- What a call of `schedule` makes of the process: it posts the signal and takes the alarm
back if the alarm is due, and does neither otherwise. -/
def Posted (s' : State) : Prop :=
  (c.Due e p → (s'.mem p).signal = (c.state.mem p).signal ||| 1 <<< sigAlrm ∧
    (s'.mem p).alarm = 0) ∧
  (¬ c.Due e p → (s'.mem p).signal = (c.state.mem p).signal ∧
    (s'.mem p).alarm = (c.state.mem p).alarm)

/-- The kernel has the deadlines of the timer. -/
def Agree : Prop := ∀ p, c.armed p = (c.state.mem p).deadline

end Timers

namespace AlarmCall

/-- A call in the kernel and in the timer. -/
def Step : AlarmCall → Timers → Timers → Prop
  | alarm seconds now, c, c' => ∃ me old, c.state.currentProcess = some me ∧
    sysAlarm seconds now c.state = some (.ok old, c'.state) ∧
    c'.armed = Function.update c.armed me
      (if seconds.toInt32 = 0 then none else some (seconds.toInt32 + now))
  | schedule e, c, c' => Kernel.schedule e c.state = some (.ok (), c'.state) ∧
    ∀ p, (c.state.Queued p ∧ c.Due e p → c'.armed p = none) ∧
      (¬ (c.state.Queued p ∧ c.Due e p) → c'.armed p = c.armed p)

/-- The clock stands at the deadline of each alarm that is set. -/
def AtDeadline (c : Timers) : AlarmCall → Prop
  | alarm _ _ => True
  | schedule e => ∀ p, c.state.Queued p → ∀ d, c.armed p = some d → e.ktime p = d

/-- The runs from any table with any alarms. -/
def system : Lib.System Timers AlarmCall where
  init c := (∃ q, c.state.Queues q) ∧ c.Agree
  step := Step

variable {c c' : Timers} {q : Fin nrPriority → List Ptr} {e : Env} {me p : Ptr} {s s' : State}

/-- What `schedule` makes of the alarm of a process. -/
theorem schedule_alarm (h : s.Queues q) (hrun : Kernel.schedule e s = some (.ok (), s')) (p : Ptr) :
    (s'.mem p).startTime = (s.mem p).startTime ∧
      ((s'.mem p).signal, (s'.mem p).alarm) =
        if p ∈ State.procs q ∧ (s.mem p).AlarmTest (e.ktime p) then
          ((s.mem p).signal ||| 1 <<< sigAlrm, 0)
        else ((s.mem p).signal, (s.mem p).alarm) := by
  have hwake : ∀ y : Process, (y.wake.signal, y.wake.alarm) = (y.signal, y.alarm) := by
    intro y
    rw [Process.wake]
    split <;> rfl
  constructor
  · rw [schedule_field Process.startTime h (fun _ _ => rfl) (fun _ _ _ => rfl) hrun]
    split
    · exact Process.alarmed_field Process.startTime _ _ (fun _ _ _ => rfl) fun _ _ => rfl
    · rfl
  · rw [schedule_field (fun y => (y.signal, y.alarm)) h (fun _ _ => rfl) (fun _ _ _ => rfl) hrun p]
    by_cases hp : p ∈ State.procs q
    · rw [if_pos hp, Process.alarmed, hwake, Process.postAlarm]
      by_cases ht : (s.mem p).AlarmTest (e.ktime p)
      · rw [if_pos ht, if_pos ⟨hp, ht⟩]
      · rw [if_neg ht, if_neg fun hn => ht hn.2]
    · rw [if_neg hp, if_neg fun hn => hp hn.1]

/-- The test of `schedule`, in terms of the timer. -/
theorem alarmTest_iff (h : c.Agree) : (c.state.mem p).AlarmTest (e.ktime p) ↔
    ∃ d, c.armed p = some d ∧ e.ktime p ≤ d := by
  rw [h p, Process.deadline, Process.AlarmTest]
  by_cases halarm : (c.state.mem p).alarm = 0
  · simp [halarm]
  · rw [if_neg halarm]
    constructor
    · rintro ⟨-, ht⟩
      exact ⟨_, rfl, ht⟩
    · rintro ⟨d, hd, ht⟩
      cases hd
      exact ⟨halarm, ht⟩

theorem alarm_ne_zero (h : c.Agree) {d : Int32} (hd : c.armed p = some d) :
    (c.state.mem p).alarm ≠ 0 := by
  intro halarm
  rw [h p, Process.deadline, if_pos halarm] at hd
  cases hd

/-- **The alarms of one call** go off as they should if and only if the clock stands at the
deadline of each alarm that is set. -/
theorem posted_iff (h : c.Agree) (hq : c.state.Queues q)
    (hrun : Kernel.schedule e c.state = some (.ok (), s')) :
    (∀ p, c.state.Queued p → c.Posted e p s') ↔ AtDeadline c (schedule e) := by
  have hmem : ∀ p, c.state.Queued p ↔ p ∈ State.procs q := fun p =>
    hq.queued_iff.trans State.mem_procs.symm
  constructor
  · intro hposted p hp d hd
    have hresult := (schedule_alarm hq hrun p).2
    have hne := alarm_ne_zero h hd
    obtain ⟨hdue, hnot⟩ := hposted p hp
    by_cases hlate : d ≤ e.ktime p
    · -- The alarm is due, so the call has taken it back, and its test came out true.
      have hzero := (hdue ⟨d, hd, hlate⟩).2
      by_cases ht : (c.state.mem p).AlarmTest (e.ktime p)
      · obtain ⟨d', hd', hle⟩ := (alarmTest_iff h).mp ht
        rw [hd] at hd'
        cases hd'
        exact Int32.le_antisymm hle hlate
      · rw [if_neg fun hn => ht hn.2] at hresult
        rw [(Prod.mk.inj hresult).2] at hzero
        exact absurd hzero hne
    · -- The alarm is not due, but the test holds.
      have hearly : ¬ c.Due e p := by
        rintro ⟨d', hd', hle⟩
        rw [hd] at hd'
        cases hd'
        exact hlate hle
      have hkeep := (hnot hearly).2
      have ht : (c.state.mem p).AlarmTest (e.ktime p) :=
        (alarmTest_iff h).mpr ⟨d, hd, (Int32.le_total _ _).resolve_right hlate⟩
      rw [if_pos ⟨(hmem p).mp hp, ht⟩] at hresult
      rw [(Prod.mk.inj hresult).2] at hkeep
      exact absurd hkeep.symm hne
  · intro hat p hp
    have hresult := (schedule_alarm hq hrun p).2
    have hiff : (c.state.mem p).AlarmTest (e.ktime p) ↔ c.Due e p := by
      rw [alarmTest_iff h]
      constructor
      · rintro ⟨d, hd, -⟩
        exact ⟨d, hd, by rw [hat p hp d hd]; exact Int32.le_refl d⟩
      · rintro ⟨d, hd, -⟩
        exact ⟨d, hd, by rw [hat p hp d hd]; exact Int32.le_refl d⟩
    constructor
    · intro hdue
      rw [if_pos ⟨(hmem p).mp hp, hiff.mpr hdue⟩] at hresult
      exact Prod.mk.inj hresult
    · intro hdue
      rw [if_neg fun hn => hdue (hiff.mp hn.2)] at hresult
      exact Prod.mk.inj hresult

theorem sysAlarm_run {seconds : UInt32} {now : Int32} (hme : s.currentProcess = some me) :
    sysAlarm seconds now s = some (.ok (s.mem me).alarm.toUInt32,
      s.update me fun x => { x with alarm := seconds.toInt32, startTime := now }) := by
  refine (Call.bind_of_ok rfl).trans ?_
  rw [hme]
  refine (Call.bind_of_ok rfl).trans ?_
  refine (Call.bind_of_ok rfl).trans ?_
  refine (Call.bind_of_ok rfl).trans ?_
  exact congrArg (pure (s.mem me).alarm.toUInt32 : KernelM UInt32) State.update_update

/-- The timer stays in step with the kernel. -/
theorem agree_step {call : AlarmCall} (hq : ∃ q, c.state.Queues q) (h : c.Agree)
    (hat : AtDeadline c call) (hstep : Step call c c') :
    (∃ q, c'.state.Queues q) ∧ c'.Agree := by
  obtain ⟨q, hq⟩ := hq
  cases call with
  | alarm seconds now =>
      obtain ⟨me, old, hme, hrun, harmed⟩ := hstep
      have hs : c'.state = c.state.update me fun x =>
          { x with alarm := seconds.toInt32, startTime := now } := by
        rw [sysAlarm_run hme] at hrun
        exact (Prod.mk.inj (Option.some.inj hrun)).2.symm
      refine ⟨⟨q, hs ▸ hq.update fun _ => ⟨rfl, rfl, rfl⟩⟩, fun p => ?_⟩
      rw [harmed, hs]
      by_cases hp : p = me
      · rw [hp, Function.update_self, State.update_self]
        rfl
      · rw [Function.update_of_ne hp, State.update_of_ne hp]
        exact h p
  | schedule e =>
      obtain ⟨hrun, harmed⟩ := hstep
      refine ⟨⟨q, schedule_queues hq hrun⟩, fun p => ?_⟩
      obtain ⟨hdue, hnot⟩ := harmed p
      obtain ⟨hstart, hresult⟩ := schedule_alarm hq hrun p
      by_cases hp : c.state.Queued p
      · obtain ⟨hposted, hkept⟩ := (posted_iff h hq hrun).mpr hat p hp
        by_cases hd : c.Due e p
        · rw [hdue ⟨hp, hd⟩, Process.deadline, if_pos (hposted hd).2]
        · rw [hnot fun hn => hd hn.2, h p, Process.deadline, Process.deadline, (hkept hd).2, hstart]
      · rw [if_neg fun hn => hp (hq.queued_iff.mpr (State.mem_procs.mp hn.1))] at hresult
        rw [hnot fun hn => hp hn.1, h p, Process.deadline, Process.deadline,
          (Prod.mk.inj hresult).2, hstart]

/-- **Alarms.** In every run in which the clock stands at the deadline of each alarm that is set
when `schedule` is called, the signal is posted exactly at the first call that comes at or after
the deadline, once for each alarm; and a further call posts the signals it should if and only if
the clock stands there again. -/
theorem alarms_go_off {c : Timers} (h : system.Reach AtDeadline c) :
    c.Agree ∧ ∀ e s', Kernel.schedule e c.state = some (.ok (), s') →
      ((∀ p, c.state.Queued p → c.Posted e p s') ↔ AtDeadline c (schedule e)) := by
  have hinv : (∃ q, c.state.Queues q) ∧ c.Agree :=
    h.invariant (P := fun c => (∃ q, c.state.Queues q) ∧ c.Agree) (fun c hc => hc)
      fun c call c' hc hat hstep => agree_step hc.1 hc.2 hat hstep
  obtain ⟨⟨q, hq⟩, hagree⟩ := hinv
  exact ⟨hagree, fun e s' hrun => posted_iff hagree hq hrun⟩

/-! ## An alarm of ten seconds -/

/-- The table of two processes, the current one with an alarm of 10 seconds set at 100. -/
def alarmState : State :=
  Calls.pairState.update firstProcess fun x => { x with alarm := 10, startTime := 100 }

def alarmTimers : Timers :=
  ⟨alarmState, Function.update (fun _ => none) firstProcess (some 110)⟩

theorem reach_alarmTimers : system.Reach AtDeadline alarmTimers := by
  have hstart : system.Reach AtDeadline ⟨Calls.pairState, fun _ => none⟩ :=
    .init ⟨⟨_, Calls.runnable_pairState.queues⟩, fun _ => rfl⟩
  exact hstart.step (c := alarm 10 100) trivial ⟨firstProcess, _, rfl, sysAlarm_run rfl, rfl⟩

theorem runnable_alarmState :
    Runnable (Function.update (fun _ => []) 0 Calls.pair) alarmState firstProcess where
  queues := Calls.runnable_pairState.queues.update fun _ => ⟨rfl, rfl, rfl⟩
  current := rfl
  mem := Calls.runnable_pairState.mem
  tss p hp := by
    have htss : (alarmState.mem p).tssSeg = (Calls.pairState.mem p).tssSeg :=
      State.update_field Process.tssSeg fun _ => rfl
    rw [htss]
    exact Calls.runnable_pairState.tss p hp
  eip p hp := by
    have heip : (alarmState.mem p).eip = (Calls.pairState.mem p).eip :=
      State.update_field Process.eip fun _ => rfl
    rw [heip]
    exact Calls.runnable_pairState.eip p hp

theorem schedule_alarmState (now : Int32) :
    ∃ s', Kernel.schedule ⟨fun _ => now, 1⟩ alarmState = some (.ok (), s') := by
  have hw : NoWrap (Function.update (fun _ => []) 0 Calls.pair) alarmState := by
    intro p _
    have hcount : alarmState.count p = (1048576 : Int32).toInt :=
      State.update_field (fun y => y.counter.toInt) fun _ => rfl
    have hvalue : (1048576 : Int32).toInt = 1048576 := by decide
    rw [hcount, hvalue]
    split <;> omega
  obtain ⟨s', -, hrun, -⟩ := schedule_ticks (e := ⟨fun _ => now, 1⟩) runnable_alarmState hw
    (show (1 : UInt32) ≠ 0 by decide)
  exact ⟨s', hrun⟩

/-- One second after it was set the alarm of ten seconds goes off. -/
theorem alarm_goes_off_early : ∃ s',
    system.Reach (fun _ _ => True) alarmTimers ∧
      Kernel.schedule ⟨fun _ => 101, 1⟩ alarmTimers.state = some (.ok (), s') ∧
      alarmTimers.armed firstProcess = some 110 ∧
      (s'.mem firstProcess).signal = (alarmState.mem firstProcess).signal ||| 1 <<< sigAlrm ∧
      (s'.mem firstProcess).alarm = 0 := by
  obtain ⟨s', hrun⟩ := schedule_alarmState 101
  have hresult := (schedule_alarm runnable_alarmState.queues hrun firstProcess).2
  have hmem : alarmState.mem firstProcess = 
      { Calls.pairState.mem firstProcess with alarm := 10, startTime := 100 } := State.update_self
  have htest : (alarmState.mem firstProcess).AlarmTest 101 := by
    rw [hmem]
    show (10 : Int32) ≠ 0 ∧ (10 : Int32) + 100 ≥ 101
    decide
  rw [if_pos ⟨runnable_alarmState.mem, htest⟩] at hresult
  exact ⟨s', reach_alarmTimers.mono fun _ _ _ => trivial, hrun, by simp [alarmTimers],
    (Prod.mk.inj hresult).1, (Prod.mk.inj hresult).2⟩

theorem alarms_go_off_at_deadline : ∃ c s',
    Kernel.schedule ⟨fun _ => 110, 1⟩ c.state = some (.ok (), s') ∧ c.state = alarmState ∧
      ((∀ p, c.state.Queued p → c.Posted ⟨fun _ => 110, 1⟩ p s') ↔
        AtDeadline c (schedule ⟨fun _ => 110, 1⟩)) := by
  obtain ⟨s', hrun⟩ := schedule_alarmState 110
  exact ⟨alarmTimers, s', hrun, rfl, (alarms_go_off reach_alarmTimers).2 _ s' hrun⟩

end AlarmCall
end OxKernel.Kernel
