import OxKernel.Kernel.Scheduler
import Mathlib

/-!
# What one call of `schedule` does

On a table whose queues are rings the three loops of `schedule` come to one change of all
processes and one choice.

## Main definitions

* `leader` — the first process with the highest counter, the current one before all others.
* `State.counted` — the state after the loops.
* `State.switched` — the state after a switch.
* `schedule_eq` — the closed form.
-/
namespace OxKernel.Kernel

open Lib (Call)

/-! ## The choice -/

section Leader
variable {α β : Type} [LinearOrder β] {c : α → β} {me p x : α} {l : List α}

/-- The choice of `schedule` from the counters. -/
def leader (c : α → β) (me : α) (l : List α) : α :=
  l.foldl (fun proc curr => if c proc < c curr then curr else proc) me

theorem leader_cons (a : α) : leader c me (a :: l) = leader c (if c me < c a then a else me) l := rfl

/-- The process `p` has the highest counter; the current one has a lower one, and so have those
before `p` in the table. -/
structure Leads (c : α → β) (me : α) (l : List α) (p : α) : Prop where
  split : ∃ l₁ l₂, l = l₁ ++ p :: l₂ ∧ (∀ x ∈ l₁, c x < c p) ∧ ∀ x ∈ l₂, c x ≤ c p
  current : c me < c p

/-- **The choice** is the current process if no counter is higher, and the process that leads
otherwise. -/
theorem leader_spec (c : α → β) (me : α) (l : List α) :
    (leader c me l = me ∧ ∀ x ∈ l, c x ≤ c me) ∨ Leads c me l (leader c me l) := by
  induction l generalizing me with
  | nil => exact .inl ⟨rfl, by simp⟩
  | cons a l ih =>
      rw [leader, List.foldl_cons]
      by_cases ha : c me < c a
      · rw [if_pos ha]
        refine .inr ?_
        rcases ih a with ⟨he, hle⟩ | hlead
        · rw [leader] at he
          rw [he]
          exact ⟨⟨[], l, rfl, by simp, hle⟩, ha⟩
        · obtain ⟨l₁, l₂, hl, hlt, hle⟩ := hlead.split
          refine ⟨⟨a :: l₁, l₂, by rw [List.cons_append, ← leader, ← hl], ?_, hle⟩,
            ha.trans hlead.current⟩
          intro x hx
          rcases List.mem_cons.mp hx with rfl | hx
          · exact hlead.current
          · exact hlt x hx
      · rw [if_neg ha]
        rcases ih me with ⟨he, hle⟩ | hlead
        · refine .inl ⟨he, fun x hx => ?_⟩
          rcases List.mem_cons.mp hx with rfl | hx
          · exact not_lt.mp ha
          · exact hle x hx
        · obtain ⟨l₁, l₂, hl, hlt, hle⟩ := hlead.split
          refine .inr ⟨⟨a :: l₁, l₂, by rw [List.cons_append, ← leader, ← hl], ?_, hle⟩,
            hlead.current⟩
          intro x hx
          rcases List.mem_cons.mp hx with rfl | hx
          · exact (not_lt.mp ha).trans_lt hlead.current
          · exact hlt x hx

/-- Only one process leads. -/
theorem Leads.leader_eq (h : Leads c me l p) : leader c me l = p := by
  obtain ⟨l₁, l₂, rfl, hlt, hle⟩ := h.split
  have hfirst : ∀ m : List α, ∀ b, c b < c p → (∀ x ∈ m, c x < c p) →
      c (m.foldl (fun proc curr => if c proc < c curr then curr else proc) b) < c p := by
    intro m
    induction m with
    | nil => exact fun b hb _ => hb
    | cons a m ih =>
        intro b hb hm
        rw [List.foldl_cons]
        apply ih
        · split
          · exact hm a List.mem_cons_self
          · exact hb
        · exact fun x hx => hm x (List.mem_cons_of_mem a hx)
  have hlast : ∀ m : List α, (∀ x ∈ m, c x ≤ c p) →
      m.foldl (fun proc curr => if c proc < c curr then curr else proc) p = p := by
    intro m
    induction m with
    | nil => exact fun _ => rfl
    | cons a m ih =>
        intro hm
        rw [List.foldl_cons, if_neg (not_lt.mpr (hm a List.mem_cons_self))]
        exact ih fun x hx => hm x (List.mem_cons_of_mem a hx)
  rw [leader, List.foldl_append, List.foldl_cons, if_pos (hfirst l₁ me h.current hlt)]
  exact hlast l₂ hle

theorem Leads.mem (h : Leads c me l p) : p ∈ l := by
  obtain ⟨l₁, l₂, rfl, -⟩ := h.split
  simp

end Leader

/-! ## The loops -/

section Loops
variable {s : State} {q : Fin nrPriority → List Ptr} {e : Env} {me p x : Ptr}

/-- A loop that changes each process in its own way. -/
theorem eachProcess_update (h : s.Queues q) {f : Ptr → Process → Process}
    (hf : ∀ p x, (f p x).next = x.next ∧ (f p x).prev = x.prev ∧ (f p x).priority = x.priority) :
    eachProcess id (fun p => Call.modify fun s => s.update p (f p)) s =
      some (.ok (), s.updateAll (State.procs q) f) := by
  refine (eachProcess_eq (P := fun s : State => s.Queues q)
    (f := fun p (s : State) => s.update p (f p)) (fun s hs => hs)
    (fun i p _ s hs => ⟨rfl, hs.update (hf p)⟩) h).trans ?_
  rw [State.foldl_update h.nodup]

theorem choose_run (h : s.Queues q) (me : Ptr) :
    choose me s =
      some (.ok (leader (fun p => (s.mem p).counter.toInt) me (State.procs q)), s) := by
  have hloop : eachProcess Prod.fst (fun curr => Call.modify fun t : State × Ptr =>
        if (t.1.mem t.2).counter < (t.1.mem curr).counter then (t.1, curr) else (t.1, t.2)) (s, me) =
      some (.ok (), (State.procs q).foldl (fun t curr =>
        if (t.1.mem t.2).counter < (t.1.mem curr).counter then (t.1, curr) else (t.1, t.2))
        (s, me)) := by
    refine eachProcess_eq (P := fun t : State × Ptr => t.1 = s) (fun t ht => ht ▸ h)
      (fun i p _ t ht => ⟨rfl, ?_⟩) rfl
    exact (apply_ite Prod.fst _ _ _).trans (ite_self _ |>.trans ht)
  have hfold : ∀ (l : List Ptr) (me : Ptr),
      l.foldl (fun t curr =>
        if (t.1.mem t.2).counter < (t.1.mem curr).counter then (t.1, curr) else (t.1, t.2)) (s, me) =
        (s, leader (fun p => (s.mem p).counter.toInt) me l) := by
    intro l
    induction l with
    | nil => exact fun me => rfl
    | cons a l ih =>
        intro me
        rw [List.foldl_cons, leader_cons]
        by_cases ha : (s.mem me).counter < (s.mem a).counter
        · rw [if_pos ha, if_pos (Int32.lt_iff_toInt_lt.mp ha)]
          exact ih a
        · rw [if_neg ha, if_neg (mt Int32.lt_iff_toInt_lt.mpr ha)]
          exact ih me
  rw [hfold] at hloop
  exact Call.bind_of_ok (Call.withLocal_of_ok hloop)

end Loops

/-! ## The closed form -/

/-- A field that the first loop does not change. -/
theorem Process.alarmed_field {α : Type} (g : Process → α) (x : Process) (now : Int32)
    (hsignal : ∀ y u v, g { y with signal := u, alarm := v } = g y)
    (hstate : ∀ y v, g { y with state := v } = g y) : g (x.alarmed now) = g x := by
  have hpost : g (x.postAlarm now) = g x := by
    rw [postAlarm]
    split
    · exact hsignal x _ _
    · rfl
  rw [alarmed, wake]
  split
  · exact (hstate _ _).trans hpost
  · exact hpost

/-- A process that `schedule` switches to. -/
def Process.entered (kstart : UInt32) (x : Process) : Process :=
  { (if x.firstExec = 1 then { x with eip := kstart } else x) with firstExec := 2 }

/-- The mode of the switch. -/
def Process.mode (x : Process) : Int32 := if x.firstExec = 0 ∨ x.firstExec = 1 then 1 else 0

namespace State
variable {s s' : State} {q : Fin nrPriority → List Ptr} {e : Env} {me p x : Ptr}

/-- The state after the first two loops. -/
def aged (s : State) (e : Env) (q : Fin nrPriority → List Ptr) : State :=
  (s.updateAll (procs q) fun p x => x.alarmed (e.ktime p)).updateAll (procs q)
    fun _ => Process.countDown

/-- The process that `schedule` goes on with. -/
def chosen (s : State) (e : Env) (q : Fin nrPriority → List Ptr) (me : Ptr) : Ptr :=
  leader (fun p => ((s.aged e q).mem p).counter.toInt) me (procs q)

/-- The state after the loops and the last step of the current process's counter. -/
def counted (s : State) (e : Env) (q : Fin nrPriority → List Ptr) (me : Ptr) : State :=
  (s.aged e q).update me Process.countDown

/-- The condition for a switch. -/
def Switches (s : State) (me proc : Ptr) : Prop :=
  s.firstTime ≠ 0 ∨ (proc ≠ me ∧ (s.mem me).tssSeg ≠ 0)

instance (s : State) (me proc : Ptr) : Decidable (s.Switches me proc) :=
  inferInstanceAs (Decidable (_ ∨ _))

/-- The state after a switch. -/
def switched (s : State) (e : Env) (me proc : Ptr) (before : Process) : State :=
  { s.update proc (Process.entered e.kstart) with
    previousProcess := some me
    currentProcess := some proc
    firstTime := 0
    switches := ⟨proc, before, (s.mem proc).entered e.kstart, (s.mem proc).mode⟩ :: s.switches }

theorem aged_of_mem (h : p ∈ procs q) :
    (s.aged e q).mem p = ((s.mem p).alarmed (e.ktime p)).countDown := by
  rw [aged, updateAll_of_mem h, updateAll_of_mem h]

theorem aged_of_not_mem (h : p ∉ procs q) : (s.aged e q).mem p = s.mem p := by
  rw [aged, updateAll_of_not_mem h, updateAll_of_not_mem h]

theorem Queues.alarmedAll (h : s.Queues q) :
    (s.updateAll (procs q) fun p x => x.alarmed (e.ktime p)).Queues q :=
  h.updateAll fun _ x => ⟨x.alarmed_field _ _ (fun _ _ _ => rfl) fun _ _ => rfl,
    x.alarmed_field _ _ (fun _ _ _ => rfl) fun _ _ => rfl,
    x.alarmed_field _ _ (fun _ _ _ => rfl) fun _ _ => rfl⟩

theorem Queues.aged (h : s.Queues q) : (s.aged e q).Queues q :=
  (h.alarmedAll).updateAll fun _ _ => ⟨rfl, rfl, rfl⟩

theorem Queues.counted (h : s.Queues q) : (s.counted e q me).Queues q :=
  h.aged.update fun _ => ⟨rfl, rfl, rfl⟩

theorem Queues.switched {before : Process} (h : s.Queues q) :
    (s.switched e me p before).Queues q := by
  have hupdate : (s.update p (Process.entered e.kstart)).Queues q := by
    refine h.update fun x => ?_
    rw [Process.entered]
    split
    · exact ⟨rfl, rfl, rfl⟩
    · exact ⟨rfl, rfl, rfl⟩
  exact hupdate.congr rfl fun _ _ _ => ⟨rfl, rfl, rfl⟩

end State

section Schedule
variable {s s' : State} {q : Fin nrPriority → List Ptr} {e : Env} {me p x : Ptr} {before : Process}

/-- The state in which `schedule` looks at the instruction pointer. -/
def State.entering (s : State) (e : Env) (me proc : Ptr) : State :=
  ({ s with
    previousProcess := some me
    currentProcess := some proc }).update proc (Process.entered e.kstart)

/-- A switch to a process with code. -/
theorem switchTo_eq : switchTo e me p before s =
    if ((s.mem p).entered e.kstart).eip = 0 then
      some (.error (.panic "error current_process->p_tss.eip == 0x0\n"), s.entering e me p)
    else some (.ok (), s.switched e me p before) := by
  have hlook : (do
      let t ← Call.get
      if (t.mem p).eip = 0 then panic "error current_process->p_tss.eip == 0x0\n"
      else Call.modify fun t =>
        { t with
          firstTime := 0
          switches := ⟨p, before, t.mem p, (s.mem p).mode⟩ :: t.switches } : KernelM Unit)
        (s.entering e me p) =
      if ((s.mem p).entered e.kstart).eip = 0 then
        some (.error (.panic "error current_process->p_tss.eip == 0x0\n"), s.entering e me p)
      else some (.ok (), s.switched e me p before) := by
    have hmem : (s.entering e me p).mem p = (s.mem p).entered e.kstart := State.update_self
    refine (Call.bind_of_ok rfl).trans ?_
    rw [hmem]
    by_cases heip : ((s.mem p).entered e.kstart).eip = 0
    · rw [if_pos heip, if_pos heip]
      rfl
    · rw [if_neg heip, if_neg heip, Call.modify_apply, hmem]
      rfl
  have hstart : ∀ {f : Process → Process}, f (s.mem p) = (s.mem p).entered e.kstart →
      ({ s with
        previousProcess := some me
        currentProcess := some p } : State).update p f = s.entering e me p := fun h =>
    State.update_congr h
  refine (Call.bind_of_ok rfl).trans ?_
  refine (Call.bind_of_ok rfl).trans ?_
  by_cases hfirst : (s.mem p).firstExec = 1
  · rw [if_pos hfirst]
    refine (Call.bind_of_ok rfl).trans ?_
    refine (Call.bind_of_ok rfl).trans ?_
    refine (congrArg _ (State.update_update.trans (hstart ?_))).trans hlook
    rw [Process.entered, if_pos hfirst]
  · rw [if_neg hfirst]
    refine (Call.bind_of_ok rfl).trans ?_
    refine (congrArg _ (hstart ?_)).trans hlook
    rw [Process.entered, if_neg hfirst]

/-- **One call of `schedule`.** -/
theorem schedule_eq (h : s.Queues q) (hme : s.currentProcess = some me) :
    schedule e s =
      if s.Switches me (s.chosen e q me) then
        switchTo e me (s.chosen e q me) (s.mem (s.chosen e q me)) (s.counted e q me)
      else some (.ok (), s.counted e q me) := by
  have htss : ((s.counted e q me).mem me).tssSeg = (s.mem me).tssSeg := by
    rw [State.counted, State.update_self]
    by_cases hme : me ∈ State.procs q
    · rw [State.aged_of_mem hme]
      exact Process.alarmed_field Process.tssSeg _ _ (fun _ _ _ => rfl) fun _ _ => rfl
    · rw [State.aged_of_not_mem hme]
      rfl
  refine (Call.bind_of_ok rfl).trans ?_
  rw [hme]
  refine (Call.bind_of_ok (eachProcess_update h fun p x => ?_)).trans ?_
  · exact ⟨x.alarmed_field _ _ (fun _ _ _ => rfl) fun _ _ => rfl,
      x.alarmed_field _ _ (fun _ _ _ => rfl) fun _ _ => rfl,
      x.alarmed_field _ _ (fun _ _ _ => rfl) fun _ _ => rfl⟩
  · refine (Call.bind_of_ok (eachProcess_update (f := fun _ => Process.countDown) h.alarmedAll
      fun _ _ => ⟨rfl, rfl, rfl⟩)).trans ?_
    refine (Call.bind_of_ok (choose_run h.aged me)).trans ?_
    refine (Call.bind_of_ok rfl).trans ?_
    refine (Call.bind_of_ok rfl).trans ?_
    show (if s.firstTime ≠ 0 ∨ (s.chosen e q me ≠ me ∧ ((s.counted e q me).mem me).tssSeg ≠ 0) then
      switchTo e me (s.chosen e q me) (s.mem (s.chosen e q me)) else pure () : KernelM Unit)
      (s.counted e q me) = _
    rw [htss]
    by_cases hs : s.Switches me (s.chosen e q me)
    · rw [if_pos hs]
      exact congrFun (if_pos hs) _
    · rw [if_neg hs]
      exact congrFun (if_neg hs) _

/-- A call of `schedule` that returns. -/
theorem schedule_cases (h : s.Queues q) (hme : s.currentProcess = some me)
    (hrun : schedule e s = some (.ok (), s')) :
    (¬ s.Switches me (s.chosen e q me) ∧ s' = s.counted e q me) ∨
      (s.Switches me (s.chosen e q me) ∧
        s' = (s.counted e q me).switched e me (s.chosen e q me) (s.mem (s.chosen e q me))) := by
  rw [schedule_eq h hme] at hrun
  by_cases hs : s.Switches me (s.chosen e q me)
  · rw [if_pos hs, switchTo_eq] at hrun
    refine .inr ⟨hs, ?_⟩
    split at hrun
    · cases hrun
    · cases hrun
      rfl
  · rw [if_neg hs] at hrun
    cases hrun
    exact .inl ⟨hs, rfl⟩

/-- A field that a switch does not change. -/
theorem Process.entered_field {α : Type} (g : Process → α) {y : Process} {kstart : UInt32}
    (hexec : ∀ y u v, g { y with eip := u, firstExec := v } = g y) :
    g (y.entered kstart) = g y := by
  rw [entered]
  split
  · exact hexec y _ _
  · exact hexec y y.eip _

/-- The current process when `schedule` returns. -/
theorem schedule_current (hrun : schedule e s = some (.ok (), s')) :
    ∃ me, s.currentProcess = some me := by
  cases hme : s.currentProcess with
  | none =>
      have hfail : schedule e s = some (.error (.panic "current_process is null\n"), s) := by
        refine (Call.bind_of_ok rfl).trans ?_
        rw [hme]
        rfl
      rw [hfail] at hrun
      cases hrun
  | some me => exact ⟨me, rfl⟩

/-- What `schedule` makes of a field that is neither the counter nor part of a switch. -/
theorem schedule_field {α : Type} (g : Process → α) (h : s.Queues q)
    (hcounter : ∀ y v, g { y with counter := v } = g y)
    (hexec : ∀ y u v, g { y with eip := u, firstExec := v } = g y)
    (hrun : schedule e s = some (.ok (), s')) (x : Ptr) :
    g (s'.mem x) =
      g (if x ∈ State.procs q then (s.mem x).alarmed (e.ktime x) else s.mem x) := by
  obtain ⟨me, hme⟩ := schedule_current hrun
  have hage : g ((s.aged e q).mem x) =
      g (if x ∈ State.procs q then (s.mem x).alarmed (e.ktime x) else s.mem x) := by
    by_cases hx : x ∈ State.procs q
    · rw [State.aged_of_mem hx, if_pos hx]
      exact hcounter _ _
    · rw [State.aged_of_not_mem hx, if_neg hx]
  have hcounted : g ((s.counted e q me).mem x) =
      g (if x ∈ State.procs q then (s.mem x).alarmed (e.ktime x) else s.mem x) :=
    (State.update_field g fun y => hcounter y _).trans hage
  rcases schedule_cases h hme hrun with ⟨-, rfl⟩ | ⟨-, rfl⟩
  · exact hcounted
  · exact (State.update_field g fun y => Process.entered_field g hexec).trans hcounted

/-- `schedule` leaves the queues as they are. -/
theorem schedule_queues (h : s.Queues q) (hrun : schedule e s = some (.ok (), s')) :
    s'.Queues q := by
  obtain ⟨me, hme⟩ := schedule_current hrun
  rcases schedule_cases h hme hrun with ⟨-, rfl⟩ | ⟨-, rfl⟩
  · exact h.counted
  · exact h.counted.switched

end Schedule
end OxKernel.Kernel
