import OxKernel.Kernel.Exit
import OxKernel.Kernel.ForkRuns
import OxKernel.Kernel.ScheduleSpec

/-!
# What one call of `kwaitpid` does

The loop of `kwaitpid` stops at the first child that is due: a zombie, or a stopped one if the
caller asks for it. A child that is neither makes the caller wait.

## Main definitions

* `State.Due`, `State.Alive` — the children that end the loop, and those to wait for.
* `State.WillWait` — the condition for the call of `schedule`.
* `State.reaped` — the state after a zombie is freed.
* `waitScan_cases` — the results of the loop.
-/
namespace OxKernel.Kernel

open Lib (Call)

namespace State
variable (s : State) (me : Ptr) (pid options : Int32) (p : Ptr)

/-- A child that ends the loop of `kwaitpid`. -/
def Due : Prop :=
  p ≠ me ∧ (s.mem p).SelectedBy pid (s.mem me) ∧
    (((s.mem p).state = pStopped ∧ options &&& wUntraced ≠ 0) ∨ (s.mem p).state = pZombie)

/-- A child to wait for. -/
def Alive : Prop :=
  p ≠ me ∧ (s.mem p).SelectedBy pid (s.mem me) ∧ (s.mem p).state ≠ pStopped ∧
    (s.mem p).state ≠ pZombie

instance : Decidable (s.Due me pid options p) := inferInstanceAs (Decidable (_ ∧ _))
instance : Decidable (s.Alive me pid p) := inferInstanceAs (Decidable (_ ∧ _))

/-- `kwaitpid` comes to the call of `schedule`; `fixup` is set if it was there before. -/
def WillWait (q : Fin nrPriority → List Ptr) (fixup : Bool) : Prop :=
  (∀ p ∈ procs q, ¬ s.Due me pid options p) ∧
    (fixup = true ∨ ∃ p ∈ procs q, s.Alive me pid p) ∧ options &&& wNoHang = 0

/-- The times of a zombie are added to those of its parent. -/
def charged : State :=
  s.update me fun x =>
    { x with cutime := x.cutime + (s.mem p).utime, cstime := x.cstime + (s.mem p).stime }

/-- The state after a zombie is freed. -/
def reaped (close : Process → Tables) (before behind : Ptr) (i : Fin nrPriority) : State :=
  ((s.charged me p).closed close p).freed p before behind i

end State

section Scan
variable {s s' : State} {q : Fin nrPriority → List Ptr} {me p x before behind : Ptr}
  {close : Process → Tables} {pid options : Int32} {fixup : Bool} {r : WaitResult}
  {i : Fin nrPriority}

/-- One process in the loop, in the cases of the source. -/
theorem waitStep_eq (hme : s.currentProcess = some me) :
    waitStep close pid options p (s, fixup) =
      (if p = me then pure none
      else if ¬ (s.mem p).SelectedBy pid (s.mem me) then pure none
      else if (s.mem p).state = pStopped then
        if options &&& wUntraced = 0 then pure none
        else pure (some ((s.mem p).pid, 0x7F))
      else if (s.mem p).state = pZombie then do
        Call.modify fun (s, fixup) => (s.charged me p, fixup)
        let (s, _) ← Call.get
        Call.lift (freeProcess close (some p))
        pure (some ((s.mem p).pid, (s.mem p).exitCode))
      else do
        Call.modify fun (s, _) => (s, true)
        pure none : Call Stop (State × Bool) (Option (Int32 × Int32))) (s, fixup) := by
  refine (Call.bind_of_ok rfl).trans ?_
  refine (Call.bind_of_ok (Call.lift_of_ok (deref_run hme s))).trans ?_
  rfl

/-- A process that does not end the loop. -/
theorem waitStep_quiet (hme : s.currentProcess = some me) (h : ¬ s.Due me pid options p) :
    waitStep close pid options p (s, fixup) =
      some (.ok none, (s, fixup || decide (s.Alive me pid p))) := by
  have hsame : ¬ s.Alive me pid p → (some (.ok none, (s, fixup)) : Option (Except Stop _ × _)) =
      some (.ok (none : Option (Int32 × Int32)), (s, fixup || decide (s.Alive me pid p))) := by
    intro hnot
    rw [decide_eq_false hnot, Bool.or_false]
  rw [waitStep_eq hme]
  by_cases hp : p = me
  · rw [if_pos hp]
    exact hsame fun ha => ha.1 hp
  rw [if_neg hp]
  by_cases hsel : (s.mem p).SelectedBy pid (s.mem me)
  · rw [if_neg (not_not.mpr hsel)]
    by_cases hstop : (s.mem p).state = pStopped
    · rw [if_pos hstop]
      have huntraced : options &&& wUntraced = 0 := by
        by_contra hne
        exact h ⟨hp, hsel, .inl ⟨hstop, hne⟩⟩
      rw [if_pos huntraced]
      exact hsame fun ha => ha.2.2.1 hstop
    · rw [if_neg hstop]
      have hzombie : ¬ (s.mem p).state = pZombie := fun hz => h ⟨hp, hsel, .inr hz⟩
      have halive : s.Alive me pid p := ⟨hp, hsel, hstop, hzombie⟩
      rw [if_neg hzombie, decide_eq_true halive, Bool.or_true]
      rfl
  · rw [if_pos hsel]
    exact hsame fun ha => hsel ha.2.1

/-- A stopped child. -/
theorem waitStep_stopped (hme : s.currentProcess = some me) (h : s.Due me pid options p)
    (hstop : (s.mem p).state = pStopped) : waitStep close pid options p (s, fixup) =
      some (.ok (some ((s.mem p).pid, 0x7F)), (s, fixup)) := by
  have huntraced : ¬ options &&& wUntraced = 0 := by
    rcases h.2.2 with h | h
    · exact h.2
    · rw [hstop] at h
      exact absurd h (by decide)
  rw [waitStep_eq hme, if_neg h.1, if_neg (not_not.mpr h.2.1), if_pos hstop, if_neg huntraced]
  rfl

theorem State.charged_of_ne (h : x ≠ me) : (s.charged me p).mem x = s.mem x := update_of_ne h

theorem State.Queues.charged (h : s.Queues q) : (s.charged me p).Queues q :=
  h.update fun _ => ⟨rfl, rfl, rfl⟩

/-- A zombie. -/
theorem waitStep_zombie (hme : s.currentProcess = some me) (h : s.Due me pid options p)
    (hzombie : (s.mem p).state = pZombie) (hi : queueIndex (s.mem p).priority = some i)
    (hprev : (s.mem p).prev = some before) (hnext : (s.mem p).next = some behind) :
    waitStep close pid options p (s, fixup) =
      some (.ok (some ((s.mem p).pid, (s.mem p).exitCode)),
        (s.reaped me p close before behind i, fixup)) := by
  have hstop : ¬ (s.mem p).state = pStopped := by
    rw [hzombie]
    decide
  have hmem : (s.charged me p).mem p = s.mem p := State.charged_of_ne h.1
  rw [waitStep_eq hme, if_neg h.1, if_neg (not_not.mpr h.2.1), if_neg hstop, if_pos hzombie]
  have hfree := @freeProcess_run (s.charged me p) p before behind i close (by rw [hmem, hi])
    (by rw [hmem, hprev]) (by rw [hmem, hnext])
  refine (Call.bind_of_ok rfl).trans ?_
  refine (Call.bind_of_ok rfl).trans ?_
  refine (Call.bind_of_ok (Call.lift_of_ok hfree)).trans ?_
  rw [← hmem]
  rfl

/-- What a loop without a due child leaves in `fixup`. -/
theorem foldl_fixup (l : List Ptr) (fixup : Bool) :
    l.foldl (fun (t : State × Bool) p => (t.1, t.2 || decide (s.Alive me pid p))) (s, fixup) =
      (s, fixup || decide (∃ p ∈ l, s.Alive me pid p)) := by
  induction l generalizing fixup with
  | nil => simp
  | cons a l ih =>
      have hcons : (decide (s.Alive me pid a) || decide (∃ p ∈ l, s.Alive me pid p)) =
          decide (∃ p ∈ a :: l, s.Alive me pid p) := by
        rw [← Bool.decide_or]
        exact decide_eq_decide.mpr (by simp)
      rw [List.foldl_cons, ih, Bool.or_assoc, hcons]

/-- **What the loop of `kwaitpid` finds**: the first child that is due, or none. -/
theorem waitLoop_cases (h : s.Queues q) (hme : s.currentProcess = some me) :
    ((∀ p ∈ State.procs q, ¬ s.Due me pid options p) ∧
      tableLoop Prod.fst (waitStep close pid options) (s, fixup) =
        some (.ok none, (s, fixup || decide (∃ p ∈ State.procs q, s.Alive me pid p)))) ∨
    ∃ l₁ p l₂ fixup', State.procs q = l₁ ++ p :: l₂ ∧ (∀ x ∈ l₁, ¬ s.Due me pid options x) ∧
      s.Due me pid options p ∧
      ∀ v s', waitStep close pid options p (s, fixup') = some (.ok (some v), s') →
        tableLoop Prod.fst (waitStep close pid options) (s, fixup) = some (.ok (some v), s') := by
  have hquiet : ∀ p, ¬ s.Due me pid options p → ∀ t : State × Bool, t.1 = s →
      waitStep close pid options p t =
        some (.ok none, (t.1, t.2 || decide (s.Alive me pid p))) ∧ t.1 = s := by
    rintro p hp ⟨t, fixup⟩ rfl
    exact ⟨waitStep_quiet hme hp, rfl⟩
  have hdue : ∀ i, ∀ p ∈ q i, s.Due me pid options p → ∀ fixup, ∃ v s',
      waitStep close pid options p (s, fixup) = some (.ok (some v), s') := by
    intro i p hp hdue fixup
    by_cases hstop : (s.mem p).state = pStopped
    · exact ⟨_, _, waitStep_stopped hme hdue hstop⟩
    · have hzombie : (s.mem p).state = pZombie := hdue.2.2.resolve_left fun h => hstop h.1
      obtain ⟨before, behind, hi, hprev, hnext⟩ := h.neighbours hp
      exact ⟨_, _, waitStep_zombie hme hdue hzombie hi hprev hnext⟩
  have hloop : tableLoop Prod.fst (waitStep close pid options) (s, fixup) =
      Lib.firstOf (waitStep close pid options) (State.procs q) (s, fixup) := by
    refine tableLoop_eq (P := fun t : State × Bool => t.1 = s) (fun t ht => ht ▸ h)
      (fun i p hp t t' ht hrun => ?_) rfl
    obtain ⟨t, fixup⟩ := t
    obtain rfl : t = s := ht
    by_cases hd : t.Due me pid options p
    · obtain ⟨v, t₁, hv⟩ := hdue i p hp hd fixup
      rw [hv] at hrun
      cases hrun
    · rw [(hquiet p hd (t, fixup) rfl).1] at hrun
      cases hrun
      rfl
  rw [hloop]
  rcases Lib.firstOf_split (P := fun t : State × Bool => t.1 = s)
      (c := fun p => ¬ s.Due me pid options p)
      (f := fun p t => (t.1, t.2 || decide (s.Alive me pid p))) (fun p _ hp t ht => hquiet p hp t ht)
      (s := (s, fixup)) rfl with ⟨hall, hrun⟩ | ⟨l₁, p, l₂, t, hl, hall, hp, ht, hret⟩
  · rw [foldl_fixup] at hrun
    exact .inl ⟨hall, hrun⟩
  · obtain ⟨t, fixup'⟩ := t
    obtain rfl : t = s := ht
    exact .inr ⟨l₁, p, l₂, fixup', hl, hall, not_not.mp hp, hret⟩

/-- What `kwaitpid` reports for a child, and the state it leaves. -/
inductive Reaped (s : State) (q : Fin nrPriority → List Ptr) (me : Ptr)
    (close : Process → Tables) (p : Ptr) : WaitResult → State → Prop
  | stopped (h : (s.mem p).state = pStopped) :
      Reaped s q me close p (.returned (s.mem p).pid (some 0x7F)) s
  | zombie {i : Fin nrPriority} {before behind : Ptr} (h : (s.mem p).state = pZombie)
      (hp : p ∈ q i) (hprev : (s.mem p).prev = some before) (hnext : (s.mem p).next = some behind) :
      Reaped s q me close p (.returned (s.mem p).pid (some (s.mem p).exitCode))
        (s.reaped me p close before behind i)

/-- **The results of the loop**: the report of the first child that is due, or what follows from
there being children to wait for. -/
theorem waitScan_cases (h : s.Queues q) (hme : s.currentProcess = some me)
    (hrun : waitScan close pid options fixup s = some (.ok r, s')) :
    (∃ l₁ p l₂, State.procs q = l₁ ++ p :: l₂ ∧ (∀ x ∈ l₁, ¬ s.Due me pid options x) ∧
      s.Due me pid options p ∧ Reaped s q me close p r s') ∨
    ((∀ p ∈ State.procs q, ¬ s.Due me pid options p) ∧ s' = s ∧
      r = if fixup = true ∨ ∃ p ∈ State.procs q, s.Alive me pid p then
        if options &&& wNoHang ≠ 0 then .returned 0 none else .waits
      else .noValue) := by
  obtain ⟨⟨o, fixup'⟩, s₁, hloop, hret⟩ := Call.bind_eq_ok.mp hrun
  have hwith : tableLoop Prod.fst (waitStep close pid options) (s, fixup) =
      some (.ok o, (s₁, fixup')) := Call.withLocal_eq_ok.mp hloop
  rcases @waitLoop_cases s q me close pid options fixup h hme with
    ⟨hnone, hall⟩ | ⟨l₁, p, l₂, fixup₁, hl, hbefore, hdue, hreturn⟩
  · rw [hall] at hwith
    cases hwith
    refine .inr ⟨hnone, ?_⟩
    by_cases hw : fixup = true ∨ ∃ p ∈ State.procs q, s.Alive me pid p
    · have hfix : (fixup || decide (∃ p ∈ State.procs q, s.Alive me pid p)) = true := by
        rw [Bool.or_eq_true, decide_eq_true_iff]
        exact hw
      simp only [hfix, if_true] at hret
      rw [if_pos hw]
      split at hret
      · next ho =>
        cases hret
        rw [if_pos ho]
        exact ⟨rfl, rfl⟩
      · next ho =>
        cases hret
        rw [if_neg ho]
        exact ⟨rfl, rfl⟩
    · have hfix : (fixup || decide (∃ p ∈ State.procs q, s.Alive me pid p)) = false := by
        rw [Bool.or_eq_false_iff, decide_eq_false_iff_not]
        exact ⟨Bool.eq_false_iff.mpr fun hf => hw (.inl hf), fun he => hw (.inr he)⟩
      simp only [hfix] at hret
      rw [if_neg hw]
      cases hret
      exact ⟨rfl, rfl⟩
  · refine .inl ⟨l₁, p, l₂, hl, hbefore, hdue, ?_⟩
    by_cases hstop : (s.mem p).state = pStopped
    · rw [hreturn _ _ (waitStep_stopped hme hdue hstop)] at hwith
      cases hwith
      cases hret
      exact .stopped hstop
    · have hzombie : (s.mem p).state = pZombie := hdue.2.2.resolve_left fun h => hstop h.1
      obtain ⟨i, hi⟩ := State.mem_procs.mp (hl ▸ by simp : p ∈ State.procs q)
      obtain ⟨before, behind, hidx, hprev, hnext⟩ := h.neighbours hi
      rw [hreturn _ _ (waitStep_zombie hme hdue hzombie hidx hprev hnext)] at hwith
      cases hwith
      cases hret
      exact .zombie hzombie hi hprev hnext

/-- **`retry`** ends with the loop or goes on to the call of `schedule`. -/
theorem retry_cases {e : Env} (h : s.Queues q) (hme : s.currentProcess = some me)
    (hrun : retry e close pid options fixup s = some (.ok r, s')) :
    (r ≠ .waits ∧ waitScan close pid options fixup s = some (.ok r, s')) ∨
    (r = .waits ∧ s.WillWait me pid options q fixup ∧
      schedule e (s.update me fun x => { x with state := pInterruptible }) = some (.ok (), s')) := by
  obtain ⟨v, s₁, hscan, hret⟩ := Call.bind_eq_ok.mp hrun
  cases v with
  | returned value status =>
      cases hret
      exact .inl ⟨by simp, hscan⟩
  | noValue =>
      cases hret
      exact .inl ⟨by simp, hscan⟩
  | waits =>
      have hwait : s₁ = s ∧ s.WillWait me pid options q fixup := by
        rcases waitScan_cases h hme hscan with ⟨l₁, p, l₂, -, -, -, hreaped⟩ | ⟨hnone, rfl, hr⟩
        · cases hreaped
        · refine ⟨rfl, hnone, ?_⟩
          split at hr
          · next hw =>
            split at hr
            · cases hr
            · next ho => exact ⟨hw, not_not.mp ho⟩
          · cases hr
      obtain ⟨rfl, hw⟩ := hwait
      have hgo : (do
          setState me pInterruptible
          schedule e
          pure .waits : KernelM WaitResult) s₁ = some (.ok r, s') := by
        rw [← hret]
        apply Eq.symm
        refine (Call.bind_of_ok rfl).trans ?_
        exact Call.bind_of_ok (deref_run hme s₁)
      obtain ⟨u, s₂, hset, hgo⟩ := Call.bind_eq_ok.mp hgo
      cases hset
      obtain ⟨u, s₃, hsched, hgo⟩ := Call.bind_eq_ok.mp hgo
      cases hgo
      exact .inr ⟨rfl, hw, hsched⟩

/-- `current_process->p_signal &= ~(1 << SIGCHLD)`. -/
def State.childCleared (s : State) (me : Ptr) : State :=
  s.update me fun x => { x with signal := x.signal &&& ~~~(1 <<< sigChld) }

/-- When the process runs again it goes back to `retry`, whatever its signals are. -/
theorem kwaitpidResume_eq {e : Env} (hme : s.currentProcess = some me) :
    kwaitpidResume e close pid options s = retry e close pid options true (s.childCleared me) := by
  have hclear : ((s.childCleared me).mem me).signal &&& (1 <<< sigChld) = 0 := by
    rw [State.childCleared, State.update_self]
    show (s.mem me).signal &&& ~~~(1 <<< sigChld) &&& (1 <<< sigChld) = 0
    rw [UInt32.and_assoc, UInt32.not_and_self, UInt32.and_zero]
  refine (Call.bind_of_ok rfl).trans ?_
  refine (Call.bind_of_ok (deref_run hme s)).trans ?_
  refine (Call.bind_of_ok rfl).trans ?_
  refine (Call.bind_of_ok rfl).trans ?_
  exact congrFun (if_pos hclear) _

/-! ## The state after a report -/

/-- A field that freeing a zombie does not change. -/
theorem State.reaped_field {α : Type} (g : Process → α)
    (htimes : ∀ y u v, g { y with cutime := u, cstime := v } = g y)
    (hfiles : ∀ y u v w, g { y with fileTab := u, fileDesc := v, dirTab := w } = g y)
    (hlinks : ∀ y u v, g { y with next := u, prev := v } = g y) :
    g ((s.reaped me p close before behind i).mem x) = g (s.mem x) := by
  have hcharged : g ((s.charged me p).mem x) = g (s.mem x) :=
    State.update_field g fun y => htimes y _ _
  have hclosed : g (((s.charged me p).closed close p).mem x) = g (s.mem x) :=
    (State.update_field g fun y => hfiles y _ _ _).trans hcharged
  have hnext : ∀ t : State, g ((t.setNext before (some behind)).mem x) = g (t.mem x) := fun t =>
    State.update_field g fun y => hlinks y _ y.prev
  have hprev : ∀ t : State, g ((t.setPrev behind (some before)).mem x) = g (t.mem x) := fun t =>
    State.update_field g fun y => hlinks y y.next _
  rw [State.reaped, State.freed, hnext, hprev]
  split
  · exact hclosed
  · exact hclosed

theorem State.reaped_switches :
    (s.reaped me p close before behind i).switches = s.switches := by
  rw [State.reaped, State.freed]
  split <;> rfl

/-- A zombie that is alone on its queue stays there. -/
theorem State.Queues.reaped_of_alone (h : s.Queues q) (hp : p ∈ q i)
    (hself : (s.mem p).next = some p) : (s.reaped me p close p p i).Queues q := by
  have hcl : ((s.charged me p).closed close p).Queues q := h.charged.closed
  have hlinks : ((s.charged me p).closed close p).links.Joins p p := by
    have hring := h.ring i
    rw [(h.ring i).eq_singleton hp hself] at hring
    have hring' := hcl.ring i
    rw [(h.ring i).eq_singleton hp hself] at hring'
    exact Lib.Links.isRing_singleton.mp hring'
  refine hcl.congr ?_ fun j x _ => ⟨?_, ?_, State.freed_priority⟩
  · rw [State.reaped, State.freed_processTab]
    split
    · next ht => rw [← ht, Function.update_eq_self]
    · rfl
  · rw [State.reaped, State.freed_next]
    split
    · next hx =>
      rw [hx]
      exact hlinks.1.symm
    · rfl
  · rw [State.reaped, State.freed_prev]
    split
    · next hx =>
      rw [hx]
      exact hlinks.2.symm
    · rfl

/-- A zombie that is not alone leaves the table. -/
theorem State.Queues.reaped (h : s.Queues q) (hme : p ≠ me) (hp : p ∈ q i)
    (hprev : (s.mem p).prev = some before) (hnext : (s.mem p).next = some behind)
    (hne : behind ≠ p) : (s.reaped me p close before behind i).Queues
      (Function.update q i ((q i).erase p)) := by
  have hmem : (s.charged me p).mem p = s.mem p := State.charged_of_ne hme
  exact h.charged.freeProcess hp (by rw [hmem, hprev]) (by rw [hmem, hnext]) hne

/-- The queues are rings after a zombie is freed, too. -/
theorem State.Queues.exists_reaped (h : s.Queues q) (hme : p ≠ me) (hp : p ∈ q i)
    (hprev : (s.mem p).prev = some before) (hnext : (s.mem p).next = some behind) :
    ∃ q', (s.reaped me p close before behind i).Queues q' := by
  by_cases hself : behind = p
  · have hring := h.ring i
    rw [hself] at hnext
    rw [(h.ring i).eq_singleton hp hnext] at hring
    have hbefore : before = p :=
      Option.some.inj (hprev.symm.trans (Lib.Links.isRing_singleton.mp hring).2)
    rw [hself, hbefore]
    exact ⟨q, h.reaped_of_alone hp hnext⟩
  · exact ⟨_, h.reaped hme hp hprev hnext hself⟩

end Scan
end OxKernel.Kernel
