import Mathlib.Algebra.BigOperators.Group.Finset.Basic
import Mathlib.Algebra.Order.BigOperators.Group.Finset
import Mathlib.Tactic.Linarith
import Mathlib.Tactic.Ring
import OxKernel.Kernel.ScheduleSpec

/-!
# The scheduler is fair

Processes that start with the same counter stay close together: the others are at some level
or two below it, and the current one at the level or one below it. A process that is not
current for long falls less than the others, so its turn comes.

## Main definitions

* `Runnable` — the processes can be switched to and the current one is among them.
* `Balanced` — the level of the counters.
-/
namespace OxKernel.Kernel

open Lib (Call)

section Balance
variable {q : Fin nrPriority → List Ptr} {s s' : State} {e : Env} {me p x : Ptr} {M : ℤ}

/-- The counter of a process. -/
def State.count (s : State) (p : Ptr) : ℤ := (s.mem p).counter.toInt

/-- The table has the processes of `q`, all of which can be switched to, and the current one
is among them. -/
structure Runnable (q : Fin nrPriority → List Ptr) (s : State) (me : Ptr) : Prop where
  queues : s.Queues q
  current : s.currentProcess = some me
  mem : me ∈ State.procs q
  tss : ∀ p ∈ State.procs q, (s.mem p).tssSeg ≠ 0
  eip : ∀ p ∈ State.procs q, (s.mem p).eip ≠ 0

/-- No counter wraps in the next call. -/
def NoWrap (q : Fin nrPriority → List Ptr) (s : State) : Prop :=
  ∀ p ∈ State.procs q, -2 ^ 31 + (if s.currentProcess = some p then 2 else 1) ≤ s.count p

/-- The counters are at the level `M` or below it: the others at `M` or `M - 2`, the current
one at `M` or `M - 1`. -/
structure Balanced (q : Fin nrPriority → List Ptr) (s : State) (me : Ptr) (M : ℤ) : Prop where
  current : s.count me = M ∨ s.count me = M - 1
  others : ∀ p ∈ State.procs q, p ≠ me → s.count p = M ∨ s.count p = M - 2

theorem countDown_count {y : Process} (h : -2 ^ 31 < y.counter.toInt) :
    y.countDown.counter.toInt = y.counter.toInt - 1 := by
  have hlt := y.counter.toInt_lt
  rw [Process.countDown, Int32.toInt_sub]
  have h1 : (1 : Int32).toInt = 1 := by decide
  rw [h1]
  apply Int.bmod_eq_of_le
  · omega
  · omega

theorem aged_count (hp : p ∈ State.procs q) (hw : -2 ^ 31 < s.count p) :
    (s.aged e q).count p = s.count p - 1 := by
  have hcounter : ((s.mem p).alarmed (e.ktime p)).counter = (s.mem p).counter :=
    Process.alarmed_field Process.counter _ _ (fun _ _ _ => rfl) fun _ _ => rfl
  have hw' : -2 ^ 31 < ((s.mem p).alarmed (e.ktime p)).counter.toInt := by
    rw [hcounter]
    exact hw
  rw [State.count, State.aged_of_mem hp, countDown_count hw', hcounter]
  rfl

/-- The counters after the loops. -/
theorem counted_count (h : Runnable q s me) (hw : NoWrap q s) (hp : p ∈ State.procs q) :
    (s.counted e q me).count p = s.count p - if p = me then 2 else 1 := by
  have hbound := hw p hp
  by_cases hpm : p = me
  · subst hpm
    rw [if_pos h.current] at hbound
    have hage := aged_count (s := s) (e := e) hp (by omega)
    have hw' : -2 ^ 31 < ((s.aged e q).mem p).counter.toInt := by
      show -2 ^ 31 < (s.aged e q).count p
      omega
    rw [State.count, State.counted, State.update_self, countDown_count hw', if_pos rfl]
    show (s.aged e q).count p - 1 = _
    omega
  · have hne : ¬ s.currentProcess = some p := by
      rw [h.current]
      exact fun he => hpm (Option.some.inj he).symm
    rw [if_neg hne] at hbound
    rw [State.count, State.counted, State.update_of_ne hpm, if_neg hpm]
    exact aged_count hp (by omega)

theorem switched_count {before : Process} :
    (s.switched e me p before).count x = s.count x := by
  exact State.update_field (fun y => y.counter.toInt) fun y =>
    Process.entered_field (fun y => y.counter.toInt) fun _ _ _ => rfl

/-- What one call of `schedule` does: the next process is the first one with the highest
counter. -/
structure Ticked (q : Fin nrPriority → List Ptr) (s s' : State) (me p : Ptr) : Prop where
  next : (p = me ∧ ∀ x ∈ State.procs q, s.count x ≤ s.count me) ∨
    (p ≠ me ∧ s.count me < s.count p ∧ ∀ x ∈ State.procs q, s.count x ≤ s.count p)
  count : ∀ x ∈ State.procs q, s'.count x = s.count x - if x = me then 2 else 1
  runnable : Runnable q s' p

/-- The process that `schedule` goes on with, from the counters before the call. -/
theorem chosen_spec (h : Runnable q s me) (hw : NoWrap q s) :
    (s.chosen e q me = me ∧ ∀ x ∈ State.procs q, s.count x ≤ s.count me) ∨
      (s.chosen e q me ≠ me ∧ s.chosen e q me ∈ State.procs q ∧
        s.count me < s.count (s.chosen e q me) ∧
        ∀ x ∈ State.procs q, s.count x ≤ s.count (s.chosen e q me)) := by
  have hage : ∀ x ∈ State.procs q, (s.aged e q).count x = s.count x - 1 := by
    intro x hx
    have hbound := hw x hx
    refine aged_count hx ?_
    split at hbound <;> omega
  have hme := hage me h.mem
  rcases leader_spec (s.aged e q).count me (State.procs q) with ⟨he, hle⟩ | hlead
  · refine .inl ⟨he, fun x hx => ?_⟩
    have := hle x hx
    rw [hage x hx, hme] at this
    omega
  · refine .inr ?_
    have hmem : s.chosen e q me ∈ State.procs q := hlead.mem
    have hlt := hlead.current
    change (s.aged e q).count me < (s.aged e q).count (s.chosen e q me) at hlt
    refine ⟨?_, hmem, ?_, fun x hx => ?_⟩
    · intro he
      rw [he] at hlt
      exact lt_irrefl _ hlt
    · rw [hme, hage _ hmem] at hlt
      omega
    · obtain ⟨l₁, l₂, hl, hbefore, hbehind⟩ := hlead.split
      change ∀ x ∈ l₁, (s.aged e q).count x < (s.aged e q).count (s.chosen e q me) at hbefore
      change ∀ x ∈ l₂, (s.aged e q).count x ≤ (s.aged e q).count (s.chosen e q me) at hbehind
      have hx' := hx
      rw [hl] at hx'
      have hle : (s.aged e q).count x ≤ (s.aged e q).count (s.chosen e q me) := by
        rcases List.mem_append.mp hx' with hx' | hx'
        · exact (hbefore x hx').le
        · rcases List.mem_cons.mp hx' with rfl | hx'
          · exact le_refl _
          · exact hbehind x hx'
      rw [hage x hx, hage _ hmem] at hle
      omega

/-- What the loops do not change. -/
theorem counted_field {α : Type} (g : Process → α)
    (hsignal : ∀ y u v, g { y with signal := u, alarm := v } = g y)
    (hstate : ∀ y v, g { y with state := v } = g y)
    (hcounter : ∀ y v, g { y with counter := v } = g y) :
    g ((s.counted e q me).mem x) = g (s.mem x) := by
  have hage : g ((s.aged e q).mem x) = g (s.mem x) := by
    by_cases hx : x ∈ State.procs q
    · rw [State.aged_of_mem hx]
      exact (hcounter _ _).trans (Process.alarmed_field g _ _ hsignal hstate)
    · rw [State.aged_of_not_mem hx]
  exact (State.update_field g fun y => hcounter y _).trans hage

theorem Runnable.counted (h : Runnable q s me) : Runnable q (s.counted e q me) me where
  queues := h.queues.counted
  current := h.current
  mem := h.mem
  tss p hp := by
    rw [counted_field Process.tssSeg (fun _ _ _ => rfl) (fun _ _ => rfl) fun _ _ => rfl]
    exact h.tss p hp
  eip p hp := by
    rw [counted_field Process.eip (fun _ _ _ => rfl) (fun _ _ => rfl) fun _ _ => rfl]
    exact h.eip p hp

theorem Process.entered_eip {y : Process} {kstart : UInt32} (hk : kstart ≠ 0) (hy : y.eip ≠ 0) :
    (y.entered kstart).eip ≠ 0 := by
  rw [entered]
  show (if _ then _ else _ : Process).eip ≠ 0
  split
  · exact hk
  · exact hy

theorem Runnable.switched {before : Process} (h : Runnable q s me) (hp : p ∈ State.procs q)
    (hk : e.kstart ≠ 0) : Runnable q (s.switched e me p before) p where
  queues := h.queues.switched
  current := rfl
  mem := hp
  tss x hx := by
    have htss : ((s.switched e me p before).mem x).tssSeg = (s.mem x).tssSeg :=
      State.update_field Process.tssSeg fun y => Process.entered_field Process.tssSeg fun _ _ _ => rfl
    rw [htss]
    exact h.tss x hx
  eip x hx := by
    rw [State.switched, State.update_mem]
    split
    · exact Process.entered_eip hk (h.eip p hp)
    · exact h.eip x hx

/-- **One call of `schedule`** on such a table returns, and ticks. -/
theorem schedule_ticks (h : Runnable q s me) (hw : NoWrap q s) (hk : e.kstart ≠ 0) :
    ∃ s' p, schedule e s = some (.ok (), s') ∧ Ticked q s s' me p := by
  have hchosen := chosen_spec (e := e) h hw
  have hmem : s.chosen e q me ∈ State.procs q := by
    rcases hchosen with ⟨he, -⟩ | ⟨-, hmem, -⟩
    · rw [he]
      exact h.mem
    · exact hmem
  have hnext : (s.chosen e q me = me ∧ ∀ x ∈ State.procs q, s.count x ≤ s.count me) ∨
      (s.chosen e q me ≠ me ∧ s.count me < s.count (s.chosen e q me) ∧
        ∀ x ∈ State.procs q, s.count x ≤ s.count (s.chosen e q me)) := by
    rcases hchosen with hsame | ⟨hne, -, hrest⟩
    · exact .inl hsame
    · exact .inr ⟨hne, hrest⟩
  rw [schedule_eq h.queues h.current]
  by_cases hs : s.Switches me (s.chosen e q me)
  · have heip := @Process.entered_eip _ e.kstart hk ((h.counted (e := e)).eip _ hmem)
    rw [if_pos hs, switchTo_eq, if_neg heip]
    refine ⟨_, s.chosen e q me, rfl, hnext, fun x hx => ?_, h.counted.switched hmem hk⟩
    rw [switched_count]
    exact counted_count h hw hx
  · have hsame : s.chosen e q me = me := by
      by_contra hne
      exact hs (.inr ⟨hne, h.tss me h.mem⟩)
    rw [if_neg hs]
    refine ⟨_, me, rfl, ?_, fun x hx => counted_count h hw hx, h.counted⟩
    rw [hsame] at hnext
    exact hnext

/-- **The level after a call.** -/
theorem Balanced.tick (h : Balanced q s me M) (hr : Runnable q s me) (ht : Ticked q s s' me p) :
    ∃ M', Balanced q s' p M' := by
  have hcount : ∀ x ∈ State.procs q, x ≠ me → s'.count x = s.count x - 1 := by
    intro x hx hne
    rw [ht.count x hx, if_neg hne]
  have hme : s'.count me = s.count me - 2 := by
    rw [ht.count me hr.mem, if_pos rfl]
  rcases ht.next with ⟨rfl, hle⟩ | ⟨hne, hlt, hle⟩
  · rcases h.current with hcur | hcur
    · -- The current process goes on and is one below the level.
      refine ⟨M - 1, .inr (by omega), fun x hx hxp => ?_⟩
      rw [hcount x hx hxp]
      rcases h.others x hx hxp with ho | ho
      · exact .inl (by omega)
      · exact .inr (by omega)
    · -- It is the last one of its round: all counters meet two levels down.
      refine ⟨M - 3, .inl (by omega), fun x hx hxp => ?_⟩
      rw [hcount x hx hxp]
      have hlex := hle x hx
      rcases h.others x hx hxp with ho | ho
      · omega
      · exact .inl (by omega)
  · -- Another process at the level takes over.
    have hp : p ∈ State.procs q := ht.runnable.mem
    have hpo := h.others p hp hne
    have hcur := h.current
    refine ⟨M - 1, .inl ?_, fun x hx hxp => ?_⟩
    · rw [hcount p hp hne]
      omega
    · by_cases hxm : x = me
      · rw [hxm, hme]
        exact .inr (by omega)
      · rw [hcount x hx hxm]
        rcases h.others x hx hxm with ho | ho
        · exact .inl (by omega)
        · exact .inr (by omega)

/-- Counters of a balanced table are close together. -/
theorem Balanced.close (h : Balanced q s me M) (hp : p ∈ State.procs q) (hx : x ∈ State.procs q) :
    s.count p ≤ s.count x + 2 := by
  have hone : ∀ y ∈ State.procs q, M - 2 ≤ s.count y ∧ s.count y ≤ M := by
    intro y hy
    by_cases hym : y = me
    · subst hym
      have := h.current
      omega
    · have := h.others y hy hym
      omega
  have h1 := hone p hp
  have h2 := hone x hx
  omega

end Balance

/-! ## Consecutive calls -/

/-- The states between `n` consecutive calls of `schedule`, from a table whose processes all
have the same counter, as long as no counter wraps. -/
structure Calls (q : Fin nrPriority → List Ptr) (s : ℕ → State) (e : ℕ → Env) (n : ℕ) : Prop where
  start : ∃ me, Runnable q (s 0) me
  same : ∀ p ∈ State.procs q, ∀ x ∈ State.procs q, (s 0).count p = (s 0).count x
  call : ∀ i < n, schedule (e i) (s i) = some (.ok (), s (i + 1))
  noWrap : ∀ i < n, NoWrap q (s i)
  kstart : ∀ i < n, (e i).kstart ≠ 0

namespace Calls
variable {q : Fin nrPriority → List Ptr} {s : ℕ → State} {e : ℕ → Env} {n i N : ℕ} {p me : Ptr}

/-- The call `i` ticks. -/
theorem tick (h : Calls q s e n) (hi : i < n) (hr : Runnable q (s i) me) :
    ∃ p, Ticked q (s i) (s (i + 1)) me p := by
  obtain ⟨s', p, hrun, ht⟩ := schedule_ticks hr (h.noWrap i hi) (h.kstart i hi)
  rw [h.call i hi] at hrun
  cases hrun
  exact ⟨p, ht⟩

theorem balanced (h : Calls q s e n) (hi : i ≤ n) :
    ∃ me M, Runnable q (s i) me ∧ Balanced q (s i) me M := by
  induction i with
  | zero =>
      obtain ⟨me, hr⟩ := h.start
      exact ⟨me, (s 0).count me, hr, .inl rfl, fun p hp _ => .inl (h.same p hp me hr.mem)⟩
  | succ i ih =>
      obtain ⟨me, M, hr, hb⟩ := ih (by omega)
      obtain ⟨p, ht⟩ := h.tick (by omega) hr
      obtain ⟨M', hb'⟩ := hb.tick hr ht
      exact ⟨p, M', ht.runnable, hb'⟩

/-- All counters together. -/
def total (q : Fin nrPriority → List Ptr) (s : State) : ℤ :=
  ∑ x ∈ (State.procs q).toFinset, s.count x

theorem card_procs (h : Calls q s e n) :
    (State.procs q).toFinset.card = (State.procs q).length := by
  obtain ⟨me, hr⟩ := h.start
  exact List.toFinset_card_of_nodup hr.queues.nodup

/-- A call takes one from each counter and one more from that of the current process. -/
theorem total_succ (h : Calls q s e n) (hi : i < n) :
    total q (s (i + 1)) = total q (s i) - ((State.procs q).length + 1) := by
  obtain ⟨me, M, hr, -⟩ := h.balanced hi.le
  obtain ⟨p, ht⟩ := h.tick hi hr
  have hme : me ∈ (State.procs q).toFinset := List.mem_toFinset.mpr hr.mem
  have hsum : ∑ x ∈ (State.procs q).toFinset, (if x = me then 2 else 1 : ℤ) =
      (State.procs q).length + 1 := by
    have hsplit : ∀ x, (if x = me then 2 else 1 : ℤ) = 1 + if x = me then 1 else 0 := by
      intro x
      split <;> rfl
    rw [Finset.sum_congr rfl fun x _ => hsplit x, Finset.sum_add_distrib, Finset.sum_ite_eq',
      if_pos hme, Finset.sum_const, h.card_procs]
    simp
  rw [total, total, ← hsum, ← Finset.sum_sub_distrib]
  exact Finset.sum_congr rfl fun x hx => ht.count x (List.mem_toFinset.mp hx)

theorem total_add (h : Calls q s e n) (hi : i + N ≤ n) :
    total q (s (i + N)) = total q (s i) - N * ((State.procs q).length + 1) := by
  induction N with
  | zero => simp
  | succ N ih =>
      rw [← Nat.add_assoc, h.total_succ (by omega), ih (by omega)]
      push_cast
      ring

/-- A process that is not current only takes part in the common count. -/
theorem count_add (h : Calls q s e n) (hp : p ∈ State.procs q) (hi : i + N ≤ n)
    (hnot : ∀ j, i ≤ j → j < i + N → (s j).currentProcess ≠ some p) :
    (s (i + N)).count p = (s i).count p - N := by
  induction N with
  | zero => simp
  | succ N ih =>
      obtain ⟨me, M, hr, -⟩ := h.balanced (i := i + N) (by omega)
      obtain ⟨p', ht⟩ := h.tick (by omega) hr
      have hne : p ≠ me := by
        rintro rfl
        exact hnot (i + N) (by omega) (by omega) hr.current
      rw [← Nat.add_assoc, ht.count p hp, if_neg hne,
        ih (by omega) fun j h1 h2 => hnot j h1 (by omega)]
      push_cast
      ring

theorem close (h : Calls q s e n) (hi : i ≤ n) {x : Ptr} (hp : p ∈ State.procs q)
    (hx : x ∈ State.procs q) : (s i).count p ≤ (s i).count x + 2 := by
  obtain ⟨me, M, -, hb⟩ := h.balanced hi
  exact hb.close hp hx

/-- No process waits for long. -/
theorem current_within (h : Calls q s e n) (hp : p ∈ State.procs q)
    (hi : i + 4 * (State.procs q).length < n) :
    ∃ j, i ≤ j ∧ j ≤ i + 4 * (State.procs q).length ∧ (s j).currentProcess = some p := by
  by_contra hnone
  have hnot : ∀ j, i ≤ j → j < i + (4 * (State.procs q).length + 1) →
      (s j).currentProcess ≠ some p := fun j h1 h2 he => hnone ⟨j, h1, by omega, he⟩
  have hcount := h.count_add hp (by omega) hnot
  have htotal := h.total_add (i := i) (N := 4 * (State.procs q).length + 1) (by omega)
  have hupper : total q (s i) ≤ (State.procs q).length * ((s i).count p + 2) := by
    rw [total, ← h.card_procs, ← nsmul_eq_mul]
    exact Finset.sum_le_card_nsmul _ _ _ fun x hx =>
      h.close (by omega) (List.mem_toFinset.mp hx) hp
  have hlower : (State.procs q).length * ((s (i + (4 * (State.procs q).length + 1))).count p - 2) ≤
      total q (s (i + (4 * (State.procs q).length + 1))) := by
    rw [total, ← h.card_procs, ← nsmul_eq_mul]
    refine Finset.card_nsmul_le_sum _ _ _ fun x hx => ?_
    have := h.close (i := i + (4 * (State.procs q).length + 1)) (by omega) hp
      (List.mem_toFinset.mp hx)
    rw [h.card_procs]
    omega
  rw [hcount] at hlower
  rw [htotal] at hlower
  push_cast at hlower
  nlinarith

/-- **The scheduler is fair.** After each of the calls any two counters differ by at most 2, the
next call returns, and each process is the current one at some point in any row of calls that
is four times as long as the table. -/
theorem schedule_is_fair (h : Calls q s e n) :
    (∀ i ≤ n, ∀ p ∈ State.procs q, ∀ x ∈ State.procs q,
      |(s i).count p - (s i).count x| ≤ 2) ∧
      (∀ i ≤ n, NoWrap q (s i) → ∀ e' : Env, e'.kstart ≠ 0 →
        ∃ s', schedule e' (s i) = some (.ok (), s')) ∧
      ∀ p ∈ State.procs q, ∀ i, i + 4 * (State.procs q).length < n →
        ∃ j, i ≤ j ∧ j ≤ i + 4 * (State.procs q).length ∧ (s j).currentProcess = some p := by
  refine ⟨fun i hi p hp x hx => ?_, fun i hi hw e' hk => ?_, fun p hp i hi => ?_⟩
  · rw [abs_le]
    have h1 := h.close hi hp hx
    have h2 := h.close hi hx hp
    constructor <;> omega
  · obtain ⟨me, M, hr, -⟩ := h.balanced hi
    obtain ⟨s', p, hrun, -⟩ := schedule_ticks hr hw hk
    exact ⟨s', hrun⟩
  · exact h.current_within hp hi

/-- Two processes, one in front of the other. -/
def pair : List Ptr := [firstProcess, secondProcess]

/-- The table of two processes that can run. -/
def pairState : State :=
  State.ofList pair (fun _ => { Process.zero with counter := 1048576, tssSeg := 8, eip := 1 })
    firstProcess

theorem runnable_pairState :
    Runnable (Function.update (fun _ => []) 0 pair) pairState firstProcess where
  queues := State.queues_ofList (by decide)
  current := rfl
  mem := by
    rw [State.procs_ofList]
    exact List.mem_cons_self
  tss _ _ := show (8 : UInt16) ≠ 0 by decide
  eip _ _ := show (1 : UInt32) ≠ 0 by decide

/-- The first call of `schedule` for the two processes. -/
theorem schedule_is_fair_pair : ∃ s',
    schedule ⟨fun _ => 0, 1⟩ pairState = some (.ok (), s') ∧
      ∀ p ∈ pair, ∀ x ∈ pair, |s'.count p - s'.count x| ≤ 2 := by
  have hw : NoWrap (Function.update (fun _ => []) 0 pair) pairState := by
    intro p _
    have hcount : pairState.count p = 1048576 := show (1048576 : Int32).toInt = _ by decide
    rw [hcount]
    split <;> omega
  obtain ⟨s', p, hrun, -⟩ := schedule_ticks (e := ⟨fun _ => 0, 1⟩) runnable_pairState hw
    (show (1 : UInt32) ≠ 0 by decide)
  have hcalls : Calls (Function.update (fun _ => []) 0 pair)
      (fun i => if i = 0 then pairState else s') (fun _ => ⟨fun _ => 0, 1⟩) 1 := by
    refine ⟨⟨_, runnable_pairState⟩, fun _ _ _ _ => rfl, fun i hi => ?_, fun i hi => ?_,
      fun _ _ => show (1 : UInt32) ≠ 0 by decide⟩
    · obtain rfl : i = 0 := by omega
      exact hrun
    · obtain rfl : i = 0 := by omega
      exact hw
  have hfair := (schedule_is_fair hcalls).1 1 le_rfl
  rw [State.procs_ofList] at hfair
  exact ⟨s', hrun, hfair⟩

end Calls
end OxKernel.Kernel
