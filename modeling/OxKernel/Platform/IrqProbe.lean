import Mathlib.Data.Fintype.Basic
import Mathlib.Data.Nat.Bitwise
import OxKernel.Lib.Machine
import OxKernel.Platform.Interrupt

/-!
# Probes for a request

The masks of a probe as sets of requests, and what a probe promises: the dispatch table comes back,
nobody else changes it meanwhile, and the request that is reported is the only one that was
triggered. `PROBING` is tested but never set, so that this is up to the callers.

## Main definitions

* `irqs` — the requests in a mask.
* `probeCalls` — the calls, with the probe that is in progress.
* `ProbeLaw` — what a call promises.
* `Orderly` — the calls that keep the promise.
* `probe_law_iff` — the runs in which all calls keep it.
-/
namespace OxKernel.Platform

open Lib (Machine doWhile)

/-! ## Masks -/

/-- The requests in a mask. -/
def irqs (mask : UInt32) : Finset (Fin nrIrq) :=
  Finset.univ.filter fun i => mask &&& 1 <<< UInt32.ofNat i ≠ 0

section Masks
variable {mask mask' : UInt32} {i j : Fin nrIrq}

theorem toNat_bit (i : Fin nrIrq) : (1 <<< UInt32.ofNat i : UInt32).toNat = 2 ^ i.val := by
  revert i
  decide

theorem mem_irqs : i ∈ irqs mask ↔ mask.toNat.testBit i := by
  rw [irqs, Finset.mem_filter, and_iff_right (Finset.mem_univ i), Ne, ← UInt32.toNat_inj,
    UInt32.toNat_and, toNat_bit, Nat.and_two_pow]
  cases mask.toNat.testBit i <;> simp

@[simp] theorem irqs_zero : irqs 0 = ∅ := by
  ext i
  simp [mem_irqs]

@[simp] theorem irqs_or_bit : irqs (mask ||| 1 <<< UInt32.ofNat i) = insert i (irqs mask) := by
  ext j
  rw [mem_irqs, UInt32.toNat_or, toNat_bit, Nat.testBit_or, Nat.testBit_two_pow, Finset.mem_insert,
    mem_irqs, Bool.or_eq_true, decide_eq_true_eq, Fin.ext_iff]
  exact or_comm.trans (or_congr_left eq_comm)

@[simp] theorem irqs_and_not : irqs (mask &&& ~~~mask') = irqs mask \ irqs mask' := by
  ext j
  have hlt : j.val < 32 := j.isLt.trans (by decide)
  rw [Finset.mem_sdiff, mem_irqs, mem_irqs, mem_irqs, UInt32.toNat_and, Nat.testBit_and]
  have hnot : (~~~mask').toNat.testBit j = !mask'.toNat.testBit j := by
    rw [← UInt32.toNat_toBitVec, ← UInt32.toNat_toBitVec, BitVec.testBit_toNat,
      BitVec.testBit_toNat, UInt32.toBitVec_not, BitVec.getLsbD_not]
    simp [hlt]
  rw [hnot]
  simp

/-- One request of the mask in the scan. -/
theorem foldl_found {i : Fin nrIrq} (l : List (Fin nrIrq)) {b : Bool} (hl : ∀ j ∈ l, j ∈ irqs mask) :
    l.foldl (scanMask mask) ((i : ℤ), b) = ((i : ℤ), if l = [] then b else false) := by
  induction l generalizing b with
  | nil => rfl
  | cons j l ih =>
      have hj : mask &&& 1 <<< UInt32.ofNat j ≠ 0 :=
        (Finset.mem_filter.mp (hl j List.mem_cons_self)).2
      have hi : (i : ℤ) ≠ irqInvalid := by
        rw [irqInvalid]
        omega
      have hstep : scanMask mask ((i : ℤ), b) j = ((i : ℤ), false) := by
        rw [scanMask, if_pos hj, if_pos hi]
      rw [List.foldl_cons, hstep, ih fun k hk => hl k (List.mem_cons_of_mem j hk), ite_self]
      rfl

/-- The scan passes over the requests that are not in the mask. -/
theorem foldl_scanMask_filter (l : List (Fin nrIrq)) (x : ℤ × Bool) :
    l.foldl (scanMask mask) x = (l.filter (· ∈ irqs mask)).foldl (scanMask mask) x := by
  induction l generalizing x with
  | nil => rfl
  | cons i l ih =>
      by_cases hi : i ∈ irqs mask
      · simp only [List.foldl_cons, List.filter_cons, hi, decide_true, if_true, ih]
      · have hnot : ¬ (mask &&& 1 <<< UInt32.ofNat i ≠ 0) := fun hne =>
          hi (Finset.mem_filter.mpr ⟨Finset.mem_univ i, hne⟩)
        have hstep : scanMask mask x i = x := if_neg hnot
        simp only [List.foldl_cons, List.filter_cons, hi, decide_false, hstep, ih]
        rfl

/-- **The scan** reports the request of the mask if there is exactly one. -/
theorem scan_eq_true {k : ℤ} : (List.finRange nrIrq).foldl (scanMask mask) (irqInvalid, false) =
      (k, true) ↔ ∃ i : Fin nrIrq, k = i ∧ irqs mask = {i} := by
  have hnodup : ((List.finRange nrIrq).filter (· ∈ irqs mask)).Nodup :=
    (List.nodup_finRange nrIrq).filter _
  have hset : irqs mask = ((List.finRange nrIrq).filter (· ∈ irqs mask)).toFinset := by
    ext i
    simp
  have hmem : ∀ j ∈ (List.finRange nrIrq).filter (· ∈ irqs mask), j ∈ irqs mask := by
    intro j hj
    simpa using (List.mem_filter.mp hj).2
  rw [foldl_scanMask_filter]
  generalize (List.finRange nrIrq).filter (· ∈ irqs mask) = l at hnodup hset hmem
  cases l with
  | nil =>
      rw [hset]
      simp
  | cons i l =>
      have hi : mask &&& 1 <<< UInt32.ofNat i ≠ 0 :=
        (Finset.mem_filter.mp (hmem i List.mem_cons_self)).2
      have hstep : scanMask mask (irqInvalid, false) i = ((i : ℤ), true) := by
        rw [scanMask, if_pos hi, if_neg (not_not.mpr rfl)]
      rw [List.foldl_cons, hstep, foldl_found l fun j hj => hmem j (List.mem_cons_of_mem i hj), hset]
      cases l with
      | nil => simp [eq_comm]
      | cons j l =>
          refine iff_of_false (by simp) ?_
          rintro ⟨k, -, hk⟩
          have hik : i = k := by simpa using hk.subset (by simp : i ∈ (i :: j :: l).toFinset)
          have hjk : j = k := by simpa using hk.subset (by simp : j ∈ (i :: j :: l).toFinset)
          exact (List.nodup_cons.mp hnodup).1 (hik.trans hjk.symm ▸ List.mem_cons_self)

end Masks

/-! ## Runs -/

/-- A probe in progress: the dispatch table before it, the requests that were exclusively in use,
and those that have been triggered since. -/
structure Probe where
  tab : Fin nrIrq → DispatchEntry
  used : Finset (Fin nrIrq)
  fired : Finset (Fin nrIrq)

/-- The state of a run. -/
structure ProbeRun where
  irq : IrqState
  probe : Option Probe

/-- A call with its arguments, or an interrupt. For `irq_probe_done` it is said whether the pointer
is one. -/
inductive ProbeCall
  | probe
  | interrupt (irq : Fin nrIrq)
  | done (irq : Bool)
  | installHandler (irq : Int32) (type : UInt32) (handler : InterruptHandler) (info : UInt32)
  | uninstallHandler (irq : Int32) (handler : InterruptHandler)

/-- The probe that begins in a state. -/
def IrqState.beginProbe (s : IrqState) : Probe where
  tab := s.dispatchTab
  used := Finset.univ.filter fun i =>
    s.typeMask i = irqExcl ∧ s.dispatchTab i ≠ .handler .interruptDefaultIrq
  fired := ∅

/-- Go on after a call, or stay where a panic stopped it. -/
def ProbeRun.after (s : ProbeRun) (r : Except Panic IrqState) (probe : Option Probe) :
    Except Panic (Bool × Option ℤ) × ProbeRun :=
  match r with
  | .ok t => (.ok (false, none), ⟨t, probe⟩)
  | .error e => (.error e, s)

/-- The calls, with what `irq_probe_done` returns. -/
def probeCalls : Machine ProbeRun ProbeCall (Except Panic (Bool × Option ℤ)) where
  step
    | .probe, s => s.after (irqProbe s.irq) (some s.irq.beginProbe)
    | .interrupt i, s =>
      (.ok (false, none),
        ⟨irqDispatch i s.irq, s.probe.map fun p => { p with fired := insert i p.fired }⟩)
    | .done irq, s =>
      let r := irqProbeDone irq s.irq
      (.ok r.1, ⟨r.2, if irq then none else s.probe⟩)
    | .installHandler irq type handler info, s =>
      s.after (interruptInstallHandler irq type handler info s.irq) s.probe
    | .uninstallHandler irq handler, s =>
      s.after (interruptUninstallHandler irq handler s.irq) s.probe

/-- The call does not panic. -/
def NoPanic (s : ProbeRun) (c : ProbeCall) : Prop := ∃ r, (probeCalls.step c s).1 = .ok r

/-- **What a call promises while a probe is in progress**: `irq_probe_done` brings the dispatch
table back, and reports the only request that was triggered and not exclusively in use; another
probe and a change of the handlers panic. -/
def ProbeLaw (s : ProbeRun) (c : ProbeCall) : Prop :=
  ∀ p ∈ s.probe,
    match c with
    | .interrupt _ => True
    | .done _ => (probeCalls.step c s).2.irq.dispatchTab = p.tab ∧
        ∀ k, (probeCalls.step c s).1 = .ok (true, k) ↔
          ∃ i : Fin nrIrq, k = some (i : ℤ) ∧ p.fired \ p.used = {i}
    | _ => ∃ e, (probeCalls.step c s).1 = .error e

/-- **The callers keep to the order**: while a probe is in progress there are only interrupts, and
the call of `irq_probe_done` with a pointer. -/
def Orderly (s : ProbeRun) : ProbeCall → Prop
  | .interrupt _ => True
  | .done irq => s.probe = none ∨ irq = true
  | _ => s.probe = none

/-- A state in which no probe has been made yet. -/
def IrqState.unprobed (s : IrqState) (tab : Fin nrIrq → InterruptHandler) : ProbeRun :=
  ⟨{ s with
      dispatchTab := fun i => .handler (tab i)
      probing := false
      probeMask := 0
      inUseMask := 0
      irqTmp := fun _ => .handler .null }, none⟩

/-! ## The other calls -/

/-- What the calls of the drivers do with the variables of a probe: nothing, but for handlers that
they put into the dispatch table. -/
structure Untouched (s s' : IrqState) : Prop where
  probing : s'.probing = s.probing
  probeMask : s'.probeMask = s.probeMask
  inUseMask : s'.inUseMask = s.inUseMask
  irqTmp : s'.irqTmp = s.irqTmp
  dispatch : ∀ i, s'.dispatchTab i = .probeHandler → s.dispatchTab i = .probeHandler

namespace Untouched
variable {s s' s'' : IrqState} {i : Fin nrIrq} {h : InterruptHandler}

theorem refl : Untouched s s := ⟨rfl, rfl, rfl, rfl, fun _ h => h⟩

theorem trans (h : Untouched s s') (h' : Untouched s' s'') : Untouched s s'' :=
  ⟨h'.probing.trans h.probing, h'.probeMask.trans h.probeMask, h'.inUseMask.trans h.inUseMask,
    h'.irqTmp.trans h.irqTmp, fun i hi => h.dispatch i (h'.dispatch i hi)⟩

/-- A handler is put into the dispatch table, and other variables change. -/
theorem setDispatch (hs : Untouched s s') {info typeMask : Fin nrIrq → UInt32} :
    Untouched s { s' with
      dispatchTab := Function.update s'.dispatchTab i (.handler h)
      infoTab := info
      typeMask := typeMask } := by
  refine ⟨hs.probing, hs.probeMask, hs.inUseMask, hs.irqTmp, fun j hj => hs.dispatch j ?_⟩
  by_cases hij : j = i
  · subst hij
    simp only [Function.update_self] at hj
    cases hj
  · simpa only [Function.update_of_ne hij] using hj

theorem disable : Untouched s (disableIrq i s) := ⟨rfl, rfl, rfl, rfl, fun _ h => h⟩

theorem shareIrq : Untouched s (shareIrq i (disableIrq i s)) := by
  rw [Platform.shareIrq]
  split <;> exact ⟨rfl, rfl, rfl, rfl, fun _ h => h⟩

theorem installShared {handler : InterruptHandler} {info : UInt32}
    (hs : installShared i handler info s = .ok s') : Untouched s s' := by
  have hshare : Untouched s (Platform.shareIrq i (disableIrq i s)) := shareIrq
  rw [Platform.installShared] at hs
  generalize Platform.shareIrq i (disableIrq i s) = t at hs hshare
  split at hs
  · cases hs
  rw [installSlot] at hs
  split at hs
  · cases hs
  split at hs
  · cases hs
  cases hs
  refine setDispatch (hshare.trans ?_)
  exact ⟨rfl, rfl, rfl, rfl, fun _ h => h⟩

theorem uninstallSlot {handler : InterruptHandler} {k : Fin nrCircle}
    (hs : uninstallSlot i handler k s = .inl s' ∨ uninstallSlot i handler k s = .inr s') :
    Untouched s s' := by
  rw [Platform.uninstallSlot] at hs
  split at hs
  · rcases hs with hs | hs <;> cases hs
    exact ⟨rfl, rfl, rfl, rfl, fun _ h => h⟩
  split at hs
  · rcases hs with hs | hs <;> cases hs
    exact ⟨rfl, rfl, rfl, rfl, fun _ h => h⟩
  · rcases hs with hs | hs <;> cases hs
    exact refl

theorem visit {handler : InterruptHandler} (l : List (Fin nrCircle)) :
    Untouched s (Lib.visit (Platform.uninstallSlot i handler) l s) := by
  induction l generalizing s with
  | nil => exact refl
  | cons k l ih =>
      rw [Lib.visit]
      cases hk : Platform.uninstallSlot i handler k s with
      | inl s' => exact (uninstallSlot (.inl hk)).trans ih
      | inr s' => exact uninstallSlot (.inr hk)

theorem uninstallShared (handler : InterruptHandler) :
    Untouched s (uninstallShared i handler s) := by
  simp only [Platform.uninstallShared]
  split
  · exact disable
  rw [Lib.run_doWhile]
  split
  · exact setDispatch (disable.trans (visit _))
  · exact disable.trans (visit _)

theorem installHandler {irq : Int32} {type info : UInt32} {handler : InterruptHandler}
    (hs : interruptInstallHandler irq type handler info s = .ok s') : Untouched s s' := by
  rw [interruptInstallHandler] at hs
  split at hs
  · cases hs
  split at hs
  · cases hs
  split at hs
  · exact installShared hs
  split at hs
  · split at hs
    · cases hs
    split at hs
    · cases hs
      exact refl
    split at hs
    · cases hs
    · cases hs
      exact setDispatch disable
  · cases hs

theorem uninstallHandler {irq : Int32} {handler : InterruptHandler}
    (hs : interruptUninstallHandler irq handler s = .ok s') : Untouched s s' := by
  rw [interruptUninstallHandler] at hs
  split at hs
  · cases hs
  split at hs
  · cases hs
  split at hs
  · cases hs
    exact uninstallShared handler
  split at hs
  · cases hs
    exact setDispatch disable
  · cases hs
    exact refl

end Untouched

/-! ## The invariant -/

/-- The dispatch table of a probe. -/
def allProbe : Fin nrIrq → DispatchEntry := fun _ => .probeHandler

/-- While a probe is in progress the masks are its sets of requests, and `irq_tmp` is the table
before it. -/
structure DuringProbe (s : IrqState) (p : Probe) : Prop where
  dispatch : s.dispatchTab = allProbe
  irqTmp : s.irqTmp = p.tab
  fired : irqs s.probeMask = p.fired
  used : irqs s.inUseMask = p.used

/-- Otherwise the masks are empty, and the table holds other handlers. -/
structure OutsideProbe (s : IrqState) : Prop where
  dispatch : ∀ i, s.dispatchTab i ≠ .probeHandler
  probeMask : s.probeMask = 0
  inUseMask : s.inUseMask = 0

/-- The state of a run whose calls keep to the order. -/
structure ProbeOk (s : ProbeRun) : Prop where
  probing : s.irq.probing = false
  irqTmp : ∀ i, s.irq.irqTmp i ≠ .probeHandler
  during : ∀ p, s.probe = some p → DuringProbe s.irq p
  outside : s.probe = none → OutsideProbe s.irq

section Invariant
variable {s : ProbeRun} {c : ProbeCall}

theorem probeOk_unprobed (s : IrqState) (tab : Fin nrIrq → InterruptHandler) :
    ProbeOk (s.unprobed tab) := by
  refine ⟨rfl, fun i hi => ?_, fun p hp => ?_, fun _ => ⟨fun i hi => ?_, rfl, rfl⟩⟩
  · cases hi
  · cases hp
  · cases hi

/-- The loop of `irq_probe`, on some of the requests. -/
theorem foldl_probeIrq (l : List (Fin nrIrq)) (hl : l.Nodup) (s : IrqState) :
    let t := l.foldl probeIrq s
    t.probing = s.probing ∧ t.probeMask = s.probeMask ∧ t.typeMask = s.typeMask ∧
      (∀ i, t.dispatchTab i = if i ∈ l then .probeHandler else s.dispatchTab i) ∧
      (∀ i, t.irqTmp i = if i ∈ l then s.dispatchTab i else s.irqTmp i) ∧
      ∀ i, i ∈ irqs t.inUseMask ↔ i ∈ irqs s.inUseMask ∨
        i ∈ l ∧ s.typeMask i = irqExcl ∧ s.dispatchTab i ≠ .handler .interruptDefaultIrq := by
  induction l generalizing s with
  | nil => simp
  | cons j l ih =>
      obtain ⟨hj, hl⟩ := List.nodup_cons.mp hl
      obtain ⟨h1, h2, h3, hdispatch, htmp, hused⟩ := ih hl (probeIrq s j)
      simp only [List.foldl_cons]
      refine ⟨h1, h2, h3, fun i => ?_, fun i => ?_, fun i => ?_⟩
      · rw [hdispatch]
        by_cases hij : i = j
        · subst hij
          simp [probeIrq, hj]
        · simp [probeIrq, hij]
      · rw [htmp]
        by_cases hij : i = j
        · subst hij
          simp [probeIrq, hj]
        · simp [probeIrq, hij]
      · have hone : i ∈ irqs (probeIrq s j).inUseMask ↔ i ∈ irqs s.inUseMask ∨
            i = j ∧ s.typeMask j = irqExcl ∧ s.dispatchTab j ≠ .handler .interruptDefaultIrq := by
          simp only [probeIrq]
          split
          · rename_i hc
            simp [hc, or_comm]
          · rename_i hc
            simp [hc]
        rw [hused, hone, List.mem_cons]
        by_cases hij : i = j
        · subst hij
          simp [hj]
        · have htab : (probeIrq s j).dispatchTab i = s.dispatchTab i := by simp [probeIrq, hij]
          rw [htab]
          simp [hij, probeIrq]

/-- **A probe begins.** -/
theorem OutsideProbe.irqProbe {s : IrqState} (h : OutsideProbe s) (hprobing : s.probing = false) :
    ∃ t, irqProbe s = .ok t ∧ t.probing = false ∧ DuringProbe t s.beginProbe := by
  obtain ⟨h1, h2, -, hdispatch, htmp, hused⟩ :=
    foldl_probeIrq (List.finRange nrIrq) (List.nodup_finRange nrIrq) s
  refine ⟨_, if_neg (by simp [hprobing]), h1.trans hprobing, funext fun i => ?_, funext fun i => ?_,
    ?_, ?_⟩
  · rw [hdispatch, if_pos (List.mem_finRange i)]
    rfl
  · rw [htmp, if_pos (List.mem_finRange i)]
    rfl
  · rw [h2, h.probeMask, irqs_zero]
    rfl
  · ext i
    rw [hused, h.inUseMask]
    simp [IrqState.beginProbe]

/-- **A probe ends.** -/
theorem DuringProbe.done {s : IrqState} {p : Probe} (h : DuringProbe s p) :
    (irqProbeDone true s).2.dispatchTab = p.tab ∧
      ∀ k, (irqProbeDone true s).1 = (true, k) ↔
        ∃ i : Fin nrIrq, k = some (i : ℤ) ∧ p.fired \ p.used = {i} := by
  refine ⟨h.irqTmp, fun k => ?_⟩
  have hmask : irqs (s.probeMask &&& ~~~s.inUseMask) = p.fired \ p.used := by
    rw [irqs_and_not, h.fired, h.used]
  have hscan := fun k => @scan_eq_true (s.probeMask &&& ~~~s.inUseMask) k
  simp only [hmask] at hscan
  simp only [irqProbeDone]
  generalize (List.finRange nrIrq).foldl (scanMask (s.probeMask &&& ~~~s.inUseMask))
    (irqInvalid, false) = x at hscan
  obtain ⟨k', b⟩ := x
  cases b with
  | false =>
      refine iff_of_false (by simp) ?_
      rintro ⟨i, -, hi⟩
      have hx := (hscan i).mpr ⟨i, rfl, hi⟩
      simp at hx
  | true =>
      obtain ⟨j, rfl, hj⟩ := (hscan k').mp rfl
      simp only [hj, Finset.singleton_inj]
      constructor
      · intro hk
        exact ⟨j, by simpa [eq_comm] using hk, rfl⟩
      · rintro ⟨i, rfl, rfl⟩
        simp

/-- A call that leaves the variables of a probe alone. -/
theorem ProbeOk.untouched (h : ProbeOk s) {r : Except Panic IrqState} (hs : s.probe = none)
    (hr : ∀ t, r = .ok t → Untouched s.irq t) : ProbeOk (s.after r s.probe).2 := by
  cases r with
  | error e => exact h
  | ok t =>
      have ht := hr t rfl
      refine ⟨ht.probing.trans h.probing, fun i => ?_, fun p hp => ?_, fun _ => ⟨fun i hi => ?_, ?_, ?_⟩⟩
      · show t.irqTmp i ≠ _
        rw [ht.irqTmp]
        exact h.irqTmp i
      · rw [show (s.after (.ok t) s.probe).2.probe = s.probe from rfl, hs] at hp
        cases hp
      · exact (h.outside hs).dispatch i (ht.dispatch i hi)
      · exact ht.probeMask.trans (h.outside hs).probeMask
      · exact ht.inUseMask.trans (h.outside hs).inUseMask

/-- **One call** that keeps to the order. -/
theorem ProbeOk.step (h : ProbeOk s) (hc : Orderly s c) : ProbeOk (probeCalls.step c s).2 := by
  cases c with
  | probe =>
      have hs : s.probe = none := hc
      obtain ⟨t, ht, hprobing, hduring⟩ := (h.outside hs).irqProbe h.probing
      simp only [probeCalls, ht, ProbeRun.after]
      refine ⟨hprobing, fun i => ?_, fun p hp => ?_, fun hnone => ?_⟩
      · rw [hduring.irqTmp]
        exact (h.outside hs).dispatch i
      · cases hp
        exact hduring
      · cases hnone
  | interrupt i =>
      simp only [probeCalls, irqDispatch]
      cases hp : s.probe with
      | none =>
          have hout := h.outside hp
          cases hi : s.irq.dispatchTab i with
          | probeHandler => exact absurd hi (hout.dispatch i)
          | handler f => exact ⟨h.probing, h.irqTmp, fun p hp => (by cases hp), fun _ => hout⟩
      | some p =>
          have hduring := h.during p hp
          have hi : s.irq.dispatchTab i = .probeHandler := by rw [hduring.dispatch, allProbe]
          rw [hi]
          refine ⟨h.probing, h.irqTmp, fun q hq => ?_, fun hnone => (by cases hnone)⟩
          cases hq
          refine ⟨hduring.dispatch, hduring.irqTmp, ?_, hduring.used⟩
          simp only [probeHandler, irqs_or_bit, hduring.fired]
  | done irq =>
      cases irq with
      | false => simpa [probeCalls, irqProbeDone] using h
      | true =>
          simp only [probeCalls, irqProbeDone]
          exact ⟨rfl, h.irqTmp, fun p hp => (by cases hp), fun _ => ⟨h.irqTmp, rfl, rfl⟩⟩
  | installHandler irq type handler info =>
      exact h.untouched hc fun t ht => Untouched.installHandler ht
  | uninstallHandler irq handler => exact h.untouched hc fun t ht => Untouched.uninstallHandler ht

/-- **A call keeps its promise exactly if it keeps to the order**, unless it panics. -/
theorem ProbeOk.law_iff (h : ProbeOk s) (hn : NoPanic s c) : ProbeLaw s c ↔ Orderly s c := by
  have hpanic : ∀ {p}, s.probe = some p → ¬ ∃ e, (probeCalls.step c s).1 = .error e := by
    rintro p - ⟨e, he⟩
    obtain ⟨r, hr⟩ := hn
    rw [hr] at he
    cases he
  cases hs : s.probe with
  | none =>
      refine iff_of_true (fun p hp => ?_) ?_
      · rw [hs] at hp
        cases hp
      · cases c with
        | interrupt i => trivial
        | done irq => exact .inl hs
        | _ => exact hs
  | some p =>
      have hduring := h.during p hs
      have hnot : ¬ s.probe = none := by simp [hs]
      cases c with
      | interrupt i => exact iff_of_true (fun _ _ => trivial) trivial
      | done irq =>
          cases irq with
          | true =>
              refine iff_of_true (fun q hq => ?_) (.inr rfl)
              rw [hs] at hq
              cases hq
              refine ⟨hduring.done.1, fun k => ?_⟩
              rw [← hduring.done.2 k]
              simp [probeCalls]
          | false =>
              refine iff_of_false (fun hlaw => ?_) (fun ho => ho.elim hnot (by simp))
              have htab : s.irq.dispatchTab = p.tab := (hlaw p hs).1
              have hentry := h.irqTmp 0
              rw [hduring.irqTmp, ← htab, hduring.dispatch] at hentry
              exact hentry rfl
      | probe => exact iff_of_false (fun hlaw => hpanic hs (hlaw p hs)) hnot
      | installHandler irq type handler info =>
          exact iff_of_false (fun hlaw => hpanic hs (hlaw p hs)) hnot
      | uninstallHandler irq handler =>
          exact iff_of_false (fun hlaw => hpanic hs (hlaw p hs)) hnot

end Invariant

/-- **Probes keep their promise exactly in the orderly runs**, whatever the dispatch table was at
first. -/
theorem probe_law_iff (s : IrqState) (tab : Fin nrIrq → InterruptHandler) (cs : List ProbeCall)
    (h : probeCalls.Admits NoPanic cs (s.unprobed tab)) :
    probeCalls.Admits ProbeLaw cs (s.unprobed tab) ↔
      probeCalls.Admits Orderly cs (s.unprobed tab) := by
  have hok := probeOk_unprobed s tab
  generalize s.unprobed tab = r at h hok
  induction cs generalizing r with
  | nil => exact Iff.rfl
  | cons c cs ih =>
      have hlaw := hok.law_iff h.1
      rw [Machine.Admits, Machine.Admits, hlaw]
      exact and_congr_right fun hc => ih _ h.2 (hok.step hc)

theorem probe_law_iff_one :
    probeCalls.Admits ProbeLaw [.probe, .interrupt 3, .done true]
      (IrqState.zero.unprobed fun _ => .interruptDefaultIrq) ↔
      probeCalls.Admits Orderly [.probe, .interrupt 3, .done true]
        (IrqState.zero.unprobed fun _ => .interruptDefaultIrq) :=
  probe_law_iff .zero (fun _ => .interruptDefaultIrq) [.probe, .interrupt 3, .done true]
    ⟨⟨_, rfl⟩, ⟨_, rfl⟩, ⟨_, rfl⟩, trivial⟩

/-- A second probe is not refused, and the handlers are lost. -/
theorem second_probe : ¬ ∀ (s : IrqState) tab cs, probeCalls.Admits NoPanic cs (s.unprobed tab) →
    probeCalls.Admits ProbeLaw cs (s.unprobed tab) := by
  intro h
  have hlaw := h .zero (fun _ => .interruptDefaultIrq) [.probe, .probe]
    ⟨⟨_, rfl⟩, ⟨_, rfl⟩, trivial⟩
  obtain ⟨e, he⟩ := hlaw.2.1 _ rfl
  cases he

end OxKernel.Platform
