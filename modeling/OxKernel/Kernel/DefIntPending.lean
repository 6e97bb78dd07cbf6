import OxKernel.Kernel.DefInt
import OxKernel.Lib.Tally
import OxKernel.Lib.Words

/-!
# The counter of pending handlers

`DEFINT_PENDING` against the handlers that are to be run. Only `defint_inuse` counts up and only
`defint_exec` counts down; the exact condition for the counter to stay right is what the other
calls must not change.

## Main definitions

* `DefInt.runnable` — the number of handlers that are to be run.
* `DefInt.PendingOk` — the counter is that number.
* `DefInt.KeepsPending` — the condition for a call.
* `pending_ok_iff` — the runs in which the counter is right.
-/
namespace OxKernel.Kernel

open Lib (Machine tally)

/-- A handler that is installed, scheduled and in use. -/
def DefintTab.Counted (x : DefintTab) : Prop := x.entry ≠ 0 ∧ x.lock.Runnable

/-- The same, of the subtype `DEFINT_CURR`. -/
def DefintExecTab.Counted (x : DefintExecTab) : Prop :=
  x.entry ≠ 0 ∧ x.lock.type = defintCurr ∧ x.lock.Runnable

instance : DecidablePred DefintTab.Counted := fun _ => inferInstanceAs (Decidable (_ ∧ _))
instance : DecidablePred DefintExecTab.Counted := fun _ => inferInstanceAs (Decidable (_ ∧ _))

namespace DefInt

/-- The number of handlers that `defint_exec` is to run. -/
def runnable (s : DefInt) : ℕ := tally DefintTab.Counted s.tab + tally DefintExecTab.Counted s.execTab

/-- `DEFINT_PENDING` is this number, and is 0 exactly if `defint_exec` runs nothing. After an
access outside a table nothing is known of it. -/
structure PendingOk (s : DefInt) : Prop where
  inside : s.fault = false
  count : s.pending.toNat = s.runnable
  runs : s.pending = 0 ↔ (defintExec s).1 = []

/-- The handlers of the first table all have the subtype `DEFINT_CURR`. -/
def IntsCurr (s : DefInt) : Prop := ∀ i, (s.tab i).lock.type = defintCurr

section Count
variable {s : DefInt} {i : Fin nrDefintInt}

theorem runnable_le : s.runnable ≤ 64 := by
  have htab : tally DefintTab.Counted s.tab ≤ 32 := Lib.tally_le.trans (Fintype.card_fin 32).le
  have hexec : tally DefintExecTab.Counted s.execTab ≤ 32 :=
    Lib.tally_le.trans (Fintype.card_fin 32).le
  rw [runnable]
  omega

theorem runnable_eq_zero :
    s.runnable = 0 ↔ (∀ i, ¬ (s.tab i).Counted) ∧ ∀ i, ¬ (s.execTab i).Counted := by
  rw [runnable, Nat.add_eq_zero_iff, Lib.tally_eq_zero, Lib.tally_eq_zero]

/-- One handler of the first table changes. -/
theorem runnable_setTab (f : DefintTab → DefintTab) :
    (s.setTab i f).runnable + (if (s.tab i).Counted then 1 else 0) =
      s.runnable + if (f (s.tab i)).Counted then 1 else 0 := by
  have h := Lib.tally_update (c := DefintTab.Counted) (f := s.tab) (i := i) (x := f (s.tab i))
  show tally _ (Function.update s.tab i (f (s.tab i))) + tally _ s.execTab + _ =
    tally _ s.tab + tally _ s.execTab + _
  omega

/-- One handler of the second table changes. -/
theorem runnable_setExec (f : DefintExecTab → DefintExecTab) :
    (s.setExec i f).runnable + (if (s.execTab i).Counted then 1 else 0) =
      s.runnable + if (f (s.execTab i)).Counted then 1 else 0 := by
  have h := Lib.tally_update (c := DefintExecTab.Counted) (f := s.execTab) (i := i)
    (x := f (s.execTab i))
  show tally _ s.tab + tally _ (Function.update s.execTab i (f (s.execTab i))) + _ =
    tally _ s.tab + tally _ s.execTab + _
  omega

end Count

/-! ## Execution -/

section Exec
variable {σ ι β : Type} {step : List β × σ → ι → List β × σ} {c : σ → ι → Prop}

/-- A loop that calls what meets a condition, and leaves the state alone otherwise, calls
nothing exactly if nothing meets the condition. -/
theorem foldl_quiet (hno : ∀ x i, ¬ c x.2 i → step x i = x)
    (hyes : ∀ x i, c x.2 i → x.1.length < (step x i).1.length) (l : List ι) (x : List β × σ) :
    ((l.foldl step x).1.length = x.1.length ↔ ∀ i ∈ l, ¬ c x.2 i) ∧
      x.1.length ≤ (l.foldl step x).1.length ∧ ((∀ i ∈ l, ¬ c x.2 i) → l.foldl step x = x) := by
  induction l generalizing x with
  | nil => simp
  | cons i l ih =>
      rw [List.foldl_cons, List.forall_mem_cons]
      obtain ⟨hiff, hle, hsame⟩ := ih (step x i)
      by_cases hc : c x.2 i
      · have hlt := hyes x i hc
        refine ⟨iff_of_false ?_ fun h => h.1 hc, by omega, fun h => absurd hc h.1⟩
        omega
      · rw [hno x i hc] at hiff hle hsame ⊢
        exact ⟨hiff.trans (and_iff_right hc).symm, hle, fun h => hsame h.2⟩

end Exec

section Loops
variable {s : DefInt} {x : List UInt32 × DefInt} {i : Fin nrDefintInt}

theorem execInt_of_not (h : ¬ (x.2.tab i).Counted) : execInt x i = x := if_neg fun hc => h hc.symm

theorem execInt_of (h : (x.2.tab i).Counted) :
    execInt x i = (x.1 ++ [(x.2.tab i).entry],
      (x.2.setTab i fun e => { e with lock := e.lock.unsetUse }).unsetPending) := if_pos h.symm

theorem execCurr_of_not (h : ¬ (x.2.execTab i).Counted) : execCurr x i = x :=
  if_neg fun hc => h ⟨hc.2.2, hc.1, hc.2.1⟩

theorem execCurr_of (h : (x.2.execTab i).Counted) :
    execCurr x i = (x.1 ++ [(x.2.execTab i).entry],
      (x.2.setExec i fun e => { e with lock := e.lock.unsetUse }).unsetPending) :=
  if_pos ⟨h.2.1, h.2.2, h.1⟩

/-- `defint_exec` runs nothing exactly if there is nothing to be run. -/
theorem defintExec_eq_nil : (defintExec s).1 = [] ↔ s.runnable = 0 := by
  have hints := @foldl_quiet _ _ _ execInt (fun s i => (s.tab i).Counted)
    (fun _ _ => execInt_of_not) (fun x i h => by simp [execInt_of h]) (List.finRange nrDefintInt)
    ([], s)
  have hexecs := @foldl_quiet _ _ _ execCurr (fun s i => (s.execTab i).Counted)
    (fun _ _ => execCurr_of_not) (fun x i h => by simp [execCurr_of h]) (List.finRange nrDefintInt)
    ((List.finRange nrDefintInt).foldl execInt ([], s))
  have hmem : ∀ {P : Fin nrDefintInt → Prop}, (∀ i ∈ List.finRange nrDefintInt, P i) ↔ ∀ i, P i := by
    simp
  rw [hmem] at hints hexecs
  rw [runnable_eq_zero, ← List.length_eq_zero_iff, defintExec]
  constructor
  · intro h
    have hle := hexecs.2.1
    have hnone := hints.1.mp (by simp only [List.length_nil]; omega)
    refine ⟨hnone, ?_⟩
    rw [hints.2.2 hnone] at hexecs h
    exact hexecs.1.mp h
  · rintro ⟨hnone, hnone'⟩
    rw [hints.2.2 hnone] at hexecs ⊢
    exact hexecs.1.mpr hnone'

end Loops

/-! ## What a call does to the counter -/

section Counter
variable {s s' : DefInt} {i : Fin nrDefintInt}

/-- That the counter is right says the rest. -/
theorem pendingOk_iff : s.PendingOk ↔ s.fault = false ∧ s.pending.toNat = s.runnable := by
  refine ⟨fun h => ⟨h.inside, h.count⟩, fun h => ⟨h.1, h.2, ?_⟩⟩
  rw [defintExec_eq_nil, ← h.2, ← UInt32.toNat_inj]
  rfl

/-- The counter has been left alone. -/
theorem pendingOk_of_same (h : s.PendingOk) (hfault : s'.fault = s.fault)
    (hpending : s'.pending = s.pending) : s'.PendingOk ↔ s'.runnable = s.runnable := by
  rw [pendingOk_iff, hfault, h.inside, hpending, h.count, and_iff_right rfl]
  exact eq_comm

/-- The counter has been increased. -/
theorem pendingOk_of_more (h : s.PendingOk) (hfault : s'.fault = s.fault)
    (hpending : s'.pending = s.pending + 1) : s'.PendingOk ↔ s'.runnable = s.runnable + 1 := by
  have hle := s.runnable_le
  have hnext : (s.pending + 1).toNat = s.runnable + 1 := by
    rw [Lib.toNat_succ (by rw [h.count]; omega), h.count]
  rw [pendingOk_iff, hfault, h.inside, hpending, hnext, and_iff_right rfl]
  exact eq_comm

/-- The counter has been decreased, and so has the number of handlers to be run. -/
theorem PendingOk.less (h : s.PendingOk) (hfault : s'.fault = s.fault)
    (hpending : s'.pending = s.pending - 1) (hrunnable : s'.runnable + 1 = s.runnable) :
    s'.PendingOk := by
  have hle := s.runnable_le
  have hcount := h.count
  have hone : (1 : UInt32) ≤ s.pending := by
    rw [UInt32.le_iff_toNat_le, show (1 : UInt32).toNat = 1 from rfl]
    omega
  refine pendingOk_iff.mpr ⟨hfault.trans h.inside, ?_⟩
  rw [hpending, UInt32.toNat_sub_of_le _ _ hone, show (1 : UInt32).toNat = 1 from rfl]
  omega

theorem pendingOk_setTab (h : s.PendingOk) (f : DefintTab → DefintTab) :
    (s.setTab i f).PendingOk ↔ ((f (s.tab i)).Counted ↔ (s.tab i).Counted) := by
  have hcount := s.runnable_setTab (i := i) f
  have hsame : (s.setTab i f).PendingOk ↔ (s.setTab i f).runnable = s.runnable :=
    pendingOk_of_same h rfl rfl
  rw [hsame]
  by_cases hafter : (f (s.tab i)).Counted <;> by_cases hbefore : (s.tab i).Counted <;>
    simp [hafter, hbefore] at hcount ⊢ <;> omega

theorem pendingOk_setExec (h : s.PendingOk) (f : DefintExecTab → DefintExecTab) :
    (s.setExec i f).PendingOk ↔ ((f (s.execTab i)).Counted ↔ (s.execTab i).Counted) := by
  have hcount := s.runnable_setExec (i := i) f
  have hsame : (s.setExec i f).PendingOk ↔ (s.setExec i f).runnable = s.runnable :=
    pendingOk_of_same h rfl rfl
  rw [hsame]
  by_cases hafter : (f (s.execTab i)).Counted <;> by_cases hbefore : (s.execTab i).Counted <;>
    simp [hafter, hbefore] at hcount ⊢ <;> omega

end Counter

/-! ## The condition for a call -/

/-- A condition on the handler with an id, if there is one. -/
def AtHandler (s : DefInt) (id : UInt32) (P : UInt32 → DefintLock → Prop) : Prop :=
  ∀ i : Fin nrDefintInt, (id.toNat = i → P (s.tab i).entry (s.tab i).lock) ∧
    (id.toNat = i + 32 → P (s.execTab i).entry (s.execTab i).lock)

/-- **What a call must not do**: take from a handler, without counting down, what makes it one
that is to be run, or make it one without counting up. -/
def KeepsPending (s : DefInt) : DefintCall → Prop
  | .installHandler type id priority _ _ _ =>
    (type ≠ defintIntType ∧ type ≠ defintExecType) ∨ priority ≥ nrDefintPriority ∨
      type = defintIntType ∨ id = defintIdalloc ∨ id < 32
  | .uninstallHandler id =>
    s.AtHandler id fun entry lock => ¬ (entry ≠ 0 ∧ lock.type = defintCurr ∧ lock.Runnable)
  | .schedule id => s.AtHandler id fun entry lock =>
    ¬ (entry ≠ 0 ∧ lock.type = defintCurr ∧ lock.InUse ∧ ¬ lock.Scheduled ∧ lock.counter = 1)
  | .unschedule id =>
    s.AtHandler id fun entry lock => ¬ (entry ≠ 0 ∧ lock.type = defintCurr ∧ lock.Runnable)
  | .inuse id => s.AtHandler id fun entry lock =>
    lock.type = defintCurr → lock.Scheduled → entry ≠ 0 ∧ ¬ lock.InUse
  | .exec => True
  | .execSelected type => type = defintCurr → ∀ i, ¬ (s.execTab i).Counted

section Handlers
variable {s : DefInt} {id : UInt32} {i : Fin nrDefintInt}
  {onInt onExec : Fin nrDefintInt → DefInt → DefInt} {P : UInt32 → DefintLock → Prop}

/-- A call for one handler, from what it does in each of the tables. -/
theorem pendingOk_onHandler (h : s.PendingOk)
    (hint : ∀ i, (onInt i s).PendingOk ↔ P (s.tab i).entry (s.tab i).lock)
    (hexec : ∀ i, (onExec i s).PendingOk ↔ P (s.execTab i).entry (s.execTab i).lock) :
    (s.onHandler id onInt onExec).2.PendingOk ↔ s.AtHandler id P := by
  rcases id_cases id with ⟨i, hi⟩ | ⟨i, hi⟩ | hid
  · rw [onHandler_int i hi, hint]
    constructor
    · intro hP j
      have hlt : i.val < 32 := i.isLt
      refine ⟨fun hj => ?_, fun hj => ?_⟩
      · rwa [← Fin.ext (hi.symm.trans hj)]
      · omega
    · intro hat
      exact (hat i).1 hi
  · rw [onHandler_exec i hi, hexec]
    constructor
    · intro hP j
      have hlt : j.val < 32 := j.isLt
      refine ⟨fun hj => ?_, fun hj => ?_⟩
      · omega
      · have hij : i.val = j := by omega
        rwa [← Fin.ext hij]
    · intro hat
      exact (hat i).2 hi
  · rw [onHandler_none hid]
    refine iff_of_true h fun j => ?_
    have hlt : j.val < 32 := j.isLt
    exact ⟨fun hj => by omega, fun hj => by omega⟩

theorem pendingOk_uninstall (h : s.PendingOk) (hcurr : s.IntsCurr) :
    (defintUninstallHandler id s).2.PendingOk ↔ s.KeepsPending (.uninstallHandler id) := by
  rw [defintUninstallHandler, KeepsPending]
  apply pendingOk_onHandler h
  · intro i
    rw [pendingOk_setTab h]
    simp [DefintTab.Counted, DefintTab.zero, hcurr i]
  · intro i
    rw [pendingOk_setExec h]
    simp [DefintExecTab.Counted, DefintExecTab.zero]

theorem pendingOk_schedule (h : s.PendingOk) (hcurr : s.IntsCurr) :
    (defintSchedule id s).2.PendingOk ↔ s.KeepsPending (.schedule id) := by
  rw [defintSchedule, onLock, KeepsPending]
  apply pendingOk_onHandler h
  · intro i
    rw [pendingOk_setTab h]
    simp only [DefintTab.Counted, DefintLock.runnable_schedule, hcurr i]
    rw [DefintLock.runnable_iff]
    grind
  · intro i
    rw [pendingOk_setExec h]
    simp only [DefintExecTab.Counted, DefintLock.runnable_schedule, DefintLock.type_schedule]
    rw [DefintLock.runnable_iff]
    grind

theorem pendingOk_unschedule (h : s.PendingOk) (hcurr : s.IntsCurr) :
    (defintUnschedule id s).2.PendingOk ↔ s.KeepsPending (.unschedule id) := by
  rw [defintUnschedule, onLock, KeepsPending]
  apply pendingOk_onHandler h
  · intro i
    rw [pendingOk_setTab h]
    simp [DefintTab.Counted, hcurr i]
  · intro i
    rw [pendingOk_setExec h]
    simp [DefintExecTab.Counted]

/-- A handler is taken into use, which counts it if it is scheduled. -/
theorem pendingOk_setPending (h : s.PendingOk) {s' : DefInt} {entry : UInt32} {lock : DefintLock}
    {before after : Prop} [Decidable before] [Decidable after]
    (hbefore : before ↔ entry ≠ 0 ∧ lock.type = defintCurr ∧ lock.Runnable)
    (hafter : after ↔ entry ≠ 0 ∧ lock.type = defintCurr ∧ lock.Scheduled)
    (hfault : s'.fault = s.fault) (hpending : s'.pending = s.pending)
    (hcount : s'.runnable + (if before then 1 else 0) =
      s.runnable + if after then 1 else 0) :
    (s'.setPending lock.setUse).PendingOk ↔
      (lock.type = defintCurr → lock.Scheduled → entry ≠ 0 ∧ ¬ lock.InUse) := by
  by_cases hset : lock.type = defintCurr ∧ lock.Scheduled
  · have hset' : lock.setUse.type = 0 ∧ lock.setUse.Runnable :=
      ⟨hset.1, DefintLock.runnable_setUse.mpr hset.2⟩
    have hmore : (s'.setPending lock.setUse).PendingOk ↔ s'.runnable = s.runnable + 1 := by
      rw [setPending, if_pos hset']
      exact pendingOk_of_more h hfault (congrArg (· + 1) hpending)
    rw [hmore, imp_iff_right hset.1, imp_iff_right hset.2]
    simp only [hbefore, hafter, DefintLock.runnable_iff, hset.1, hset.2, true_and] at hcount
    by_cases hentry : entry = 0 <;> by_cases huse : lock.InUse <;>
      simp [hentry, huse] at hcount ⊢ <;> omega
  · have hset' : ¬ (lock.setUse.type = 0 ∧ lock.setUse.Runnable) :=
      fun hc => hset ⟨hc.1, DefintLock.runnable_setUse.mp hc.2⟩
    have hsame : (s'.setPending lock.setUse).PendingOk ↔ s'.runnable = s.runnable := by
      rw [setPending, if_neg hset']
      exact pendingOk_of_same h hfault hpending
    have hnot : ¬ before := fun hc =>
      hset ⟨(hbefore.mp hc).2.1, (DefintLock.runnable_iff.mp (hbefore.mp hc).2.2).1⟩
    rw [if_neg hnot, if_neg fun hc => hset (hafter.mp hc).2] at hcount
    rw [hsame]
    exact iff_of_true hcount fun htype hsched => absurd ⟨htype, hsched⟩ hset

theorem pendingOk_inuse (h : s.PendingOk) (hcurr : s.IntsCurr) :
    (defintInuse id s).2.PendingOk ↔ s.KeepsPending (.inuse id) := by
  rw [defintInuse, KeepsPending]
  apply pendingOk_onHandler h
  · intro i
    have hcount := s.runnable_setTab (i := i) fun x => { x with lock := x.lock.setUse }
    simp only [setTab, Function.update_self] at hcount ⊢
    refine pendingOk_setPending h ?_ ?_ ?_ ?_ hcount
    · simp [DefintTab.Counted, hcurr i]
    · simp [DefintTab.Counted, hcurr i]
    · rfl
    · rfl
  · intro i
    have hcount := s.runnable_setExec (i := i) fun x => { x with lock := x.lock.setUse }
    simp only [setExec, Function.update_self] at hcount ⊢
    refine pendingOk_setPending h ?_ ?_ ?_ ?_ hcount
    · rfl
    · simp [DefintExecTab.Counted]
    · rfl
    · rfl

/-! ### Installation -/

variable {type priority entry args subtype : UInt32}

theorem pendingOk_fault : ¬ PendingOk { s with fault := true } := fun h => Bool.noConfusion h.inside

theorem pendingOk_setTab_init (h : s.PendingOk) (hfree : (s.tab i).entry = 0) :
    (s.setTab i fun _ => ⟨entry, .init defintCurr⟩).PendingOk := by
  rw [pendingOk_setTab h]
  simp [DefintTab.Counted, hfree]

theorem pendingOk_setExec_init (h : s.PendingOk) (hfree : (s.execTab i).entry = 0) :
    (s.setExec i fun _ => ⟨args, entry, .init subtype⟩).PendingOk := by
  rw [pendingOk_setExec h]
  simp [DefintExecTab.Counted, hfree]

theorem pendingOk_install (h : s.PendingOk) :
    (defintInstallHandler type id priority entry args subtype s).2.PendingOk ↔
      s.KeepsPending (.installHandler type id priority entry args subtype) := by
  by_cases hinvalid : (type ≠ defintIntType ∧ type ≠ defintExecType) ∨ priority ≥ nrDefintPriority
  · obtain ⟨e, -, heq⟩ := install_invalid hinvalid
    rw [heq]
    exact iff_of_true h (hinvalid.imp_right .inl)
  rw [not_or, not_and_or, not_not, not_not] at hinvalid
  have hpriority : priority < nrDefintPriority := UInt32.not_le.mp hinvalid.2
  rcases hinvalid.1 with rfl | rfl
  · refine iff_of_true ?_ (.inr (.inr (.inl rfl)))
    by_cases hid : id = defintIdalloc
    · subst hid
      rw [install_int_alloc hpriority]
      cases hfree : freeInt priority s with
      | none => exact h
      | some i => exact pendingOk_setTab_init h (freeInt_some hfree).2
    · rw [install_int_given hpriority hid]
      exact h
  · by_cases hid : id = defintIdalloc
    · subst hid
      refine iff_of_true ?_ (.inr (.inr (.inr (.inl rfl))))
      rw [install_exec_alloc hpriority]
      cases freeInt priority s with
      | none => exact h
      | some i =>
          by_cases hfree : (s.execTab i).entry = 0
          · simpa only [hfree, ne_eq, not_true_eq_false, if_false] using
              pendingOk_setExec_init h hfree
          · simpa only [ne_eq, hfree, not_false_eq_true, if_true] using h
    · have htype : defintExecType ≠ defintIntType := by decide
      have hkeeps : s.KeepsPending (.installHandler defintExecType id priority entry args subtype) ↔
          id < 32 := by
        simp [KeepsPending, hid, htype, UInt32.not_le.mpr hpriority]
      rw [hkeeps, install_exec_given hpriority hid]
      by_cases hlt : id < 32
      · rw [tabIndex_of_lt (UInt32.lt_iff_toNat_lt.mp hlt)]
        refine iff_of_true ?_ hlt
        by_cases hfree : (s.execTab ⟨id.toNat, UInt32.lt_iff_toNat_lt.mp hlt⟩).entry = 0
        · simpa only [hfree, ne_eq, not_true_eq_false, if_false] using
            pendingOk_setExec_init h hfree
        · simpa only [ne_eq, hfree, not_false_eq_true, if_true] using h
      · rw [tabIndex_of_le (UInt32.le_iff_toNat_le.mp (UInt32.not_lt.mp hlt))]
        exact iff_of_false pendingOk_fault hlt

end Handlers

/-! ### Execution -/

section Execute
variable {s : DefInt} {x : List UInt32 × DefInt} {i : Fin nrDefintInt}

theorem PendingOk.execInt (h : x.2.PendingOk) : (execInt x i).2.PendingOk := by
  by_cases hc : (x.2.tab i).Counted
  · have hcount := x.2.runnable_setTab (i := i) fun e => { e with lock := e.lock.unsetUse }
    have hafter : ¬ DefintTab.Counted { x.2.tab i with lock := (x.2.tab i).lock.unsetUse } :=
      fun hc => DefintLock.not_runnable_unsetUse hc.2
    rw [if_pos hc, if_neg hafter] at hcount
    rw [execInt_of hc]
    exact h.less rfl rfl hcount
  · rwa [execInt_of_not hc]

theorem PendingOk.execCurr (h : x.2.PendingOk) : (execCurr x i).2.PendingOk := by
  by_cases hc : (x.2.execTab i).Counted
  · have hcount := x.2.runnable_setExec (i := i) fun e => { e with lock := e.lock.unsetUse }
    have hafter :
        ¬ DefintExecTab.Counted { x.2.execTab i with lock := (x.2.execTab i).lock.unsetUse } :=
      fun hc => DefintLock.not_runnable_unsetUse hc.2.2
    rw [if_pos hc, if_neg hafter] at hcount
    rw [execCurr_of hc]
    exact h.less rfl rfl hcount
  · rwa [execCurr_of_not hc]

/-- **`defint_exec`** counts down what it calls. -/
theorem PendingOk.exec (h : s.PendingOk) : (defintExec s).2.PendingOk := by
  have hints : ((List.finRange nrDefintInt).foldl Kernel.execInt ([], s)).2.PendingOk :=
    List.foldlRecOn (motive := fun x : List UInt32 × DefInt => x.2.PendingOk) _ _ h fun x hx i _ => hx.execInt
  exact List.foldlRecOn (motive := fun x : List UInt32 × DefInt => x.2.PendingOk) _ _ hints fun x hx i _ => hx.execCurr

/-- One entry in `defint_exec_selected` for the subtype `DEFINT_CURR`: what is called is one less
to be run, but not counted down. -/
theorem execSelected_curr :
    (execSelected defintCurr x i).2.fault = x.2.fault ∧
      (execSelected defintCurr x i).2.pending = x.2.pending ∧
      (execSelected defintCurr x i).2.runnable + (execSelected defintCurr x i).1.length =
        x.2.runnable + x.1.length := by
  by_cases hc : (x.2.execTab i).Counted
  · have hcount := x.2.runnable_setExec (i := i) fun e => { e with lock := e.lock.unsetUse }
    have hafter :
        ¬ DefintExecTab.Counted { x.2.execTab i with lock := (x.2.execTab i).lock.unsetUse } :=
      fun hc => DefintLock.not_runnable_unsetUse hc.2.2
    rw [if_pos hc, if_neg hafter] at hcount
    rw [execSelected, if_pos ⟨hc.2.1, hc.2.2, hc.1⟩]
    refine ⟨rfl, rfl, ?_⟩
    simp only [List.length_append, List.length_singleton]
    omega
  · rw [execSelected, if_neg fun hc' => hc ⟨hc'.2.2, hc'.1, hc'.2.1⟩]
    exact ⟨rfl, rfl, rfl⟩

/-- One entry in `defint_exec_selected` for another subtype. -/
theorem execSelected_other {type : UInt32} (htype : type ≠ defintCurr) :
    (execSelected type x i).2.fault = x.2.fault ∧
      (execSelected type x i).2.pending = x.2.pending ∧
      (execSelected type x i).2.runnable = x.2.runnable := by
  by_cases hc : (x.2.execTab i).lock.type = type ∧ (x.2.execTab i).lock.Runnable ∧
      (x.2.execTab i).entry ≠ 0
  · have hcount := x.2.runnable_setExec (i := i) fun e => { e with lock := e.lock.unsetUse }
    have hbefore : ¬ (x.2.execTab i).Counted := fun h => htype (hc.1.symm.trans h.2.1)
    have hafter :
        ¬ DefintExecTab.Counted { x.2.execTab i with lock := (x.2.execTab i).lock.unsetUse } :=
      fun hc => DefintLock.not_runnable_unsetUse hc.2.2
    rw [if_neg hbefore, if_neg hafter] at hcount
    rw [execSelected, if_pos hc]
    exact ⟨rfl, rfl, hcount⟩
  · rw [execSelected, if_neg hc]
    exact ⟨rfl, rfl, rfl⟩

theorem pendingOk_execSelected {type : UInt32} (h : s.PendingOk) :
    (defintExecSelected type s).2.PendingOk ↔ s.KeepsPending (.execSelected type) := by
  rw [defintExecSelected, KeepsPending]
  by_cases htype : type = defintCurr
  · subst htype
    rw [imp_iff_right rfl]
    have hquiet := @foldl_quiet _ _ _ (execSelected defintCurr)
      (fun s i => (s.execTab i).Counted)
      (fun x i hc => if_neg fun hc' => hc ⟨hc'.2.2, hc'.1, hc'.2.1⟩)
      (fun x i hc => by simp [execSelected, hc.1, hc.2.1, hc.2.2])
      (List.finRange nrDefintInt) ([], s)
    have hloop := List.foldlRecOn (List.finRange nrDefintInt) (execSelected defintCurr)
      (motive := fun x => x.2.fault = s.fault ∧ x.2.pending = s.pending ∧
        x.2.runnable + x.1.length = s.runnable) (b := ([], s)) ⟨rfl, rfl, rfl⟩
      fun x hx i _ => ⟨execSelected_curr.1.trans hx.1, execSelected_curr.2.1.trans hx.2.1,
        execSelected_curr.2.2.trans hx.2.2⟩
    have hnone : (∀ i ∈ List.finRange nrDefintInt, ¬ (s.execTab i).Counted) ↔
        ∀ i, ¬ (s.execTab i).Counted := by simp
    rw [pendingOk_of_same h hloop.1 hloop.2.1, ← hnone, ← hquiet.1]
    have hcount := hloop.2.2
    simp only [List.length_nil]
    omega
  · refine iff_of_true ?_ fun hcurr => absurd hcurr htype
    have hloop := List.foldlRecOn (List.finRange nrDefintInt) (execSelected type)
      (motive := fun x => x.2.fault = s.fault ∧ x.2.pending = s.pending ∧
        x.2.runnable = s.runnable) (b := ([], s)) ⟨rfl, rfl, rfl⟩
      fun x hx i _ => ⟨(execSelected_other htype).1.trans hx.1,
        (execSelected_other htype).2.1.trans hx.2.1, (execSelected_other htype).2.2.trans hx.2.2⟩
    exact (pendingOk_of_same h hloop.1 hloop.2.1).mpr hloop.2.2

end Execute

/-! ## Runs -/

section Runs
variable {s : DefInt} {c : DefintCall}

/-- **One call** keeps the counter right exactly under the condition. -/
theorem pendingOk_step (hcurr : s.IntsCurr) (h : s.PendingOk) :
    (defintCalls.step c s).2.PendingOk ↔ s.KeepsPending c := by
  cases c with
  | installHandler type id priority entry args subtype => exact pendingOk_install h
  | uninstallHandler id => exact pendingOk_uninstall h hcurr
  | schedule id => exact pendingOk_schedule h hcurr
  | unschedule id => exact pendingOk_unschedule h hcurr
  | inuse id => exact pendingOk_inuse h hcurr
  | exec =>
      simp only [defintCalls]
      exact iff_of_true h.exec trivial
  | execSelected type =>
      simp only [defintCalls]
      exact pendingOk_execSelected h

theorem intsCurr_zero : DefInt.zero.IntsCurr := fun _ => rfl

theorem pendingOk_zero : DefInt.zero.PendingOk := by
  refine pendingOk_iff.mpr ⟨rfl, ?_⟩
  rw [runnable_eq_zero.mpr ⟨fun i hi => hi.1 rfl, fun i hi => hi.1 rfl⟩]
  rfl

theorem IntsCurr.setTab {i : Fin nrDefintInt} {f : DefintTab → DefintTab} (h : s.IntsCurr)
    (hf : (f (s.tab i)).lock.type = defintCurr) : (s.setTab i f).IntsCurr := by
  intro j
  by_cases hj : j = i
  · subst hj
    simpa [DefInt.setTab] using hf
  · simpa [DefInt.setTab, Function.update_of_ne hj] using h j

theorem IntsCurr.onHandler {id : UInt32} {onInt onExec : Fin nrDefintInt → DefInt → DefInt}
    (h : s.IntsCurr) (hint : ∀ i, (onInt i s).IntsCurr) (hexec : ∀ i, (onExec i s).IntsCurr) :
    (s.onHandler id onInt onExec).2.IntsCurr := by
  rcases id_cases id with ⟨i, hi⟩ | ⟨i, hi⟩ | hid
  · rw [onHandler_int i hi]
    exact hint i
  · rw [onHandler_exec i hi]
    exact hexec i
  · rwa [onHandler_none hid]

theorem IntsCurr.setPending {x : DefintLock} (h : s.IntsCurr) : (s.setPending x).IntsCurr := by
  rw [DefInt.setPending]
  split <;> exact h

theorem IntsCurr.install {type id priority entry args subtype : UInt32} (h : s.IntsCurr) :
    (defintInstallHandler type id priority entry args subtype s).2.IntsCurr := by
  rw [defintInstallHandler]
  split
  · exact h
  split
  · exact h
  split
  · exact h
  split
  · exact h
  split <;> split
  · exact h
  · exact h.setTab (f := fun _ => ⟨entry, .init defintCurr⟩) rfl
  · exact h
  · exact h

theorem intsCurr_step (h : s.IntsCurr) : (defintCalls.step c s).2.IntsCurr := by
  cases c with
  | installHandler type id priority entry args subtype => exact h.install
  | uninstallHandler id => exact h.onHandler (fun i => h.setTab rfl) fun i => h
  | schedule id =>
      exact h.onHandler (fun i => h.setTab (DefintLock.type_schedule.trans (h i))) fun i => h
  | unschedule id => exact h.onHandler (fun i => h.setTab (h i)) fun i => h
  | inuse id =>
      exact h.onHandler (fun i => (h.setTab (h i)).setPending) fun i => IntsCurr.setPending h
  | exec =>
      simp only [defintCalls]
      have hints : ((List.finRange nrDefintInt).foldl Kernel.execInt ([], s)).2.IntsCurr := by
        refine List.foldlRecOn (motive := fun x : List UInt32 × DefInt => x.2.IntsCurr) _ _ h
          fun x hx i _ => ?_
        rw [Kernel.execInt]
        split
        · exact hx.setTab (f := fun e => { e with lock := e.lock.unsetUse }) (hx i)
        · exact hx
      refine List.foldlRecOn (motive := fun x : List UInt32 × DefInt => x.2.IntsCurr) _ _ hints
        fun x hx i _ => ?_
      rw [Kernel.execCurr]
      split <;> exact hx
  | execSelected type =>
      simp only [defintCalls]
      refine List.foldlRecOn (motive := fun x : List UInt32 × DefInt => x.2.IntsCurr) _ _ h
        fun x hx i _ => ?_
      rw [Kernel.execSelected]
      split <;> exact hx

end Runs

end DefInt

/-- **The counter is right exactly in the runs** whose calls all meet the condition. -/
theorem pending_ok_iff (cs : List DefintCall) :
    (∀ pre, pre <+: cs → (defintCalls.exec pre DefInt.zero).PendingOk) ↔
      defintCalls.Admits DefInt.KeepsPending cs DefInt.zero :=
  defintCalls.forall_exec_iff (fun _ _ h => DefInt.intsCurr_step h)
    (fun _ _ hcurr h => DefInt.pendingOk_step hcurr h) cs _ DefInt.intsCurr_zero
    DefInt.pendingOk_zero

/-- A handler that is taken into use before it is scheduled is not counted, and the counter goes
below 0 when it is run. -/
theorem pending_wraps : ¬ ∀ cs, (defintCalls.exec cs DefInt.zero).PendingOk := by
  intro h
  have hok := h [.installHandler defintExecType defintIdalloc 0 1 0 defintCurr, .inuse 32,
    .schedule 32, .exec]
  have hpending : (defintCalls.exec [.installHandler defintExecType defintIdalloc 0 1 0 defintCurr,
      .inuse 32, .schedule 32, .exec] DefInt.zero).pending = 0xffffffff := by decide +kernel
  have hle := DefInt.runnable_le (s := defintCalls.exec
    [.installHandler defintExecType defintIdalloc 0 1 0 defintCurr, .inuse 32, .schedule 32, .exec]
    DefInt.zero)
  rw [← hok.count, hpending] at hle
  exact absurd hle (by decide)

end OxKernel.Kernel
