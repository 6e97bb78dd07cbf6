import OxKernel.Lib.Machine
import OxKernel.Lib.Tally
import OxKernel.Platform.Interrupt

/-!
# Handlers that share a request

The table of the shared handlers over runs of `install_shared` and `uninstall_shared`, against
the multiset of the handlers that are installed.

## Main definitions

* `sharedCalls` — the calls.
* `SharedOk` — the table holds what is installed.
* `SharedLaw` — what an interrupt relies on.
* `shared_table` — it holds in every run.
-/
namespace OxKernel.Platform

open Lib (Machine replay tally doWhile around visit)

/-- A handler and its request. -/
abbrev Installed := Fin nrIrq × InterruptHandler

/-- A slot with a handler. -/
def SharedHandler.Used (x : SharedHandler) : Prop := x.irq ≠ irqInvalid

instance : DecidablePred SharedHandler.Used := fun _ => inferInstanceAs (Decidable (_ ≠ _))

/-- A slot with a handler for a request. -/
def SharedHandler.Is (e : Installed) (x : SharedHandler) : Prop := x.irq = e.1 ∧ x.handler = e.2

instance (e : Installed) : DecidablePred (SharedHandler.Is e) := fun _ =>
  inferInstanceAs (Decidable (_ ∧ _))

theorem natCast_ne_invalid (n : ℕ) : (n : ℤ) ≠ irqInvalid := by
  rw [irqInvalid]
  omega

/-- The table holds the handlers that are installed and nothing else, and `nr_shared` counts them. A
request that is not shared has no handler of its own. -/
structure SharedOk (s : IrqState) (held : Multiset Installed) : Prop where
  counted : s.nrShared = tally SharedHandler.Used s.sharedTab
  size : s.nrShared = held.card
  last : (s.sharedTab (Fin.last nrCircle)).irq = irqInvalid
  held : ∀ e, held.count e = tally (SharedHandler.Is e) s.sharedTab
  mask : ∀ irq, s.typeMask irq = irqShared ∨
    s.typeMask irq = irqExcl ∧ s.dispatchTab irq = .handler .interruptDefaultIrq

section Slots
variable {s : IrqState} {held : Multiset Installed} {i : Fin nrCircle} {irq : Fin nrIrq}
  {x : SharedHandler}

/-- What is said of the slots in front of `end` holds of the table. -/
theorem SharedOk.tally_eq (h : SharedOk s held) {c : SharedHandler → Prop} [DecidablePred c]
    (hc : ∀ x, c x → x.Used) : tally c s.sharedTab = tally c s.slot :=
  Lib.tally_castSucc fun hl => hc _ hl h.last

theorem SharedHandler.Is.used {e : Installed} (h : x.Is e) : x.Used := by
  rw [Used, h.1]
  exact natCast_ne_invalid _

theorem castSucc_ne_last : Fin.last nrCircle ≠ i.castSucc := (Fin.castSucc_lt_last i).ne'

/-- A free slot is filled. -/
theorem SharedOk.fill (h : SharedOk s held) (hfree : (s.slot i).irq = irqInvalid) (handler info) :
    SharedOk { s.setSlot i ⟨irq, handler, info⟩ with nrShared := s.nrShared + 1 }
      ((irq, handler) ::ₘ held) := by
  have hunused : ¬ (s.sharedTab i.castSucc).Used := not_not.mpr hfree
  have hused : SharedHandler.Used ⟨irq, handler, info⟩ := natCast_ne_invalid irq
  refine ⟨?_, ?_, ?_, fun e => ?_, h.mask⟩
  · have hgain := Lib.tally_gain hunused hused
    simp only [IrqState.setSlot, hgain, h.counted]
    rfl
  · rw [Multiset.card_cons, Nat.cast_succ, ← h.size]
  · simp only [IrqState.setSlot, Function.update_of_ne castSucc_ne_last, h.last]
  · have hnot : ¬ SharedHandler.Is e (s.sharedTab i.castSucc) := fun hc => hunused hc.used
    rw [Multiset.count_cons, h.held]
    by_cases he : e = (irq, handler)
    · have his : SharedHandler.Is e ⟨irq, handler, info⟩ := by
        rw [he]
        exact ⟨rfl, rfl⟩
      rw [if_pos he]
      exact (Lib.tally_gain hnot his).symm
    · have his : ¬ SharedHandler.Is e ⟨irq, handler, info⟩ := fun hc =>
        he (Prod.ext (Fin.ext (Int.ofNat_inj.mp hc.1)).symm hc.2.symm)
      rw [if_neg he]
      exact (Lib.tally_same (iff_of_false his hnot)).symm

/-- The handler of a slot is taken out. -/
theorem SharedOk.freeAt (h : SharedOk s held) (hirq : (s.slot i).irq = irq) :
    SharedOk (s.freeAt i) (held.erase (irq, (s.slot i).handler)) := by
  have hused : (s.sharedTab i.castSucc).Used := by
    rw [SharedHandler.Used, show (s.sharedTab i.castSucc).irq = irq from hirq]
    exact natCast_ne_invalid irq
  have hunused : ¬ SharedHandler.Used ⟨irqInvalid, .interruptDefaultIrq, 0⟩ := not_not.mpr rfl
  have hmem : (irq, (s.slot i).handler) ∈ held := by
    rw [← Multiset.count_pos, h.held, Nat.pos_iff_ne_zero, Ne, Lib.tally_eq_zero]
    exact fun hnone => hnone i.castSucc ⟨hirq, rfl⟩
  refine ⟨?_, ?_, ?_, fun e => ?_, h.mask⟩
  · have hlose := Lib.tally_lose hused hunused
    have hcounted := h.counted
    simp only [IrqState.freeAt, IrqState.setSlot]
    omega
  · have hcard := Multiset.card_erase_add_one hmem
    have hsize := h.size
    simp only [IrqState.freeAt, IrqState.setSlot]
    omega
  · simp only [IrqState.freeAt, IrqState.setSlot, Function.update_of_ne castSucc_ne_last, h.last]
  · have hnot : ¬ SharedHandler.Is e ⟨irqInvalid, .interruptDefaultIrq, 0⟩ := fun hc =>
      hunused hc.used
    by_cases he : e = (irq, (s.slot i).handler)
    · have his : SharedHandler.Is e (s.sharedTab i.castSucc) := by
        rw [he]
        exact ⟨hirq, rfl⟩
      have hlose := Lib.tally_lose his hnot
      rw [← he, Multiset.count_erase_self, h.held, ← hlose]
      rfl
    · have his : ¬ SharedHandler.Is e (s.sharedTab i.castSucc) := fun hc =>
        he (Prod.ext (Fin.ext (Int.ofNat_inj.mp (hc.1.symm.trans hirq))) hc.2.symm)
      rw [Multiset.count_erase_of_ne he, h.held]
      exact (Lib.tally_same (iff_of_false hnot his)).symm

/-- What `SharedOk` is about. -/
theorem SharedOk.congr {s' : IrqState} (h : SharedOk s held) (htab : s'.sharedTab = s.sharedTab)
    (hnr : s'.nrShared = s.nrShared) (hmask : ∀ irq, s'.typeMask irq = irqShared ∨
      s'.typeMask irq = irqExcl ∧ s'.dispatchTab irq = .handler .interruptDefaultIrq) :
    SharedOk s' held :=
  ⟨by rw [htab, hnr, h.counted], by rw [hnr, h.size], by rw [htab, h.last],
    fun e => by rw [htab, h.held], hmask⟩

end Slots

/-! ## Installation -/

section Install
variable {s : IrqState} {held : Multiset Installed} {irq : Fin nrIrq}

theorem freeSlot_some {x : Fin nrCircle × Fin 2} {i : Fin nrCircle}
    (h : (freeSlot s).run x = some i) : (s.slot i).irq = irqInvalid := by
  have hrule := Lib.Loop.run_rule (L := freeSlot s) (P := fun _ => True)
    (Q := fun r => ∀ i, r = some i → (s.slot i).irq = irqInvalid) (fun _ _ _ _ => trivial) ?_ x
    trivial
  · exact hrule i h
  · intro x r _ hbody i hr
    simp only [freeSlot] at hbody
    split at hbody
    · rename_i hfree
      cases hbody
      cases hr
      exact hfree
    · split at hbody
      · split at hbody
        · cases hbody
          cases hr
        · cases hbody
      · cases hbody

/-- **The search finds a slot** if there is a free one. -/
theorem freeSlot_isSome {x : Fin nrCircle × Fin 2}
    (h : ∃ j, (s.slot j).irq = irqInvalid ∧ (x.2 = firstPass ∨ x.1 ≤ j)) :
    ((freeSlot s).run x).isSome := by
  apply Lib.Loop.run_rule (L := freeSlot s)
    (P := fun x => ∃ j, (s.slot j).irq = irqInvalid ∧ (x.2 = firstPass ∨ x.1 ≤ j))
    (Q := fun r => r.isSome) ?_ ?_ x h
  · rintro x x' ⟨j, hj, hx⟩ hbody
    simp only [freeSlot] at hbody
    split at hbody
    · cases hbody
    · rename_i hused
      have hne : x.1 ≠ j := fun heq => hused (heq ▸ hj)
      split at hbody
      · rename_i hlast
        split at hbody
        · cases hbody
        · cases hbody
          have hnext : (Lib.next x.1).val = 0 := by rw [Lib.val_next, hlast, Nat.mod_self]
          exact ⟨j, hj, .inr (Fin.le_def.mpr (hnext ▸ Nat.zero_le _))⟩
      · rename_i hlast
        cases hbody
        refine ⟨j, hj, hx.imp_right fun hle => ?_⟩
        have hlt : x.1.val < 31 := x.1.isLt
        have hnext : (Lib.next x.1).val = x.1.val + 1 := by
          rw [Lib.val_next]
          exact Nat.mod_eq_of_lt (by omega)
        rw [Fin.le_def, hnext]
        exact Nat.succ_le_of_lt (Fin.lt_def.mp (lt_of_le_of_ne hle hne))
  · rintro x r ⟨j, hj, hx⟩ hbody
    simp only [freeSlot] at hbody
    split at hbody
    · cases hbody
      rfl
    · rename_i hused
      split at hbody
      · rename_i hlast
        split at hbody
        · rename_i hpass
          -- The last slot of the second pass would be the free one.
          have hle : x.1 ≤ j := hx.resolve_left fun h0 => by
            rw [h0] at hpass
            exact absurd hpass (by decide)
          have hlt : j.val < 31 := j.isLt
          have heq : x.1 = j := Fin.ext (by
            have := Fin.le_def.mp hle
            omega)
          exact absurd (heq ▸ hj) hused
        · cases hbody
      · cases hbody

/-- There is a free slot as long as the table is not full. -/
theorem SharedOk.exists_free (h : SharedOk s held) (hfull : s.nrShared ≠ nrIrqElem - 1) :
    ∃ j, (s.slot j).irq = irqInvalid := by
  by_contra hnone
  have hall : ∀ j, (s.slot j).Used := fun j hj => hnone ⟨j, hj⟩
  have hcard : tally SharedHandler.Used s.slot = 31 := by
    rw [tally, Finset.filter_true_of_mem fun i _ => hall i, Finset.card_univ, Fintype.card_fin]
  have hcounted := h.counted
  rw [h.tally_eq fun _ hx => hx, hcard] at hcounted
  exact hfull hcounted

theorem SharedOk.disableIrq (h : SharedOk s held) (irq : Fin nrIrq) : SharedOk (disableIrq irq s) held :=
  h.congr rfl rfl h.mask

theorem SharedOk.shareIrq (h : SharedOk s held) (irq : Fin nrIrq) :
    SharedOk (shareIrq irq s) held ∧ (Platform.shareIrq irq s).typeMask irq = irqShared ∧
      (Platform.shareIrq irq s).nrShared = s.nrShared := by
  rw [Platform.shareIrq]
  split
  · refine ⟨h.congr rfl rfl fun irq' => ?_, Function.update_self .., rfl⟩
    by_cases heq : irq' = irq
    · subst heq
      exact .inl (Function.update_self ..)
    · simp only [Function.update_of_ne heq]
      exact h.mask irq'
  · rename_i hnot
    exact ⟨h, (h.mask irq).resolve_right hnot, rfl⟩

theorem SharedOk.installShared_eq (h : SharedOk s held) (irq : Fin nrIrq)
    (handler : InterruptHandler) (info : UInt32) : ∃ t, installShared irq handler info s = installSlot irq handler info t ∧
      SharedOk t held ∧ t.typeMask irq = irqShared ∧ t.nrShared = s.nrShared := by
  obtain ⟨hok, hmask, hnr⟩ := (h.disableIrq irq).shareIrq irq
  exact ⟨_, if_neg (not_not.mpr hmask), hok, hmask, hnr⟩

/-- **`install_shared`** installs the handler, unless the table is full. -/
theorem SharedOk.install (h : SharedOk s held) (irq : Fin nrIrq) (handler : InterruptHandler)
    (info : UInt32) (hfull : s.nrShared ≠ nrIrqElem - 1) :
    ∃ s', installShared irq handler info s = .ok s' ∧ SharedOk s' ((irq, handler) ::ₘ held) := by
  obtain ⟨t, heq, hok, hmask, hnr⟩ := h.installShared_eq irq handler info
  rw [← hnr] at hfull
  obtain ⟨j, hj⟩ := hok.exists_free hfull
  obtain ⟨i, hi⟩ := Option.isSome_iff_exists.mp
    (freeSlot_isSome (x := (firstSlot irq, firstPass)) ⟨j, hj, .inl rfl⟩)
  rw [heq, installSlot, if_neg hfull, hi]
  refine ⟨_, rfl, (hok.fill (freeSlot_some hi) handler info).congr rfl rfl fun irq' => ?_⟩
  by_cases heq : irq' = irq
  · subst heq
    exact .inl hmask
  · simp only [Function.update_of_ne heq]
    exact hok.mask irq'

theorem SharedOk.install_full (h : SharedOk s held) (irq : Fin nrIrq) (handler : InterruptHandler)
    (info : UInt32) (hfull : s.nrShared = nrIrqElem - 1) :
    installShared irq handler info s = .error sharedTabFull := by
  obtain ⟨t, heq, -, -, hnr⟩ := h.installShared_eq irq handler info
  rw [heq, installSlot, if_pos (hnr.trans hfull)]

end Install

/-! ## Removal -/

section Uninstall
variable {s : IrqState} {held : Multiset Installed} {irq : Fin nrIrq}

/-- No handler of a request is left if no slot is of that request. -/
theorem SharedOk.count_eq_zero (h : SharedOk s held) {e : Installed}
    (hnone : ∀ i, ¬ SharedHandler.Is e (s.slot i)) : held.count e = 0 := by
  rw [h.held, h.tally_eq fun _ hx => hx.used, Lib.tally_eq_zero]
  exact hnone

/-- **One handler is removed.** -/
theorem SharedOk.uninstall (h : SharedOk s held) {handler : InterruptHandler}
    (hne : handler ≠ .null) :
    SharedOk (uninstallShared irq handler s) (held.erase (irq, handler)) := by
  rw [uninstallShared]
  replace h := h.disableIrq irq
  generalize Platform.disableIrq irq s = t at h
  by_cases hzero : t.nrShared = 0
  · have hheld : held.count (irq, handler) = 0 := by
      have hcounted := h.counted
      rw [hzero, eq_comm, Nat.cast_eq_zero, Lib.tally_eq_zero] at hcounted
      exact h.count_eq_zero fun i hi => hcounted i.castSucc hi.used
    simp only [if_pos hzero]
    rwa [Multiset.erase_of_notMem (Multiset.count_eq_zero.mp hheld)]
  · have hbody : ∀ i, uninstallSlot irq handler i t =
        if decide (SharedHandler.Is (irq, handler) (t.slot i)) then .inr (t.freeAt i)
        else .inl t := by
      intro i
      rw [uninstallSlot, if_neg fun hc => hne hc.2]
      by_cases hc : SharedHandler.Is (irq, handler) (t.slot i)
      · exact (if_pos hc).trans (if_pos (decide_eq_true hc)).symm
      · exact (if_neg hc).trans (if_neg fun hd => hc (of_decide_eq_true hd)).symm
    simp only [if_neg hzero, if_neg hne, Lib.run_doWhile, Lib.visit_eq_find hbody]
    cases hfind : (around (firstSlot irq)).find?
        fun i => decide (SharedHandler.Is (irq, handler) (t.slot i)) with
    | none =>
        have hnone := List.find?_eq_none.mp hfind
        have hheld : held.count (irq, handler) = 0 :=
          h.count_eq_zero fun i hi => hnone i Lib.mem_around (decide_eq_true hi)
        rwa [Multiset.erase_of_notMem (Multiset.count_eq_zero.mp hheld)]
    | some i =>
        have hfound := List.find?_some hfind
        have his : SharedHandler.Is (irq, handler) (t.slot i) := of_decide_eq_true hfound
        have hfree := h.freeAt his.1
        rwa [his.2] at hfree

/-- One round of the removal of all handlers of a request. -/
def clearSlot (irq : Fin nrIrq) (s : IrqState) (i : Fin nrCircle) : IrqState :=
  if (s.slot i).irq = irq then s.freeAt i else s

theorem uninstallSlot_null {i : Fin nrCircle} :
    uninstallSlot irq .null i s = .inl (clearSlot irq s i) := by
  by_cases hirq : (s.slot i).irq = irq <;> simp [uninstallSlot, clearSlot, hirq]

theorem slot_freeAt {i j : Fin nrCircle} :
    (s.freeAt i).slot j = if j = i then ⟨irqInvalid, .interruptDefaultIrq, 0⟩ else s.slot j := by
  simp only [IrqState.slot, IrqState.freeAt, IrqState.setSlot, Function.update_apply,
    Fin.castSucc_inj]

/-- A slot that is not of the request stays so. -/
theorem slot_clearSlot {i j : Fin nrCircle} (h : (s.slot j).irq ≠ irq) :
    ((clearSlot irq s i).slot j).irq ≠ irq := by
  rw [clearSlot]
  split
  · rw [slot_freeAt]
    split
    · exact (natCast_ne_invalid irq).symm
    · exact h
  · exact h

theorem slot_clearSlot_self {i : Fin nrCircle} : ((clearSlot irq s i).slot i).irq ≠ irq := by
  rw [clearSlot]
  split
  · rw [slot_freeAt, if_pos rfl]
    exact (natCast_ne_invalid irq).symm
  · assumption

theorem slot_foldl {l : List (Fin nrCircle)} {j : Fin nrCircle}
    (h : (s.slot j).irq ≠ irq ∨ j ∈ l) : ((l.foldl (clearSlot irq) s).slot j).irq ≠ irq := by
  induction l generalizing s with
  | nil => exact h.resolve_right List.not_mem_nil
  | cons i l ih =>
      rw [List.foldl_cons]
      rcases h with h | h
      · exact ih (.inl (slot_clearSlot h))
      · rcases List.mem_cons.mp h with rfl | h
        · exact ih (.inl slot_clearSlot_self)
        · exact ih (.inr h)

/-- The handlers of the other requests. -/
def others (irq : Fin nrIrq) (held : Multiset Installed) : Multiset Installed :=
  held.filter fun e => e.1 ≠ irq

theorem SharedOk.clearSlots (h : SharedOk s held) (irq : Fin nrIrq) (l : List (Fin nrCircle)) :
    ∃ held', SharedOk (l.foldl (clearSlot irq) s) held' ∧ others irq held' = others irq held := by
  induction l generalizing s held with
  | nil => exact ⟨held, h, rfl⟩
  | cons i l ih =>
      rw [List.foldl_cons]
      by_cases hirq : (s.slot i).irq = irq
      · have hclear : clearSlot irq s i = s.freeAt i := if_pos hirq
        obtain ⟨held', hok, hothers⟩ := ih (h.freeAt hirq)
        refine ⟨held', hclear ▸ hok, hothers.trans ?_⟩
        ext e
        simp only [others, Multiset.count_filter]
        by_cases he : e.1 = irq
        · simp [he]
        · rw [Multiset.count_erase_of_ne fun heq => he (congrArg Prod.fst heq)]
      · have hclear : clearSlot irq s i = s := if_neg hirq
        rw [hclear]
        exact ih h

/-- **All handlers of a request are removed.** -/
theorem SharedOk.uninstallAll (h : SharedOk s held) :
    SharedOk (uninstallShared irq .null s) (others irq held) := by
  rw [uninstallShared]
  replace h := h.disableIrq irq
  generalize Platform.disableIrq irq s = t at h
  by_cases hzero : t.nrShared = 0
  · have hheld : held = 0 := by
      have hcounted := h.counted
      rw [hzero, eq_comm, Nat.cast_eq_zero, Lib.tally_eq_zero] at hcounted
      refine Multiset.eq_zero_of_forall_notMem fun e he => ?_
      have hcount := h.count_eq_zero (e := e) fun i hi => hcounted i.castSucc hi.used
      exact Multiset.count_eq_zero.mp hcount he
    simp only [if_pos hzero]
    subst hheld
    exact h
  · simp only [if_neg hzero, Lib.run_doWhile,
      Lib.visit_eq_foldl fun i s => @uninstallSlot_null s irq i, if_true]
    obtain ⟨held', hok, hothers⟩ := h.clearSlots irq (around (firstSlot irq))
    have hheld : others irq held' = held' := by
      refine Multiset.filter_eq_self.mpr fun e he heq => ?_
      have hcount := hok.count_eq_zero (e := e) fun i hi =>
        slot_foldl (.inr Lib.mem_around) (hi.1.trans (by rw [heq]))
      exact Multiset.count_eq_zero.mp hcount he
    rw [← hothers, hheld]
    refine hok.congr rfl rfl fun irq' => ?_
    by_cases heq : irq' = irq
    · subst heq
      exact .inr ⟨Function.update_self .., Function.update_self ..⟩
    · simp only [Function.update_of_ne heq]
      exact hok.mask irq'

end Uninstall

/-! ## Dispatch -/

section Dispatch
variable {s : IrqState} {held : Multiset Installed} {irq : Fin nrIrq}
  {enable : InterruptHandler → Fin nrIrq → IrqStat}

/-- The handlers of a request, in the slots of a list. -/
def handlersAt (s : IrqState) (irq : Fin nrIrq) (l : List (Fin nrCircle)) : List InterruptHandler :=
  (l.filter fun i => (s.slot i).irq = irq).map fun i => (s.slot i).handler

/-- The result of `shared_handler` after the handlers of a list. -/
def anyEnable (enable : InterruptHandler → Fin nrIrq → IrqStat) (irq : Fin nrIrq)
    (l : List InterruptHandler) : IrqStat :=
  if ∃ h ∈ l, enable h irq = .irqEnable then .irqEnable else .irqDisable

/-- One round in `shared_handler`. -/
def callRound (enable : InterruptHandler → Fin nrIrq → IrqStat) (irq : Fin nrIrq) (s : IrqState)
    (x : List InterruptHandler × IrqStat) (i : Fin nrCircle) : List InterruptHandler × IrqStat :=
  if (s.slot i).irq = irq then
    (x.1 ++ [(s.slot i).handler],
      if enable (s.slot i).handler irq = .irqEnable then .irqEnable else x.2)
  else x

theorem callSlot_eq {i : Fin nrCircle} {x : List InterruptHandler × IrqStat} :
    callSlot enable irq s i x = .inl (callRound enable irq s x i) := by
  rw [callSlot, callRound]
  split <;> rfl

theorem foldl_callRound (l : List (Fin nrCircle)) (called : List InterruptHandler) :
    l.foldl (callRound enable irq s) (called, anyEnable enable irq called) =
      (called ++ handlersAt s irq l, anyEnable enable irq (called ++ handlersAt s irq l)) := by
  induction l generalizing called with
  | nil => simp [handlersAt]
  | cons i l ih =>
      rw [List.foldl_cons]
      by_cases hirq : (s.slot i).irq = irq
      · have hround : callRound enable irq s (called, anyEnable enable irq called) i =
            (called ++ [(s.slot i).handler],
              anyEnable enable irq (called ++ [(s.slot i).handler])) := by
          rw [callRound, if_pos hirq]
          by_cases henable : enable (s.slot i).handler irq = .irqEnable
          · simp [anyEnable, henable]
          · simp [anyEnable, henable, or_and_right, exists_or]
        rw [hround, ih]
        simp [handlersAt, hirq]
      · have hround : callRound enable irq s (called, anyEnable enable irq called) i =
            (called, anyEnable enable irq called) := if_neg hirq
        rw [hround, ih]
        simp [handlersAt, hirq]

/-- **`shared_handler`** calls the handlers in the slots of the request, around the circle. -/
theorem sharedHandler_eq (hpos : s.nrShared ≠ 0) : sharedHandler enable irq s =
    .ok (handlersAt s irq (around (firstSlot irq)),
      anyEnable enable irq (handlersAt s irq (around (firstSlot irq)))) := by
  have hstart : anyEnable enable irq [] = .irqDisable := by simp [anyEnable]
  rw [sharedHandler, if_neg hpos, Lib.run_doWhile,
    Lib.visit_eq_foldl fun i x => callSlot_eq (x := x) (i := i), ← hstart, foldl_callRound,
    List.nil_append]

/-- These are the handlers that are installed for it. -/
theorem SharedOk.handlersAt_around (h : SharedOk s held) :
    (handlersAt s irq (around (firstSlot irq)) : Multiset InterruptHandler) =
      (held.filter fun e => e.1 = irq).map Prod.snd := by
  ext handler
  have hslots : (handlersAt s irq (around (firstSlot irq))).count handler =
      held.count (irq, handler) := by
    rw [h.held, h.tally_eq fun _ hx => hx.used, ← Lib.countP_finRange, handlersAt, List.count,
      List.countP_map, List.countP_filter,
      ← (Lib.around_perm (firstSlot irq)).countP_eq]
    apply List.countP_congr
    intro i _
    rw [decide_eq_true_iff]
    simp [SharedHandler.Is, and_comm]
  rw [Multiset.coe_count, hslots, Multiset.count_map, Multiset.filter_filter, Multiset.count,
    Multiset.countP_eq_card_filter]
  congr 1
  apply Multiset.filter_congr
  intro e _
  rw [Prod.ext_iff]
  constructor
  · rintro ⟨h1, h2⟩
    exact ⟨h2, h1.symm⟩
  · rintro ⟨h1, h2⟩
    exact ⟨h2.symm, h1⟩

end Dispatch

/-! ## Runs -/

/-- A call with its arguments. -/
inductive SharedCall
  | install (irq : Fin nrIrq) (handler : InterruptHandler) (info : UInt32)
  | uninstall (irq : Fin nrIrq) (handler : InterruptHandler)

/-- The calls; a panic leaves the state as it was. -/
def sharedCalls : Machine IrqState SharedCall (Except Panic Unit) where
  step
    | .install irq handler info, s =>
      match installShared irq handler info s with
      | .ok s' => (.ok (), s')
      | .error e => (.error e, s)
    | .uninstall irq handler, s => (.ok (), uninstallShared irq handler s)

/-- A handler is installed, and there is room for it. -/
def SharedCall.Guard (s : IrqState) : SharedCall → Prop
  | .install irq handler info =>
    handler ≠ .null ∧ installShared irq handler info s ≠ .error sharedTabFull
  | .uninstall .. => True

/-- The handlers that are installed, after a call: one more, one less, or, without a handler in the
call, none of the request. -/
def SharedCall.update : SharedCall → Except Panic Unit → Multiset Installed → Multiset Installed
  | .install irq handler _, _, held => (irq, handler) ::ₘ held
  | .uninstall irq handler, _, held =>
    if handler = .null then held.filter fun e => e.1 ≠ irq else held.erase (irq, handler)

/-- **What an interrupt relies on**: the slots hold the installed handlers, each as often as it is
installed; `nr_shared` counts the slots in use, which are as many as there are handlers installed;
and `shared_handler` calls the handlers installed for the request, once each, and enables it if one
of them does. -/
structure SharedLaw (enable : InterruptHandler → Fin nrIrq → IrqStat) (s : IrqState)
    (held : Multiset Installed) : Prop where
  counted : s.nrShared = tally (fun x => x.irq ≠ irqInvalid) s.sharedTab
  size : s.nrShared = held.card
  slots : ∀ e : Installed, held.count e =
    tally (fun x => x.irq = (e.1 : ℤ) ∧ x.handler = e.2) s.sharedTab
  dispatch : ∀ irq, 0 < s.nrShared → ∃ called stat,
    sharedHandler enable irq s = .ok (called, stat) ∧
      (called : Multiset InterruptHandler) = (held.filter fun e => e.1 = irq).map Prod.snd ∧
      (stat = .irqEnable ↔ ∃ h ∈ called, enable h irq = .irqEnable)

section Runs
variable {s : IrqState} {held : Multiset Installed} {c : SharedCall}

theorem sharedOk_init : SharedOk (interruptInit .zero) 0 := by
  refine ⟨?_, rfl, rfl, fun e => ?_, fun irq => .inr ⟨rfl, rfl⟩⟩
  · have hunused : ∀ i, ¬ ((interruptInit .zero).sharedTab i).Used := fun i => not_not.mpr rfl
    rw [Lib.tally_eq_zero.mpr hunused]
    rfl
  · rw [Multiset.count_zero, Lib.tally_eq_zero.mpr fun i hi => hi.used rfl]

/-- **One call.** -/
theorem SharedOk.step (h : SharedOk s held) (hg : SharedCall.Guard s c) :
    (sharedCalls.step c s).1 = .ok () ∧
      SharedOk (sharedCalls.step c s).2 (c.update (sharedCalls.step c s).1 held) := by
  cases c with
  | install irq handler info =>
      obtain ⟨s', hs', hok⟩ :=
        h.install irq handler info fun hfull => hg.2 (h.install_full irq handler info hfull)
      simpa only [sharedCalls, hs', SharedCall.update, true_and] using hok
  | uninstall irq handler =>
      refine ⟨rfl, ?_⟩
      simp only [sharedCalls, SharedCall.update]
      by_cases hnull : handler = .null
      · subst hnull
        exact h.uninstallAll
      · rw [if_neg hnull]
        exact h.uninstall hnull

theorem SharedOk.law (h : SharedOk s held) (enable : InterruptHandler → Fin nrIrq → IrqStat) :
    SharedLaw enable s held := by
  refine ⟨h.counted, h.size, h.held,
    fun irq hpos => ⟨_, _, sharedHandler_eq hpos.ne', h.handlersAt_around, ?_⟩⟩
  simp [anyEnable]

/-- There is room for one more handler as long as fewer are installed than the table has slots. -/
theorem SharedOk.guard (h : SharedOk s held) (irq : Fin nrIrq) (handler : InterruptHandler)
    (info : UInt32) (hne : handler ≠ .null) (hroom : held.card + 1 < nrIrqElem) :
    SharedCall.Guard s (.install irq handler info) := by
  refine ⟨hne, ?_⟩
  have hfull : s.nrShared ≠ nrIrqElem - 1 := by
    rw [h.size]
    omega
  obtain ⟨s', hs', -⟩ := h.install irq handler info hfull
  rw [hs']
  exact fun hc => by cases hc

end Runs

/-- **The shared table in every run** that does not fill it: no call panics, and in the end an
interrupt finds what it relies on. -/
theorem shared_table (enable : InterruptHandler → Fin nrIrq → IrqStat) (cs : List SharedCall)
    (h : sharedCalls.Admits SharedCall.Guard cs (interruptInit .zero)) :
    (∀ e ∈ sharedCalls.trace cs (interruptInit .zero), e.2 = .ok ()) ∧
      SharedLaw enable (sharedCalls.exec cs (interruptInit .zero))
        (replay SharedCall.update (sharedCalls.trace cs (interruptInit .zero)) 0) := by
  constructor
  · intro e he
    obtain ⟨pre, post, htrace⟩ := List.append_of_mem he
    exact @Machine.trace_simulates _ _ _ _ sharedCalls SharedCall.Guard SharedOk
      SharedCall.update (fun _ _ r => r = .ok ())
      (fun s held c hok hg => hok.step hg) cs _ 0 sharedOk_init h pre e post htrace
  · have hok := @Machine.exec_simulates _ _ _ _ sharedCalls SharedCall.Guard SharedOk
      SharedCall.update (fun s held c hok hg => (hok.step hg).2) cs _ 0 sharedOk_init h
    exact hok.law enable

/-- Three handlers are installed, two of them for one request, and one of those is taken out. -/
def sharedRun : List SharedCall :=
  [.install 3 (.driver 1) 0, .install 3 (.driver 2) 0, .install 5 (.driver 1) 0,
    .uninstall 3 (.driver 1)]

theorem sharedRun_admits :
    sharedCalls.Admits SharedCall.Guard sharedRun (interruptInit .zero) := by
  have hg₁ := sharedOk_init.guard 3 (.driver 1) 0 (by decide) (by decide)
  have h₁ := (sharedOk_init.step hg₁).2
  have hg₂ := h₁.guard 3 (.driver 2) 0 (by decide) (by decide)
  have h₂ := (h₁.step hg₂).2
  have hg₃ := h₂.guard 5 (.driver 1) 0 (by decide) (by decide)
  exact ⟨hg₁, hg₂, hg₃, trivial, trivial⟩

/-- After these calls two handlers are installed, one of them for the first request. -/
theorem shared_table_run :
    (∀ e ∈ sharedCalls.trace sharedRun (interruptInit .zero), e.2 = .ok ()) ∧
      SharedLaw (fun _ _ => .irqEnable) (sharedCalls.exec sharedRun (interruptInit .zero))
        {(3, .driver 2), (5, .driver 1)} := by
  have hlaw := shared_table (fun _ _ => .irqEnable) sharedRun sharedRun_admits
  have hheld : replay SharedCall.update (sharedCalls.trace sharedRun (interruptInit .zero)) 0 =
      {(3, .driver 2), (5, .driver 1)} := by
    decide
  rwa [hheld] at hlaw

end OxKernel.Platform
