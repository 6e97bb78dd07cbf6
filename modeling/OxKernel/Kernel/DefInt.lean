import OxKernel.Lib.Machine
import Mathlib.Data.List.FinRange
import Mathlib.Logic.Function.Basic

/-!
# Deferred interrupts and execution

A model of `def_int.c`: two tables of handlers, whose locks tell whether a handler is scheduled
and in use, and the counter of the handlers that are to be run. The ids below
`NR_DEFINT_INT` are those of the first table, the ones from there on those of the second.

The handlers do nothing here; `defintExec` returns those it would call. An access outside
a table is noted.

## Main definitions

* `DefInt` — the tables and the counter.
* `defintInstallHandler`, `defintUninstallHandler`, `defintSchedule`, `defintUnschedule`,
  `defintInuse`, `defintExec`, `defintExecSelected` — the calls.
* `defintCalls` — the machine they make.
-/
namespace OxKernel.Kernel

open Lib (Machine)

/-- `NR_DEFINT_INT`, which is also `NR_DEFINT_EXEC`. -/
abbrev nrDefintInt : ℕ := 32

/-- `NR_DEFINT`. -/
abbrev nrDefint : ℕ := 64

/-- `NR_DEFINT_PRIORITY`. -/
def nrDefintPriority : UInt32 := 4

/-- `DEFINT_IDALLOC`. -/
def defintIdalloc : UInt32 := -1

/-- `enum defint_status`. -/
def defintOk : Int32 := 0
def defintIdinval : Int32 := -2
def defintPrinval : Int32 := -3
def defintTinval : Int32 := -4

theorem idinval_ne : defintIdinval ≠ defintOk := by decide

/-- `enum defint_type`. -/
def defintExecType : UInt32 := 0
def defintIntType : UInt32 := 1

/-- `DEFINT_CURR`. -/
def defintCurr : UInt32 := 0

/-- `SCHED_BIT` and `USE_BIT`. -/
def schedBit : UInt32 := 1
def useBit : UInt32 := 2

/-- `defint_lock_t`. -/
structure DefintLock where
  type : UInt32
  flags : UInt32
  counter : UInt32
  deriving DecidableEq

/-- `defint_tab_t`, with 0 for a NULL pointer. -/
structure DefintTab where
  entry : UInt32
  lock : DefintLock
  deriving DecidableEq

/-- `defint_exec_tab_t`. -/
structure DefintExecTab where
  args : UInt32
  entry : UInt32
  lock : DefintLock
  deriving DecidableEq

/-- The static variables. -/
structure DefInt where
  pending : UInt32
  tab : Fin nrDefintInt → DefintTab
  execTab : Fin nrDefintInt → DefintExecTab
  /-- An entry outside of a table has been read. -/
  fault : Bool

/-! ## Locks -/

namespace DefintLock
variable (x : DefintLock)

/-- `SCHEDULED` and `IN_USE`. -/
def Scheduled : Prop := x.flags &&& schedBit ≠ 0
def InUse : Prop := x.flags &&& useBit ≠ 0

instance : Decidable x.Scheduled := inferInstanceAs (Decidable (_ ≠ _))
instance : Decidable x.InUse := inferInstanceAs (Decidable (_ ≠ _))

/-- `RUNNABLE`. -/
def Runnable : Prop := x.flags &&& 3 = 3

instance : Decidable x.Runnable := inferInstanceAs (Decidable (_ = _))

def setSched : DefintLock := { x with flags := x.flags ||| schedBit }
def unsetSched : DefintLock := { x with flags := x.flags &&& ~~~schedBit }
def setUse : DefintLock := { x with flags := x.flags ||| useBit }
def unsetUse : DefintLock := { x with flags := x.flags &&& ~~~useBit }

/-- `LOCK_INIT`, and a subtype. -/
def init (type : UInt32) : DefintLock := ⟨type, 0, 1⟩

/-- The lock in `defint_schedule`: the last of several users schedules the handler. -/
def schedule : DefintLock :=
  let x := { x with counter := x.counter - 1 }
  if x.counter = 0 then x.setSched else x

/-- The lock in `defint_unschedule`. -/
def unschedule : DefintLock := { x.unsetSched with counter := x.counter + 1 }

section Bits
variable {x} {f g : UInt32}

theorem and_three : f &&& 3 = 0 ∨ f &&& 3 = 1 ∨ f &&& 3 = 2 ∨ f &&& 3 = 3 := by
  have hmod : (f &&& 3).toNat = f.toNat % 4 := by
    rw [UInt32.toNat_and]
    exact Nat.and_two_pow_sub_one_eq_mod f.toNat 2
  have hlt : f.toNat % 4 < 4 := Nat.mod_lt _ (by decide)
  have hcases : f.toNat % 4 = 0 ∨ f.toNat % 4 = 1 ∨ f.toNat % 4 = 2 ∨ f.toNat % 4 = 3 := by omega
  rw [← hmod] at hcases
  rw [← UInt32.toNat_inj, ← UInt32.toNat_inj, ← UInt32.toNat_inj, ← UInt32.toNat_inj]
  exact hcases

theorem or_and_three : (f ||| g) &&& 3 = (f &&& 3) ||| (g &&& 3) := by
  rw [← UInt32.toNat_inj]
  simp [Nat.and_or_distrib_right]

theorem and_schedBit : f &&& schedBit = (f &&& 3) &&& schedBit := by
  rw [UInt32.and_assoc]
  rfl

theorem and_useBit : f &&& useBit = (f &&& 3) &&& useBit := by
  rw [UInt32.and_assoc]
  rfl

/-- **Both bits** make a handler runnable. -/
theorem runnable_iff : x.Runnable ↔ x.Scheduled ∧ x.InUse := by
  rw [Runnable, Scheduled, InUse, and_schedBit, and_useBit]
  rcases @and_three x.flags with h | h | h | h <;> rw [h] <;> decide

@[simp] theorem scheduled_setSched : x.setSched.Scheduled := by
  rw [Scheduled, setSched, and_schedBit, or_and_three]
  rcases @and_three x.flags with h | h | h | h <;> rw [h] <;> decide

@[simp] theorem inUse_setSched : x.setSched.InUse ↔ x.InUse := by
  rw [InUse, InUse, setSched, and_useBit, or_and_three, and_useBit (f := x.flags)]
  rcases @and_three x.flags with h | h | h | h <;> rw [h] <;> decide

@[simp] theorem inUse_setUse : x.setUse.InUse := by
  rw [InUse, setUse, and_useBit, or_and_three]
  rcases @and_three x.flags with h | h | h | h <;> rw [h] <;> decide

@[simp] theorem scheduled_setUse : x.setUse.Scheduled ↔ x.Scheduled := by
  rw [Scheduled, Scheduled, setUse, and_schedBit, or_and_three, and_schedBit (f := x.flags)]
  rcases @and_three x.flags with h | h | h | h <;> rw [h] <;> decide

@[simp] theorem not_scheduled_unsetSched : ¬ x.unsetSched.Scheduled := by
  rw [Scheduled, unsetSched, UInt32.and_assoc]
  simp [schedBit]

@[simp] theorem not_inUse_unsetUse : ¬ x.unsetUse.InUse := by
  rw [InUse, unsetUse, UInt32.and_assoc]
  simp [useBit]

@[simp] theorem not_runnable_unsetUse : ¬ x.unsetUse.Runnable := by simp [runnable_iff]

@[simp] theorem not_runnable_unschedule : ¬ x.unschedule.Runnable := by
  have hsched : ¬ x.unschedule.Scheduled := not_scheduled_unsetSched (x := x)
  simp [runnable_iff, hsched]

@[simp] theorem runnable_setUse : x.setUse.Runnable ↔ x.Scheduled := by simp [runnable_iff]

/-- The user who is the last to schedule a handler makes it runnable if it is in use. -/
@[simp] theorem runnable_schedule :
    x.schedule.Runnable ↔ (x.Scheduled ∨ x.counter = 1) ∧ x.InUse := by
  have hzero : x.counter - 1 = 0 ↔ x.counter = 1 := by
    constructor
    · intro h
      rw [← UInt32.sub_add_cancel x.counter 1, h]
      rfl
    · intro h
      rw [h]
      rfl
  by_cases hlast : x.counter = 1
  · have hset : x.schedule = { x with counter := x.counter - 1 }.setSched := if_pos (hzero.mpr hlast)
    rw [hset, runnable_iff, and_iff_right scheduled_setSched, inUse_setSched]
    exact (and_iff_right (.inr hlast)).symm
  · have hkeep : x.schedule = { x with counter := x.counter - 1 } :=
      if_neg fun h => hlast (hzero.mp h)
    rw [hkeep, runnable_iff, or_iff_left hlast]
    rfl

@[simp] theorem type_setUse : x.setUse.type = x.type := rfl

@[simp] theorem type_unschedule : x.unschedule.type = x.type := rfl

@[simp] theorem type_schedule : x.schedule.type = x.type := by
  rw [schedule]
  split <;> rfl

@[simp] theorem not_runnable_init {type : UInt32} : ¬ (init type).Runnable := by
  show ¬ ((0 : UInt32) &&& 3 = 3)
  decide

end Bits

end DefintLock

/-- `_zero_int` and `_zero_exec`. -/
def DefintTab.zero : DefintTab := ⟨0, ⟨0, 0, 0⟩⟩
def DefintExecTab.zero : DefintExecTab := ⟨0, 0, ⟨0, 0, 0⟩⟩

/-- The state before the first call. -/
def DefInt.zero : DefInt := ⟨0, fun _ => .zero, fun _ => .zero, false⟩

/-! ## The calls for one handler -/

namespace DefInt
variable (s : DefInt)

/-- Change an entry of the first table. -/
def setTab (i : Fin nrDefintInt) (f : DefintTab → DefintTab) : DefInt :=
  { s with tab := Function.update s.tab i (f (s.tab i)) }

/-- Change an entry of the second table. -/
def setExec (i : Fin nrDefintInt) (f : DefintExecTab → DefintExecTab) : DefInt :=
  { s with execTab := Function.update s.execTab i (f (s.execTab i)) }

/-- `SET_PENDING`. -/
def setPending (x : DefintLock) : DefInt :=
  if x.type = 0 ∧ x.Runnable then { s with pending := s.pending + 1 } else s

/-- `UNSET_PENDING`. -/
def unsetPending : DefInt := { s with pending := s.pending - 1 }

/-- The index of an id in the range of its table. -/
def tabIndex (id : UInt32) : Option (Fin nrDefintInt) :=
  if h : id.toNat < nrDefintInt then some ⟨id.toNat, h⟩ else none

/-- `IS_INT(id) { … } IS_EXEC(id) { … } else { return (DEFINT_IDINVAL); }`, where the `else` is that
of the second test only. -/
def onHandler (id : UInt32) (onInt onExec : Fin nrDefintInt → DefInt → DefInt) : Int32 × DefInt :=
  let s := match tabIndex id with
    | some i => onInt i s
    | none => s
  match if 32 ≤ id then tabIndex (id - 32) else none with
  | some i => (defintOk, onExec i s)
  | none => (defintIdinval, s)

section OnHandler
variable {s} {id : UInt32} {onInt onExec : Fin nrDefintInt → DefInt → DefInt}

theorem tabIndex_of_lt (h : id.toNat < 32) : tabIndex id = some ⟨id.toNat, h⟩ := dif_pos h

theorem tabIndex_of_le (h : 32 ≤ id.toNat) : tabIndex id = none := dif_neg (Nat.not_lt.mpr h)

theorem not_le_of_lt (h : id.toNat < 32) : ¬ 32 ≤ id := by
  rw [UInt32.le_iff_toNat_le]
  exact Nat.not_le.mpr h

theorem toNat_sub (h : 32 ≤ id.toNat) : (id - 32).toNat = id.toNat - 32 := by
  have hlt := id.toNat_lt
  rw [UInt32.toNat_sub, show (32 : UInt32).toNat = 32 from rfl]
  omega

/-- **An id of the first table** is refused after its handler has been changed. -/
theorem onHandler_int (i : Fin nrDefintInt) (h : id.toNat = i) :
    s.onHandler id onInt onExec = (defintIdinval, onInt i s) := by
  have hlt : id.toNat < 32 := h ▸ i.isLt
  have hi : (⟨id.toNat, hlt⟩ : Fin nrDefintInt) = i := Fin.ext h
  rw [onHandler, tabIndex_of_lt hlt, hi, if_neg (not_le_of_lt hlt)]

/-- **An id of the second table.** -/
theorem onHandler_exec (i : Fin nrDefintInt) (h : id.toNat = i + 32) :
    s.onHandler id onInt onExec = (defintOk, onExec i s) := by
  have hle : 32 ≤ id.toNat := by
    rw [h]
    exact Nat.le_add_left _ _
  have hsub : (id - 32).toNat = i := by
    rw [toNat_sub hle]
    omega
  have hlt : (id - 32).toNat < 32 := hsub ▸ i.isLt
  have hi : (⟨(id - 32).toNat, hlt⟩ : Fin nrDefintInt) = i := Fin.ext hsub
  have h32 : (32 : UInt32) ≤ id := UInt32.le_iff_toNat_le.mpr hle
  rw [onHandler, tabIndex_of_le hle, if_pos h32, tabIndex_of_lt hlt, hi]

/-- **Any other id.** -/
theorem onHandler_none (h : 64 ≤ id.toNat) :
    s.onHandler id onInt onExec = (defintIdinval, s) := by
  have hle : 32 ≤ id.toNat := le_trans (by decide) h
  have hout : 32 ≤ (id - 32).toNat := by
    rw [toNat_sub hle]
    omega
  rw [onHandler, tabIndex_of_le hle, tabIndex_of_le hout, ite_self]

/-- An id is one of the first table, one of the second or none. -/
theorem id_cases (id : UInt32) : (∃ i : Fin nrDefintInt, id.toNat = i) ∨
    (∃ i : Fin nrDefintInt, id.toNat = i + 32) ∨ 64 ≤ id.toNat := by
  by_cases h : id.toNat < 32
  · exact .inl ⟨⟨id.toNat, h⟩, rfl⟩
  · by_cases h' : id.toNat < 64
    · have hlt : id.toNat - 32 < 32 := by omega
      have hadd : id.toNat = id.toNat - 32 + 32 := by omega
      exact .inr (.inl ⟨⟨id.toNat - 32, hlt⟩, hadd⟩)
    · exact .inr (.inr (Nat.le_of_not_lt h'))

end OnHandler
end DefInt

/-- `defint_uninstall_handler`. -/
def defintUninstallHandler (id : UInt32) (s : DefInt) : Int32 × DefInt :=
  s.onHandler id (fun i s => s.setTab i fun _ => .zero) fun i s => s.setExec i fun _ => .zero

/-- A change of a lock. -/
def onLock (id : UInt32) (f : DefintLock → DefintLock) (s : DefInt) : Int32 × DefInt :=
  s.onHandler id (fun i s => s.setTab i fun x => { x with lock := f x.lock })
    fun i s => s.setExec i fun x => { x with lock := f x.lock }

/-- `defint_schedule`. -/
def defintSchedule (id : UInt32) (s : DefInt) : Int32 × DefInt := onLock id .schedule s

/-- `defint_unschedule`. -/
def defintUnschedule (id : UInt32) (s : DefInt) : Int32 × DefInt := onLock id .unschedule s

/-- `defint_inuse`. -/
def defintInuse (id : UInt32) (s : DefInt) : Int32 × DefInt :=
  s.onHandler id
    (fun i s =>
      let s := s.setTab i fun x => { x with lock := x.lock.setUse }
      s.setPending (s.tab i).lock)
    fun i s =>
      let s := s.setExec i fun x => { x with lock := x.lock.setUse }
      s.setPending (s.execTab i).lock

/-! ## Installation -/

/-- The first free entry of the first table for a priority. -/
def freeInt (priority : UInt32) (s : DefInt) : Option (Fin nrDefintInt) :=
  (List.finRange nrDefintInt).find?
    fun i : Fin nrDefintInt => (priority <<< 3).toNat ≤ i.val ∧ (s.tab i).entry = 0

/-- Where a handler is to go: the index `_id`, and the id for the caller. The free slot is looked
for in `defint_tab`, whatever the type. -/
def chooseId (type id priority : UInt32) (s : DefInt) : Option (UInt32 × UInt32) :=
  if id = defintIdalloc then
    (freeInt priority s).map fun i : Fin nrDefintInt =>
      (.ofNat i, if type = defintIntType then .ofNat i else .ofNat i + 32)
  else if type = defintIntType then
    if ¬ id < 32 then none
    -- The `else` for `DEFINT_EXEC` is that of the test above.
    else if id < 32 ∨ id ≥ 64 then none
    else some (id - 32, id)
  else some (id, id)

/-- `defint_install_handler`: the status, the id for the caller and the state. -/
def defintInstallHandler (type id priority entry args subtype : UInt32) (s : DefInt) :
    (Int32 × UInt32) × DefInt :=
  if type ≠ defintIntType ∧ type ≠ defintExecType then ((defintTinval, id), s)
  else if priority ≥ nrDefintPriority then ((defintPrinval, id), s)
  else
    match chooseId type id priority s with
    | none => ((defintIdinval, id), s)
    | some (k, id) =>
      match DefInt.tabIndex k with
      | none => ((defintOk, id), { s with fault := true })
      | some i =>
        if type = defintIntType then
          if (s.tab i).entry ≠ 0 then ((defintIdinval, id), s)
          else ((defintOk, id), s.setTab i fun _ => ⟨entry, .init defintCurr⟩)
        else if (s.execTab i).entry ≠ 0 then ((defintIdinval, id), s)
        else ((defintOk, id), s.setExec i fun _ => ⟨args, entry, .init subtype⟩)

section Install
variable {s : DefInt} {type id priority entry args subtype : UInt32}

theorem tabIndex_ofNat (i : Fin nrDefintInt) : DefInt.tabIndex (.ofNat i) = some i := by
  have hi : (UInt32.ofNat i).toNat = i := UInt32.toNat_ofNat_of_lt' (i.isLt.trans (by decide))
  rw [DefInt.tabIndex_of_lt (hi.symm ▸ i.isLt)]
  exact congrArg some (Fin.ext hi)

theorem freeInt_some {i : Fin nrDefintInt} (h : freeInt priority s = some i) :
    (priority <<< 3).toNat ≤ i ∧ (s.tab i).entry = 0 := by
  have hfound := List.find?_some h
  exact of_decide_eq_true hfound

/-- A type or a priority that there is not. -/
theorem install_invalid
    (h : (type ≠ defintIntType ∧ type ≠ defintExecType) ∨ priority ≥ nrDefintPriority) :
    ∃ e, e ≠ defintOk ∧
      defintInstallHandler type id priority entry args subtype s = ((e, id), s) := by
  by_cases htype : type ≠ defintIntType ∧ type ≠ defintExecType
  · exact ⟨defintTinval, by decide, if_pos htype⟩
  · exact ⟨defintPrinval, by decide, (if_neg htype).trans (if_pos (h.resolve_left htype))⟩

/-- The rest of `defint_install_handler`, for a type and a priority that are in order. -/
theorem install_valid (htype : type = defintIntType ∨ type = defintExecType)
    (hpriority : priority < nrDefintPriority) :
    defintInstallHandler type id priority entry args subtype s =
      match chooseId type id priority s with
      | none => ((defintIdinval, id), s)
      | some (k, id) =>
        match DefInt.tabIndex k with
        | none => ((defintOk, id), { s with fault := true })
        | some i =>
          if type = defintIntType then
            if (s.tab i).entry ≠ 0 then ((defintIdinval, id), s)
            else ((defintOk, id), s.setTab i fun _ => ⟨entry, .init defintCurr⟩)
          else if (s.execTab i).entry ≠ 0 then ((defintIdinval, id), s)
          else ((defintOk, id), s.setExec i fun _ => ⟨args, entry, .init subtype⟩) := by
  have hvalid : ¬ (type ≠ defintIntType ∧ type ≠ defintExecType) := by
    rintro ⟨h, h'⟩
    exact htype.elim h h'
  have hpri : ¬ priority ≥ nrDefintPriority := UInt32.not_le.mpr hpriority
  exact (if_neg hvalid).trans (if_neg hpri)

/-- A deferred interrupt without an id goes to the first free entry. -/
theorem install_int_alloc (hpriority : priority < nrDefintPriority) :
    defintInstallHandler defintIntType defintIdalloc priority entry args subtype s =
      match freeInt priority s with
      | none => ((defintIdinval, defintIdalloc), s)
      | some i => ((defintOk, .ofNat i), s.setTab i fun _ => ⟨entry, .init defintCurr⟩) := by
  have hchoose : chooseId defintIntType defintIdalloc priority s =
      (freeInt priority s).map fun i : Fin nrDefintInt => (.ofNat i, .ofNat i) := by
    simp only [chooseId, if_pos]
  rw [install_valid (.inl rfl) hpriority, hchoose]
  cases hfree : freeInt priority s with
  | none => rfl
  | some i =>
      have h0 : ¬ (s.tab i).entry ≠ 0 := not_not.mpr (freeInt_some hfree).2
      simp only [Option.map_some, tabIndex_ofNat, if_pos, if_neg h0]

/-- A deferred execution without an id goes where the first table is free. -/
theorem install_exec_alloc (hpriority : priority < nrDefintPriority) :
    defintInstallHandler defintExecType defintIdalloc priority entry args subtype s =
      match freeInt priority s with
      | none => ((defintIdinval, defintIdalloc), s)
      | some i =>
        if (s.execTab i).entry ≠ 0 then ((defintIdinval, .ofNat i + 32), s)
        else ((defintOk, .ofNat i + 32), s.setExec i fun _ => ⟨args, entry, .init subtype⟩) := by
  have hchoose : chooseId defintExecType defintIdalloc priority s =
      (freeInt priority s).map fun i : Fin nrDefintInt => (.ofNat i, .ofNat i + 32) := by
    have htype : defintExecType ≠ defintIntType := by decide
    simp only [chooseId, if_pos, if_neg htype]
  rw [install_valid (.inr rfl) hpriority, hchoose]
  cases freeInt priority s with
  | none => rfl
  | some i =>
      simp only [Option.map_some, tabIndex_ofNat]
      exact if_neg (by decide)

/-- A deferred interrupt with an id is refused, whatever the id. -/
theorem install_int_given (hpriority : priority < nrDefintPriority) (hid : id ≠ defintIdalloc) :
    defintInstallHandler defintIntType id priority entry args subtype s =
      ((defintIdinval, id), s) := by
  have hchoose : chooseId defintIntType id priority s = none := by
    rw [chooseId, if_neg hid, if_pos rfl]
    by_cases hlt : id < 32
    · rw [if_neg (not_not.mpr hlt), if_pos (.inl hlt)]
    · rw [if_pos hlt]
  rw [install_valid (.inl rfl) hpriority, hchoose]

/-- A deferred execution with an id, which is taken for an index. -/
theorem install_exec_given (hpriority : priority < nrDefintPriority) (hid : id ≠ defintIdalloc) :
    defintInstallHandler defintExecType id priority entry args subtype s =
      match DefInt.tabIndex id with
      | none => ((defintOk, id), { s with fault := true })
      | some i =>
        if (s.execTab i).entry ≠ 0 then ((defintIdinval, id), s)
        else ((defintOk, id), s.setExec i fun _ => ⟨args, entry, .init subtype⟩) := by
  have hchoose : chooseId defintExecType id priority s = some (id, id) := by
    rw [chooseId, if_neg hid, if_neg (by decide)]
  rw [install_valid (.inr rfl) hpriority, hchoose]
  show (match DefInt.tabIndex id with | none => _ | some i => _) = _
  cases DefInt.tabIndex id with
  | none => rfl
  | some i => exact if_neg (by decide)

end Install

/-! ## Execution -/

/-- One entry of the first table in `defint_exec`, with the handlers called so far. -/
def execInt (x : List UInt32 × DefInt) (i : Fin nrDefintInt) : List UInt32 × DefInt :=
  if (x.2.tab i).lock.Runnable ∧ (x.2.tab i).entry ≠ 0 then
    (x.1 ++ [(x.2.tab i).entry],
      (x.2.setTab i fun e => { e with lock := e.lock.unsetUse }).unsetPending)
  else x

/-- One entry of the second table in `defint_exec`. -/
def execCurr (x : List UInt32 × DefInt) (i : Fin nrDefintInt) : List UInt32 × DefInt :=
  if (x.2.execTab i).lock.type = 0 ∧ (x.2.execTab i).lock.Runnable ∧
      (x.2.execTab i).entry ≠ 0 then
    (x.1 ++ [(x.2.execTab i).entry],
      (x.2.setExec i fun e => { e with lock := e.lock.unsetUse }).unsetPending)
  else x

/-- `defint_exec`. -/
def defintExec (s : DefInt) : List UInt32 × DefInt :=
  (List.finRange nrDefintInt).foldl execCurr ((List.finRange nrDefintInt).foldl execInt ([], s))

/-- One entry of the second table in `defint_exec_selected`. -/
def execSelected (type : UInt32) (x : List UInt32 × DefInt) (i : Fin nrDefintInt) :
    List UInt32 × DefInt :=
  if (x.2.execTab i).lock.type = type ∧ (x.2.execTab i).lock.Runnable ∧
      (x.2.execTab i).entry ≠ 0 then
    (x.1 ++ [(x.2.execTab i).entry], x.2.setExec i fun e => { e with lock := e.lock.unsetUse })
  else x

/-- `defint_exec_selected`. -/
def defintExecSelected (type : UInt32) (s : DefInt) : List UInt32 × DefInt :=
  (List.finRange nrDefintInt).foldl (execSelected type) ([], s)

/-! ## Runs -/

/-- A call with its arguments. -/
inductive DefintCall
  | installHandler (type id priority entry args subtype : UInt32)
  | uninstallHandler (id : UInt32)
  | schedule (id : UInt32)
  | unschedule (id : UInt32)
  | inuse (id : UInt32)
  | exec
  | execSelected (type : UInt32)

/-- The calls of the drivers and the kernel, with the status; it is 0 for a call without one. -/
def defintCalls : Machine DefInt DefintCall Int32 where
  step
    | .installHandler type id priority entry args subtype, s =>
      let r := defintInstallHandler type id priority entry args subtype s
      (r.1.1, r.2)
    | .uninstallHandler id, s => defintUninstallHandler id s
    | .schedule id, s => defintSchedule id s
    | .unschedule id, s => defintUnschedule id s
    | .inuse id, s => defintInuse id s
    | .exec, s => (0, (defintExec s).2)
    | .execSelected type, s => (0, (defintExecSelected type s).2)

end OxKernel.Kernel
