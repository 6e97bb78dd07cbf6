import OxKernel.Kernel.DefInt
import Mathlib.Data.List.OfFn

/-!
# The law of the handler tables

What `def_int.h` promises about the tables: where `defint_install_handler` puts a handler, and
which handler the other calls act on. For each call the exact condition on the tables and the
arguments under which the promise is kept.

## Main definitions

* `DefInt.Slots` — where a handler may go.
* `DefInt.TableLaw` — what a call promises.
* `DefInt.MeetsTableLaw` — when it does so.
* `table_law_iff` — it does so exactly then.
-/
namespace OxKernel.Kernel
namespace DefInt

/-! ## The promise -/

/-- The first id of a type. -/
def firstId (type : UInt32) : ℕ := if type = defintIntType then 0 else nrDefintInt

/-- The entry of the table of a type is free. -/
def Free (s : DefInt) (type : UInt32) (i : Fin nrDefintInt) : Prop :=
  if type = defintIntType then (s.tab i).entry = 0 else (s.execTab i).entry = 0

instance (s : DefInt) (type : UInt32) : DecidablePred (s.Free type) := fun i =>
  inferInstanceAs
    (Decidable (if type = defintIntType then (s.tab i).entry = 0 else (s.execTab i).entry = 0))

/-- The table of a type with a new handler. -/
def fill (s : DefInt) (type : UInt32) (i : Fin nrDefintInt) (entry args subtype : UInt32) : DefInt :=
  if type = defintIntType then s.setTab i fun _ => ⟨entry, .init defintCurr⟩
  else s.setExec i fun _ => ⟨args, entry, .init subtype⟩

/-- Where a handler may go: a free entry of the table of its type, which is that of the id, or one
from `8 * priority` on for `DEFINT_IDALLOC`. -/
def Slots (s : DefInt) (type id priority : UInt32) (i : Fin nrDefintInt) : Prop :=
  (type = defintIntType ∨ type = defintExecType) ∧ priority < nrDefintPriority ∧ s.Free type i ∧
    if id = defintIdalloc then 8 * priority.toNat ≤ i else id.toNat = firstId type + i

/-- A handler goes to such an entry, whose id is returned; without one the call fails and changes
nothing. -/
def InstallLaw (s : DefInt) (type id priority entry args subtype : UInt32) : Prop :=
  (∃ i, s.Slots type id priority i ∧
    defintInstallHandler type id priority entry args subtype s =
      ((defintOk, .ofNat (firstId type + i)), s.fill type i entry args subtype)) ∨
  ((∀ i, ¬ s.Slots type id priority i) ∧ ∃ e, e ≠ defintOk ∧
    defintInstallHandler type id priority entry args subtype s = ((e, id), s))

/-- A call for one handler succeeds exactly for the ids there are, and changes no other handler. -/
structure HandlerLaw (s : DefInt) (id : UInt32) (r : Int32 × DefInt) : Prop where
  status : r.1 = defintOk ↔ id.toNat < nrDefint
  tab : ∀ i : Fin nrDefintInt, id.toNat ≠ i → r.2.tab i = s.tab i
  execTab : ∀ i : Fin nrDefintInt, id.toNat ≠ i + nrDefintInt → r.2.execTab i = s.execTab i
  inside : r.2.fault = s.fault

/-- What a call promises. -/
def TableLaw (s : DefInt) : DefintCall → Prop
  | .installHandler type id priority entry args subtype =>
    s.InstallLaw type id priority entry args subtype
  | .uninstallHandler id => s.HandlerLaw id (defintUninstallHandler id s)
  | .schedule id => s.HandlerLaw id (defintSchedule id s)
  | .unschedule id => s.HandlerLaw id (defintUnschedule id s)
  | .inuse id => s.HandlerLaw id (defintInuse id s)
  | .exec | .execSelected _ => True

/-! ## When it is kept -/

/-- The first free entry of the first table from `8 * priority` on is free in the second. -/
def FirstFreeInBoth (s : DefInt) (priority : UInt32) : Prop :=
  ∃ i : Fin nrDefintInt, 8 * priority.toNat ≤ i ∧ s.Free defintIntType i ∧
    (∀ j < i, 8 * priority.toNat ≤ j.val → ¬ s.Free defintIntType j) ∧ s.Free defintExecType i

/-- Neither table has a free entry from `8 * priority` on. -/
def NoneFree (s : DefInt) (priority : UInt32) : Prop :=
  ∀ i : Fin nrDefintInt, 8 * priority.toNat ≤ i →
    ¬ s.Free defintIntType i ∧ ¬ s.Free defintExecType i

/-- **When `defint_install_handler` keeps its promise**: the ids are those of deferred interrupts
to be allocated, or the two tables happen to be free alike, or the call fails rightly. -/
def MeetsInstallLaw (s : DefInt) (type id priority : UInt32) : Prop :=
  (type ≠ defintIntType ∧ type ≠ defintExecType) ∨ priority ≥ nrDefintPriority ∨
    if type = defintIntType then
      id = defintIdalloc ∨ ∀ i : Fin nrDefintInt, id.toNat = i → ¬ s.Free defintIntType i
    else if id = defintIdalloc then s.FirstFreeInBoth priority ∨ s.NoneFree priority
    else ∃ i : Fin nrDefintInt, id.toNat = i ∧ ¬ s.Free defintExecType i

/-- **When a call keeps its promise**; the calls for one handler do so for the ids that are not of
the first table. -/
def MeetsTableLaw (s : DefInt) : DefintCall → Prop
  | .installHandler type id priority _ _ _ => s.MeetsInstallLaw type id priority
  | .uninstallHandler id | .schedule id | .unschedule id | .inuse id => 32 ≤ id
  | .exec | .execSelected _ => True

/-! ## The calls for one handler -/

section Handlers
variable {s : DefInt} {id : UInt32} {i : Fin nrDefintInt}
  {onInt onExec : Fin nrDefintInt → DefInt → DefInt}

/-- What a change of an entry of the second table keeps. -/
structure OnlyExec (s s' : DefInt) (i : Fin nrDefintInt) : Prop where
  tab : s'.tab = s.tab
  execTab : ∀ j, j ≠ i → s'.execTab j = s.execTab j
  inside : s'.fault = s.fault

theorem onlyExec_setExec (f : DefintExecTab → DefintExecTab) : OnlyExec s (s.setExec i f) i :=
  ⟨rfl, fun _ hj => Function.update_of_ne hj _ _, rfl⟩

theorem OnlyExec.setPending {s' : DefInt} {x : DefintLock} (h : OnlyExec s s' i) :
    OnlyExec s (s'.setPending x) i := by
  rw [DefInt.setPending]
  split
  · exact ⟨h.tab, h.execTab, h.inside⟩
  · exact h

/-- The `else` of the second test makes the call fail for the ids of the first table. -/
theorem handlerLaw_onHandler (hexec : ∀ i, OnlyExec s (onExec i s) i) :
    s.HandlerLaw id (s.onHandler id onInt onExec) ↔ 32 ≤ id := by
  rcases id_cases id with ⟨i, hi⟩ | ⟨i, hi⟩ | hid
  · have hlt : id.toNat < 32 := hi ▸ i.isLt
    refine iff_of_false (fun h => ?_) (not_le_of_lt hlt)
    have hok := h.status.mpr (hlt.trans (by decide))
    rw [onHandler_int i hi] at hok
    exact idinval_ne hok
  · have hle : 32 ≤ id.toNat := hi ▸ Nat.le_add_left _ _
    have hlt : i.val < 32 := i.isLt
    refine iff_of_true ?_ (UInt32.le_iff_toNat_le.mpr hle)
    rw [onHandler_exec i hi]
    refine ⟨iff_of_true rfl ?_, fun j _ => congrFun (hexec i).tab j, fun j hj => ?_, (hexec i).inside⟩
    · show id.toNat < 64
      omega
    · exact (hexec i).execTab j fun hij => hj (hij ▸ hi)
  · have hle : (32 : UInt32) ≤ id := UInt32.le_iff_toNat_le.mpr (le_trans (by decide) hid)
    refine iff_of_true ?_ hle
    rw [onHandler_none hid]
    exact ⟨iff_of_false idinval_ne (Nat.not_lt.mpr hid), fun _ _ => rfl, fun _ _ => rfl, rfl⟩

theorem handlerLaw_onLock (f : DefintLock → DefintLock) :
    s.HandlerLaw id (onLock id f s) ↔ 32 ≤ id :=
  handlerLaw_onHandler fun _ => onlyExec_setExec _

theorem handlerLaw_inuse : s.HandlerLaw id (defintInuse id s) ↔ 32 ≤ id :=
  handlerLaw_onHandler fun _ => (onlyExec_setExec _).setPending

end Handlers

/-! ## Installation -/

section Install
variable {s : DefInt} {type id priority entry args subtype : UInt32}

theorem toNat_priority (h : priority < nrDefintPriority) :
    (priority <<< 3).toNat = 8 * priority.toNat := by
  have hlt : priority.toNat < 4 := UInt32.lt_iff_toNat_lt.mp h
  rw [UInt32.toNat_shiftLeft, show (3 : UInt32).toNat % 32 = 3 from rfl, Nat.shiftLeft_eq]
  omega

/-- The entry that is found is the first one that is free. -/
theorem freeInt_eq_some (h : priority < nrDefintPriority) {i : Fin nrDefintInt} :
    freeInt priority s = some i ↔ 8 * priority.toNat ≤ i ∧ s.Free defintIntType i ∧
      ∀ j < i, 8 * priority.toNat ≤ j.val → ¬ s.Free defintIntType j := by
  have hfind := List.find?_ofFn_eq_some_of_injective (f := @id (Fin nrDefintInt)) (i := i)
    (p := fun i => decide (8 * priority.toNat ≤ i.val ∧ (s.tab i).entry = 0)) Function.injective_id
  rw [List.ofFn_id] at hfind
  rw [freeInt, toNat_priority h]
  refine hfind.trans ?_
  simp [Free, and_assoc]

theorem freeInt_eq_none (h : priority < nrDefintPriority) : freeInt priority s = none ↔
    ∀ i : Fin nrDefintInt, 8 * priority.toNat ≤ i → ¬ s.Free defintIntType i := by
  rw [freeInt, toNat_priority h]
  simp [Free]

theorem slots_int_alloc (h : priority < nrDefintPriority) {i : Fin nrDefintInt} :
    s.Slots defintIntType defintIdalloc priority i ↔
      s.Free defintIntType i ∧ 8 * priority.toNat ≤ i := by
  simp [Slots, h]

theorem slots_exec_alloc (h : priority < nrDefintPriority) {i : Fin nrDefintInt} :
    s.Slots defintExecType defintIdalloc priority i ↔
      s.Free defintExecType i ∧ 8 * priority.toNat ≤ i := by
  simp [Slots, h]

theorem installLaw_int_alloc (h : priority < nrDefintPriority) :
    s.InstallLaw defintIntType defintIdalloc priority entry args subtype := by
  rw [InstallLaw, install_int_alloc h]
  cases hfree : freeInt priority s with
  | none =>
      refine .inr ⟨fun i hi => ?_, defintIdinval, idinval_ne, rfl⟩
      rw [slots_int_alloc h] at hi
      exact (freeInt_eq_none h).mp hfree i hi.2 hi.1
  | some i =>
      obtain ⟨hle, hi, -⟩ := (freeInt_eq_some h).mp hfree
      refine .inl ⟨i, (slots_int_alloc h).mpr ⟨hi, hle⟩, ?_⟩
      simp [firstId, fill]

theorem installLaw_int_given (h : priority < nrDefintPriority) (hid : id ≠ defintIdalloc) :
    s.InstallLaw defintIntType id priority entry args subtype ↔
      ∀ i : Fin nrDefintInt, id.toNat = i → ¬ s.Free defintIntType i := by
  have hslots : ∀ i, s.Slots defintIntType id priority i ↔
      s.Free defintIntType i ∧ id.toNat = i := by
    simp [Slots, h, hid, firstId]
  simp only [InstallLaw, install_int_given h hid, hslots]
  constructor
  · rintro (⟨i, -, heq⟩ | ⟨hnone, -⟩) j hj hfree
    · exact absurd (congrArg (·.1.1) heq) idinval_ne
    · exact hnone j ⟨hfree, hj⟩
  · intro hnone
    exact .inr ⟨fun i hi => hnone i hi.2 hi.1, defintIdinval, idinval_ne, rfl⟩

theorem installLaw_exec_alloc (h : priority < nrDefintPriority) :
    s.InstallLaw defintExecType defintIdalloc priority entry args subtype ↔
      s.FirstFreeInBoth priority ∨ s.NoneFree priority := by
  have hid : ∀ i : Fin nrDefintInt, UInt32.ofNat i + 32 = .ofNat (32 + i) := by decide
  have hne : ∀ i : Fin nrDefintInt, UInt32.ofNat i + 32 ≠ defintIdalloc := by decide
  simp only [InstallLaw, install_exec_alloc h, slots_exec_alloc h]
  cases hfree : freeInt priority s with
  | none =>
      have hnone := (freeInt_eq_none h).mp hfree
      constructor
      · rintro (⟨i, -, heq⟩ | ⟨hslots, -⟩)
        · exact absurd (congrArg (·.1.1) heq) idinval_ne
        · exact .inr fun i hi => ⟨hnone i hi, fun hexec => hslots i ⟨hexec, hi⟩⟩
      · rintro (⟨i, hi, hint, -⟩ | hnone')
        · exact absurd hint (hnone i hi)
        · exact .inr ⟨fun i hi => (hnone' i hi.2).2 hi.1, defintIdinval, idinval_ne, rfl⟩
  | some i =>
      obtain ⟨hle, hint, hfirst⟩ := (freeInt_eq_some h).mp hfree
      by_cases hexec : s.Free defintExecType i
      · have hentry : ¬ (s.execTab i).entry ≠ 0 := not_not.mpr hexec
        simp only [if_neg hentry]
        refine iff_of_true (.inl ⟨i, ⟨hexec, hle⟩, ?_⟩) (.inl ⟨i, hle, hint, hfirst, hexec⟩)
        rw [hid i]
        rfl
      · have hentry : (s.execTab i).entry ≠ 0 := hexec
        simp only [if_pos hentry]
        -- The caller's id has been changed, so that not even a failure is right.
        refine iff_of_false ?_ ?_
        · rintro (⟨j, -, heq⟩ | ⟨-, e, -, heq⟩)
          · exact absurd (congrArg (·.1.1) heq) idinval_ne
          · exact hne i (congrArg (·.1.2) heq)
        · rintro (⟨j, hj, hjint, hjfirst, hjexec⟩ | hnone)
          · rcases lt_trichotomy i j with hlt | rfl | hlt
            · exact hjfirst i hlt hle hint
            · exact hexec hjexec
            · exact hfirst j hlt hj hjint
          · exact (hnone i hle).1 hint

theorem installLaw_exec_given (h : priority < nrDefintPriority) (hid : id ≠ defintIdalloc)
    (hfault : s.fault = false) :
    s.InstallLaw defintExecType id priority entry args subtype ↔
      ∃ i : Fin nrDefintInt, id.toNat = i ∧ ¬ s.Free defintExecType i := by
  have hslots : ∀ i, s.Slots defintExecType id priority i ↔
      s.Free defintExecType i ∧ id.toNat = 32 + i := by
    have htype : defintExecType ≠ defintIntType := by decide
    simp [Slots, h, hid, firstId, htype]
  simp only [InstallLaw, install_exec_given h hid, hslots]
  by_cases hlt : id.toNat < 32
  · have hnot : ∀ i : Fin nrDefintInt, id.toNat ≠ 32 + i := fun i => by omega
    rw [tabIndex_of_lt hlt]
    by_cases hfree : s.Free defintExecType ⟨id.toNat, hlt⟩
    · have hentry : ¬ (s.execTab ⟨id.toNat, hlt⟩).entry ≠ 0 := not_not.mpr hfree
      simp only [if_neg hentry]
      refine iff_of_false ?_ ?_
      · rintro (⟨i, hi, -⟩ | ⟨-, e, he, heq⟩)
        · exact hnot i hi.2
        · exact he (congrArg (·.1.1) heq).symm
      · rintro ⟨i, hi, hexec⟩
        exact hexec ((Fin.ext hi : (⟨id.toNat, hlt⟩ : Fin nrDefintInt) = i) ▸ hfree)
    · have hentry : (s.execTab ⟨id.toNat, hlt⟩).entry ≠ 0 := hfree
      simp only [if_pos hentry]
      exact iff_of_true (.inr ⟨fun i hi => hnot i hi.2, defintIdinval, idinval_ne, rfl⟩)
        ⟨⟨id.toNat, hlt⟩, rfl, hfree⟩
  · rw [tabIndex_of_le (Nat.le_of_not_lt hlt)]
    refine iff_of_false ?_ fun ⟨i, hi, _⟩ => hlt (hi ▸ i.isLt)
    rintro (⟨i, -, heq⟩ | ⟨-, e, he, heq⟩)
    · have hstate : true = s.fault := congrArg (·.2.fault) heq
      exact Bool.noConfusion (hstate.trans hfault)
    · exact he (congrArg (·.1.1) heq).symm

theorem installLaw_iff (hfault : s.fault = false) :
    s.InstallLaw type id priority entry args subtype ↔ s.MeetsInstallLaw type id priority := by
  by_cases hinvalid : (type ≠ defintIntType ∧ type ≠ defintExecType) ∨ priority ≥ nrDefintPriority
  · refine iff_of_true (.inr ⟨?_, install_invalid hinvalid⟩) (hinvalid.imp_right .inl)
    rintro i ⟨htype, hpriority, -⟩
    rcases hinvalid with hnone | hlarge
    · exact htype.elim hnone.1 hnone.2
    · exact UInt32.not_le.mpr hpriority hlarge
  rw [not_or, not_and_or, not_not, not_not] at hinvalid
  have hpriority : priority < nrDefintPriority := UInt32.not_le.mp hinvalid.2
  have hmeets : s.MeetsInstallLaw type id priority ↔
      if type = defintIntType then
        id = defintIdalloc ∨ ∀ i : Fin nrDefintInt, id.toNat = i → ¬ s.Free defintIntType i
      else if id = defintIdalloc then s.FirstFreeInBoth priority ∨ s.NoneFree priority
      else ∃ i : Fin nrDefintInt, id.toNat = i ∧ ¬ s.Free defintExecType i := by
    rw [MeetsInstallLaw, or_iff_right fun hnone => hinvalid.1.elim hnone.1 hnone.2,
      or_iff_right hinvalid.2]
  rw [hmeets]
  rcases hinvalid.1 with rfl | rfl
  · rw [if_pos rfl]
    by_cases hid : id = defintIdalloc
    · subst hid
      exact iff_of_true (installLaw_int_alloc hpriority) (.inl rfl)
    · rw [or_iff_right hid]
      exact installLaw_int_given hpriority hid
  · rw [if_neg (by decide)]
    by_cases hid : id = defintIdalloc
    · subst hid
      rw [if_pos rfl]
      exact installLaw_exec_alloc hpriority
    · rw [if_neg hid]
      exact installLaw_exec_given hpriority hid hfault

end Install

end DefInt

/-- **Each call keeps its promise exactly under its condition**, whatever the tables. -/
theorem table_law_iff (pending : UInt32) (tab : Fin nrDefintInt → DefintTab)
    (execTab : Fin nrDefintInt → DefintExecTab) (c : DefintCall) :
    (DefInt.mk pending tab execTab false).TableLaw c ↔
      (DefInt.mk pending tab execTab false).MeetsTableLaw c := by
  cases c with
  | installHandler type id priority entry args subtype => exact DefInt.installLaw_iff rfl
  | uninstallHandler id =>
      exact DefInt.handlerLaw_onHandler fun _ => DefInt.onlyExec_setExec _
  | schedule id => exact DefInt.handlerLaw_onLock _
  | unschedule id => exact DefInt.handlerLaw_onLock _
  | inuse id => exact DefInt.handlerLaw_inuse
  | exec => exact Iff.rfl
  | execSelected type => exact Iff.rfl

/-- A deferred interrupt gets no id but an allocated one. -/
theorem int_given_refused : ¬ ∀ cs c, (defintCalls.exec cs DefInt.zero).TableLaw c := by
  intro h
  have hlaw := h [] (.installHandler defintIntType 0 0 1 0 0)
  have hmeets := (DefInt.installLaw_int_given (by decide) (by decide)).mp hlaw 0 rfl
  exact hmeets rfl

end OxKernel.Kernel
