import Mathlib
import OxKernel.Kernel.ForkRuns

/-!
# The descriptors of a new process

`kfork` looks for the descriptors of the parent that point to an entry of its `file_tab`, and
sets those of the child.

## Main definitions

* `DescriptorTable` — each descriptor is closed or points to an entry of the `file_tab`.
* `CopiesDescriptors` — the child's descriptors are the parent's, up to the entries' addresses.
-/
namespace OxKernel.Kernel

open Lib (Call)
open Fs (maxFiles)

/-- Each descriptor is NULL or points to an entry of the process's `file_tab`. -/
def DescriptorTable (p : Ptr) (x : Process) : Prop :=
  ∀ i, x.fileDesc i = .null ∨ ∃ k, x.fileDesc i = .fileTab p k

/-- The child `proc` has the descriptors of its parent, which keeps its own. -/
structure CopiesDescriptors (s s' : State) (parent proc : Ptr) : Prop where
  renamed : ∀ i k, (s'.mem proc).fileDesc i = .fileTab proc k ↔
    (s.mem parent).fileDesc i = .fileTab parent k
  closed : ∀ i, (s'.mem proc).fileDesc i = .null ↔ (s.mem parent).fileDesc i = .null
  files : (s'.mem proc).fileTab = (s.mem parent).fileTab
  parentFiles : (s'.mem parent).fileTab = (s.mem parent).fileTab
  parentDesc : (s'.mem parent).fileDesc = (s.mem parent).fileDesc

section Copy
variable {s s' : State} {parent proc p x head second : Ptr} {exec eip : UInt32} {pid : Int32}

theorem State.linkedSecond_field {α : Type} (g : Process → α)
    (hnext : ∀ y n, g { y with next := n } = g y) (hprev : ∀ y n, g { y with prev := n } = g y) :
    g ((s.linkedSecond p head second).mem x) = g (s.mem x) := by
  refine (update_field g fun y => hnext y _).trans ?_
  refine (update_field g fun y => hprev y _).trans ?_
  refine (update_field g fun y => hprev y _).trans ?_
  exact update_field g fun y => hnext y _

/-- The links alone change when the child is put into its queue. -/
theorem linkSecond_field {α : Type} {i : Fin nrPriority} (g : Process → α)
    (hnext : ∀ y n, g { y with next := n } = g y) (hprev : ∀ y n, g { y with prev := n } = g y)
    (hi : queueIndex (s.mem p).priority = some i) (h : linkSecond p s = some (.ok (), s')) :
    g (s'.mem x) = g (s.mem x) := by
  cases htab : s.processTab i with
  | none =>
      rw [linkSecond_run_empty hi htab] at h
      cases h
      refine (State.update_field g fun y => hprev y _).trans ?_
      exact State.update_field g fun y => hnext y _
  | some head =>
      obtain ⟨second, -, rfl⟩ := linkSecond_inv hi htab h
      exact State.linkedSecond_field g hnext hprev

/-- What the search leaves is NULL or the address of a descriptor. -/
theorem forkedDesc_ne (fileDesc : Fin maxFiles → InodePtr) (k : Fin maxFiles) :
    forkedDesc parent proc fileDesc ≠ .fileTab proc k := by
  have hfold : ∀ (l : List (Fin maxFiles)) (d : InodePtr), d ≠ .fileTab proc k →
      l.foldl (fun d j => if fileDesc j = .fileTab parent j then .fileDesc proc j else d) d ≠
        .fileTab proc k := by
    intro l
    induction l with
    | nil => exact fun d hd => hd
    | cons j l ih =>
        intro d hd
        rw [List.foldl_cons]
        apply ih
        split
        · simp
        · exact hd
  exact hfold _ _ (by simp)

/-- Without open descriptors the search finds nothing. -/
theorem forkedDesc_null {fileDesc : Fin maxFiles → InodePtr} (h : ∀ i, fileDesc i = .null) :
    forkedDesc parent proc fileDesc = .null := by
  have hfold : ∀ l : List (Fin maxFiles),
      l.foldl (fun d j => if fileDesc j = .fileTab parent j then .fileDesc proc j else d)
        InodePtr.null = .null := by
    intro l
    induction l with
    | nil => rfl
    | cons j l ih => 
        rw [List.foldl_cons, if_neg (by simp [h j])]
        exact ih
  exact hfold _

/-- The tables of the two processes after `kfork`. -/
theorem kfork_tables (hparent : s.currentProcess = some parent) (hne : parent ≠ proc)
    (h : kfork proc exec eip s = some (.ok pid, s')) :
    (s'.mem proc).fileTab = (s.mem parent).fileTab ∧
      (∀ i, (s'.mem proc).fileDesc i = forkedDesc parent proc (s.mem parent).fileDesc) ∧
      (s'.mem parent).fileTab = (s.mem parent).fileTab ∧
      (s'.mem parent).fileDesc = (s.mem parent).fileDesc := by
  obtain ⟨j, hlink⟩ := kfork_inv hparent hne h
  have hi : queueIndex ((s.forked parent proc j exec eip).mem proc).priority = some 0 := by
    rw [State.forked_priority]
    exact ForkCall.queueIndex_zero
  have htab : ∀ x, (s'.mem x).fileTab = ((s.forked parent proc j exec eip).mem x).fileTab :=
    fun x => linkSecond_field Process.fileTab (fun _ _ => rfl) (fun _ _ => rfl) hi hlink
  have hdesc : ∀ x, (s'.mem x).fileDesc = ((s.forked parent proc j exec eip).mem x).fileDesc :=
    fun x => linkSecond_field Process.fileDesc (fun _ _ => rfl) (fun _ _ => rfl) hi hlink
  refine ⟨?_, fun i => ?_, ?_, ?_⟩
  · rw [htab, State.forked, State.update_self]
  · rw [hdesc, State.forked, State.update_self]
  · rw [htab, State.forked_mem hne]
  · rw [hdesc, State.forked_mem hne]

/-- **`kfork` copies the descriptor table** of the current process if and only if all its
descriptors are closed. -/
theorem kfork_copies_iff (hparent : s.currentProcess = some parent) (hne : parent ≠ proc)
    (hdesc : DescriptorTable parent (s.mem parent))
    (h : kfork proc exec eip s = some (.ok pid, s')) :
    CopiesDescriptors s s' parent proc ↔ ∀ i, (s.mem parent).fileDesc i = .null := by
  obtain ⟨hfiles, hchild, hpfiles, hpdesc⟩ := kfork_tables hparent hne h
  constructor
  · intro hcopies i
    rcases hdesc i with hnull | ⟨k, hk⟩
    · exact hnull
    · have htab := (hcopies.renamed i k).mpr hk
      rw [hchild i] at htab
      exact absurd htab (forkedDesc_ne _ _)
  · intro hnull
    have hforked : ∀ i, (s'.mem proc).fileDesc i = .null := fun i =>
      (hchild i).trans (forkedDesc_null hnull)
    refine ⟨fun i k => ?_, fun i => ?_, hfiles, hpfiles, hpdesc⟩
    · rw [hforked i, hnull i]
      simp
    · rw [hforked i, hnull i]

end Copy

/-! ## A process with one open file -/

/-- The first process of the kernel, with descriptor 0 on the first entry of its `file_tab`. -/
def openState : State :=
  ForkCall.firstConfig.state.update firstProcess fun x =>
    { x with fileDesc := fun i => if i = 0 then .fileTab firstProcess 0 else .null }

theorem kfork_returns {s : State} {parent proc head second : Ptr} {exec eip : UInt32}
    {j : Fin nrGdt} (hparent : s.currentProcess = some parent) (hne : parent ≠ proc)
    (hgdt : freeGdt s.gdtMap nrGdt 0 = some j) (hhead : s.processTab 0 = some head)
    (hp : head ≠ proc) (hsecond : (s.mem head).next = some second) :
    ∃ pid s', kfork proc exec eip s = some (.ok pid, s') := by
  have hi : queueIndex ((s.forked parent proc j exec eip).mem proc).priority = some 0 := by
    rw [State.forked_priority]
    exact ForkCall.queueIndex_zero
  have hnext : ((s.forked parent proc j exec eip).mem head).next = some second := by
    rw [State.forked_mem hp, hsecond]
  have hrun := (@kfork_eq _ parent proc exec eip j hparent hne hgdt).trans
    (Call.bind_of_ok (linkSecond_run hi hhead hnext))
  exact ⟨_, _, hrun⟩

theorem openState_mem : openState.mem firstProcess =
    { ForkCall.firstConfig.state.mem firstProcess with
      fileDesc := fun i => if i = 0 then .fileTab firstProcess 0 else .null } :=
  State.update_self

theorem openState_current : openState.currentProcess = some firstProcess := rfl

theorem openState_next :
    (openState.mem firstProcess).next = some firstProcess := by
  rw [openState_mem]
  simp [ForkCall.firstConfig]

theorem openState_table : DescriptorTable firstProcess (openState.mem firstProcess) := by
  intro i
  rw [openState_mem]
  by_cases hi : i = 0
  · exact .inr ⟨0, if_pos hi⟩
  · exact .inl (if_neg hi)

theorem kfork_openState : ∃ pid s', kfork secondProcess 0 0 openState = some (.ok pid, s') := by
  have hgdt : freeGdt openState.gdtMap nrGdt 0 = some 1 := by decide
  have hne : firstProcess ≠ secondProcess := by decide
  exact kfork_returns openState_current hne hgdt rfl hne openState_next

theorem kfork_copies_iff_openState : ∃ pid s',
    kfork secondProcess 0 0 openState = some (.ok pid, s') ∧
      (CopiesDescriptors openState s' firstProcess secondProcess ↔
        ∀ i, (openState.mem firstProcess).fileDesc i = .null) := by
  obtain ⟨pid, s', hrun⟩ := kfork_openState
  exact ⟨pid, s', hrun, kfork_copies_iff openState_current (by decide) openState_table hrun⟩

/-- The child's descriptor 0 does not point to the entry that the parent's points to. -/
theorem kfork_openState_fails : ∃ pid s',
    kfork secondProcess 0 0 openState = some (.ok pid, s') ∧
      DescriptorTable firstProcess (openState.mem firstProcess) ∧
      (openState.mem firstProcess).fileDesc 0 = .fileTab firstProcess 0 ∧
      (s'.mem secondProcess).fileDesc 0 ≠ .fileTab secondProcess 0 := by
  obtain ⟨pid, s', hrun⟩ := kfork_openState
  refine ⟨pid, s', hrun, openState_table, ?_, ?_⟩
  · rw [openState_mem]
    simp
  · obtain ⟨-, hchild, -⟩ := kfork_tables openState_current (by decide) hrun
    rw [hchild]
    exact forkedDesc_ne _ _

end OxKernel.Kernel
