import OxKernel.Kernel.Fork
import OxKernel.Kernel.QueueRuns

/-!
# Processes made and freed

`kfork` and `free_process` have code of their own for the links of the queues. The runs here
start from the table that `scheduler_init` leaves.

## Main definitions

* `Config` — a state together with the processes that are live.
* `ForkCall` — a `kfork`, or a `free_process` of a live process.
* `Config.Rings` — the queues are rings of the live processes.
-/
namespace OxKernel.Kernel

open Lib (Call Links)

namespace State
variable {s s' : State} {q : Fin nrPriority → List Ptr} {p x head second before behind : Ptr}
  {i : Fin nrPriority} {m : List Ptr}

/-- The state after `linkSecond`, behind a head. -/
def linkedSecond (s : State) (p head second : Ptr) : State :=
  (((s.setNext p (some second)).setPrev p (some head)).setPrev second (some p)).setNext head (some p)

theorem linkedSecond_next : ((s.linkedSecond p head second).mem x).next =
    if x = head then some p else if x = p then some second else (s.mem x).next := by
  simp [linkedSecond]

theorem linkedSecond_prev : ((s.linkedSecond p head second).mem x).prev =
    if x = second then some p else if x = p then some head else (s.mem x).prev := by
  simp [linkedSecond]

theorem linkedSecond_priority : ((s.linkedSecond p head second).mem x).priority =
    (s.mem x).priority := by
  simp [linkedSecond]

/-- **A process that is linked in behind the head.** -/
theorem Queues.linkedSecond (h : s.Queues q) (hi : q i = head :: m)
    (hsecond : (s.mem head).next = some second) (hp : ∀ j, p ∉ q j)
    (hpriority : queueIndex (s.mem p).priority = some i) :
    (s.linkedSecond p head second).Queues (Function.update q i (head :: p :: m)) := by
  have hhead : head ∈ q i := by
    rw [hi]
    exact List.mem_cons_self
  obtain ⟨b, hb, hjoins⟩ := (h.ring i).exists_next hhead
  obtain rfl : second = b := Option.some.inj (hsecond.symm.trans hjoins.1)
  have hnot : ∀ y ∈ q i, y ≠ p := by
    rintro y hy rfl
    exact hp i hy
  apply h.replace
  · -- The ring from the second process on, with the head as its last one.
    have hr : head :: m ~r m ++ [head] := List.isRotated_append (l := [head])
    have hring : s.links.IsRing (m ++ [head]) := by
      have hring := h.ring i
      rw [hi] at hring
      exact hring.rotated hr
    have hfirst : ∃ n, m ++ [head] = second :: n := by
      cases m with
      | nil =>
          have hself := h.ring i
          rw [hi] at hself
          have hnext := (Links.isRing_singleton.mp hself).1
          exact ⟨[], by rw [Option.some.inj (hsecond.symm.trans hnext)]; rfl⟩
      | cons c m =>
          have hcons := h.ring i
          rw [hi] at hcons
          exact ⟨m ++ [head], by rw [Option.some.inj (hsecond.symm.trans hcons.joins_cons.1)]; rfl⟩
    obtain ⟨n, hn⟩ := hfirst
    have hmem : ∀ y ∈ second :: n, y ∈ q i := by
      intro y hy
      rw [hi]
      rw [← hn] at hy
      exact hr.mem_iff.mpr hy
    have hlast : (second :: n).getLast (List.cons_ne_nil _ _) = head := by
      have : (m ++ [head]).getLast (by simp) = head := List.getLast_concat
      simpa only [hn] using this
    rw [hn] at hring
    have hnew : (s.linkedSecond p head second).links.IsRing (second :: n ++ [p]) := by
      refine hring.snoc (fun hy => hp i (hmem p hy)) hlast ⟨?_, ?_⟩ ⟨?_, ?_⟩ (fun y hy hne => ?_)
        fun y hy hne => ?_
      · exact linkedSecond_next.trans (if_pos rfl)
      · exact linkedSecond_prev.trans (by rw [if_neg (Ne.symm (hnot second hb)), if_pos rfl])
      · exact linkedSecond_next.trans (by rw [if_neg (Ne.symm (hnot head hhead)), if_pos rfl])
      · exact linkedSecond_prev.trans (if_pos rfl)
      · exact linkedSecond_next.trans (by rw [if_neg hne, if_neg (hnot y (hmem y hy)), links_next])
      · exact linkedSecond_prev.trans (by rw [if_neg hne, if_neg (hnot y (hmem y hy)), links_prev])
    refine hnew.rotated ?_
    rw [← hn, List.append_assoc]
    exact List.isRotated_append
  · have hh := h.head i
    rw [hi] at hh
    exact hh
  · intro y hy
    rw [linkedSecond_priority]
    rcases List.mem_cons.mp hy with rfl | hy
    · exact h.priority i y hhead
    · rcases List.mem_cons.mp hy with rfl | hy
      · exact hpriority
      · refine h.priority i y ?_
        rw [hi]
        exact List.mem_cons_of_mem head hy
  · exact fun j _ => rfl
  · intro j hj y hy
    have hother : ∀ z ∈ q i, y ≠ z := by
      rintro z hz rfl
      exact hj (h.unique hy hz)
    have hyp : y ≠ p := by
      rintro rfl
      exact hp j hy
    refine ⟨?_, ?_, linkedSecond_priority⟩
    · rw [linkedSecond_next, if_neg (hother head hhead), if_neg hyp]
    · rw [linkedSecond_prev, if_neg (hother second hb), if_neg hyp]

end State

/-! ## The functions -/

section Runs
variable {s s' : State} {q : Fin nrPriority → List Ptr} {p x head second before behind : Ptr}
  {i : Fin nrPriority}

theorem linkSecond_run (hi : queueIndex (s.mem p).priority = some i)
    (hhead : s.processTab i = some head) (hsecond : (s.mem head).next = some second)  :
    linkSecond p s = some (.ok (), s.linkedSecond p head second) := by
  refine (Call.bind_of_ok rfl).trans ?_
  refine (Call.bind_of_ok (queueOf_run hi s)).trans ?_
  simp [hhead, hsecond, deref, setNext, setPrev, State.linkedSecond]

theorem linkSecond_run_empty (hi : queueIndex (s.mem p).priority = some i)
    (hhead : s.processTab i = none) :
    linkSecond p s =
      some (.ok (), ((s.setNext p (some p)).setPrev p (some p)).setTab i (some p)) := by
  refine (Call.bind_of_ok rfl).trans ?_
  refine (Call.bind_of_ok (queueOf_run hi s)).trans ?_
  rw [hhead]
  rfl

/-- The number of a descriptor is always in range. -/
theorem gdtCheck_run (tssSeg : UInt16) (message : String) (s : State) :
    panicIf (nrGdt < tssSeg.toNat / 8) message s = some (.ok (), s) := by
  have hlt := tssSeg.toNat_lt
  apply panicIf_of_neg
  show ¬ 8192 < _
  omega

/-- What `free_process` makes of the links. -/
def State.freed (s : State) (p before behind : Ptr) (i : Fin nrPriority) : State :=
  ((if s.processTab i = some p then s.setTab i (some behind) else s).setPrev behind
    (some before)).setNext before (some behind)

theorem unlinkProcess_run (hi : queueIndex (s.mem p).priority = some i)
    (hprev : (s.mem p).prev = some before) (hnext : (s.mem p).next = some behind) :
    unlinkProcess p s = some (.ok (), s.freed p before behind i) := by
  obtain ⟨h0, h1⟩ := queueIndex_isSome.mp ⟨i, hi⟩
  have hrange : ¬ ((s.mem p).priority < 0 ∨ (s.mem p).priority ≥ 32) := by
    rintro (h | h)
    · exact Int32.not_lt.mpr h0 h
    · exact Int32.not_lt.mpr h h1
  refine (Call.bind_of_ok rfl).trans ?_
  refine (Call.bind_of_ok (panicIf_of_neg hrange s)).trans ?_
  refine (Call.bind_of_ok (queueOf_run hi s)).trans ?_
  by_cases htab : s.processTab i = some p
  · by_cases hb : p = behind
    · simp [htab, hprev, hnext, ← hb, setNext, setPrev, setTab, State.freed, gdtCheck_run]
    · simp [htab, hprev, hnext, hb, setNext, setPrev, setTab, State.freed, gdtCheck_run]
  · by_cases hb : p = behind
    · simp [htab, hprev, hnext, ← hb, setNext, setPrev, State.freed, gdtCheck_run]
    · simp [htab, hprev, hnext, hb, setNext, setPrev, State.freed, gdtCheck_run]

theorem State.freed_next : ((s.freed p before behind i).mem x).next =
    if x = before then some behind else (s.mem x).next := by
  rw [freed]
  split <;> simp

theorem State.freed_prev : ((s.freed p before behind i).mem x).prev =
    if x = behind then some before else (s.mem x).prev := by
  rw [freed]
  split <;> simp

theorem State.freed_priority : ((s.freed p before behind i).mem x).priority =
    (s.mem x).priority := by
  rw [freed]
  split <;> simp

theorem State.freed_processTab : (s.freed p before behind i).processTab =
    if s.processTab i = some p then Function.update s.processTab i (some behind)
    else s.processTab := by
  rw [freed]
  split <;> rfl

@[simp] theorem State.freed_processSizeTab :
    (s.freed p before behind i).processSizeTab = s.processSizeTab := by
  rw [freed]
  split <;> rfl

/-- **`free_process`** takes a process that is not alone out of its queue. -/
theorem State.Queues.freed {l₁ l₂ : List Ptr} (h : s.Queues q) (hi : q i = l₁ ++ p :: l₂)
    (hprev : (s.mem p).prev = some before) (hnext : (s.mem p).next = some behind)
    (hbp : behind ≠ p) : (s.freed p before behind i).Queues (Function.update q i (l₁ ++ l₂)) := by
  obtain ⟨head, hhead⟩ : ∃ head, s.processTab i = some head := by
    rw [h.head i, hi]
    exact ⟨_, List.head?_eq_some_head (by simp)⟩
  refine h.unlinked hi hprev hnext ⟨fun x _ => State.freed_next, fun x _ => State.freed_prev,
    fun x => State.freed_priority, ?_⟩
  rw [State.freed_processTab, h.head_of_rest hi hhead hnext hbp, hhead]
  by_cases hp : head = p
  · rw [if_pos (congrArg some hp), if_pos hp]
  · rw [if_neg fun he => hp (Option.some.inj he), if_neg hp, ← hhead, Function.update_eq_self]

/-- The state after the files of a process are closed. -/
def State.closed (close : Process → Tables) (s : State) (p : Ptr) : State :=
  s.update p fun x =>
    { x with
      fileTab := (close x).fileTab
      fileDesc := (close x).fileDesc
      dirTab := (close x).dirTab }

theorem freeProcess_eq {close : Process → Tables} :
    freeProcess close (some p) s = unlinkProcess p (s.closed close p) := rfl

theorem State.closed_links {close : Process → Tables} :
    ((s.closed close p).mem x).next = (s.mem x).next ∧ ((s.closed close p).mem x).prev =
      (s.mem x).prev ∧ ((s.closed close p).mem x).priority = (s.mem x).priority := by
  rw [closed, update_mem]
  split
  · rename_i hx
    rw [hx]
    exact ⟨rfl, rfl, rfl⟩
  · exact ⟨rfl, rfl, rfl⟩

theorem freeProcess_run {close : Process → Tables} (hi : queueIndex (s.mem p).priority = some i)
    (hprev : (s.mem p).prev = some before) (hnext : (s.mem p).next = some behind) :
    freeProcess close (some p) s =
      some (.ok (), (s.closed close p).freed p before behind i) := by
  obtain ⟨hn, hp, hpr⟩ := @State.closed_links s p p close
  rw [freeProcess_eq]
  exact unlinkProcess_run (by rw [hpr, hi]) (by rw [hp, hprev]) (by rw [hn, hnext])

/-- The neighbours of a process in its queue. -/
theorem State.Queues.neighbours (h : s.Queues q) (hp : p ∈ q i) : ∃ before behind,
    queueIndex (s.mem p).priority = some i ∧ (s.mem p).prev = some before ∧
      (s.mem p).next = some behind := by
  obtain ⟨before, -, hbefore⟩ := (h.ring i).exists_prev hp
  obtain ⟨behind, -, hbehind⟩ := (h.ring i).exists_next hp
  exact ⟨before, behind, h.priority i p hp, hbefore.2, hbehind.1⟩

theorem State.Queues.closed {close : Process → Tables} (h : s.Queues q) :
    (s.closed close p).Queues q :=
  h.congr rfl fun _ _ _ => State.closed_links

/-- A process that is not alone leaves its queue. -/
theorem State.Queues.freeProcess {close : Process → Tables} (h : s.Queues q) (hp : p ∈ q i)
    (hprev : (s.mem p).prev = some before) (hnext : (s.mem p).next = some behind)
    (hbp : behind ≠ p) : ((s.closed close p).freed p before behind i).Queues
      (Function.update q i ((q i).erase p)) := by
  obtain ⟨l₁, l₂, hl⟩ := List.append_of_mem hp
  obtain ⟨hn, hb, -⟩ := @State.closed_links s p p close
  have herase : (q i).erase p = l₁ ++ l₂ := by
    have hnd := (h.ring i).nodup
    rw [hl] at hnd ⊢
    have hnot : p ∉ l₁ := fun hmem =>
      (List.nodup_append.mp hnd).2.2 p hmem p List.mem_cons_self rfl
    rw [List.erase_append_right _ hnot, List.erase_cons_head]
  rw [herase]
  exact h.closed.freed hl (hb.trans hprev) (hn.trans hnext) hbp

/-- Who is left. -/
theorem State.Queues.mem_erase (h : s.Queues q) (hp : p ∈ q i) :
    (∃ j, x ∈ Function.update q i ((q i).erase p) j) ↔ (∃ j, x ∈ q j) ∧ x ≠ p := by
  constructor
  · rintro ⟨j, hj⟩
    by_cases hji : j = i
    · subst hji
      rw [Function.update_self] at hj
      obtain ⟨hx, hxj⟩ := (h.ring j).nodup.mem_erase_iff.mp hj
      exact ⟨⟨j, hxj⟩, hx⟩
    · rw [Function.update_of_ne hji] at hj
      refine ⟨⟨j, hj⟩, ?_⟩
      rintro rfl
      exact hji (h.unique hj hp)
  · rintro ⟨⟨j, hj⟩, hx⟩
    refine ⟨j, ?_⟩
    by_cases hji : j = i
    · subst hji
      rw [Function.update_self]
      exact (List.mem_erase_of_ne hx).mpr hj
    · rw [Function.update_of_ne hji]
      exact hj

/-- The state of `kfork` before it links the child in. -/
def State.forked (s : State) (parent proc : Ptr) (i : Fin nrGdt) (exec eip : UInt32) : State :=
  let x := s.mem parent
  ({ s with
    gdtMap := Function.update s.gdtMap i 1
    nextPid := s.nextPid + 1 }).update proc fun _ =>
    { Process.zero with
      tssSeg := UInt16.ofNat (i * 8)
      state := pUninteruptible
      pid := s.nextPid % 1073741824
      parent := x.pid
      counter := 1048576
      eip := Process.zero.exec + (eip - x.exec)
      exec := exec
      execSize := x.execSize
      elfEntry := x.elfEntry
      argc := x.argc
      envp := x.envp
      cwd := x.cwd
      umask := x.umask
      owner := x.owner
      group := x.group
      dirTab := x.dirTab
      fileTab := x.fileTab
      fileDesc := fun _ => forkedDesc parent proc x.fileDesc
      uid := x.uid
      euid := x.euid
      suid := x.suid
      gid := x.gid
      egid := x.egid
      sgid := x.sgid }

theorem allocGdt_run {j : Fin nrGdt} (h : freeGdt s.gdtMap nrGdt 0 = some j) :
    allocGdt s = some (.ok j, { s with gdtMap := Function.update s.gdtMap j 1 }) := by
  refine (Call.bind_of_ok rfl).trans ?_
  rw [h]
  rfl

/-- `kfork` up to the links of the child. -/
theorem kfork_eq {parent proc : Ptr} {exec eip : UInt32} {j : Fin nrGdt}
    (hparent : s.currentProcess = some parent) (hne : parent ≠ proc)
    (hgdt : freeGdt s.gdtMap nrGdt 0 = some j) :
    kfork proc exec eip s = (do
      linkSecond proc
      let s ← Call.get
      pure (s.mem proc).pid : KernelM Int32) (s.forked parent proc j exec eip) := by
  refine (Call.bind_of_ok rfl).trans ?_
  rw [hparent]
  refine (Call.bind_of_ok rfl).trans ?_
  refine (Call.bind_of_ok rfl).trans ?_
  refine (Call.bind_of_ok (allocGdt_run (s := s.update proc fun _ => Process.zero) hgdt)).trans ?_
  refine (Call.bind_of_ok rfl).trans ?_
  refine (Call.bind_of_ok rfl).trans ?_
  refine (Call.bind_of_ok rfl).trans ?_
  have hx : (s.update proc fun _ => Process.zero).mem parent = s.mem parent :=
    State.update_of_ne hne
  simp only [hx]
  exact congrArg _ (State.update_update (s := { s with
    gdtMap := Function.update s.gdtMap j 1
    nextPid := s.nextPid + 1 }) (p := proc) (f := fun _ => Process.zero))

theorem State.forked_mem {parent proc : Ptr} {j : Fin nrGdt} {exec eip : UInt32} (hx : x ≠ proc) :
    (s.forked parent proc j exec eip).mem x = s.mem x := by
  rw [forked, update_of_ne hx]

theorem State.forked_priority {parent proc : Ptr} {j : Fin nrGdt} {exec eip : UInt32} :
    ((s.forked parent proc j exec eip).mem proc).priority = 0 := by
  rw [forked, update_self]
  rfl

theorem allocGdt_inv {j : Fin nrGdt} (h : allocGdt s = some (.ok j, s')) :
    freeGdt s.gdtMap nrGdt 0 = some j := by
  cases hj : freeGdt s.gdtMap nrGdt 0 with
  | none => simp [allocGdt, hj, panic] at h
  | some k =>
      rw [allocGdt_run hj] at h
      cases h
      rfl

/-- A `kfork` that returns. -/
theorem kfork_inv {parent proc : Ptr} {exec eip : UInt32} {pid : Int32}
    (hparent : s.currentProcess = some parent) (hne : parent ≠ proc)
    (h : kfork proc exec eip s = some (.ok pid, s')) :
    ∃ j, linkSecond proc (s.forked parent proc j exec eip) = some (.ok (), s') := by
  cases hj : freeGdt s.gdtMap nrGdt 0 with
  | none =>
      have hnone : allocGdt (s.update proc fun _ => Process.zero) =
          some (.error (.panic "alloc_gdt:: no free gdt descriptors\n"),
            s.update proc fun _ => Process.zero) := by
        refine (Call.bind_of_ok rfl).trans ?_
        have hgdt : freeGdt (s.update proc fun _ => Process.zero).gdtMap nrGdt 0 = none := hj
        rw [hgdt]
        rfl
      have hfail : kfork proc exec eip s =
          some (.error (.panic "alloc_gdt:: no free gdt descriptors\n"),
            s.update proc fun _ => Process.zero) := by
        refine (Call.bind_of_ok rfl).trans ?_
        rw [hparent]
        refine (Call.bind_of_ok rfl).trans ?_
        refine (Call.bind_of_ok rfl).trans ?_
        exact Call.bind_of_error hnone
      rw [hfail] at h
      cases h
  | some j =>
      rw [kfork_eq hparent hne hj] at h
      obtain ⟨u, s₁, hs₁, h⟩ := Call.bind_eq_ok.mp h
      cases h
      exact ⟨j, hs₁⟩

/-- A process that is linked in behind a head that has a neighbour. -/
theorem linkSecond_inv (hi : queueIndex (s.mem p).priority = some i)
    (hhead : s.processTab i = some head) (h : linkSecond p s = some (.ok (), s')) :
    ∃ second, (s.mem head).next = some second ∧ s' = s.linkedSecond p head second := by
  cases hs : (s.mem head).next with
  | none =>
      have hfail : linkSecond p s = some (.error .fault, (s.setNext p none).setPrev p (some head)) := by
        refine (Call.bind_of_ok rfl).trans ?_
        refine (Call.bind_of_ok (queueOf_run hi s)).trans ?_
        simp [hhead, hs, deref, setNext, setPrev]
      rw [hfail] at h
      cases h
  | some second =>
      rw [linkSecond_run hi hhead hs] at h
      cases h
      exact ⟨second, rfl, rfl⟩

end Runs

/-! ## Runs -/

/-- A state, with the processes that have been made and not been freed. -/
structure Config where
  state : State
  live : Set Ptr

/-- A call of one of the functions. -/
inductive ForkCall
  | fork (proc : Ptr) (exec eip : UInt32)
  | free (p : Ptr)

namespace Config
variable {c c' : Config} {q : Fin nrPriority → List Ptr} {p : Ptr}

/-- What holds from one call to the next: the tables and the live processes stay as they are,
other memory may be used, and another process may become the current one. -/
structure Settled (s : State) (c : Config) : Prop where
  tab : c.state.processTab = s.processTab
  size : c.state.processSizeTab = s.processSizeTab
  mem : ∀ p ∈ c.live, c.state.mem p = s.mem p

/-- The queues are rings of the live processes. -/
structure Rings (c : Config) (q : Fin nrPriority → List Ptr) : Prop where
  queues : c.state.Queues q
  live : ∀ p, p ∈ c.live ↔ ∃ i, p ∈ q i

/-- The queues are rings of the live processes, and their lengths are in `process_size_tab`. -/
def Integrity (c : Config) : Prop :=
  ∃ q, c.Rings q ∧ ∀ i, (c.state.processSizeTab i).toNat = (q i).length

/-- The process is the only one of its queue. -/
def Alone (c : Config) (p : Ptr) : Prop := (c.state.mem p).next = some p

end Config

namespace ForkCall
variable (close : Process → Tables)

/-- What a call may do: `kfork` in memory that is not in use, by a live process, and
`free_process` of a live process. -/
def Step : ForkCall → Config → Config → Prop
  | fork proc exec eip, c, c' => proc ∉ c.live ∧
    (∃ parent ∈ c.live, c.state.currentProcess = some parent) ∧
    ∃ pid s, kfork proc exec eip c.state = some (.ok pid, s) ∧ c'.live = insert proc c.live ∧
      Config.Settled s c'
  | free p, c, c' => p ∈ c.live ∧
    ∃ s, freeProcess close (some p) c.state = some (.ok (), s) ∧ c'.live = c.live \ {p} ∧
      Config.Settled s c'

/-- What a call does to the queues: a new process comes behind the head, and a freed one
leaves. -/
def Changes (q q' : Fin nrPriority → List Ptr) : ForkCall → Prop
  | fork proc _ _ => q' = Function.update q 0
      (match q 0 with
      | [] => [proc]
      | head :: l => head :: proc :: l)
  | free p => ∃ i, p ∈ q i ∧ q' = Function.update q i ((q i).erase p)

/-- A freed process is not alone on its queue. -/
def NotAlone (c : Config) : ForkCall → Prop
  | fork _ _ _ => True
  | free p => ¬ c.Alone p

/-- The runs from the table that `scheduler_init` leaves. -/
def system : Lib.System Config ForkCall where
  init c := ∃ proc init s₀ s, (∀ i, s₀.processTab i = none) ∧ (∀ i, s₀.processSizeTab i = 0) ∧
    schedulerInit proc init s₀ = some (.ok (), s) ∧ c.live = {proc} ∧ Config.Settled s c
  step := Step close

variable {close} {c c' : Config} {q : Fin nrPriority → List Ptr} {p : Ptr}

theorem queueIndex_zero : queueIndex 0 = some 0 := by decide

/-- What stays after a call as it was right after it. -/
theorem rings_of_settled {s : State} (hs : Config.Settled s c) (hq : s.Queues q)
    (hlive : ∀ p, p ∈ c.live ↔ ∃ i, p ∈ q i) : c.Rings q := by
  refine ⟨hq.congr hs.tab fun i p hp => ?_, hlive⟩
  rw [hs.mem p ((hlive p).mpr ⟨i, hp⟩)]
  exact ⟨rfl, rfl, rfl⟩

/-- **`kfork`** puts the child behind the head. -/
theorem rings_fork {proc : Ptr} {exec eip : UInt32} (h : c.Rings q) 
    (hstep : Step close (fork proc exec eip) c c') :
    ∃ q', c'.Rings q' ∧ Changes q q' (fork proc exec eip) := by
  obtain ⟨hnew, ⟨parent, hparent, hcur⟩, pid, s, hrun, hlive, hs⟩ := hstep
  have hne : parent ≠ proc := by
    rintro rfl
    exact hnew hparent
  obtain ⟨j, hlink⟩ := kfork_inv hcur hne hrun
  have hfree : ∀ i, proc ∉ q i := fun i hi => hnew ((h.live proc).mpr ⟨i, hi⟩)
  have hforked : (c.state.forked parent proc j exec eip).Queues q := by
    refine h.queues.congr rfl fun i p hp => ?_
    have hpp : p ≠ proc := by
      rintro rfl
      exact hfree i hp
    rw [State.forked_mem hpp]
    exact ⟨rfl, rfl, rfl⟩
  have hi : queueIndex ((c.state.forked parent proc j exec eip).mem proc).priority = some 0 := by
    rw [State.forked_priority]
    exact queueIndex_zero
  have hmem : ∀ l, (∀ p, p ∈ l ↔ p ∈ q 0 ∨ p = proc) →
      ∀ p, p ∈ c'.live ↔ ∃ i, p ∈ Function.update q 0 l i := by
    intro l hl p
    rw [hlive, Set.mem_insert_iff, h.live p]
    constructor
    · rintro (rfl | ⟨i, hi⟩)
      · exact ⟨0, by rw [Function.update_self]; exact (hl p).mpr (.inr rfl)⟩
      · by_cases h0 : i = 0
        · exact ⟨0, by rw [Function.update_self]; exact (hl p).mpr (.inl (h0 ▸ hi))⟩
        · exact ⟨i, by rw [Function.update_of_ne h0]; exact hi⟩
    · rintro ⟨i, hi⟩
      by_cases h0 : i = 0
      · subst h0
        rw [Function.update_self] at hi
        rcases (hl p).mp hi with hi | rfl
        · exact .inr ⟨0, hi⟩
        · exact .inl rfl
      · rw [Function.update_of_ne h0] at hi
        exact .inr ⟨i, hi⟩
  cases hq : q 0 with
  | nil =>
      have htab : (c.state.forked parent proc j exec eip).processTab 0 = none := by
        rw [hforked.head 0, hq]
        rfl
      rw [linkSecond_run_empty hi htab] at hlink
      cases hlink
      refine ⟨_, rings_of_settled hs (hforked.alone hfree ⟨by simp, by simp⟩ rfl hi fun x =>
        ⟨fun hx => by simp [hx], by simp⟩) (hmem [proc] fun p => by simp [hq]), ?_⟩
      rw [Changes, hq]
  | cons head m =>
      have htab : (c.state.forked parent proc j exec eip).processTab 0 = some head := by
        rw [hforked.head 0, hq]
        rfl
      obtain ⟨second, hsecond, rfl⟩ := linkSecond_inv hi htab hlink
      refine ⟨_, rings_of_settled hs (hforked.linkedSecond hq hsecond hfree hi)
        (hmem (head :: proc :: m) fun p => by simp [hq]; tauto), ?_⟩
      rw [Changes, hq]

/-- The neighbours of a live process. -/
theorem neighbours (h : c.Rings q) (hp : p ∈ c.live) :
    ∃ i before behind, p ∈ q i ∧ queueIndex (c.state.mem p).priority = some i ∧
      (c.state.mem p).prev = some before ∧ (c.state.mem p).next = some behind := by
  obtain ⟨i, hi⟩ := (h.live p).mp hp
  obtain ⟨before, behind, hall⟩ := h.queues.neighbours hi
  exact ⟨i, before, behind, hi, hall⟩

/-- **`free_process`** of a process that is not alone. -/
theorem rings_free (h : c.Rings q) (halone : ¬ c.Alone p) (hstep : Step close (free p) c c') :
    ∃ q', c'.Rings q' ∧ Changes q q' (free p) := by
  obtain ⟨hp, s, hrun, hlive, hs⟩ := hstep
  obtain ⟨i, before, behind, hpi, hi, hprev, hnext⟩ := neighbours h hp
  rw [freeProcess_run hi hprev hnext] at hrun
  cases hrun
  have hbp : behind ≠ p := by
    rintro rfl
    exact halone hnext
  refine ⟨_, rings_of_settled hs (h.queues.freeProcess hpi hprev hnext hbp) fun x => ?_, i, hpi, rfl⟩
  rw [hlive, Set.mem_sdiff, Set.mem_singleton_iff, h.live x, h.queues.mem_erase hpi]

/-- **A process that is alone stays the head** of its queue when it is freed. -/
theorem not_rings_of_alone (h : c.Rings q) (halone : c.Alone p)
    (hstep : Step close (free p) c c') : ¬ ∃ q', c'.Rings q' := by
  obtain ⟨hp, s, hrun, hlive, hs⟩ := hstep
  obtain ⟨i, before, behind, hpi, hi, hprev, hnext⟩ := neighbours h hp
  rw [freeProcess_run hi hprev hnext] at hrun
  cases hrun
  have hhead : c.state.processTab i = some p := by
    rw [h.queues.head i, (h.queues.ring i).eq_singleton hpi halone]
    rfl
  obtain rfl : behind = p := Option.some.inj (hnext.symm.trans halone)
  rintro ⟨q', hq'⟩
  have hclosed : (c.state.closed close behind).processTab i = some behind := hhead
  have htab : c'.state.processTab i = some behind := by
    rw [hs.tab, State.freed_processTab, if_pos hclosed, Function.update_self]
  have hlive' : behind ∈ c'.live :=
    (hq'.live behind).mpr ⟨i, List.mem_of_mem_head? ((hq'.queues.head i).symm.trans htab)⟩
  rw [hlive] at hlive'
  exact hlive'.2 rfl

/-- What every run keeps: there is a head of queue 0, the links of the live processes are not
NULL, and no length is counted. -/
structure Loose (c : Config) : Prop where
  head : c.state.processTab 0 ≠ none
  size : ∀ i, c.state.processSizeTab i = 0
  live : ∀ p ∈ c.live, (c.state.mem p).priority = 0 ∧ (c.state.mem p).next ≠ none ∧
    (c.state.mem p).prev ≠ none

theorem loose_step {call : ForkCall} (h : Loose c) (hstep : Step close call c c') : Loose c' := by
  cases call with
  | fork proc exec eip =>
      obtain ⟨hnew, ⟨parent, hparent, hcur⟩, pid, s, hrun, hlive, hs⟩ := hstep
      have hne : parent ≠ proc := by
        rintro rfl
        exact hnew hparent
      obtain ⟨j, hlink⟩ := kfork_inv hcur hne hrun
      obtain ⟨head, hhead⟩ := Option.ne_none_iff_exists'.mp h.head
      have hi : queueIndex ((c.state.forked parent proc j exec eip).mem proc).priority = some 0 := by
        rw [State.forked_priority]
        exact queueIndex_zero
      obtain ⟨second, -, rfl⟩ := linkSecond_inv hi hhead hlink
      refine ⟨?_, fun i => ?_, fun p hp => ?_⟩
      · rw [hs.tab]
        exact h.head
      · rw [hs.size]
        exact h.size i
      · rw [hs.mem p hp]
        rw [hlive, Set.mem_insert_iff] at hp
        rw [State.linkedSecond_priority, State.linkedSecond_next, State.linkedSecond_prev]
        by_cases hpp : p = proc
        · rw [hpp, State.forked_priority]
          refine ⟨rfl, ?_, ?_⟩
          · split <;> simp
          · split <;> simp
        · obtain ⟨hpr, hn, hb⟩ := h.live p (hp.resolve_left hpp)
          rw [State.forked_mem hpp, if_neg hpp, if_neg hpp]
          refine ⟨hpr, ?_, ?_⟩
          · split
            · simp
            · exact hn
          · split
            · simp
            · exact hb
  | free p =>
      obtain ⟨hp, s, hrun, hlive, hs⟩ := hstep
      obtain ⟨hpr, hn, hb⟩ := h.live p hp
      obtain ⟨behind, hbehind⟩ := Option.ne_none_iff_exists'.mp hn
      obtain ⟨before, hbefore⟩ := Option.ne_none_iff_exists'.mp hb
      have hi : queueIndex (c.state.mem p).priority = some 0 := by
        rw [hpr]
        exact queueIndex_zero
      rw [freeProcess_run hi hbefore hbehind] at hrun
      cases hrun
      refine ⟨?_, fun i => ?_, fun x hx => ?_⟩
      · rw [hs.tab, State.freed_processTab]
        split
        · simp
        · exact h.head
      · rw [hs.size, State.freed_processSizeTab]
        exact h.size i
      · rw [hs.mem x hx]
        rw [hlive, Set.mem_sdiff] at hx
        obtain ⟨hxr, hxn, hxb⟩ := h.live x hx.1
        obtain ⟨hcn, hcb, hcr⟩ := @State.closed_links c.state p x close
        rw [State.freed_priority, State.freed_next, State.freed_prev, hcn, hcb, hcr]
        refine ⟨hxr, ?_, ?_⟩
        · split
          · simp
          · exact hxn
        · split
          · simp
          · exact hxb

/-- The state in which `create_init_task` links the process in. -/
def started (s : State) (proc : Ptr) (j : Fin nrGdt) (init : UInt32) : State :=
  ({ s.update proc fun _ => Process.zero with
    gdtMap := Function.update s.gdtMap j 1 } : State).update proc fun x =>
    { x with
      tssSeg := UInt16.ofNat (j * 8)
      state := pUninteruptible
      pid := 1
      parent := 1
      counter := 1048576
      priority := 0
      eip := init }

theorem schedulerInit_run {proc : Ptr} {init : UInt32} {s : State} {j : Fin nrGdt}
    (htab : s.processTab 0 = none) (hgdt : freeGdt s.gdtMap nrGdt 0 = some j) :
    schedulerInit proc init s = some (.ok (),
      { (((started s proc j init).setNext proc (some proc)).setPrev proc (some proc)).setTab 0
          (some proc) with currentProcess := some proc }) := by
  have hi : queueIndex ((started s proc j init).mem proc).priority = some 0 := by
    rw [started, State.update_self]
    exact queueIndex_zero
  have hcreate : createInitTask proc init s = some (.ok (),
      ((started s proc j init).setNext proc (some proc)).setPrev proc (some proc) |>.setTab 0
        (some proc)) := by
    refine (Call.bind_of_ok rfl).trans ?_
    refine (Call.bind_of_ok (allocGdt_run (s := s.update proc fun _ => Process.zero) hgdt)).trans ?_
    refine (Call.bind_of_ok rfl).trans ?_
    exact linkSecond_run_empty hi htab
  refine (Call.bind_of_ok hcreate).trans ?_
  simp

/-- The table that `scheduler_init` leaves. -/
theorem rings_init {proc : Ptr} {init : UInt32} {s₀ s : State} (htab : ∀ i, s₀.processTab i = none)
    (hrun : schedulerInit proc init s₀ = some (.ok (), s)) (hlive : c.live = {proc})
    (hs : Config.Settled s c) :
    c.Rings (Function.update (fun _ => []) 0 [proc]) ∧
      (c.state.mem proc).priority = 0 ∧ c.state.processSizeTab = s₀.processSizeTab := by
  obtain ⟨u, s₁, hs₁, -⟩ := Call.bind_eq_ok.mp hrun
  obtain ⟨u, s₂, hs₂, hs₁⟩ := Call.bind_eq_ok.mp hs₁
  obtain ⟨j, s₃, hs₃, -⟩ := Call.bind_eq_ok.mp hs₁
  cases hs₂
  have hgdt : freeGdt s₀.gdtMap nrGdt 0 = some j := 
    allocGdt_inv (s := s₀.update proc fun _ => Process.zero) hs₃
  rw [schedulerInit_run (htab 0) hgdt] at hrun
  cases hrun
  have hproc : proc ∈ c.live := by
    rw [hlive]
    rfl
  have hstart : (started s₀ proc j init).Queues fun _ => [] := by
    refine ⟨fun i => Links.isRing_nil, htab, fun i p hp => ?_⟩
    cases hp
  have hi : queueIndex ((started s₀ proc j init).mem proc).priority = some 0 := by
    rw [started, State.update_self]
    exact queueIndex_zero
  refine ⟨rings_of_settled hs (hstart.alone (fun j hj => by cases hj) ⟨by simp, by simp⟩ rfl hi
    fun x => ⟨fun hx => by simp [hx], by simp⟩) fun p => ?_, ?_, ?_⟩
  · rw [hlive, Set.mem_singleton_iff]
    constructor
    · rintro rfl
      exact ⟨0, by simp⟩
    · rintro ⟨i, hi⟩
      by_cases h0 : i = 0
      · simpa [h0] using hi
      · simp [h0] at hi
  · rw [hs.mem proc hproc]
    simp [started]
  · rw [hs.size]
    rfl

theorem loose_init (h : (system close).init c) : Loose c := by
  obtain ⟨proc, init, s₀, s, htab, hsize, hrun, hlive, hs⟩ := h
  obtain ⟨hrings, hpr, hsz⟩ := rings_init htab hrun hlive hs
  refine ⟨?_, fun i => ?_, fun p hp => ?_⟩
  · rw [hrings.queues.head 0]
    simp
  · rw [hsz]
    exact hsize i
  · obtain ⟨i, before, behind, -, -, hprev, hnext⟩ := neighbours hrings hp
    rw [hlive, Set.mem_singleton_iff] at hp
    subst hp
    exact ⟨hpr, by simp [hnext], by simp [hprev]⟩

end ForkCall

open ForkCall in
/-- **The process table over `kfork` and `free_process`.** The lengths are never counted, so
`process_size_tab` does not hold them in any state of any run. As long as no process is freed
that is alone on its queue, the queues are rings of the live processes, a new process comes
behind the head and a freed one leaves the others in their order; and a call keeps the rings
only if it does not free such a process. -/
theorem process_table_over_fork_and_free {close : Process → Tables} {c : Config} 
    (h : (system close).Reach (fun _ _ => True) c) :
    ¬ c.Integrity ∧
      ((system close).Reach NotAlone c →
        ∃ q, c.Rings q ∧ ∀ call c', Step close call c c' →
          ((∃ q', c'.Rings q') ↔ NotAlone c call) ∧
          (NotAlone c call → ∃ q', c'.Rings q' ∧ Changes q q' call)) := by
  constructor
  · have hloose : Loose c := h.invariant (fun c hc => loose_init hc)
      fun c call c' hc _ hstep => loose_step hc hstep
    rintro ⟨q, hq, hsize⟩
    have hhead := hloose.head
    have hlen := hsize 0
    rw [hloose.size 0] at hlen
    rw [hq.queues.head 0, List.length_eq_zero_iff.mp hlen.symm] at hhead
    exact hhead rfl
  · intro hr
    have hchange : ∀ {c q call c'}, Config.Rings c q → NotAlone c call → Step close call c c' →
        ∃ q', c'.Rings q' ∧ Changes q q' call := by
      intro c q call c' hq hcall hstep
      cases call with
      | fork proc exec eip => exact rings_fork hq hstep
      | free p => exact rings_free hq hcall hstep
    obtain ⟨q, hq⟩ : ∃ q, c.Rings q := by
      refine hr.invariant (P := fun c => ∃ q, c.Rings q) (fun c hc => ?_)
        fun c call c' hc hcall hstep => ?_
      · obtain ⟨proc, init, s₀, s, htab, -, hrun, hlive, hs⟩ := hc
        exact ⟨_, (rings_init htab hrun hlive hs).1⟩
      · obtain ⟨q, hq⟩ := hc
        obtain ⟨q', hq', -⟩ := hchange hq hcall hstep
        exact ⟨q', hq'⟩
    refine ⟨q, hq, fun call c' hstep => ⟨⟨?_, ?_⟩, fun hcall => hchange hq hcall hstep⟩⟩
    · intro hrings
      cases call with
      | fork proc exec eip => trivial
      | free p => exact fun halone => not_rings_of_alone hq halone hstep hrings
    · intro hcall
      obtain ⟨q', hq', -⟩ := hchange hq hcall hstep
      exact ⟨q', hq'⟩

/-! ## The first process -/

namespace ForkCall

/-- The tables of a process without open files. -/
def noFiles (x : Process) : Tables := ⟨x.fileTab, x.fileDesc, x.dirTab⟩

/-- What `scheduler_init` leaves, with the first process at the address 4096. -/
def firstConfig : Config where
  state := { (((started State.zero firstProcess 0 1).setNext firstProcess
    (some firstProcess)).setPrev firstProcess (some firstProcess)).setTab 0 (some firstProcess) with
      currentProcess := some firstProcess }
  live := {firstProcess}

theorem init_firstConfig : (system noFiles).init firstConfig := by
  have hgdt : freeGdt State.zero.gdtMap nrGdt 0 = some 0 := by decide
  exact ⟨firstProcess, 1, State.zero, _, fun _ => rfl, fun _ => rfl, schedulerInit_run rfl hgdt,
    rfl, rfl, rfl, fun _ _ => rfl⟩

theorem process_table_firstConfig : ¬ firstConfig.Integrity ∧
    ∃ q, firstConfig.Rings q ∧ ∀ call c', Step noFiles call firstConfig c' →
      ((∃ q', c'.Rings q') ↔ NotAlone firstConfig call) ∧
      (NotAlone firstConfig call → ∃ q', c'.Rings q' ∧ Changes q q' call) :=
  ⟨(process_table_over_fork_and_free (.init init_firstConfig)).1,
    (process_table_over_fork_and_free (.init init_firstConfig)).2 (.init init_firstConfig)⟩

/-- When the first process is freed, `process_tab` still has its address. -/
theorem freed_process_in_table : ∃ c, (system noFiles).Reach (fun _ _ => True) c ∧ c.live = ∅ ∧
    c.state.processTab 0 = some firstProcess ∧ ¬ c.Integrity := by
  have hi : queueIndex (firstConfig.state.mem firstProcess).priority = some 0 := by
    simpa [firstConfig, started] using queueIndex_zero
  have hprev : (firstConfig.state.mem firstProcess).prev = some firstProcess := by
    simp [firstConfig]
  have hnext : (firstConfig.state.mem firstProcess).next = some firstProcess := by
    simp [firstConfig]
  have hstep : Step noFiles (free firstProcess) firstConfig
      ⟨(firstConfig.state.closed noFiles firstProcess).freed firstProcess firstProcess firstProcess 0,
        firstConfig.live \ {firstProcess}⟩ :=
    ⟨rfl, _, freeProcess_run hi hprev hnext, rfl, rfl, rfl, fun _ _ => rfl⟩
  obtain ⟨proc, init, s₀, s, htab, -, hrun, hlive, hs⟩ := init_firstConfig
  have hrings := (rings_init htab hrun hlive hs).1
  refine ⟨_, .step (c := free firstProcess) (.init init_firstConfig) trivial hstep, ?_, ?_, ?_⟩
  · exact Set.sdiff_self
  · rw [State.freed_processTab]
    simp [State.closed, firstConfig]
  · rintro ⟨q, hq, -⟩
    exact not_rings_of_alone hrings hnext hstep ⟨q, hq⟩

end ForkCall
end OxKernel.Kernel
