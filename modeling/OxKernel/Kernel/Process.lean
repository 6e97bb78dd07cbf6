import OxKernel.Lib.Ring
import OxKernel.Fs.Process

/-!
# Processes

`struct process`, the process table with its queues, and the loop over all processes that
most of the kernel's calls make. A queue is a ring of processes that starts at its entry of
`process_tab`.

## Main definitions

* `Process` — `struct process`.
* `State` — the memory of the processes, the table and the static variables.
* `KernelM` — calls of the kernel, which may also stop it.
* `tableLoop` — the loop over the queues.
* `State.Queues` — the queues as lists.
-/
namespace OxKernel.Kernel

open Lib (Call Links ringLoop firstOf)
open Fs (BlockNo Inode DirStream maxFiles maxDir)

/-- `Nr_PRIORITY`. -/
abbrev nrPriority : ℕ := 32

instance : NeZero nrPriority := ⟨by decide⟩

/-- `Nr_GDT`. -/
abbrev nrGdt : ℕ := 8192

instance : NeZero nrGdt := ⟨by decide⟩

/-- A pointer that is not NULL. -/
abbrev Ptr := {a : UInt32 // a ≠ 0}

instance : LawfulBEq Ptr := inferInstance

/-- `enum process_state`. -/
def pRunning : Int32 := 1
def pInterruptible : Int32 := 2
def pUninteruptible : Int32 := 3
def pZombie : Int32 := 4
def pStopped : Int32 := 5

/-- A value of type `inode_t *`: NULL, an entry of the `file_tab` of a process, or, by a slip
of `kfork`, an entry of its `file_desc`. -/
inductive InodePtr
  | null
  | fileTab (p : Ptr) (k : Fin maxFiles)
  | fileDesc (p : Ptr) (j : Fin maxFiles)
  deriving DecidableEq

/-- `struct sigaction`. -/
structure Sigaction where
  handler : UInt32
  mask : UInt32
  flags : UInt32
  deriving DecidableEq

/-- `struct process`. Of the task state there is the instruction pointer. -/
structure Process where
  state : Int32
  counter : Int32
  priority : Int32
  signal : UInt32
  blocked : UInt32
  tssSeg : UInt16
  exitCode : Int32
  pid : Int32
  parent : Int32
  pgrp : Int32
  session : Int32
  leader : Int32
  uid : UInt16
  euid : UInt16
  suid : UInt16
  gid : UInt16
  egid : UInt16
  sgid : UInt16
  alarm : Int32
  utime : Int32
  stime : Int32
  cutime : Int32
  cstime : Int32
  startTime : Int32
  cwd : BlockNo
  umask : UInt32
  owner : UInt32
  group : UInt32
  fileTab : Fin maxFiles → Inode
  fileDesc : Fin maxFiles → InodePtr
  dirTab : Fin maxDir → DirStream
  exec : UInt32
  execSize : UInt32
  elfEntry : UInt32
  argc : Int32
  envp : UInt32
  deleteArgv : Int32
  firstExec : Int32
  sigaction : Fin 32 → Sigaction
  eip : UInt32
  next : Option Ptr
  prev : Option Ptr

/-- A zeroed process. -/
def Process.zero : Process where
  state := 0
  counter := 0
  priority := 0
  signal := 0
  blocked := 0
  tssSeg := 0
  exitCode := 0
  pid := 0
  parent := 0
  pgrp := 0
  session := 0
  leader := 0
  uid := 0
  euid := 0
  suid := 0
  gid := 0
  egid := 0
  sgid := 0
  alarm := 0
  utime := 0
  stime := 0
  cutime := 0
  cstime := 0
  startTime := 0
  cwd := 0
  umask := 0
  owner := 0
  group := 0
  fileTab := fun _ => Inode.zero
  fileDesc := fun _ => .null
  dirTab := fun _ => DirStream.zero
  exec := 0
  execSize := 0
  elfEntry := 0
  argc := 0
  envp := 0
  deleteArgv := 0
  firstExec := 0
  sigaction := fun _ => ⟨0, 0, 0⟩
  eip := 0
  next := none
  prev := none

/-- A call of `asm_soft_switch`: the process it goes to, what that process was when `schedule`
was entered and what it is now, and the mode. -/
structure Switch where
  process : Ptr
  before : Process
  after : Process
  mode : Int32

/-- What lies at the addresses of processes, the static variables, and the record of the calls
of `asm_soft_switch`, the last one first. -/
structure State where
  mem : Ptr → Process
  processTab : Fin nrPriority → Option Ptr
  processSizeTab : Fin nrPriority → UInt32
  currentProcess : Option Ptr
  previousProcess : Option Ptr
  gdtMap : Fin nrGdt → UInt8
  /-- `static int pid` of `kgenpid`. -/
  nextPid : Int32
  /-- `static unsigned first_time` of `schedule`. -/
  firstTime : UInt32
  switches : List Switch

/-- The state before the first process. -/
def State.zero : State where
  mem _ := Process.zero
  processTab _ := none
  processSizeTab _ := 0
  currentProcess := none
  previousProcess := none
  gdtMap _ := 0
  nextPid := 2
  firstTime := 1
  switches := []

/-- Why the kernel stops: a panic, or an access through NULL or outside a table. -/
inductive Stop
  | panic (message : String)
  | fault
  deriving DecidableEq

/-- A call of the kernel. -/
abbrev KernelM (α : Type) := Call Stop State α

namespace State
variable (s : State)

/-- The pointers of the queues. -/
def links : Links Ptr := ⟨fun p => (s.mem p).next, fun p => (s.mem p).prev⟩

/-- Change the process at an address. -/
def update (p : Ptr) (f : Process → Process) : State :=
  { s with mem := Function.update s.mem p (f (s.mem p)) }

/-- `p->p_next = q`. -/
def setNext (p : Ptr) (q : Option Ptr) : State := s.update p fun x => { x with next := q }

/-- `p->p_prev = q`. -/
def setPrev (p : Ptr) (q : Option Ptr) : State := s.update p fun x => { x with prev := q }

/-- `process_tab[i] = q`. -/
def setTab (i : Fin nrPriority) (q : Option Ptr) : State :=
  { s with processTab := Function.update s.processTab i q }

/-- `process_size_tab[i] = n`. -/
def setSize (i : Fin nrPriority) (n : UInt32) : State :=
  { s with processSizeTab := Function.update s.processSizeTab i n }

section Update
variable {s} {p x : Ptr} {q : Option Ptr} {i j : Fin nrPriority} {n : UInt32} {f : Process → Process}

@[simp] theorem update_self : (s.update p f).mem p = f (s.mem p) := Function.update_self ..

theorem update_of_ne (h : x ≠ p) : (s.update p f).mem x = s.mem x := Function.update_of_ne h ..

@[simp] theorem links_next : s.links.next p = (s.mem p).next := rfl
@[simp] theorem links_prev : s.links.prev p = (s.mem p).prev := rfl

theorem update_mem : (s.update p f).mem x = if x = p then f (s.mem p) else s.mem x := by
  rw [update]
  exact Function.update_apply ..

@[simp] theorem setNext_next : ((s.setNext p q).mem x).next = if x = p then q else (s.mem x).next := by
  rw [setNext, update_mem]
  split <;> rfl

@[simp] theorem setNext_prev : ((s.setNext p q).mem x).prev = (s.mem x).prev := by
  rw [setNext, update_mem]
  split
  · rename_i h
    rw [h]
  · rfl

@[simp] theorem setPrev_prev : ((s.setPrev p q).mem x).prev = if x = p then q else (s.mem x).prev := by
  rw [setPrev, update_mem]
  split <;> rfl

@[simp] theorem setPrev_next : ((s.setPrev p q).mem x).next = (s.mem x).next := by
  rw [setPrev, update_mem]
  split
  · rename_i h
    rw [h]
  · rfl

@[simp] theorem setNext_priority : ((s.setNext p q).mem x).priority = (s.mem x).priority := by
  rw [setNext, update_mem]
  split
  · rename_i h
    rw [h]
  · rfl

@[simp] theorem setPrev_priority : ((s.setPrev p q).mem x).priority = (s.mem x).priority := by
  rw [setPrev, update_mem]
  split
  · rename_i h
    rw [h]
  · rfl

@[simp] theorem update_processTab : (s.update p f).processTab = s.processTab := rfl
@[simp] theorem setNext_processTab : (s.setNext p q).processTab = s.processTab := rfl
@[simp] theorem setPrev_processTab : (s.setPrev p q).processTab = s.processTab := rfl
@[simp] theorem setSize_processTab : (s.setSize i n).processTab = s.processTab := rfl
@[simp] theorem setTab_mem : (s.setTab i q).mem = s.mem := rfl
@[simp] theorem setSize_mem : (s.setSize i n).mem = s.mem := rfl
@[simp] theorem setTab_processTab :
    (s.setTab i q).processTab = Function.update s.processTab i q := rfl
@[simp] theorem setSize_processSizeTab :
    (s.setSize i n).processSizeTab = Function.update s.processSizeTab i n := rfl
@[simp] theorem update_processSizeTab : (s.update p f).processSizeTab = s.processSizeTab := rfl
@[simp] theorem setNext_processSizeTab : (s.setNext p q).processSizeTab = s.processSizeTab := rfl
@[simp] theorem setPrev_processSizeTab : (s.setPrev p q).processSizeTab = s.processSizeTab := rfl
@[simp] theorem setTab_processSizeTab : (s.setTab i q).processSizeTab = s.processSizeTab := rfl

theorem update_update {g : Process → Process} :
    (s.update p f).update p g = s.update p fun x => g (f x) := by
  rw [update, update_self]
  show ({ s with mem := _ } : State) = _
  rw [update, Function.update_idem]
  rfl

theorem update_comm {a b : Ptr} {g : Process → Process} (h : a ≠ b) :
    (s.update a f).update b g = (s.update b g).update a f := by
  show ({ s with mem :=
      Function.update (Function.update s.mem a (f (s.mem a))) b (g ((s.update a f).mem b)) } : State) =
    { s with mem :=
      Function.update (Function.update s.mem b (g (s.mem b))) a (f ((s.update b g).mem a)) }
  rw [update_of_ne h.symm, update_of_ne h, Function.update_comm h]

/-- Only the process at the address is looked at. -/
theorem update_congr {g : Process → Process} (h : f (s.mem p) = g (s.mem p)) :
    s.update p f = s.update p g := by
  rw [update, update, h]

/-- A field that a change leaves alone. -/
theorem update_field {α : Type} (g : Process → α) (hg : ∀ y, g (f y) = g y) :
    g ((s.update p f).mem x) = g (s.mem x) := by
  rw [update_mem]
  split
  · rename_i hx
    rw [hg, hx]
  · rfl

end Update
end State

/-! ## Pointers and indices -/

/-- `p->…`. -/
def deref : Option Ptr → KernelM Ptr
  | some p => pure p
  | none => Call.fail .fault

theorem deref_eq_ok {o : Option Ptr} {p : Ptr} {s s' : State} :
    deref o s = some (.ok p, s') ↔ o = some p ∧ s' = s := by
  cases o with
  | none =>
      constructor
      · intro h
        cases h
      · intro h
        cases h.1
  | some x =>
      constructor
      · intro h
        cases h
        exact ⟨rfl, rfl⟩
      · rintro ⟨h, rfl⟩
        cases h
        rfl

theorem deref_run {o : Option Ptr} {p : Ptr} (h : o = some p) (s : State) :
    deref o s = some (.ok p, s) := deref_eq_ok.mpr ⟨h, rfl⟩

/-- The queue of a priority: `tab[priority]`. -/
def queueIndex (priority : Int32) : Option (Fin nrPriority) :=
  if h : 0 ≤ priority ∧ priority < 32 then some ⟨priority.toInt.toNat, by
    obtain ⟨h0, h1⟩ := h
    rw [Int32.le_iff_toInt_le] at h0
    rw [Int32.lt_iff_toInt_lt] at h1
    have : (32 : Int32).toInt = 32 := by decide
    have : (0 : Int32).toInt = 0 := by decide
    show priority.toInt.toNat < 32
    omega⟩
  else none

/-- `tab[priority]`, an access outside the table otherwise. -/
def queueOf (priority : Int32) : KernelM (Fin nrPriority) :=
  match queueIndex priority with
  | some i => pure i
  | none => Call.fail .fault

/-- More than there are processes. -/
abbrev ringFuel : ℕ := 4294967296

/-- The loop over all processes, `for(i = 0; i < Nr_PRIORITY; ++i)` with the loop over the ring
of the queue in it. The body may return, and may have local variables beside the state. -/
def tableLoop {σ ρ : Type} (view : σ → State) (body : Ptr → Call Stop σ (Option ρ)) :
    Call Stop σ (Option ρ) :=
  firstOf (fun i => do
    let s ← Call.get
    ringLoop (fun s => (view s).links) (fun s => (view s).processTab i) body ringFuel
      ((view s).processTab i))
    (List.finRange nrPriority)

/-- The loop with a body that does not return. -/
def eachProcess {σ : Type} (view : σ → State) (body : Ptr → Call Stop σ Unit) : Call Stop σ Unit := do
  let _ ← tableLoop view fun curr => do
    body curr
    pure (none : Option Empty)
  pure ()

/-! ## Queues as lists -/

namespace State
variable {s s' : State} {q : Fin nrPriority → List Ptr} {p x : Ptr} {i j : Fin nrPriority}

/-- The processes of each queue, from the head on. -/
structure Queues (s : State) (q : Fin nrPriority → List Ptr) : Prop where
  ring : ∀ i, s.links.IsRing (q i)
  head : ∀ i, s.processTab i = (q i).head?
  priority : ∀ i, ∀ p ∈ q i, queueIndex (s.mem p).priority = some i

/-- All processes, in the order in which the loops visit them. -/
def procs (q : Fin nrPriority → List Ptr) : List Ptr := (List.finRange nrPriority).flatMap q

theorem mem_procs : p ∈ procs q ↔ ∃ i, p ∈ q i := by
  rw [procs, List.mem_flatMap]
  constructor
  · rintro ⟨i, -, hp⟩
    exact ⟨i, hp⟩
  · rintro ⟨i, hp⟩
    exact ⟨i, List.mem_finRange i, hp⟩

/-- A process is on one queue. -/
theorem Queues.unique (h : s.Queues q) (hi : p ∈ q i) (hj : p ∈ q j) : i = j := by
  have hpi := h.priority i p hi
  rw [h.priority j p hj] at hpi
  exact (Option.some.inj hpi).symm

theorem Queues.nodup (h : s.Queues q) : (procs q).Nodup := by
  rw [procs, List.nodup_flatMap]
  refine ⟨fun i _ => (h.ring i).nodup, ?_⟩
  refine (List.nodup_finRange nrPriority).imp fun hij => ?_
  intro p hi hj
  exact hij (h.unique hi hj)

/-- There are more numbers than processes. -/
theorem Queues.length_lt (h : s.Queues q) (i : Fin nrPriority) : (q i).length < 2 ^ 32 := by
  have hinj : Function.Injective fun p : Ptr => p.1.toFin := fun a b hab =>
    Subtype.ext (UInt32.toFin_inj.mp hab)
  have hnd : (0 :: (q i).map fun p : Ptr => p.1.toFin).Nodup := by
    refine List.nodup_cons.mpr ⟨?_, (h.ring i).nodup.map hinj⟩
    intro hmem
    obtain ⟨p, -, hp⟩ := List.mem_map.mp hmem
    exact p.2 (UInt32.toFin_inj.mp hp)
  have hcard := hnd.length_le_card
  rw [List.length_cons, List.length_map, Fintype.card_fin] at hcard
  have : UInt32.size = 2 ^ 32 := rfl
  omega

/-- Changes that concern neither the links nor the priorities. -/
theorem Queues.congr (h : s.Queues q) (htab : s'.processTab = s.processTab)
    (hmem : ∀ i, ∀ p ∈ q i, (s'.mem p).next = (s.mem p).next ∧ (s'.mem p).prev = (s.mem p).prev ∧
      (s'.mem p).priority = (s.mem p).priority) : s'.Queues q where
  ring i := (h.ring i).congr (fun p hp => (hmem i p hp).1) fun p hp => (hmem i p hp).2.1
  head i := by
    rw [htab]
    exact h.head i
  priority i p hp := by
    rw [(hmem i p hp).2.2]
    exact h.priority i p hp

/-- The process can be reached from its entry of `process_tab`. -/
def Queued (s : State) (p : Ptr) : Prop :=
  ∃ i a, s.processTab i = some a ∧ Relation.ReflTransGen (fun x y => (s.mem x).next = some y) a p

theorem Queues.queued_iff (h : s.Queues q) : s.Queued p ↔ ∃ i, p ∈ q i := by
  constructor
  · rintro ⟨i, a, ha, hreach⟩
    refine ⟨i, ?_⟩
    have hring := h.ring i
    rw [h.head i] at ha
    obtain ⟨m, hm⟩ := List.head?_eq_some_iff.mp ha
    rw [hm] at hring ⊢
    exact hring.mem_iff.mpr hreach
  · rintro ⟨i, hp⟩
    have hring := h.ring i
    have hhead := h.head i
    cases hm : q i with
    | nil =>
        rw [hm] at hp
        cases hp
    | cons a m =>
        rw [hm] at hp hring hhead
        exact ⟨i, a, hhead, hring.mem_iff.mp hp⟩

end State

/-- **The loop over the process table** visits all processes, if its body leaves the queues
as they are as long as it does not return. -/
theorem tableLoop_eq {σ ρ : Type} {view : σ → State} {P : σ → Prop} {q : Fin nrPriority → List Ptr}
    {body : Ptr → Call Stop σ (Option ρ)} (hP : ∀ s, P s → (view s).Queues q)
    (hbody : ∀ i, ∀ p ∈ q i, ∀ s s', P s → body p s = some (.ok none, s') → P s') {s : σ}
    (hs : P s) : tableLoop view body s = firstOf body (State.procs q) s := by
  have hfuel : ∀ i, (q i).length ≤ ringFuel := fun i => ((hP s hs).length_lt i).le
  have hqueue : ∀ i s, P s → (do
      let s ← Call.get
      ringLoop (fun s => (view s).links) (fun s => (view s).processTab i) body ringFuel
        ((view s).processTab i) : Call Stop σ (Option ρ)) s = firstOf body (q i) s := fun i s hs =>
    Lib.ringLoop_eq (fun t ht => ⟨(hP t ht).head i, (hP t ht).ring i⟩) (hbody i) (hfuel i) hs
  rw [tableLoop, State.procs, ← Lib.firstOf_flatMap]
  refine Lib.firstOf_congr (fun i _ => hqueue i) (fun i _ s s' hs h => ?_) hs
  rw [hqueue i s hs] at h
  exact Lib.firstOf_keeps (hbody i) hs h

/-- What each body keeps, the loop over the process table keeps, if it is about the queues. -/
theorem tableLoop_returns {σ ρ : Type} {view : σ → State} {P : σ → Prop}
    {q : Fin nrPriority → List Ptr} {body : Ptr → Call Stop σ (Option ρ)}
    (hP : ∀ s, P s → (view s).Queues q)
    (hbody : ∀ p s r s', P s → body p s = some (.ok r, s') → P s') {s s' : σ} {r : Option ρ}
    (hs : P s) (h : tableLoop view body s = some (.ok r, s')) : P s' := by
  rw [tableLoop_eq hP (fun _ p _ s s' => hbody p s none s') hs] at h
  exact Lib.firstOf_returns (fun p _ s r s' => hbody p s r s') hs h

theorem eachProcess_returns {σ : Type} {view : σ → State} {P : σ → Prop}
    {q : Fin nrPriority → List Ptr} {body : Ptr → Call Stop σ Unit}
    (hP : ∀ s, P s → (view s).Queues q)
    (hbody : ∀ p s s', P s → body p s = some (.ok (), s') → P s') {s s' : σ}
    (hs : P s) (h : eachProcess view body s = some (.ok (), s')) : P s' := by
  obtain ⟨r, s₁, hloop, hret⟩ := Call.bind_eq_ok.mp h
  cases hret
  refine tableLoop_returns hP (fun p s r s' hs hrun => ?_) hs hloop
  obtain ⟨u, s₂, hb, hret⟩ := Call.bind_eq_ok.mp hrun
  cases hret
  exact hbody p s s' hs hb

/-- A loop whose body changes the state in a way that depends on the process. -/
theorem eachProcess_eq {σ : Type} {view : σ → State} {P : σ → Prop} {q : Fin nrPriority → List Ptr}
    {body : Ptr → Call Stop σ Unit} {f : Ptr → σ → σ} (hP : ∀ s, P s → (view s).Queues q)
    (hbody : ∀ i, ∀ p ∈ q i, ∀ s, P s → body p s = some (.ok (), f p s) ∧ P (f p s)) {s : σ}
    (hs : P s) :
    eachProcess view body s =
      some (.ok (), (State.procs q).foldl (fun s p => f p s) s) := by
  have hstep : ∀ i, ∀ p ∈ q i, ∀ s, P s →
      (do body p; pure none : Call Stop σ (Option Empty)) s = some (.ok none, f p s) ∧
        P (f p s) := by
    intro i p hp s hs
    obtain ⟨hrun, hnew⟩ := hbody i p hp s hs
    exact ⟨Call.bind_of_ok hrun, hnew⟩
  refine (Call.bind_of_ok ((tableLoop_eq hP (fun i p hp s s' hs h => ?_) hs).trans
    (Lib.firstOf_of_step (fun p hp s hs => ?_) hs))).trans rfl
  · obtain ⟨hrun, hnew⟩ := hstep i p hp s hs
    rw [hrun] at h
    cases h
    exact hnew
  · obtain ⟨i, hi⟩ := State.mem_procs.mp hp
    exact hstep i p hi s hs

/-! ## Changes of all processes -/

/-- Addresses of three processes. -/
def firstProcess : Ptr := ⟨4096, by decide⟩
def secondProcess : Ptr := ⟨8192, by decide⟩
def thirdProcess : Ptr := ⟨12288, by decide⟩

namespace State
variable {s : State} {q : Fin nrPriority → List Ptr} {l : List Ptr} {p x : Ptr}
  {f : Ptr → Process → Process}

/-- Change the processes of a list, each in its own way. -/
def updateAll (s : State) (l : List Ptr) (f : Ptr → Process → Process) : State :=
  { s with mem := fun p => if p ∈ l then f p (s.mem p) else s.mem p }

theorem updateAll_of_mem (h : p ∈ l) : (s.updateAll l f).mem p = f p (s.mem p) := if_pos h

theorem updateAll_of_not_mem (h : p ∉ l) : (s.updateAll l f).mem p = s.mem p := if_neg h

/-- One change after the other. -/
theorem foldl_update (h : l.Nodup) :
    l.foldl (fun s p => s.update p (f p)) s = s.updateAll l f := by
  induction l generalizing s with
  | nil => rfl
  | cons a l ih =>
      obtain ⟨ha, hl⟩ := List.nodup_cons.mp h
      rw [List.foldl_cons, ih hl, updateAll, updateAll]
      show ({ s with mem := _ } : State) = { s with mem := _ }
      congr 1
      funext p
      by_cases hp : p = a
      · subst hp
        rw [if_neg ha, if_pos List.mem_cons_self, update_self]
      · rw [update_of_ne hp]
        by_cases hl : p ∈ l
        · rw [if_pos hl, if_pos (List.mem_cons_of_mem a hl)]
        · rw [if_neg hl, if_neg (by simp [hp, hl])]

theorem Queues.updateAll (h : s.Queues q)
    (hf : ∀ p x, (f p x).next = x.next ∧ (f p x).prev = x.prev ∧ (f p x).priority = x.priority) :
    (s.updateAll l f).Queues q := by
  refine h.congr rfl fun i p _ => ?_
  by_cases hp : p ∈ l
  · rw [updateAll_of_mem hp]
    exact hf p (s.mem p)
  · rw [updateAll_of_not_mem hp]
    exact ⟨rfl, rfl, rfl⟩

theorem Queues.update {g : Process → Process} (h : s.Queues q)
    (hg : ∀ x, (g x).next = x.next ∧ (g x).prev = x.prev ∧ (g x).priority = x.priority) :
    (s.update p g).Queues q := by
  refine h.congr rfl fun i x _ => ?_
  rw [update_mem]
  split
  · rename_i hx
    rw [hx]
    exact hg (s.mem p)
  · exact ⟨rfl, rfl, rfl⟩

/-- A table with some processes on queue 0, the process `me` being the current one. -/
def ofList (l : List Ptr) (f : Ptr → Process) (me : Ptr) : State :=
  { State.zero with
    mem := fun p =>
      { f p with
        priority := 0
        next := (Lib.Links.ofList l).next p
        prev := (Lib.Links.ofList l).prev p }
    processTab := Function.update (fun _ => none) 0 l.head?
    currentProcess := some me }

theorem queues_ofList {f : Ptr → Process} (hl : l.Nodup) :
    (ofList l f p).Queues (Function.update (fun _ => []) 0 l) := by
  refine ⟨fun i => ?_, fun i => ?_, fun i x hx => ?_⟩
  · by_cases hi : i = 0
    · rw [hi, Function.update_self]
      exact (Lib.Links.isRing_ofList hl).congr (fun _ _ => rfl) fun _ _ => rfl
    · rw [Function.update_of_ne hi]
      exact Links.isRing_nil
  · show Function.update (fun _ => none) 0 l.head? i = _
    by_cases hi : i = 0
    · rw [hi, Function.update_self, Function.update_self]
    · rw [Function.update_of_ne hi, Function.update_of_ne hi]
      rfl
  · by_cases hi : i = 0
    · rw [hi]
      show queueIndex 0 = some 0
      decide
    · rw [Function.update_of_ne hi] at hx
      cases hx

theorem procs_ofList : procs (Function.update (fun _ => []) 0 l) = l := by
  have htail : ∀ m : List (Fin nrPriority), 0 ∉ m →
      m.flatMap (Function.update (fun _ => []) 0 l) = [] := by
    intro m hm
    refine List.flatMap_eq_nil_iff.mpr fun i hi => ?_
    refine Function.update_of_ne ?_ _ _
    rintro rfl
    exact hm hi
  rw [procs, List.finRange_succ, List.flatMap_cons, Function.update_self, htail _ (by simp),
    List.append_nil]

end State
end OxKernel.Kernel
