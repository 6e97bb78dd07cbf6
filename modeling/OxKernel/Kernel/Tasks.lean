import OxKernel.Kernel.ForkRuns
import OxKernel.Kernel.Identity
import OxKernel.Platform.Segment

/-!
# Runs of `kfork`, `kexit` and `free_process`

The processes with their numbers and their descriptors, over runs of any length from the state
that `scheduler_init` leaves. Between two calls anything may change but the numbers and the
entries of the live processes, the generators and the GDT.

## Main definitions

* `Tasks` — a state with the GDT and the live processes.
* `loadTssInGdt` — makes an entry of the GDT the descriptor of a task.
* `GdtStore` — what the store of `free_process` to `GDT_MAP` does: `compiledStore` as it is
  compiled, `mayGiveBack` if it may also give the entry back.
* `TaskCall` — the calls and what they do.
* `Tasks.DistinctPids`, `Tasks.Described` — what is to hold in every state.

## Main results

* `Step.cases` — what a call changes of the numbers and the entries.
* `Single.round` — a process that is made and freed at once.
* `Single.twice` — two processes that are made one after the other.
-/
namespace OxKernel.Kernel

open Lib (Call)
open Platform (SegmentDescriptor)
open Platform.SegmentDescriptor (sizeofTss Covered)

/-- The GDT. -/
abbrev Gdt := Fin nrGdt → SegmentDescriptor

/-- `load_tss_in_gdt`. -/
def loadTssInGdt (gdt : Gdt) (tss : BitVec 32) (priv : BitVec 8) (i : Fin nrGdt) : Gdt :=
  Function.update gdt i ((gdt i).protectInitTsssegment tss sizeofTss priv)

/-- `p_tss_seg / 8`. -/
def gdtIndex (tssSeg : UInt16) : Fin nrGdt := ⟨tssSeg.toNat / 8, by
  have hlt := tssSeg.toNat_lt
  show _ < 8192
  omega⟩

theorem gdtIndex_ofNat (i : Fin nrGdt) : gdtIndex (UInt16.ofNat (i * 8)) = i := by
  have hi : (i : ℕ) < 8192 := i.2
  apply Fin.ext
  show (UInt16.ofNat (i * 8)).toNat / 8 = i
  rw [UInt16.toNat_ofNat', Nat.mod_eq_of_lt (by omega)]
  omega

/-- The privilege level for the `p_euid` of the process that makes another one. -/
def privilege (euid : UInt16) : BitVec 8 := if euid ≠ 0 then 3 else 0

theorem privilege_cases (euid : UInt16) : privilege euid = 0 ∨ privilege euid = 3 := by
  rw [privilege]
  split
  · exact .inr rfl
  · exact .inl rfl

/-- A free entry is not in use. -/
theorem freeGdt_eq_some {map : Fin nrGdt → UInt8} {n i : ℕ} {j : Fin nrGdt}
    (h : freeGdt map n i = some j) : map j = 0 := by
  induction n generalizing i with
  | zero => cases h
  | succ n ih =>
      rw [freeGdt] at h
      split at h
      · split at h
        · cases h
          assumption
        · exact ih h
      · cases h

/-- What `GDT_MAP[i] = 0` in `free_process` may make of the map. -/
abbrev GdtStore := (Fin nrGdt → UInt8) → Fin nrGdt → (Fin nrGdt → UInt8) → Prop

/-- The first four bytes of the map, which `exit.c` takes for a pointer to words:
`extern unsigned *GDT_MAP`. -/
def gdtMapPointer (map : Fin nrGdt → UInt8) : ℕ :=
  (map 0).toNat + 256 * (map 1).toNat + 65536 * (map 2).toNat + 16777216 * (map 3).toNat

/-- The store as it is compiled, to the word `i` behind that pointer, for a map at the address
`addr`. -/
def compiledStore (addr : ℕ) : GdtStore := fun map i map' =>
  map' = fun k : Fin nrGdt => if gdtMapPointer map + 4 * i ≤ addr + k ∧
    addr + k < gdtMapPointer map + 4 * i + 4 then 0 else map k

/-- A store that misses the map, or that gives the entry back as `free_process` is to do. -/
def mayGiveBack : GdtStore := fun map i map' => map' = map ∨ map' = Function.update map i 0

/-- A state with the GDT and the live processes, and for those that `kfork` made the `p_euid` of
the process that made them. -/
structure Tasks where
  state : State
  gdt : Gdt
  live : Set Ptr
  creator : Ptr → Option UInt16

/-- The calls. -/
inductive TaskCall
  | fork (proc : Ptr) (exec eip : UInt32)
  | exit (e : Env) (exitCode : Int32)
  | free (p : Ptr)

namespace Tasks
variable (c : Tasks)

/-- The entry of a process in the GDT. -/
def slot (p : Ptr) : Fin nrGdt := gdtIndex (c.state.mem p).tssSeg

/-- The live processes that `kfork` made. -/
def forked : Set Ptr := {p | p ∈ c.live ∧ c.creator p ≠ none}

/-- The numbers of the processes that `kfork` made are distinct, and neither 0 nor that of the
init process. -/
structure DistinctPids : Prop where
  ne : ∀ p ∈ c.forked, (c.state.mem p).pid ≠ 0 ∧ (c.state.mem p).pid ≠ 1
  inj : ∀ p ∈ c.forked, ∀ p' ∈ c.forked, (c.state.mem p).pid = (c.state.mem p').pid → p = p'

/-- The privilege level of a process: that of the kernel for the first one. -/
def privilegeOf (p : Ptr) : BitVec 8 := (c.creator p).elim 0 privilege

/-- The entries of the live processes describe their task states, `offset` bytes into the
processes, and no two processes have one entry. -/
structure Described (offset : UInt32) : Prop where
  entry : ∀ p ∈ c.live,
    (c.gdt (c.slot p)).Describes (p.1 + offset).toBitVec (c.privilegeOf p)
  inj : ∀ p ∈ c.live, ∀ p' ∈ c.live, c.slot p = c.slot p' → p = p'

/-- What stays the same from one call to the next, `s` being the state after the first one. The
processes are not in the memory behind the pointer that the map is taken for. -/
structure Kept (s : State) (c : Tasks) : Prop where
  pid : ∀ p ∈ c.live, (c.state.mem p).pid = (s.mem p).pid
  tssSeg : ∀ p ∈ c.live, (c.state.mem p).tssSeg = (s.mem p).tssSeg
  nextPid : c.state.nextPid = s.nextPid
  gdtMap : c.state.gdtMap = s.gdtMap

end Tasks

namespace TaskCall
variable (close : Process → Tables) (offset : UInt32) (store : GdtStore)

/-- What `kfork` does: it makes a process in memory that is not in use. -/
structure Fork (proc : Ptr) (exec eip : UInt32) (c c' : Tasks) (parent : Ptr) (i : Fin nrGdt)
    (s : State) : Prop where
  fresh : proc ∉ c.live
  alive : parent ∈ c.live
  current : c.state.currentProcess = some parent
  alloc : freeGdt c.state.gdtMap nrGdt 0 = some i
  run : ∃ pid, kfork proc exec eip c.state = some (.ok pid, s)
  gdt : c'.gdt = loadTssInGdt c.gdt (proc.1 + offset).toBitVec
    (privilege (c.state.mem parent).euid) i
  live : c'.live = insert proc c.live
  creator : c'.creator = Function.update c.creator proc (some (c.state.mem parent).euid)
  kept : c'.Kept s

/-- What a call may do. The store of `free_process` to `GDT_MAP` comes last. -/
def Step : TaskCall → Tasks → Tasks → Prop
  | fork proc exec eip, c, c' => ∃ parent i s, Fork offset proc exec eip c c' parent i s
  | exit e exitCode, c, c' => (∃ me ∈ c.live, c.state.currentProcess = some me) ∧
    ∃ r s, kexit e exitCode c.state = some (.ok r, s) ∧ c'.gdt = c.gdt ∧ c'.live = c.live ∧
      c'.creator = c.creator ∧ c'.Kept s
  | free p, c, c' => p ∈ c.live ∧
    ∃ s, freeProcess close (some p) c.state = some (.ok (), s) ∧ c'.gdt = c.gdt ∧
      c'.live = c.live \ {p} ∧ c'.creator = c.creator ∧
      ∃ map, store s.gdtMap (c.slot p) map ∧ c'.Kept { s with gdtMap := map }

/-- The runs from the state that `scheduler_init` leaves. The first six entries of the GDT are
those of the kernel, and the other ones are zeroed. -/
def system : Lib.System Tasks TaskCall where
  init c := ∃ proc init s₀ s i gdt, (∀ k, s₀.processTab k = none) ∧ s₀.nextPid = 2 ∧
    (∀ k : Fin nrGdt, s₀.gdtMap k = if (k : ℕ) < 6 then 1 else 0) ∧
    (∀ k : Fin nrGdt, 6 ≤ (k : ℕ) → gdt k = .zero) ∧ freeGdt s₀.gdtMap nrGdt 0 = some i ∧
    schedulerInit proc init s₀ = some (.ok (), s) ∧
    c.gdt = loadTssInGdt gdt (proc.1 + offset).toBitVec 0 i ∧ c.live = {proc} ∧
    (c.creator = fun _ => none) ∧ c.Kept s
  step := Step close offset store

/-- The entry that `alloc_gdt` is about to give out has no bits in its fields that the new
descriptor does not have. -/
def FreshEntry (c : Tasks) : TaskCall → Prop
  | fork proc _ _ => ∀ parent i, c.state.currentProcess = some parent →
      freeGdt c.state.gdtMap nrGdt 0 = some i →
      (c.gdt i).Covered (proc.1 + offset).toBitVec (privilege (c.state.mem parent).euid)
  | exit _ _ => True
  | free _ => True

variable {close offset store} {c c' : Tasks} {call : TaskCall} {p proc parent : Ptr}
  {i : Fin nrGdt} {exec eip : UInt32} {s : State}

/-! ## What a call changes -/

namespace Fork
variable (h : Fork offset proc exec eip c c' parent i s)
include h

theorem parent_ne : parent ≠ proc := by
  rintro rfl
  exact h.fresh h.alive

/-- The numbers and entries are those of the state in which the child is linked in. -/
theorem sameIds : (c.state.forked parent proc i exec eip).SameIds s := by
  obtain ⟨pid, hrun⟩ := h.run
  rw [kfork_eq h.current h.parent_ne h.alloc] at hrun
  obtain ⟨u, s₁, hlink, hrun⟩ := Call.bind_eq_ok.mp hrun
  cases hrun
  exact (linkSecond_keeps _ (.refl _)).1 u s hlink

theorem mem_live : p ∈ c'.live ↔ p = proc ∨ p ∈ c.live := by
  rw [h.live]
  exact Set.mem_insert_iff

theorem proc_mem : proc ∈ c'.live := h.mem_live.mpr (.inl rfl)

theorem old_mem (hp : p ∈ c.live) : p ∈ c'.live := h.mem_live.mpr (.inr hp)

theorem old_ne (hp : p ∈ c.live) : p ≠ proc := by
  rintro rfl
  exact h.fresh hp

theorem pid_new : (c'.state.mem proc).pid = c.state.nextPid % 1073741824 := by
  rw [h.kept.pid proc h.proc_mem, h.sameIds.pid, State.forked, State.update_self]

theorem pid_old (hp : p ∈ c.live) : (c'.state.mem p).pid = (c.state.mem p).pid := by
  rw [h.kept.pid p (h.old_mem hp), h.sameIds.pid, State.forked_mem (h.old_ne hp)]

theorem slot_new : c'.slot proc = i := by
  rw [Tasks.slot, h.kept.tssSeg proc h.proc_mem, h.sameIds.tssSeg, State.forked, State.update_self]
  exact gdtIndex_ofNat i

theorem slot_old (hp : p ∈ c.live) : c'.slot p = c.slot p := by
  rw [Tasks.slot, h.kept.tssSeg p (h.old_mem hp), h.sameIds.tssSeg, State.forked_mem (h.old_ne hp),
    Tasks.slot]

theorem nextPid : c'.state.nextPid = c.state.nextPid + 1 := by
  rw [h.kept.nextPid, h.sameIds.nextPid]
  rfl

theorem gdtMap : c'.state.gdtMap = Function.update c.state.gdtMap i 1 := by
  rw [h.kept.gdtMap, h.sameIds.gdtMap]
  rfl

theorem creator_new : c'.creator proc = some (c.state.mem parent).euid := by
  rw [h.creator, Function.update_self]

theorem creator_old (hp : p ∈ c.live) : c'.creator p = c.creator p := by
  rw [h.creator, Function.update_of_ne (h.old_ne hp)]

theorem privilegeOf_new : c'.privilegeOf proc = privilege (c.state.mem parent).euid := by
  rw [Tasks.privilegeOf, h.creator_new]
  rfl

/-- The child is one more process that `kfork` made. -/
theorem mem_forked : p ∈ c'.forked ↔ p = proc ∨ p ∈ c.forked := by
  constructor
  · rintro ⟨hp, hcreator⟩
    rcases h.mem_live.mp hp with rfl | hp
    · exact .inl rfl
    · exact .inr ⟨hp, h.creator_old hp ▸ hcreator⟩
  · rintro (rfl | ⟨hp, hcreator⟩)
    · exact ⟨h.proc_mem, by simp [h.creator_new]⟩
    · exact ⟨h.old_mem hp, by rwa [h.creator_old hp]⟩

end Fork

/-- What the other calls change: a process may be freed, with a store for its entry. -/
structure Leaves (store : GdtStore) (c c' : Tasks) : Prop where
  live : ∀ p ∈ c'.live, p ∈ c.live
  creator : c'.creator = c.creator
  gdt : c'.gdt = c.gdt
  pid : ∀ p ∈ c'.live, (c'.state.mem p).pid = (c.state.mem p).pid
  slot : ∀ p ∈ c'.live, c'.slot p = c.slot p
  nextPid : c'.state.nextPid = c.state.nextPid
  gdtMap : c'.state.gdtMap = c.state.gdtMap ∨
    ∃ p ∈ c.live, p ∉ c'.live ∧ store c.state.gdtMap (c.slot p) c'.state.gdtMap

/-- **What a call does**: it makes a process, or takes none up. -/
theorem Step.cases (h : Step close offset store call c c') :
    (∃ proc exec eip parent i s, call = fork proc exec eip ∧
      Fork offset proc exec eip c c' parent i s) ∨
      (∀ proc exec eip, call ≠ fork proc exec eip) ∧ Leaves store c c' := by
  cases call with
  | fork proc exec eip =>
      obtain ⟨parent, i, s, hfork⟩ := h
      exact .inl ⟨proc, exec, eip, parent, i, s, rfl, hfork⟩
  | exit e exitCode =>
      obtain ⟨-, r, s, hrun, hgdt, hlive, hcreator, hkept⟩ := h
      have hids : c.state.SameIds s := (kexit_keeps _ (.refl _)).1 r s hrun
      refine .inr ⟨by simp, fun p hp => hlive ▸ hp, hcreator, hgdt, fun p hp => ?_, fun p hp => ?_,
        ?_, .inl ?_⟩
      · rw [hkept.pid p hp, hids.pid]
      · rw [Tasks.slot, hkept.tssSeg p hp, hids.tssSeg, Tasks.slot]
      · rw [hkept.nextPid, hids.nextPid]
      · rw [hkept.gdtMap, hids.gdtMap]
  | free p =>
      obtain ⟨hp, s, hrun, hgdt, hlive, hcreator, map, hmap, hkept⟩ := h
      have hids : c.state.SameIds s := (freeProcess_keeps _ (.refl _)).1 () s hrun
      have hgone : p ∉ c'.live := by
        rw [hlive]
        exact fun hmem => hmem.2 rfl
      refine .inr ⟨by simp, fun x hx => ?_, hcreator, hgdt, fun x hx => ?_, fun x hx => ?_, ?_,
        .inr ⟨p, hp, hgone, ?_⟩⟩
      · rw [hlive] at hx
        exact hx.1
      · exact (hkept.pid x hx).trans (hids.pid x)
      · exact congrArg gdtIndex ((hkept.tssSeg x hx).trans (hids.tssSeg x))
      · exact hkept.nextPid.trans hids.nextPid
      · rw [hkept.gdtMap, ← hids.gdtMap]
        exact hmap

section Rounds
variable {a b : Ptr}

/-! ## Runs with one process for a moment -/

/-- The state after a process has made a second one. -/
def pairAfter (c : Tasks) (a b : Ptr) (i : Fin nrGdt) (offset exec eip : UInt32) : Tasks where
  state := (c.state.forked a b i exec eip).linkedSecond b a a
  gdt := loadTssInGdt c.gdt (b.1 + offset).toBitVec (privilege (c.state.mem a).euid) i
  live := insert b c.live
  creator := Function.update c.creator b (some (c.state.mem a).euid)

/-- There is one process, which runs. -/
structure Single (a : Ptr) (c : Tasks) : Prop where
  live : c.live = {a}
  current : c.state.currentProcess = some a
  queues : c.state.Queues (Function.update (fun _ => []) 0 [a])

@[simp] theorem setNext_euid {p x : Ptr} {u : Option Ptr} :
    ((s.setNext p u).mem x).euid = (s.mem x).euid := State.update_field Process.euid fun _ => rfl

@[simp] theorem setPrev_euid {p x : Ptr} {u : Option Ptr} :
    ((s.setPrev p u).mem x).euid = (s.mem x).euid := State.update_field Process.euid fun _ => rfl

theorem linkedSecond_euid {p x head second : Ptr} :
    ((s.linkedSecond p head second).mem x).euid = (s.mem x).euid := by
  simp [State.linkedSecond]

theorem freed_euid {p x before behind : Ptr} {k : Fin nrPriority} :
    ((s.freed p before behind k).mem x).euid = (s.mem x).euid := by
  rw [State.freed]
  split <;> simp

theorem Single.mem_live (h : Single a c) : a ∈ c.live := by
  rw [h.live]
  rfl

namespace Single
variable (h : Single a c) (hb : b ≠ a) (halloc : freeGdt c.state.gdtMap nrGdt 0 = some i)
include h hb

/-- The queues once the child is linked in. -/
theorem linked (exec eip : UInt32) :
    linkSecond b (c.state.forked a b i exec eip) =
        some (.ok (), (c.state.forked a b i exec eip).linkedSecond b a a) ∧
      ((c.state.forked a b i exec eip).linkedSecond b a a).Queues
        (Function.update (fun _ => []) 0 [a, b]) := by
  have hnot : ∀ j, b ∉ Function.update (fun _ => ([] : List Ptr)) (0 : Fin nrPriority) [a] j := by
    intro j hj
    by_cases hj0 : j = 0
    · rw [hj0, Function.update_self] at hj
      exact hb (List.mem_singleton.mp hj)
    · rw [Function.update_of_ne hj0] at hj
      cases hj
  have hforked : (c.state.forked a b i exec eip).Queues (Function.update (fun _ => []) 0 [a]) := by
    refine h.queues.congr rfl fun j p hp => ?_
    have hpb : p ≠ b := by
      rintro rfl
      exact hnot j hp
    rw [State.forked_mem hpb]
    exact ⟨rfl, rfl, rfl⟩
  have hpriority : queueIndex ((c.state.forked a b i exec eip).mem b).priority = some 0 := by
    rw [State.forked_priority]
    exact ForkCall.queueIndex_zero
  have hhead : (c.state.forked a b i exec eip).processTab 0 = some a := by
    rw [hforked.head 0, Function.update_self]
    rfl
  have hself : ((c.state.forked a b i exec eip).mem a).next = some a := by
    have hring := hforked.ring 0
    rw [Function.update_self] at hring
    exact (Lib.Links.isRing_singleton.mp hring).1
  refine ⟨linkSecond_run hpriority hhead hself, ?_⟩
  have hlinked := hforked.linkedSecond (Function.update_self ..) hself hnot hpriority
  rwa [Function.update_idem] at hlinked

include halloc

/-- It makes a second process. -/
theorem fork (offset exec eip : UInt32) : Fork offset b exec eip c
    (pairAfter c a b i offset exec eip) a i (pairAfter c a b i offset exec eip).state := by
  obtain ⟨hlink, -⟩ := h.linked hb (i := i) exec eip
  have hfresh : b ∉ c.live := by
    rw [h.live]
    exact hb
  have hrun : kfork b exec eip c.state = some (.ok (((pairAfter c a b i offset exec eip).state.mem
      b).pid), (pairAfter c a b i offset exec eip).state) := by
    rw [kfork_eq h.current hb.symm halloc]
    exact Call.bind_of_ok hlink
  exact ⟨hfresh, h.mem_live, h.current, halloc, ⟨_, hrun⟩, rfl, rfl, rfl, ⟨fun _ _ => rfl,
    fun _ _ => rfl, rfl, rfl⟩⟩

/-- **A process that is made and freed at once**, with a store for its entry. -/
theorem round (close : Process → Tables) (offset exec eip : UInt32) (store : GdtStore)
    {map : Fin nrGdt → UInt8}
    (hstore : store (Function.update c.state.gdtMap i 1) i map) : ∃ c₁ c₂ s,
    Fork offset b exec eip c c₁ a i s ∧ Step close offset store (free b) c₁ c₂ ∧ Single a c₂ ∧
    c₂.gdt = c₁.gdt ∧ c₂.state.gdtMap = map ∧ c₂.state.nextPid = c.state.nextPid + 1 ∧
    (c₂.state.mem a).euid = (c.state.mem a).euid := by
  have hqueues := (h.linked hb (i := i) exec eip).2
  have hfork := h.fork hb halloc offset exec eip
  let c₁ := pairAfter c a b i offset exec eip
  let s := (c.state.forked a b i exec eip).linkedSecond b a a
  have hnext : (s.mem b).next = some a := by
    rw [State.linkedSecond_next, if_neg hb, if_pos rfl]
  have hprev : (s.mem b).prev = some a := by
    rw [State.linkedSecond_prev, if_neg hb, if_pos rfl]
  have hbq : b ∈ Function.update (fun _ => ([] : List Ptr)) (0 : Fin nrPriority) [a, b] 0 := by
    rw [Function.update_self]
    simp
  let s₂ : State := (s.closed close b).freed b a a 0
  have hfree : freeProcess close (some b) s = some (.ok (), s₂) :=
    freeProcess_run (hqueues.priority 0 b hbq) hprev hnext
  have hleft : s₂.Queues _ := hqueues.freeProcess hbq hprev hnext hb.symm
  have hab : ¬ (a == b) = true := by simpa only [beq_iff_eq] using hb.symm
  rw [Function.update_self, Function.update_idem, List.erase_cons_tail hab, List.erase_cons_head] at hleft
  let c₂ : Tasks :=
    { c₁ with
      state := { s₂ with currentProcess := some a, gdtMap := map }
      live := c₁.live \ {b} }
  have hids : s.SameIds s₂ := (freeProcess_keeps _ (.refl s)).1 () _ hfree
  have hstore₂ : store s₂.gdtMap (c₁.slot b) map := by
    rw [hfork.slot_new, hids.gdtMap]
    exact hstore
  refine ⟨c₁, c₂, s, hfork, ⟨hfork.proc_mem, s₂, hfree, rfl, rfl, rfl, map, hstore₂,
    fun _ _ => rfl, fun _ _ => rfl, rfl, rfl⟩, ⟨?_, rfl, ?_⟩, rfl, rfl, ?_, ?_⟩
  · show insert b c.live \ {b} = {a}
    rw [h.live]
    ext x
    simp only [Set.mem_sdiff, Set.mem_insert_iff, Set.mem_singleton_iff]
    constructor
    · rintro ⟨rfl | hx, hxb⟩
      · exact absurd rfl hxb
      · exact hx
    · rintro rfl
      exact ⟨.inr rfl, hb.symm⟩
  · exact hleft.congr rfl fun _ _ _ => ⟨rfl, rfl, rfl⟩
  · show s₂.nextPid = _
    rw [hids.nextPid]
    rfl
  · show (s₂.mem a).euid = _
    rw [freed_euid, State.closed, State.update_of_ne hb.symm, linkedSecond_euid,
      State.forked_mem hb.symm]

/-- **Two processes that are made** one after the other. -/
theorem twice {d : Ptr} (hd : d ≠ a) (hdb : d ≠ b) {j : Fin nrGdt} (offset exec eip : UInt32)
    (halloc₁ : freeGdt (Function.update c.state.gdtMap i 1) nrGdt 0 = some j) : ∃ c₁ c₂ s₁ s₂,
    Fork offset b exec eip c c₁ a i s₁ ∧ Fork offset d exec eip c₁ c₂ a j s₂ ∧
      (c₁.state.mem a).euid = (c.state.mem a).euid := by
  have hqueues := (h.linked hb (i := i) exec eip).2
  have hfork₁ := h.fork hb halloc offset exec eip
  let c₁ := pairAfter c a b i offset exec eip
  let s₁ := (c.state.forked a b i exec eip).linkedSecond b a a
  let t := s₁.forked a d j exec eip
  have hhead : t.processTab 0 = some a := by
    show s₁.processTab 0 = some a
    rw [hqueues.head 0, Function.update_self]
    rfl
  have hsecond : (t.mem a).next = some b := by
    rw [State.forked_mem hd.symm, State.linkedSecond_next, if_pos rfl]
  have hpriority : queueIndex (t.mem d).priority = some 0 := by
    rw [State.forked_priority]
    exact ForkCall.queueIndex_zero
  let s₂ := t.linkedSecond d a b
  have hrun₂ : kfork d exec eip s₁ = some (.ok (s₂.mem d).pid, s₂) := by
    rw [kfork_eq (s := s₁) h.current hd.symm halloc₁]
    exact Call.bind_of_ok (linkSecond_run hpriority hhead hsecond)
  let c₂ : Tasks :=
    { state := s₂
      gdt := loadTssInGdt c₁.gdt (d.1 + offset).toBitVec (privilege (s₁.mem a).euid) j
      live := insert d c₁.live
      creator := Function.update c₁.creator d (some (s₁.mem a).euid) }
  refine ⟨c₁, c₂, s₁, s₂, hfork₁, ⟨?_, hfork₁.old_mem h.mem_live, h.current, halloc₁, ⟨_, hrun₂⟩, rfl,
    rfl, rfl, fun _ _ => rfl, fun _ _ => rfl, rfl, rfl⟩, ?_⟩
  · rw [hfork₁.mem_live, h.live]
    exact fun hmem => hmem.elim hdb hd
  · show (s₁.mem a).euid = _
    rw [linkedSecond_euid, State.forked_mem hb.symm]

end Single
/-! ## The first process -/

/-- The state before the first process, once `GDT_MAP` is set up. -/
def bootState : State := { State.zero with gdtMap := fun k => if (k : ℕ) < 6 then 1 else 0 }

/-- The state that `scheduler_init` leaves, with the first process at the address 4096. -/
def startState : State :=
  { (((ForkCall.started bootState firstProcess 6 1).setNext firstProcess
      (some firstProcess)).setPrev firstProcess (some firstProcess)).setTab 0
        (some firstProcess) with
    currentProcess := some firstProcess }

/-- The first process and its descriptor. -/
def firstTasks (offset : UInt32) : Tasks where
  state := startState
  gdt := loadTssInGdt (fun _ => .zero) (firstProcess.1 + offset).toBitVec 0 6
  live := {firstProcess}
  creator _ := none

theorem bootState_alloc : freeGdt bootState.gdtMap nrGdt 0 = some 6 := by decide

theorem schedulerInit_bootState :
    schedulerInit firstProcess 1 bootState = some (.ok (), startState) :=
  ForkCall.schedulerInit_run rfl bootState_alloc

theorem init_firstTasks : (system close offset store).init (firstTasks offset) :=
  ⟨firstProcess, 1, bootState, startState, 6, fun _ => .zero, fun _ => rfl, rfl, fun _ => rfl,
    fun _ _ => rfl, bootState_alloc, schedulerInit_bootState, rfl, rfl, rfl,
    ⟨fun _ _ => rfl, fun _ _ => rfl, rfl, rfl⟩⟩

theorem single_firstTasks : Single firstProcess (firstTasks offset) := by
  have hsettled : Config.Settled startState ⟨startState, {firstProcess}⟩ :=
    ⟨rfl, rfl, fun _ _ => rfl⟩
  have hrings := ForkCall.rings_init (fun _ => rfl) schedulerInit_bootState rfl hsettled
  exact ⟨rfl, rfl, hrings.1.queues⟩

theorem firstTasks_alloc : freeGdt (firstTasks offset).state.gdtMap nrGdt 0 = some 7 := by
  have hmap : (firstTasks offset).state.gdtMap = Function.update bootState.gdtMap 6 1 := rfl
  rw [hmap]
  decide

theorem reach_fork {guard : Tasks → TaskCall → Prop}
    (h : (system close offset store).Reach guard c) (hg : guard c (fork proc exec eip))
    (hfork : Fork offset proc exec eip c c' parent i s) :
    (system close offset store).Reach guard c' :=
  .step (c := fork proc exec eip) h hg ⟨parent, i, s, hfork⟩

end Rounds

end TaskCall
end OxKernel.Kernel
