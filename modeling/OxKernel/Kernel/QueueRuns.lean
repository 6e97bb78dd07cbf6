import OxKernel.Kernel.Queue
import OxKernel.Lib.Reach
import OxKernel.Lib.Words
import Mathlib

/-!
# Runs of the process queues

The four functions of `process_queue.c`, called one after the other from empty tables on. The
state of the queues is a list of processes for each priority.

## Main definitions

* `State.Represents` — the lists and their lengths are what the tables and the links hold.
* `QueueCall` — the calls, when they may be made and what they do to the lists.
-/
namespace OxKernel.Kernel

open Lib (Call Links)

namespace State
variable {s s' : State} {q : Fin nrPriority → List Ptr} {p head tail : Ptr} {i : Fin nrPriority}
  {l : List Ptr}

/-- A change of one queue. -/
theorem Queues.replace (h : s.Queues q) (hring : s'.links.IsRing l)
    (hhead : s'.processTab i = l.head?)
    (hpriority : ∀ p ∈ l, queueIndex (s'.mem p).priority = some i)
    (htab : ∀ j, j ≠ i → s'.processTab j = s.processTab j)
    (hmem : ∀ j, j ≠ i → ∀ p ∈ q j, (s'.mem p).next = (s.mem p).next ∧
      (s'.mem p).prev = (s.mem p).prev ∧ (s'.mem p).priority = (s.mem p).priority) :
    s'.Queues (Function.update q i l) := by
  refine ⟨fun j => ?_, fun j => ?_, fun j => ?_⟩
  · by_cases hj : j = i
    · subst hj
      rw [Function.update_self]
      exact hring
    · rw [Function.update_of_ne hj]
      exact (h.ring j).congr (fun p hp => (hmem j hj p hp).1) fun p hp => (hmem j hj p hp).2.1
  · by_cases hj : j = i
    · subst hj
      rw [Function.update_self]
      exact hhead
    · rw [Function.update_of_ne hj, htab j hj]
      exact h.head j
  · by_cases hj : j = i
    · subst hj
      rw [Function.update_self]
      exact hpriority
    · rw [Function.update_of_ne hj]
      intro p hp
      rw [(hmem j hj p hp).2.2]
      exact h.priority j p hp

/-- **A process that is alone** on its queue. -/
theorem Queues.alone (h : s.Queues q) (hp : ∀ j, p ∉ q j) (hself : s'.links.Joins p p)
    (htab : s'.processTab = Function.update s.processTab i (some p))
    (hpriority : queueIndex (s.mem p).priority = some i)
    (hmem : ∀ x, (x ≠ p → (s'.mem x).next = (s.mem x).next ∧ (s'.mem x).prev = (s.mem x).prev) ∧
      (s'.mem x).priority = (s.mem x).priority) :
    s'.Queues (Function.update q i [p]) := by
  refine h.replace (Links.isRing_singleton.mpr hself) ?_ ?_ ?_ ?_
  · rw [htab, Function.update_self]
    rfl
  · intro x hx
    rw [List.mem_singleton.mp hx, (hmem p).2]
    exact hpriority
  · intro j hj
    rw [htab, Function.update_of_ne hj]
  · intro j _ x hx
    have hne : x ≠ p := by
      rintro rfl
      exact hp j hx
    exact ⟨((hmem x).1 hne).1, ((hmem x).1 hne).2, (hmem x).2⟩

/-- The state after `linkLast`. -/
def linkedLast (s : State) (p head tail : Ptr) (i : Fin nrPriority) : State :=
  ((((s.setNext p (some head)).setPrev p (some tail)).setNext tail (some p)).setPrev head
    (some p)).setSize i (s.processSizeTab i + 1)

section Linked
variable {tail x : Ptr} {m : List Ptr}

theorem linkedLast_next : ((s.linkedLast p head tail i).mem x).next =
    if x = tail then some p else if x = p then some head else (s.mem x).next := by
  by_cases hx : x = tail
  · simp [linkedLast, hx]
  · simp [linkedLast, hx]

theorem linkedLast_prev : ((s.linkedLast p head tail i).mem x).prev =
    if x = head then some p else if x = p then some tail else (s.mem x).prev := by
  simp [linkedLast]

theorem linkedLast_priority : ((s.linkedLast p head tail i).mem x).priority =
    (s.mem x).priority := by
  simp [linkedLast]

/-- **A process that is linked in** comes last on its queue. -/
theorem Queues.linkedLast (h : s.Queues q) (hi : q i = head :: m)
    (htail : (head :: m).getLast (List.cons_ne_nil _ _) = tail) (hp : ∀ j, p ∉ q j)
    (hpriority : queueIndex (s.mem p).priority = some i) :
    (s.linkedLast p head tail i).Queues (Function.update q i (q i ++ [p])) := by
  have hring := h.ring i
  have hpi := hp i
  rw [hi] at hring hpi
  have htail' : tail ∈ head :: m := htail ▸ List.getLast_mem _
  have hnot : ∀ y ∈ head :: m, y ≠ p := by
    rintro y hy rfl
    exact hpi hy
  have hhp : head ≠ p := hnot head List.mem_cons_self
  have htp : tail ≠ p := hnot tail htail'
  apply h.replace
  · rw [hi]
    refine hring.snoc hpi htail ⟨?_, ?_⟩ ⟨?_, ?_⟩ (fun y hy hne => ?_) fun y hy hne => ?_
    · exact linkedLast_next.trans (if_pos rfl)
    · exact linkedLast_prev.trans (by rw [if_neg (Ne.symm hhp), if_pos rfl])
    · exact linkedLast_next.trans (by rw [if_neg (Ne.symm htp), if_pos rfl])
    · exact linkedLast_prev.trans (if_pos rfl)
    · exact linkedLast_next.trans (by rw [if_neg hne, if_neg (hnot y hy), links_next])
    · exact linkedLast_prev.trans (by rw [if_neg hne, if_neg (hnot y hy), links_prev])
  · rw [hi]
    have hhead := h.head i
    rw [hi] at hhead
    exact hhead
  · intro x hx
    rw [linkedLast_priority]
    rcases List.mem_append.mp hx with hx | hx
    · exact h.priority i x hx
    · rw [List.mem_singleton.mp hx]
      exact hpriority
  · exact fun j _ => rfl
  · intro j hj x hx
    have hxp : x ≠ p := by
      rintro rfl
      exact hp j hx
    have hother : ∀ y ∈ head :: m, x ≠ y := by
      rintro y hy rfl
      exact hj (h.unique hx (hi ▸ hy))
    refine ⟨?_, ?_, linkedLast_priority⟩
    · rw [linkedLast_next, if_neg (hother tail htail'), if_neg hxp]
    · rw [linkedLast_prev, if_neg (hother head List.mem_cons_self), if_neg hxp]

end Linked

/-- A process has left its place between two others, and the queue has a new head. -/
structure Unlinked (s s' : State) (p before behind : Ptr) (i : Fin nrPriority)
    (head : Option Ptr) : Prop where
  next : ∀ x, x ≠ p → (s'.mem x).next = if x = before then some behind else (s.mem x).next
  prev : ∀ x, x ≠ p → (s'.mem x).prev = if x = behind then some before else (s.mem x).prev
  priority : ∀ x, (s'.mem x).priority = (s.mem x).priority
  tab : s'.processTab = Function.update s.processTab i head

/-- The state after a process was taken out and the length of its queue counted down. -/
def taken (s : State) (p before behind : Ptr) (i : Fin nrPriority) (head : Option Ptr) : State :=
  (((((s.setTab i head).setNext before (some behind)).setPrev behind (some before)).setPrev p
    none).setNext p none).setSize i (s.processSizeTab i - 1)

theorem unlinked_taken {before behind : Ptr} {head : Option Ptr} :
    s.Unlinked (s.taken p before behind i head) p before behind i head where
  next x hx := by simp [taken, hx]
  prev x hx := by simp [taken, hx]
  priority x := by simp [taken]
  tab := rfl

/-- A provisional value of a pointer. -/
theorem setPrev_setNext_setPrev {a b : Ptr} {u v w : Option Ptr} :
    ((s.setPrev a u).setNext b v).setPrev a w = (s.setNext b v).setPrev a w := by
  by_cases hb : a = b
  · rw [← hb]
    simp only [setPrev, setNext, update_update]
  · simp only [setPrev, setNext]
    rw [update_comm hb, update_update]

theorem setTab_self : s.setTab i (s.processTab i) = s := by
  rw [setTab, Function.update_eq_self]

/-- **A process that is taken out** leaves the others in their order. -/
theorem Queues.unlinked {l₁ l₂ : List Ptr} {before behind : Ptr} (h : s.Queues q)
    (hi : q i = l₁ ++ p :: l₂) (hbefore : (s.mem p).prev = some before)
    (hbehind : (s.mem p).next = some behind)
    (hu : s.Unlinked s' p before behind i (l₁ ++ l₂).head?) :
    s'.Queues (Function.update q i (l₁ ++ l₂)) := by
  have hring : s.links.IsRing (p :: (l₂ ++ l₁)) := by
    have hring := h.ring i
    rw [hi] at hring
    exact hring.rotated List.isRotated_append
  have hsub : ∀ x ∈ l₁ ++ l₂, x ∈ q i := by
    intro x hx
    rw [hi]
    rcases List.mem_append.mp hx with hx | hx
    · exact List.mem_append_left _ hx
    · exact List.mem_append_right _ (List.mem_cons_of_mem p hx)
  have hp : p ∈ q i := by
    rw [hi]
    exact List.mem_append_right _ List.mem_cons_self
  obtain ⟨a, hai, haj⟩ := (h.ring i).exists_prev hp
  obtain ⟨b, hbi, hbj⟩ := (h.ring i).exists_next hp
  have ha : before = a := Option.some.inj (hbefore.symm.trans haj.2)
  have hb : behind = b := Option.some.inj (hbehind.symm.trans hbj.1)
  subst ha hb
  apply h.replace
  · have hr : l₂ ++ l₁ ~r l₁ ++ l₂ := List.isRotated_append
    refine Links.IsRing.rotated ?_ hr
    cases hl : l₂ ++ l₁ with
    | nil => exact Links.isRing_nil
    | cons c m =>
        rw [hl] at hring
        have hcp : ∀ y ∈ c :: m, y ≠ p := by
          rintro y hy rfl
          exact (List.nodup_cons.mp hring.nodup).1 hy
        have hc : behind = c := Option.some.inj (hbehind.symm.trans hring.joins_cons.1)
        have hlast : before = (c :: m).getLast (List.cons_ne_nil _ _) := by
          have hj := hring.joins_last.2
          rw [List.getLast_cons (List.cons_ne_nil _ _)] at hj
          exact Option.some.inj (hbefore.symm.trans hj)
        refine hring.drop rfl ⟨?_, ?_⟩ (fun y hy hne => ?_) fun y hy hne => ?_
        · rw [links_next, hu.next _ (hcp _ (List.getLast_mem _)), if_pos hlast.symm, hc]
        · rw [links_prev, hu.prev _ (hcp c List.mem_cons_self), if_pos hc.symm, hlast]
        · rw [links_next, hu.next y (hcp y hy), if_neg (hlast ▸ hne), links_next]
        · rw [links_prev, hu.prev y (hcp y hy), if_neg (hc ▸ hne), links_prev]
  · rw [hu.tab, Function.update_self]
  · intro x hx
    rw [hu.priority]
    exact h.priority i x (hsub x hx)
  · intro j hj
    rw [hu.tab, Function.update_of_ne hj]
  · intro j hj x hx
    have hother : ∀ y ∈ q i, x ≠ y := by
      rintro y hy rfl
      exact hj (h.unique hx hy)
    refine ⟨?_, ?_, hu.priority x⟩
    · rw [hu.next x (hother p hp), if_neg (hother before hai)]
    · rw [hu.prev x (hother p hp), if_neg (hother behind hbi)]

/-- The queues and their lengths. -/
structure Represents (s : State) (q : Fin nrPriority → List Ptr) : Prop extends Queues s q where
  size : ∀ i, (s.processSizeTab i).toNat = (q i).length

/-- One queue and its length change. -/
theorem Represents.replace (h : s.Represents q) (hq : s'.Queues (Function.update q i l)) {n : UInt32}
    (hsize : s'.processSizeTab = Function.update s.processSizeTab i n) (hn : n.toNat = l.length) :
    s'.Represents (Function.update q i l) := by
  refine ⟨hq, fun j => ?_⟩
  rw [hsize]
  by_cases hj : j = i
  · rw [hj, Function.update_self, Function.update_self, hn]
  · rw [Function.update_of_ne hj, Function.update_of_ne hj, h.size j]

/-- A queue without processes. -/
theorem Represents.eq_nil_iff (h : s.Represents q) : s.processTab i = none ↔ q i = [] := by
  rw [h.head i, List.head?_eq_none_iff]

theorem Represents.size_eq_zero_iff (h : s.Represents q) : s.processSizeTab i = 0 ↔ q i = [] := by
  rw [← UInt32.toNat_inj, h.size i]
  exact List.length_eq_zero_iff

/-- A process that is linked to itself is alone on its queue. -/
theorem Represents.single_iff (h : s.Represents q) (hp : p ∈ q i) :
    (s.mem p).next = some p ↔ q i = [p] := by
  constructor
  · exact (h.ring i).eq_singleton hp
  · intro hi
    have hring := h.ring i
    rw [hi] at hring
    exact (Links.isRing_singleton.mp hring).1

end State

section Runs
variable {s : State} {q : Fin nrPriority → List Ptr} {p head tail : Ptr} {i : Fin nrPriority}
  {l : List Ptr}

theorem linkLast_run
    (hhead : s.processTab i = some head) (htail : (s.mem head).prev = some tail) (hne : head ≠ p) :
    linkLast p i s = some (.ok (), s.linkedLast p head tail i) := by
  simp [linkLast, setNext, setPrev, incSize, setSize, hhead, htail, hne, deref, State.linkedLast]

theorem queueOf_run {priority : Int32} (h : queueIndex priority = some i) (s : State) :
    queueOf priority s = some (.ok i, s) := by
  rw [queueOf, h]
  rfl

@[simp] theorem decSize_bind_apply {α : Type} (f : Unit → KernelM α) :
    (decSize i >>= f) s = f () (s.setSize i (s.processSizeTab i - 1)) := rfl

@[simp] theorem decSize_apply :
    decSize i s = some (.ok (), s.setSize i (s.processSizeTab i - 1)) := rfl

theorem takeOnly_run : takeOnly p i s = some (.ok (),
    (((s.setTab i none).setPrev p none).setNext p none).setSize i (s.processSizeTab i - 1)) := by
  simp [takeOnly, setTab, setPrev, setNext]

theorem queueIndex_isSome {priority : Int32} :
    (∃ i, queueIndex priority = some i) ↔ 0 ≤ priority ∧ priority < 32 := by
  rw [queueIndex]
  by_cases h : 0 ≤ priority ∧ priority < 32
  · rw [dif_pos h]
    exact ⟨fun _ => h, fun _ => ⟨_, rfl⟩⟩
  · rw [dif_neg h]
    exact ⟨fun ⟨_, he⟩ => absurd he (by simp), fun hn => absurd hn h⟩

theorem panicIf_of_neg {c : Prop} [Decidable c] {message : String} (h : ¬ c) (s : State) :
    panicIf c message s = some (.ok (), s) := Call.require_of_pos h

/-- The checks of a priority of the table do not stop the kernel. -/
theorem checkRange_run {priority : Int32} (h : queueIndex priority = some i) (s : State) :
    checkRange priority s = some (.ok (), s) := by
  obtain ⟨h0, h1⟩ := queueIndex_isSome.mp ⟨i, h⟩
  have hlow : ¬ priority < 0 := Int32.not_lt.mpr h0
  have hhigh : ¬ priority > 32 := fun h => Int32.lt_irrefl (Int32.lt_trans h1 h)
  rw [checkRange, Call.bind_of_ok (panicIf_of_neg hhigh s)]
  exact panicIf_of_neg hlow s

theorem checkProcPriority_run {verbose : Bool} (h : queueIndex (s.mem p).priority = some i) :
    checkProcPriority verbose (some p) s = some (.ok (), s) := by
  cases verbose with
  | false => rfl
  | true => 
      refine (Call.bind_of_ok (panicIf_of_neg (by simp) s)).trans ?_
      exact checkRange_run h s

theorem checkProcPtr_run {verbose : Bool} :
    checkProcPtr verbose (some p) s = some (.ok (), s) := by
  cases verbose with
  | false => rfl
  | true =>
      show panicIf (some p = none) "NULL process pointer" s = _
      exact panicIf_of_neg (Option.some_ne_none p) s

theorem checkPriority_run {verbose : Bool} {priority : Int32} (h : queueIndex priority = some i) :
    checkPriority verbose priority s = some (.ok (), s) := by
  cases verbose with
  | false => rfl
  | true => exact checkRange_run h s

theorem checkQueueSize_run {verbose : Bool} (h : s.Represents q) :
    checkQueueSize verbose (s.processSizeTab i) i s = some (.ok (), s) := by
  cases verbose with
  | false => rfl
  | true =>
      have hiff : s.processSizeTab i = 0 ↔ s.processTab i = none :=
        h.size_eq_zero_iff.trans h.eq_nil_iff.symm
      refine (Call.bind_of_ok (panicIf_of_neg ?_ s)).trans (panicIf_of_neg ?_ s)
      · exact fun ⟨h0, h1⟩ => h1 (hiff.mp h0)
      · exact fun ⟨h0, h1⟩ => h0 (hiff.mpr h1)

/-- A process that is linked in between tail and head comes last. -/
theorem linkLast_spec (h : s.Represents q) (hi : q i ≠ []) (hp : ∀ j, p ∉ q j)
    (hpriority : queueIndex (s.mem p).priority = some i) :
    ∃ s', linkLast p i s = some (.ok (), s') ∧
      s'.Represents (Function.update q i (q i ++ [p])) := by
  cases hq : q i with
  | nil => exact absurd hq hi
  | cons head m =>
      have hring := h.ring i
      have hhead := h.head i
      rw [hq] at hring hhead
      have hne : head ≠ p := by
        rintro rfl
        exact hp i (hq ▸ List.mem_cons_self)
      have hnew := h.linkedLast hq rfl hp hpriority
      refine ⟨_, linkLast_run hhead hring.joins_last.2 hne, ?_⟩
      rw [hq] at hnew
      refine h.replace hnew rfl ?_
      have hlt := hnew.length_lt i
      rw [Function.update_self] at hlt
      have hsize := h.size i
      rw [hq] at hsize
      simp only [List.cons_append, List.length_cons, List.length_append, List.length_nil] at hlt hsize ⊢
      rw [← hsize] at hlt
      rw [Lib.toNat_succ hlt, hsize]
/-- A process that is taken out, with the length of the queue. -/
theorem State.Represents.unlinked {s' : State} {l₁ l₂ : List Ptr} {before behind : Ptr}
    (h : s.Represents q) (hi : q i = l₁ ++ p :: l₂) (hbefore : (s.mem p).prev = some before)
    (hbehind : (s.mem p).next = some behind)
    (hu : s.Unlinked s' p before behind i (l₁ ++ l₂).head?)
    (hsize : s'.processSizeTab = Function.update s.processSizeTab i (s.processSizeTab i - 1)) :
    s'.Represents (Function.update q i (l₁ ++ l₂)) := by
  refine h.replace (h.toQueues.unlinked hi hbefore hbehind hu) hsize ?_
  have hlen := h.size i
  rw [hi, List.length_append, List.length_cons] at hlen
  rw [UInt32.toNat_sub_of_le _ _ (UInt32.le_iff_toNat_le.mpr (by simp; omega)), hlen,
    List.length_append]
  simp

/-- The only process of a queue leaves it. -/
theorem takeOnly_spec (h : s.Represents q) (hi : q i = [p]) :
    ∃ s', takeOnly p i s = some (.ok (), s') ∧ s'.Represents (Function.update q i []) := by
  have hring := h.ring i
  rw [hi] at hring
  have hself := Links.isRing_singleton.mp hring
  refine ⟨_, takeOnly_run, ?_⟩
  refine @State.Represents.unlinked _ _ _ _ _ [] [] _ _ h hi hself.2 hself.1 ⟨?_, ?_, ?_, rfl⟩ rfl
  · intro x hx
    simp [hx]
  · intro x hx
    simp [hx]
  · simp

theorem queueReadFront_run {verbose : Bool} {second : Ptr}
    (hi : queueIndex (s.mem p).priority = some i) (hhead : s.processTab i = some p)
    (hprev : (s.mem p).prev = some tail) (hnext : (s.mem p).next = some second)
    (htp : tail ≠ p) (hsp : second ≠ p) :
    queueReadFront verbose (some p) s =
      some (.ok (some p), s.taken p tail second i (some second)) := by
  refine (Call.bind_of_ok (checkProcPriority_run hi)).trans ?_
  refine (Call.bind_of_ok rfl).trans ?_
  refine (Call.bind_of_ok rfl).trans ?_
  refine (Call.bind_of_ok (queueOf_run hi s)).trans ?_
  simp [hhead, hprev, hnext, hsp, htp, htp.symm, deref, setNext, setPrev, setTab, panicIf,
    Call.require]
  rfl

/-- What `queue_remove` does to a process that is not alone on its queue. -/
theorem queueRemove_run {verbose : Bool} {before behind : Ptr} (h : s.Represents q)
    (hi : queueIndex (s.mem p).priority = some i) (hhead : s.processTab i = some head)
    (hprev : (s.mem p).prev = some before) (hnext : (s.mem p).next = some behind)
    (hbp : before ≠ p) (hsp : behind ≠ p) (htail : (s.mem head).prev = some p ↔ behind = head) :
    queueRemove verbose (some p) s = some (.ok (),
      s.taken p before behind i (if head = p then some behind else some head)) := by
  refine (Call.bind_of_ok (checkProcPriority_run hi)).trans ?_
  refine (Call.bind_of_ok rfl).trans ?_
  refine (Call.bind_of_ok rfl).trans ?_
  refine (Call.bind_of_ok (queueOf_run hi s)).trans ?_
  rw [if_neg (by simp [hhead])]
  refine (Call.bind_of_ok (checkQueueSize_run h)).trans ?_
  rw [if_neg (by simp [hnext, hsp])]
  refine (Call.bind_of_ok (panicIf_of_neg (by simp [hnext, hsp]) s)).trans ?_
  rw [hhead, hnext]
  refine (Call.bind_of_ok rfl).trans ?_
  by_cases hp : head = p
  · subst hp
    simp [hprev, hnext, hbp, hbp.symm, deref, setNext, setPrev, setTab]
    rfl
  · have hself : s.setTab i (some head) = s := by
      rw [← hhead, State.setTab_self]
    rw [if_neg hp, State.taken, if_neg hp, hself]
    by_cases hb : behind = head
    · subst hb
      simp [hprev, hnext, hsp.symm, hbp.symm, htail.mpr rfl, hhead, deref, setNext, setPrev,
        State.setPrev_setNext_setPrev]
    · simp [hprev, hnext, hbp.symm, mt htail.mp hb, deref, setNext, setPrev]

/-- The head of a queue that a process leaves. -/
theorem State.Queues.head_of_rest {l₁ l₂ : List Ptr} {behind : Ptr} (h : s.Queues q)
    (hi : q i = l₁ ++ p :: l₂) (hhead : s.processTab i = some head)
    (hbehind : (s.mem p).next = some behind) (hsp : behind ≠ p) :
    (l₁ ++ l₂).head? = if head = p then some behind else some head := by
  have hring := h.ring i
  have hfirst := (h.head i).symm.trans hhead
  rw [hi] at hring hfirst
  cases l₁ with
  | nil =>
      rw [if_pos (Option.some.inj hfirst).symm]
      cases l₂ with
      | nil => exact absurd (Option.some.inj (hbehind.symm.trans
          (Links.isRing_singleton.mp hring).1)) hsp
      | cons c l₂ => exact hring.joins_cons.1.symm.trans hbehind
  | cons c l₁ =>
      have hc : c = head := Option.some.inj hfirst
      have hne : head ≠ p := by
        rintro rfl
        exact (List.nodup_cons.mp hring.nodup).1 (by simp [hc])
      rw [if_neg hne, ← hc]
      rfl

/-- The test for the tail. -/
theorem State.Queues.tail_iff {behind : Ptr} (h : s.Queues q) (hp : p ∈ q i)
    (hhead : s.processTab i = some head) (hbehind : (s.mem p).next = some behind) :
    (s.mem head).prev = some p ↔ behind = head := by
  have hmem : head ∈ q i := List.mem_of_mem_head? ((h.head i).symm.trans hhead)
  refine ((h.ring i).next_iff_prev hp hmem).symm.trans ?_
  rw [State.links_next, hbehind]
  exact Option.some_inj

/-- A process that is taken out of its queue, by a function that does so for a process that
is alone and for one that is not. -/
theorem State.Represents.takes (h : s.Represents q) (hp : p ∈ q i) {α : Type} {a : α}
    {r : Option (Except Stop α × State)}
    (hone : q i = [p] → ∃ s', r = some (.ok a, s') ∧ s'.Represents (Function.update q i []))
    (hmore : ∀ l₁ l₂ before behind, q i = l₁ ++ p :: l₂ → (s.mem p).prev = some before →
      (s.mem p).next = some behind → before ≠ p → behind ≠ p →
      r = some (.ok a, s.taken p before behind i (l₁ ++ l₂).head?)) :
    ∃ s', r = some (.ok a, s') ∧ s'.Represents (Function.update q i ((q i).erase p)) := by
  by_cases hone' : q i = [p]
  · rw [hone', List.erase_cons_head]
    exact hone hone'
  · obtain ⟨l₁, l₂, hi⟩ := List.append_of_mem hp
    obtain ⟨before, -, hbefore⟩ := (h.ring i).exists_prev hp
    obtain ⟨behind, -, hbehind⟩ := (h.ring i).exists_next hp
    have hnext : (s.mem p).next ≠ some p := fun hself => hone' ((h.single_iff hp).mp hself)
    have hbp : before ≠ p := by
      rintro rfl
      exact hnext hbefore.1
    have hsp : behind ≠ p := by
      rintro rfl
      exact hnext hbehind.1
    have herase : (q i).erase p = l₁ ++ l₂ := by
      have hnd := (h.ring i).nodup
      rw [hi] at hnd ⊢
      have hnot : p ∉ l₁ := fun hmem =>
        (List.nodup_append.mp hnd).2.2 p hmem p List.mem_cons_self rfl
      rw [List.erase_append_right _ hnot, List.erase_cons_head]
    rw [herase]
    exact ⟨_, hmore l₁ l₂ before behind hi hbefore.2 hbehind.1 hbp hsp,
      h.unlinked hi hbefore.2 hbehind.1 State.unlinked_taken rfl⟩

/-- The tests for a process that is alone. -/
theorem State.Represents.alone (h : s.Represents q) (hi : q i = [p]) :
    (s.mem p).next = some p ∧ (s.mem p).prev = some p ∧ s.processSizeTab i = 1 := by
  have hring := h.ring i
  have hsize := h.size i
  rw [hi] at hring hsize
  have hself := Links.isRing_singleton.mp hring
  exact ⟨hself.1, hself.2, UInt32.toNat_inj.mp hsize⟩

/-- **`queue_read_front`** of the head of a queue. -/
theorem queueReadFront_spec (h : s.Represents q) (verbose : Bool)
    (hhead : s.processTab i = some p) :
    ∃ s', queueReadFront verbose (some p) s = some (.ok (some p), s') ∧
      s'.Represents (Function.update q i (q i).tail) := by
  obtain ⟨m, hm⟩ := List.head?_eq_some_iff.mp ((h.head i).symm.trans hhead)
  have hp : p ∈ q i := by
    rw [hm]
    exact List.mem_cons_self
  have hi := h.priority i p hp
  have hrun := h.takes (a := some p) (r := queueReadFront verbose (some p) s) hp ?_ ?_
  · rw [hm, List.erase_cons_head] at hrun
    rw [hm]
    exact hrun
  · intro hone
    obtain ⟨s', hs', hnew⟩ := takeOnly_spec h hone
    refine ⟨s', ?_, hnew⟩
    refine (Call.bind_of_ok (checkProcPriority_run hi)).trans ?_
    refine (Call.bind_of_ok rfl).trans ?_
    refine (Call.bind_of_ok rfl).trans ?_
    refine (Call.bind_of_ok (queueOf_run hi s)).trans ?_
    rw [if_pos (h.alone hone)]
    exact Call.bind_of_ok hs'
  · intro l₁ l₂ before behind hl hbefore hbehind hbp hsp
    rw [h.head_of_rest hl hhead hbehind hsp, if_pos rfl]
    exact queueReadFront_run hi hhead hbefore hbehind hbp hsp

/-- **`queue_remove`** of a process of a queue. -/
theorem queueRemove_spec (h : s.Represents q) (verbose : Bool) (hp : p ∈ q i) :
    ∃ s', queueRemove verbose (some p) s = some (.ok (), s') ∧
      s'.Represents (Function.update q i ((q i).erase p)) := by
  have hi := h.priority i p hp
  obtain ⟨head, hhead⟩ := Option.ne_none_iff_exists'.mp
    (fun hnone => List.ne_nil_of_mem hp (h.eq_nil_iff.mp hnone))
  apply h.takes hp
  · intro hone
    obtain ⟨s', hs', hnew⟩ := takeOnly_spec h hone
    refine ⟨s', ?_, hnew⟩
    refine (Call.bind_of_ok (checkProcPriority_run hi)).trans ?_
    refine (Call.bind_of_ok rfl).trans ?_
    refine (Call.bind_of_ok rfl).trans ?_
    refine (Call.bind_of_ok (queueOf_run hi s)).trans ?_
    rw [if_neg (by simp [hhead])]
    refine (Call.bind_of_ok (checkQueueSize_run h)).trans ?_
    rw [if_pos (h.alone hone)]
    exact hs'
  · intro l₁ l₂ before behind hl hbefore hbehind hbp hsp
    rw [h.head_of_rest hl hhead hbehind hsp]
    exact queueRemove_run h hi hhead hbefore hbehind hbp hsp (h.tail_iff hp hhead hbehind)

/-- A process that gets its priority. -/
theorem State.Represents.setPriority (h : s.Represents q) (hp : ∀ j, p ∉ q j) (priority : Int32) :
    (s.update p fun x => { x with priority := priority }).Represents q := by
  refine ⟨h.toQueues.congr rfl fun j x hx => ?_, h.size⟩
  have hne : x ≠ p := by
    rintro rfl
    exact hp j hx
  rw [State.update_of_ne hne]
  exact ⟨rfl, rfl, rfl⟩

/-- The first process of a queue. -/
theorem State.Represents.first (h : s.Represents q) (hi : q i = []) (hp : ∀ j, p ∉ q j)
    (hpriority : queueIndex (s.mem p).priority = some i) :
    ((((s.setPrev p (some p)).setNext p (some p)).setTab i (some p)).setSize i
      (s.processSizeTab i + 1)).Represents (Function.update q i (q i ++ [p])) := by
  rw [hi, List.nil_append]
  refine h.replace (h.toQueues.alone hp ?_ rfl hpriority fun x => ?_) rfl ?_
  · exact ⟨by simp, by simp⟩
  · exact ⟨fun hx => by simp [hx], by simp⟩
  · rw [h.size_eq_zero_iff.mpr hi]
    rfl

/-- **`queue_insert_p`** of a process that is on no queue. -/
theorem queueInsertP_spec (h : s.Represents q) (verbose : Bool) (hp : ∀ j, p ∉ q j)
    {priority : Int32} (hi : queueIndex priority = some i) :
    ∃ s', queueInsertP verbose (some p) priority s = some (.ok (), s') ∧
      s'.Represents (Function.update q i (q i ++ [p])) := by
  have hset := h.setPriority hp priority
  have hstart : ∀ s', (if s.processTab i = none ∧ s.processSizeTab i = 0 then do
        setPrev p (some p)
        setNext p (some p)
        setTab i (some p)
        incSize i
      else do
        panicIf (s.processTab i = none ∧ s.processSizeTab i ≠ 0) "NULL process table entry"
        linkLast p i : KernelM Unit) (s.update p fun x => { x with priority := priority }) =
          some (.ok (), s') →
      queueInsertP verbose (some p) priority s = some (.ok (), s') := by
    intro s' hs'
    refine (Call.bind_of_ok checkProcPtr_run).trans ?_
    refine (Call.bind_of_ok (checkPriority_run hi)).trans ?_
    refine (Call.bind_of_ok rfl).trans ?_
    refine (Call.bind_of_ok rfl).trans ?_
    refine (Call.bind_of_ok (queueOf_run hi _)).trans ?_
    exact hs'
  have hpriority : queueIndex ((s.update p fun x => { x with priority := priority }).mem p).priority =
      some i := by
    rw [State.update_self]
    exact hi
  by_cases hq : q i = []
  · refine ⟨_, hstart _ ?_, hset.first hq hp hpriority⟩
    rw [if_pos ⟨h.eq_nil_iff.mpr hq, h.size_eq_zero_iff.mpr hq⟩]
    rfl
  · obtain ⟨s', hs', hnew⟩ := linkLast_spec hset hq hp hpriority
    refine ⟨s', hstart s' ?_, hnew⟩
    rw [if_neg fun hnone => hq (h.eq_nil_iff.mp hnone.1)]
    exact (Call.bind_of_ok (panicIf_of_neg (fun hnone => hq (h.eq_nil_iff.mp hnone.1)) _)).trans hs'

/-- **`queue_insert`** onto a queue that is not empty. -/
theorem queueInsert_spec {x : Ptr} (h : s.Represents q) (verbose : Bool) (hp : ∀ j, p ∉ q j)
    (hi : queueIndex (s.mem x).priority = some i) (hq : s.processTab i ≠ none) :
    ∃ s', queueInsert verbose (some x) (some p) s = some (.ok (), s') ∧
      s'.Represents (Function.update q i (q i ++ [p])) := by
  obtain ⟨s', hs', hnew⟩ := linkLast_spec (h.setPriority hp (s.mem x).priority)
    (fun hnil => hq (h.eq_nil_iff.mpr hnil)) hp (by rw [State.update_self]; exact hi)
  refine ⟨s', ?_, hnew⟩
  refine (Call.bind_of_ok (checkProcPriority_run hi)).trans ?_
  refine (Call.bind_of_ok rfl).trans ?_
  refine (Call.bind_of_ok rfl).trans ?_
  refine (Call.bind_of_ok rfl).trans ?_
  refine (Call.bind_of_ok rfl).trans ?_
  exact (Call.bind_of_ok (queueOf_run hi _)).trans hs'

end Runs

/-! ## Runs -/

/-- A call of the functions. -/
inductive QueueCall
  | insertP (p : Ptr) (priority : Int32)
  | insert (x p : Ptr)
  | readFront (p : Ptr)
  | remove (p : Ptr)

namespace QueueCall

/-- What the call does. -/
def run (verbose : Bool) : QueueCall → KernelM Unit
  | insertP p priority => queueInsertP verbose (some p) priority
  | insert x p => queueInsert verbose (some x) (some p)
  | readFront p => do
    let _ ← queueReadFront verbose (some p)
    pure ()
  | remove p => queueRemove verbose (some p)

/-- When the call may be made: with a process on no queue; with one on no queue, for a queue
with a process; for a head; for a process of a queue. -/
def Allowed (s : State) : QueueCall → Prop
  | insertP p _ => ¬ s.Queued p
  | insert x p => ¬ s.Queued p ∧
    ∃ i, queueIndex (s.mem x).priority = some i ∧ s.processTab i ≠ none
  | readFront p => ∃ i, s.processTab i = some p
  | remove p => s.Queued p

/-- The call is about a queue of the table. -/
def InTable : QueueCall → Prop
  | insertP _ priority => ∃ i, queueIndex priority = some i
  | _ => True

/-- What the call does to the queues: the process becomes the tail, or leaves. -/
def Changes (s : State) (q q' : Fin nrPriority → List Ptr) : QueueCall → Prop
  | insertP p priority => ∃ i, queueIndex priority = some i ∧
    q' = Function.update q i (q i ++ [p])
  | insert x p => ∃ i, queueIndex (s.mem x).priority = some i ∧
    q' = Function.update q i (q i ++ [p])
  | readFront p => ∃ i, s.processTab i = some p ∧ q i = p :: q' i ∧
    ∀ j, j ≠ i → q' j = q j
  | remove p => ∃ i, p ∈ q i ∧ q' = Function.update q i ((q i).erase p)

/-- **An allowed call** returns, and does to the queues what it is for. -/
theorem run_spec {s : State} {q : Fin nrPriority → List Ptr} (h : s.Represents q) (verbose : Bool)
    {c : QueueCall} (hc : c.Allowed s) (ht : c.InTable) :
    ∃ s' q', c.run verbose s = some (.ok (), s') ∧ s'.Represents q' ∧ c.Changes s q q' := by
  have hfree : ∀ p, ¬ s.Queued p → ∀ i, p ∉ q i := fun p hp i hi => 
    hp (h.queued_iff.mpr ⟨i, hi⟩)
  cases c with
  | insertP p priority =>
      obtain ⟨i, hi⟩ := ht
      obtain ⟨s', hs', hnew⟩ := queueInsertP_spec h verbose (hfree p hc) hi
      exact ⟨s', _, hs', hnew, i, hi, rfl⟩
  | insert x p =>
      obtain ⟨hp, i, hi, hq⟩ := hc
      obtain ⟨s', hs', hnew⟩ := queueInsert_spec h verbose (hfree p hp) hi hq
      exact ⟨s', _, hs', hnew, i, hi, rfl⟩
  | readFront p =>
      obtain ⟨i, hi⟩ := hc
      obtain ⟨s', hs', hnew⟩ := queueReadFront_spec h verbose hi
      obtain ⟨m, hm⟩ := List.head?_eq_some_iff.mp ((h.head i).symm.trans hi)
      refine ⟨s', _, Call.bind_of_ok hs', hnew, i, hi, ?_, fun j hj => ?_⟩
      · rw [Function.update_self, hm]
        rfl
      · exact Function.update_of_ne hj _ _
  | remove p =>
      obtain ⟨i, hi⟩ := h.queued_iff.mp hc
      obtain ⟨s', hs', hnew⟩ := queueRemove_spec h verbose hi
      exact ⟨s', _, hs', hnew, i, hi, rfl⟩

/-- A call that returns was about a queue of the table. -/
theorem inTable_of_run {s s' : State} {verbose : Bool} {c : QueueCall}
    (h : c.run verbose s = some (.ok (), s')) : c.InTable := by
  cases c with
  | insertP p priority =>
      obtain ⟨-, s₁, -, h⟩ := Call.bind_eq_ok.mp h
      obtain ⟨-, s₂, -, h⟩ := Call.bind_eq_ok.mp h
      obtain ⟨p', s₃, -, h⟩ := Call.bind_eq_ok.mp h
      obtain ⟨-, s₄, -, h⟩ := Call.bind_eq_ok.mp h
      obtain ⟨i, s₅, hi, -⟩ := Call.bind_eq_ok.mp h
      cases hq : queueIndex priority with
      | none => simp [queueOf, hq] at hi
      | some j => exact ⟨j, hq⟩
  | insert x p => trivial
  | readFront p => trivial
  | remove p => trivial

/-- The queues from empty tables on. -/
def system (verbose : Bool) : Lib.System State QueueCall where
  init s := (∀ i, s.processTab i = none) ∧ ∀ i, s.processSizeTab i = 0
  step c s s' := c.run verbose s = some (.ok (), s')

end QueueCall

/-- The tables of a start hold no processes. -/
theorem represents_nil {verbose : Bool} {s : State} (hs : (QueueCall.system verbose).init s) :
    s.Represents fun _ => [] := by
  refine ⟨⟨fun i => Links.isRing_nil, hs.1, ?_⟩, ?_⟩
  · intro i p hp
    cases hp
  · intro i
    rw [hs.2 i]
    rfl

/-- **Every priority's processes form a ring** in every run of allowed calls: the pointers of
a queue lead from its entry of `process_tab` through its processes and back, its entry of
`process_size_tab` is their number, and no call for a queue of the table comes to a `PANIC`. An
insertion makes the process the tail, and a removal takes exactly this process out. -/
theorem queues_are_rings (verbose : Bool) {s : State}
    (h : (QueueCall.system verbose).Reach (fun s c => c.Allowed s) s) :
    ∃ q, s.Represents q ∧ ∀ c : QueueCall, c.Allowed s → c.InTable →
      ∃ s' q', c.run verbose s = some (.ok (), s') ∧ s'.Represents q' ∧ c.Changes s q q' := by
  have hinv : ∃ q, s.Represents q := by
    refine h.invariant (P := fun s => ∃ q, s.Represents q) (fun s hs => ⟨_, represents_nil hs⟩)
      fun s c s' hs hc hstep => ?_
    obtain ⟨q, hq⟩ := hs
    have hrun : c.run verbose s = some (.ok (), s') := hstep
    obtain ⟨s₁, q', hs₁, hq', -⟩ := QueueCall.run_spec hq verbose hc (QueueCall.inTable_of_run hrun)
    rw [hrun] at hs₁
    cases hs₁
    exact ⟨q', hq'⟩
  obtain ⟨q, hq⟩ := hinv
  exact ⟨q, hq, fun c hc ht => QueueCall.run_spec hq verbose hc ht⟩

/-- Two processes are placed on a queue, and the first one is removed. -/
theorem queues_are_rings_two : ∃ s : State,
    s.processTab 3 = some secondProcess ∧ s.processSizeTab 3 = 1 ∧
    ∃ q, s.Represents q ∧ ∀ c : QueueCall, c.Allowed s → c.InTable →
      ∃ s' q', c.run true s = some (.ok (), s') ∧ s'.Represents q' ∧ c.Changes s q q' := by
  have hindex : queueIndex 3 = some 3 := by decide
  have hinit : (QueueCall.system true).init State.zero := ⟨fun _ => rfl, fun _ => rfl⟩
  have h₀ := represents_nil hinit
  have hfree : ¬ State.zero.Queued firstProcess := by
    rw [h₀.queued_iff]
    rintro ⟨i, hi⟩
    cases hi
  obtain ⟨s₁, q₁, hrun₁, h₁, i, hi, hq₁⟩ :=
    QueueCall.run_spec h₀ true (c := .insertP firstProcess 3) hfree ⟨3, hindex⟩
  obtain rfl : 3 = i := Option.some.inj (hindex.symm.trans hi)
  have hfree' : ¬ s₁.Queued secondProcess := by
    rw [h₁.queued_iff, hq₁]
    rintro ⟨j, hj⟩
    rcases eq_or_ne j 3 with rfl | hne
    · rw [Function.update_self] at hj
      exact absurd hj (by decide)
    · rw [Function.update_of_ne hne] at hj
      cases hj
  obtain ⟨s₂, q₂, hrun₂, h₂, i, hi, hq₂⟩ :=
    QueueCall.run_spec h₁ true (c := .insertP secondProcess 3) hfree' ⟨3, hindex⟩
  obtain rfl : 3 = i := Option.some.inj (hindex.symm.trans hi)
  rw [hq₁, Function.update_self, Function.update_idem] at hq₂
  have hqueued : s₂.Queued firstProcess := by
    rw [h₂.queued_iff, hq₂]
    exact ⟨3, by rw [Function.update_self]; exact List.mem_cons_self⟩
  obtain ⟨s₃, q₃, hrun₃, h₃, i, hi, hq₃⟩ :=
    QueueCall.run_spec h₂ true (c := .remove firstProcess) hqueued trivial
  obtain rfl : i = 3 := by
    by_contra hne
    rw [hq₂, Function.update_of_ne hne] at hi
    cases hi
  have hlist : q₃ 3 = [secondProcess] := by
    rw [hq₃, hq₂, Function.update_self, Function.update_self]
    decide
  have hstart : (QueueCall.system true).Reach (fun s c => c.Allowed s) State.zero := .init hinit
  have hplaced := (hstart.step (c := QueueCall.insertP firstProcess 3) hfree hrun₁).step
    (c := QueueCall.insertP secondProcess 3) hfree' hrun₂
  refine ⟨s₃, ?_, ?_, queues_are_rings true
    (hplaced.step (c := .remove firstProcess) hqueued hrun₃)⟩
  · rw [h₃.head, hlist]
    rfl
  · rw [← UInt32.toNat_inj, h₃.size, hlist]
    rfl

end OxKernel.Kernel
