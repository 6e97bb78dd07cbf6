import OxKernel.Lib.Machine

/-!
# I/O regions

A model of `arch/io_req.c`: drivers ask for regions of I/O addresses and give them back by the
id they got. The table is filled from its second entry on, while the scans, the release and
`io_region_info` go through the entries before `curr`.

## Main definitions

* `IoState` — the table and the static counters.
* `ioRequestRegion`, `ioReleaseRegion`, `ioRegionInfo` — the calls.
* `IoRun` — a run, with the regions that are granted.
* `IoRun.Exclusive` — what drivers rely on.
* `regions_exclusive_iff` — the runs that have it.
-/
namespace OxKernel.Platform

open Lib (Machine)

/-- `NR_IO_REGIONS`. -/
def nrIoRegions : ℕ := 32

/-- `NR_IO_DESCRIP_NAME_MAX`. -/
def nrIoDescripNameMax : ℕ := 128

/-- `IO_INVALID`. -/
def ioInvalid : Int32 := -1

/-- `io_region_t`, with its description up to the terminator. -/
structure IoRegion where
  ioId : Int32
  ioStart : UInt32
  ioFinish : UInt32
  ioDescr : List UInt8
  deriving DecidableEq

/-- The static variables. -/
structure IoState where
  ioTab : ℕ → IoRegion
  curr : ℕ
  id : UInt32

/-- The state before the first call. -/
def IoState.zero : IoState := ⟨fun _ => ⟨0, 0, 0, []⟩, 0, 0⟩

/-! ## The calls -/

/-- The checks of the arguments in `io_request_region`. -/
def WellFormed (start finished : UInt32) (desc : Option (List UInt8)) : Prop :=
  start < finished ∧ 0 ≤ start.toInt32 ∧ 0 ≤ finished.toInt32 ∧
    ∃ d ∈ desc, d.length < nrIoDescripNameMax

instance (start finished : UInt32) (desc : Option (List UInt8)) :
    Decidable (WellFormed start finished desc) := inferInstanceAs (Decidable (_ ∧ _))

/-- The region overlaps an entry of the table at one of its ends. -/
def IoRegion.Overlaps (r : IoRegion) (start finished : UInt32) : Prop :=
  (start ≥ r.ioStart ∧ start ≤ r.ioFinish) ∨ (finished ≥ r.ioStart ∧ finished ≤ r.ioFinish)

instance (r : IoRegion) (start finished : UInt32) : Decidable (r.Overlaps start finished) :=
  inferInstanceAs (Decidable (_ ∨ _))

/-- `io_request_region`. -/
def ioRequestRegion (start finished : UInt32) (desc : Option (List UInt8)) (s : IoState) :
    Int32 × IoState :=
  if ¬ WellFormed start finished desc then (ioInvalid, s)
  else if s.curr + 1 = nrIoRegions then (ioInvalid, s)
  else if ∃ i < s.curr, (s.ioTab i).Overlaps start finished then (ioInvalid, s)
  else
    (Int32.ofNat (s.curr + 1),
      { ioTab := Function.update s.ioTab (s.curr + 1)
          ⟨(s.id + 1).toInt32, start, finished, desc.getD []⟩
        curr := s.curr + 1
        id := s.id + 1 })

/-- The table without the entry `i`: the entries behind it move up, as far as `curr` goes. -/
def IoState.remove (s : IoState) (i : ℕ) : IoState :=
  { s with
    ioTab := fun j => if i ≤ j ∧ j + 1 < s.curr then s.ioTab (j + 1) else s.ioTab j
    curr := s.curr - 1 }

/-- `io_release_region`. -/
def ioReleaseRegion (id : Int32) (s : IoState) : IoState :=
  match (List.range s.curr).find? fun i => (s.ioTab i).ioId = id with
  | some i => s.remove i
  | none => s

/-- `io_region_info`: the entries of the table that it reports. -/
def ioRegionInfo (s : IoState) : List IoRegion := (List.range s.curr).map s.ioTab

/-! ## Runs -/

/-- A granted region, with the id that was returned for it. -/
structure Grant where
  id : Int32
  start : UInt32
  finish : UInt32
  deriving DecidableEq

/-- What an entry of the table says. -/
def IoRegion.grant (r : IoRegion) : Grant := ⟨r.ioId, r.ioStart, r.ioFinish⟩

/-- The state of a run: the table, the regions granted and not released, and the ids returned so
far. -/
structure IoRun where
  io : IoState
  granted : List Grant
  returned : List Int32

/-- A call with its arguments. -/
inductive IoCall
  | request (start finished : UInt32) (desc : Option (List UInt8))
  | release (id : Int32)

/-- Note a region that has been granted. -/
def IoRun.requested (s : IoRun) (start finished : UInt32) (r : Int32 × IoState) : IoRun :=
  if r.1 = ioInvalid then { s with io := r.2 }
  else ⟨r.2, ⟨r.1, start, finished⟩ :: s.granted, r.1 :: s.returned⟩

/-- The calls of the drivers. -/
def ioCalls : Machine IoRun IoCall Int32 where
  step
    | .request start finished desc, s =>
      let r := ioRequestRegion start finished desc s.io
      (r.1, s.requested start finished r)
    | .release id, s =>
      (0, { s with io := ioReleaseRegion id s.io, granted := s.granted.filter (·.id ≠ id) })

/-- The state before the first call. -/
def IoRun.zero : IoRun := ⟨.zero, [], []⟩

namespace IoRun

/-- A release is of an id that has been returned. -/
def Guard (s : IoRun) : IoCall → Prop
  | .request .. => True
  | .release id => id ∈ s.returned

instance (s : IoRun) : DecidablePred s.Guard
  | .request .. => inferInstanceAs (Decidable True)
  | .release id => inferInstanceAs (Decidable (id ∈ s.returned))

/-- What drivers rely on: the granted regions are disjoint, and they are what `io_region_info`
reports, with their ids and bounds. -/
structure Exclusive (s : IoRun) : Prop where
  disjoint : s.granted.Pairwise fun g g' => g.finish < g'.start ∨ g'.finish < g.start
  reported : ((ioRegionInfo s.io).map IoRegion.grant).Perm s.granted

/-- The call is a request with arguments that are in order. -/
def Asks : IoCall → Prop
  | .request start finished desc => WellFormed start finished desc
  | .release _ => False

variable {s : IoRun} {c : IoCall} {cs : List IoCall}

theorem exclusive_zero : IoRun.zero.Exclusive := ⟨List.Pairwise.nil, List.Perm.nil⟩

/-- A call that asks for nothing leaves an empty table as it is. -/
theorem step_of_not_asks (hc : ¬ Asks c) (hg : IoRun.zero.Guard c) :
    (ioCalls.step c IoRun.zero).2 = IoRun.zero := by
  cases c with
  | request start finished desc =>
      have hrefused : ioRequestRegion start finished desc .zero = (ioInvalid, .zero) := if_pos hc
      show IoRun.zero.requested start finished (ioRequestRegion start finished desc .zero) = _
      rw [hrefused, requested, if_pos rfl]
      rfl
  | release id => exact absurd hg List.not_mem_nil

/-- The first region that is asked for is granted, and not reported. -/
theorem not_exclusive_of_asks (hc : Asks c) : ¬ (ioCalls.step c IoRun.zero).2.Exclusive := by
  cases c with
  | request start finished desc =>
      let granted : IoState :=
        ⟨Function.update IoState.zero.ioTab 1 ⟨1, start, finished, desc.getD []⟩, 1, 1⟩
      have hgranted : ioRequestRegion start finished desc .zero = (1, granted) := by
        rw [ioRequestRegion, if_neg (not_not.mpr (show WellFormed start finished desc from hc)),
          if_neg (by decide), if_neg]
        · rfl
        · rintro ⟨i, hi, -⟩
          exact absurd hi (Nat.not_lt_zero i)
      have hstep : (ioCalls.step (.request start finished desc) IoRun.zero).2 =
          ⟨granted, [⟨1, start, finished⟩], [1]⟩ := by
        show IoRun.zero.requested start finished (ioRequestRegion start finished desc .zero) = _
        rw [hgranted, requested, if_neg (show (1 : Int32) ≠ ioInvalid by decide)]
        rfl
      rw [hstep]
      intro h
      have hmem : (⟨0, 0, 0⟩ : Grant) ∈ [⟨1, start, finished⟩] :=
        h.reported.subset List.mem_cons_self
      rw [List.mem_singleton] at hmem
      have hid : (0 : Int32) = 1 := congrArg Grant.id hmem
      exact absurd hid (by decide)
  | release id => exact absurd hc not_false

end IoRun

/-- **Regions are exclusive exactly in the runs without a region**: as soon as a request is in
order, and thus granted, `io_region_info` reports another region than the granted one. -/
theorem regions_exclusive_iff (cs : List IoCall) (h : ioCalls.Admits IoRun.Guard cs IoRun.zero) :
    (∀ pre, pre <+: cs → (ioCalls.exec pre IoRun.zero).Exclusive) ↔ ∀ c ∈ cs, ¬ IoRun.Asks c := by
  induction cs with
  | nil =>
      refine iff_of_true (fun pre hpre => ?_) (fun c hc => absurd hc List.not_mem_nil)
      rw [List.prefix_nil.mp hpre]
      exact IoRun.exclusive_zero
  | cons c cs ih =>
      by_cases hc : IoRun.Asks c
      · refine iff_of_false (fun hall => ?_) (fun hnone => hnone c List.mem_cons_self hc)
        exact IoRun.not_exclusive_of_asks hc (hall [c] ⟨cs, rfl⟩)
      · have hstep := IoRun.step_of_not_asks hc h.1
        rw [List.forall_mem_cons, and_iff_right hc, ← ih (hstep ▸ h.2)]
        constructor
        · intro hall pre hpre
          have hexec := hall (c :: pre) (List.cons_prefix_cons.mpr ⟨rfl, hpre⟩)
          rwa [Machine.exec_cons, hstep] at hexec
        · intro hall pre hpre
          cases pre with
          | nil => exact IoRun.exclusive_zero
          | cons c' pre =>
              obtain ⟨rfl, hrest⟩ := List.cons_prefix_cons.mp hpre
              rw [Machine.exec_cons, hstep]
              exact hall pre hrest

theorem regions_exclusive_iff_one :
    (∀ pre, pre <+: [.request 1 2 (some []), .release 1] →
      (ioCalls.exec pre IoRun.zero).Exclusive) ↔
      ∀ c ∈ [.request 1 2 (some []), .release 1], ¬ IoRun.Asks c :=
  regions_exclusive_iff [.request 1 2 (some []), .release 1] ⟨trivial, by decide +kernel, trivial⟩

/-- Two drivers get the same region: the one granted last is not looked at. -/
theorem region_granted_twice :
    ¬ ∀ cs, ioCalls.Admits IoRun.Guard cs IoRun.zero → (ioCalls.exec cs IoRun.zero).Exclusive := by
  intro h
  have hruns := h [.request 1 2 (some []), .request 1 2 (some [])] ⟨trivial, trivial, trivial⟩
  have hgranted : (ioCalls.exec [.request 1 2 (some []), .request 1 2 (some [])] IoRun.zero).granted =
      [⟨2, 1, 2⟩, ⟨1, 1, 2⟩] := by decide +kernel
  have hdisjoint := hruns.disjoint
  rw [hgranted] at hdisjoint
  exact absurd hdisjoint (by decide)

end OxKernel.Platform
