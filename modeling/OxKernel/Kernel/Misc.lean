import OxKernel.Kernel.Exit
import OxKernel.Lib.Machine

/-!
# User and group ids

`ksetregid` and `ksetreuid` of `misc.c`, and what a process that is not the super user can come
to by any number of calls of the two.

## Main definitions

* `ksetregid`, `ksetreuid` — the calls.
* `Process.WithinIds` — the ids of a process are ids it had at the start.
* `ids_within` — no sequence of calls leaves these ids.
-/
namespace OxKernel.Kernel

open Lib (Machine)

/-- `ROOT`. -/
def root : UInt16 := 0

/-- `is_super_user`. -/
def Process.IsSuperUser (p : Process) : Prop := p.euid = root

instance (p : Process) : Decidable p.IsSuperUser := inferInstanceAs (Decidable (_ = _))

/-! ## The calls

An id has 32 bits as a parameter and 16 in the process. -/

/-- The second half of `ksetregid`. -/
def setEgid (egid : UInt32) (p : Process) : Int32 × Process :=
  if egid > 0 then
    if p.gid.toUInt32 = egid ∨ p.egid.toUInt32 = egid ∨ p.sgid.toUInt32 = egid ∨
        p.IsSuperUser then
      (0, { p with egid := egid.toUInt16 })
    else (ePerm, p)
  else (0, p)

/-- `ksetregid`. -/
def ksetregid (rgid egid : UInt32) (p : Process) : Int32 × Process :=
  if rgid > 0 then
    if p.gid.toUInt32 = rgid ∨ p.IsSuperUser then setEgid egid { p with gid := rgid.toUInt16 }
    else (ePerm, p)
  else setEgid egid p

/-- The second half of `ksetreuid`, which takes the first half back instead of failing. -/
def setEuid (old : UInt16) (euid : UInt32) (p : Process) : Int32 × Process :=
  if euid > 0 then
    if old.toUInt32 = euid ∨ p.euid.toUInt32 = euid ∨ p.IsSuperUser then
      (0, { p with euid := euid.toUInt16 })
    else (0, { p with uid := old })
  else (0, p)

/-- `ksetreuid`. -/
def ksetreuid (ruid euid : UInt32) (p : Process) : Int32 × Process :=
  if ruid > 0 then
    if p.euid.toUInt32 = ruid ∨ p.uid.toUInt32 = ruid ∨ p.IsSuperUser then
      setEuid p.uid euid { p with uid := ruid.toUInt16 }
    else (ePerm, p)
  else setEuid p.uid euid p

/-- A call with its arguments. -/
inductive IdCall
  | setregid (rgid egid : UInt32)
  | setreuid (ruid euid : UInt32)

/-- The calls of a process. -/
def idCalls : Machine Process IdCall Int32 where
  step
    | .setregid rgid egid => ksetregid rgid egid
    | .setreuid ruid euid => ksetreuid ruid euid

/-! ## What they come to -/

/-- The ids are among those of `p₀`, each where it may be, and the process is not the super
user. -/
structure Process.WithinIds (p₀ p : Process) : Prop where
  uid : p.uid = p₀.uid ∨ p.uid = p₀.euid
  euid : p.euid = p₀.uid ∨ p.euid = p₀.euid
  gid : p.gid = p₀.gid
  egid : p.egid = p₀.gid ∨ p.egid = p₀.egid ∨ p.egid = p₀.sgid
  suid : p.suid = p₀.suid
  sgid : p.sgid = p₀.sgid
  notRoot : ¬ p.IsSuperUser

section Within
variable {p₀ p : Process} {n : UInt16} {m : UInt32}

/-- An id that passes a comparison is the one that is stored. -/
theorem toUInt16_of_eq (h : n.toUInt32 = m) : m.toUInt16 = n := by
  rw [← h]
  exact UInt16.toUInt16_toUInt32 n

/-- An id that is not 0 does not become 0 by being stored. -/
theorem ne_root_of_eq (h : n.toUInt32 = m) (hm : m > 0) : n ≠ root := by
  rintro rfl
  rw [← h] at hm
  exact absurd hm (by decide)

theorem Process.WithinIds.setEgid (h : p₀.WithinIds p) (egid : UInt32) :
    p₀.WithinIds (setEgid egid p).2 := by
  rw [Kernel.setEgid]
  split
  · split
    · rename_i hid
      refine { h with egid := ?_ }
      rcases hid with hid | hid | hid | hid
      · exact .inl ((toUInt16_of_eq hid).trans h.gid)
      · rw [toUInt16_of_eq hid]
        exact h.egid
      · exact .inr (.inr ((toUInt16_of_eq hid).trans h.sgid))
      · exact absurd hid h.notRoot
    · exact h
  · exact h

/-- **`ksetregid`** keeps the ids. -/
theorem Process.WithinIds.ksetregid (h : p₀.WithinIds p) (rgid egid : UInt32) :
    p₀.WithinIds (ksetregid rgid egid p).2 := by
  rw [Kernel.ksetregid]
  split
  · split
    · rename_i hid
      apply setEgid
      refine { h with gid := ?_ }
      exact (toUInt16_of_eq (hid.resolve_right h.notRoot)).trans h.gid
    · exact h
  · exact h.setEgid egid

/-- The old user id is one the process started with, whatever the first half has stored. -/
theorem Process.WithinIds.setEuid (h : p₀.WithinIds p) {old : UInt16}
    (hold : old = p₀.uid ∨ old = p₀.euid) (euid : UInt32) :
    p₀.WithinIds (setEuid old euid p).2 := by
  rw [Kernel.setEuid]
  split
  · rename_i hpos
    split
    · rename_i hid
      rcases hid with hid | hid | hid
      · refine { h with euid := ?_, notRoot := ?_ }
        · exact hold.imp (toUInt16_of_eq hid).trans (toUInt16_of_eq hid).trans
        · exact (toUInt16_of_eq hid).trans_ne (ne_root_of_eq hid hpos)
      · refine { h with euid := ?_, notRoot := ?_ }
        · exact h.euid.imp (toUInt16_of_eq hid).trans (toUInt16_of_eq hid).trans
        · exact (toUInt16_of_eq hid).trans_ne (ne_root_of_eq hid hpos)
      · exact absurd hid h.notRoot
    · exact { h with uid := hold }
  · exact h

/-- **`ksetreuid`** keeps the ids. -/
theorem Process.WithinIds.ksetreuid (h : p₀.WithinIds p) (ruid euid : UInt32) :
    p₀.WithinIds (ksetreuid ruid euid p).2 := by
  rw [Kernel.ksetreuid]
  split
  · split
    · rename_i hid
      have hfirst : p₀.WithinIds { p with uid := ruid.toUInt16 } := by
        refine { h with uid := ?_ }
        rcases hid with hid | hid | hid
        · exact h.euid.imp (toUInt16_of_eq hid).trans (toUInt16_of_eq hid).trans
        · exact h.uid.imp (toUInt16_of_eq hid).trans (toUInt16_of_eq hid).trans
        · exact absurd hid h.notRoot
      exact hfirst.setEuid h.uid euid
    · exact h
  · exact h.setEuid h.uid euid

end Within

/-- **No privilege is gained**: after any calls of a process whose effective user is not 0 at the
start, its ids are among those it started with, and its effective user is still not 0. -/
theorem ids_within (p₀ : Process) (h : p₀.euid ≠ 0) (cs : List IdCall) :
    p₀.WithinIds (idCalls.exec cs p₀) := by
  have hstart : p₀.WithinIds p₀ := ⟨.inl rfl, .inr rfl, rfl, .inr (.inl rfl), rfl, rfl, h⟩
  have hall : idCalls.Admits (fun _ _ => True) cs p₀ := .of_forall cs p₀ fun _ _ _ => trivial
  refine Machine.exec_invariant (fun p c hp _ => ?_) cs p₀ hstart hall
  cases c with
  | setregid rgid egid => exact hp.ksetregid rgid egid
  | setreuid ruid euid => exact hp.ksetreuid ruid euid

theorem ids_within_swap :
    ({ Process.zero with euid := 7 } : Process).WithinIds
      (idCalls.exec [.setreuid 7 7, .setreuid 0 1] { Process.zero with euid := 7 }) :=
  ids_within { Process.zero with euid := 7 } (by decide) [.setreuid 7 7, .setreuid 0 1]

end OxKernel.Kernel
