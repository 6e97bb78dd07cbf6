import Mathlib.Algebra.BigOperators.Fin
import Mathlib.Logic.Equiv.Fin.Basic

/-!
# Structures laid out in bytes

A type that is stored in `n` bytes is a bijection with the byte vectors of length
`n`: nothing is lost in either direction, and a structure with padding has the padding
as a field. Words are little endian. A layout of a structure is put together from the
layouts of its fields in the order of the declaration, so its size is checked by
evaluation.

## Main definitions

* `Layout` — a type laid out in `n` bytes.
* `Layout.u8`, `Layout.u16`, `Layout.u32`, `Layout.u64` — the unsigned words.
* `Layout.prod`, `Layout.array`, `Layout.bytes` — composition.
* `Layout.Zeroed` — the value whose bytes are all zero.
-/
namespace OxKernel.Lib

universe u v

/-- The values of `α` laid out in `n` bytes. -/
abbrev Layout (n : ℕ) (α : Type u) := α ≃ (Fin n → UInt8)

namespace Layout
variable {m n : ℕ} {α : Type u} {β : Type v}

/-- Plain bytes. -/
def bytes (n : ℕ) : Layout n (Fin n → UInt8) := Equiv.refl _

/-- A byte is a number below 256. -/
def byteEquiv : Fin 256 ≃ UInt8 where
  toFun := UInt8.ofFin
  invFun := UInt8.toFin
  left_inv _ := rfl
  right_inv _ := rfl

/-- A number below `256 ^ n`, least significant byte first. -/
def word (n : ℕ) : Layout n (Fin (256 ^ n)) :=
  finFunctionFinEquiv.symm.trans (Equiv.arrowCongr (Equiv.refl _) byteEquiv)

/-- `unsigned char`. -/
def u8 : Layout 1 UInt8 :=
  (Equiv.mk UInt8.toFin UInt8.ofFin (fun _ => rfl) (fun _ => rfl)).trans (word 1)

/-- `unsigned short`. -/
def u16 : Layout 2 UInt16 :=
  (Equiv.mk UInt16.toFin UInt16.ofFin (fun _ => rfl) (fun _ => rfl)).trans (word 2)

/-- `unsigned long`. -/
def u32 : Layout 4 UInt32 :=
  (Equiv.mk UInt32.toFin UInt32.ofFin (fun _ => rfl) (fun _ => rfl)).trans (word 4)

/-- `unsigned long long`. -/
def u64 : Layout 8 UInt64 :=
  (Equiv.mk UInt64.toFin UInt64.ofFin (fun _ => rfl) (fun _ => rfl)).trans (word 8)

/-- `short`, in two's complement. -/
def i16 : Layout 2 Int16 :=
  (Equiv.mk Int16.toUInt16 Int16.ofUInt16 (fun _ => rfl) (fun _ => rfl)).trans u16

/-- `int`, in two's complement. -/
def i32 : Layout 4 Int32 :=
  (Equiv.mk Int32.toUInt32 Int32.ofUInt32 (fun _ => rfl) (fun _ => rfl)).trans u32

/-- One value after another. -/
def prod (a : Layout m α) (b : Layout n β) : Layout (m + n) (α × β) :=
  (Equiv.prodCongr a b).trans (Fin.appendEquiv m n)

/-- An array of `k` values. -/
def array (k : ℕ) (a : Layout n α) : Layout (k * n) (Fin k → α) :=
  ((Equiv.arrowCongr (Equiv.refl _) a).trans (Equiv.curry _ _ _).symm).trans
    (Equiv.arrowCongr finProdFinEquiv (Equiv.refl _))

/-- The bytes of `z` are all zero. -/
def Zeroed (a : Layout n α) (z : α) : Prop := a z = fun _ => 0

theorem zeroed_word (n : ℕ) (z : Fin (256 ^ n)) (hz : (z : ℕ) = 0) : (word n).Zeroed z := by
  funext i
  have hval : ((finFunctionFinEquiv.symm z i : Fin 256) : ℕ) = 0 := by
    rw [finFunctionFinEquiv_symm_apply_val, hz, Nat.zero_div, Nat.zero_mod]
  exact congrArg UInt8.ofFin (Fin.ext hval)

theorem zeroed_u32 : u32.Zeroed 0 := zeroed_word 4 0 rfl

theorem Zeroed.prod {a : Layout m α} {b : Layout n β} {y : α} {z : β} (hy : a.Zeroed y)
    (hz : b.Zeroed z) : (a.prod b).Zeroed (y, z) := by
  have hab : a.prod b (y, z) = Fin.append (a y) (b z) := rfl
  rw [Layout.Zeroed, hab, hy, hz]
  funext i
  refine Fin.addCases (fun j => ?_) (fun j => ?_) i
  · rw [Fin.append_left]
  · rw [Fin.append_right]

theorem Zeroed.array {a : Layout n α} {z : α} (hz : a.Zeroed z) (k : ℕ) :
    (a.array k).Zeroed fun _ => z := by
  funext i
  have hi : a.array k (fun _ => z) i = a z (finProdFinEquiv.symm i).2 := rfl
  rw [hi, hz]

end Layout
end OxKernel.Lib
