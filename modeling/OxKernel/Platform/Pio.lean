import OxKernel.Fs.Device
import Mathlib.Tactic.IntervalCases

/-!
# Sector addresses of the disk driver

A model of `pioutil.c`: a logical block address is cut into a head, a sector and a cylinder,
and these go to the registers of the drive. The cylinder is kept in 16 bits, so the cylinders
of the blocks from 66060288 on come back to those at the start of the disk.

`pio_read` and `pio_write` are assembler. They are a parameter here: what they do to the drive,
and whether they report an error, on which `ata_read` and `ata_write` panic.

## Main definitions

* `getChs`, `getLba`, `getDriveHead` — the address computations.
* `Pio`, `ataRead`, `ataWrite` — the transfers.

## Main results

* `getLba_getChs` — the block that an address stands for.
* `chs_lossless_iff` — which addresses are lossless, and which blocks share a sector.
* `ataRead_ataWrite` — a block read back after a write of another one.
-/
namespace OxKernel.Platform

open Fs (Sector)

/-! ## Addresses -/

/-- `HPC`, heads per cylinder. -/
def HPC : UInt32 := 16

/-- `SPT`, sectors per track. -/
def SPT : UInt32 := 63

/-- What `get_chs` computes. -/
structure Chs where
  head : UInt8
  sector : UInt8
  /-- The low bits of the cylinder. -/
  cyl1 : UInt8
  /-- The high bits of the cylinder. -/
  cyl2 : UInt8
  deriving DecidableEq, Repr

/-- `get_drive_head`. -/
def getDriveHead (drive head : UInt8) : UInt8 :=
  (160 : UInt8) ||| ((drive &&& 0x1) <<< 4) ||| (head &&& 0xF)

/-- `get_chs`. -/
def getChs (lba : UInt32) : Chs :=
  let cylinder : UInt16 := (lba / (SPT * HPC)).toUInt16
  { head := ((lba / SPT) % HPC).toUInt8
    sector := ((lba % SPT) + 1).toUInt8
    cyl1 := (cylinder &&& 0xFF).toUInt8
    cyl2 := (cylinder >>> 8).toUInt8 }

/-- `get_lba`. -/
def getLba (a : Chs) : UInt32 :=
  let cylinder : UInt16 := (a.cyl2.toUInt16 <<< 0x8) ||| a.cyl1.toUInt16
  ((cylinder.toUInt32 * HPC) + a.head.toUInt32) * SPT + a.sector.toUInt32 - 1

/-! ## Transfers -/

/-- The registers that name a sector. -/
structure Registers where
  driveHead : UInt8
  sector : UInt8
  cyl1 : UInt8
  cyl2 : UInt8
  deriving DecidableEq, Repr

/-- The registers of a block of a drive. -/
def registers (drive : UInt8) (lba : UInt32) : Registers :=
  let a := getChs lba
  { driveHead := getDriveHead drive a.head, sector := a.sector, cyl1 := a.cyl1, cyl2 := a.cyl2 }

/-- `pio_read` and `pio_write`, over the state of the drives. -/
structure Pio (σ : Type) where
  /-- The result, the buffer and the state after `pio_read`. -/
  read : Registers → Sector → σ → Int32 × Sector × σ
  /-- The result and the state after `pio_write`. -/
  write : Registers → Sector → σ → Int32 × σ

section Transfers
variable {σ : Type} (P : Pio σ)

/-- `ata_read`. A panic has no result. -/
def ataRead (drive : UInt8) (lba : UInt32) (buffer : Sector) (s : σ) :
    Option (Int32 × Sector × σ) :=
  let (r, buffer, s) := P.read (registers drive lba) buffer s
  if r = 1 then none else some (0, buffer, s)

/-- `ata_write`. -/
def ataWrite (drive : UInt8) (lba : UInt32) (buffer : Sector) (s : σ) : Option (Int32 × σ) :=
  let (r, s) := P.write (registers drive lba) buffer s
  if r = 1 then none else some (0, s)

end Transfers

/-! ## The computations in numbers -/

/-- The blocks of 65536 cylinders. -/
def chsBlocks : ℕ := 66060288

section Addresses
variable {lba lba' : UInt32} {drive : UInt8} {a : Chs}

theorem HPC_toNat : HPC.toNat = 16 := rfl

theorem SPT_toNat : SPT.toNat = 63 := rfl

theorem getChs_head (lba : UInt32) : (getChs lba).head.toNat = lba.toNat / 63 % 16 := by
  have : lba.toNat / 63 % 16 < 16 := Nat.mod_lt _ (by decide)
  simp only [getChs, UInt32.toNat_toUInt8, UInt32.toNat_mod, UInt32.toNat_div, SPT_toNat, HPC_toNat]
  omega

theorem getChs_sector (lba : UInt32) : (getChs lba).sector.toNat = lba.toNat % 63 + 1 := by
  have : lba.toNat % 63 < 63 := Nat.mod_lt _ (by decide)
  simp only [getChs, UInt32.toNat_toUInt8, UInt32.toNat_add, UInt32.toNat_mod, SPT_toNat,
    UInt32.toNat_one]
  omega

/-- The low eight bits of a cylinder. -/
theorem getChs_cyl1 (lba : UInt32) :
    (getChs lba).cyl1.toNat = lba.toNat / 1008 % 65536 % 256 := by
  have hand : ∀ x, x &&& 255 = x % 256 := fun x => Nat.and_two_pow_sub_one_eq_mod x 8
  have hper : (SPT * HPC).toNat = 1008 := rfl
  have hff : (0xFF : UInt16).toNat = 255 := rfl
  simp only [getChs, UInt16.toNat_toUInt8, UInt16.toNat_and, UInt32.toNat_toUInt16,
    UInt32.toNat_div, hper, hff, hand]
  omega

/-- The high eight bits of a cylinder. -/
theorem getChs_cyl2 (lba : UInt32) :
    (getChs lba).cyl2.toNat = lba.toNat / 1008 % 65536 / 256 := by
  have hper : (SPT * HPC).toNat = 1008 := rfl
  have hcount : (8 : UInt16).toNat % 16 = 8 := rfl
  simp only [getChs, UInt16.toNat_toUInt8, UInt16.toNat_shiftRight, UInt32.toNat_toUInt16,
    UInt32.toNat_div, hper, hcount, Nat.shiftRight_eq_div_pow]
  omega

/-- The cylinder that `get_lba` puts together. -/
theorem cylinder_toNat (a : Chs) :
    ((a.cyl2.toUInt16 <<< 0x8) ||| a.cyl1.toUInt16).toNat =
      a.cyl2.toNat * 256 + a.cyl1.toNat := by
  have h1 := a.cyl1.toNat_lt
  have h2 := a.cyl2.toNat_lt
  have hcount : (8 : UInt16).toNat % 16 = 8 := rfl
  have hshift : a.cyl2.toNat <<< 8 % 2 ^ 16 = a.cyl2.toNat <<< 8 :=
    Nat.mod_eq_of_lt (by rw [Nat.shiftLeft_eq]; omega)
  simp only [UInt16.toNat_or, UInt16.toNat_shiftLeft, UInt8.toNat_toUInt16, hcount, hshift]
  rw [← Nat.shiftLeft_add_eq_or_of_lt h1, Nat.shiftLeft_eq]

/-- `get_lba` in numbers, for a sector that is one. -/
theorem getLba_toNat (hsector : 0 < a.sector.toNat) :
    (getLba a).toNat =
      ((a.cyl2.toNat * 256 + a.cyl1.toNat) * 16 + a.head.toNat) * 63 + a.sector.toNat - 1 := by
  have h1 := a.cyl1.toNat_lt
  have h2 := a.cyl2.toNat_lt
  have h3 := a.head.toNat_lt
  have h4 := a.sector.toNat_lt
  simp only [getLba, UInt32.toNat_sub, UInt32.toNat_add, UInt32.toNat_mul, UInt16.toNat_toUInt32,
    UInt8.toNat_toUInt32, cylinder_toNat, HPC_toNat, SPT_toNat, UInt32.toNat_one]
  omega

/-- **The block that an address stands for**: blocks behind 65536 cylinders come back. -/
theorem getLba_getChs (lba : UInt32) : (getLba (getChs lba)).toNat = lba.toNat % chsBlocks := by
  rw [getLba_toNat (by rw [getChs_sector]; omega), getChs_head, getChs_sector, getChs_cyl1,
    getChs_cyl2, chsBlocks]
  omega

/-- The address of a block has a head and a sector of the drive. -/
theorem getChs_bounds (lba : UInt32) :
    (getChs lba).head.toNat < 16 ∧ 1 ≤ (getChs lba).sector.toNat ∧
      (getChs lba).sector.toNat ≤ 63 := by
  rw [getChs_head, getChs_sector]
  omega

/-- Blocks that are a disk of 65536 cylinders apart have one address. -/
theorem getChs_eq_iff :
    getChs lba = getChs lba' ↔ lba.toNat % chsBlocks = lba'.toNat % chsBlocks := by
  constructor
  · intro h
    rw [← getLba_getChs, ← getLba_getChs, h]
  · intro h
    rw [chsBlocks] at h
    have hhead : (getChs lba).head = (getChs lba').head := by
      apply UInt8.toNat_inj.mp
      rw [getChs_head, getChs_head]
      omega
    have hsector : (getChs lba).sector = (getChs lba').sector := by
      apply UInt8.toNat_inj.mp
      rw [getChs_sector, getChs_sector]
      omega
    have hcyl1 : (getChs lba).cyl1 = (getChs lba').cyl1 := by
      apply UInt8.toNat_inj.mp
      rw [getChs_cyl1, getChs_cyl1]
      omega
    have hcyl2 : (getChs lba).cyl2 = (getChs lba').cyl2 := by
      apply UInt8.toNat_inj.mp
      rw [getChs_cyl2, getChs_cyl2]
      omega
    exact (Chs.mk.injEq ..).mpr ⟨hhead, hsector, hcyl1, hcyl2⟩

/-- The head is in the low bits of the drive and head register. -/
theorem getDriveHead_and (drive head : UInt8) : getDriveHead drive head &&& 0xF = head &&& 0xF := by
  rw [getDriveHead, ← UInt8.toBitVec_inj]
  ext i hi
  simp only [UInt8.toBitVec_and, UInt8.toBitVec_or, UInt8.toBitVec_shiftLeft, BitVec.getElem_and,
    BitVec.getElem_or]
  interval_cases i <;> simp

theorem and_low_of_lt {head : UInt8} (h : head.toNat < 16) : head &&& 0xF = head := by
  have hmod := Nat.and_two_pow_sub_one_eq_mod head.toNat 4
  simp only [Nat.reducePow, Nat.add_one_sub_one] at hmod
  rw [← UInt8.toNat_inj, UInt8.toNat_and]
  simp only [UInt8.reduceToNat, hmod]
  omega

theorem registers_eq_iff :
    registers drive lba = registers drive lba' ↔
      lba.toNat % chsBlocks = lba'.toNat % chsBlocks := by
  rw [← getChs_eq_iff]
  constructor
  · intro h
    simp only [registers, Registers.mk.injEq] at h
    obtain ⟨hdrive, hrest⟩ := h
    have hhead : (getChs lba).head = (getChs lba').head := by
      have hand := congrArg (· &&& 0xF) hdrive
      simpa only [getDriveHead_and, and_low_of_lt (getChs_bounds _).1] using hand
    exact (Chs.mk.injEq ..).mpr ⟨hhead, hrest⟩
  · intro h
    rw [registers, registers, h]

end Addresses

/-! ## Lossless addresses -/

/-- The address is one of the drive, and stands for the block. -/
def Lossless (lba : UInt32) : Prop :=
  (getChs lba).head.toNat < 16 ∧ 1 ≤ (getChs lba).sector.toNat ∧
    (getChs lba).sector.toNat ≤ 63 ∧ getLba (getChs lba) = lba

theorem lossless_iff {lba : UInt32} : Lossless lba ↔ lba.toNat < chsBlocks := by
  have hpos : 0 < chsBlocks := by decide
  obtain ⟨h1, h2, h3⟩ := getChs_bounds lba
  rw [Lossless, ← UInt32.toNat_inj, getLba_getChs, Nat.mod_eq_iff_lt hpos.ne']
  simp only [h1, h2, h3, true_and]

/-- **Sector addressing** is lossless for the blocks of 65536 cylinders, and two blocks share a
sector if they are a multiple of so many apart. -/
theorem chs_lossless_iff (drive : UInt8) (lba lba' : UInt32) :
    (Lossless lba ↔ lba.toNat < chsBlocks) ∧
      (registers drive lba = registers drive lba' ↔
        lba.toNat % chsBlocks = lba'.toNat % chsBlocks) :=
  ⟨lossless_iff, registers_eq_iff⟩

/-- The first block behind 65536 cylinders has 28 bits, and the address of block 0. -/
theorem chs_lossy :
    (66060288 : UInt32).toNat < 2 ^ 28 ∧ ¬ Lossless 66060288 ∧
      registers 0 66060288 = registers 0 0 := by
  refine ⟨by decide, ?_, registers_eq_iff.mpr (by decide)⟩
  rw [lossless_iff]
  decide

/-! ## The drive as a store -/

/-- The assembler routines work: they transfer the sector that the registers name. -/
structure Pio.Works {σ : Type} (P : Pio σ) (view : σ → Registers → Sector) : Prop where
  read : ∀ r b s, ∃ c s', P.read r b s = (c, view s r, s') ∧ c ≠ 1 ∧ view s' = view s
  write : ∀ r b s, ∃ c s', P.write r b s = (c, s') ∧ c ≠ 1 ∧
    view s' = Function.update (view s) r b

section Store
variable {σ : Type} {P : Pio σ} {view : σ → Registers → Sector}

theorem ataRead_works (h : P.Works view) (drive : UInt8) (lba : UInt32) (buffer : Sector) (s : σ) :
    ∃ s', ataRead P drive lba buffer s = some (0, view s (registers drive lba), s') ∧
      view s' = view s := by
  obtain ⟨c, s', hread, hc, hview⟩ := h.read (registers drive lba) buffer s
  refine ⟨s', ?_, hview⟩
  simp only [ataRead, hread, if_neg hc]

theorem ataWrite_works (h : P.Works view) (drive : UInt8) (lba : UInt32) (buffer : Sector)
    (s : σ) :
    ∃ s', ataWrite P drive lba buffer s = some (0, s') ∧
      view s' = Function.update (view s) (registers drive lba) buffer := by
  obtain ⟨c, s', hwrite, hc, hview⟩ := h.write (registers drive lba) buffer s
  refine ⟨s', ?_, hview⟩
  simp only [ataWrite, hwrite, if_neg hc]

/-- **A block read behind a write**: the new data for every block that shares the sector, and
what was there for the others. -/
theorem ataRead_ataWrite (h : P.Works view) (drive : UInt8) (lba lba' : UInt32)
    (data buffer : Sector) (s : σ) :
    ∃ s₁ s₂, ataWrite P drive lba data s = some (0, s₁) ∧
      ataRead P drive lba' buffer s₁ =
        some (0, if lba'.toNat % chsBlocks = lba.toNat % chsBlocks then data
          else view s (registers drive lba'), s₂) := by
  obtain ⟨s₁, hwrite, hview⟩ := ataWrite_works h drive lba data s
  obtain ⟨s₂, hread, -⟩ := ataRead_works h drive lba' buffer s₁
  refine ⟨s₁, s₂, hwrite, ?_⟩
  rw [hread, hview]
  by_cases hsame : lba'.toNat % chsBlocks = lba.toNat % chsBlocks
  · rw [if_pos hsame, registers_eq_iff.mpr hsame, Function.update_self]
  · rw [if_neg hsame, Function.update_of_ne (mt registers_eq_iff.mp hsame)]

end Store

end OxKernel.Platform
