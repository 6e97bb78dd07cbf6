import Mathlib.Data.Fintype.Pi
import Mathlib.Logic.Function.Basic

/-!
# The device interface of the buffer cache

`dev.c` is compiled twice. In the kernel `dev_scan` is a no-op and the transfers go
to the sector they are given; under `_USER_SPACE` a device is a host file,
`dev_scan` seeks in it and the transfers happen at the file offset, whatever sector
they are given. `DevLayer` is the interface both builds implement, so `block.c` is
modelled once; a layer with failing calls is an instance like any other.

A NULL buffer has no counterpart here: buffers are passed by value.

## Main definitions

* `DevLayer` — the functions of `dev.h` over an arbitrary hardware state.
* `kernelDev`, `userDev` — the two builds, with every call succeeding.
* `FlatDev` — a scan followed by a transfer acts on a flat array of sectors.
-/
namespace OxKernel.Fs

/-- `block_t`: an `unsigned long`, 32 bits wide under `-m32`. -/
abbrev BlockNo := UInt32

/-- The `int` that names a device. -/
abbrev DevNo := Int32

/-- `DEV_BLOCK_SIZE`, the bytes of a sector. -/
abbrev devBlockSize : ℕ := 512

/-- The contents of one sector. -/
abbrev Sector := Fin devBlockSize → UInt8

/-- A sector of zero bytes. -/
def Sector.zero : Sector := fun _ => 0

/-- A sector of ones. -/
def Sector.ones : Sector := fun _ => 1

/-- `DEV_NODEV`. -/
def devNodev : DevNo := -1

/-- `dev_rtvl_t`. -/
inductive DevRtvl
  | ok
  | fail
  | param
  deriving DecidableEq, Repr

/-- The functions of `dev.h`. A read is given the old contents of the buffer and
returns the new ones, so that a failing read may leave it half filled. -/
structure DevLayer (σ : Type) where
  /-- `dev_open(path, dev)`, given the old contents of `*dev`. -/
  devOpen : String → DevNo → σ → DevRtvl × DevNo × σ
  /-- `dev_close(dev)`. -/
  devClose : DevNo → σ → DevRtvl × σ
  /-- `dev_scan(dev, block)`. -/
  devScan : DevNo → BlockNo → σ → DevRtvl × σ
  /-- `dev_read(dev, block, data)`. -/
  devRead : DevNo → BlockNo → Sector → σ → DevRtvl × Sector × σ
  /-- `dev_write(dev, block, data)`. -/
  devWrite : DevNo → BlockNo → Sector → σ → DevRtvl × σ

/-- A flat array of sectors for every device. -/
abbrev Disk := DevNo → BlockNo → Sector

/-- Replace one sector. -/
def Disk.set (d : Disk) (dev : DevNo) (block : BlockNo) (data : Sector) : Disk :=
  fun dev' block' => if dev' = dev ∧ block' = block then data else d dev' block'

@[simp] theorem Disk.set_self (d : Disk) (dev : DevNo) (block : BlockNo) (data : Sector) :
    d.set dev block data dev block = data := by simp [Disk.set]

theorem Disk.set_of_ne {d : Disk} {dev dev' : DevNo} {block block' : BlockNo} {data : Sector}
    (h : ¬ (dev' = dev ∧ block' = block)) : d.set dev block data dev' block' = d dev' block' :=
  if_neg h

/-- The kernel build with a drive present: `dev_open` picks the primary drive,
`dev_scan` is a no-op and the PIO transfers of `dev_read` and `dev_write` address the
sector they are given. -/
def kernelDev : DevLayer Disk where
  devOpen _ _ d := (.ok, 0, d)
  devClose _ d := (.ok, d)
  devScan _ _ d := (.ok, d)
  devRead dev block _ d := (.ok, d dev block, d)
  devWrite dev block data d := (.ok, d.set dev block data)

/-- The host files behind the devices of the `_USER_SPACE` build, long enough for
every access: the descriptor `open` gives for a path, the bytes of each open file
and the offset of its descriptor. -/
structure HostFiles where
  descriptor : String → DevNo
  bytes : DevNo → ℕ → UInt8
  offset : DevNo → ℕ

/-- `lseek(dev, n, 0)`. -/
def HostFiles.seek (h : HostFiles) (dev : DevNo) (n : ℕ) : HostFiles :=
  { h with offset := Function.update h.offset dev n }

/-- The sector at the offset of `dev`. -/
def HostFiles.readAt (h : HostFiles) (dev : DevNo) : Sector :=
  fun i => h.bytes dev (h.offset dev + i)

/-- Overwrite the sector at the offset of `dev`. -/
def HostFiles.writeAt (h : HostFiles) (dev : DevNo) (data : Sector) : HostFiles :=
  { h with
    bytes := fun dev' n =>
      if hn : dev' = dev ∧ h.offset dev ≤ n ∧ n < h.offset dev + devBlockSize then
        data ⟨n - h.offset dev, by omega⟩
      else h.bytes dev' n }

/-- The `_USER_SPACE` build over host calls that succeed in full. The product
`block * DEV_BLOCK_SIZE` is taken in `unsigned long`. -/
def userDev : DevLayer HostFiles where
  devOpen path _ h :=
    if h.descriptor path < 0 then (.fail, -1, h)
    else (.ok, h.descriptor path, h.seek (h.descriptor path) 0)
  devClose dev h := if dev < 0 then (.param, h) else (.ok, h)
  devScan dev block h :=
    if dev < 0 then (.param, h) else (.ok, h.seek dev (block * 512).toNat)
  devRead dev _ data h :=
    if dev < 0 then (.param, data, h)
    else (.ok, h.readAt dev, h.seek dev (h.offset dev + devBlockSize))
  devWrite dev _ data h :=
    if dev < 0 then (.param, h)
    else (.ok, (h.writeAt dev data).seek dev (h.offset dev + devBlockSize))

/-- What the buffer cache asks of a device: on the devices and sectors in use, a
scan and a transfer of the same sector succeed and act on a flat array of sectors.
`view` reads that array out of the hardware state. -/
structure FlatDev {σ : Type} (D : DevLayer σ) (view : σ → Disk) (valid : BlockNo → Prop) :
    Prop where
  scan : ∀ dev block hw, 0 ≤ dev → ∃ hw', D.devScan dev block hw = (.ok, hw') ∧ view hw' = view hw
  read : ∀ dev block data hw, 0 ≤ dev → valid block →
    ∃ hw', D.devRead dev block data (D.devScan dev block hw).2 = (.ok, view hw dev block, hw') ∧
      view hw' = view hw
  write : ∀ dev block data hw, 0 ≤ dev → valid block →
    ∃ hw', D.devWrite dev block data (D.devScan dev block hw).2 = (.ok, hw') ∧
      view hw' = (view hw).set dev block data

/-- The stronger property of a device whose transfers go to the scanned sector: the
block number passed to the write does not matter. -/
def ScanAddressed {σ : Type} (D : DevLayer σ) (view : σ → Disk) (valid : BlockNo → Prop) : Prop :=
  ∀ dev block block' data hw, 0 ≤ dev → valid block →
    ∃ hw', D.devWrite dev block' data (D.devScan dev block hw).2 = (.ok, hw') ∧
      view hw' = (view hw).set dev block data

theorem kernelDev_flat : FlatDev kernelDev id (fun _ => True) where
  scan _ _ d _ := ⟨d, rfl, rfl⟩
  read _ _ _ d _ _ := ⟨d, rfl, rfl⟩
  write dev block data d _ _ := ⟨d.set dev block data, rfl, rfl⟩

/-- The sectors of the host files. -/
def HostFiles.view (h : HostFiles) : Disk :=
  fun dev block i => h.bytes dev (block.toNat * devBlockSize + i)

/-- `block * DEV_BLOCK_SIZE` does not overflow. -/
def OffsetFits (block : BlockNo) : Prop := block.toNat * devBlockSize < 2 ^ 32

theorem toNat_mul_blockSize {block : BlockNo} (h : OffsetFits block) :
    (block * 512).toNat = block.toNat * devBlockSize := by
  have h' : block.toNat * 512 < 4294967296 := h
  simp only [UInt32.toNat_mul, UInt32.toNat_ofNat, Nat.reducePow, Nat.reduceMod]
  exact Nat.mod_eq_of_lt h'

@[simp] theorem HostFiles.view_seek (h : HostFiles) (dev : DevNo) (n : ℕ) :
    (h.seek dev n).view = h.view := rfl

theorem HostFiles.readAt_seek {h : HostFiles} {dev : DevNo} {block : BlockNo} :
    (h.seek dev (block.toNat * devBlockSize)).readAt dev = h.view dev block := by
  funext i
  simp [readAt, seek, view]

/-- Writing a sector at its own offset changes that sector and no other one. -/
theorem HostFiles.view_writeAt {h : HostFiles} {dev : DevNo} {block : BlockNo} {data : Sector}
    (ho : h.offset dev = block.toNat * devBlockSize) :
    (h.writeAt dev data).view = h.view.set dev block data := by
  funext dev' block' i
  by_cases hd : dev' = dev
  · subst hd
    by_cases hb : block' = block
    · subst hb
      have hi : (i : ℕ) < devBlockSize := i.isLt
      simp only [view, writeAt, ho, Disk.set, and_self, if_true]
      rw [dif_pos ⟨trivial, by omega, by omega⟩]
      simp
    · -- Offsets of different sectors are at least a sector apart.
      have hne : block'.toNat ≠ block.toNat := fun h => hb (UInt32.toNat_inj.mp h)
      have hi : (i : ℕ) < 512 := i.isLt
      simp only [view, writeAt, ho, Disk.set, hb, and_false, if_false]
      rw [dif_neg]
      rintro ⟨-, h1, h2⟩
      simp only [devBlockSize] at h1 h2
      omega
  · simp [view, writeAt, Disk.set, hd]

theorem not_neg_of_nonneg {dev : DevNo} (h : 0 ≤ dev) : ¬ dev < 0 := by
  rw [Int32.le_iff_toInt_le] at h
  rw [Int32.lt_iff_toInt_lt]
  exact not_lt.mpr h

/-- A host file is written at the offset its last scan left. -/
theorem userDev_scanAddressed : ScanAddressed userDev HostFiles.view OffsetFits := by
  intro dev block block' data h hdev hv
  have hn := not_neg_of_nonneg hdev
  simp only [userDev, hn, if_false, toNat_mul_blockSize hv]
  refine ⟨_, rfl, ?_⟩
  have ho : (h.seek dev (block.toNat * devBlockSize)).offset dev = block.toNat * devBlockSize := by
    simp [HostFiles.seek]
  rw [HostFiles.view_seek, HostFiles.view_writeAt ho]
  rfl

theorem userDev_flat : FlatDev userDev HostFiles.view OffsetFits where
  scan dev block h hdev := by
    refine ⟨h.seek dev (block * 512).toNat, ?_, rfl⟩
    simp [userDev, not_neg_of_nonneg hdev]
  read dev block data h hdev hv := by
    have hn := not_neg_of_nonneg hdev
    simp only [userDev, hn, if_false, toNat_mul_blockSize hv]
    rw [HostFiles.readAt_seek]
    exact ⟨_, rfl, rfl⟩
  write dev block data h hdev hv := userDev_scanAddressed dev block block data h hdev hv

end OxKernel.Fs
