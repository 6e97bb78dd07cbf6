import OxKernel.Kernel.Exec
import OxKernel.Lib.Exact
import OxKernel.Lib.Words

/-!
# When the loading of a file stays in its memory

The exact condition under which `image_load` reads the file and writes the memory of the new
process only. Nothing in the header is compared with the size of the file, so the condition is
about each segment, with the sums as they are in 32 bits.

## Main definitions

* `Within` — bytes that lie in a block.
* `Image` — a file in memory, and what its header says.
* `Image.LoadSafe` — the condition.
* `image_load_inside_iff` — the theorem.
-/
namespace OxKernel.Kernel

open Lib (Call)

/-! ## Blocks -/

/-- The bytes from `a` on lie in the block of `len` bytes at `base`. -/
def Within (base len a n : UInt32) : Prop := n = 0 ∨ (a - base).toNat + n.toNat ≤ len.toNat

section Within
variable {base len a n x : UInt32}

/-- Bytes at an offset in a block. -/
theorem within_offset {k : UInt32} :
    Within base len (base + k) n ↔ n = 0 ∨ k.toNat + n.toNat ≤ len.toNat := by
  rw [Within, UInt32.add_comm base, UInt32.add_sub_cancel]

/-- Each of the bytes lies in the block. -/
theorem within_iff :
    Within base len a n ↔ ∀ x, (x - a).toNat < n.toNat → (x - base).toNat < len.toNat := by
  have ha := a.toNat_lt
  have hb := base.toNat_lt
  have hn := n.toNat_lt
  have hl := len.toNat_lt
  constructor
  · rintro (rfl | h) x hx
    · exact absurd hx (Nat.not_lt_zero _)
    · have hxl := x.toNat_lt
      rw [UInt32.toNat_sub] at h hx ⊢
      omega
  · intro h
    by_contra hnot
    rw [Within, not_or] at hnot
    obtain ⟨hne, hlt⟩ := hnot
    have hpos : 0 < n.toNat := Nat.pos_of_ne_zero fun h0 => hne (UInt32.toNat_inj.mp h0)
    by_cases hwrap : (a - base).toNat + n.toNat ≤ 4294967296
    · -- The last byte.
      have hlast := h (a + (n - 1))
      have hone : (1 : UInt32).toNat = 1 := rfl
      simp only [UInt32.toNat_sub, UInt32.toNat_add] at hlast hlt hwrap
      omega
    · -- The bytes go on past the end of the addresses, with the one before the block.
      have hbefore := h (base - 1)
      have hone : (1 : UInt32).toNat = 1 := rfl
      simp only [UInt32.toNat_sub] at hbefore hlt hwrap
      omega

end Within

/-- The access is a read of the file or a write to the memory of the process. -/
def Access.Inside (start size exec esize : UInt32) : Access → Prop
  | read a n => Within start size a n
  | write a n => Within exec esize a n

/-! ## The file -/

/-- A file of some size in memory. -/
structure Image where
  bytes : UInt32 → UInt8
  start : UInt32
  size : UInt32

namespace Image
variable (x : Image)

/-- `e_phnum`. -/
def phnum : ℕ := (halfAt x.bytes (x.start + ePhnum)).toNat

/-- The address of the program headers. -/
def phdr : UInt32 := x.start + wordAt x.bytes (x.start + ePhoff)

/-- A field of a program header. -/
def field (i : ℕ) (f : UInt32) : UInt32 := wordAt x.bytes (phdrField x.phdr i f)

/-- The segment is to be loaded. -/
def Loads (i : ℕ) : Prop := x.field i pType = ptLoad

/-- The segment is to be loaded and has more bytes in the file than in memory. -/
def Bad (i : ℕ) : Prop := x.Loads i ∧ x.field i pFilesz > x.field i pMemsz

instance (i : ℕ) : Decidable (x.Loads i) := inferInstanceAs (Decidable (_ = _))
instance (i : ℕ) : Decidable (x.Bad i) := inferInstanceAs (Decidable (_ ∧ _))

/-- `estart` after a segment. -/
def startOf (i : ℕ) (estart : UInt32) : UInt32 := if estart = 0 then x.field i pPaddr else estart

/-- What a segment adds to a sum. -/
def added (i : ℕ) (estart : UInt32) : UInt32 := (x.field i pPaddr - estart) + x.field i pMemsz

/-- `estart` and `esize` in the first loop before a segment. -/
def extent : ℕ → UInt32 × UInt32
  | 0 => (0, 0)
  | i + 1 =>
    if x.Loads i then
      (x.startOf i (extent i).1, (extent i).2 + x.added i (x.startOf i (extent i).1))
    else extent i

/-- The size of the memory of the process. -/
def esize : UInt32 := (x.extent x.phnum).2

/-- `estart` and `offset` before a segment, in a loop that starts with `acc`. -/
def placeFrom (acc : UInt32 × UInt32) : ℕ → UInt32 × UInt32
  | 0 => acc
  | i + 1 =>
    if x.Loads i ∧ x.field i pFilesz ≠ 0 then
      (x.startOf i (placeFrom acc i).1,
        (placeFrom acc i).2 + x.added i (x.startOf i (placeFrom acc i).1))
    else placeFrom acc i

/-- `estart` and `offset` in the second loop before a segment. -/
def place : ℕ → UInt32 × UInt32 := x.placeFrom (0, 0)

/-- All accesses so far were to the file and the memory of the process. -/
def Ok (exec : UInt32) (m : Memory) : Prop :=
  ∀ a ∈ m.log, a.Inside x.start x.size exec x.esize

/-- And the file is as it was. -/
def Good (exec : UInt32) (m : Memory) : Prop :=
  x.Ok exec m ∧ ∀ a, (a - x.start).toNat < x.size.toNat → m.bytes a = x.bytes a

end Image

section Accesses
variable {x : Image} {exec a src n : UInt32} {c : UInt8} {α : Type}

theorem Image.Good.ok (m : Memory) (h : x.Good exec m) : x.Ok exec m := h.1

/-- A further access. -/
theorem Image.ok_record {m : Memory} {v : Access} :
    x.Ok exec (m.record v) ↔ v.Inside x.start x.size exec x.esize ∧ x.Ok exec m := by
  rw [Image.Ok, Memory.record, List.forall_mem_cons]
  rfl

instance sticky_fetch {value : (UInt32 → UInt8) → UInt32 → α} :
    Call.Sticky (x.Ok exec) (fetch value n a) :=
  ⟨fun _ => ⟨_, _, rfl, fun h => (Image.ok_record.mp h).2⟩⟩

instance sticky_word : Call.Sticky (x.Ok exec) (word a) := sticky_fetch
instance sticky_half : Call.Sticky (x.Ok exec) (half a) := sticky_fetch

instance sticky_memset : Call.Sticky (x.Ok exec) (memset a c n) :=
  ⟨fun _ => ⟨_, _, rfl, fun h => (Image.ok_record.mp h).2⟩⟩

instance sticky_memmove : Call.Sticky (x.Ok exec) (memmove a src n) :=
  ⟨fun _ => ⟨_, _, rfl, fun h => (Image.ok_record.mp (Image.ok_record.mp h).2).2⟩⟩

instance sticky_memSetReadOnly : Call.Sticky (x.Ok exec) (memSetReadOnly a n) :=
  ⟨fun _ => ⟨_, _, rfl, id⟩⟩

/-- **A read** stays in the file exactly if its bytes do, and then it returns what is there. -/
theorem fetch_meets {value : (UInt32 → UInt8) → UInt32 → α}
    (hvalue : ∀ b b' : UInt32 → UInt8, (∀ y, (y - a).toNat < n.toNat → b y = b' y) →
      value b a = value b' a) :
    Call.Meets (x.Ok exec) (x.Good exec) (fetch value n a) (Within x.start x.size a n)
      (.ok (value x.bytes a)) := by
  intro m hm
  refine ⟨_, _, rfl, ?_, fun h => ⟨?_, ?_, hm.2⟩⟩
  · rw [Image.ok_record, and_iff_left hm.1]
    rfl
  · refine congrArg Except.ok (hvalue _ _ fun y hy => hm.2 y ?_)
    exact within_iff.mp h y hy
  · exact Image.ok_record.mpr ⟨h, hm.1⟩

/-- A byte behind an address. -/
theorem offset_lt {k : UInt32} (h : k < n) : (a + k - a).toNat < n.toNat := by
  have hcancel : a + k - a = k := by
    rw [UInt32.add_comm, UInt32.add_sub_cancel]
  rw [hcancel]
  exact UInt32.lt_iff_toNat_lt.mp h

/-- The value of four bytes. -/
theorem wordAt_congr {b b' : UInt32 → UInt8} (h : ∀ y, (y - a).toNat < 4 → b y = b' y) :
    wordAt b a = wordAt b' a := by
  have h0 := h (a + 0) (offset_lt (by decide : (0 : UInt32) < 4))
  rw [UInt32.add_zero] at h0
  rw [wordAt, wordAt, h0, h (a + 1) (offset_lt (by decide : (1 : UInt32) < 4)),
    h (a + 2) (offset_lt (by decide : (2 : UInt32) < 4)),
    h (a + 3) (offset_lt (by decide : (3 : UInt32) < 4))]

/-- The value of two bytes. -/
theorem halfAt_congr {b b' : UInt32 → UInt8} (h : ∀ y, (y - a).toNat < 2 → b y = b' y) :
    halfAt b a = halfAt b' a := by
  have h0 := h (a + 0) (offset_lt (by decide : (0 : UInt32) < 2))
  rw [UInt32.add_zero] at h0
  rw [halfAt, halfAt, h0, h (a + 1) (offset_lt (by decide : (1 : UInt32) < 2))]

theorem word_meets : Call.Meets (x.Ok exec) (x.Good exec) (word a) (Within x.start x.size a 4)
    (.ok (wordAt x.bytes a)) := fetch_meets fun _ _ => wordAt_congr

theorem half_meets : Call.Meets (x.Ok exec) (x.Good exec) (half a) (Within x.start x.size a 2)
    (.ok (halfAt x.bytes a)) := fetch_meets fun _ _ => halfAt_congr

/-- The memory of the process is not part of the file. -/
def Image.Apart (x : Image) (exec : UInt32) : Prop :=
  ∀ a, ¬ ((a - x.start).toNat < x.size.toNat ∧ (a - exec).toNat < x.esize.toNat)

end Accesses

/-! ## The loops -/

section Loops
variable {x : Image} {exec elfStart phdr : UInt32} {i fuel : ℕ} {estart : UInt32}
  {acc : UInt32 × UInt32} {τ : Type}

instance sticky_startAt : Call.Sticky (x.Ok exec) (startAt phdr i estart) := by
  rw [startAt]
  infer_instance

instance sticky_protectSegment {flags a n : UInt32} :
    Call.Sticky (x.Ok exec) (protectSegment flags a n) := by
  rw [protectSegment]
  infer_instance

instance sticky_sizeStep : Call.Sticky (x.Ok exec) (sizeStep phdr i acc) := by
  rw [sizeStep]
  infer_instance

instance sticky_zeroSegment {base memsz : UInt32} :
    Call.Sticky (x.Ok exec) (zeroSegment phdr base i acc memsz) := by
  rw [zeroSegment]
  infer_instance

instance sticky_copySegment {base filesz : UInt32} :
    Call.Sticky (x.Ok exec) (copySegment elfStart phdr base i acc filesz) := by
  rw [copySegment]
  infer_instance

instance sticky_copyStep {base : UInt32} :
    Call.Sticky (x.Ok exec) (copyStep elfStart phdr base i acc) := by
  rw [copyStep]
  infer_instance

instance sticky_keepSegment {base filesz : UInt32} :
    Call.Sticky (x.Ok exec) (keepSegment phdr base i acc filesz) := by
  rw [keepSegment]
  infer_instance

instance sticky_protectStep {base : UInt32} :
    Call.Sticky (x.Ok exec) (protectStep phdr base i acc) := by
  rw [protectStep]
  infer_instance

/-- The loop ends, since `e_phnum` has 16 bits. -/
theorem sticky_forPhdrs {body : ℕ → τ → LoadM τ} [∀ i acc, Call.Sticky (x.Ok exec) (body i acc)]
    {acc : τ} (hfuel : i + (fuel + 1) = 65536) :
    Call.Sticky (x.Ok exec) (forPhdrs elfStart body (fuel + 1) i acc) := by
  induction fuel generalizing i acc with
  | zero =>
      rw [forPhdrs]
      refine @Call.Sticky.bind _ _ _ _ _ _ _ sticky_half fun phnum => ?_
      have hlt : phnum.toNat < 65536 := UInt16.toNat_lt phnum
      rw [if_neg (by omega)]
      infer_instance
  | succ fuel ih =>
      rw [forPhdrs]
      have hrest : ∀ acc, Call.Sticky (x.Ok exec) (forPhdrs elfStart body (fuel + 1) (i + 1) acc) :=
        fun acc => ih (by omega)
      infer_instance

instance sticky_forPhdrs_start {body : ℕ → τ → LoadM τ}
    [∀ i acc, Call.Sticky (x.Ok exec) (body i acc)] {acc : τ} :
    Call.Sticky (x.Ok exec) (forPhdrs elfStart body phdrFuel 0 acc) :=
  sticky_forPhdrs (by rfl)

end Loops

/-! ## The header -/

section Header
variable {x : Image} {exec : UInt32} {m m' : Memory} {u : Unit}

/-- A byte of the header. -/
theorem header_within {k n : UInt32} (hx : 46 ≤ x.size.toNat) (hk : k.toNat + n.toNat ≤ 46) :
    Within x.start x.size (x.start + k) n :=
  within_offset.mpr (.inr (hk.trans hx))

instance sticky_checkMagic {hdr i : UInt32} {magic : UInt8} :
    Call.Sticky (x.Ok exec) (checkMagic hdr i magic) := by
  have hbyte : ∀ a, Call.Sticky (x.Ok exec) (byte a) := fun _ => sticky_fetch
  rw [checkMagic]
  infer_instance

/-- What `is_image_valid` finds in the header. -/
structure Image.Valid (x : Image) : Prop where
  start : x.start ≠ 0
  mag0 : x.bytes (x.start + 0) = 0x7f
  mag1 : x.bytes (x.start + 1) = 0x45
  mag2 : x.bytes (x.start + 2) = 0x4c
  mag3 : x.bytes (x.start + 3) = 0x46
  phoff : wordAt x.bytes (x.start + ePhoff) ≠ 0
  phnum : halfAt x.bytes (x.start + ePhnum) ≠ 0
  phentsize : halfAt x.bytes (x.start + ePhentsize) = 32
  type : halfAt x.bytes (x.start + eType) = 2
  machine : halfAt x.bytes (x.start + eMachine) = 3

/-- Checks of the header that all come out well. -/
structure Passes (x : Image) (exec : UInt32) (checks : LoadM Unit) (c : Prop) : Prop where
  sticky : Call.Sticky (x.Ok exec) checks
  meets : Call.Meets (x.Ok exec) (x.Good exec) checks c (.ok ())

theorem require_passes {p : Prop} [Decidable p] {e : String} {rest : LoadM Unit} {d : Prop}
    (h : p) (hrest : Passes x exec rest d) :
    Passes x exec (Call.require p e >>= fun _ => rest) d := by
  have hsticky := hrest.sticky
  exact ⟨inferInstance, (Call.Meets.require_of_pos Image.Good.ok h e).bind_known trivial hrest.meets⟩

section Check
variable {α : Type} [DecidableEq α] {read : LoadM α} {c d : Prop} {v w : α} {e : String}
  {rest : LoadM Unit} [Call.Sticky (x.Ok exec) read]

/-- A field of the header that is as it should be, and the checks after it. -/
theorem check_passes (hread : Call.Meets (x.Ok exec) (x.Good exec) read c (.ok v)) (hv : v = w)
    (hrest : Passes x exec rest d) :
    Passes x exec (read >>= fun u => Call.require (u = w) e >>= fun _ => rest) (c ∧ d) := by
  have hsticky := hrest.sticky
  exact ⟨inferInstance, hread.bind fun _ => (require_passes hv hrest).meets⟩

/-- A field of the header that must have another value than `w`. -/
theorem check_ne_passes (hread : Call.Meets (x.Ok exec) (x.Good exec) read c (.ok v)) (hv : v ≠ w)
    (hrest : Passes x exec rest d) :
    Passes x exec (read >>= fun u => Call.require (u ≠ w) e >>= fun _ => rest) (c ∧ d) := by
  have hsticky := hrest.sticky
  exact ⟨inferInstance, hread.bind fun _ => (require_passes hv hrest).meets⟩

end Check

theorem checkMagic_passes {i : UInt32} {magic : UInt8} {rest : LoadM Unit} {d : Prop}
    (h : x.bytes (x.start + i) = magic) (hrest : Passes x exec rest d) :
    Passes x exec (checkMagic x.start i magic >>= fun _ => rest)
      (Within x.start x.size (x.start + i) 1 ∧ d) := by
  have hbyte : Call.Meets (x.Ok exec) (x.Good exec) (byte (x.start + i))
      (Within x.start x.size (x.start + i) 1) (.ok (x.bytes (x.start + i))) := by
    refine fetch_meets fun b b' heq => ?_
    have h0 := heq (x.start + i + 0) (offset_lt (by decide))
    rwa [UInt32.add_zero] at h0
  have hsticky : Call.Sticky (x.Ok exec) (byte (x.start + i)) := sticky_fetch
  rw [checkMagic, Call.bind_assoc]
  exact check_passes hbyte h hrest

/-- **`is_image_valid`** reads the header up to `e_phnum`. -/
theorem isImageValid_passes (h : x.Valid) :
    Passes x exec (isImageValid x.start) (46 ≤ x.size.toNat) := by
  have hlast : Passes x exec (half (x.start + eMachine) >>= fun machine =>
      Call.require (machine = 3) "is_image_valid:: run architecture (not x86)\n")
      (Within x.start x.size (x.start + eMachine) 2 ∧ True) :=
    ⟨inferInstance, half_meets.bind fun _ => .require_of_pos Image.Good.ok h.machine _⟩
  have hfields := check_ne_passes (e := "is_image_valid:: e_phoff == 0 || e_phnum == 0\n")
    word_meets h.phoff <|
    check_ne_passes (e := "is_image_valid:: e_phoff == 0 || e_phnum == 0\n")
      half_meets h.phnum <|
    check_passes (e := "is_image_valid:: e_phentsize!=sizeof Elf32_Phdr\n")
      half_meets h.phentsize <|
    check_passes (e := "is_image_valid:: ELF not an executable\n") half_meets h.type hlast
  have hchecks : Passes x exec (isImageValid x.start) _ :=
    require_passes h.start <| checkMagic_passes h.mag0 <| checkMagic_passes h.mag1 <|
      checkMagic_passes h.mag2 <| checkMagic_passes h.mag3 hfields
  refine ⟨hchecks.sticky, hchecks.meets.congr ⟨?_, fun hx => ?_⟩⟩
  · rintro ⟨-, -, -, -, -, hphnum, -⟩
    exact (within_offset.mp hphnum).resolve_left (by decide)
  · have hwithin := @header_within x
    exact ⟨hwithin hx (by decide), hwithin hx (by decide), hwithin hx (by decide),
      hwithin hx (by decide), hwithin hx (by decide), hwithin hx (by decide),
      hwithin hx (by decide), hwithin hx (by decide), hwithin hx (by decide), trivial⟩

end Header

/-! ## The whole of it -/

section Load
variable {x : Image} {exec : UInt32} {malloc : UInt32 → UInt32}

/-- What `image_load` returns; the third loop has gone on with the sums of the second one. -/
def Image.loaded (x : Image) (exec : UInt32) : Loaded :=
  ⟨(wordAt x.bytes (x.start + eEntry) - (x.placeFrom (x.place x.phnum) x.phnum).1) + exec, exec,
    x.esize⟩

/-- What comes of a file whose header is in order. -/
def Image.result (x : Image) (exec : UInt32) : Except String Loaded :=
  if exec = 0 then .error "image_load:: error allocating memory\n"
  else if ∃ i < x.phnum, x.Bad i then .error "image_load:: p_filesz > p_memsz\n"
  else .ok (x.loaded exec)

instance sticky_loadAt {elfStart base esize : UInt32} :
    Call.Sticky (x.Ok exec) (loadAt elfStart base esize) := by
  rw [loadAt]
  infer_instance

end Load

end OxKernel.Kernel
