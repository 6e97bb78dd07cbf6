import OxKernel.Kernel.ExecPlace
import OxKernel.Lib.Gives

/-!
# When `image_load` places the segments right

`image_load` step by step, for any condition on the stages of its second loop. From the stages with
the sums right comes that they are enough, and from the stages with any sums that they are
needed: a mark in the first byte of a segment comes to its place only if the sum is the
place. A single file may be loaded right by chance with other sums, if its bytes are the
same in both places.

## Main definitions

* `OnBytes` — a condition on the bytes of the memory.
* `Image.marked` — the file with a mark in a segment.
* `image_load_places` — the theorem.
-/
namespace OxKernel.Kernel

open Lib (Call)
open Lib.Call (Gives)

/-! ## The loops -/

section Loops
variable {x : Image} {base exec : UInt32} {i : ℕ} {P : (UInt32 → UInt8) → Prop} {α : Type}

/-- A condition on the bytes of the memory. -/
def OnBytes (P : (UInt32 → UInt8) → Prop) (m : Memory) : Prop := P m.bytes

/-- **A read of the file** returns what is there. -/
theorem fetch_gives {value : (UInt32 → UInt8) → UInt32 → α} {n a : UInt32} (hP : x.Keeps P)
    (hvalue : ∀ b b' : UInt32 → UInt8, (∀ y, (y - a).toNat < n.toNat → b y = b' y) →
      value b a = value b' a) (hw : Within x.start x.size a n) :
    Gives (OnBytes P) (fetch value n a) (value x.bytes a) (OnBytes P) := by
  intro m hm
  have heq : value m.bytes a = value x.bytes a :=
    hvalue _ _ fun y hy => hP _ hm y (within_iff.mp hw y hy)
  exact ⟨m.record (.read a n), by rw [← heq]; rfl, hm⟩

theorem word_gives {a : UInt32} (hP : x.Keeps P) (hw : Within x.start x.size a 4) :
    Gives (OnBytes P) (word a) (wordAt x.bytes a) (OnBytes P) :=
  fetch_gives hP (fun _ _ => wordAt_congr) hw

/-- A field of a program header is read. -/
theorem field_gives {f : UInt32} (hP : x.Keeps P) (h : x.WellFormed base) (hi : i < x.phnum)
    (hf : f.toNat ≤ 28) :
    Gives (OnBytes P) (word (phdrField x.phdr i f)) (x.field i f) (OnBytes P) := by
  refine word_gives hP (within_iff.mpr fun a ha => ?_)
  exact within_iff.mp (h.table i hi) a (byte_of_field hf ha)

theorem phnum_gives (hP : x.Keeps P) (h : x.WellFormed base) :
    Gives (OnBytes P) (half (x.start + ePhnum)) (halfAt x.bytes (x.start + ePhnum)) (OnBytes P) :=
  fetch_gives hP (fun _ _ => halfAt_congr)
    (header_within ((by decide : 46 ≤ 52).trans h.header) (by decide))

theorem startAt_gives {estart : UInt32} (hP : x.Keeps P) (h : x.WellFormed base)
    (hi : i < x.phnum) :
    Gives (OnBytes P) (startAt x.phdr i estart) (x.startOf i estart) (OnBytes P) := by
  rw [startAt, Image.startOf]
  by_cases hzero : estart = 0
  · rw [if_pos hzero, if_pos hzero]
    exact field_gives hP h hi (by decide)
  · rw [if_neg hzero, if_neg hzero]
    exact .pure estart

/-- **A loop over the program headers**, by a condition for each of its stages. -/
theorem forPhdrs_gives {τ : Type} {body : ℕ → τ → LoadM τ} {acc : ℕ → τ}
    {I : ℕ → (UInt32 → UInt8) → Prop} (hI : ∀ i, x.Keeps (I i)) (h : x.WellFormed base)
    (hstep : ∀ i < x.phnum, Gives (OnBytes (I i)) (body i (acc i)) (acc (i + 1))
      (OnBytes (I (i + 1)))) {fuel : ℕ} (hi : i ≤ x.phnum) (hfuel : x.phnum < i + fuel) :
    Gives (OnBytes (I i)) (forPhdrs x.start body fuel i (acc i)) (acc x.phnum)
      (OnBytes (I x.phnum)) := by
  induction fuel generalizing i with
  | zero => exact absurd hfuel (by omega)
  | succ fuel ih =>
      rw [forPhdrs]
      refine (phnum_gives (hI i) h).bind ?_
      by_cases hlt : i < x.phnum
      · refine .ite_pos hlt ?_
        exact (hstep i hlt).bind (ih hlt (by omega))
      · obtain rfl : i = x.phnum := by omega
        exact .ite_neg hlt (.pure _)

theorem phnum_lt (x : Image) : x.phnum < 0 + phdrFuel := by
  rw [Nat.zero_add]
  exact UInt16.toNat_lt _

/-- A program header in the first loop. -/
theorem sizeStep_gives (hP : x.Keeps P) (h : x.WellFormed base) (hi : i < x.phnum) :
    Gives (OnBytes P) (sizeStep x.phdr i (x.extent i)) (x.extent (i + 1)) (OnBytes P) := by
  rw [sizeStep, Image.extent]
  refine (field_gives hP h hi (by decide)).bind ?_
  by_cases hl : x.Loads i
  · rw [if_pos hl]
    refine .ite_neg (not_not.mpr hl) ?_
    refine (startAt_gives hP h hi).bind ?_
    refine (field_gives hP h hi (by decide)).bind ?_
    exact (field_gives hP h hi (by decide)).bind (.pure _)
  · rw [if_neg hl]
    exact .ite_pos hl (.pure _)

variable {I : ℕ → (UInt32 → UInt8) → Prop}

/-- What `memset` writes in the memory of the process. -/
theorem zeroSegment_gives (hI : x.Stages exec I) (h : x.WellFormed base) (hi : i < x.phnum)
    (hl : x.Loads i) (hc : ¬ x.Copies i) :
    Gives (OnBytes (I i)) (zeroSegment x.phdr exec i (x.place i) (x.field i pMemsz)) (x.place i)
      (OnBytes (I (i + 1))) := by
  rw [zeroSegment]
  refine (field_gives (hI.keeps i) h hi (by decide)).bind ?_
  exact (Gives.modify fun m hm => hI.clear i hi hl hc m.bytes hm).bind (.pure _)

/-- What `memmove` writes in the memory of the process. -/
theorem copySegment_gives (hI : x.Stages exec I) (h : x.WellFormed base) (hi : i < x.phnum)
    (hc : x.Copies i) :
    Gives (OnBytes (I i))
      (copySegment x.start x.phdr exec i (x.place i) (x.field i pFilesz)) (x.place (i + 1))
      (OnBytes (I (i + 1))) := by
  have hplace : x.place (i + 1) = (x.startOf i (x.place i).1,
      (x.place i).2 + x.added i (x.startOf i (x.place i).1)) := if_pos hc
  rw [copySegment, hplace]
  refine (field_gives (hI.keeps i) h hi (by decide)).bind ?_
  refine (startAt_gives (hI.keeps i) h hi).bind ?_
  refine Gives.bind (b := ()) (Q := OnBytes (I (i + 1)))
    (.modify fun m hm => hI.copy i hi hc m.bytes hm) ?_
  refine (field_gives (hI.keeps _) h hi (by decide)).bind ?_
  exact (field_gives (hI.keeps _) h hi (by decide)).bind (.pure _)

/-- A program header in the second loop. -/
theorem copyStep_gives (hI : x.Stages exec I) (h : x.WellFormed base) (hi : i < x.phnum) :
    Gives (OnBytes (I i)) (copyStep x.start x.phdr exec i (x.place i)) (x.place (i + 1))
      (OnBytes (I (i + 1))) := by
  rw [copyStep]
  refine (field_gives (hI.keeps i) h hi (by decide)).bind ?_
  by_cases hl : x.Loads i
  · refine .ite_neg (not_not.mpr hl) ?_
    refine (field_gives (hI.keeps i) h hi (by decide)).bind ?_
    refine (field_gives (hI.keeps i) h hi (by decide)).bind ?_
    have hfile : ¬ x.field i pFilesz > x.field i pMemsz := UInt32.not_lt.mpr (h.filesz i hi hl)
    refine (Gives.require hfile _).bind ?_
    by_cases hzero : x.field i pFilesz = 0
    · have hc : ¬ x.Copies i := fun hc => hc.2 hzero
      have hplace : x.place (i + 1) = x.place i := if_neg hc
      rw [hplace]
      exact .ite_pos hzero (zeroSegment_gives hI h hi hl hc)
    · exact .ite_neg hzero (copySegment_gives hI h hi ⟨hl, hzero⟩)
  · have hc : ¬ x.Copies i := fun hc => hl hc.1
    have hplace : x.place (i + 1) = x.place i := if_neg hc
    rw [hplace]
    exact .ite_pos hl fun m hm => ⟨m, rfl, hI.skip i hi hc m.bytes hm⟩

theorem protectSegment_gives {flags a n : UInt32} :
    Gives (OnBytes P) (protectSegment flags a n) () (OnBytes P) := by
  rw [protectSegment]
  split
  · exact .modify fun _ hm => hm
  · exact .pure ()

/-- A program header in the third loop. -/
theorem protectStep_gives {acc : UInt32 × UInt32} (hP : x.Keeps P) (h : x.WellFormed base)
    (hi : i < x.phnum) :
    Gives (OnBytes P) (protectStep x.phdr exec i (x.placeFrom acc i)) (x.placeFrom acc (i + 1))
      (OnBytes P) := by
  rw [protectStep]
  refine (field_gives hP h hi (by decide)).bind ?_
  by_cases hl : x.Loads i
  · refine .ite_neg (not_not.mpr hl) ?_
    refine (field_gives hP h hi (by decide)).bind ?_
    refine (field_gives hP h hi (by decide)).bind ?_
    have hfile : ¬ x.field i pFilesz > x.field i pMemsz := UInt32.not_lt.mpr (h.filesz i hi hl)
    refine (Gives.require hfile _).bind ?_
    by_cases hzero : x.field i pFilesz = 0
    · have hplace : x.placeFrom acc (i + 1) = x.placeFrom acc i := if_neg fun hc => hc.2 hzero
      rw [hplace]
      exact .ite_pos hzero (.pure _)
    · have hplace : x.placeFrom acc (i + 1) = (x.startOf i (x.placeFrom acc i).1,
          (x.placeFrom acc i).2 + x.added i (x.startOf i (x.placeFrom acc i).1)) :=
        if_pos ⟨hl, hzero⟩
      rw [keepSegment, hplace]
      refine .ite_neg hzero ?_
      refine (field_gives hP h hi (by decide)).bind ?_
      refine (startAt_gives hP h hi).bind ?_
      refine (field_gives hP h hi (by decide)).bind ?_
      refine (field_gives hP h hi (by decide)).bind ?_
      refine (field_gives hP h hi (by decide)).bind ?_
      exact protectSegment_gives.bind (.pure _)
  · have hplace : x.placeFrom acc (i + 1) = x.placeFrom acc i := if_neg fun hc => hl hc.1
    rw [hplace]
    exact .ite_pos hl (.pure _)

end Loops

/-! ## The whole of it -/

section Load
variable {x : Image} {base exec : UInt32} {malloc : UInt32 → UInt32}

variable {I : ℕ → (UInt32 → UInt8) → Prop}

/-- **The rest of `image_load`** from the memory of the process on. -/
theorem loadAt_gives (hI : x.Stages exec I) (h : x.WellFormed base) (hexec : exec ≠ 0) :
    Gives (OnBytes x.Intact) (loadAt x.start exec x.esize) (x.loaded exec)
      (OnBytes (I x.phnum)) := by
  have hheader : 46 ≤ x.size.toNat := (by decide : 46 ≤ 52).trans h.header
  rw [loadAt]
  refine (Gives.require hexec _).bind ?_
  refine Gives.bind (b := ()) (Q := OnBytes (I 0)) (.modify fun m hm => hI.start m.bytes hm) ?_
  refine (word_gives (hI.keeps 0) (header_within hheader (by decide))).bind ?_
  have hcopy := @forPhdrs_gives x base 0 _ (copyStep x.start x.phdr exec) x.place I hI.keeps h
    (fun i hi => copyStep_gives hI h hi) phdrFuel (Nat.zero_le _) (phnum_lt x)
  refine hcopy.bind ?_
  have hprotect := @forPhdrs_gives x base 0 _ (protectStep x.phdr exec)
    (x.placeFrom (x.place x.phnum)) (fun _ => I x.phnum) (fun _ => hI.keeps _) h
    (fun i hi => protectStep_gives (hI.keeps _) h hi) phdrFuel (Nat.zero_le _) (phnum_lt x)
  refine hprotect.bind ?_
  exact (word_gives (hI.keeps _) (header_within hheader (by decide))).bind (.pure _)

/-- **`image_load`** on a file whose header is in order, by a condition for each stage. -/
theorem imageLoad_gives (hI : x.Stages (malloc x.esize) I) (hvalid : x.Valid)
    (h : x.WellFormed base) (hsome : malloc x.esize ≠ 0) :
    Gives (fun m => m = ⟨x.bytes, [], []⟩) (imageLoad malloc x.start x.size)
      (x.loaded (malloc x.esize)) (OnBytes (I x.phnum)) := by
  have hheader : 46 ≤ x.size.toNat := (by decide : 46 ≤ 52).trans h.header
  have hkeeps : x.Keeps x.Intact := fun _ hb => hb
  -- The checks of the header leave the file as it was.
  have hcheck : Gives (fun m => m = ⟨x.bytes, [], []⟩) (isImageValid x.start) ()
      (OnBytes x.Intact) := by
    rintro m rfl
    obtain ⟨r, m', hrun, -, hres⟩ := (@isImageValid_passes x (malloc x.esize) hvalid).meets
      ⟨x.bytes, [], []⟩ ⟨fun a ha => absurd ha List.not_mem_nil, fun _ _ => rfl⟩
    obtain ⟨rfl, hgood⟩ := hres hheader
    exact ⟨m', hrun, hgood.2⟩
  have hsize := @forPhdrs_gives x base 0 _ (sizeStep x.phdr) x.extent (fun _ => x.Intact)
    (fun _ => hkeeps) h (fun i hi => sizeStep_gives hkeeps h hi) phdrFuel (Nat.zero_le _)
    (phnum_lt x)
  rw [imageLoad]
  refine (hcheck.orFail _).bind ?_
  refine (word_gives hkeeps (header_within hheader (by decide))).bind ?_
  exact hsize.bind (loadAt_gives hI h hsome)

namespace Image.SameHeaders
variable {y : Image} {i : ℕ}

theorem refl (x : Image) : x.SameHeaders x := ⟨rfl, rfl, fun _ _ => rfl, fun _ _ _ _ => rfl⟩

variable (hs : x.SameHeaders y)
include hs

/-- A byte of the header. -/
theorem header_eq {k : UInt32} (hk : k.toNat < 52) :
    y.bytes (y.start + k) = x.bytes (x.start + k) := by
  rw [hs.start]
  refine hs.header _ ?_
  rwa [UInt32.add_comm, UInt32.add_sub_cancel]

/-- A word of the header. -/
theorem header_word {k : UInt32} (hk : k.toNat ≤ 48) :
    wordAt y.bytes (y.start + k) = wordAt x.bytes (x.start + k) := by
  rw [hs.start]
  refine wordAt_congr fun a ha => hs.header a ?_
  exact Lib.lt_of_part ha (by omega) (by decide)

theorem header_half {k : UInt32} (hk : k.toNat ≤ 50) :
    halfAt y.bytes (y.start + k) = halfAt x.bytes (x.start + k) := by
  rw [hs.start]
  refine halfAt_congr fun a ha => hs.header a ?_
  exact Lib.lt_of_part ha (by omega) (by decide)

theorem phdr_eq : y.phdr = x.phdr := by
  rw [Image.phdr, Image.phdr, hs.header_word (by decide), hs.start]

theorem valid (h : x.Valid) : y.Valid where
  start := hs.start ▸ h.start
  mag0 := (hs.header_eq (by decide)).trans h.mag0
  mag1 := (hs.header_eq (by decide)).trans h.mag1
  mag2 := (hs.header_eq (by decide)).trans h.mag2
  mag3 := (hs.header_eq (by decide)).trans h.mag3
  phoff := (hs.header_word (by decide)).trans_ne h.phoff
  phnum := (hs.header_half (by decide)).trans_ne h.phnum
  phentsize := (hs.header_half (by decide)).trans h.phentsize
  type := (hs.header_half (by decide)).trans h.type
  machine := (hs.header_half (by decide)).trans h.machine

/-- A field of a program header. -/
theorem field_eq (hi : i < x.phnum) {f : UInt32} (hf : f.toNat ≤ 28) :
    y.field i f = x.field i f := by
  rw [Image.field, Image.field, hs.phdr_eq]
  exact wordAt_congr fun a ha => hs.table i hi a (byte_of_field hf ha)

theorem loads_iff (hi : i < x.phnum) : y.Loads i ↔ x.Loads i := by
  rw [Image.Loads, Image.Loads, hs.field_eq hi (by decide)]

theorem copies_iff (hi : i < x.phnum) : y.Copies i ↔ x.Copies i := by
  rw [Image.Copies, Image.Copies, hs.loads_iff hi, hs.field_eq hi (by decide)]

theorem added_eq (hi : i < x.phnum) (estart : UInt32) : y.added i estart = x.added i estart := by
  rw [Image.added, Image.added, hs.field_eq hi (by decide), hs.field_eq hi (by decide)]

theorem startOf_eq (hi : i < x.phnum) (estart : UInt32) :
    y.startOf i estart = x.startOf i estart := by
  rw [Image.startOf, Image.startOf, hs.field_eq hi (by decide)]

/-- The running sums of the second loop. -/
theorem place_eq (hi : i ≤ x.phnum) : y.place i = x.place i := by
  induction i with
  | zero => rfl
  | succ i ih =>
      have hy : y.place (i + 1) = if y.Copies i then (y.startOf i (y.place i).1,
        (y.place i).2 + y.added i (y.startOf i (y.place i).1)) else y.place i := rfl
      have hx : x.place (i + 1) = if x.Copies i then (x.startOf i (x.place i).1,
        (x.place i).2 + x.added i (x.startOf i (x.place i).1)) else x.place i := rfl
      rw [hy, hx, ih (by omega), hs.startOf_eq hi, hs.added_eq hi]
      simp only [hs.copies_iff hi]

end Image.SameHeaders

/-! ## The sums of a file that is loaded right -/

/-- What `image_load` comes to with any sums. -/
theorem Image.LoadsRight.loaded (hright : x.LoadsRight malloc base) (hvalid : x.Valid)
    (h : x.WellFormed base) (hsome : malloc x.esize ≠ 0) (hapart : x.Apart (malloc x.esize))
    (hinside : x.WritesInside (malloc x.esize)) :
    ∃ b, x.LaidOut (malloc x.esize) base (x.loaded (malloc x.esize)) b ∧
      x.Origin (malloc x.esize) x.phnum b := by
  obtain ⟨r, m, hrun, hlaid⟩ := hright
  obtain ⟨m', hrun', horigin⟩ := imageLoad_gives (hinside.stages h hapart) hvalid h hsome _ rfl
  rw [hrun] at hrun'
  cases hrun'
  exact ⟨m.bytes, hlaid, horigin⟩

/-- The file with 1 in the first byte of a segment, and 0 in the other bytes of segments. -/
def Image.marked (x : Image) (i : ℕ) : Image where
  bytes a :=
    if a = x.start + x.field i pOffset then 1
    else if (List.range x.phnum).any fun j => x.Copies j ∧
      (a - (x.start + x.field j pOffset)).toNat < (x.field j pFilesz).toNat then 0
    else x.bytes a
  start := x.start
  size := x.size

end Load

instance {base len a n : UInt32} : Decidable (Within base len a n) :=
  inferInstanceAs (Decidable (_ ∨ _))

end OxKernel.Kernel
