import OxKernel.Kernel.ExecSafety
import Mathlib

/-!
# Where the segments of a file are put

A program expects each of its segments as far from the first one as the addresses in the program
headers are. `image_load` instead puts a segment behind a running sum of distances and sizes,
which is the right place for the first two segments if they follow each other, and otherwise
only if the gaps happen to make up for it. The condition here is that the sums come out
right. The memory of the process is followed through the stages of the second loop twice: with the
sums right, where it holds what the program expects, and with any sums, where at least it
holds nothing but what was copied.

## Main definitions

* `Image.WellFormed` — files whose header and segments are in order.
* `Image.PlacedRight` — the condition on the program headers.
* `Image.LoadsRight` — `image_load` leaves the memory that the program expects.
* `Image.SameHeaders` — files that differ in the bytes of their segments only.
* `Image.Stages` — what a condition for each stage has to do.
-/
namespace OxKernel.Kernel

open Lib (Call)

namespace Image
variable (x : Image)

/-- The segment has bytes in the file, which are copied. -/
def Copies (i : ℕ) : Prop := x.Loads i ∧ x.field i pFilesz ≠ 0

instance (i : ℕ) : Decidable (x.Copies i) := inferInstanceAs (Decidable (_ ∧ _))

/-- The place of a segment in a process whose first segment has the address `base`. -/
def slot (base : UInt32) (i : ℕ) : UInt32 := x.field i pPaddr - base

/-- What a segment adds to a sum that does not wrap. -/
def span (base : UInt32) (i : ℕ) : ℕ := (x.slot base i).toNat + (x.field i pMemsz).toNat

/-- The headers and the segments lie in the file; the segments to be loaded are in ascending
order, do not overlap, and the first one has the address `base`. -/
structure WellFormed (base : UInt32) : Prop where
  header : 52 ≤ x.size.toNat
  table : ∀ i < x.phnum, Within x.start x.size (phdrField x.phdr i 0) phdrSize
  data : ∀ i < x.phnum, x.Loads i →
    Within x.start x.size (x.start + x.field i pOffset) (x.field i pFilesz)
  filesz : ∀ i < x.phnum, x.Loads i → x.field i pFilesz ≤ x.field i pMemsz
  ascending : ∀ j < x.phnum, ∀ i < j, x.Loads i → x.Loads j →
    (x.field i pPaddr).toNat + (x.field i pMemsz).toNat ≤ (x.field j pPaddr).toNat
  top : ∀ i < x.phnum, x.Loads i →
    (x.field i pPaddr).toNat + (x.field i pMemsz).toNat ≤ 2 ^ 32
  first : ∃ i < x.phnum, x.Loads i ∧ (∀ j < i, ¬ x.Loads j) ∧ x.field i pPaddr = base
  base : base ≠ 0

/-- **The condition on the program headers**: the first segment with bytes in the file has the
address `base`, the place of each segment with bytes in the file is what the ones before it
add up to in 32 bits, and what all segments add up to in 32 bits covers each of them. -/
structure PlacedRight (base : UInt32) : Prop where
  first : ∃ i < x.phnum, x.Copies i ∧ (∀ j < i, ¬ x.Copies j) ∧ x.field i pPaddr = base
  sums : ∀ i < x.phnum, x.Copies i →
    x.slot base i = .ofNat (∑ j ∈ Finset.range i with x.Copies j, x.span base j)
  room : ∀ i < x.phnum, x.Loads i →
    x.span base i ≤ (∑ j ∈ Finset.range x.phnum with x.Loads j, x.span base j) % 2 ^ 32

/-- What `image_load` returned and left in memory is as the program expects it: the process
starts at its entry, and each segment is in its place, first the bytes from the file and then
zeros. -/
structure LaidOut (exec base : UInt32) (r : Loaded) (bytes : UInt32 → UInt8) : Prop where
  execMem : r.execMem = exec
  entry : r.entry = exec + (wordAt x.bytes (x.start + eEntry) - base)
  covers : ∀ i < x.phnum, x.Loads i → x.span base i ≤ r.execSize.toNat
  copied : ∀ i < x.phnum, x.Loads i → ∀ k < (x.field i pFilesz).toNat,
    bytes (exec + x.slot base i + .ofNat k) =
      x.bytes (x.start + x.field i pOffset + .ofNat k)
  zeroed : ∀ i < x.phnum, x.Loads i → ∀ k < (x.field i pMemsz).toNat,
    (x.field i pFilesz).toNat ≤ k → bytes (exec + x.slot base i + .ofNat k) = 0

/-- `image_load` returns, and what it has done is as the program expects it. -/
def LoadsRight (malloc : UInt32 → UInt32) (base : UInt32) : Prop :=
  ∃ r m, imageLoad malloc x.start x.size ⟨x.bytes, [], []⟩ = some (.ok r, m) ∧
    x.LaidOut (malloc x.esize) base r m.bytes

/-- Another file with the same header and the same program headers. -/
structure SameHeaders (y : Image) : Prop where
  start : y.start = x.start
  size : y.size = x.size
  header : ∀ a, (a - x.start).toNat < 52 → y.bytes a = x.bytes a
  table : ∀ i < x.phnum, ∀ a, (a - phdrField x.phdr i 0).toNat < 32 → y.bytes a = x.bytes a

/-- The second loop writes the memory of the process only. -/
structure WritesInside (exec : UInt32) : Prop where
  zeroed : ∀ i < x.phnum, x.Loads i → x.field i pFilesz = 0 →
    Within exec x.esize (exec + (x.field i pPaddr - (x.place i).1)) (x.field i pMemsz)
  target : ∀ i < x.phnum, x.Copies i →
    Within exec x.esize (exec + (x.place i).2) (x.field i pFilesz)

end Image

/-! ## The sums -/

section Sums
variable {x : Image} {base : UInt32} {i j : ℕ}

theorem Image.added_eq : x.added i base = .ofNat (x.span base i) := by
  rw [Image.added, Image.span, UInt32.ofNat_add, UInt32.ofNat_toNat, UInt32.ofNat_toNat]
  rfl

/-- The running sums over the segments with a property, the first of which has the address
`base`. -/
theorem sums_eq {acc : ℕ → UInt32 × UInt32} {p : ℕ → Prop} [DecidablePred p] {first : ℕ}
    (hzero : acc 0 = (0, 0))
    (hsucc : ∀ i, acc (i + 1) = if p i then
      (x.startOf i (acc i).1, (acc i).2 + x.added i (x.startOf i (acc i).1)) else acc i)
    (hfirst : p first) (hbefore : ∀ j < first, ¬ p j) (hpaddr : x.field first pPaddr = base)
    (hbase : base ≠ 0) (i : ℕ) :
    acc i = (if first < i then base else 0,
      .ofNat (∑ j ∈ Finset.range i with p j, x.span base j)) := by
  induction i with
  | zero => simpa using hzero
  | succ i ih =>
      rw [hsucc, ih, Finset.range_add_one, Finset.filter_insert]
      by_cases hp : p i
      · have hstart : x.startOf i (if first < i then base else 0) = base := by
          rw [Image.startOf]
          rcases Nat.lt_trichotomy i first with hlt | rfl | hgt
          · exact absurd hp (hbefore i hlt)
          · simp [hpaddr]
          · simp [hgt, hbase]
        have hle : first < i + 1 := by
          by_contra hnot
          exact hbefore i (by omega) hp
        rw [if_pos hp, if_pos hp, hstart, if_pos hle, Image.added_eq, Finset.sum_insert (by simp),
          UInt32.ofNat_add, UInt32.add_comm]
      · have hiff : first < i + 1 ↔ first < i := by
          constructor
          · intro h
            refine lt_of_le_of_ne (Nat.le_of_lt_succ h) fun heq => hp (heq ▸ hfirst)
          · exact fun h => by omega
        rw [if_neg hp, if_neg hp]
        simp [hiff]

/-- What the first loop comes to. -/
theorem Image.WellFormed.extent_eq (h : x.WellFormed base) :
    x.esize = .ofNat (∑ j ∈ Finset.range x.phnum with x.Loads j, x.span base j) := by
  obtain ⟨first, -, hload, hbefore, hpaddr⟩ := h.first
  have hsums := @sums_eq x base x.extent x.Loads _ first rfl (fun _ => rfl) hload hbefore hpaddr
    h.base
  rw [Image.esize, hsums]

/-- The memory of the process covers every segment. -/
theorem Image.PlacedRight.span_le (h : x.WellFormed base) (hr : x.PlacedRight base)
    (hi : i < x.phnum) (hl : x.Loads i) : x.span base i ≤ x.esize.toNat := by
  rw [h.extent_eq, UInt32.toNat_ofNat']
  exact hr.room i hi hl

/-- What the second loop has come to before a segment. -/
theorem Image.PlacedRight.place_eq (h : x.WellFormed base) (hr : x.PlacedRight base) :
    ∃ first < x.phnum, x.Copies first ∧ (∀ j < first, ¬ x.Copies j) ∧
      x.field first pPaddr = base ∧
      ∀ i, x.place i = (if first < i then base else 0,
        .ofNat (∑ j ∈ Finset.range i with x.Copies j, x.span base j)) := by
  obtain ⟨first, hlt, hcopies, hbefore, hpaddr⟩ := hr.first
  exact ⟨first, hlt, hcopies, hbefore, hpaddr,
    sums_eq rfl (fun _ => rfl) hcopies hbefore hpaddr h.base⟩

/-- A segment is copied to its place. -/
theorem Image.PlacedRight.place_snd (h : x.WellFormed base) (hr : x.PlacedRight base)
    (hi : i < x.phnum) (hc : x.Copies i) : (x.place i).2 = x.slot base i := by
  obtain ⟨first, -, -, -, -, hplace⟩ := hr.place_eq h
  rw [hplace, ← hr.sums i hi hc]

/-- The segments have addresses from `base` on. -/
theorem Image.WellFormed.toNat_slot (h : x.WellFormed base) (hi : i < x.phnum) (hl : x.Loads i) :
    (x.slot base i).toNat + base.toNat = (x.field i pPaddr).toNat := by
  obtain ⟨first, hlt, hload, hbefore, hpaddr⟩ := h.first
  have hle : base ≤ x.field i pPaddr := by
    rcases Nat.lt_trichotomy i first with hlt' | rfl | hgt
    · exact absurd hl (hbefore i hlt')
    · exact hpaddr ▸ UInt32.le_refl _
    · have hasc := h.ascending i hi first hgt hload hl
      rw [hpaddr] at hasc
      exact UInt32.le_iff_toNat_le.mpr (by omega)
  rw [Image.slot, UInt32.toNat_sub_of_le _ _ hle]
  have := UInt32.le_iff_toNat_le.mp hle
  omega

/-- Segments are apart in the process. -/
theorem Image.WellFormed.slot_apart (h : x.WellFormed base) (hi : i < x.phnum) (hj : j < x.phnum)
    (hli : x.Loads i) (hlj : x.Loads j) (hne : i ≠ j) :
    x.span base i ≤ (x.slot base j).toNat ∨ x.span base j ≤ (x.slot base i).toNat := by
  have hsi := h.toNat_slot hi hli
  have hsj := h.toNat_slot hj hlj
  rw [Image.span, Image.span]
  rcases Nat.lt_or_gt_of_ne hne with hlt | hgt
  · have := h.ascending j hj i hlt hli hlj
    exact .inl (by omega)
  · have := h.ascending i hi j hgt hlj hli
    exact .inr (by omega)

/-- Before the first segment that is copied there are only empty ones. -/
theorem Image.WellFormed.empty_before (h : x.WellFormed base) {first : ℕ} (hlt : first < x.phnum)
    (hf : x.Loads first) (hpaddr : x.field first pPaddr = base) (hi : i < first)
    (hl : x.Loads i) : x.field i pMemsz = 0 := by
  have hasc := h.ascending first hlt i hi hl hf
  have hslot := h.toNat_slot (hi.trans hlt) hl
  rw [hpaddr] at hasc
  rw [← UInt32.toNat_inj, UInt32.toNat_zero]
  omega

end Sums

/-! ## Stages of the second loop -/

section Stages
variable {x : Image} {base exec : UInt32} {i : ℕ} {b : UInt32 → UInt8}

/-- A byte of a field of a program header is a byte of the program header. -/
theorem byte_of_field {phdr a f : UInt32} (hf : f.toNat ≤ 28)
    (ha : (a - phdrField phdr i f).toNat < 4) : (a - phdrField phdr i 0).toNat < 32 := by
  rw [phdrField] at ha ⊢
  rw [UInt32.add_zero]
  exact Lib.lt_of_part ha (by omega) (by decide)

/-- The file is as it was. -/
def Image.Intact (x : Image) (b : UInt32 → UInt8) : Prop :=
  ∀ a, (a - x.start).toNat < x.size.toNat → b a = x.bytes a

/-- A condition under which the file is as it was. -/
def Image.Keeps (x : Image) (P : (UInt32 → UInt8) → Prop) : Prop := ∀ b, P b → x.Intact b

/-- **What a condition for each stage has to do** with the writes to the memory of the process. -/
structure Image.Stages (x : Image) (exec : UInt32) (I : ℕ → (UInt32 → UInt8) → Prop) :
    Prop where
  keeps : ∀ i, x.Keeps (I i)
  start : ∀ b, x.Intact b → I 0 fun y => if (y - exec).toNat < x.esize.toNat then 0 else b y
  skip : ∀ i < x.phnum, ¬ x.Copies i → ∀ b, I i b → I (i + 1) b
  clear : ∀ i < x.phnum, x.Loads i → ¬ x.Copies i → ∀ b, I i b →
    I (i + 1) fun y => if (y - (exec + (x.field i pPaddr - (x.place i).1))).toNat <
      (x.field i pMemsz).toNat then 0 else b y
  copy : ∀ i < x.phnum, x.Copies i → ∀ b, I i b →
    I (i + 1) fun y => if (y - (exec + (x.place i).2)).toNat < (x.field i pFilesz).toNat then
      b (x.start + x.field i pOffset + (y - (exec + (x.place i).2))) else b y

/-- A write to the memory of the process leaves the file as it was. -/
theorem Image.Intact.write {t n : UInt32} {v : UInt32 → UInt8} (h : x.Intact b)
    (hapart : x.Apart exec) (hw : Within exec x.esize t n) :
    x.Intact fun y => if (y - t).toNat < n.toNat then v y else b y := by
  intro y hy
  refine (if_neg fun hyt => hapart y ⟨hy, ?_⟩).trans (h y hy)
  exact within_iff.mp hw y hyt

/-- The memory of the process is cleared. -/
theorem Image.Intact.cleared (h : x.Intact b) (hapart : x.Apart exec) :
    x.Intact fun y => if (y - exec).toNat < x.esize.toNat then 0 else b y :=
  fun y hy => (if_neg fun hyt => hapart y ⟨hy, hyt⟩).trans (h y hy)

/-- What is in a segment in the file. -/
theorem Image.Intact.data {k : UInt32} (h : x.Intact b) (hwf : x.WellFormed base)
    (hi : i < x.phnum) (hl : x.Loads i) (hk : k.toNat < (x.field i pFilesz).toNat) :
    b (x.start + x.field i pOffset + k) = x.bytes (x.start + x.field i pOffset + k) := by
  refine h _ (within_iff.mp (hwf.data i hi hl) _ ?_)
  rwa [UInt32.add_comm (x.start + _), UInt32.add_sub_cancel]

/-! ### With the sums right -/

/-- The memory of the process before a segment: the bytes of the segments so far are in their
places, and the rest is 0. -/
structure Image.Stage (x : Image) (base exec : UInt32) (i : ℕ) (b : UInt32 → UInt8) : Prop where
  intact : x.Intact b
  copied : ∀ j < i, x.Copies j → ∀ k < (x.field j pFilesz).toNat,
    b (exec + .ofNat ((x.slot base j).toNat + k)) =
      x.bytes (x.start + x.field j pOffset + .ofNat k)
  zero : ∀ o < x.esize.toNat, (∀ j < i, x.Copies j → ¬ ((x.slot base j).toNat ≤ o ∧
    o < (x.slot base j).toNat + (x.field j pFilesz).toNat)) → b (exec + .ofNat o) = 0

/-- A place in the process is among the `n` bytes from a segment's place on. -/
theorem offset_mem_iff {d : UInt32} {o n : ℕ} (ho : o < 2 ^ 32) (hn : d.toNat + n ≤ 2 ^ 32) :
    (exec + UInt32.ofNat o - (exec + d)).toNat < n ↔ d.toNat ≤ o ∧ o < d.toNat + n := by
  have hexec := exec.toNat_lt
  have hd := d.toNat_lt
  rw [UInt32.toNat_sub, UInt32.toNat_add, UInt32.toNat_add, UInt32.toNat_ofNat']
  omega

/-- **A write of a segment to its place.** Its bytes are those of the file and then zeros. -/
theorem Image.Stage.write {n : UInt32} {v : UInt32 → UInt8} (h : x.Stage base exec i b)
    (hwf : x.WellFormed base) (hapart : x.Apart exec) (hi : i < x.phnum) (hl : x.Loads i)
    (hspan : x.span base i ≤ x.esize.toNat) (hn : n.toNat ≤ (x.field i pMemsz).toNat)
    (hcopied : x.Copies i → n = x.field i pFilesz ∧ ∀ k < n.toNat,
      v (exec + .ofNat ((x.slot base i).toNat + k)) =
        x.bytes (x.start + x.field i pOffset + .ofNat k))
    (hzero : ¬ x.Copies i → ∀ y, v y = 0) :
    x.Stage base exec (i + 1)
      fun y => if (y - (exec + x.slot base i)).toNat < n.toNat then v y else b y := by
  have hesize := x.esize.toNat_lt
  rw [Image.span] at hspan
  constructor
  case intact => exact h.intact.write hapart (within_offset.mpr (.inr (by omega)))
  case copied =>
    intro j hj hcj k hk
    rcases Nat.lt_succ_iff_lt_or_eq.mp hj with hlt | rfl
    · -- A segment of before is elsewhere.
      have hjn := hlt.trans hi
      have hfile := UInt32.le_iff_toNat_le.mp (hwf.filesz j hjn hcj.1)
      have hap := hwf.slot_apart hjn hi hcj.1 hl hlt.ne
      rw [Image.span, Image.span] at hap
      have htop := hwf.top j hjn hcj.1
      have hsj := hwf.toNat_slot hjn hcj.1
      rw [if_neg]
      · exact h.copied j hlt hcj k hk
      · rw [offset_mem_iff (by omega) (by omega)]
        omega
    · obtain ⟨rfl, hv⟩ := hcopied hcj
      rw [if_pos]
      · exact hv k hk
      · rw [offset_mem_iff (by omega) (by omega)]
        omega
  case zero =>
    intro o ho hnone
    by_cases hin : (exec + UInt32.ofNat o - (exec + x.slot base i)).toNat < n.toNat
    · rw [if_pos hin]
      refine hzero (fun hc => hnone i (Nat.lt_succ_self i) hc ?_) _
      rw [offset_mem_iff (by omega) (by omega)] at hin
      rw [← (hcopied hc).1]
      exact hin
    · rw [if_neg hin]
      exact h.zero o ho fun j hj => hnone j (Nat.lt_succ_of_lt hj)

/-- **With the sums right** the segments come to their places. -/
theorem Image.PlacedRight.stages (h : x.WellFormed base) (hr : x.PlacedRight base)
    (hapart : x.Apart exec) : x.Stages exec (x.Stage base exec) := by
  have hskip : ∀ i < x.phnum, ¬ x.Copies i → ∀ b, x.Stage base exec i b →
      x.Stage base exec (i + 1) b := by
    intro i _ hc b hb
    refine ⟨hb.intact, fun j hj hcj => ?_, fun o ho hnone =>
      hb.zero o ho fun j hj => hnone j (Nat.lt_succ_of_lt hj)⟩
    rcases Nat.lt_succ_iff_lt_or_eq.mp hj with hlt | rfl
    · exact hb.copied j hlt hcj
    · exact absurd hcj hc
  constructor
  case keeps => exact fun _ _ hb => hb.intact
  case start =>
    intro b hb
    refine ⟨hb.cleared hapart, fun j hj => absurd hj (Nat.not_lt_zero j), fun o ho _ => ?_⟩
    have hesize := x.esize.toNat_lt
    refine if_pos ?_
    rw [UInt32.add_comm, UInt32.add_sub_cancel, UInt32.toNat_ofNat']
    omega
  case skip => exact hskip
  case clear =>
    intro i hi hl hc b hb
    obtain ⟨first, hlt, hcopies, -, hpaddr, hplace⟩ := hr.place_eq h
    by_cases hbefore : i < first
    · -- `estart` is still 0, but the segment is empty.
      have hempty := h.empty_before hlt hcopies.1 hpaddr hbefore hl
      simp only [hempty, UInt32.toNat_zero, Nat.not_lt_zero, if_false]
      exact hskip i hi hc b hb
    · have hne : first ≠ i := fun heq => hc (heq ▸ hcopies)
      have hstart : (x.place i).1 = base := by
        rw [hplace]
        exact if_pos (by omega)
      rw [hstart]
      exact hb.write h hapart hi hl (hr.span_le h hi hl) le_rfl (fun hc' => absurd hc' hc)
        fun _ _ => rfl
  case copy =>
    intro i hi hc b hb
    rw [hr.place_snd h hi hc]
    have hfile := UInt32.le_iff_toNat_le.mp (h.filesz i hi hc.1)
    refine hb.write h hapart hi hc.1 (hr.span_le h hi hc.1) hfile
      (fun _ => ⟨rfl, fun k hk => ?_⟩) fun hnot => absurd hc hnot
    have hoff : exec + .ofNat ((x.slot base i).toNat + k) - (exec + x.slot base i) =
        UInt32.ofNat k := by
      rw [UInt32.ofNat_add, UInt32.ofNat_toNat, ← UInt32.add_assoc, UInt32.add_comm,
        UInt32.add_sub_cancel]
    rw [hoff]
    refine hb.intact.data h hi hc.1 ?_
    have := (x.field i pFilesz).toNat_lt
    rw [UInt32.toNat_ofNat']
    omega

/-! ### With any sums -/

/-- The memory of the process before a segment: what is not 0 was copied to a running sum. -/
structure Image.Origin (x : Image) (exec : UInt32) (i : ℕ) (b : UInt32 → UInt8) : Prop where
  intact : x.Intact b
  origin : ∀ a, (a - exec).toNat < x.esize.toNat → b a ≠ 0 → ∃ j < i, x.Copies j ∧
    ∃ k : UInt32, k.toNat < (x.field j pFilesz).toNat ∧ a = exec + (x.place j).2 + k ∧
      b a = x.bytes (x.start + x.field j pOffset + k)

/-- **With any sums**, as long as `image_load` writes the memory of the process only. -/
theorem Image.WritesInside.stages (hinside : x.WritesInside exec) (h : x.WellFormed base)
    (hapart : x.Apart exec) : x.Stages exec (x.Origin exec) := by
  constructor
  case keeps => exact fun _ _ hb => hb.intact
  case start =>
    intro b hb
    exact ⟨hb.cleared hapart, fun a ha hne => absurd (if_pos ha) hne⟩
  case skip =>
    intro i _ _ b hb
    refine ⟨hb.intact, fun a ha hne => ?_⟩
    obtain ⟨j, hj, hrest⟩ := hb.origin a ha hne
    exact ⟨j, Nat.lt_succ_of_lt hj, hrest⟩
  case clear =>
    intro i hi hl hc b hb
    have hzero : x.field i pFilesz = 0 := not_not.mp fun hne => hc ⟨hl, hne⟩
    refine ⟨hb.intact.write hapart (hinside.zeroed i hi hl hzero), ?_⟩
    intro a ha hne
    split at hne
    · exact absurd rfl hne
    · rename_i hout
      obtain ⟨j, hj, hcj, k, hk, hak, hbk⟩ := hb.origin a ha hne
      exact ⟨j, Nat.lt_succ_of_lt hj, hcj, k, hk, hak, (if_neg hout).trans hbk⟩
  case copy =>
    intro i hi hc b hb
    refine ⟨hb.intact.write hapart (hinside.target i hi hc), ?_⟩
    intro a ha hne
    by_cases hin : (a - (exec + (x.place i).2)).toNat < (x.field i pFilesz).toNat
    · refine ⟨i, Nat.lt_succ_self i, hc, a - (exec + (x.place i).2), hin, ?_, ?_⟩
      · rw [UInt32.add_comm, UInt32.sub_add_cancel]
      · exact (if_pos hin).trans (hb.intact.data h hi hc.1 hin)
    · rw [if_neg hin] at hne
      obtain ⟨j, hj, hcj, k, hk, hak, hbk⟩ := hb.origin a ha hne
      exact ⟨j, Nat.lt_succ_of_lt hj, hcj, k, hk, hak, (if_neg hin).trans hbk⟩

end Stages
end OxKernel.Kernel
