import OxKernel.Mm.KmallocRuns
import OxKernel.Lib.Reach

/-!
# Requests of every size

What `kmalloc` returns for any size and any answers of `kpage_alloc`, which may be 0. A request
that a pool has a block for is served. For any other one `kmalloc` goes on without a look at
the answers or at the size: it writes headers at the address that it was given, and returns a
pointer in any case, unless it divides by a block size of 0 first.

## Main definitions

* `Heap.Sound` — the blocks of each pool are in its pages.
* `kmallocOutcome` — the call, with the division by the block size.
* `Heap.Honoured` — the request is served, or refused with nothing changed.
* `Heap.Granted` — what the request can be served with.

## Main results

* `sound_reach` — the pools of every heap that granted requests and any releases lead to.
* `kmalloc_honoured_iff` — a request is honoured or refused exactly if it can be granted.
-/
namespace OxKernel.Mm

open Heap

/-! ### Pools -/

/-- The blocks of a pool are in its pages and on a pointer boundary. -/
structure Mem.Sound (m : Mem) : Prop where
  rsize : 8 ≤ m.rsize.toNat
  rsize_dvd : 4 ∣ m.rsize.toNat
  memory_dvd : 4 ∣ m.memory.toNat
  fits : m.nrBlocks.toNat * m.rsize.toNat ≤ m.run.bytes
  inside : m.memory.toNat + m.run.bytes ≤ 2 ^ 32

/-- Every pool with blocks is sound. -/
def Heap.Sound (h : Heap) : Prop :=
  ∀ t ∈ h.root, ∀ i, (t.sizes i).nrBlocks ≠ 0 → (t.sizes i).Sound

/-- A pool offers a block for a request. -/
structure Mem.Offers (w : Words) (size : UInt32) (m : Mem) : Prop where
  accommodates : size ≤ m.rsize - headerSize
  available : m.nrAlloc < m.nrBlocks
  free : ∃ k < m.nrBlocks.toNat, w (m.memory + UInt32.ofNat k * m.rsize + 4) = freeMem

/-- Some pool offers a block for a request. -/
def Heap.HasBlock (h : Heap) (size : UInt32) : Prop :=
  ∃ a i m, h.pool a i = some m ∧ m.Offers h.words size

/-- No pool is free for another size. -/
def Heap.NeedsTable (h : Heap) : Prop := ∀ a i, h.isFree a i = false

/-! ### Requests -/

/-- The size with the header, rounded up to a pointer boundary. -/
def roundedSize (size : UInt32) : ℕ := (size.toNat + 8 + 3) / 4 * 4

/-- The rounded size fits in 32 bits. -/
def SizeFits (size : UInt32) : Prop := roundedSize size < 2 ^ 32

instance (size : UInt32) : Decidable (SizeFits size) := inferInstanceAs (Decidable (_ < _))

/-- What `kpage_alloc` answers for `n` pages: 0, or an address of `n` pages. -/
def PageAnswer (n addr : UInt32) : Prop :=
  addr = 0 ∨ 4096 ∣ addr.toNat ∧ addr.toNat + PageRun.bytes (addr, n) ≤ 2 ^ 32

/-- The searches of `kmalloc` for a block of a pool that there is. -/
def Heap.take (h : Heap) (size : UInt32) : Option (UInt32 × Heap) :=
  (h.ptr.bind fun (a, i) => h.tryPool size a i h.nrSlot).or
    (h.slots.findSome? fun (slot, a, i) => h.tryPool size a i slot)

/-- `kmalloc`, which divides by the block size where it makes a new pool. It has no result if
that is 0. -/
def kmallocOutcome (tableAt poolAt size : UInt32) (h : Heap) : Option (UInt32 × Heap) :=
  if (h.take size).isNone ∧ blockSize size = 0 then none else some (kmalloc tableAt poolAt size h)

namespace Heap

/-- An aligned pointer to a block with room for the request, inside the pages of its pool. -/
def Usable (h : Heap) (p size : UInt32) : Prop :=
  ∃ a i m k, h.pool a i = some m ∧ k < m.nrBlocks.toNat ∧ p.toNat = m.hdr k + 8 ∧
    4 ∣ p.toNat ∧ p.toNat + size.toNat ≤ m.hdr k + m.rsize.toNat ∧
    m.hdr k + m.rsize.toNat ≤ m.memory.toNat + m.run.bytes

/-- The call asks `kpage_alloc` for pages and gets none, or its size does not fit. -/
def Refused (tableAt poolAt size : UInt32) (h : Heap) : Prop :=
  ¬ h.HasBlock size ∧ (poolAt = 0 ∨ h.NeedsTable ∧ tableAt = 0) ∨ ¬ SizeFits size

/-- The request is served, or it is refused with nothing changed. -/
def Honoured (tableAt poolAt size : UInt32) (h : Heap) : Prop :=
  ∃ p h', kmallocOutcome tableAt poolAt size h = some (p, h') ∧ (p = 0 ∨ h'.Usable p size) ∧
    (h.Refused tableAt poolAt size → p = 0 ∧ h'.words = h.words ∧ h'.root = h.root)

/-- A pool has a block for the request, or its size fits and `kpage_alloc` has pages for it. -/
def Granted (tableAt poolAt size : UInt32) (h : Heap) : Prop :=
  h.HasBlock size ∨ SizeFits size ∧ poolAt ≠ 0 ∧ (h.NeedsTable → tableAt ≠ 0)

end Heap

variable {h h' : Heap} {tableAt poolAt size a slot : UInt32} {i : Fin nrSizes} {m : Mem} {w : Words}

/-! ### Sizes -/

theorem sizeFits_iff : SizeFits size ↔ size.toNat + 11 < 2 ^ 32 := by
  rw [SizeFits, roundedSize]
  omega

theorem blockSize_dvd (size : UInt32) : 4 ∣ (blockSize size).toNat := by
  rw [blockSize, UInt32.toNat_mul]
  simp only [UInt32.reduceToNat]
  omega

/-- A new pool is sound, and the first block in it has room for the request. -/
theorem newMem_sound (hsize : SizeFits size) (hpos : poolAt ≠ 0)
    (hanswer : PageAnswer (nrBlocks (blockSize size)) poolAt) :
    (newMem size poolAt).Sound ∧ 0 < (newMem size poolAt).nrBlocks.toNat := by
  obtain ⟨hdvd, hend⟩ := hanswer.resolve_left hpos
  obtain ⟨h8, hblocks, hfits⟩ := Mem.newMem_blocks (sizeFits_iff.mp hsize) hpos hend
  have hmemory : 4 ∣ poolAt.toNat := Nat.dvd_trans (by decide) hdvd
  exact ⟨⟨h8, blockSize_dvd size, hmemory, hfits, hend⟩, hblocks⟩

theorem Mem.Sound.hdr_le (hm : m.Sound) {k : ℕ} (hk : k < m.nrBlocks.toNat) :
    m.hdr k + m.rsize.toNat ≤ m.memory.toNat + m.run.bytes := by
  have hmul : (k + 1) * m.rsize.toNat ≤ m.nrBlocks.toNat * m.rsize.toNat :=
    Nat.mul_le_mul_right _ hk
  have hfits := hm.fits
  rw [Nat.succ_mul] at hmul
  rw [Mem.hdr]
  omega

theorem Mem.Sound.hdr_dvd (hm : m.Sound) (k : ℕ) : 4 ∣ m.hdr k :=
  Nat.dvd_add hm.memory_dvd (Dvd.dvd.mul_left hm.rsize_dvd k)

/-- A sound pool accommodates only sizes that fit. -/
theorem Mem.Sound.size_le (hm : m.Sound) (hsize : size ≤ m.rsize - headerSize) :
    size.toNat + 8 ≤ m.rsize.toNat := by
  have h8 : headerSize ≤ m.rsize := UInt32.le_iff_toNat_le.mpr hm.rsize
  have hle := UInt32.le_iff_toNat_le.mp hsize
  have hrsize := hm.rsize
  rw [UInt32.toNat_sub_of_le _ _ h8] at hle
  simp only [headerSize, UInt32.reduceToNat] at hle
  omega

/-! ### The searches -/

theorem findFree_isSome_iff {rsize mptr : UInt32} {n : ℕ} :
    (findFree w rsize n mptr).isSome = true ↔
      ∃ k < n, w (mptr + UInt32.ofNat k * rsize + 4) = freeMem := by
  induction n generalizing mptr with
  | zero => simp [findFree]
  | succ n ih =>
      have hshift : ∀ k, mptr + UInt32.ofNat (k + 1) * rsize + 4 =
          mptr + rsize + UInt32.ofNat k * rsize + 4 := by
        intro k
        rw [UInt32.ofNat_add, UInt32.add_mul]
        simp only [UInt32.reduceOfNat, UInt32.one_mul]
        ac_rfl
      rw [findFree]
      by_cases hfree : w (mptr + 4) = freeMem
      · rw [if_pos hfree]
        exact ⟨fun _ => ⟨0, by omega, by simpa using hfree⟩, fun _ => rfl⟩
      · rw [if_neg hfree, ih]
        constructor
        · rintro ⟨k, hk, hw⟩
          exact ⟨k + 1, by omega, by rwa [hshift]⟩
        · rintro ⟨k, hk, hw⟩
          cases k with
          | zero => exact absurd (by simpa using hw) hfree
          | succ k => exact ⟨k, by omega, by rwa [← hshift]⟩

theorem tryPool_isSome_iff :
    (h.tryPool size a i slot).isSome = true ↔ ∃ m, h.pool a i = some m ∧ m.Offers h.words size := by
  rw [tryPool]
  cases hp : h.pool a i with
  | none => simp
  | some m =>
      simp only [Option.bind_eq_bind, Option.bind_some, Option.some.injEq, exists_eq_left']
      by_cases hcond : size ≤ m.rsize - headerSize ∧ m.nrBlocks > m.nrAlloc
      · rw [if_pos hcond]
        constructor
        · intro hsome
          cases hf : findFree h.words m.rsize m.nrBlocks.toNat m.memory with
          | none => simp [hf] at hsome
          | some hdr => exact ⟨hcond.1, hcond.2, findFree_isSome_iff.mp (by rw [hf]; rfl)⟩
        · intro hoffers
          obtain ⟨hdr, hf⟩ := Option.isSome_iff_exists.mp (findFree_isSome_iff.mpr hoffers.free)
          simp [hf]
      · rw [if_neg hcond]
        simp only [Option.isSome_none, Bool.false_eq_true, false_iff]
        exact fun hoffers => hcond ⟨hoffers.accommodates, hoffers.available⟩

/-- The scans come to every pool. -/
theorem exists_slot (hp : (h.table a).isSome = true) (i : Fin nrSizes) :
    ∃ slot, (slot, a, i) ∈ h.slots := by
  obtain ⟨t, ht⟩ := Option.isSome_iff_exists.mp hp
  obtain ⟨j, hj⟩ := List.mem_iff_getElem?.mp (table_mem ht)
  refine ⟨UInt32.ofNat (nrSizes * j + i.val), ?_⟩
  rw [slots, List.mem_flatMap]
  refine ⟨(t, j), List.mem_zipIdx_iff_getElem?.mpr hj, ?_⟩
  rw [List.mem_map]
  exact ⟨i, List.mem_finRange i, by rw [table_addr ht]⟩

theorem isSome_table_of_pool (hp : h.pool a i = some m) : (h.table a).isSome = true := by
  rw [pool, Option.map_eq_some_iff] at hp
  obtain ⟨t, ht, -⟩ := hp
  rw [ht]
  rfl

/-- The searches end at a pool with a block. -/
theorem tryPool_of_take {r : UInt32 × Heap} (ht : h.take size = some r) :
    ∃ a i slot, h.tryPool size a i slot = some r := by
  rw [take, Option.or_eq_some_iff] at ht
  rcases ht with ht | ⟨-, ht⟩
  · obtain ⟨⟨a, i⟩, -, htry⟩ := Option.bind_eq_some_iff.mp ht
    exact ⟨a, i, h.nrSlot, htry⟩
  · obtain ⟨⟨slot, a, i⟩, -, htry⟩ := List.exists_of_findSome?_eq_some ht
    exact ⟨a, i, slot, htry⟩

theorem take_isSome_iff : (h.take size).isSome = true ↔ h.HasBlock size := by
  constructor
  · intro hsome
    obtain ⟨r, hr⟩ := Option.isSome_iff_exists.mp hsome
    obtain ⟨a, i, slot, htry⟩ := tryPool_of_take hr
    obtain ⟨m, hm, hoffers⟩ := tryPool_isSome_iff.mp (Option.isSome_of_eq_some htry)
    exact ⟨a, i, m, hm, hoffers⟩
  · rintro ⟨a, i, m, hm, hoffers⟩
    obtain ⟨slot, hslot⟩ := exists_slot (isSome_table_of_pool hm) i
    rw [take, Option.isSome_or, Bool.or_eq_true]
    right
    rw [List.findSome?_isSome_iff]
    exact ⟨(slot, a, i), hslot, tryPool_isSome_iff.mpr ⟨m, hm, hoffers⟩⟩

theorem needsTable_iff : h.NeedsTable ↔ h.slots.find? (fun (_, a, i) => h.isFree a i) = none := by
  rw [List.find?_eq_none]
  constructor
  · rintro hneeds ⟨slot, a, i⟩ -
    simp [hneeds a i]
  · intro hnone a i
    by_contra hfree
    have hfree' : h.isFree a i = true := by simpa using hfree
    have htable : (h.table a).isSome = true := by
      rw [isFree] at hfree'
      split at hfree'
      · rename_i t ht
        rw [ht]
        rfl
      · cases hfree'
    obtain ⟨slot, hslot⟩ := exists_slot htable i
    exact hnone _ hslot hfree'

/-! ### The ways of a call -/

/-- A new pool, in a table or in a new table. -/
inductive Heap.Makes (tableAt poolAt size : UInt32) (h : Heap) : UInt32 × Heap → Prop
  | opened {a : UInt32} {i : Fin nrSizes} {slot : UInt32} (hfree : h.isFree a i = true) :
      Makes tableAt poolAt size h (h.openPool poolAt size a i slot)
  | pushed {slot : UInt32} {w : Words} (hneeds : h.NeedsTable) :
      Makes tableAt poolAt size h (h.pushTable tableAt poolAt size slot w)

/-- `kmalloc` takes a block of a pool, or it makes a new pool. -/
theorem kmalloc_cases (tableAt poolAt size : UInt32) (h : Heap) :
    h.take size = some (kmalloc tableAt poolAt size h) ∨
      h.take size = none ∧ h.Makes tableAt poolAt size (kmalloc tableAt poolAt size h) := by
  rw [kmalloc, take]
  split
  · rename_i r hfast
    exact .inl (by rw [hfast, Option.some_or])
  · rename_i hfast
    rw [hfast, Option.none_or]
    split
    · rename_i hroot
      have hslots : h.slots = [] := by rw [slots, hroot]; rfl
      refine .inr ⟨by rw [hslots]; rfl, .pushed ?_⟩
      rw [needsTable_iff, hslots]
      rfl
    · split
      · rename_i r hscan
        exact .inl hscan
      · rename_i hscan
        refine .inr ⟨hscan, ?_⟩
        split
        · rename_i slot a i hfind
          have hfree := List.find?_some hfind
          exact .opened hfree
        · rename_i hfind
          exact .pushed (needsTable_iff.mpr hfind)

/-- The result of a call that makes a pool is behind the first header. -/
theorem Heap.Makes.fst {r : UInt32 × Heap} (hr : h.Makes tableAt poolAt size r) :
    r.1 = poolAt + headerSize := by
  cases hr <;> rfl

theorem Heap.Makes.pool {r : UInt32 × Heap} (hr : h.Makes tableAt poolAt size r) :
    ∃ a i, r.2.pool a i = some (newMem size poolAt) := by
  cases hr with
  | @opened a i slot hfree =>
      have hpool : ∃ m, h.pool a i = some m := by
        rw [isFree] at hfree
        split at hfree
        · rename_i t ht
          exact ⟨t.sizes i, by rw [Heap.pool, ht]; rfl⟩
        · cases hfree
      refine ⟨a, i, ?_⟩
      have hmodify := @pool_modify h a a i i
        (fun t => { t with nrSlots := t.nrSlots + 1,
                           sizes := Function.update t.sizes i (newMem size poolAt) })
        (newMem size poolAt) (fun _ => rfl) (fun _ => rfl) hpool
      rw [if_pos ⟨rfl, rfl⟩] at hmodify
      exact hmodify
  | pushed => exact ⟨tableAt, 0, by simp [pushTable, Heap.pool, table]⟩

/-! ### Blocks -/

theorem Heap.Sound.pool (hh : h.Sound) (hp : h.pool a i = some m) (hm : m.nrBlocks ≠ 0) :
    m.Sound := by
  rw [Heap.pool, Option.map_eq_some_iff] at hp
  obtain ⟨t, ht, rfl⟩ := hp
  exact hh t (table_mem ht) i hm

/-- A block of a sound pool is usable for what it accommodates. -/
theorem Mem.Sound.usable {p : UInt32} {k : ℕ} (hm : m.Sound) (hp : h.pool a i = some m)
    (hk : k < m.nrBlocks.toNat) (hhdr : p.toNat = m.hdr k + 8)
    (hsize : size.toNat + 8 ≤ m.rsize.toNat) : h.Usable p size := by
  refine ⟨a, i, m, k, hp, hk, hhdr, ?_, by omega, hm.hdr_le hk⟩
  rw [hhdr]
  exact Nat.dvd_add (hm.hdr_dvd k) (by decide)

/-- A block that is taken. -/
theorem Heap.Sound.taken {r : UInt32 × Heap} (hh : h.Sound) (ht : h.take size = some r) :
    SizeFits size ∧ (r.1 = 0 ∨ r.2.Usable r.1 size) := by
  obtain ⟨a, i, slot, htry⟩ := tryPool_of_take ht
  obtain ⟨m, hdr, hp, hacc, havail, hfind, hr1, -, -, -, hpool, -⟩ := HeapRun.tryPool_spec htry
  have hblocks : m.nrBlocks ≠ 0 := by
    rintro h0
    rw [h0] at havail
    exact absurd havail UInt32.not_lt_zero
  have hm := hh.pool hp hblocks
  have hsize := hm.size_le hacc
  have hrsize := m.rsize.toNat_lt
  have hdvd := hm.rsize_dvd
  have hin := hm.inside
  have hfits := hm.fits
  obtain ⟨k, hk, hhdr, -⟩ := findFree_spec hm.rsize (by omega) hfind
  have hle := hm.hdr_le hk
  rw [Mem.hdr] at hle
  refine ⟨sizeFits_iff.mpr (by omega), ?_⟩
  have hp1 : r.1.toNat = (m.hdr k + 8) % 2 ^ 32 := by
    rw [hr1, UInt32.toNat_add, hhdr]
    rfl
  by_cases hend : m.hdr k + 8 < 2 ^ 32
  · right
    have hpool' : r.2.pool a i = some { m with nrAlloc := m.nrAlloc + 1 } := by
      rw [hpool, if_pos ⟨rfl, rfl⟩]
    rw [Nat.mod_eq_of_lt hend] at hp1
    have hm' : Mem.Sound { m with nrAlloc := m.nrAlloc + 1 } :=
      ⟨hm.rsize, hm.rsize_dvd, hm.memory_dvd, hm.fits, hm.inside⟩
    exact hm'.usable hpool' hk hp1 hsize
  · -- The last bytes of the address space, for a request of no bytes.
    left
    apply UInt32.toNat_inj.mp
    rw [Mem.hdr] at hend hp1
    rw [hp1, UInt32.toNat_zero]
    omega

/-- The first block of a new pool. -/
theorem Heap.Makes.usable {r : UInt32 × Heap} (hr : h.Makes tableAt poolAt size r)
    (hsize : SizeFits size) (hpos : poolAt ≠ 0)
    (hanswer : PageAnswer (nrBlocks (blockSize size)) poolAt) : r.2.Usable r.1 size := by
  obtain ⟨a, i, hp⟩ := hr.pool
  obtain ⟨hm, hblocks⟩ := newMem_sound hsize hpos hanswer
  have hdvd := (hanswer.resolve_left hpos).1
  have hroom := (blockSize_spec (sizeFits_iff.mp hsize)).1
  have hend := hm.hdr_le hblocks
  have hin : poolAt.toNat + (newMem size poolAt).run.bytes ≤ 2 ^ 32 := hm.inside
  have hmemory : (newMem size poolAt).memory = poolAt := rfl
  have hrsize := hm.rsize
  have hhdr : (newMem size poolAt).hdr 0 = poolAt.toNat := by rw [Mem.hdr, Nat.zero_mul]; rfl
  have hfst : r.1.toNat = (newMem size poolAt).hdr 0 + 8 := by
    rw [hhdr, hmemory] at hend
    rw [hr.fst, hhdr]
    apply Lib.toNat_add_of_lt
    simp only [headerSize, UInt32.reduceToNat]
    omega
  exact hm.usable hp hblocks hfst hroom

/-- The result of a call that makes a pool is not 0. -/
theorem Heap.Makes.fst_ne_zero {r : UInt32 × Heap} (hr : h.Makes tableAt poolAt size r)
    (hanswer : PageAnswer (nrBlocks (blockSize size)) poolAt) : r.1 ≠ 0 := by
  have hdvd : 4096 ∣ poolAt.toNat := by
    rcases hanswer with rfl | ⟨hdvd, -⟩
    · simp
    · exact hdvd
  have hlt := poolAt.toNat_lt
  intro h0
  have hnat := congrArg UInt32.toNat (hr.fst.symm.trans h0)
  rw [UInt32.toNat_add] at hnat
  simp only [headerSize, UInt32.reduceToNat] at hnat
  omega

theorem not_refused_of_granted (hsize : SizeFits size) (hgranted : h.Granted tableAt poolAt size) :
    ¬ h.Refused tableAt poolAt size := by
  rintro (⟨hblock, hanswer⟩ | hnot)
  · obtain ⟨-, hpos, htable⟩ := hgranted.resolve_left hblock
    rcases hanswer with h0 | ⟨hneeds, h0⟩
    · exact hpos h0
    · exact htable hneeds h0
  · exact hnot hsize

theorem refused_of_not_granted (hgranted : ¬ h.Granted tableAt poolAt size) :
    ¬ h.HasBlock size ∧ h.Refused tableAt poolAt size := by
  rw [Granted, not_or] at hgranted
  obtain ⟨hblock, hnot⟩ := hgranted
  refine ⟨hblock, ?_⟩
  by_cases hsize : SizeFits size
  · by_cases hpos : poolAt = 0
    · exact .inl ⟨hblock, .inl hpos⟩
    · refine .inl ⟨hblock, .inr ?_⟩
      by_contra htable
      exact hnot ⟨hsize, hpos, fun hneeds h0 => htable ⟨hneeds, h0⟩⟩
  · exact .inr hsize

/-- **A request is served or refused exactly if it can be granted.** -/
theorem kmalloc_honoured_iff (hh : h.Sound)
    (hanswer : PageAnswer (nrBlocks (blockSize size)) poolAt) :
    h.Honoured tableAt poolAt size ↔ h.Granted tableAt poolAt size := by
  constructor
  · rintro ⟨p, h', hcall, -, hrefused⟩
    by_contra hgranted
    obtain ⟨hblock, href⟩ := refused_of_not_granted hgranted
    obtain ⟨rfl, -, -⟩ := hrefused href
    rw [kmallocOutcome] at hcall
    split at hcall
    · cases hcall
    · have hcall' : kmalloc tableAt poolAt size h = (0, h') := by simpa using hcall
      rcases kmalloc_cases tableAt poolAt size h with ht | ⟨-, hmakes⟩
      · exact hblock (take_isSome_iff.mp (Option.isSome_of_eq_some ht))
      · exact hmakes.fst_ne_zero hanswer (congrArg Prod.fst hcall')
  · intro hgranted
    rcases kmalloc_cases tableAt poolAt size h with ht | ⟨ht, hmakes⟩
    · obtain ⟨hsize, husable⟩ := hh.taken ht
      refine ⟨_, _, ?_, husable, fun href => absurd href (not_refused_of_granted hsize hgranted)⟩
      rw [kmallocOutcome, ht]
      rfl
    · have hblock : ¬ h.HasBlock size := by
        rw [← take_isSome_iff, ht]
        simp
      obtain ⟨hsize, hpos, -⟩ := hgranted.resolve_left hblock
      have hne : blockSize size ≠ 0 := by
        rintro h0
        have hroom := (blockSize_spec (sizeFits_iff.mp hsize)).1
        rw [h0, UInt32.toNat_zero] at hroom
        omega
      refine ⟨_, _, ?_, .inr (hmakes.usable hsize hpos hanswer),
        fun href => absurd href (not_refused_of_granted hsize hgranted)⟩
      rw [kmallocOutcome, if_neg fun hdiv => hne hdiv.2]

/-! ### Runs -/

theorem sound_empty (w : Words) : (emptyHeap w).Sound := fun _ ht => absurd ht List.not_mem_nil

/-- A table with one pool changed. -/
theorem Heap.Sound.modify {f : Table → Table} (hh : h.Sound)
    (hsizes : ∀ t, (f t).sizes = Function.update t.sizes i m) (hm : m.nrBlocks ≠ 0 → m.Sound) :
    (h.modify a f).Sound := by
  intro t ht j hj
  obtain ⟨u, hu, rfl⟩ := List.mem_map.mp ht
  by_cases hua : u.addr = a
  · simp only [hua, if_true, hsizes] at hj ⊢
    by_cases hji : j = i
    · subst hji
      rw [Function.update_self] at hj ⊢
      exact hm hj
    · rw [Function.update_of_ne hji] at hj ⊢
      exact hh u hu j hj
  · simp only [hua, if_false] at hj ⊢
    exact hh u hu j hj

/-- **A granted request leaves the pools sound.** -/
theorem Heap.Sound.kmalloc (hh : h.Sound)
    (hanswer : PageAnswer (nrBlocks (blockSize size)) poolAt)
    (hgranted : h.Granted tableAt poolAt size) : (kmalloc tableAt poolAt size h).2.Sound := by
  rcases kmalloc_cases tableAt poolAt size h with ht | ⟨ht, hmakes⟩
  · obtain ⟨a, i, slot, htry⟩ := tryPool_of_take ht
    obtain ⟨m, hdr, hp, -, -, -, -, -, -, -, -, hroot⟩ := HeapRun.tryPool_spec htry
    have hmodify : (h.modify a fun t => { t with
        sizes := Function.update t.sizes i { m with nrAlloc := m.nrAlloc + 1 } }).Sound := by
      apply hh.modify (fun _ => rfl)
      intro hblocks
      have hm := hh.pool hp hblocks
      exact ⟨hm.rsize, hm.rsize_dvd, hm.memory_dvd, hm.fits, hm.inside⟩
    rw [Heap.Sound, hroot]
    exact hmodify
  · have hblock : ¬ h.HasBlock size := by
      rw [← take_isSome_iff, ht]
      simp
    obtain ⟨hsize, hpos, -⟩ := hgranted.resolve_left hblock
    have hm := (newMem_sound hsize hpos hanswer).1
    generalize Mm.kmalloc tableAt poolAt size h = r at hmakes
    cases hmakes with
    | opened hfree => exact hh.modify (fun _ => rfl) fun _ => hm
    | pushed hneeds =>
        intro t ht j hj
        rcases List.mem_cons.mp ht with rfl | ht
        · by_cases hj0 : j = 0
          · subst hj0
            exact hm
          · refine absurd ?_ hj
            simp [Function.update_of_ne hj0, zeroMem]
        · exact hh t ht j hj

theorem sound_release (hm : m.nrBlocks ≠ 0 → m.Sound) :
    m.release.1.nrBlocks ≠ 0 → m.release.1.Sound := by
  rw [Mem.release]
  dsimp only
  split
  · exact fun hne => absurd rfl hne
  · intro hne
    have hs := hm hne
    exact ⟨hs.rsize, hs.rsize_dvd, hs.memory_dvd, hs.fits, hs.inside⟩

/-- The loop of `kfree` leaves pools sound, also those that it releases wrongly. -/
theorem sound_kfreeLoop {nrTable j : UInt32} {nrSlot : Fin nrSizes} {ts done : List Table}
    {log : List PageEvent}
    (h : ∀ t ∈ done ++ ts, ∀ i, (t.sizes i).nrBlocks ≠ 0 → (t.sizes i).Sound) :
    ∀ t ∈ (kfreeLoop nrTable nrSlot j ts done log).1, ∀ i,
      (t.sizes i).nrBlocks ≠ 0 → (t.sizes i).Sound := by
  induction ts generalizing j done log with
  | nil =>
      intro t ht
      exact h t (by simpa [kfreeLoop] using ht)
  | cons u ts ih =>
      rw [kfreeLoop]
      split
      · apply ih
        intro t ht i
        rcases List.mem_append.mp ht with ht | ht
        · rcases List.mem_cons.mp ht with rfl | ht
          · dsimp only
            by_cases hi : i = nrSlot
            · subst hi
              rw [Function.update_self]
              exact sound_release (h u (by simp) i)
            · rw [Function.update_of_ne hi]
              exact h u (by simp) i
          · exact h t (by simp [ht]) i
        · exact h t (by simp [ht]) i
      · apply ih
        intro t ht i
        apply h t
        simp only [List.cons_append, List.mem_cons, List.mem_append] at ht ⊢
        tauto

theorem Heap.Sound.kfree (hh : h.Sound) (p : UInt32) : (kfree p h).Sound :=
  sound_kfreeLoop (by rw [List.nil_append]; exact hh)

/-- A call of the heap, with the answers of `kpage_alloc`. -/
inductive Request
  | kmalloc (tableAt poolAt size : UInt32)
  | kfree (p : UInt32)

namespace Request

/-- What a call does, whatever is released. -/
inductive Step : Request → Heap → Heap → Prop
  | kmalloc {tableAt poolAt size p : UInt32} {h h' : Heap}
      (hcall : kmallocOutcome tableAt poolAt size h = some (p, h')) :
      Step (.kmalloc tableAt poolAt size) h h'
  | kfree {p : UInt32} {h : Heap} : Step (.kfree p) h (Mm.kfree p h)

/-- The calls on a heap that was not used. -/
def system : Lib.System Heap Request where
  init h := ∃ w, h = emptyHeap w
  step := Step

/-- The requests of a run are granted. -/
def guard (h : Heap) : Request → Prop
  | .kmalloc tableAt poolAt size =>
      PageAnswer (nrBlocks (blockSize size)) poolAt ∧ h.Granted tableAt poolAt size
  | .kfree _ => True

end Request

/-- **The pools are sound in every state** that granted requests and any releases lead to. -/
theorem sound_reach (hreach : Request.system.Reach Request.guard h) : h.Sound := by
  apply hreach.invariant
  · rintro _ ⟨w, rfl⟩
    exact sound_empty w
  · intro h c h' hh hg hs
    cases hs with
    | @kmalloc tableAt poolAt size p _ _ hcall =>
        rw [kmallocOutcome] at hcall
        split at hcall
        · cases hcall
        · have hcall' : kmalloc tableAt poolAt size h = (p, h') := by simpa using hcall
          have hsound := hh.kmalloc hg.1 hg.2
          rwa [hcall'] at hsound
    | kfree => exact hh.kfree _

theorem kmalloc_honoured_sixteen :
    (emptyHeap fun _ => 0).Sound ∧ PageAnswer (nrBlocks (blockSize 16)) 0x200000 ∧
      (emptyHeap fun _ => 0).Honoured 0x201000 0x200000 16 :=
  ⟨sound_empty _, .inr (by decide), (kmalloc_honoured_iff (sound_empty _) (.inr (by decide))).mpr
    (.inr ⟨by decide, by decide, fun _ => by decide⟩)⟩

/-- Where `kpage_alloc` has no page for the pool, `kmalloc` writes headers from address 0 on and
returns 8. -/
theorem kmalloc_without_pages :
    (∃ h', kmallocOutcome 0x201000 0 16 (emptyHeap fun _ => 0) = some (8, h') ∧
      h'.words 4 = usedMem) ∧
    ¬ (emptyHeap fun _ => 0).Honoured 0x201000 0 16 := by
  have hempty : ¬ (emptyHeap fun _ => 0).HasBlock 16 := by
    rintro ⟨a, i, m, hm, -⟩
    cases hm
  have hrefused : (emptyHeap fun _ => 0).Refused 0x201000 0 16 := .inl ⟨hempty, .inl rfl⟩
  refine ⟨⟨_, rfl, ?_⟩, ?_⟩
  · decide
  · rintro ⟨p, h', hcall, -, hhonoured⟩
    obtain ⟨rfl, -⟩ := hhonoured hrefused
    have h8 : (8 : UInt32) = 0 := congrArg Prod.fst (Option.some.inj hcall)
    exact absurd h8 (by decide)

end OxKernel.Mm
