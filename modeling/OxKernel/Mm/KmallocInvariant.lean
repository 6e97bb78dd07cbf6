import OxKernel.Mm.KmallocSteps
import Mathlib.Data.Finset.Card
import Mathlib.Tactic.Linarith

/-!
# The invariant of the heap

What `kmalloc` and `kfree` keep as long as the page allocator answers with fresh runs of
pages and `kfree` finds the pool of the block it is given: pools and tables have their own
pages, the headers of a pool tell how many of its blocks are in use, and these blocks are
the live ones.

## Main definitions

* `held`, `FreshLog` — the page runs a record of calls leaves allocated, and that every run
  was apart from the ones allocated before it.
* `Mem.Ok` — a pool whose headers agree with its counter.
* `HeapRun.Inv` — the invariant, for a heap and the live blocks.
-/
namespace OxKernel.Mm

/-! ### The record of the page allocator's calls -/

/-- A run of pages: its address and its length. -/
abbrev PageRun := UInt32 × UInt32

/-- The bytes of a run of pages. -/
def PageRun.bytes (r : PageRun) : ℕ := r.2.toNat * 4096

/-- Two runs have no page in common. -/
def PageRun.Apart (r r' : PageRun) : Prop :=
  r.1.toNat + r.bytes ≤ r'.1.toNat ∨ r'.1.toNat + r'.bytes ≤ r.1.toNat

theorem PageRun.Apart.symm {r r' : PageRun} (h : r.Apart r') : r'.Apart r := Or.symm h

/-- The runs that are allocated after a record of calls. -/
def held : List PageEvent → List PageRun
  | [] => []
  | .alloc a n :: log => (a, n) :: held log
  | .free a n :: log => (held log).erase (a, n)

/-- `kpage_alloc` never failed, and answered with a run in the address space apart from the
runs that were allocated. -/
def FreshLog : List PageEvent → Prop
  | [] => True
  | .alloc a n :: log => a ≠ 0 ∧ a.toNat + PageRun.bytes (a, n) ≤ 2 ^ 32 ∧
      (∀ r ∈ held log, PageRun.Apart (a, n) r) ∧ FreshLog log
  | .free _ _ :: log => FreshLog log

/-- Every run given back was allocated. -/
def FreedHeld : List PageEvent → Prop
  | [] => True
  | .alloc _ _ :: log => FreedHeld log
  | .free a n :: log => (a, n) ∈ held log ∧ FreedHeld log

/-! ### Pools -/

namespace Mem

variable {m : Mem} {w w' : Words} {k k' : ℕ}

/-- The address of the header of a block. -/
def hdr (m : Mem) (k : ℕ) : ℕ := m.memory.toNat + k * m.rsize.toNat

/-- The header says that the block is in use. -/
def Used (w : Words) (m : Mem) (k : ℕ) : Prop := flagAt w (m.hdr k) = usedMem

instance (w : Words) (m : Mem) (k : ℕ) : Decidable (m.Used w k) :=
  inferInstanceAs (Decidable (_ = _))

/-- The run of pages of a pool. -/
def run (m : Mem) : PageRun := (m.memory, m.nrPages)

/-- The number of blocks in use, by their headers. -/
def used (w : Words) (m : Mem) : ℕ := ((Finset.range m.nrBlocks.toNat).filter (m.Used w)).card

/-- A pool that is not free: its blocks are in its pages, and its headers agree with its
counter. -/
structure Ok (w : Words) (m : Mem) : Prop where
  rsize : 8 ≤ m.rsize.toNat
  fits : m.nrBlocks.toNat * m.rsize.toNat ≤ m.run.bytes
  inside : m.memory.toNat + m.run.bytes ≤ 2 ^ 32
  flag : ∀ k < m.nrBlocks.toNat, ¬ m.Used w k → flagAt w (m.hdr k) = freeMem
  count : m.nrAlloc.toNat = m.used w
  pos : 0 < m.nrAlloc.toNat

/-- A pool without memory. -/
structure Idle (m : Mem) : Prop where
  nrBlocks : m.nrBlocks = 0
  nrAlloc : m.nrAlloc = 0

theorem Idle.not_lt (h : m.Idle) : ¬ k < m.nrBlocks.toNat := by
  rw [h.nrBlocks, UInt32.toNat_zero]
  exact Nat.not_lt_zero k

/-- The blocks of a pool are in its run, one after the other. -/
theorem Ok.hdr_le (h : m.Ok w) (hk : k < m.nrBlocks.toNat) :
    m.hdr k + m.rsize.toNat ≤ m.memory.toNat + m.run.bytes := by
  have hmul : (k + 1) * m.rsize.toNat ≤ m.nrBlocks.toNat * m.rsize.toNat :=
    Nat.mul_le_mul_right _ hk
  have := h.fits
  rw [Nat.succ_mul] at hmul
  rw [hdr]
  omega

theorem hdr_add_le (m : Mem) (hlt : k < k') : m.hdr k + m.rsize.toNat ≤ m.hdr k' := by
  have hmul : (k + 1) * m.rsize.toNat ≤ k' * m.rsize.toNat := Nat.mul_le_mul_right _ hlt
  rw [Nat.succ_mul] at hmul
  rw [hdr, hdr]
  omega

theorem memory_le_hdr (m : Mem) (k : ℕ) : m.memory.toNat ≤ m.hdr k := Nat.le_add_right _ _

/-- The blocks of a pool are apart. -/
theorem hdr_apart (m : Mem) (k k' : ℕ) :
    k = k' ∨ m.hdr k + m.rsize.toNat ≤ m.hdr k' ∨ m.hdr k' + m.rsize.toNat ≤ m.hdr k := by
  rcases Nat.lt_trichotomy k k' with hlt | heq | hgt
  · exact .inr (.inl (m.hdr_add_le hlt))
  · exact .inl heq
  · exact .inr (.inr (m.hdr_add_le hgt))

/-- The blocks of two pools are apart when the runs of the pools are. -/
theorem Ok.hdr_apart {m' : Mem} (h : m.Ok w) (h' : m'.Ok w') (hk : k < m.nrBlocks.toNat)
    (hk' : k' < m'.nrBlocks.toNat) (hap : m.run.Apart m'.run) :
    m.hdr k + m.rsize.toNat ≤ m'.hdr k' ∨ m'.hdr k' + m'.rsize.toNat ≤ m.hdr k := by
  have hle := h.hdr_le hk
  have hle' := h'.hdr_le hk'
  have hmem := m.memory_le_hdr k
  have hmem' := m'.memory_le_hdr k'
  rcases hap with hap | hap
  · have : m.memory.toNat + m.run.bytes ≤ m'.memory.toNat := hap
    exact .inl (by omega)
  · have : m'.memory.toNat + m'.run.bytes ≤ m.memory.toNat := hap
    exact .inr (by omega)

/-- The header of a block is outside of a run that is apart from the run of the pool. -/
theorem Ok.header_outside {r : PageRun} (h : m.Ok w) (hk : k < m.nrBlocks.toNat)
    (hap : r.Apart m.run) : r.1.toNat + r.bytes ≤ m.hdr k ∨ m.hdr k + 8 ≤ r.1.toNat := by
  have hle := h.hdr_le hk
  have h8 := h.rsize
  have hmem := m.memory_le_hdr k
  rcases hap with hap | hap
  · have : r.1.toNat + r.bytes ≤ m.memory.toNat := hap
    exact .inl (by omega)
  · have : m.memory.toNat + m.run.bytes ≤ r.1.toNat := hap
    exact .inr (by omega)

theorem nrBlocks_ne_zero (hk : k < m.nrBlocks.toNat) : m.nrBlocks ≠ 0 := by
  rw [Ne, ← UInt32.toNat_inj, UInt32.toNat_zero]
  omega

theorem Ok.bytes_pos (h : m.Ok w) (hact : m.nrBlocks ≠ 0) : 0 < m.run.bytes := by
  have hpos : 0 < m.nrBlocks.toNat := by
    rw [Ne, ← UInt32.toNat_inj, UInt32.toNat_zero] at hact
    omega
  have hle := h.hdr_le hpos
  have hmem := m.memory_le_hdr 0
  have h8 := h.rsize
  omega

/-- A size that a pool accepts has room behind the header. -/
theorem Ok.room {size : UInt32} (h : m.Ok w) (hsize : size ≤ m.rsize - headerSize) :
    8 + size.toNat ≤ m.rsize.toNat := by
  have h8 := h.rsize
  have hsub : (m.rsize - headerSize).toNat = m.rsize.toNat - 8 := by
    rw [headerSize, UInt32.toNat_sub_of_le]
    · rfl
    · exact UInt32.le_iff_toNat_le.mpr h8
  have hle := UInt32.le_iff_toNat_le.mp hsize
  omega

theorem not_used_of_free (h : flagAt w (m.hdr k) = freeMem) : ¬ m.Used w k := by
  rw [Used, h]
  decide

/-- Flags that do not change keep a pool as it is. -/
theorem used_congr (hflag : ∀ k < m.nrBlocks.toNat, flagAt w' (m.hdr k) = flagAt w (m.hdr k)) :
    m.used w' = m.used w := by
  rw [used, used]
  congr 1
  apply Finset.filter_congr
  intro k hk
  rw [Used, Used, hflag k (Finset.mem_range.mp hk)]

theorem Ok.congr (h : m.Ok w)
    (hflag : ∀ k < m.nrBlocks.toNat, flagAt w' (m.hdr k) = flagAt w (m.hdr k)) : m.Ok w' where
  rsize := h.rsize
  fits := h.fits
  inside := h.inside
  flag := by
    intro k hk hused
    rw [Used, hflag k hk] at hused
    rw [hflag k hk]
    exact h.flag k hk hused
  count := by rw [used_congr hflag, h.count]
  pos := h.pos

/-- Writes outside the run of a pool do not change its flags. -/
theorem Ok.flag_agree {lo hi : ℕ} (h : m.Ok w) (hagree : AgreeOutside lo hi w w')
    (hout : m.memory.toNat + m.run.bytes ≤ lo ∨ hi ≤ m.memory.toNat) :
    ∀ k < m.nrBlocks.toNat, flagAt w' (m.hdr k) = flagAt w (m.hdr k) := by
  intro k hk
  have hle := h.hdr_le hk
  have hmem := m.memory_le_hdr k
  have h8 := h.rsize
  have hin := h.inside
  exact hagree.flagAt (by omega) (by omega)

/-- A write to the header of one block leaves the flags of the others. -/
theorem Ok.flag_other (h : m.Ok w)
    (hagree : AgreeOutside (m.hdr k) (m.hdr k + 8) w w') :
    ∀ k' < m.nrBlocks.toNat, k' ≠ k → flagAt w' (m.hdr k') = flagAt w (m.hdr k') := by
  intro k' hk' hne
  have hle := h.hdr_le hk'
  have h8 := h.rsize
  have hin := h.inside
  rcases Nat.lt_or_gt_of_ne hne with hlt | hgt
  · have := m.hdr_add_le hlt
    exact hagree.flagAt (by omega) (.inl (by omega))
  · have := m.hdr_add_le hgt
    exact hagree.flagAt (by omega) (.inr (by omega))

/-- One more block in use. -/
theorem used_succ (hk : k < m.nrBlocks.toNat) (hbefore : ¬ m.Used w k) (hafter : m.Used w' k)
    (hother : ∀ k' < m.nrBlocks.toNat, k' ≠ k → (m.Used w' k' ↔ m.Used w k')) :
    m.used w' = m.used w + 1 := by
  have hset : (Finset.range m.nrBlocks.toNat).filter (m.Used w') =
      insert k ((Finset.range m.nrBlocks.toNat).filter (m.Used w)) := by
    ext k'
    rw [Finset.mem_insert, Finset.mem_filter, Finset.mem_filter, Finset.mem_range]
    by_cases he : k' = k
    · subst he
      simp [hk, hafter]
    · constructor
      · rintro ⟨hk', hu⟩
        exact .inr ⟨hk', (hother k' hk' he).mp hu⟩
      · rintro (he' | ⟨hk', hu⟩)
        · exact absurd he' he
        · exact ⟨hk', (hother k' hk' he).mpr hu⟩
  rw [used, hset, Finset.card_insert_of_notMem, used]
  rw [Finset.mem_filter]
  exact fun h => hbefore h.2

/-- Block `k` is free in `w` and in use in `w'`, and the other headers say the same in both. -/
structure TakenIn (w w' : Words) (m : Mem) (k : ℕ) : Prop where
  lt : k < m.nrBlocks.toNat
  free : flagAt w (m.hdr k) = freeMem
  used : m.Used w' k
  other : ∀ k' < m.nrBlocks.toNat, k' ≠ k → flagAt w' (m.hdr k') = flagAt w (m.hdr k')

theorem TakenIn.not_used (h : m.TakenIn w w' k) : ¬ m.Used w k := not_used_of_free h.free

/-- A header that was free is written for a block that is taken. -/
theorem Ok.setHeader {hdr : UInt32} (h : m.Ok w) (hk : k < m.nrBlocks.toNat)
    (hhdr : hdr.toNat = m.hdr k) (hfree : flagAt w (m.hdr k) = freeMem) (slot : UInt32) :
    AgreeOutside (m.hdr k) (m.hdr k + 8) w (Mm.setHeader w hdr slot usedMem) ∧
      m.TakenIn w (Mm.setHeader w hdr slot usedMem) k := by
  have hle := h.hdr_le hk
  have h8 := h.rsize
  have hin := h.inside
  have hagree : AgreeOutside (m.hdr k) (m.hdr k + 8) w (Mm.setHeader w hdr slot usedMem) := by
    rw [← hhdr]
    exact setHeader_agree (by omega)
  refine ⟨hagree, hk, hfree, ?_, h.flag_other hagree⟩
  rw [Used, ← hhdr]
  exact flagAt_setHeader _ _ _ _

theorem TakenIn.used_iff (h : m.TakenIn w w' k) (hk' : k' < m.nrBlocks.toNat) (hne : k' ≠ k) :
    m.Used w' k' ↔ m.Used w k' := by
  rw [Used, Used, h.other k' hk' hne]

theorem TakenIn.used_succ (h : m.TakenIn w w' k) : m.used w' = m.used w + 1 :=
  Mem.used_succ h.lt h.not_used h.used fun _ hk' hne => h.used_iff hk' hne

/-- The pool with one more block in use. -/
theorem TakenIn.ok_succ (h : m.TakenIn w w' k) (hok : m.Ok w)
    (havail : m.nrAlloc.toNat < m.nrBlocks.toNat) :
    Ok w' { m with nrAlloc := m.nrAlloc + 1 } := by
  have hmax := m.nrBlocks.toNat_lt
  have hfull : (m.nrAlloc + 1).toNat = m.nrAlloc.toNat + 1 := Lib.toNat_succ (by omega)
  refine ⟨hok.rsize, hok.fits, hok.inside, fun k' hk' hu => ?_, ?_, hfull ▸ Nat.succ_pos _⟩
  · have hne : k' ≠ k := by
      rintro rfl
      exact hu h.used
    exact (h.other k' hk' hne).trans
      (hok.flag k' hk' fun hu' => hu ((h.used_iff hk' hne).mpr hu'))
  · exact hfull.trans ((congrArg (· + 1) hok.count).trans h.used_succ.symm)

theorem TakenIn.nrAlloc_sub_one (h : m.TakenIn w w' k) (hok : m.Ok w') :
    (m.nrAlloc - 1).toNat = m.used w := by
  have hcount := hok.count
  have hsucc := h.used_succ
  rw [UInt32.toNat_sub_of_le]
  · simp only [UInt32.reduceToNat]
    omega
  · rw [UInt32.le_iff_toNat_le]
    exact hok.pos

/-- The pool with one block less in use. -/
theorem TakenIn.ok_pred (h : m.TakenIn w w' k) (hok : m.Ok w') (hne : m.nrAlloc - 1 ≠ 0) :
    Ok w { m with nrAlloc := m.nrAlloc - 1 } := by
  refine ⟨hok.rsize, hok.fits, hok.inside, fun k' hk' hu => ?_, h.nrAlloc_sub_one hok, ?_⟩
  · by_cases hk : k' = k
    · subst hk
      exact h.free
    · exact (h.other k' hk' hk).symm.trans
        (hok.flag k' hk' fun hu' => hu ((h.used_iff hk' hk).mp hu'))
  · rw [Ne, ← UInt32.toNat_inj, UInt32.toNat_zero] at hne
    exact Nat.pos_of_ne_zero hne

/-- It was the last block in use. -/
theorem TakenIn.none_used (h : m.TakenIn w w' k) (hok : m.Ok w') (h0 : m.nrAlloc - 1 = 0) :
    ∀ k' < m.nrBlocks.toNat, ¬ m.Used w k' := by
  have hzero : m.used w = 0 := by
    rw [← h.nrAlloc_sub_one hok, h0]
    rfl
  rw [Mem.used, Finset.card_eq_zero, Finset.filter_eq_empty_iff] at hzero
  exact fun k' hk' => hzero (Finset.mem_range.mpr hk')

end Mem

/-! ### The heap and its live blocks -/

/-- Who a run of pages belongs to. -/
inductive Owner
  | table (a : UInt32)
  | pool (a : UInt32) (i : Fin nrSizes)
  deriving DecidableEq

/-- The runs of pages of a heap: a page for each table, and what its pools have. -/
def Heap.Owns (h : Heap) : Owner → PageRun → Prop
  | .table a, r => (h.table a).isSome ∧ r = (a, nrBlocks tableSize)
  | .pool a i, r => ∃ m, h.pool a i = some m ∧ m.nrBlocks ≠ 0 ∧ r = m.run

/-- A state of a run: the heap and the live blocks, with the sizes asked for. -/
structure HeapRun where
  heap : Heap
  live : List (UInt32 × UInt32)

namespace HeapRun

/-- A block of a pool starts behind the header. -/
def IsBlock (m : Mem) (k : ℕ) (p : UInt32) : Prop :=
  k < m.nrBlocks.toNat ∧ (p - headerSize).toNat = m.hdr k

theorem IsBlock.sub_headerSize {m : Mem} {k : ℕ} {p : UInt32} (h : IsBlock m k p) :
    p - headerSize = .ofNat (m.hdr k) := by
  rw [← h.2, UInt32.ofNat_toNat]

/-- The address of a block tells where its header is. -/
theorem IsBlock.inj {m m' : Mem} {k k' : ℕ} {p p' : UInt32} (h : IsBlock m k p)
    (h' : IsBlock m' k' p') (heq : m.hdr k = m'.hdr k') : p = p' := by
  rw [← UInt32.sub_add_cancel p headerSize, ← UInt32.sub_add_cancel p' headerSize,
    h.sub_headerSize, h'.sub_headerSize, heq]

/-- The address behind the start of a run apart from the pool's is not a block. -/
theorem IsBlock.not_of_apart {m : Mem} {w : Words} {k : ℕ} {r : PageRun} (hok : m.Ok w)
    (hap : r.Apart m.run) (hpos : 0 < r.bytes) : ¬ IsBlock m k (r.1 + headerSize) := by
  intro hb
  have heq := hb.2
  rw [UInt32.add_sub_cancel] at heq
  rcases hok.header_outside hb.1 hap with hx | hx
  · omega
  · omega

/-- The invariant of the heap. -/
structure Inv (s : HeapRun) : Prop where
  nodup : (s.heap.root.map Table.addr).Nodup
  pools : ∀ a i m, s.heap.pool a i = some m → m.Idle ∨ (m.nrBlocks ≠ 0 ∧ m.Ok s.heap.words)
  apart : ∀ o o' r r', s.heap.Owns o r → s.heap.Owns o' r' → o ≠ o' → r.Apart r'
  held : ∀ r, r ∈ held s.heap.pageLog ↔ ∃ o, s.heap.Owns o r
  heldNodup : (Mm.held s.heap.pageLog).Nodup
  freed : FreedHeld s.heap.pageLog
  block : ∀ b ∈ s.live, ∃ a i m k, s.heap.pool a i = some m ∧ IsBlock m k b.1 ∧
    8 + b.2.toNat ≤ m.rsize.toNat ∧ m.Used s.heap.words k
  liveNodup : (s.live.map Prod.fst).Nodup
  used : ∀ a i m k, s.heap.pool a i = some m → k < m.nrBlocks.toNat → m.Used s.heap.words k →
    ∃ b ∈ s.live, IsBlock m k b.1

variable {s : HeapRun} {a a' : UInt32} {i i' : Fin nrSizes} {m m' : Mem} {k k' : ℕ} {p : UInt32}

/-- A pool with a block is not free. -/
theorem Inv.ok (h : s.Inv) (hp : s.heap.pool a i = some m) (hk : k < m.nrBlocks.toNat) :
    m.nrBlocks ≠ 0 ∧ m.Ok s.heap.words := by
  rcases h.pools a i m hp with hidle | hok
  · exact absurd hk hidle.not_lt
  · exact hok

theorem Inv.owns (h : s.Inv) (hp : s.heap.pool a i = some m) (hk : k < m.nrBlocks.toNat) :
    s.heap.Owns (.pool a i) m.run := ⟨m, hp, (h.ok hp hk).1, rfl⟩

/-- **Blocks do not overlap**: a block is the block of one pool, at one place, and different
blocks are apart. -/
theorem Inv.blocks_apart (h : s.Inv) (hp : s.heap.pool a i = some m) (hk : k < m.nrBlocks.toNat)
    (hp' : s.heap.pool a' i' = some m') (hk' : k' < m'.nrBlocks.toNat) :
    (a = a' ∧ i = i' ∧ m = m' ∧ k = k') ∨ m.hdr k + m.rsize.toNat ≤ m'.hdr k' ∨
      m'.hdr k' + m'.rsize.toNat ≤ m.hdr k := by
  by_cases ho : Owner.pool a i = Owner.pool a' i'
  · cases ho
    have hm : m = m' := by
      rw [hp] at hp'
      exact Option.some.inj hp'
    subst hm
    exact (m.hdr_apart k k').imp_left fun heq => ⟨rfl, rfl, rfl, heq⟩
  · have hap := h.apart _ _ _ _ (h.owns hp hk) (h.owns hp' hk') ho
    exact .inr ((h.ok hp hk).2.hdr_apart (h.ok hp' hk').2 hk hk' hap)

/-- A block belongs to one pool. -/
theorem Inv.block_unique (h : s.Inv) (hp : s.heap.pool a i = some m) (hb : IsBlock m k p)
    (hp' : s.heap.pool a' i' = some m') (hb' : IsBlock m' k' p) :
    a = a' ∧ i = i' ∧ m = m' ∧ k = k' := by
  have h8 := (h.ok hp hb.1).2.rsize
  have h8' := (h.ok hp' hb'.1).2.rsize
  have heq := hb.2
  have heq' := hb'.2
  rcases h.blocks_apart hp hb.1 hp' hb'.1 with h' | h' | h'
  · exact h'
  · omega
  · omega

/-! ### A change of one pool -/

/-- A heap with one pool changed, and the memory in a range. -/
structure Changes (h h' : Heap) (a : UInt32) (i : Fin nrSizes) (m m' : Mem) (lo hi : ℕ) : Prop where
  addrs : h'.root.map Table.addr = h.root.map Table.addr
  pool : h.pool a i = some m
  pool' : ∀ b j, h'.pool b j = if b = a ∧ j = i then some m' else h.pool b j
  words : AgreeOutside lo hi h.words h'.words

theorem isSome_table {h h' : Heap} (haddrs : h'.root.map Table.addr = h.root.map Table.addr)
    (b : UInt32) : (h'.table b).isSome = (h.table b).isSome := by
  have hiff : ∀ g : Heap, (g.table b).isSome = true ↔ b ∈ g.root.map Table.addr := by
    intro g
    rw [Heap.table, List.find?_isSome, List.mem_map]
    simp
  rw [Bool.eq_iff_iff, hiff, hiff, haddrs]

variable {h' : Heap} {lo hi : ℕ}

theorem Changes.owns {h : Heap} (hc : Changes h h' a i m m' lo hi) (o : Owner) (r : PageRun) :
    h'.Owns o r ↔ if o = .pool a i then m'.nrBlocks ≠ 0 ∧ r = m'.run else h.Owns o r := by
  cases o with
  | table b => simp only [Heap.Owns, isSome_table hc.addrs b, reduceCtorEq, if_false]
  | pool b j =>
      rw [Heap.Owns, hc.pool']
      by_cases ho : b = a ∧ j = i
      · rw [if_pos ho, if_pos (by rw [ho.1, ho.2])]
        simp
      · have hne : Owner.pool b j ≠ Owner.pool a i := by
          intro he
          cases he
          exact ho ⟨rfl, rfl⟩
        rw [if_neg ho, if_neg hne, Heap.Owns]

/-- **The rule for a change of one pool.** The rest of the heap is as before; what is left to
show is about the pool itself, the record of the page allocator's calls, and the live
blocks. -/
theorem Inv.change (h : s.Inv) {live : List (UInt32 × UInt32)}
    (hc : Changes s.heap h' a i m m' lo hi)
    -- The memory written belongs to no other pool.
    (hrange : ∀ b j m₂, s.heap.pool b j = some m₂ → ¬ (b = a ∧ j = i) → m₂.nrBlocks ≠ 0 →
      m₂.memory.toNat + m₂.run.bytes ≤ lo ∨ hi ≤ m₂.memory.toNat)
    (hpool : m'.Idle ∨ (m'.nrBlocks ≠ 0 ∧ m'.Ok h'.words))
    (hapart : m'.nrBlocks ≠ 0 → ∀ o r, s.heap.Owns o r → o ≠ .pool a i → m'.run.Apart r)
    (hheld : ∀ r, r ∈ Mm.held h'.pageLog ↔
      (∃ o, o ≠ .pool a i ∧ s.heap.Owns o r) ∨ (m'.nrBlocks ≠ 0 ∧ r = m'.run))
    (hheldNodup : (Mm.held h'.pageLog).Nodup) (hfreed : FreedHeld h'.pageLog)
    (hnodup : (live.map Prod.fst).Nodup)
    -- A live block is in the pool, or is an old one and not in the pool.
    (hlive : ∀ b ∈ live, (∃ k, IsBlock m' k b.1 ∧ 8 + b.2.toNat ≤ m'.rsize.toNat ∧
      m'.Used h'.words k) ∨ (b ∈ s.live ∧ ∀ k, ¬ IsBlock m k b.1))
    (hkeep : ∀ b ∈ s.live, (∀ k, ¬ IsBlock m k b.1) → b ∈ live)
    (hused : ∀ k < m'.nrBlocks.toNat, m'.Used h'.words k → ∃ b ∈ live, IsBlock m' k b.1) :
    Inv ⟨h', live⟩ := by
  have hflag : ∀ b j m₂, s.heap.pool b j = some m₂ → ¬ (b = a ∧ j = i) →
      ∀ k < m₂.nrBlocks.toNat, flagAt h'.words (m₂.hdr k) = flagAt s.heap.words (m₂.hdr k) := by
    intro b j m₂ hp hne k hk
    obtain ⟨hact, hok⟩ := h.ok hp hk
    exact hok.flag_agree hc.words (hrange b j m₂ hp hne hact) k hk
  constructor
  case nodup => exact hc.addrs.symm ▸ h.nodup
  case pools =>
    intro b j m₂ hp
    rw [hc.pool'] at hp
    split at hp
    · cases hp
      exact hpool
    · rename_i hne
      rcases h.pools b j m₂ hp with hidle | ⟨hact, hok⟩
      · exact .inl hidle
      · exact .inr ⟨hact, hok.congr (hflag b j m₂ hp hne)⟩
  case apart =>
    intro o o' r r' ho ho' hne
    rw [hc.owns] at ho ho'
    by_cases h1 : o = .pool a i
    · rw [if_pos h1] at ho
      have h2 : o' ≠ .pool a i := fun he => hne (h1.trans he.symm)
      rw [if_neg h2] at ho'
      rw [ho.2]
      exact hapart ho.1 o' r' ho' h2
    · rw [if_neg h1] at ho
      by_cases h2 : o' = .pool a i
      · rw [if_pos h2] at ho'
        rw [ho'.2]
        exact (hapart ho'.1 o r ho h1).symm
      · rw [if_neg h2] at ho'
        exact h.apart o o' r r' ho ho' hne
  case held =>
    intro r
    rw [hheld]
    constructor
    · rintro (⟨o, hne, ho⟩ | hm)
      · exact ⟨o, by rw [hc.owns, if_neg hne]; exact ho⟩
      · exact ⟨.pool a i, by rw [hc.owns, if_pos rfl]; exact hm⟩
    · rintro ⟨o, ho⟩
      rw [hc.owns] at ho
      split at ho
      · exact .inr ho
      · exact .inl ⟨o, by assumption, ho⟩
  case heldNodup => exact hheldNodup
  case freed => exact hfreed
  case block =>
    intro b hb
    rcases hlive b hb with ⟨k, hk, hsize, hu⟩ | ⟨hold, hout⟩
    · exact ⟨a, i, m', k, by rw [hc.pool', if_pos ⟨rfl, rfl⟩], hk, hsize, hu⟩
    · obtain ⟨b', j, m₂, k, hp, hk, hsize, hu⟩ := h.block b hold
      have hne : ¬ (b' = a ∧ j = i) := by
        rintro ⟨rfl, rfl⟩
        rw [hc.pool] at hp
        cases hp
        exact hout k hk
      refine ⟨b', j, m₂, k, by rw [hc.pool', if_neg hne]; exact hp, hk, hsize, ?_⟩
      rw [Mem.Used, hflag b' j m₂ hp hne k hk.1]
      exact hu
  case liveNodup => exact hnodup
  case used =>
    intro b j m₂ k hp hk hu
    rw [hc.pool'] at hp
    split at hp
    · cases hp
      exact hused k hk hu
    · rename_i hne
      rw [Mem.Used, hflag b j m₂ hp hne k hk] at hu
      obtain ⟨x, hx, hxk⟩ := h.used b j m₂ k hp hk hu
      refine ⟨x, hkeep x hx fun k' hk' => ?_, hxk⟩
      obtain ⟨rfl, rfl, -⟩ := h.block_unique hp hxk hc.pool hk'
      exact hne ⟨rfl, rfl⟩

end HeapRun
end OxKernel.Mm
