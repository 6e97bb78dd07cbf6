import OxKernel.Mm.KmallocSafety

/-!
# A family of pools

The pools of one table, without the table: pools that are numbered by any type, in one
memory. A block is taken from a pool, a pool is opened and a block is given back; each of
the three keeps an invariant that ties the counters, the headers and the live blocks
together. Every header in use has the slot number of its own pool.

## Main definitions

* `Pools` — pools, memory, the page allocator's calls and the live blocks.
* `Pools.Serves` — a block of a pool is a live one.
* `Pools.Inv` — the invariant, given the slot numbers and the page runs of other owners.
* `Pools.Law` — what it means for the live blocks.
-/
namespace OxKernel.Mm

open HeapRun (IsBlock region)

/-- Pools, their memory, the record of the page allocator's calls, and the live blocks with
the sizes asked for. -/
structure Pools (ι : Type) where
  mem : ι → Mem
  words : Words
  pageLog : List PageEvent
  live : List (UInt32 × UInt32)

theorem setHeader_slot (w : Words) (hdr slot flag : UInt32) :
    setHeader w hdr slot flag hdr = slot := by
  have hne : hdr ≠ hdr + 4 := by simp
  rw [setHeader, Function.update_of_ne hne, Function.update_self]

/-- Initializing the blocks of a pool clears the slot number of the first one. -/
theorem clearBlocks_slot {rsize mptr : UInt32} {n : ℕ} {w : Words} (hr : 8 ≤ rsize.toNat)
    (hend : mptr.toNat + n * rsize.toNat ≤ 2 ^ 32) (hn : 0 < n) :
    clearBlocks rsize n mptr w mptr = 0 := by
  obtain ⟨n, rfl⟩ := Nat.exists_eq_succ_of_ne_zero hn.ne'
  rw [clearBlocks]
  by_cases hn : n = 0
  · rw [hn, clearBlocks, setHeader_slot]
  · have hpos : rsize.toNat ≤ n * rsize.toNat := Nat.le_mul_of_pos_left _ (by omega)
    rw [Nat.succ_mul] at hend
    have hnext : (mptr + rsize).toNat = mptr.toNat + rsize.toNat := Lib.toNat_add_of_lt (by omega)
    have hrest := (clearBlocks_spec (w := setHeader w mptr 0 freeMem) hr
      (by rw [hnext]; omega : (mptr + rsize).toNat + n * rsize.toNat ≤ 2 ^ 32)).1
    have hfirst := hrest mptr.toNat mptr.toNat_lt (by omega)
    rw [UInt32.ofNat_toNat] at hfirst
    rw [hfirst, setHeader_slot]

namespace Mem

variable {m : Mem} {w w' : Words} {k k' : ℕ} {lo hi : ℕ}

/-- Writes outside the run of a pool do not change its slot numbers. -/
theorem Ok.slot_agree (h : m.Ok w) (hagree : AgreeOutside lo hi w w')
    (hout : m.memory.toNat + m.run.bytes ≤ lo ∨ hi ≤ m.memory.toNat)
    (hk : k < m.nrBlocks.toNat) : w' (.ofNat (m.hdr k)) = w (.ofNat (m.hdr k)) := by
  have hle := h.hdr_le hk
  have hmem := m.memory_le_hdr k
  have h8 := h.rsize
  have hin := h.inside
  exact hagree _ (by omega) (by omega)

/-- A write to the header of one block leaves the slot numbers of the others. -/
theorem Ok.slot_other (h : m.Ok w) (hagree : AgreeOutside (m.hdr k) (m.hdr k + 8) w w')
    (hk' : k' < m.nrBlocks.toNat) (hne : k' ≠ k) :
    w' (.ofNat (m.hdr k')) = w (.ofNat (m.hdr k')) := by
  have hle := h.hdr_le hk'
  have h8 := h.rsize
  have hin := h.inside
  rcases Nat.lt_or_gt_of_ne hne with hlt | hgt
  · have := m.hdr_add_le hlt
    exact hagree _ (by omega) (by omega)
  · have := m.hdr_add_le hgt
    exact hagree _ (by omega) (by omega)

end Mem

namespace Pools

/-- Block `k` of a pool is the live block `b`, and its header has the slot number. -/
structure Serves (slot : UInt32) (w : Words) (m : Mem) (k : ℕ) (b : UInt32 × UInt32) : Prop where
  isBlock : IsBlock m k b.1
  room : 8 + b.2.toNat ≤ m.rsize.toNat
  used : m.Used w k
  slot : w (b.1 - headerSize) = slot

/-- The invariant of a family of pools with slot numbers, beside page runs of other owners. -/
structure Inv {ι : Type} (slot : ι → UInt32) (base : List PageRun) (s : Pools ι) : Prop where
  pools : ∀ i, (s.mem i).Idle ∨ ((s.mem i).nrBlocks ≠ 0 ∧ (s.mem i).Ok s.words)
  apart : ∀ i j, i ≠ j → (s.mem i).nrBlocks ≠ 0 → (s.mem j).nrBlocks ≠ 0 →
    (s.mem i).run.Apart (s.mem j).run
  held : ∀ i, (s.mem i).nrBlocks ≠ 0 → (s.mem i).run ∈ held s.pageLog
  base : ∀ r ∈ base, r ∈ Mm.held s.pageLog ∧
    ∀ i, (s.mem i).nrBlocks ≠ 0 → (s.mem i).run.Apart r
  block : ∀ b ∈ s.live, ∃ i k, Serves (slot i) s.words (s.mem i) k b
  liveNodup : (s.live.map Prod.fst).Nodup
  used : ∀ i, ∀ k < (s.mem i).nrBlocks.toNat, (s.mem i).Used s.words k →
    ∃ b ∈ s.live, IsBlock (s.mem i) k b.1

variable {ι : Type} {slot : ι → UInt32} {base : List PageRun} {s s' : Pools ι} {i j : ι}
  {k k' : ℕ} {p size : UInt32}

/-- Pools without memory. -/
theorem inv_idle {mem : ι → Mem} {w : Words} {log : List PageEvent} (hidle : ∀ i, (mem i).Idle)
    (hbase : ∀ r ∈ base, r ∈ held log) : Inv slot base ⟨mem, w, log, []⟩ where
  pools := fun i => .inl (hidle i)
  apart := fun i _ _ hact => absurd (hidle i).nrBlocks hact
  held := fun i hact => absurd (hidle i).nrBlocks hact
  base := fun r hr => ⟨hbase r hr, fun i hact => absurd (hidle i).nrBlocks hact⟩
  block := fun _ hb => absurd hb List.not_mem_nil
  liveNodup := List.nodup_nil
  used := fun i _ hk => absurd hk (hidle i).not_lt

theorem Inv.ok (h : s.Inv slot base) (hact : (s.mem i).nrBlocks ≠ 0) : (s.mem i).Ok s.words := by
  rcases h.pools i with hidle | hok
  · exact absurd hidle.nrBlocks hact
  · exact hok.2

/-- A pool with a block has memory. -/
theorem Inv.active (h : s.Inv slot base) (hk : k < (s.mem i).nrBlocks.toNat) :
    (s.mem i).nrBlocks ≠ 0 ∧ (s.mem i).Ok s.words := by
  rcases h.pools i with hidle | hok
  · exact absurd hk hidle.not_lt
  · exact hok

/-- **Blocks do not overlap.** -/
theorem Inv.blocks_apart (h : s.Inv slot base) (hk : k < (s.mem i).nrBlocks.toNat)
    (hk' : k' < (s.mem j).nrBlocks.toNat) :
    (i = j ∧ k = k') ∨ (s.mem i).hdr k + (s.mem i).rsize.toNat ≤ (s.mem j).hdr k' ∨
      (s.mem j).hdr k' + (s.mem j).rsize.toNat ≤ (s.mem i).hdr k := by
  by_cases hij : i = j
  · subst hij
    exact ((s.mem i).hdr_apart k k').imp_left fun heq => ⟨rfl, heq⟩
  · have hap := h.apart i j hij (h.active hk).1 (h.active hk').1
    exact .inr ((h.active hk).2.hdr_apart (h.active hk').2 hk hk' hap)

/-- A block belongs to one pool. -/
theorem Inv.block_unique (h : s.Inv slot base) (hb : IsBlock (s.mem i) k p)
    (hb' : IsBlock (s.mem j) k' p) : i = j ∧ k = k' := by
  have h8 := (h.active hb.1).2.rsize
  have h8' := (h.active hb'.1).2.rsize
  have heq := hb.2
  have heq' := hb'.2
  rcases h.blocks_apart hb.1 hb'.1 with h' | h' | h'
  · exact h'
  · omega
  · omega

/-- The header of a block is outside the pages of the other pools. -/
theorem Inv.header_apart (h : s.Inv slot base) (hk : k < (s.mem i).nrBlocks.toNat) (hne : j ≠ i)
    (hact : (s.mem j).nrBlocks ≠ 0) :
    (s.mem j).memory.toNat + (s.mem j).run.bytes ≤ (s.mem i).hdr k ∨
      (s.mem i).hdr k + 8 ≤ (s.mem j).memory.toNat := by
  obtain ⟨hact', hok⟩ := h.active hk
  exact hok.header_outside hk (h.apart j i hne hact hact')

/-- Two live blocks at one header are one. -/
theorem Inv.live_unique (h : s.Inv slot base) {b b' : UInt32 × UInt32} (hb : b ∈ s.live)
    (hb' : b' ∈ s.live) (hk : IsBlock (s.mem i) k b.1) (hk' : IsBlock (s.mem i) k b'.1) :
    b = b' := List.inj_on_of_nodup_map h.liveNodup hb hb' (hk.inj hk' rfl)

/-- A live block serves wherever it is. -/
theorem Inv.serves (h : s.Inv slot base) {b : UInt32 × UInt32} (hb : b ∈ s.live)
    (hk : IsBlock (s.mem i) k b.1) : Serves (slot i) s.words (s.mem i) k b := by
  obtain ⟨j, k', hs⟩ := h.block b hb
  obtain ⟨rfl, rfl⟩ := h.block_unique hs.isBlock hk
  exact hs

/-- The counter of a pool is one exactly if a live block is the only one in it. -/
theorem Inv.last_iff (h : s.Inv slot base) {b : UInt32 × UInt32} (hb : b ∈ s.live)
    (hk : IsBlock (s.mem i) k b.1) :
    (s.mem i).nrAlloc - 1 = 0 ↔ ∀ b' ∈ s.live, (∃ k', IsBlock (s.mem i) k' b'.1) → b' = b := by
  obtain ⟨-, hok⟩ := h.active hk.1
  have hone : (s.mem i).nrAlloc - 1 = 0 ↔ (s.mem i).used s.words = 1 := by
    rw [← hok.count, ← UInt32.toNat_inj, UInt32.toNat_sub_of_le]
    · have := hok.pos
      simp only [UInt32.reduceToNat]
      omega
    · rw [UInt32.le_iff_toNat_le]
      exact hok.pos
  have hmem : k ∈ (Finset.range (s.mem i).nrBlocks.toNat).filter ((s.mem i).Used s.words) :=
    Finset.mem_filter.mpr ⟨Finset.mem_range.mpr hk.1, (h.serves hb hk).used⟩
  rw [hone, Mem.used]
  constructor
  · rintro hcard b' hb' ⟨k', hk'⟩
    have hmem' : k' ∈ (Finset.range (s.mem i).nrBlocks.toNat).filter ((s.mem i).Used s.words) :=
      Finset.mem_filter.mpr ⟨Finset.mem_range.mpr hk'.1, (h.serves hb' hk').used⟩
    obtain rfl : k' = k := Finset.card_le_one.mp hcard.le k' hmem' k hmem
    exact h.live_unique hb' hb hk' hk
  · intro honly
    rw [Finset.card_eq_one]
    refine ⟨k, Finset.eq_singleton_iff_unique_mem.mpr ⟨hmem, fun k' hk' => ?_⟩⟩
    rw [Finset.mem_filter, Finset.mem_range] at hk'
    obtain ⟨b', hb', hbk'⟩ := h.used i k' hk'.1 hk'.2
    obtain rfl := honly b' hb' ⟨k', hbk'⟩
    exact (h.block_unique hbk' hk).2

/-! ### A change of one pool -/

/-- One pool is changed, and the memory in a range that belongs to no other pool. -/
structure Changes (s s' : Pools ι) (i : ι) (lo hi : ℕ) : Prop where
  mem : ∀ j, j ≠ i → s'.mem j = s.mem j
  words : AgreeOutside lo hi s.words s'.words
  range : ∀ j, j ≠ i → (s.mem j).nrBlocks ≠ 0 →
    (s.mem j).memory.toNat + (s.mem j).run.bytes ≤ lo ∨ hi ≤ (s.mem j).memory.toNat

variable {lo hi : ℕ}

/-- The other pools serve as before. -/
theorem Inv.serves_other (h : s.Inv slot base) (hc : Changes s s' i lo hi) (hne : j ≠ i)
    {b : UInt32 × UInt32} (hs : Serves (slot j) s.words (s.mem j) k b) :
    Serves (slot j) s'.words (s'.mem j) k b := by
  obtain ⟨hact, hok⟩ := h.active hs.isBlock.1
  have hout := hc.range j hne hact
  rw [hc.mem j hne]
  refine ⟨hs.isBlock, hs.room, ?_, ?_⟩
  · rw [Mem.Used, hok.flag_agree hc.words hout k hs.isBlock.1]
    exact hs.used
  · rw [hs.isBlock.sub_headerSize, hok.slot_agree hc.words hout hs.isBlock.1,
      ← hs.isBlock.sub_headerSize]
    exact hs.slot

/-- **The rule for a change of one pool.** What is left to show is about the pool itself, the
record of the page allocator's calls, and the live blocks. -/
theorem Inv.change (h : s.Inv slot base) (hc : Changes s s' i lo hi)
    (hpool : (s'.mem i).Idle ∨ ((s'.mem i).nrBlocks ≠ 0 ∧ (s'.mem i).Ok s'.words))
    (hapart : (s'.mem i).nrBlocks ≠ 0 →
      (∀ j, j ≠ i → (s.mem j).nrBlocks ≠ 0 → (s'.mem i).run.Apart (s.mem j).run) ∧
        ∀ r ∈ base, (s'.mem i).run.Apart r)
    -- The runs of others stay allocated.
    (hkeepHeld : ∀ r ∈ Mm.held s.pageLog,
      ((s.mem i).nrBlocks ≠ 0 → (s.mem i).run.Apart r) → r ∈ Mm.held s'.pageLog)
    (hheld : (s'.mem i).nrBlocks ≠ 0 → (s'.mem i).run ∈ Mm.held s'.pageLog)
    (hnodup : (s'.live.map Prod.fst).Nodup)
    -- A live block is in the pool, or is an old one and not in the pool.
    (hlive : ∀ b ∈ s'.live, (∃ k, Serves (slot i) s'.words (s'.mem i) k b) ∨
      (b ∈ s.live ∧ ∀ k, ¬ IsBlock (s.mem i) k b.1))
    (hkeep : ∀ b ∈ s.live, (∀ k, ¬ IsBlock (s.mem i) k b.1) → b ∈ s'.live)
    (hused : ∀ k < (s'.mem i).nrBlocks.toNat, (s'.mem i).Used s'.words k →
      ∃ b ∈ s'.live, IsBlock (s'.mem i) k b.1) :
    s'.Inv slot base := by
  constructor
  case pools =>
    intro j
    by_cases hj : j = i
    · exact hj ▸ hpool
    · rw [hc.mem j hj]
      rcases h.pools j with hidle | ⟨hact, hok⟩
      · exact .inl hidle
      · exact .inr ⟨hact, hok.congr (hok.flag_agree hc.words (hc.range j hj hact))⟩
  case apart =>
    intro j j' hne hact hact'
    by_cases hj : j = i
    · subst hj
      rw [hc.mem j' hne.symm] at hact' ⊢
      exact (hapart hact).1 j' hne.symm hact'
    · rw [hc.mem j hj] at hact ⊢
      by_cases hj' : j' = i
      · subst hj'
        exact ((hapart hact').1 j hj hact).symm
      · rw [hc.mem j' hj'] at hact' ⊢
        exact h.apart j j' hne hact hact'
  case held =>
    intro j hact
    by_cases hj : j = i
    · subst hj
      exact hheld hact
    · rw [hc.mem j hj] at hact ⊢
      exact hkeepHeld _ (h.held j hact) fun hact' => h.apart i j (Ne.symm hj) hact' hact
  case base =>
    intro r hr
    refine ⟨hkeepHeld r (h.base r hr).1 ((h.base r hr).2 i), fun j hact => ?_⟩
    by_cases hj : j = i
    · subst hj
      exact (hapart hact).2 r hr
    · rw [hc.mem j hj] at hact ⊢
      exact (h.base r hr).2 j hact
  case block =>
    intro b hb
    rcases hlive b hb with ⟨k, hs⟩ | ⟨hold, hout⟩
    · exact ⟨i, k, hs⟩
    · obtain ⟨j, k, hs⟩ := h.block b hold
      have hj : j ≠ i := by
        rintro rfl
        exact hout k hs.isBlock
      exact ⟨j, k, h.serves_other hc hj hs⟩
  case liveNodup => exact hnodup
  case used =>
    intro j k hk hu
    by_cases hj : j = i
    · subst hj
      exact hused k hk hu
    · rw [hc.mem j hj] at hk hu ⊢
      obtain ⟨hact, hok⟩ := h.active hk
      rw [Mem.Used, hok.flag_agree hc.words (hc.range j hj hact) k hk] at hu
      obtain ⟨b, hb, hblock⟩ := h.used j k hk hu
      refine ⟨b, hkeep b hb fun k' hk' => ?_, hblock⟩
      exact hj (h.block_unique hblock hk').1

/-! ### A block that is given back -/

/-- The blocks of the other pools stay. -/
theorem Inv.live_kept (h : s.Inv slot base) (hblock : IsBlock (s.mem i) k p) :
    ∀ b ∈ s.live, (∀ k', ¬ IsBlock (s.mem i) k' b.1) → b ∈ s.live.erase (p, size) := by
  intro b hb hout
  rw [h.liveNodup.of_map.mem_erase_iff]
  refine ⟨?_, hb⟩
  rintro rfl
  exact hout k hblock

/-- The block that is given back was in use and is free, the others are as before. -/
theorem Inv.takenIn_freed (h : s.Inv slot base) (hp : (p, size) ∈ s.live)
    (hblock : IsBlock (s.mem i) k p) :
    AgreeOutside ((s.mem i).hdr k) ((s.mem i).hdr k + 8) s.words
        (setFlag s.words (p - headerSize) freeMem) ∧
      (s.mem i).TakenIn (setFlag s.words (p - headerSize) freeMem) s.words k := by
  obtain ⟨-, hok⟩ := h.active hblock.1
  have hle := hok.hdr_le hblock.1
  have h8 := hok.rsize
  have hin := hok.inside
  have hhdr := hblock.2
  have hagree : AgreeOutside ((s.mem i).hdr k) ((s.mem i).hdr k + 8) s.words
      (setFlag s.words (p - headerSize) freeMem) := by
    rw [← hhdr]
    exact setFlag_agree (by omega)
  refine ⟨hagree, hblock.1, ?_, (h.serves hp hblock).used, fun k' hk' hne => ?_⟩
  · rw [← hhdr]
    exact flagAt_setFlag _ _ _
  · exact (hok.flag_other hagree k' hk' hne).symm

/-! ### Taking a block -/

variable [DecidableEq ι]

/-- **A free block of a pool is taken.** -/
theorem Inv.taken (h : s.Inv slot base) (hk : k < (s.mem i).nrBlocks.toNat)
    (hp : IsBlock (s.mem i) k p) (hfree : flagAt s.words ((s.mem i).hdr k) = freeMem)
    (hroom : 8 + size.toNat ≤ (s.mem i).rsize.toNat)
    (havail : (s.mem i).nrAlloc.toNat < (s.mem i).nrBlocks.toNat) :
    Inv slot base ⟨Function.update s.mem i { s.mem i with nrAlloc := (s.mem i).nrAlloc + 1 },
      setHeader s.words (p - headerSize) (slot i) usedMem, s.pageLog, (p, size) :: s.live⟩ := by
  obtain ⟨hact, hok⟩ := h.active hk
  obtain ⟨hagree, htaken⟩ := hok.setHeader hk hp.2 hfree (slot i)
  generalize hw : setHeader s.words (p - headerSize) (slot i) usedMem = w at hagree htaken ⊢
  have hslot : w (p - headerSize) = slot i := hw ▸ setHeader_slot _ _ _ _
  -- The block was not live.
  have hnew : p ∉ s.live.map Prod.fst := by
    intro hmem
    obtain ⟨b, hb, hb1⟩ := List.mem_map.mp hmem
    obtain ⟨j, k', hs⟩ := h.block b hb
    obtain ⟨rfl, rfl⟩ := h.block_unique (hb1 ▸ hs.isBlock) hp
    exact htaken.not_used hs.used
  have hmem : Function.update s.mem i { s.mem i with nrAlloc := (s.mem i).nrAlloc + 1 } i =
      { s.mem i with nrAlloc := (s.mem i).nrAlloc + 1 } := Function.update_self _ _ _
  have hchanges : Changes s ⟨Function.update s.mem i
      { s.mem i with nrAlloc := (s.mem i).nrAlloc + 1 }, w, s.pageLog, (p, size) :: s.live⟩ i
      ((s.mem i).hdr k) ((s.mem i).hdr k + 8) :=
    ⟨fun j hj => Function.update_of_ne hj _ _, hagree, fun j hj hactj => h.header_apart hk hj hactj⟩
  apply h.change hchanges
  case hpool =>
    dsimp only
    rw [hmem]
    exact .inr ⟨hact, htaken.ok_succ hok havail⟩
  case hapart =>
    dsimp only
    rw [hmem]
    exact fun _ => ⟨fun j hj hactj => h.apart i j (Ne.symm hj) hact hactj,
      fun r hr => (h.base r hr).2 i hact⟩
  case hkeepHeld => exact fun r hr _ => hr
  case hheld =>
    dsimp only
    rw [hmem]
    exact fun _ => h.held i hact
  case hnodup =>
    rw [List.map_cons, List.nodup_cons]
    exact ⟨hnew, h.liveNodup⟩
  case hlive =>
    dsimp only
    rw [hmem]
    intro b hb
    rcases List.mem_cons.mp hb with rfl | hb
    · exact .inl ⟨k, hp, hroom, htaken.used, hslot⟩
    · by_cases hin' : ∃ k', IsBlock (s.mem i) k' b.1
      · obtain ⟨k', hk'⟩ := hin'
        obtain ⟨j, k₂, hs⟩ := h.block b hb
        obtain ⟨rfl, rfl⟩ := h.block_unique hs.isBlock hk'
        have hne : k₂ ≠ k := by
          rintro rfl
          exact htaken.not_used hs.used
        refine .inl ⟨k₂, hk', hs.room, (htaken.used_iff hk'.1 hne).mpr hs.used, ?_⟩
        rw [hk'.sub_headerSize, hok.slot_other hagree hk'.1 hne, ← hk'.sub_headerSize]
        exact hs.slot
      · exact .inr ⟨hb, fun k' hk' => hin' ⟨k', hk'⟩⟩
  case hkeep => exact fun b hb _ => List.mem_cons_of_mem _ hb
  case hused =>
    dsimp only
    rw [hmem]
    intro k' hk' hu
    by_cases hne : k' = k
    · subst hne
      exact ⟨_, List.mem_cons_self, hp⟩
    · obtain ⟨b, hb, hbk⟩ := h.used i k' hk' ((htaken.used_iff hk' hne).mp hu)
      exact ⟨b, List.mem_cons_of_mem _ hb, hbk⟩

/-! ### Opening a pool -/

variable {poolAt : UInt32} {w : Words}

/-- **A pool without memory gets pages**, and its first block is taken. -/
theorem Inv.opened (h : s.Inv slot base) (hsize : size.toNat + 11 < 2 ^ 32)
    (hidle : (s.mem i).nrBlocks = 0)
    (hfresh : FreshLog (.alloc poolAt (nrBlocks (blockSize size)) :: s.pageLog))
    (hw : w = setFlag ((emptyHeap s.words).poolWords size poolAt) poolAt usedMem ∧ slot i = 0 ∨
      w = setHeader ((emptyHeap s.words).poolWords size poolAt) poolAt (slot i) usedMem) :
    Inv slot base ⟨Function.update s.mem i (newMem size poolAt), w,
      .alloc poolAt (nrBlocks (blockSize size)) :: s.pageLog,
      (poolAt + headerSize, size) :: s.live⟩ := by
  obtain ⟨hpos, hend, hap, -⟩ := hfresh
  have hend' : poolAt.toNat + (newMem size poolAt).run.bytes ≤ 2 ^ 32 := hend
  obtain ⟨hagree, hfirst, hrest⟩ := HeapRun.poolWords_spec hsize hpos hend' (hw.imp_left And.left)
  have hok := Mem.newMem_ok hsize hpos hend' hfirst hrest
  obtain ⟨h8, hblocks, hfits⟩ := Mem.newMem_blocks hsize hpos hend'
  have hact := Mem.nrBlocks_ne_zero hblocks
  have hslot : w poolAt = slot i := by
    rcases hw with ⟨rfl, hzero⟩ | rfl
    · have hne : poolAt ≠ poolAt + 4 := by simp
      rw [setFlag, Function.update_of_ne hne, hzero]
      have hclear : poolAt.toNat + (newMem size poolAt).nrBlocks.toNat *
          (newMem size poolAt).rsize.toNat ≤ 2 ^ 32 := by omega
      exact clearBlocks_slot h8 hclear hblocks
    · exact setHeader_slot _ _ _ _
  have hapart : ∀ j, (s.mem j).nrBlocks ≠ 0 → (newMem size poolAt).run.Apart (s.mem j).run :=
    fun j hactj => hap _ (h.held j hactj)
  have hblock := Mem.isBlock_newMem hblocks
  have hnotlive : poolAt + headerSize ∉ s.live.map Prod.fst := by
    intro hmem
    obtain ⟨b, hb, hb1⟩ := List.mem_map.mp hmem
    obtain ⟨j, k, hs⟩ := h.block b hb
    have hbk := hb1 ▸ hs.isBlock
    obtain ⟨hactj, hokj⟩ := h.active hbk.1
    exact HeapRun.IsBlock.not_of_apart hokj (hapart j hactj) (hok.bytes_pos hact) hbk
  have hmem : Function.update s.mem i (newMem size poolAt) i = newMem size poolAt :=
    Function.update_self _ _ _
  have hchanges : Changes s ⟨Function.update s.mem i (newMem size poolAt), w,
      .alloc poolAt (nrBlocks (blockSize size)) :: s.pageLog,
      (poolAt + headerSize, size) :: s.live⟩ i poolAt.toNat
      (poolAt.toNat + (newMem size poolAt).run.bytes) := by
    refine ⟨fun j hj => Function.update_of_ne hj _ _, hagree, fun j hj hactj => ?_⟩
    rcases hapart j hactj with hx | hx
    · exact .inr hx
    · exact .inl hx
  apply h.change hchanges
  case hpool =>
    dsimp only
    rw [hmem]
    exact .inr ⟨hact, hok⟩
  case hapart =>
    dsimp only
    rw [hmem]
    exact fun _ => ⟨fun j _ hactj => hapart j hactj, fun r hr => hap r (h.base r hr).1⟩
  case hkeepHeld => exact fun r hr _ => List.mem_cons_of_mem _ hr
  case hheld =>
    dsimp only
    rw [hmem]
    exact fun _ => List.mem_cons_self
  case hnodup =>
    rw [List.map_cons, List.nodup_cons]
    exact ⟨hnotlive, h.liveNodup⟩
  case hlive =>
    dsimp only
    rw [hmem]
    intro b hb
    rcases List.mem_cons.mp hb with rfl | hb
    · refine .inl ⟨0, hblock, Mem.newMem_room hsize poolAt, hfirst, ?_⟩
      rw [UInt32.add_sub_cancel, hslot]
    · refine .inr ⟨hb, fun k hk => ?_⟩
      have hlt := hk.1
      rw [hidle, UInt32.toNat_zero] at hlt
      omega
  case hkeep => exact fun b hb _ => List.mem_cons_of_mem _ hb
  case hused =>
    dsimp only
    rw [hmem]
    intro k hk hu
    by_cases hk0 : k = 0
    · subst hk0
      exact ⟨_, List.mem_cons_self, hblock⟩
    · exact absurd hu (Mem.not_used_of_free (hrest k hk hk0))

/-! ### Giving a block back -/

/-- A live block is given back while another one of its pool is in use. -/
theorem Inv.freed_one (h : s.Inv slot base) (hp : (p, size) ∈ s.live)
    (hblock : IsBlock (s.mem i) k p) (hmore : (s.mem i).nrAlloc - 1 ≠ 0) :
    Inv slot base ⟨Function.update s.mem i (s.mem i).release.1,
      setFlag s.words (p - headerSize) freeMem, (s.mem i).release.2.toList ++ s.pageLog,
      s.live.erase (p, size)⟩ := by
  obtain ⟨hact, hok⟩ := h.active hblock.1
  obtain ⟨hagree, htaken⟩ := h.takenIn_freed hp hblock
  generalize setFlag s.words (p - headerSize) freeMem = w at hagree htaken
  have hne_iff : ∀ {b k'}, b ∈ s.live → IsBlock (s.mem i) k' b.1 → (b ≠ (p, size) ↔ k' ≠ k) := by
    intro b k' hb hk'
    constructor
    · rintro hne rfl
      exact hne (h.live_unique hb hp hk' hblock)
    · rintro hne rfl
      exact hne (h.block_unique hk' hblock).2
  have hmem := fun m => Function.update_self i m s.mem
  have hchanges : ∀ m log, Changes s ⟨Function.update s.mem i m, w, log,
      s.live.erase (p, size)⟩ i ((s.mem i).hdr k) ((s.mem i).hdr k + 8) :=
    fun m log => ⟨fun j hj => Function.update_of_ne hj _ _, hagree,
      fun j hj hactj => h.header_apart hblock.1 hj hactj⟩
  rw [HeapRun.release_of_ne hmore]
  apply h.change (hchanges _ _)
  case hpool =>
    dsimp only
    rw [hmem]
    exact .inr ⟨hact, htaken.ok_pred hok hmore⟩
  case hapart =>
    dsimp only
    rw [hmem]
    exact fun _ => ⟨fun j hj hactj => h.apart i j (Ne.symm hj) hact hactj,
      fun r hr => (h.base r hr).2 i hact⟩
  case hkeepHeld => exact fun r hr _ => hr
  case hheld =>
    dsimp only
    rw [hmem]
    exact fun _ => h.held i hact
  case hnodup => exact h.liveNodup.sublist (List.erase_sublist.map _)
  case hlive =>
    dsimp only
    rw [hmem]
    intro b hb
    obtain ⟨hne, hb⟩ := h.liveNodup.of_map.mem_erase_iff.mp hb
    by_cases hin : ∃ k', IsBlock (s.mem i) k' b.1
    · obtain ⟨k', hk'⟩ := hin
      have hs := h.serves hb hk'
      have hne' := (hne_iff hb hk').mp hne
      refine .inl ⟨k', hk', hs.room, (htaken.used_iff hk'.1 hne').mp hs.used, ?_⟩
      rw [hk'.sub_headerSize, hok.slot_other hagree hk'.1 hne', ← hk'.sub_headerSize]
      exact hs.slot
    · exact .inr ⟨hb, fun k' hk' => hin ⟨k', hk'⟩⟩
  case hkeep => exact h.live_kept hblock
  case hused =>
    dsimp only
    rw [hmem]
    intro k' hk' hu'
    have hne : k' ≠ k := by
      rintro rfl
      exact htaken.not_used hu'
    obtain ⟨b, hb, hbk⟩ := h.used i k' hk' ((htaken.used_iff hk' hne).mpr hu')
    exact ⟨b, h.liveNodup.of_map.mem_erase_iff.mpr ⟨(hne_iff hb hbk).mpr hne, hb⟩, hbk⟩

/-- The last live block of a pool is given back, and the pool's pages with it. -/
theorem Inv.freed_last (h : s.Inv slot base) (hp : (p, size) ∈ s.live)
    (hblock : IsBlock (s.mem i) k p) (hone : (s.mem i).nrAlloc - 1 = 0) :
    Inv slot base ⟨Function.update s.mem i (s.mem i).release.1,
      setFlag s.words (p - headerSize) freeMem, (s.mem i).release.2.toList ++ s.pageLog,
      s.live.erase (p, size)⟩ := by
  obtain ⟨hact, hok⟩ := h.active hblock.1
  obtain ⟨hagree, -⟩ := h.takenIn_freed hp hblock
  generalize setFlag s.words (p - headerSize) freeMem = w at hagree
  have honly := (h.last_iff hp hblock).mp hone
  have hmem := fun m => Function.update_self i m s.mem
  have hchanges : ∀ m log, Changes s ⟨Function.update s.mem i m, w, log,
      s.live.erase (p, size)⟩ i ((s.mem i).hdr k) ((s.mem i).hdr k + 8) :=
    fun m log => ⟨fun j hj => Function.update_of_ne hj _ _, hagree,
      fun j hj hactj => h.header_apart hblock.1 hj hactj⟩
  rw [HeapRun.release_of_eq hone]
  apply h.change (hchanges _ _)
  case hpool =>
    dsimp only
    rw [hmem]
    exact .inl ⟨rfl, rfl⟩
  case hapart =>
    dsimp only
    rw [hmem]
    exact fun hx => absurd rfl hx
  case hkeepHeld =>
    intro r hr hap
    refine (List.mem_erase_of_ne ?_).mpr hr
    rintro rfl
    have hpos := hok.bytes_pos hact
    have hself : (s.mem i).memory.toNat + (s.mem i).run.bytes ≤ (s.mem i).memory.toNat :=
      (hap hact).elim id id
    omega
  case hheld =>
    dsimp only
    rw [hmem]
    exact fun hx => absurd rfl hx
  case hnodup => exact h.liveNodup.sublist (List.erase_sublist.map _)
  case hlive =>
    intro b hb
    obtain ⟨hne, hb⟩ := h.liveNodup.of_map.mem_erase_iff.mp hb
    exact .inr ⟨hb, fun k' hk' => hne (honly b hb ⟨k', hk'⟩)⟩
  case hkeep => exact h.live_kept hblock
  case hused =>
    dsimp only
    rw [hmem]
    exact fun k' hk' => absurd hk' (Nat.not_lt_zero k')

/-- **A live block is given back**, and the pages of its pool with its last live block. -/
theorem Inv.freed (h : s.Inv slot base) (hp : (p, size) ∈ s.live)
    (hblock : IsBlock (s.mem i) k p) :
    Inv slot base ⟨Function.update s.mem i (s.mem i).release.1,
      setFlag s.words (p - headerSize) freeMem, (s.mem i).release.2.toList ++ s.pageLog,
      s.live.erase (p, size)⟩ := by
  by_cases hone : (s.mem i).nrAlloc - 1 = 0
  · exact h.freed_last hp hblock hone
  · exact h.freed_one hp hblock hone

/-! ### What the invariant says of the live blocks -/

/-- The block starts behind a header of the pool, and its bytes are in the pool's pages. -/
def Holds (m : Mem) (b : UInt32 × UInt32) : Prop :=
  (∃ k, IsBlock m k b.1) ∧ region b ⊆ Set.Ico m.memory.toNat (m.memory.toNat + m.run.bytes)

/-- Live blocks overlap neither each other nor a header, each is in the pages of a pool that
are allocated, under the pool's slot number, and the counters count. -/
structure Law (slot : ι → UInt32) (s : Pools ι) : Prop where
  disjoint : s.live.Pairwise fun b b' => Disjoint (region b) (region b')
  headers : ∀ b ∈ s.live, ∀ i, ∀ k < (s.mem i).nrBlocks.toNat,
    Disjoint (region b) (Set.Ico ((s.mem i).hdr k) ((s.mem i).hdr k + headerSize.toNat))
  holds : ∀ b ∈ s.live, ∃ i, Holds (s.mem i) b ∧ (s.mem i).run ∈ held s.pageLog ∧
    s.words (b.1 - headerSize) = slot i
  nrAlloc : ∀ i, (s.mem i).nrAlloc.toNat = (s.mem i).used s.words

omit [DecidableEq ι]

/-- A byte of a live block is in its block, behind the header. -/
theorem Inv.mem_region (h : s.Inv slot base) {b : UInt32 × UInt32} {x : ℕ}
    (hs : Serves (slot i) s.words (s.mem i) k b) (hx : x ∈ region b) :
    (s.mem i).hdr k + 8 ≤ x ∧ x < (s.mem i).hdr k + (s.mem i).rsize.toNat := by
  obtain ⟨-, hok⟩ := h.active hs.isBlock.1
  exact hs.isBlock.mem_region hok hs.room hx

/-- **The invariant gives the law.** -/
theorem Inv.law (h : s.Inv slot base) : s.Law slot := by
  constructor
  case disjoint =>
    have hnodup := h.liveNodup
    rw [List.Nodup, List.pairwise_map] at hnodup
    refine hnodup.imp_of_mem fun {b b'} hb hb' hne => ?_
    obtain ⟨i, k, hs⟩ := h.block b hb
    obtain ⟨j, k', hs'⟩ := h.block b' hb'
    rw [Set.disjoint_left]
    intro x hx hx'
    have hin := h.mem_region hs hx
    have hin' := h.mem_region hs' hx'
    rcases h.blocks_apart hs.isBlock.1 hs'.isBlock.1 with ⟨rfl, rfl⟩ | hap | hap
    · exact hne (hs.isBlock.inj hs'.isBlock rfl)
    · omega
    · omega
  case headers =>
    intro b hb j k' hk'
    obtain ⟨i, k, hs⟩ := h.block b hb
    have h8 := (h.active hk').2.rsize
    have hhs : headerSize.toNat = 8 := rfl
    rw [Set.disjoint_left]
    intro x hx hx'
    have hin := h.mem_region hs hx
    have hx1 : (s.mem j).hdr k' ≤ x := hx'.1
    have hx2 : x < (s.mem j).hdr k' + headerSize.toNat := hx'.2
    rcases h.blocks_apart hs.isBlock.1 hk' with ⟨rfl, rfl⟩ | hap | hap
    · omega
    · omega
    · omega
  case holds =>
    intro b hb
    obtain ⟨i, k, hs⟩ := h.block b hb
    obtain ⟨hact, hok⟩ := h.active hs.isBlock.1
    have hle := hok.hdr_le hs.isBlock.1
    have hmem := (s.mem i).memory_le_hdr k
    refine ⟨i, ⟨⟨k, hs.isBlock⟩, fun x hx => ?_⟩, h.held i hact, hs.slot⟩
    have hin := h.mem_region hs hx
    have hx1 : (s.mem i).memory.toNat ≤ x := by omega
    have hx2 : x < (s.mem i).memory.toNat + (s.mem i).run.bytes := by omega
    exact ⟨hx1, hx2⟩
  case nrAlloc =>
    intro i
    rcases h.pools i with hidle | ⟨-, hok⟩
    · rw [hidle.nrAlloc, Mem.used, hidle.nrBlocks]
      rfl
    · exact hok.count

end Pools
end OxKernel.Mm
