import OxKernel.Lib.Reach
import OxKernel.Mm.KmallocInvariant

/-!
# Runs of the heap

The calls of the heap keep its invariant: `kmalloc` always, given fresh pages, and `kfree`
where its comparison singles out the table of the block and the slot number its pool there.

## Main definitions

* `HeapRun.system` — runs of `kmalloc` and `kfree` on live blocks, with the answers of the
  page allocator as part of the call.
* `HeapRun.Decodes` — the slot number in the header of a block leads `kfree` to its pool.
-/
namespace OxKernel.Mm

/-! ### Sizes of a new pool -/

/-- The block size has room for the header and the request. -/
theorem blockSize_spec {size : UInt32} (hsize : size.toNat + 11 < 2 ^ 32) :
    size.toNat + 8 ≤ (blockSize size).toNat ∧ (blockSize size).toNat ≤ size.toNat + 11 := by
  have htmp : (size + headerSize).toNat = size.toNat + 8 := by
    rw [Lib.toNat_add_of_lt] <;> simp [headerSize]
    omega
  rw [blockSize]
  by_cases h : (size + headerSize) % 4 ≠ 0
  · rw [if_pos h]
    rw [Ne, ← UInt32.toNat_inj] at h
    simp only [UInt32.toNat_mod, UInt32.toNat_mul, UInt32.toNat_add (_ / _), UInt32.toNat_div,
      UInt32.reduceToNat, htmp] at *
    omega
  · rw [if_neg h]
    rw [not_not, ← UInt32.toNat_inj] at h
    simp only [UInt32.toNat_mod, UInt32.toNat_mul, UInt32.toNat_add (_ / _), UInt32.toNat_div,
      UInt32.reduceToNat, htmp] at *
    omega

/-- The pages of a pool have room for a block. -/
theorem nrBlocks_spec (x : UInt32) :
    x.toNat ≤ (nrBlocks x).toNat * 4096 ∧ (nrBlocks x).toNat ≤ 2 ^ 20 := by
  have := x.toNat_lt
  rw [nrBlocks]
  split
  · simp only [pageSize, UInt32.toNat_add, UInt32.toNat_div, UInt32.reduceToNat]
    omega
  · rename_i h
    rw [not_not, ← UInt32.toNat_inj] at h
    simp only [pageSize, UInt32.toNat_mod, UInt32.toNat_add, UInt32.toNat_div,
      UInt32.reduceToNat] at *
    omega

theorem nrBlocks_tableSize : nrBlocks tableSize = 1 := by decide

namespace Mem

variable {size poolAt : UInt32} {w : Words}

/-- A new pool has at least one block, and its blocks are in its pages. -/
theorem newMem_blocks (hsize : size.toNat + 11 < 2 ^ 32) (hpos : poolAt ≠ 0)
    (hend : poolAt.toNat + (newMem size poolAt).run.bytes ≤ 2 ^ 32) :
    8 ≤ (newMem size poolAt).rsize.toNat ∧ 0 < (newMem size poolAt).nrBlocks.toNat ∧
      (newMem size poolAt).nrBlocks.toNat * (newMem size poolAt).rsize.toNat ≤
        (newMem size poolAt).run.bytes := by
  obtain ⟨hlo, -⟩ := blockSize_spec hsize
  obtain ⟨hpages, -⟩ := nrBlocks_spec (blockSize size)
  have hne : 0 < poolAt.toNat := by
    rw [Ne, ← UInt32.toNat_inj, UInt32.toNat_zero] at hpos
    omega
  have hmul : (Mm.nrBlocks (blockSize size) * pageSize).toNat =
      (Mm.nrBlocks (blockSize size)).toNat * 4096 := by
    have : poolAt.toNat + (Mm.nrBlocks (blockSize size)).toNat * 4096 ≤ 2 ^ 32 := hend
    simp only [pageSize, UInt32.toNat_mul, UInt32.reduceToNat]
    omega
  have hblocks : (newMem size poolAt).nrBlocks.toNat =
      (Mm.nrBlocks (blockSize size)).toNat * 4096 / (blockSize size).toNat := by
    rw [newMem]
    dsimp only
    rw [UInt32.toNat_div, hmul]
  refine ⟨by rw [newMem]; dsimp only; omega, ?_, ?_⟩
  · rw [hblocks]
    exact Nat.div_pos hpages (by omega)
  · rw [hblocks]
    exact Nat.div_mul_le_self _ _

/-- A new pool with the first block in use and the others free is as it should be. -/
theorem newMem_ok (hsize : size.toNat + 11 < 2 ^ 32) (hpos : poolAt ≠ 0)
    (hend : poolAt.toNat + (newMem size poolAt).run.bytes ≤ 2 ^ 32)
    (hfirst : (newMem size poolAt).Used w 0)
    (hrest : ∀ k < (newMem size poolAt).nrBlocks.toNat, k ≠ 0 →
      flagAt w ((newMem size poolAt).hdr k) = freeMem) : (newMem size poolAt).Ok w := by
  obtain ⟨h8, hblocks, hfits⟩ := newMem_blocks hsize hpos hend
  have hnot : ∀ k < (newMem size poolAt).nrBlocks.toNat, k ≠ 0 →
      ¬ (newMem size poolAt).Used w k := fun k hk hk0 => not_used_of_free (hrest k hk hk0)
  refine ⟨h8, hfits, hend, fun k hk hu => ?_, ?_, ?_⟩
  · exact hrest k hk fun hk0 => hu (hk0 ▸ hfirst)
  · have hset : (Finset.range (newMem size poolAt).nrBlocks.toNat).filter
        ((newMem size poolAt).Used w) = {0} := by
      ext k
      rw [Finset.mem_filter, Finset.mem_range, Finset.mem_singleton]
      constructor
      · rintro ⟨hk, hu⟩
        by_contra hk0
        exact hnot k hk hk0 hu
      · rintro rfl
        exact ⟨hblocks, hfirst⟩
    rw [used, hset, Finset.card_singleton]
    rfl
  · exact Nat.one_pos

/-- A new pool has room for the size it was opened for. -/
theorem newMem_room (hsize : size.toNat + 11 < 2 ^ 32) (poolAt : UInt32) :
    8 + size.toNat ≤ (newMem size poolAt).rsize.toNat := by
  have hlo := (blockSize_spec hsize).1
  have hrsize : (newMem size poolAt).rsize = blockSize size := rfl
  rw [hrsize]
  omega

theorem isBlock_newMem (hblocks : 0 < (newMem size poolAt).nrBlocks.toNat) :
    HeapRun.IsBlock (newMem size poolAt) 0 (poolAt + headerSize) := by
  refine ⟨hblocks, ?_⟩
  rw [UInt32.add_sub_cancel, hdr, Nat.zero_mul]
  rfl

end Mem

namespace HeapRun

variable {s : HeapRun} {a p size poolAt tableAt slot : UInt32} {i : Fin nrSizes} {w : Words}

/-- The header of a block is outside the pages of the other pools. -/
theorem Inv.header_apart (h : s.Inv) {m : Mem} {k : ℕ} (hp : s.heap.pool a i = some m)
    (hk : k < m.nrBlocks.toNat) : ∀ b j m₂, s.heap.pool b j = some m₂ → ¬ (b = a ∧ j = i) →
      m₂.nrBlocks ≠ 0 →
      m₂.memory.toNat + m₂.run.bytes ≤ m.hdr k ∨ m.hdr k + 8 ≤ m₂.memory.toNat := by
  intro b j m₂ hp₂ hne hact₂
  obtain ⟨-, hok⟩ := h.ok hp hk
  have ho : Owner.pool b j ≠ .pool a i := by
    intro he
    cases he
    exact hne ⟨rfl, rfl⟩
  have hown : s.heap.Owns (.pool b j) m₂.run := ⟨m₂, hp₂, hact₂, rfl⟩
  exact hok.header_outside hk (h.apart _ _ _ _ hown (h.owns hp hk) ho)

/-- The runs that are allocated: those of the rest of the heap, and that of a pool. -/
theorem Inv.held_pool (h : s.Inv) {m : Mem} (hp : s.heap.pool a i = some m) (r : PageRun) :
    r ∈ Mm.held s.heap.pageLog ↔
      (∃ o, o ≠ .pool a i ∧ s.heap.Owns o r) ∨ (m.nrBlocks ≠ 0 ∧ r = m.run) := by
  rw [h.held]
  constructor
  · rintro ⟨o, ho⟩
    by_cases hoa : o = .pool a i
    · subst hoa
      obtain ⟨m₂, hp₂, hact₂, rfl⟩ := ho
      rw [hp] at hp₂
      cases hp₂
      exact .inr ⟨hact₂, rfl⟩
    · exact .inl ⟨o, hoa, ho⟩
  · rintro (⟨o, -, ho⟩ | ⟨hact, rfl⟩)
    · exact ⟨o, ho⟩
    · exact ⟨.pool a i, m, hp, hact, rfl⟩

/-! ### `kmalloc` -/

/-- A successful search of a pool. -/
theorem tryPool_spec {h : Heap} {r : UInt32 × Heap} (ht : h.tryPool size a i slot = some r) :
    ∃ m hdr, h.pool a i = some m ∧ size ≤ m.rsize - headerSize ∧ m.nrAlloc < m.nrBlocks ∧
      findFree h.words m.rsize m.nrBlocks.toNat m.memory = some hdr ∧ r.1 = hdr + headerSize ∧
      r.2.words = setHeader h.words hdr slot usedMem ∧ r.2.pageLog = h.pageLog ∧
      r.2.root.map Table.addr = h.root.map Table.addr ∧
      (∀ b j, r.2.pool b j =
        if b = a ∧ j = i then some { m with nrAlloc := m.nrAlloc + 1 } else h.pool b j) ∧
      r.2.root = (h.modify a fun t => { t with
        sizes := Function.update t.sizes i { m with nrAlloc := m.nrAlloc + 1 } }).root := by
  rw [Heap.tryPool] at ht
  cases hp : h.pool a i with
  | none => rw [hp] at ht; cases ht
  | some m =>
      rw [hp] at ht
      simp only [Option.bind_eq_bind, Option.bind_some] at ht
      split at ht
      · rename_i hcond
        cases hf : findFree h.words m.rsize m.nrBlocks.toNat m.memory with
        | none => rw [hf] at ht; cases ht
        | some hdr =>
            rw [hf] at ht
            cases ht
            refine ⟨m, hdr, rfl, hcond.1, hcond.2, hf, rfl, rfl, rfl, ?_, fun b j => ?_, rfl⟩
            · exact Heap.map_addr_modify fun t => rfl
            · exact Heap.pool_modify (fun t => rfl) (fun t => rfl) ⟨m, hp⟩
      · cases ht

/-- Taking a block of a pool. -/
theorem Inv.taken (h : s.Inv) {r : UInt32 × Heap}
    (ht : s.heap.tryPool size a i slot = some r) : Inv ⟨r.2, (r.1, size) :: s.live⟩ := by
  obtain ⟨m, hdr, hp, hsize, havail, hfind, hr1, hwords, hlog, haddrs, hpool, -⟩ :=
    tryPool_spec ht
  have hpos : 0 < m.nrBlocks.toNat := by
    have := UInt32.lt_iff_toNat_lt.mp havail
    omega
  obtain ⟨hact, hok⟩ := h.ok hp hpos
  have h8 := hok.rsize
  have hin := hok.inside
  have hfits := hok.fits
  obtain ⟨k, hk, hhdr, hfree⟩ := findFree_spec h8 (by omega) hfind
  rw [← Mem.hdr] at hhdr
  obtain ⟨hagree, htaken⟩ := hok.setHeader hk hhdr (hhdr ▸ hfree) slot
  rw [← hwords] at hagree htaken
  have hblock : IsBlock m k r.1 := by
    refine ⟨hk, ?_⟩
    rw [hr1, UInt32.add_sub_cancel]
    exact hhdr
  -- The block was not live.
  have hnew : r.1 ∉ s.live.map Prod.fst := by
    intro hmem
    obtain ⟨b, hb, hb1⟩ := List.mem_map.mp hmem
    obtain ⟨a', i', m', k', hp', hk', -, hu⟩ := h.block b hb
    rw [hb1] at hk'
    obtain ⟨rfl, rfl, rfl, rfl⟩ := h.block_unique hp' hk' hp hblock
    exact htaken.not_used hu
  have hchanges : Changes s.heap r.2 a i m { m with nrAlloc := m.nrAlloc + 1 } (m.hdr k)
      (m.hdr k + 8) := ⟨haddrs, hp, hpool, hagree⟩
  apply h.change hchanges
  case hrange => exact h.header_apart hp hk
  case hpool => exact .inr ⟨hact, htaken.ok_succ hok (UInt32.lt_iff_toNat_lt.mp havail)⟩
  case hapart =>
    intro _ o r' ho hne
    exact h.apart (.pool a i) o m.run r' (h.owns hp hk) ho (Ne.symm hne)
  case hheld => exact fun r' => hlog ▸ h.held_pool hp r'
  case hheldNodup => exact hlog ▸ h.heldNodup
  case hfreed => exact hlog ▸ h.freed
  case hnodup =>
    rw [List.map_cons, List.nodup_cons]
    exact ⟨hnew, h.liveNodup⟩
  case hlive =>
    intro b hb
    rcases List.mem_cons.mp hb with rfl | hb
    · exact .inl ⟨k, hblock, hok.room hsize, htaken.used⟩
    · by_cases hin' : ∃ k', IsBlock m k' b.1
      · obtain ⟨k', hk'⟩ := hin'
        obtain ⟨a₂, i₂, m₂, k₂, hp₂, hk₂, hsize₂, hu₂⟩ := h.block b hb
        obtain ⟨rfl, rfl, rfl, rfl⟩ := h.block_unique hp₂ hk₂ hp hk'
        have hne : k₂ ≠ k := by
          rintro rfl
          exact htaken.not_used hu₂
        exact .inl ⟨k₂, hk', hsize₂, (htaken.used_iff hk'.1 hne).mpr hu₂⟩
      · exact .inr ⟨hb, fun k' hk' => hin' ⟨k', hk'⟩⟩
  case hkeep => exact fun b hb _ => List.mem_cons_of_mem _ hb
  case hused =>
    intro k' hk' hu
    by_cases hne : k' = k
    · subst hne
      exact ⟨_, List.mem_cons_self, hblock⟩
    · obtain ⟨b, hb, hbk⟩ := h.used a i m k' hp hk' ((htaken.used_iff hk' hne).mp hu)
      exact ⟨b, List.mem_cons_of_mem _ hb, hbk⟩

/-- The memory of a new pool: the first block in use, the others free. -/
theorem poolWords_spec {h : Heap} (hsize : size.toNat + 11 < 2 ^ 32) (hpos : poolAt ≠ 0)
    (hend : poolAt.toNat + (newMem size poolAt).run.bytes ≤ 2 ^ 32)
    (hw : w = setFlag (h.poolWords size poolAt) poolAt usedMem ∨
      w = setHeader (h.poolWords size poolAt) poolAt slot usedMem) :
    AgreeOutside poolAt.toNat (poolAt.toNat + (newMem size poolAt).run.bytes) h.words w ∧
      (newMem size poolAt).Used w 0 ∧
      ∀ k < (newMem size poolAt).nrBlocks.toNat, k ≠ 0 →
        flagAt w ((newMem size poolAt).hdr k) = freeMem := by
  obtain ⟨h8, hblocks, hfits⟩ := Mem.newMem_blocks hsize hpos hend
  have hrsize : (newMem size poolAt).rsize = blockSize size := rfl
  rw [hrsize] at h8 hfits
  have hclear : poolAt.toNat + (newMem size poolAt).nrBlocks.toNat * (blockSize size).toNat ≤
      2 ^ 32 := by omega
  obtain ⟨hagree, hflag⟩ := clearBlocks_spec (w := h.words) h8 hclear
  rw [← Heap.poolWords] at hagree hflag
  have hone : (blockSize size).toNat ≤
      (newMem size poolAt).nrBlocks.toNat * (blockSize size).toNat :=
    Nat.le_mul_of_pos_left _ hblocks
  have hset : AgreeOutside poolAt.toNat (poolAt.toNat + 8) (h.poolWords size poolAt) w := by
    rcases hw with rfl | rfl
    · exact setFlag_agree (by omega)
    · exact setHeader_agree (by omega)
  refine ⟨?_, ?_, fun k hk hk0 => ?_⟩
  · exact (hagree.mono (le_refl _) (by omega)).trans (hset.mono (le_refl _) (by omega))
  · have h0 : (newMem size poolAt).hdr 0 = poolAt.toNat := by
      rw [Mem.hdr, Nat.zero_mul]
      rfl
    rw [Mem.Used, h0]
    rcases hw with rfl | rfl
    · exact flagAt_setFlag _ _ _
    · exact flagAt_setHeader _ _ _ _
  · have hhdr : (newMem size poolAt).hdr k = poolAt.toNat + k * (blockSize size).toNat := rfl
    have hk1 : (blockSize size).toNat ≤ k * (blockSize size).toNat :=
      Nat.le_mul_of_pos_left _ (by omega)
    have hk2 : (k + 1) * (blockSize size).toNat ≤
        (newMem size poolAt).nrBlocks.toNat * (blockSize size).toNat := Nat.mul_le_mul_right _ hk
    rw [Nat.succ_mul] at hk2
    rw [hhdr, hset.flagAt (by omega) (.inr (by omega))]
    exact hflag k hk

/-- Opening a pool that was free. -/
theorem Inv.opened (h : s.Inv) {h' : Heap} {m : Mem} (hsize : size.toNat + 11 < 2 ^ 32)
    (hpool : s.heap.pool a i = some m) (hidle : m.nrBlocks = 0)
    (hfresh : FreshLog h'.pageLog)
    (hlog : h'.pageLog = .alloc poolAt (nrBlocks (blockSize size)) :: s.heap.pageLog)
    (haddrs : h'.root.map Table.addr = s.heap.root.map Table.addr)
    (hpools : ∀ b j, h'.pool b j =
      if b = a ∧ j = i then some (newMem size poolAt) else s.heap.pool b j)
    (hw : h'.words = setFlag (s.heap.poolWords size poolAt) poolAt usedMem ∨
      h'.words = setHeader (s.heap.poolWords size poolAt) poolAt slot usedMem) :
    Inv ⟨h', (poolAt + headerSize, size) :: s.live⟩ := by
  rw [hlog] at hfresh
  obtain ⟨hpos, hend, hap, -⟩ := hfresh
  have hend' : poolAt.toNat + (newMem size poolAt).run.bytes ≤ 2 ^ 32 := hend
  obtain ⟨hagree, hfirst, hrest⟩ := poolWords_spec hsize hpos hend' hw
  have hok := Mem.newMem_ok hsize hpos hend' hfirst hrest
  have hblocks : 0 < (newMem size poolAt).nrBlocks.toNat :=
    (Mem.newMem_blocks hsize hpos hend').2.1
  have hact := Mem.nrBlocks_ne_zero hblocks
  have hout : ∀ k p, ¬ IsBlock m k p := by
    rintro k p ⟨hk, -⟩
    rw [hidle, UInt32.toNat_zero] at hk
    omega
  have hnone : ∀ r, s.heap.Owns (.pool a i) r → False := by
    rintro r ⟨m₂, hp₂, hact₂, -⟩
    rw [hpool] at hp₂
    cases hp₂
    exact hact₂ hidle
  have hapart : ∀ o r, s.heap.Owns o r → (newMem size poolAt).run.Apart r :=
    fun o r ho => hap r ((h.held r).mpr ⟨o, ho⟩)
  have hblock := Mem.isBlock_newMem hblocks
  -- The run is a new one: it has at least a page.
  have hbytes := hok.bytes_pos hact
  have hnotheld : ((poolAt, nrBlocks (blockSize size)) : PageRun) ∉ Mm.held s.heap.pageLog := by
    intro hmem
    have hself : (newMem size poolAt).run.Apart (newMem size poolAt).run := hap _ hmem
    rcases hself with hself | hself
    · omega
    · omega
  have hnotlive : poolAt + headerSize ∉ s.live.map Prod.fst := by
    intro hmem
    obtain ⟨b, hb, hb1⟩ := List.mem_map.mp hmem
    obtain ⟨a', i', m', k', hp', hk', -, -⟩ := h.block b hb
    rw [hb1] at hk'
    exact IsBlock.not_of_apart (h.ok hp' hk'.1).2 (hapart _ _ (h.owns hp' hk'.1)) hbytes hk'
  have hchanges : Changes s.heap h' a i m (newMem size poolAt) poolAt.toNat
      (poolAt.toNat + (newMem size poolAt).run.bytes) := ⟨haddrs, hpool, hpools, hagree⟩
  apply h.change hchanges
  case hrange =>
    intro b j m₂ hp₂ hne hact₂
    rcases hapart (.pool b j) m₂.run ⟨m₂, hp₂, hact₂, rfl⟩ with hx | hx
    · exact .inr hx
    · exact .inl hx
  case hpool => exact .inr ⟨hact, hok⟩
  case hapart => exact fun _ o r ho _ => hapart o r ho
  case hheld =>
    intro r
    rw [hlog, Mm.held, List.mem_cons, h.held]
    constructor
    · rintro (rfl | ⟨o, ho⟩)
      · exact .inr ⟨hact, rfl⟩
      · refine .inl ⟨o, ?_, ho⟩
        rintro rfl
        exact hnone r ho
    · rintro (⟨o, -, ho⟩ | ⟨-, rfl⟩)
      · exact .inr ⟨o, ho⟩
      · exact .inl rfl
  case hheldNodup =>
    rw [hlog, Mm.held, List.nodup_cons]
    exact ⟨hnotheld, h.heldNodup⟩
  case hfreed =>
    rw [hlog]
    exact h.freed
  case hnodup =>
    rw [List.map_cons, List.nodup_cons]
    exact ⟨hnotlive, h.liveNodup⟩
  case hlive =>
    intro b hb
    rcases List.mem_cons.mp hb with rfl | hb
    · exact .inl ⟨0, hblock, Mem.newMem_room hsize poolAt, hfirst⟩
    · exact .inr ⟨hb, fun k => hout k b.1⟩
  case hkeep => exact fun b hb _ => List.mem_cons_of_mem _ hb
  case hused =>
    intro k hk hu
    by_cases hk0 : k = 0
    · subst hk0
      exact ⟨_, List.mem_cons_self, hblock⟩
    · exact absurd hu (Mem.not_used_of_free (hrest k hk hk0))

/-- A table without pools in front of the list. -/
def pushIdle (h : Heap) (tableAt : UInt32) : Heap :=
  { h with
    root := ⟨tableAt, 1, fun _ => zeroMem⟩ :: h.root
    pageLog := .alloc tableAt (nrBlocks tableSize) :: h.pageLog }

theorem table_pushIdle (h : Heap) (tableAt b : UInt32) : (pushIdle h tableAt).table b =
    if b = tableAt then some ⟨tableAt, 1, fun _ => zeroMem⟩ else h.table b := by
  rw [Heap.table, pushIdle]
  dsimp only
  by_cases hb : b = tableAt
  · rw [if_pos hb, List.find?_cons_of_pos (by simpa using hb.symm)]
  · rw [if_neg hb, List.find?_cons_of_neg (by simpa using Ne.symm hb)]
    rfl

theorem pool_pushIdle (h : Heap) (tableAt b : UInt32) (j : Fin nrSizes) :
    (pushIdle h tableAt).pool b j = if b = tableAt then some zeroMem else h.pool b j := by
  rw [Heap.pool, table_pushIdle]
  split <;> rfl

theorem Inv.pushIdle (h : s.Inv) (hfresh : FreshLog (pushIdle s.heap tableAt).pageLog) :
    Inv ⟨pushIdle s.heap tableAt, s.live⟩ := by
  obtain ⟨-, -, hap, -⟩ := hfresh
  have hself : ¬ PageRun.Apart (tableAt, nrBlocks tableSize) (tableAt, nrBlocks tableSize) := by
    have hone : PageRun.bytes (tableAt, nrBlocks tableSize) = 4096 := by
      simp [PageRun.bytes, nrBlocks_tableSize]
    rintro (hx | hx)
    · omega
    · omega
  have hnew : s.heap.table tableAt = none := by
    rw [← Option.not_isSome_iff_eq_none]
    intro hsome
    exact hself (hap _ ((h.held _).mpr ⟨.table tableAt, hsome, rfl⟩))
  have hnopool : ∀ j, s.heap.pool tableAt j = none := by
    intro j
    rw [Heap.pool, hnew]
    rfl
  have howns : ∀ o r, (HeapRun.pushIdle s.heap tableAt).Owns o r ↔
      (o = .table tableAt ∧ r = (tableAt, nrBlocks tableSize)) ∨ s.heap.Owns o r := by
    intro o r
    cases o with
    | table b =>
        rw [Heap.Owns, table_pushIdle, Heap.Owns]
        by_cases hb : b = tableAt
        · subst hb
          simp [hnew]
        · simp [hb]
    | pool b j =>
        rw [Heap.Owns, pool_pushIdle, Heap.Owns]
        by_cases hb : b = tableAt
        · subst hb
          simp [hnopool, zeroMem]
        · simp [hb]
  have hpool : ∀ b j m, (HeapRun.pushIdle s.heap tableAt).pool b j = some m →
      m = zeroMem ∨ s.heap.pool b j = some m := by
    intro b j m hp
    rw [pool_pushIdle] at hp
    split at hp
    · exact .inl (Option.some.inj hp).symm
    · exact .inr hp
  constructor
  case nodup =>
    have hnotMem : tableAt ∉ s.heap.root.map Table.addr := by
      intro hmem
      obtain ⟨t, ht, hta⟩ := List.mem_map.mp hmem
      have := Heap.table_of_mem h.nodup ht
      rw [hta, hnew] at this
      cases this
    exact List.nodup_cons.mpr ⟨hnotMem, h.nodup⟩
  case pools =>
    intro b j m hp
    rcases hpool b j m hp with rfl | hp
    · exact .inl ⟨rfl, rfl⟩
    · exact h.pools b j m hp
  case apart =>
    intro o o' r r' ho ho' hne
    rw [howns] at ho ho'
    rcases ho with ⟨rfl, rfl⟩ | ho
    · rcases ho' with ⟨rfl, rfl⟩ | ho'
      · exact absurd rfl hne
      · exact hap r' ((h.held r').mpr ⟨o', ho'⟩)
    · rcases ho' with ⟨rfl, rfl⟩ | ho'
      · exact (hap r ((h.held r).mpr ⟨o, ho⟩)).symm
      · exact h.apart o o' r r' ho ho' hne
  case held =>
    intro r
    rw [HeapRun.pushIdle, Mm.held, List.mem_cons, h.held]
    constructor
    · rintro (rfl | ⟨o, ho⟩)
      · exact ⟨.table tableAt, (howns _ _).mpr (.inl ⟨rfl, rfl⟩)⟩
      · exact ⟨o, (howns _ _).mpr (.inr ho)⟩
    · rintro ⟨o, ho⟩
      rcases (howns _ _).mp ho with ⟨-, rfl⟩ | ho
      · exact .inl rfl
      · exact .inr ⟨o, ho⟩
  case heldNodup =>
    refine List.nodup_cons.mpr ⟨fun hmem => ?_, h.heldNodup⟩
    exact hself (hap _ hmem)
  case freed => exact h.freed
  case block =>
    intro b hb
    obtain ⟨a, i, m, k, hp, hrest⟩ := h.block b hb
    refine ⟨a, i, m, k, ?_, hrest⟩
    rw [pool_pushIdle, if_neg]
    · exact hp
    · rintro rfl
      rw [hnopool] at hp
      cases hp
  case liveNodup => exact h.liveNodup
  case used =>
    intro a i m k hp hk hu
    rcases hpool a i m hp with rfl | hp
    · exact absurd hk (Nat.not_lt_zero k)
    · exact h.used a i m k hp hk hu

theorem pool_pushTable (h : Heap) (tableAt poolAt size slot : UInt32) (w : Words) (b : UInt32)
    (j : Fin nrSizes) : (h.pushTable tableAt poolAt size slot w).2.pool b j =
      if b = tableAt then some (Function.update (fun _ => zeroMem) 0 (newMem size poolAt) j)
      else h.pool b j := by
  rw [Heap.pool, Heap.table]
  simp only [Heap.pushTable]
  by_cases hb : b = tableAt
  · rw [if_pos hb, List.find?_cons_of_pos (by simpa using hb.symm)]
    rfl
  · rw [if_neg hb, List.find?_cons_of_neg (by simpa using Ne.symm hb)]
    rfl

/-- **`kmalloc` keeps the invariant**, given fresh pages. -/
theorem Inv.kmalloc (h : s.Inv) (hsize : size.toNat + 11 < 2 ^ 32)
    (hfresh : FreshLog (Mm.kmalloc tableAt poolAt size s.heap).2.pageLog) :
    Inv ⟨(Mm.kmalloc tableAt poolAt size s.heap).2,
      ((Mm.kmalloc tableAt poolAt size s.heap).1, size) :: s.live⟩ := by
  have hall := kmalloc_allocates tableAt poolAt size s.heap
  generalize Mm.kmalloc tableAt poolAt size s.heap = r at hall hfresh
  obtain ⟨p, h'⟩ := r
  cases hall with
  | taken ht => exact h.taken ht
  | @opened a i slot hfree =>
      rw [Heap.isFree] at hfree
      cases htab : s.heap.table a with
      | none => rw [htab] at hfree; cases hfree
      | some t =>
          rw [htab] at hfree
          simp only [decide_eq_true_eq] at hfree
          have hpool : s.heap.pool a i = some (t.sizes i) := by
            rw [Heap.pool, htab]
            rfl
          refine h.opened hsize hpool hfree.2 hfresh rfl ?_ ?_ (.inr (Eq.refl (setHeader _ poolAt slot _)))
          · exact Heap.map_addr_modify fun t => rfl
          · exact fun b j => Heap.pool_modify (fun t => rfl) (fun t => rfl) ⟨_, hpool⟩
  | @pushed slot w hw =>
      have hidle : Inv ⟨HeapRun.pushIdle s.heap tableAt, s.live⟩ := h.pushIdle hfresh.2.2.2
      have hpool : (HeapRun.pushIdle s.heap tableAt).pool tableAt 0 = some zeroMem := by
        rw [pool_pushIdle, if_pos rfl]
      refine hidle.opened hsize hpool rfl hfresh rfl rfl ?_ hw
      · intro b j
        refine (pool_pushTable s.heap tableAt poolAt size slot w b j).trans ?_
        rw [pool_pushIdle]
        by_cases hb : b = tableAt
        · by_cases hj : j = 0
          · simp [hb, hj]
          · simp [hb, hj]
        · simp [hb]

/-! ### `kfree` -/

/-- The slot number in the header of a block leads `kfree` to the pool of the block, and to
no other table. -/
def Decodes (h : Heap) (p : UInt32) : Prop :=
  ∃ a i m k, h.pool a i = some m ∧ IsBlock m k p ∧ h.kfreeSlot p = i ∧
    ∀ t ∈ h.root, h.Hits p t.addr ↔ t.addr = a

/-- A release of a pool with another block in use. -/
theorem release_of_ne {m : Mem} (hne : m.nrAlloc - 1 ≠ 0) :
    m.release = ({ m with nrAlloc := m.nrAlloc - 1 }, none) := by
  rw [Mem.release]
  exact if_neg hne

/-- A release of the last block in use. -/
theorem release_of_eq {m : Mem} (heq : m.nrAlloc - 1 = 0) :
    m.release = (⟨0, 0, 0, 0, m.nrPages, 0⟩, some (.free m.memory m.nrPages)) := by
  rw [Mem.release]
  simp [heq]

/-- The heap after `kfree` of a block it finds the pool of. -/
theorem Inv.kfree_changes (h : s.Inv) {m : Mem} {k : ℕ} (hpool : s.heap.pool a i = some m)
    (hblock : IsBlock m k p) (hslot : s.heap.kfreeSlot p = i)
    (hits : ∀ t ∈ s.heap.root, s.heap.Hits p t.addr ↔ t.addr = a) :
    Changes s.heap (kfree p s.heap) a i m m.release.1 (m.hdr k) (m.hdr k + 8) ∧
      (kfree p s.heap).pageLog = m.release.2.toList ++ s.heap.pageLog := by
  obtain ⟨-, hok⟩ := h.ok hpool hblock.1
  have hle := hok.hdr_le hblock.1
  have h8 := hok.rsize
  have hin := hok.inside
  rw [Heap.pool, Option.map_eq_some_iff] at hpool
  obtain ⟨t, ht, htm⟩ := hpool
  have hta := Heap.table_addr ht
  refine ⟨⟨Heap.map_addr_kfree h.nodup, ?_, fun b j => ?_, ?_⟩, ?_⟩
  · rw [Heap.pool, ht]
    exact congrArg some htm
  · rw [Heap.pool_kfree h.nodup, hslot]
    by_cases hb : b = a
    · have hhit : s.heap.Hits p b := by
        rw [hb, ← hta]
        exact (hits t (Heap.table_mem ht)).mpr hta
      by_cases hj : j = i
      · rw [if_pos ⟨hhit, hj⟩, if_pos ⟨hb, hj⟩, Heap.pool, hb, ht, hj]
        exact congrArg (fun m => some (Mem.release m).1) htm
      · rw [if_neg fun he => hj he.2, if_neg fun he => hj he.2]
    · rw [if_neg (c := b = a ∧ j = i) fun he => hb he.1]
      split
      · -- The comparison holds at no other table.
        rename_i hhit
        cases hu : s.heap.table b with
        | none => rw [Heap.pool, hu]; rfl
        | some u =>
            have hub := Heap.table_addr hu
            have := (hits u (Heap.table_mem hu)).mp (hub.symm ▸ hhit.1)
            exact absurd (hub.symm.trans this) hb
      · rfl
  · rw [Heap.kfree_words, ← hblock.2]
    exact setFlag_agree (by have := hblock.2; omega)
  · have hlog := @kfreeLoop_snd_one _ _ (s.heap.kfreeSlot p) _ [] s.heap.pageLog t h.nodup
      (Heap.table_mem ht) (by rw [hta]; exact hits)
    rw [hslot] at hlog
    rw [← htm, ← hlog, kfree, ← hslot]
    rfl

/-- The live blocks but one are those with another address. -/
theorem Inv.mem_erase (h : s.Inv) (hp : (p, size) ∈ s.live) {b : UInt32 × UInt32} :
    b ∈ s.live.erase (p, size) ↔ b ∈ s.live ∧ b.1 ≠ p := by
  rw [h.liveNodup.of_map.mem_erase_iff]
  constructor
  · rintro ⟨hne, hb⟩
    refine ⟨hb, fun he => hne ?_⟩
    exact List.inj_on_of_nodup_map h.liveNodup hb hp he
  · rintro ⟨hb, hne⟩
    exact ⟨fun he => hne (he ▸ rfl), hb⟩

/-- Different addresses in a pool are different blocks. -/
theorem Inv.ne_iff (h : s.Inv) {m : Mem} {k k' : ℕ} {b : UInt32}
    (hpool : s.heap.pool a i = some m) (hblock : IsBlock m k p) (hk' : IsBlock m k' b) :
    b ≠ p ↔ k' ≠ k := by
  constructor
  · rintro hne rfl
    exact hne (hk'.inj hblock rfl)
  · rintro hne rfl
    obtain ⟨-, -, -, he⟩ := h.block_unique hpool hk' hpool hblock
    exact hne he

/-- A live block that is not given back is as before. -/
theorem Inv.block_kept (h : s.Inv) {m : Mem} {k k' : ℕ} {b : UInt32 × UInt32}
    (hpool : s.heap.pool a i = some m) (hblock : IsBlock m k p) (hb : b ∈ s.live) (hne : b.1 ≠ p)
    (hk' : IsBlock m k' b.1) (htaken : m.TakenIn w s.heap.words k) :
    8 + b.2.toNat ≤ m.rsize.toNat ∧ m.Used w k' := by
  obtain ⟨a₂, i₂, m₂, k₂, hp₂, hk₂, hsize₂, hu₂⟩ := h.block b hb
  obtain ⟨-, -, rfl, rfl⟩ := h.block_unique hp₂ hk₂ hpool hk'
  exact ⟨hsize₂, (htaken.used_iff hk'.1 ((h.ne_iff hpool hblock hk').mp hne)).mp hu₂⟩

/-- The blocks of the other pools stay. -/
theorem Inv.live_kept (h : s.Inv) (hp : (p, size) ∈ s.live) {m : Mem} {k : ℕ}
    (hblock : IsBlock m k p) :
    ∀ b ∈ s.live, (∀ k', ¬ IsBlock m k' b.1) → b ∈ s.live.erase (p, size) := by
  intro b hb hout
  rw [h.mem_erase hp]
  refine ⟨hb, fun he => hout k ?_⟩
  rw [he]
  exact hblock

/-- The block that `kfree` gives back was in use and is free, the others are as before. -/
theorem Inv.kfree_takenIn (h : s.Inv) (hp : (p, size) ∈ s.live) {m : Mem} {k : ℕ}
    (hpool : s.heap.pool a i = some m) (hblock : IsBlock m k p)
    (hagree : AgreeOutside (m.hdr k) (m.hdr k + 8) s.heap.words (Mm.kfree p s.heap).words) :
    m.TakenIn (Mm.kfree p s.heap).words s.heap.words k := by
  obtain ⟨-, hok⟩ := h.ok hpool hblock.1
  refine ⟨hblock.1, ?_, ?_, fun k' hk' hne => (hok.flag_other hagree k' hk' hne).symm⟩
  · rw [Heap.kfree_words, ← hblock.2]
    exact flagAt_setFlag _ _ _
  · obtain ⟨a', i', m', k', hp', hk', -, hu'⟩ := h.block _ hp
    obtain ⟨-, -, rfl, rfl⟩ := h.block_unique hp' hk' hpool hblock
    exact hu'

/-- `kfree` of the last block in use: the pages of the pool are given back. -/
theorem Inv.kfree_last (h : s.Inv) (hp : (p, size) ∈ s.live) {m : Mem} {k : ℕ}
    (hpool : s.heap.pool a i = some m) (hblock : IsBlock m k p) (hslot : s.heap.kfreeSlot p = i)
    (hits : ∀ t ∈ s.heap.root, s.heap.Hits p t.addr ↔ t.addr = a) (hlast : m.nrAlloc - 1 = 0) :
    Inv ⟨Mm.kfree p s.heap, s.live.erase (p, size)⟩ := by
  obtain ⟨hchange, hlog⟩ := h.kfree_changes hpool hblock hslot hits
  rw [release_of_eq hlast] at hchange hlog
  obtain ⟨-, hok⟩ := h.ok hpool hblock.1
  have hle := hok.hdr_le hblock.1
  have h8 := hok.rsize
  have hmem := m.memory_le_hdr k
  have hown : s.heap.Owns (.pool a i) m.run := h.owns hpool hblock.1
  have htaken := h.kfree_takenIn hp hpool hblock hchange.words
  have hnone := htaken.none_used hok hlast
  have hlog' : (Mm.kfree p s.heap).pageLog = .free m.memory m.nrPages :: s.heap.pageLog := hlog
  apply h.change hchange (h.header_apart hpool hblock.1) (.inl ⟨rfl, rfl⟩)
  case hapart => exact fun hx => absurd rfl hx
  case hheld =>
    intro r
    rw [hlog', Mm.held, h.heldNodup.mem_erase_iff, h.held_pool hpool]
    constructor
    · rintro ⟨hne, ho | ⟨-, rfl⟩⟩
      · exact .inl ho
      · exact absurd rfl hne
    · rintro (⟨o, hne, ho⟩ | ⟨hx, -⟩)
      · refine ⟨?_, .inl ⟨o, hne, ho⟩⟩
        rintro rfl
        have hself : m.run.Apart m.run := h.apart _ _ _ _ ho hown hne
        have : m.memory.toNat + m.run.bytes ≤ m.memory.toNat := hself.elim id id
        omega
      · exact absurd rfl hx
  case hheldNodup =>
    rw [hlog', Mm.held]
    exact h.heldNodup.erase _
  case hfreed =>
    rw [hlog']
    exact ⟨(h.held _).mpr ⟨_, hown⟩, h.freed⟩
  case hnodup => exact h.liveNodup.sublist (List.erase_sublist.map _)
  case hlive =>
    intro b hb
    obtain ⟨hb, hne⟩ := (h.mem_erase hp).mp hb
    exact .inr ⟨hb, fun k' hk' =>
      hnone k' hk'.1 (h.block_kept hpool hblock hb hne hk' htaken).2⟩
  case hkeep => exact h.live_kept hp hblock
  case hused => exact fun k' hk' => absurd hk' (Nat.not_lt_zero k')

/-- `kfree` with another block of the pool in use. -/
theorem Inv.kfree_one (h : s.Inv) (hp : (p, size) ∈ s.live) {m : Mem} {k : ℕ}
    (hpool : s.heap.pool a i = some m) (hblock : IsBlock m k p) (hslot : s.heap.kfreeSlot p = i)
    (hits : ∀ t ∈ s.heap.root, s.heap.Hits p t.addr ↔ t.addr = a) (hmore : m.nrAlloc - 1 ≠ 0) :
    Inv ⟨Mm.kfree p s.heap, s.live.erase (p, size)⟩ := by
  obtain ⟨hchange, hlog⟩ := h.kfree_changes hpool hblock hslot hits
  rw [release_of_ne hmore] at hchange hlog
  obtain ⟨hact, hok⟩ := h.ok hpool hblock.1
  have htaken := h.kfree_takenIn hp hpool hblock hchange.words
  have hlog' : (Mm.kfree p s.heap).pageLog = s.heap.pageLog := hlog
  apply h.change hchange (h.header_apart hpool hblock.1)
  case hpool => exact .inr ⟨hact, htaken.ok_pred hok hmore⟩
  case hapart =>
    intro _ o r ho hne
    exact h.apart (.pool a i) o m.run r (h.owns hpool hblock.1) ho (Ne.symm hne)
  case hheld => exact fun r => hlog' ▸ h.held_pool hpool r
  case hheldNodup => exact hlog' ▸ h.heldNodup
  case hfreed => exact hlog' ▸ h.freed
  case hnodup => exact h.liveNodup.sublist (List.erase_sublist.map _)
  case hlive =>
    intro b hb
    obtain ⟨hb, hne⟩ := (h.mem_erase hp).mp hb
    by_cases hin : ∃ k', IsBlock m k' b.1
    · obtain ⟨k', hk'⟩ := hin
      obtain ⟨hsize', hu'⟩ := h.block_kept hpool hblock hb hne hk' htaken
      exact .inl ⟨k', hk', hsize', hu'⟩
    · exact .inr ⟨hb, fun k' hk' => hin ⟨k', hk'⟩⟩
  case hkeep => exact h.live_kept hp hblock
  case hused =>
    intro k' hk' hu'
    have hne : k' ≠ k := by
      rintro rfl
      exact htaken.not_used hu'
    obtain ⟨b, hb, hbk⟩ := h.used a i m k' hpool hk' ((htaken.used_iff hk' hne).mpr hu')
    exact ⟨b, (h.mem_erase hp).mpr ⟨hb, (h.ne_iff hpool hblock hbk).mpr hne⟩, hbk⟩

/-- **`kfree` keeps the invariant**, where it finds the pool of the block. -/
theorem Inv.kfree (h : s.Inv) (hp : (p, size) ∈ s.live) (hdec : Decodes s.heap p) :
    Inv ⟨kfree p s.heap, s.live.erase (p, size)⟩ := by
  obtain ⟨a, i, m, k, hpool, hblock, hslot, hits⟩ := hdec
  by_cases hlast : m.nrAlloc - 1 = 0
  · exact h.kfree_last hp hpool hblock hslot hits hlast
  · exact h.kfree_one hp hpool hblock hslot hits hlast

end HeapRun
end OxKernel.Mm
