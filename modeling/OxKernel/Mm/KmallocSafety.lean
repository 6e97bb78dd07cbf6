import OxKernel.Mm.KmallocRuns
import Mathlib.Order.Interval.Set.Basic
import Mathlib.Order.Interval.Set.Disjoint

/-!
# What the kernel heap promises

A header remembers its pool by a slot number that counts tables from the front of the list,
where new tables are put, while `kfree` compares `nr_table` with `NR_SIZES * j`. So `kfree`
finds the right pool for blocks of the newest table only, and only by luck after another
table was added. The results here are about the runs in which every `kfree` finds the pool
of its block; the counter `nr_slots` needs more, since every `kfree` decreases it.

## Main definitions

* `HeapRun.system` — runs of `kmalloc` and of `kfree` on live blocks.
* `HeapRun.Separated` — blocks, headers and tables do not overlap.
* `HeapRun.OwnPoolOnly` — `kfree` changes the pool of the block and no other.
* `HeapRun.Accounts` — the counters count, and with no live block all pools are given back.
-/
namespace OxKernel.Mm
namespace HeapRun

/-- A call of a run. -/
inductive Call
  | kmalloc (size : UInt32)
  | kfree (p : UInt32)

/-- What a call does, for any answers of the page allocator that are fresh. -/
inductive Step : Call → HeapRun → HeapRun → Prop
  | kmalloc {s : HeapRun} {size tableAt poolAt : UInt32} (hsize : size.toNat + 11 < 2 ^ 32)
      (hfresh : FreshLog (Mm.kmalloc tableAt poolAt size s.heap).2.pageLog) :
      Step (.kmalloc size) s ⟨(Mm.kmalloc tableAt poolAt size s.heap).2,
        ((Mm.kmalloc tableAt poolAt size s.heap).1, size) :: s.live⟩
  | kfree {s : HeapRun} {p size : UInt32} (hp : (p, size) ∈ s.live) :
      Step (.kfree p) s ⟨Mm.kfree p s.heap, s.live.erase (p, size)⟩

/-- The runs that start from a heap that was not used, in any memory. -/
def system : Lib.System HeapRun Call where
  init s := ∃ w, s = ⟨emptyHeap w, []⟩
  step := Step

/-- `kfree` finds the pool of its block. -/
def decodes (s : HeapRun) : Call → Prop
  | .kmalloc _ => True
  | .kfree p => Decodes s.heap p

variable {s : HeapRun} {p size : UInt32}

theorem inv_empty (w : Words) : Inv ⟨emptyHeap w, []⟩ := by
  have hnone : ∀ a i, (emptyHeap w).pool a i = none := fun _ _ => rfl
  have howns : ∀ o r, ¬ (emptyHeap w).Owns o r := by
    rintro (a | ⟨a, i⟩) r
    · rintro ⟨hsome, -⟩
      cases hsome
    · rintro ⟨m, hm, -⟩
      cases hm
  constructor
  case nodup => exact List.nodup_nil
  case pools => exact fun a i m hm => absurd hm (by rw [hnone]; simp)
  case apart => exact fun o _ r _ ho => absurd ho (howns o r)
  case held =>
    intro r
    constructor
    · intro hr
      cases hr
    · rintro ⟨o, ho⟩
      exact absurd ho (howns o r)
  case heldNodup => exact List.nodup_nil
  case freed => trivial
  case block => exact fun b hb => absurd hb List.not_mem_nil
  case liveNodup => exact List.nodup_nil
  case used => exact fun a i m k hm => absurd hm (by rw [hnone]; simp)

/-- The invariant holds in every state that a run reaches whose `kfree`s find their pools. -/
theorem inv_reach (h : system.Reach decodes s) : s.Inv := by
  apply h.invariant
  · rintro s ⟨w, rfl⟩
    exact inv_empty w
  · intro s c s' hinv hg hstep
    cases hstep with
    | kmalloc hsize hfresh => exact hinv.kmalloc hsize hfresh
    | kfree hp => exact hinv.kfree hp hg

/-! ### Blocks do not overlap -/

/-- The bytes of a block. -/
def region (b : UInt32 × UInt32) : Set ℕ := Set.Ico b.1.toNat (b.1.toNat + b.2.toNat)

/-- Live blocks do not overlap, neither each other nor a header or a table, and are in pages
that are allocated. -/
structure Separated (s : HeapRun) : Prop where
  disjoint : s.live.Pairwise fun b b' => Disjoint (region b) (region b')
  headers : ∀ b ∈ s.live, ∀ a i m, s.heap.pool a i = some m → ∀ k < m.nrBlocks.toNat,
    Disjoint (region b) (Set.Ico (m.hdr k) (m.hdr k + headerSize.toNat))
  tables : ∀ b ∈ s.live, ∀ t ∈ s.heap.root,
    Disjoint (region b) (Set.Ico t.addr.toNat (t.addr.toNat + tableSize.toNat))
  pages : ∀ b ∈ s.live, ∃ r ∈ held s.heap.pageLog,
    region b ⊆ Set.Ico r.1.toNat (r.1.toNat + r.bytes)

/-- A byte of a live block is in its block, behind the header. -/
theorem IsBlock.mem_region {b : UInt32 × UInt32} {m : Mem} {w : Words} {k x : ℕ}
    (hb : IsBlock m k b.1) (hok : m.Ok w) (hsize : 8 + b.2.toNat ≤ m.rsize.toNat)
    (hx : x ∈ region b) : m.hdr k + 8 ≤ x ∧ x < m.hdr k + m.rsize.toNat := by
  have hle := hok.hdr_le hb.1
  have hin := hok.inside
  have hhdr := hb.2
  -- The address behind the header wraps only for a block without bytes.
  have hp1 : b.1.toNat = (m.hdr k + 8) % 2 ^ 32 := by
    have : b.1 = b.1 - headerSize + headerSize := (UInt32.sub_add_cancel _ _).symm
    rw [this, UInt32.toNat_add, hhdr]
    rfl
  have hx1 : b.1.toNat ≤ x := hx.1
  have hx2 : x < b.1.toNat + b.2.toNat := hx.2
  omega

theorem Inv.separated (h : s.Inv) : Separated s := by
  constructor
  case disjoint =>
    have hnodup := h.liveNodup
    rw [List.Nodup, List.pairwise_map] at hnodup
    refine hnodup.imp_of_mem fun {b b'} hb hb' hne => ?_
    obtain ⟨a, i, m, k, hp, hk, hsize, -⟩ := h.block b hb
    obtain ⟨a', i', m', k', hp', hk', hsize', -⟩ := h.block b' hb'
    rw [Set.disjoint_left]
    intro x hx hx'
    have hin := hk.mem_region (h.ok hp hk.1).2 hsize hx
    have hin' := hk'.mem_region (h.ok hp' hk'.1).2 hsize' hx'
    rcases h.blocks_apart hp hk.1 hp' hk'.1 with ⟨-, -, rfl, rfl⟩ | hap | hap
    · exact hne (hk.inj hk' rfl)
    · omega
    · omega
  case headers =>
    intro b hb a' i' m' hp' k' hk'
    obtain ⟨a, i, m, k, hp, hk, hsize, -⟩ := h.block b hb
    have h8 := (h.ok hp' hk').2.rsize
    have hhs : headerSize.toNat = 8 := rfl
    rw [Set.disjoint_left]
    intro x hx hx'
    have hin := hk.mem_region (h.ok hp hk.1).2 hsize hx
    have hx1 : m'.hdr k' ≤ x := hx'.1
    have hx2 : x < m'.hdr k' + headerSize.toNat := hx'.2
    rcases h.blocks_apart hp hk.1 hp' hk' with ⟨-, -, rfl, rfl⟩ | hap | hap
    · omega
    · omega
    · omega
  case tables =>
    intro b hb t ht
    obtain ⟨a, i, m, k, hp, hk, hsize, -⟩ := h.block b hb
    have hle := (h.ok hp hk.1).2.hdr_le hk.1
    have hmem := m.memory_le_hdr k
    have hts : tableSize.toNat = 392 := rfl
    have hbytes : PageRun.bytes (t.addr, nrBlocks tableSize) = 4096 := by
      simp [PageRun.bytes, nrBlocks_tableSize]
    have hown : s.heap.Owns (.table t.addr) (t.addr, nrBlocks tableSize) := by
      refine ⟨?_, rfl⟩
      rw [Heap.table_of_mem h.nodup ht]
      rfl
    rw [Set.disjoint_left]
    intro x hx hx'
    have hin := hk.mem_region (h.ok hp hk.1).2 hsize hx
    have hx1 : t.addr.toNat ≤ x := hx'.1
    have hx2 : x < t.addr.toNat + tableSize.toNat := hx'.2
    rcases h.apart _ _ _ _ (h.owns hp hk.1) hown (by simp) with hap | hap
    · have : m.memory.toNat + m.run.bytes ≤ t.addr.toNat := hap
      omega
    · have : t.addr.toNat + PageRun.bytes (t.addr, nrBlocks tableSize) ≤ m.memory.toNat := hap
      omega
  case pages =>
    intro b hb
    obtain ⟨a, i, m, k, hp, hk, hsize, -⟩ := h.block b hb
    have hle := (h.ok hp hk.1).2.hdr_le hk.1
    have hmem := m.memory_le_hdr k
    refine ⟨m.run, (h.held _).mpr ⟨_, h.owns hp hk.1⟩, fun x hx => ?_⟩
    have hin := hk.mem_region (h.ok hp hk.1).2 hsize hx
    have hx1 : m.memory.toNat ≤ x := by omega
    have hx2 : x < m.memory.toNat + m.run.bytes := by omega
    exact ⟨hx1, hx2⟩

/-- A call changed the pool of the block and no other. -/
def OwnPoolOnly (h h' : Heap) (p : UInt32) : Prop :=
  ∃ a i m k, h.pool a i = some m ∧ IsBlock m k p ∧ h'.pool a i ≠ some m ∧
    ∀ b j, ¬ (b = a ∧ j = i) → h'.pool b j = h.pool b j

theorem release_ne (m : Mem) : m.release.1 ≠ m := by
  intro he
  have hnr : m.release.1.nrAlloc = m.nrAlloc - 1 := by
    rw [Mem.release]
    dsimp only
    split <;> rfl
  rw [he, ← UInt32.toNat_inj] at hnr
  have := m.nrAlloc.toNat_lt
  rw [UInt32.toNat_sub] at hnr
  simp only [UInt32.reduceToNat] at hnr
  omega

/-- `kfree` changes the pool of the block and no other exactly if it finds it. -/
theorem Inv.ownPoolOnly_iff (h : s.Inv) :
    OwnPoolOnly s.heap (Mm.kfree p s.heap) p ↔ Decodes s.heap p := by
  constructor
  · rintro ⟨a, i, m, k, hp, hk, hne, hother⟩
    refine ⟨a, i, m, k, hp, hk, ?_, ?_⟩
    · by_contra hslot
      rw [Heap.pool_kfree h.nodup, if_neg fun he => hslot he.2.symm] at hne
      exact hne hp
    · intro t ht
      have hpool : ∀ j, s.heap.pool t.addr j = some (t.sizes j) := by
        intro j
        rw [Heap.pool, Heap.table_of_mem h.nodup ht]
        rfl
      constructor
      · intro hhit
        by_contra hta
        have hsame := hother t.addr (s.heap.kfreeSlot p) fun he => hta he.1
        rw [Heap.pool_kfree h.nodup, if_pos ⟨hhit, rfl⟩, hpool, Option.map_some,
          Option.some.injEq] at hsame
        exact release_ne _ hsame
      · intro hta
        by_contra hhit
        rw [Heap.pool_kfree h.nodup, if_neg fun he => hhit (hta ▸ he.1)] at hne
        exact hne hp
  · rintro ⟨a, i, m, k, hp, hk, hslot, hits⟩
    obtain ⟨hchange, -⟩ := h.kfree_changes hp hk hslot hits
    refine ⟨a, i, m, k, hp, hk, ?_, fun b j hne => ?_⟩
    · rw [hchange.pool', if_pos ⟨rfl, rfl⟩]
      exact fun he => release_ne m (Option.some.inj he)
    · rw [hchange.pool', if_neg hne]

/-- **Heap blocks never overlap**, in a run whose `kfree`s find their pools; and `kfree`
changes the pool of its block and no other exactly if it finds it. -/
theorem heap_separated (s : HeapRun) (h : system.Reach decodes s) :
    Separated s ∧ ∀ b ∈ s.live,
      OwnPoolOnly s.heap (kfree b.1 s.heap) b.1 ↔ Decodes s.heap b.1 :=
  ⟨(inv_reach h).separated, fun _ _ => (inv_reach h).ownPoolOnly_iff⟩

/-! ### The counters and the pages given back -/

/-- The pools of a table that have blocks. -/
def inUse (t : Table) : ℕ := (Finset.univ.filter fun i => 0 < (t.sizes i).nrBlocks).card

/-- `nr_slots` counts the pools that have blocks. -/
def SlotsCounted (h : Heap) : Prop := ∀ t ∈ h.root, t.nrSlots.toNat = inUse t

/-- `nr_alloc` counts the blocks in use, runs are given back once and as they were allocated,
and with no live block only the pages of tables are left. -/
structure Counted (s : HeapRun) : Prop where
  nrAlloc : ∀ a i m, s.heap.pool a i = some m → m.nrAlloc.toNat = m.used s.heap.words
  freed : FreedHeld s.heap.pageLog
  released : s.live = [] → ∀ addr n,
    ((∃ t ∈ s.heap.root, addr = t.addr ∧ n = nrBlocks tableSize) →
      s.heap.pageLog.count (.alloc addr n) = s.heap.pageLog.count (.free addr n) + 1) ∧
    (¬ (∃ t ∈ s.heap.root, addr = t.addr ∧ n = nrBlocks tableSize) →
      s.heap.pageLog.count (.alloc addr n) = s.heap.pageLog.count (.free addr n))

/-- The pools and the tables are accounted for. -/
structure Accounts (s : HeapRun) : Prop extends Counted s where
  nrSlots : SlotsCounted s.heap

/-- The block is the only one of its pool that is in use. -/
def LastBlock (h : Heap) (p : UInt32) : Prop :=
  ∃ a i m k, h.pool a i = some m ∧ IsBlock m k p ∧ m.nrAlloc = 1

/-- `kfree` finds the pool of its block, and the block is the last one of it. -/
def decodesLast (s : HeapRun) : Call → Prop
  | .kmalloc _ => True
  | .kfree p => Decodes s.heap p ∧ LastBlock s.heap p

theorem inUse_update_same {t : Table} {i : Fin nrSizes} {m : Mem}
    (hm : m.nrBlocks = (t.sizes i).nrBlocks) (nr : UInt32) :
    inUse { t with nrSlots := nr, sizes := Function.update t.sizes i m } = inUse t := by
  rw [inUse, inUse]
  congr 1
  ext j
  by_cases hj : j = i
  · subst hj
    simp [hm]
  · simp [hj]

/-- A pool that gets blocks is counted. -/
theorem inUse_update_succ {t : Table} {i : Fin nrSizes} {m : Mem} (hold : (t.sizes i).nrBlocks = 0)
    (hnew : 0 < m.nrBlocks) (nr : UInt32) :
    inUse { t with nrSlots := nr, sizes := Function.update t.sizes i m } = inUse t + 1 := by
  have hset : (Finset.univ.filter fun j => 0 < (Function.update t.sizes i m j).nrBlocks) =
      insert i (Finset.univ.filter fun j => 0 < (t.sizes j).nrBlocks) := by
    ext j
    by_cases hj : j = i
    · subst hj
      simp [hnew]
    · simp [hj]
  rw [inUse, inUse]
  dsimp only
  rw [hset, Finset.card_insert_of_notMem]
  simp [hold]

/-- A pool that loses its blocks is no longer counted. -/
theorem inUse_update_pred {t : Table} {i : Fin nrSizes} {m : Mem}
    (hold : 0 < (t.sizes i).nrBlocks) (hnew : m.nrBlocks = 0) (nr : UInt32) :
    inUse { t with nrSlots := nr, sizes := Function.update t.sizes i m } + 1 = inUse t := by
  have := inUse_update_succ
    (t := { t with nrSlots := nr, sizes := Function.update t.sizes i m }) (i := i)
    (m := t.sizes i) (by simpa using hnew) hold t.nrSlots
  rw [← this]
  simp [Function.update_idem]

theorem inUse_le (t : Table) : inUse t ≤ 16 := by
  have hle := Finset.card_filter_le (Finset.univ : Finset (Fin nrSizes))
    fun i => 0 < (t.sizes i).nrBlocks
  rwa [Finset.card_univ, Fintype.card_fin] at hle

/-- A change of one table keeps the counters, if it keeps that one's. -/
theorem SlotsCounted.modify {h : Heap} (hs : SlotsCounted h) {a : UInt32} {f : Table → Table}
    (hf : ∀ t ∈ h.root, t.addr = a → (f t).nrSlots.toNat = inUse (f t)) :
    SlotsCounted (h.modify a f) := by
  intro t ht
  rw [Heap.modify, List.mem_map] at ht
  obtain ⟨u, hu, rfl⟩ := ht
  split
  · exact hf u hu (by assumption)
  · exact hs u hu

theorem SlotsCounted.kmalloc (hinv : s.Inv) (hs : SlotsCounted s.heap) {tableAt poolAt : UInt32}
    (hsize : size.toNat + 11 < 2 ^ 32)
    (hfresh : FreshLog (kmalloc tableAt poolAt size s.heap).2.pageLog) :
    SlotsCounted (kmalloc tableAt poolAt size s.heap).2 := by
  have hall := kmalloc_allocates tableAt poolAt size s.heap
  generalize Mm.kmalloc tableAt poolAt size s.heap = r at hall hfresh
  obtain ⟨p, h'⟩ := r
  have hnew : ∀ {log : List PageEvent},
      FreshLog (.alloc poolAt (nrBlocks (blockSize size)) :: log) →
      0 < (newMem size poolAt).nrBlocks := by
    rintro log ⟨hpos, hend, -⟩
    rw [UInt32.lt_iff_toNat_lt]
    exact (Mem.newMem_blocks hsize hpos hend).2.1
  -- The pool of a table in the list is the one at its address.
  have hsizes : ∀ {a i m}, s.heap.pool a i = some m → ∀ t ∈ s.heap.root, t.addr = a →
      t.sizes i = m := by
    rintro a i m hp t ht rfl
    rw [Heap.pool, Heap.table_of_mem hinv.nodup ht] at hp
    exact Option.some.inj hp
  cases hall with
  | @taken a i slot r ht =>
      obtain ⟨m, -, hp, -, -, -, -, -, -, -, -, hroot⟩ := tryPool_spec ht
      rw [SlotsCounted, hroot]
      apply hs.modify
      intro t ht' hta
      rw [inUse_update_same]
      · exact hs t ht'
      · rw [hsizes hp t ht' hta]
  | @opened a i slot hfree =>
      apply hs.modify
      intro t ht' hta
      have htab : s.heap.table a = some t := hta ▸ Heap.table_of_mem hinv.nodup ht'
      rw [Heap.isFree, htab] at hfree
      simp only [decide_eq_true_eq] at hfree
      have hle := inUse_le t
      have hcount := hs t ht'
      rw [inUse_update_succ hfree.2 (hnew hfresh), ← hcount]
      exact Lib.toNat_succ (by omega)
  | @pushed slot w hw =>
      intro t ht
      rcases List.mem_cons.mp ht with rfl | ht
      · have hzero : inUse ⟨tableAt, 0, fun _ => zeroMem⟩ = 0 := by
          rw [inUse, Finset.card_eq_zero, Finset.filter_eq_empty_iff]
          intro i _
          exact (by decide : ¬ 0 < zeroMem.nrBlocks)
        have := inUse_update_succ (t := ⟨tableAt, 0, fun _ => zeroMem⟩) (i := 0) rfl
          (hnew hfresh) 1
        rw [this, hzero]
        rfl
      · exact hs t ht

theorem SlotsCounted.kfree (hinv : s.Inv) (hs : SlotsCounted s.heap) (hdec : Decodes s.heap p)
    (hlast : LastBlock s.heap p) : SlotsCounted (kfree p s.heap) := by
  obtain ⟨a, i, m, k, hp, hk, hslot, hits⟩ := hdec
  obtain ⟨a', i', m', k', hp', hk', hone⟩ := hlast
  obtain ⟨-, -, rfl, -⟩ := hinv.block_unique hp' hk' hp hk
  intro t ht
  rw [Heap.kfree_root hinv.nodup, List.mem_map] at ht
  obtain ⟨u, hu, rfl⟩ := ht
  split
  · rename_i hhit
    have hua : u.addr = a := (hits u hu).mp hhit
    have hui : u.sizes i = m' := by
      rw [Heap.pool, ← hua, Heap.table_of_mem hinv.nodup hu] at hp
      exact Option.some.inj hp
    have hrel : m'.release.1.nrBlocks = 0 := by
      rw [release_of_eq (by rw [hone]; rfl)]
    have hact : 0 < m'.nrBlocks := by
      rw [UInt32.lt_iff_toNat_lt, UInt32.toNat_zero]
      have := hk.1
      omega
    have hpred := inUse_update_pred (t := u) (i := i) (m := m'.release.1) (by rw [hui]; exact hact)
      hrel (u.nrSlots - 1)
    have hcount := hs u hu
    rw [hslot, Table.release, hui]
    rw [← hpred] at hcount
    dsimp only
    rw [UInt32.toNat_sub_of_le]
    · rw [hcount]
      rfl
    · rw [UInt32.le_iff_toNat_le, hcount]
      exact Nat.le_add_left _ _
  · exact hs u hu

/-- A record of calls: what was allocated is given back or still held. -/
theorem count_held {log : List PageEvent} (h : FreedHeld log) (addr n : UInt32) :
    log.count (.alloc addr n) = log.count (.free addr n) + (held log).count (addr, n) := by
  induction log with
  | nil => rfl
  | cons ev log ih =>
      cases ev with
      | alloc a m =>
          rw [held, List.count_cons, List.count_cons, List.count_cons, ih h]
          by_cases he : a = addr ∧ m = n
          · simp [he.1, he.2]
            omega
          · have h1 : ¬ (PageEvent.alloc a m = .alloc addr n) := by
              intro hx
              cases hx
              exact he ⟨rfl, rfl⟩
            have h2 : ¬ ((a, m) = (addr, n)) := by
              intro hx
              cases hx
              exact he ⟨rfl, rfl⟩
            simp [h1, h2]
      | free a m =>
          obtain ⟨hmem, hrest⟩ := h
          rw [held, List.count_cons, List.count_cons, List.count_erase, ih hrest]
          by_cases he : a = addr ∧ m = n
          · obtain ⟨rfl, rfl⟩ := he
            have := List.count_pos_iff.mpr hmem
            simp
            omega
          · have h1 : ¬ (PageEvent.free a m = .free addr n) := by
              intro hx
              cases hx
              exact he ⟨rfl, rfl⟩
            have h2 : ¬ ((a, m) = (addr, n)) := by
              intro hx
              cases hx
              exact he ⟨rfl, rfl⟩
            simp [h1, h2]

/-- The counters of the pools count, and with no live block only tables have pages. -/
theorem Inv.counted (h : s.Inv) : Counted s := by
  refine ⟨fun a i m hp => ?_, h.freed, fun hlive addr n => ?_⟩
  · rcases h.pools a i m hp with hidle | ⟨-, hok⟩
    · rw [hidle.nrAlloc, Mem.used, hidle.nrBlocks]
      rfl
    · exact hok.count
  · have htable : (addr, n) ∈ Mm.held s.heap.pageLog ↔
        ∃ t ∈ s.heap.root, addr = t.addr ∧ n = nrBlocks tableSize := by
      rw [h.held]
      constructor
      · rintro ⟨o, ho⟩
        cases o with
        | table a =>
            obtain ⟨hsome, heq⟩ := ho
            obtain ⟨t, ht⟩ := Option.isSome_iff_exists.mp hsome
            cases heq
            exact ⟨t, Heap.table_mem ht, (Heap.table_addr ht).symm, rfl⟩
        | pool a i =>
            -- A pool with blocks has one in use, and that is live.
            obtain ⟨m, hp, hact, -⟩ := ho
            rcases h.pools a i m hp with hidle | ⟨-, hok⟩
            · exact absurd hidle.nrBlocks hact
            · have hpos := hok.pos
              rw [hok.count, Mem.used, Finset.card_pos] at hpos
              obtain ⟨k, hk⟩ := hpos
              rw [Finset.mem_filter, Finset.mem_range] at hk
              obtain ⟨b, hb, -⟩ := h.used a i m k hp hk.1 hk.2
              rw [hlive] at hb
              cases hb
      · rintro ⟨t, ht, rfl, rfl⟩
        refine ⟨.table t.addr, ?_, rfl⟩
        rw [Heap.table_of_mem h.nodup ht]
        rfl
    rw [← htable, count_held h.freed]
    constructor
    · intro hmem
      rw [List.count_eq_one_of_mem h.heldNodup hmem]
    · intro hmem
      rw [List.count_eq_zero.mpr hmem, Nat.add_zero]

/-- Every pool is accounted for in a run whose `kfree`s find their pools. -/
theorem heap_counted (s : HeapRun) (h : system.Reach decodes s) : Counted s :=
  (inv_reach h).counted

/-- **Heap accounting**, in a run whose `kfree`s find their pools and are of the last block
in use there. -/
theorem heap_accounts (s : HeapRun) (h : system.Reach decodesLast s) : Accounts s := by
  have hboth : s.Inv ∧ SlotsCounted s.heap := by
    apply h.invariant (P := fun s => s.Inv ∧ SlotsCounted s.heap)
    · rintro s ⟨w, rfl⟩
      exact ⟨inv_empty w, fun t ht => absurd ht List.not_mem_nil⟩
    · rintro s c s' ⟨hinv, hs⟩ hg hstep
      cases hstep with
      | kmalloc hsize hfresh => exact ⟨hinv.kmalloc hsize hfresh, hs.kmalloc hinv hsize hfresh⟩
      | kfree hp => exact ⟨hinv.kfree hp hg.1, hs.kfree hinv hg.1 hg.2⟩
  exact ⟨hboth.1.counted, hboth.2⟩

/-! ### Sample runs -/

instance (r r' : PageRun) : Decidable (r.Apart r') := inferInstanceAs (Decidable (_ ∨ _))

instance decidableFreshLog : ∀ log, Decidable (FreshLog log)
  | [] => isTrue trivial
  | .alloc a n :: log =>
    have := decidableFreshLog log
    have : Decidable (∀ r ∈ held log, PageRun.Apart (a, n) r) := List.decidableBAll _ _
    inferInstanceAs (Decidable (a ≠ 0 ∧ a.toNat + PageRun.bytes (a, n) ≤ 2 ^ 32 ∧
      (∀ r ∈ held log, PageRun.Apart (a, n) r) ∧ FreshLog log))
  | .free _ _ :: log => decidableFreshLog log

/-- `n` calls of `kmalloc` with one size, each with its own pages for a table and a pool. -/
def mallocs (size : UInt32) : ℕ → HeapRun
  | 0 => ⟨emptyHeap fun _ => 0, []⟩
  | n + 1 =>
    let s := mallocs size n
    let r := kmalloc (0x100000 + 4096 * .ofNat n) (0x200000 + 4096 * .ofNat n) size s.heap
    ⟨r.2, (r.1, size) :: s.live⟩

/-- The record of the calls grows. -/
theorem freshLog_of_kmalloc {tableAt poolAt : UInt32} {h : Heap}
    (hf : FreshLog (kmalloc tableAt poolAt size h).2.pageLog) : FreshLog h.pageLog := by
  have hall := kmalloc_allocates tableAt poolAt size h
  generalize kmalloc tableAt poolAt size h = r at hall hf
  obtain ⟨p, h'⟩ := r
  cases hall with
  | taken ht =>
      obtain ⟨-, -, -, -, -, -, -, -, hlog, -⟩ := tryPool_spec ht
      rwa [hlog] at hf
  | opened hfree => exact hf.2.2.2
  | pushed hw => exact hf.2.2.2.2.2.2

theorem reach_mallocs {guard : HeapRun → Call → Prop} (hguard : ∀ s size, guard s (.kmalloc size))
    (hsize : size.toNat + 11 < 2 ^ 32) (n : ℕ)
    (hf : FreshLog (mallocs size n).heap.pageLog) : system.Reach guard (mallocs size n) := by
  induction n with
  | zero => exact .init ⟨_, rfl⟩
  | succ n ih =>
      exact .step (ih (freshLog_of_kmalloc hf)) (hguard _ size) (.kmalloc hsize hf)

/-- Two blocks are taken, the first one is given back. -/
def mallocFree : HeapRun :=
  ⟨kfree 0x200008 (mallocs 4088 2).heap, (mallocs 4088 2).live.erase (0x200008, 4088)⟩

theorem decodes_first_block : Decodes (mallocs 4088 2).heap 0x200008 :=
  ⟨0x100000, 0, newMem 4088 0x200000, 0, by decide +kernel, ⟨by decide, by decide⟩,
    by decide +kernel, by decide +kernel⟩

/-- The pool of the first block is given back, the second block is live. -/
theorem heap_separated_mallocFree :
    mallocFree.heap.pageLog.head? = some (.free 0x200000 1) ∧
      mallocFree.live = [(0x201008, 4088)] ∧ Separated mallocFree := by
  refine ⟨by decide +kernel, by decide +kernel, (heap_separated mallocFree ?_).1⟩
  have hlive : (0x200008, 4088) ∈ (mallocs 4088 2).live := by decide +kernel
  exact .step (c := .kfree 0x200008)
    (reach_mallocs (fun _ _ => trivial) (by decide) 2 (by decide +kernel)) decodes_first_block
    (.kfree hlive)

/-- The pool of the first block is given back, the second block is live. -/
theorem heap_accounts_mallocFree :
    mallocFree.heap.pageLog.head? = some (.free 0x200000 1) ∧
      mallocFree.live = [(0x201008, 4088)] ∧ Accounts mallocFree := by
  refine ⟨by decide +kernel, by decide +kernel, heap_accounts mallocFree ?_⟩
  have hlive : (0x200008, 4088) ∈ (mallocs 4088 2).live := by decide +kernel
  refine .step (c := .kfree 0x200008)
    (reach_mallocs (fun _ _ => trivial) (by decide) 2 (by decide +kernel))
    ⟨decodes_first_block, ?_⟩ (.kfree hlive)
  exact ⟨0x100000, 0, newMem 4088 0x200000, 0, by decide +kernel, ⟨by decide, by decide⟩, rfl⟩

/-- Seventeen pools need a second table. `kfree` of the first block then takes the new table
for its own, and gives back the pages of the seventeenth block, which is live. -/
theorem kfree_releases_live_block : ¬ ∀ s : HeapRun, system.Reach (fun _ _ => True) s →
    Separated s ∧ ∀ b ∈ s.live, OwnPoolOnly s.heap (kfree b.1 s.heap) b.1 := by
  intro hclaim
  have hreach : system.Reach (fun _ _ => True) (mallocs 4088 17) :=
    reach_mallocs (fun _ _ => trivial) (by decide) 17 (by decide +kernel)
  have hstep : Step (.kfree 0x200008) (mallocs 4088 17)
      ⟨kfree 0x200008 (mallocs 4088 17).heap, (mallocs 4088 17).live.erase (0x200008, 4088)⟩ :=
    .kfree (by decide +kernel)
  obtain ⟨r, hr, hsub⟩ := (hclaim _ (.step hreach trivial hstep)).1.pages (0x210008, 4088)
    (by decide +kernel)
  have hin : 0x210008 ∈ Set.Ico r.1.toNat (r.1.toNat + r.bytes) := hsub ⟨by decide, by decide⟩
  have hout : ((held (kfree 0x200008 (mallocs 4088 17).heap).pageLog).all fun r : PageRun =>
      ¬ (r.1.toNat ≤ 0x210008 ∧ 0x210008 < r.1.toNat + r.bytes)) = true := by decide +kernel
  exact of_decide_eq_true (List.all_eq_true.mp hout r hr) hin

/-- `nr_slots` after one of two blocks of a pool is given back. -/
theorem nr_slots_drifts : ¬ ∀ s : HeapRun, system.Reach (fun _ _ => True) s → Accounts s := by
  intro hclaim
  have hreach : system.Reach (fun _ _ => True) (mallocs 2040 2) :=
    reach_mallocs (fun _ _ => trivial) (by decide) 2 (by decide +kernel)
  have hstep : Step (.kfree 0x200008) (mallocs 2040 2)
      ⟨kfree 0x200008 (mallocs 2040 2).heap, (mallocs 2040 2).live.erase (0x200008, 2040)⟩ :=
    .kfree (by decide +kernel)
  have hslots := (hclaim _ (.step hreach trivial hstep)).nrSlots
  have hbad : ¬ ∀ t ∈ (kfree 0x200008 (mallocs 2040 2).heap).root, t.nrSlots.toNat = inUse t := by
    decide +kernel
  exact hbad hslots

end HeapRun
end OxKernel.Mm
