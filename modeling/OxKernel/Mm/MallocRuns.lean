import OxKernel.Mm.Malloc
import OxKernel.Mm.Pools

/-!
# Runs of the user heap within one table

As long as `balloc` allocates no second table, the pools of the table are a family of pools
whose slot numbers are their places: every call keeps the invariant of the family, and the
cached pool stays in step with the cached slot number. `bfree` then finds the pool of its
block, since both numbers of tables it compares are zero.

## Main definitions

* `Malloc.Run`, `Malloc.system` — runs of `balloc` and `bfree` on live blocks.
* `Malloc.OneTable` — the invariant.
* `Malloc.HeapLaw` — what holds of the live blocks, and when pages are given back.
-/
namespace OxKernel.Mm
namespace Malloc

open HeapRun (IsBlock region)

/-- The slot number of a pool of the only table. -/
def slotNumber (i : Fin nrSizes) : UInt32 := .ofNat i.val

/-- A state of a run: the heap and the live blocks, with the sizes asked for. -/
structure Run where
  heap : Heap
  live : List (UInt32 × UInt32)

/-- A call of a run. -/
inductive Call
  | balloc (size : UInt32)
  | bfree (p : UInt32)

/-- What a call does, for any answers of the page allocator that are fresh, and as long as
there is no second table. -/
inductive Step : Call → Run → Run → Prop
  | balloc {s : Run} {size tableAt poolAt : UInt32} (hsize : size.toNat ≤ 2 ^ 31)
      (hfresh : FreshLog (Malloc.balloc tableAt poolAt size s.heap).2.pageLog)
      (hone : (Malloc.balloc tableAt poolAt size s.heap).2.root.length ≤ 1) :
      Step (.balloc size) s ⟨(Malloc.balloc tableAt poolAt size s.heap).2,
        ((Malloc.balloc tableAt poolAt size s.heap).1, size) :: s.live⟩
  | bfree {s : Run} {p size : UInt32} (hp : (p, size) ∈ s.live) :
      Step (.bfree p) s ⟨Malloc.bfree p s.heap, s.live.erase (p, size)⟩

/-- The runs that start from a heap that was not used, in any memory. -/
def system : Lib.System Run Call where
  init s := ∃ w, s = ⟨emptyHeap w, []⟩
  step := Step

/-- The pools of a table, with the rest of the state. -/
def Run.pools (s : Run) (t : Table) : Pools (Fin nrSizes) :=
  ⟨t.sizes, s.heap.words, s.heap.pageLog, s.live⟩

/-! ### One table -/

section OneTable

variable {h : Heap} {t : Table} {i : Fin nrSizes} {size tableAt poolAt slot p : UInt32}

theorem table_of_root (hroot : h.root = [t]) : h.table t.addr = some t := by
  simp [Heap.table, hroot]

theorem pool_of_root (hroot : h.root = [t]) : h.pool t.addr i = some (t.sizes i) := by
  simp [Heap.pool, table_of_root hroot]

theorem modify_of_root (hroot : h.root = [t]) (f : Table → Table) :
    (h.modify t.addr f).root = [f t] := by
  simp [Heap.modify, hroot]

theorem isFree_of_root (hroot : h.root = [t]) :
    h.isFree t.addr i = true ↔ t.nrSlots ≠ 65536 ∧ (t.sizes i).nrBlocks = 0 := by
  simp [Heap.isFree, table_of_root hroot]

theorem slots_of_root (hroot : h.root = [t]) :
    h.slots = (List.finRange nrSizes).map fun i => (slotNumber i, t.addr, i) := by
  simp [Heap.slots, hroot, slotNumber]

/-- A pool has a block to take: where it is and what is left. -/
theorem tryPool_of_root (hroot : h.root = [t]) {r : UInt32 × Heap}
    (hr : h.tryPool size t.addr i slot = some r) :
    ∃ hdr, size ≤ (t.sizes i).rsize - headerSize ∧ (t.sizes i).nrBlocks > (t.sizes i).nrAlloc ∧
      findFree h.words (t.sizes i).rsize (t.sizes i).nrBlocks.toNat (t.sizes i).memory = some hdr ∧
      r = (hdr + headerSize,
        { root := [⟨t.addr, t.nrSlots,
            Function.update t.sizes i { t.sizes i with nrAlloc := (t.sizes i).nrAlloc + 1 }⟩]
          words := setHeader h.words hdr slot usedMem
          ptr := some (t.addr, i)
          nrSlot := slot
          pageLog := h.pageLog }) := by
  rw [Heap.tryPool, pool_of_root hroot] at hr
  simp only [Option.bind_eq_bind, Option.bind_some] at hr
  split at hr
  · rename_i hcond
    cases hf : findFree h.words (t.sizes i).rsize (t.sizes i).nrBlocks.toNat (t.sizes i).memory with
    | none => rw [hf] at hr; cases hr
    | some hdr =>
        rw [hf] at hr
        simp only [Option.bind_some, modify_of_root hroot] at hr
        exact ⟨hdr, hcond.1, hcond.2, rfl, (Option.some.inj hr).symm⟩
  · cases hr

/-- The cached pool is one of the table, and the cached slot number is its own. -/
def Linked (h : Heap) (t : Table) : Prop :=
  ∀ a i, h.ptr = some (a, i) → a = t.addr ∧ h.nrSlot = slotNumber i

/-- **The ways of `balloc`** with one table: a block of a pool that has one, the first block of
a pool without memory, or a second table. -/
theorem balloc_of_root (tableAt poolAt size : UInt32) (hroot : h.root = [t])
    (hlink : Linked h t) :
    (∃ i, h.tryPool size t.addr i (slotNumber i) = some (balloc tableAt poolAt size h)) ∨
      (∃ i, (t.sizes i).nrBlocks = 0 ∧
        balloc tableAt poolAt size h = h.openPool poolAt size t.addr i (slotNumber i)) ∨
      (balloc tableAt poolAt size h).2.root.length = 2 := by
  rw [balloc]
  split
  · rename_i r hfast
    rw [Option.bind_eq_some_iff] at hfast
    obtain ⟨⟨a, i⟩, hptr, hr⟩ := hfast
    obtain ⟨rfl, hslot⟩ := hlink a i hptr
    exact .inl ⟨i, hslot ▸ hr⟩
  · rw [if_neg (by simp [hroot]), slots_of_root hroot]
    split
    · rename_i r hscan
      obtain ⟨sai, hmem, hr⟩ := List.exists_of_findSome?_eq_some hscan
      obtain ⟨i, -, rfl⟩ := List.mem_map.mp hmem
      exact .inl ⟨i, hr⟩
    · split
      · rename_i sai hfind
        obtain ⟨i, -, rfl⟩ := List.mem_map.mp (List.mem_of_find?_eq_some hfind)
        have hfree := List.find?_some hfind
        dsimp only at hfree ⊢
        exact .inr (.inl ⟨i, ((isFree_of_root hroot).mp hfree).2, Eq.refl _⟩)
      · refine .inr (.inr ?_)
        rw [Heap.pushTable, List.length_cons, hroot, List.length_singleton]

/-- **`bfree` finds its pool**, if the header has the slot number of one. -/
theorem bfree_of_root (hroot : h.root = [t])
    (hslot : h.words (p - headerSize) = slotNumber i) :
    bfree p h = { h with
      root := [t.release i]
      words := setFlag h.words (p - headerSize) freeMem
      pageLog := (t.sizes i).release.2.toList ++ h.pageLog } := by
  have hval : (slotNumber i).toNat = i.val := by
    have hlt : i.val < 65536 := i.isLt
    rw [slotNumber, UInt32.toNat_ofNat']
    exact Nat.mod_eq_of_lt (by omega)
  have hdiv : slotNumber i / 65536 = 0 := by
    rw [← UInt32.toNat_inj, UInt32.toNat_div, hval]
    exact Nat.div_eq_of_lt i.isLt
  have hmod : Fin.ofNat nrSizes (slotNumber i % 65536).toNat = i := by
    rw [Fin.ext_iff, UInt32.toNat_mod, hval]
    show i.val % 65536 % 65536 = i.val
    rw [Nat.mod_mod, Nat.mod_eq_of_lt i.isLt]
  rw [bfree]
  simp only [hslot, hdiv, hmod, hroot, bfreeLoop]
  simp

end OneTable

/-! ### The invariant -/

/-- The heap was not used, or has one table whose pools are as they should be. -/
def OneTable (s : Run) : Prop :=
  (s.heap.root = [] ∧ s.heap.ptr = none ∧ s.heap.pageLog = [] ∧ s.live = []) ∨
    ∃ t, s.heap.root = [t] ∧ Linked s.heap t ∧
      (s.pools t).Inv slotNumber [(t.addr, nrBlocks tableSize)]

variable {s : Run} {t : Table} {size tableAt poolAt p : UInt32}

/-- The first call puts a table in front and opens its first pool. -/
theorem oneTable_first (hroot : s.heap.root = []) (hptr : s.heap.ptr = none)
    (hlive : s.live = []) (hsize : size.toNat + 11 < 2 ^ 32)
    (hfresh : FreshLog (balloc tableAt poolAt size s.heap).2.pageLog) :
    OneTable ⟨(balloc tableAt poolAt size s.heap).2,
      ((balloc tableAt poolAt size s.heap).1, size) :: s.live⟩ := by
  have hcall : balloc tableAt poolAt size s.heap = s.heap.pushTable tableAt poolAt size 0
      (setFlag (s.heap.poolWords size poolAt) poolAt usedMem) := by
    simp [balloc, hptr, hroot]
  rw [hcall] at hfresh ⊢
  refine .inr ⟨⟨tableAt, 1, Function.update (fun _ => zeroMem) 0 (newMem size poolAt)⟩, ?_, ?_, ?_⟩
  · simp [Heap.pushTable, hroot]
  · rintro a i hai
    cases hai
    exact ⟨rfl, rfl⟩
  · have hidle : Pools.Inv slotNumber [(tableAt, nrBlocks tableSize)]
        ⟨fun _ => zeroMem, s.heap.words, .alloc tableAt (nrBlocks tableSize) :: s.heap.pageLog, []⟩ :=
      Pools.inv_idle (fun _ => ⟨rfl, rfl⟩) (by simp [held])
    rw [hlive]
    exact hidle.opened (i := 0) hsize rfl hfresh (.inl ⟨rfl, rfl⟩)

/-- **`balloc` keeps the invariant**, given fresh pages and no second table. -/
theorem OneTable.balloc (hinv : OneTable s) (hsize : size.toNat ≤ 2 ^ 31)
    (hfresh : FreshLog (Malloc.balloc tableAt poolAt size s.heap).2.pageLog)
    (hone : (Malloc.balloc tableAt poolAt size s.heap).2.root.length ≤ 1) :
    OneTable ⟨(Malloc.balloc tableAt poolAt size s.heap).2,
      ((Malloc.balloc tableAt poolAt size s.heap).1, size) :: s.live⟩ := by
  rcases hinv with ⟨hroot, hptr, -, hlive⟩ | ⟨t, hroot, hlink, hpools⟩
  · exact oneTable_first hroot hptr hlive (by omega) hfresh
  · rcases balloc_of_root tableAt poolAt size hroot hlink with ⟨i, hr⟩ | ⟨i, hidle, hr⟩ | htwo
    · obtain ⟨hdr, hfit, havail, hfind, hr⟩ := tryPool_of_root hroot hr
      rw [hr]
      refine .inr ⟨_, rfl, ?_, ?_⟩
      · rintro a j haj
        cases haj
        exact ⟨rfl, rfl⟩
      · have havail' := UInt32.lt_iff_toNat_lt.mp havail
        have hact : 0 < (t.sizes i).nrBlocks.toNat := by omega
        obtain ⟨-, hok⟩ := hpools.active (i := i) hact
        have hfits := hok.fits
        have hin := hok.inside
        have hspan : (t.sizes i).memory.toNat +
            (t.sizes i).nrBlocks.toNat * (t.sizes i).rsize.toNat ≤ 2 ^ 32 :=
          (Nat.add_le_add_left hfits _).trans hin
        obtain ⟨k, hk, hat, hfree⟩ := findFree_spec hok.rsize hspan hfind
        have hhdr : hdr.toNat = (t.sizes i).hdr k := hat
        have hblock : IsBlock (t.sizes i) k (hdr + headerSize) := by
          refine ⟨hk, ?_⟩
          rw [UInt32.add_sub_cancel]
          exact hhdr
        have htaken := hpools.taken (i := i) hk hblock (hhdr ▸ hfree) (hok.room hfit) havail'
        rw [UInt32.add_sub_cancel] at htaken
        exact htaken
    · rw [hr] at hfresh ⊢
      refine .inr ⟨{ t with
        nrSlots := t.nrSlots + 1
        sizes := Function.update t.sizes i (newMem size poolAt) }, ?_, ?_, ?_⟩
      · exact modify_of_root hroot _
      · rintro a j haj
        cases haj
        exact ⟨rfl, rfl⟩
      · exact hpools.opened (i := i) (by omega) hidle hfresh (.inr rfl)
    · omega

/-- **`bfree` of a live block**: the pool of the block, and what the call does. -/
theorem OneTable.bfree_eq (hinv : OneTable s) (hp : (p, size) ∈ s.live) :
    ∃ t i k, s.heap.root = [t] ∧ Linked s.heap t ∧
      (s.pools t).Inv slotNumber [(t.addr, nrBlocks tableSize)] ∧ IsBlock (t.sizes i) k p ∧
      Malloc.bfree p s.heap = { s.heap with
        root := [t.release i]
        words := setFlag s.heap.words (p - headerSize) freeMem
        pageLog := (t.sizes i).release.2.toList ++ s.heap.pageLog } := by
  rcases hinv with ⟨-, -, -, hlive⟩ | ⟨t, hroot, hlink, hpools⟩
  · rw [hlive] at hp
    cases hp
  · obtain ⟨i, k, hs⟩ := hpools.block _ hp
    exact ⟨t, i, k, hroot, hlink, hpools, hs.isBlock, bfree_of_root hroot hs.slot⟩

theorem OneTable.bfree (hinv : OneTable s) (hp : (p, size) ∈ s.live) :
    OneTable ⟨Malloc.bfree p s.heap, s.live.erase (p, size)⟩ := by
  obtain ⟨t, i, k, -, hlink, hpools, hblock, hr⟩ := hinv.bfree_eq hp
  rw [hr]
  exact .inr ⟨t.release i, rfl, hlink, hpools.freed hp hblock⟩

/-- The invariant holds in every state that a run reaches. -/
theorem oneTable_reach {guard : Run → Call → Prop} (h : system.Reach guard s) : OneTable s := by
  apply h.invariant
  · rintro s ⟨w, rfl⟩
    exact .inl ⟨rfl, rfl, rfl, rfl⟩
  · intro s c s' hinv _ hstep
    cases hstep with
    | balloc hsize hfresh hone => exact hinv.balloc hsize hfresh hone
    | bfree hp => exact hinv.bfree hp

/-! ### The user heap -/

/-- The block is the only live one of the pool. -/
def LastOf (m : Mem) (live : List (UInt32 × UInt32)) (b : UInt32 × UInt32) : Prop :=
  ∀ b' ∈ live, (∃ k, IsBlock m k b'.1) → b' = b

/-- **What the user heap promises**: the law of its pools, and pages given back by `bfree` of
the last live block of a pool and by no other call. -/
structure HeapLaw (s : Run) : Prop where
  disjoint : s.live.Pairwise fun b b' => Disjoint (region b) (region b')
  headers : ∀ b ∈ s.live, ∀ t ∈ s.heap.root, ∀ i, ∀ k < (t.sizes i).nrBlocks.toNat,
    Disjoint (region b) (Set.Ico ((t.sizes i).hdr k) ((t.sizes i).hdr k + headerSize.toNat))
  holds : ∀ b ∈ s.live, ∃ t ∈ s.heap.root, ∃ i, Pools.Holds (t.sizes i) b ∧
    (t.sizes i).run ∈ held s.heap.pageLog ∧ s.heap.words (b.1 - headerSize) = slotNumber i
  nrAlloc : ∀ t ∈ s.heap.root, ∀ i, (t.sizes i).nrAlloc.toNat = (t.sizes i).used s.heap.words
  last : ∀ b ∈ s.live, ∀ t ∈ s.heap.root, ∀ i, Pools.Holds (t.sizes i) b →
    (LastOf (t.sizes i) s.live b → (bfree b.1 s.heap).pageLog =
      .free (t.sizes i).memory (t.sizes i).nrPages :: s.heap.pageLog) ∧
    (¬ LastOf (t.sizes i) s.live b → (bfree b.1 s.heap).pageLog = s.heap.pageLog)
  keeps : ∀ tableAt poolAt size, (balloc tableAt poolAt size s.heap).2.root.length ≤ 1 →
    ∃ new, (balloc tableAt poolAt size s.heap).2.pageLog = new ++ s.heap.pageLog ∧
      ∀ e ∈ new, ∃ a n, e = .alloc a n

/-- The calls of the page allocator that `balloc` makes. -/
theorem OneTable.keeps (hinv : OneTable s)
    (hone : (Malloc.balloc tableAt poolAt size s.heap).2.root.length ≤ 1) :
    ∃ new, (Malloc.balloc tableAt poolAt size s.heap).2.pageLog = new ++ s.heap.pageLog ∧
      ∀ e ∈ new, ∃ a n, e = .alloc a n := by
  rcases hinv with ⟨hroot, hptr, -, -⟩ | ⟨t, hroot, hlink, -⟩
  · refine ⟨[.alloc poolAt (nrBlocks (blockSize size)), .alloc tableAt (nrBlocks tableSize)], ?_, ?_⟩
    · simp [Malloc.balloc, hptr, hroot, Heap.pushTable]
    · simp
  · rcases balloc_of_root tableAt poolAt size hroot hlink with ⟨i, hr⟩ | ⟨i, -, hr⟩ | htwo
    · obtain ⟨hdr, -, -, -, hr⟩ := tryPool_of_root hroot hr
      exact ⟨[], by simp [hr], by simp⟩
    · exact ⟨[.alloc poolAt (nrBlocks (blockSize size))], by simp [hr, Heap.openPool], by simp⟩
    · omega

/-- When `bfree` gives pages back. -/
theorem OneTable.last (hinv : OneTable s) {b : UInt32 × UInt32} (hb : b ∈ s.live)
    (ht : t ∈ s.heap.root) {i : Fin nrSizes} (hi : Pools.Holds (t.sizes i) b) :
    (LastOf (t.sizes i) s.live b → (Malloc.bfree b.1 s.heap).pageLog =
      .free (t.sizes i).memory (t.sizes i).nrPages :: s.heap.pageLog) ∧
    (¬ LastOf (t.sizes i) s.live b → (Malloc.bfree b.1 s.heap).pageLog = s.heap.pageLog) := by
  obtain ⟨t', i', k, hroot, -, hpools, hblock, hr⟩ := hinv.bfree_eq hb
  rw [hroot, List.mem_singleton] at ht
  subst ht
  obtain ⟨⟨k', hk'⟩, -⟩ := hi
  obtain ⟨rfl, rfl⟩ := hpools.block_unique (i := i) (j := i') hk' hblock
  have hlast : (t.sizes i).nrAlloc - 1 = 0 ↔ LastOf (t.sizes i) s.live b :=
    hpools.last_iff hb hblock
  rw [hr]
  constructor
  · intro h
    rw [HeapRun.release_of_eq (hlast.mpr h)]
    rfl
  · intro h
    rw [HeapRun.release_of_ne fun hx => h (hlast.mp hx)]
    rfl

/-- **The user heap within one table**, in every state that a run reaches. -/
theorem user_heap (s : Run) (h : system.Reach (fun _ _ => True) s) : HeapLaw s := by
  have hinv := oneTable_reach h
  have hlaw : ∀ t ∈ s.heap.root, (s.pools t).Law slotNumber := by
    intro t ht
    rcases hinv with ⟨hroot, -⟩ | ⟨t', hroot, -, hpools⟩
    · rw [hroot] at ht
      cases ht
    · rw [hroot, List.mem_singleton] at ht
      exact ht ▸ hpools.law
  have hlive : s.live = [] ∨ ∃ t ∈ s.heap.root, (s.pools t).Law slotNumber := by
    rcases hinv with ⟨-, -, -, hnil⟩ | ⟨t, hroot, -, hpools⟩
    · exact .inl hnil
    · exact .inr ⟨t, by simp [hroot], hpools.law⟩
  constructor
  case disjoint =>
    rcases hlive with hnil | ⟨t, -, hl⟩
    · rw [hnil]
      exact .nil
    · exact hl.disjoint
  case headers => exact fun b hb t ht i k hk => (hlaw t ht).headers b hb i k hk
  case holds =>
    intro b hb
    rcases hlive with hnil | ⟨t, ht, hl⟩
    · rw [hnil] at hb
      cases hb
    · exact ⟨t, ht, hl.holds b hb⟩
  case nrAlloc => exact fun t ht i => (hlaw t ht).nrAlloc i
  case last => exact fun b hb t ht i hi => hinv.last hb ht hi
  case keeps => exact fun tableAt poolAt size hone => hinv.keeps hone

/-- `n` blocks of one pool. -/
def ballocs : ℕ → Run
  | 0 => ⟨emptyHeap fun _ => 0, []⟩
  | n + 1 =>
    let s := ballocs n
    let r := balloc 0x1000 0x200000 2040 s.heap
    ⟨r.2, (r.1, 2040) :: s.live⟩

/-- Two blocks are taken, the first one is given back. -/
def ballocFree : Run :=
  ⟨bfree 0x200008 (ballocs 2).heap, (ballocs 2).live.erase (0x200008, 2040)⟩

theorem reach_ballocs (n : ℕ) (hfresh : ∀ i ≤ n, FreshLog (ballocs i).heap.pageLog)
    (hone : ∀ i ≤ n, (ballocs i).heap.root.length ≤ 1) :
    system.Reach (fun _ _ => True) (ballocs n) := by
  induction n with
  | zero => exact .init ⟨_, rfl⟩
  | succ n ih =>
      exact .step (ih (fun i hi => hfresh i (by omega)) fun i hi => hone i (by omega)) trivial
        (.balloc (by decide) (hfresh (n + 1) (le_refl _)) (hone (n + 1) (le_refl _)))

/-- The second block is live and its pool keeps its page. -/
theorem user_heap_ballocFree :
    ballocFree.heap.pageLog.head? = some (.alloc 0x200000 1) ∧
      ballocFree.live = [(0x200808, 2040)] ∧ HeapLaw ballocFree := by
  refine ⟨by decide +kernel, by decide +kernel, user_heap ballocFree ?_⟩
  have hlive : (0x200008, 2040) ∈ (ballocs 2).live := by decide +kernel
  exact .step (c := .bfree 0x200008)
    (reach_ballocs 2 (by decide +kernel) (by decide +kernel)) trivial (.bfree hlive)

end Malloc
end OxKernel.Mm
