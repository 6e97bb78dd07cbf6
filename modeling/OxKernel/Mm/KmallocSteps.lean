import OxKernel.Mm.Kmalloc
import OxKernel.Mm.PageScan
import Mathlib

/-!
# What a call of the heap does

The calls of `kmalloc.c` case by case: `kmalloc` takes a block of a pool, opens a free pool
or puts a table in front of the list, and `kfree` releases a block in every table where its
comparison holds. The loops over headers are described on addresses as natural numbers, for
pools whose memory does not wrap.

## Main definitions

* `Heap.Allocates` — the three ways of `kmalloc`.
* `Decodes` — `kfree` looks for the block in one table and finds its own pool there.
-/
namespace OxKernel.Mm

/-! ### Tables -/

namespace Heap

variable {h : Heap} {a b : UInt32} {i i' : Fin nrSizes} {t : Table} {f : Table → Table}

theorem table_addr (ht : h.table a = some t) : t.addr = a := by
  simpa using List.find?_some ht

theorem table_mem (ht : h.table a = some t) : t ∈ h.root := List.mem_of_find?_eq_some ht

/-- Distinct addresses: the table at an address of a table in the list is that table. -/
theorem table_of_mem (hnodup : (h.root.map Table.addr).Nodup) (ht : t ∈ h.root) :
    h.table t.addr = some t := by
  rw [table]
  generalize h.root = root at hnodup ht
  induction root with
  | nil => cases ht
  | cons u root ih =>
      rw [List.map_cons, List.nodup_cons] at hnodup
      rcases List.mem_cons.mp ht with rfl | ht
      · simp
      · have hne : u.addr ≠ t.addr := fun he => hnodup.1 (he ▸ List.mem_map_of_mem ht)
        rw [List.find?_cons_of_neg (by simpa using hne)]
        exact ih hnodup.2 ht

theorem table_modify (hf : ∀ t, (f t).addr = t.addr) :
    (h.modify a f).table b = if b = a then (h.table b).map f else h.table b := by
  rw [table, table, modify]
  dsimp only
  induction h.root with
  | nil => simp
  | cons u root ih =>
      rw [List.map_cons]
      have haddr : (if u.addr = a then f u else u).addr = u.addr := by
        split
        · exact hf u
        · rfl
      by_cases hu : u.addr = b
      · rw [List.find?_cons_of_pos (by simpa [haddr] using hu),
          List.find?_cons_of_pos (by simpa using hu)]
        by_cases hb : b = a
        · rw [if_pos hb, if_pos (hu.trans hb)]
          rfl
        · rw [if_neg hb, if_neg (fun he => hb (hu.symm.trans he))]
      · rw [List.find?_cons_of_neg (by simpa [haddr] using hu),
          List.find?_cons_of_neg (by simpa using hu), ih]

theorem map_addr_modify (hf : ∀ t, (f t).addr = t.addr) :
    (h.modify a f).root.map Table.addr = h.root.map Table.addr := by
  rw [modify]
  dsimp only
  rw [List.map_map]
  apply List.map_congr_left
  intro t _
  rw [Function.comp_apply]
  split
  · exact hf t
  · rfl

/-- A change of one pool of one table. -/
theorem pool_modify {m : Mem} (hf : ∀ t, (f t).addr = t.addr)
    (hsizes : ∀ t, (f t).sizes = Function.update t.sizes i m) (hi : ∃ m', h.pool a i = some m') :
    (h.modify a f).pool b i' = if b = a ∧ i' = i then some m else h.pool b i' := by
  rw [pool, pool, table_modify hf]
  by_cases hb : b = a
  · rw [if_pos hb, Option.map_map, hb]
    obtain ⟨m', hm'⟩ := hi
    rw [pool] at hm'
    cases ht : h.table a with
    | none => rw [ht] at hm'; cases hm'
    | some t =>
        by_cases hii : i' = i
        · simp [hsizes, hii]
        · simp [hsizes, hii]
  · rw [if_neg hb, if_neg fun he => hb he.1]

end Heap

/-! ### The three ways of `kmalloc` -/

/-- What `kmalloc` does to a heap. -/
inductive Heap.Allocates (h : Heap) (tableAt poolAt size : UInt32) : UInt32 → Heap → Prop
  /-- A block of a pool that accommodates the request. -/
  | taken {a : UInt32} {i : Fin nrSizes} {slot : UInt32} {r : UInt32 × Heap}
      (ht : h.tryPool size a i slot = some r) : Allocates h tableAt poolAt size r.1 r.2
  /-- The first block of a pool that was free. -/
  | opened {a : UInt32} {i : Fin nrSizes} {slot : UInt32} (hfree : h.isFree a i = true) :
      Allocates h tableAt poolAt size (h.openPool poolAt size a i slot).1
        (h.openPool poolAt size a i slot).2
  /-- The first block of a new table. -/
  | pushed {slot : UInt32} {w : Words}
      (hw : w = setFlag (h.poolWords size poolAt) poolAt usedMem ∨
        w = setHeader (h.poolWords size poolAt) poolAt slot usedMem) :
      Allocates h tableAt poolAt size (h.pushTable tableAt poolAt size slot w).1
        (h.pushTable tableAt poolAt size slot w).2

theorem kmalloc_allocates (tableAt poolAt size : UInt32) (h : Heap) :
    h.Allocates tableAt poolAt size (kmalloc tableAt poolAt size h).1
      (kmalloc tableAt poolAt size h).2 := by
  rw [kmalloc]
  split
  · rename_i r hfast
    rw [Option.bind_eq_some_iff] at hfast
    obtain ⟨⟨a, i⟩, -, ht⟩ := hfast
    exact .taken ht
  · split
    · exact .pushed (.inl rfl)
    · split
      · rename_i r hscan
        obtain ⟨⟨slot, a, i⟩, -, ht⟩ := List.exists_of_findSome?_eq_some hscan
        exact .taken ht
      · split
        · rename_i slot a i hfind
          have hfree := List.find?_some hfind
          exact .opened hfree
        · exact .pushed (.inr rfl)

/-! ### Headers -/

/-- `is_free` of the header at an address. -/
def flagAt (w : Words) (x : ℕ) : UInt32 := w (.ofNat (x + 4))

variable {w w' : Words} {rsize mptr hdr slot flag : UInt32} {x y n : ℕ}

/-- Two memories agree outside `[lo, hi)`. -/
def AgreeOutside (lo hi : ℕ) (w w' : Words) : Prop :=
  ∀ x < 2 ^ 32, ¬ (lo ≤ x ∧ x < hi) → w' (.ofNat x) = w (.ofNat x)

theorem AgreeOutside.refl (lo hi : ℕ) (w : Words) : AgreeOutside lo hi w w := fun _ _ _ => rfl

theorem AgreeOutside.trans {lo hi : ℕ} {w₁ w₂ w₃ : Words} (h : AgreeOutside lo hi w₁ w₂)
    (h' : AgreeOutside lo hi w₂ w₃) : AgreeOutside lo hi w₁ w₃ :=
  fun x hx hout => (h' x hx hout).trans (h x hx hout)

theorem AgreeOutside.mono {lo hi lo' hi' : ℕ} (h : AgreeOutside lo hi w w') (hlo : lo' ≤ lo)
    (hhi : hi ≤ hi') : AgreeOutside lo' hi' w w' :=
  fun x hx hout => h x hx fun hin => hout ⟨by omega, by omega⟩

/-- A header outside the range keeps its flag. -/
theorem AgreeOutside.flagAt {lo hi : ℕ} (h : AgreeOutside lo hi w w') (hx : x + 8 ≤ 2 ^ 32)
    (hout : x + 8 ≤ lo ∨ hi ≤ x) : flagAt w' x = flagAt w x :=
  h (x + 4) (by omega) (by omega)

theorem update_agree {lo hi : ℕ} {v : UInt32} (hx : lo ≤ hdr.toNat ∧ hdr.toNat < hi) :
    AgreeOutside lo hi w (Function.update w hdr v) := by
  intro x hx' hout
  rw [Function.update_of_ne]
  rw [Ne, MemMap.ofNat_eq_iff hx']
  rintro rfl
  exact hout hx

theorem setFlag_agree (hend : hdr.toNat + 8 ≤ 2 ^ 32) :
    AgreeOutside hdr.toNat (hdr.toNat + 8) w (setFlag w hdr flag) := by
  have h4 : (hdr + 4).toNat = hdr.toNat + 4 := Lib.toNat_add_of_lt (by simp; omega)
  exact update_agree (by omega)

theorem setHeader_agree (hend : hdr.toNat + 8 ≤ 2 ^ 32) :
    AgreeOutside hdr.toNat (hdr.toNat + 8) w (setHeader w hdr slot flag) := by
  have hslot : AgreeOutside hdr.toNat (hdr.toNat + 8) w (Function.update w hdr slot) :=
    update_agree (by omega)
  exact hslot.trans (setFlag_agree hend)

theorem flagAt_toNat (w : Words) (hdr : UInt32) : flagAt w hdr.toNat = w (hdr + 4) := by
  rw [flagAt, UInt32.ofNat_add, UInt32.ofNat_toNat]
  rfl

theorem flagAt_setFlag (w : Words) (hdr flag : UInt32) :
    flagAt (setFlag w hdr flag) hdr.toNat = flag := by
  rw [flagAt_toNat, setFlag, Function.update_self]

theorem flagAt_setHeader (w : Words) (hdr slot flag : UInt32) :
    flagAt (setHeader w hdr slot flag) hdr.toNat = flag := by
  rw [setHeader, ← setFlag, flagAt_setFlag]

/-- Initializing the blocks of a pool writes inside it and leaves every block free. -/
theorem clearBlocks_spec (hr : 8 ≤ rsize.toNat) (hend : mptr.toNat + n * rsize.toNat ≤ 2 ^ 32) :
    AgreeOutside mptr.toNat (mptr.toNat + n * rsize.toNat) w (clearBlocks rsize n mptr w) ∧
      ∀ k < n, flagAt (clearBlocks rsize n mptr w) (mptr.toNat + k * rsize.toNat) = freeMem := by
  induction n generalizing mptr w with
  | zero => exact ⟨.refl _ _ _, fun k hk => absurd hk (Nat.not_lt_zero k)⟩
  | succ n ih =>
      rw [Nat.succ_mul] at hend
      have hset : AgreeOutside mptr.toNat (mptr.toNat + 8) w (setHeader w mptr 0 freeMem) :=
        setHeader_agree (by omega)
      rw [clearBlocks]
      by_cases hn : n = 0
      · rw [hn, clearBlocks]
        refine ⟨hset.mono (le_refl _) (by omega), fun k hk => ?_⟩
        obtain rfl : k = 0 := by omega
        rw [Nat.zero_mul, Nat.add_zero]
        exact flagAt_setHeader w mptr 0 freeMem
      · have hpos : rsize.toNat ≤ n * rsize.toNat := Nat.le_mul_of_pos_left _ (by omega)
        have hnext : (mptr + rsize).toNat = mptr.toNat + rsize.toNat :=
          Lib.toNat_add_of_lt (by omega)
        obtain ⟨hagree, hflag⟩ := @ih (setHeader w mptr 0 freeMem) (mptr + rsize) (by omega)
        rw [hnext] at hagree hflag
        refine ⟨?_, fun k hk => ?_⟩
        · rw [Nat.succ_mul]
          exact (hset.mono (le_refl _) (by omega)).trans (hagree.mono (by omega) (by omega))
        · cases k with
          | zero =>
              rw [Nat.zero_mul, Nat.add_zero, hagree.flagAt (by omega) (.inl (by omega))]
              exact flagAt_setHeader w mptr 0 freeMem
          | succ k =>
              rw [Nat.succ_mul, Nat.add_comm (k * rsize.toNat), ← Nat.add_assoc]
              exact hflag k (by omega)

/-- A block that is found is a free block of the pool. -/
theorem findFree_spec (hr : 8 ≤ rsize.toNat) (hend : mptr.toNat + n * rsize.toNat ≤ 2 ^ 32)
    (hf : findFree w rsize n mptr = some hdr) :
    ∃ k < n, hdr.toNat = mptr.toNat + k * rsize.toNat ∧ flagAt w hdr.toNat = freeMem := by
  induction n generalizing mptr with
  | zero => cases hf
  | succ n ih =>
      rw [Nat.succ_mul] at hend
      rw [findFree] at hf
      split at hf
      · rename_i hfree
        cases hf
        refine ⟨0, by omega, by omega, ?_⟩
        rw [flagAt_toNat]
        exact hfree
      · by_cases hn : n = 0
        · rw [hn, findFree] at hf
          cases hf
        · have hpos : rsize.toNat ≤ n * rsize.toNat := Nat.le_mul_of_pos_left _ (by omega)
          have hnext : (mptr + rsize).toNat = mptr.toNat + rsize.toNat :=
            Lib.toNat_add_of_lt (by omega)
          obtain ⟨k, hk, heq, hflag⟩ := @ih (mptr + rsize) (by omega) hf
          refine ⟨k + 1, by omega, ?_, hflag⟩
          rw [heq, hnext, Nat.succ_mul]
          omega

/-! ### The search of `kfree` -/

/-- A table with a block less in use in one of its pools. -/
def Table.release (t : Table) (i : Fin nrSizes) : Table :=
  { t with nrSlots := t.nrSlots - 1, sizes := Function.update t.sizes i (t.sizes i).release.1 }

/-- The comparison of `kfree` holds at the table with the address. -/
def kfreeHits (nrTable a : UInt32) : UInt32 → List Table → Bool
  | _, [] => false
  | j, t :: ts => (t.addr = a ∧ nrTable = 16 * j) || kfreeHits nrTable a (j - 1) ts

variable {nrTable j a : UInt32} {i : Fin nrSizes} {ts done : List Table} {log : List PageEvent}

theorem kfreeHits_of_notMem (ha : ∀ t ∈ ts, t.addr ≠ a) : kfreeHits nrTable a j ts = false := by
  induction ts generalizing j with
  | nil => rfl
  | cons t ts ih =>
      rw [kfreeHits, ih fun u hu => ha u (List.mem_cons_of_mem _ hu)]
      simp [ha t List.mem_cons_self]

/-- **The tables after the loop of `kfree`.** -/
theorem kfreeLoop_fst (hnodup : (ts.map Table.addr).Nodup) :
    (kfreeLoop nrTable i j ts done log).1 =
      done.reverse ++ ts.map fun t =>
        if kfreeHits nrTable t.addr j ts = true then t.release i else t := by
  induction ts generalizing j done log with
  | nil => simp [kfreeLoop]
  | cons t ts ih =>
      rw [List.map_cons, List.nodup_cons] at hnodup
      have hrest : ∀ u ∈ ts, t.addr ≠ u.addr := fun u hu he =>
        hnodup.1 (he ▸ List.mem_map_of_mem hu)
      have htail : ts.map (fun u =>
            if kfreeHits nrTable u.addr j (t :: ts) = true then u.release i else u) =
          ts.map fun u =>
            if kfreeHits nrTable u.addr (j - 1) ts = true then u.release i else u := by
        apply List.map_congr_left
        intro u hu
        rw [kfreeHits]
        simp [hrest u hu]
      have hhead : kfreeHits nrTable t.addr (j - 1) ts = false :=
        kfreeHits_of_notMem fun u hu => (hrest u hu).symm
      rw [List.map_cons, htail, kfreeHits, hhead, kfreeLoop]
      by_cases hj : nrTable = 16 * j
      · rw [if_pos hj, if_pos (by simpa using hj), ih hnodup.2]
        simp [Table.release]
      · rw [if_neg hj, if_neg (by simpa using hj), ih hnodup.2]
        simp

/-- Where the comparison holds at no table, the loop gives back no pages. -/
theorem kfreeLoop_snd_none (hnodup : (ts.map Table.addr).Nodup)
    (hits : ∀ u ∈ ts, kfreeHits nrTable u.addr j ts = false) :
    (kfreeLoop nrTable i j ts done log).2 = log := by
  induction ts generalizing j done log with
  | nil => rfl
  | cons t ts ih =>
      rw [List.map_cons, List.nodup_cons] at hnodup
      have hj : ¬ nrTable = 16 * j := by
        have := hits t List.mem_cons_self
        rw [kfreeHits] at this
        simp at this
        exact this.1
      rw [kfreeLoop, if_neg hj]
      apply ih hnodup.2
      intro u hu
      have := hits u (List.mem_cons_of_mem _ hu)
      rw [kfreeHits, Bool.or_eq_false_iff] at this
      exact this.2

/-- Where it holds at one table, the loop gives back what the pool of that table does. -/
theorem kfreeLoop_snd_one {t : Table} (hnodup : (ts.map Table.addr).Nodup) (ht : t ∈ ts)
    (hits : ∀ u ∈ ts, kfreeHits nrTable u.addr j ts = true ↔ u.addr = t.addr) :
    (kfreeLoop nrTable i j ts done log).2 = (t.sizes i).release.2.toList ++ log := by
  induction ts generalizing j done log with
  | nil => cases ht
  | cons u ts ih =>
      rw [List.map_cons, List.nodup_cons] at hnodup
      have hrest : ∀ v ∈ ts, u.addr ≠ v.addr := fun v hv he =>
        hnodup.1 (he ▸ List.mem_map_of_mem hv)
      have htail : ∀ v ∈ ts, kfreeHits nrTable v.addr j (u :: ts) =
          kfreeHits nrTable v.addr (j - 1) ts := by
        intro v hv
        rw [kfreeHits]
        simp [hrest v hv]
      have hhead := hits u List.mem_cons_self
      rw [kfreeHits, kfreeHits_of_notMem fun v hv => (hrest v hv).symm] at hhead
      simp only [Bool.or_false, decide_eq_true_eq, true_and] at hhead
      rcases List.mem_cons.mp ht with rfl | ht
      · rw [kfreeLoop, if_pos (hhead.mpr rfl)]
        apply kfreeLoop_snd_none hnodup.2
        intro v hv
        rw [← htail v hv, ← Bool.not_eq_true, hits v (List.mem_cons_of_mem _ hv)]
        exact (hrest v hv).symm
      · have hne : u.addr ≠ t.addr := hrest t ht
        rw [kfreeLoop, if_neg fun he => hne (hhead.mp he)]
        apply ih hnodup.2 ht
        intro v hv
        rw [← htail v hv]
        exact hits v (List.mem_cons_of_mem _ hv)

namespace Heap

/-- The slot number in the header of a block. -/
def slotOf (h : Heap) (addr : UInt32) : UInt32 := h.words (addr - headerSize)

/-- The place in a table that `kfree` takes a block for. -/
def kfreeSlot (h : Heap) (addr : UInt32) : Fin nrSizes := Fin.ofNat 16 (h.slotOf addr % 16).toNat

/-- The comparison of `kfree` holds for a block at the table with the address. -/
def Hits (h : Heap) (addr a : UInt32) : Prop :=
  kfreeHits (h.slotOf addr / 16) a (h.slotOf addr / 16) h.root = true

instance (h : Heap) (addr a : UInt32) : Decidable (h.Hits addr a) :=
  inferInstanceAs (Decidable (_ = true))

variable {h : Heap} {addr b : UInt32}

theorem kfree_root (hnodup : (h.root.map Table.addr).Nodup) :
    (kfree addr h).root = h.root.map fun t =>
      if kfreeHits (h.slotOf addr / 16) t.addr (h.slotOf addr / 16) h.root = true then
        t.release (h.kfreeSlot addr) else t := by
  rw [kfree]
  exact (kfreeLoop_fst hnodup).trans (List.nil_append _)

theorem kfree_words : (kfree addr h).words = setFlag h.words (addr - headerSize) freeMem := rfl

theorem map_addr_kfree (hnodup : (h.root.map Table.addr).Nodup) :
    (kfree addr h).root.map Table.addr = h.root.map Table.addr := by
  rw [kfree_root hnodup, List.map_map]
  apply List.map_congr_left
  intro t _
  rw [Function.comp_apply]
  split <;> rfl

theorem table_kfree (hnodup : (h.root.map Table.addr).Nodup) :
    (kfree addr h).table b =
      if h.Hits addr b then (h.table b).map (·.release (h.kfreeSlot addr)) else h.table b := by
  have hmem : ∀ t, h.table b = some t → (kfree addr h).table b =
      some (if h.Hits addr b then t.release (h.kfreeSlot addr) else t) := by
    intro t ht
    have hb := table_addr ht
    have hin : (if h.Hits addr b then t.release (h.kfreeSlot addr) else t) ∈ (kfree addr h).root := by
      rw [kfree_root hnodup]
      have := List.mem_map_of_mem (f := fun t =>
        if kfreeHits (h.slotOf addr / 16) t.addr (h.slotOf addr / 16) h.root = true then
          t.release (h.kfreeSlot addr) else t) (table_mem ht)
      rw [hb] at this
      exact this
    have haddr : (if h.Hits addr b then t.release (h.kfreeSlot addr) else t).addr = b := by
      split <;> exact hb
    have := table_of_mem (h := kfree addr h) (by rw [map_addr_kfree hnodup]; exact hnodup) hin
    rwa [haddr] at this
  cases ht : h.table b with
  | some t =>
      rw [hmem t ht]
      split <;> rfl
  | none =>
      have hnone : (kfree addr h).table b = none := by
        rw [table, List.find?_eq_none] at ht ⊢
        intro t htm
        have : t.addr ∈ h.root.map Table.addr := by
          have hmem := List.mem_map_of_mem (f := Table.addr) htm
          rwa [map_addr_kfree hnodup] at hmem
        obtain ⟨u, hu, hua⟩ := List.mem_map.mp this
        have := ht u hu
        rwa [hua] at this
      rw [hnone]
      split <;> rfl

theorem pool_kfree (hnodup : (h.root.map Table.addr).Nodup) (i : Fin nrSizes) :
    (kfree addr h).pool b i =
      if h.Hits addr b ∧ i = h.kfreeSlot addr then (h.pool b i).map fun m => m.release.1
      else h.pool b i := by
  rw [pool, pool, table_kfree hnodup]
  by_cases hh : h.Hits addr b
  · rw [if_pos hh, Option.map_map]
    cases h.table b with
    | none => simp
    | some t =>
        by_cases hi : i = h.kfreeSlot addr
        · simp [hh, hi, Table.release]
        · simp [hi, Table.release]
  · rw [if_neg hh, if_neg fun he => hh he.1]

end Heap
end OxKernel.Mm
