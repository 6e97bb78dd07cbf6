import OxKernel.Fs.AllocatorRecord
import OxKernel.Fs.Blocks

/-!
# The blocks that a map hands out

What a get returns depends on its own map only: on the cursor, the window and the map blocks
on disk. Two scans that agree on these go on in step, whatever the other map and the blocks
outside the maps hold. So the blocks that a sequence of calls will get from the two maps can
be told from the state before the first one.

## Main definitions

* `SameMap` — two states agree on one of the maps.
* `handed` — the next blocks that a map hands out.
* `Drawn` — what is known after some blocks have been taken and others written.
-/
namespace OxKernel.Fs

open Lib (Call)

section Next
variable (g : Shape) (k : MapKind) (dev : DevNo) (row : Fin inodeNrDev)

/-- Two states agree on one of the maps. -/
structure SameMap (s s' : FsState Disk) : Prop where
  ptr : (s'.masterTab row).ptr k = (s.masterTab row).ptr k
  bit : (s'.masterTab row).bit k = (s.masterTab row).bit k
  window : s'.window k row = s.window k row
  disk : ∀ p, g.InMap k p → s'.store dev p = s.store dev p

/-- The next blocks that a map hands out. -/
def handed : ℕ → FsState Disk → List BlockNo
  | 0, _ => []
  | n + 1, fs =>
    match getBlock flatStore k dev 0 fs with
    | (_, b, fs) => b :: handed n fs

/-- Two scans are at the same bit and see the same window. -/
structure InStep (a b : MapScan Disk) : Prop where
  ptr : b.ptr = a.ptr
  bit : b.bit = a.bit
  pass : b.pass = a.pass
  window : b.fs.window k row = a.fs.window k row

/-- Two gets have the same result, and then the maps agree. -/
structure SameGet (r r' : GetResult Disk) : Prop where
  result : r'.1 = r.1
  block : r'.2.1 = r.2.1
  map : SameMap g k dev row r.2.2 r'.2.2

variable {g k dev row} {s s' s'' : FsState Disk}

namespace SameMap

theorem refl (s : FsState Disk) : SameMap g k dev row s s := ⟨rfl, rfl, rfl, fun _ _ => rfl⟩

theorem trans (h : SameMap g k dev row s s') (h' : SameMap g k dev row s' s'') :
    SameMap g k dev row s s'' :=
  ⟨h'.ptr.trans h.ptr, h'.bit.trans h.bit, h'.window.trans h.window,
    fun p hp => (h'.disk p hp).trans (h.disk p hp)⟩

/-- A write outside the maps. -/
theorem write (s : FsState Disk) {q : BlockNo} (hq : ¬ g.InMap k q) (data : Sector) :
    SameMap g k dev row s (s.write dev q data) :=
  ⟨rfl, rfl, rfl, fun _ hp => FsState.write_of_ne fun he => hq (he ▸ hp)⟩

theorem scanned (h : SameMap g k dev row s s') (p b : BlockNo) (w : Sector) :
    SameMap g k dev row (scanned s k row p b w) (scanned s' k row p b w) := by
  refine ⟨?_, ?_, ?_, h.disk⟩
  · rw [scanned_ptr, scanned_ptr]
  · rw [scanned_bit, scanned_bit]
  · rw [scanned_window, scanned_window]

theorem afterTake (h : SameMap g k dev row s s') (hg : g.Sound) {p i : BlockNo} (w : Sector) :
    SameMap g k dev row (afterTake g k dev row s p i w) (afterTake g k dev row s' p i w) := by
  refine ⟨?_, ?_, ?_, fun q hq => ?_⟩
  · rw [afterTake_ptr, afterTake_ptr]
  · rw [afterTake_bit, afterTake_bit]
  · rw [afterTake_window, afterTake_window]
  · have hne := InMap.ne_blockStart hg hq
    rw [afterTake_store hne, afterTake_store hne, h.disk q hq]

/-- A get from the other map. -/
theorem get_other (hs : MapsOk g dev row s) {k' : MapKind} (hk : k ≠ k') (block : BlockNo) :
    SameMap g k dev row s (getBlock flatStore k' dev block s).2.2 := by
  rcases getBlock_flat (k := k') hs block with ⟨p, i, w, hp, -, -, -, -, hr⟩ | ⟨-, -, hr⟩
  · rw [hr]
    refine ⟨afterTake_ptr_other hk, afterTake_bit_other hk,
      congrFun (afterTake_window_other hk) row, fun q hq => ?_⟩
    rw [afterTake_store (InMap.ne_blockStart hs.sound hq),
      if_neg (InMap.ne_of_ne hs.sound hp hq hk)]
  · rw [hr]
    exact ⟨scanned_ptr_other hk, scanned_bit_other hk, congrFun (scanned_window_other hk) row,
      fun q _ => by rw [scanned_store]⟩

end SameMap

/-- **One round in step.** -/
theorem InStep.round (hs : MapsOk g dev row s) (hs' : MapsOk g dev row s')
    (h : SameMap g k dev row s s') {a b : MapScan Disk} (ha : ScanInv g k dev row s a)
    (hb : ScanInv g k dev row s' b) (hab : InStep k row a b) :
    (∀ a', scanBody flatStore k dev row a = .inl a' →
      ∃ b', scanBody flatStore k dev row b = .inl b' ∧ InStep k row a' b') ∧
    (∀ r, scanBody flatStore k dev row a = .inr r →
      ∃ r', scanBody flatStore k dev row b = .inr r' ∧ SameGet g k dev row r r') := by
  have hnext : ∀ (p i : BlockNo) (pass : ℕ) (w : Sector),
      (∀ a', MapScan.next ⟨p, i, pass, scanned s k row p i w⟩ = .inl a' →
        ∃ b', MapScan.next ⟨p, i, pass, scanned s' k row p i w⟩ = .inl b' ∧ InStep k row a' b') ∧
      (∀ r, MapScan.next ⟨p, i, pass, scanned s k row p i w⟩ = .inr r →
        ∃ r', MapScan.next ⟨p, i, pass, scanned s' k row p i w⟩ = .inr r' ∧
          SameGet g k dev row r r') := by
    intro p i pass w
    by_cases hpass : pass < inodeNrPass
    · simp only [MapScan.next, if_pos hpass, Sum.inl.injEq, reduceCtorEq, false_imp_iff,
        implies_true, and_true]
      rintro a' rfl
      exact ⟨_, rfl, rfl, rfl, rfl, by rw [scanned_window, scanned_window]⟩
    · simp only [MapScan.next, if_neg hpass, Sum.inr.injEq, reduceCtorEq, false_imp_iff,
        implies_true, true_and]
      rintro r rfl
      exact ⟨_, rfl, rfl, rfl, h.scanned p i w⟩
  by_cases hbit : bitGet (a.fs.window k row) a.bit.toNat = 1
  · have hbit' : bitGet (b.fs.window k row) b.bit.toNat = 1 := by
      rw [hab.window, hab.bit]
      exact hbit
    have hmap : g.InMap k (g.mapStart k) := ⟨le_rfl, hs.sound.nonempty k⟩
    rw [scanBody_set ha hs hbit, scanBody_set hb hs' hbit', hab.ptr, hab.bit, hab.pass, hab.window]
    split
    · split
      · rename_i hend
        have hsucc := succ_toNat_of_inMap ha.inMap
        have hin : g.InMap k (a.ptr + 1) :=
          ⟨by have := ha.inMap.1; omega, UInt32.lt_iff_toNat_lt.mp hend⟩
        rw [h.disk _ hin]
        exact hnext _ _ _ _
      · rw [h.disk _ hmap]
        exact hnext _ _ _ _
    · exact hnext _ _ _ _
  · have h0 := bitGet_eq_zero.mpr hbit
    have h0' : bitGet (b.fs.window k row) b.bit.toNat = 0 := by
      rw [hab.window, hab.bit]
      exact h0
    have htake : scanBody flatStore k dev row a = .inr (.ok, g.blockAt k a.ptr a.bit,
        afterTake g k dev row s a.ptr a.bit (a.fs.window k row)) := by
      rw [← takeBit_scanned hs a.ptr a.bit (a.fs.window k row) a.pass, ← ha.fs]
      simp only [scanBody, if_pos h0]
    have htake' : scanBody flatStore k dev row b = .inr (.ok, g.blockAt k a.ptr a.bit,
        afterTake g k dev row s' a.ptr a.bit (a.fs.window k row)) := by
      rw [← hab.ptr, ← hab.bit, ← hab.window,
        ← takeBit_scanned hs' b.ptr b.bit (b.fs.window k row) b.pass, ← hb.fs]
      simp only [scanBody, if_pos h0']
    rw [htake, htake']
    refine ⟨fun a' ha' => ?_, fun r hr => ?_⟩
    · cases ha'
    · cases hr
      exact ⟨_, rfl, rfl, rfl, h.afterTake hs.sound _⟩

/-- **A get looks at its own map only.** -/
theorem SameMap.get (h : SameMap g k dev row s s') (hs : MapsOk g dev row s)
    (hs' : MapsOk g dev row s') (block block' : BlockNo) :
    SameGet g k dev row (getBlock flatStore k dev block s) (getBlock flatStore k dev block' s') := by
  -- Both scans take the rounds of the first one.
  have hrun : ∀ a, ScanInv g k dev row s a → ∀ b, InStep k row a b → ScanInv g k dev row s' b →
      SameGet g k dev row ((scanLoop flatStore k dev row).run a)
        ((scanLoop flatStore k dev row).run b) := by
    intro a
    induction a using (scanLoop flatStore k dev row).induction with
    | _ a ih =>
        intro ha b hab hb
        obtain ⟨hgo, hleave⟩ := InStep.round hs hs' h ha hb hab
        cases hbody : (scanLoop flatStore k dev row).body a with
        | inl a' =>
            obtain ⟨b', hbody', hab'⟩ := hgo a' hbody
            change (scanLoop flatStore k dev row).body b = .inl b' at hbody'
            rw [Lib.Loop.run_of_inl hbody, Lib.Loop.run_of_inl hbody']
            exact ih a' hbody (ha.step hs hbody) b' hab' (hb.step hs' hbody')
        | inr r =>
            obtain ⟨r', hbody', hrr⟩ := hleave r hbody
            change (scanLoop flatStore k dev row).body b = .inr r' at hbody'
            rw [Lib.Loop.run_of_inr hbody, Lib.Loop.run_of_inr hbody']
            exact hrr
  rw [getBlock_mounted hs, getBlock_mounted hs']
  exact hrun _ (.start hs) _ ⟨h.ptr, h.bit, rfl, h.window⟩ (.start hs')

/-- The blocks that a map hands out depend on this map only. -/
theorem SameMap.handed (h : SameMap g k dev row s s') (hs : MapsOk g dev row s)
    (hs' : MapsOk g dev row s') (hset : Settled dev row s) (hset' : Settled dev row s') (n : ℕ) :
    Fs.handed k dev n s' = Fs.handed k dev n s := by
  induction n generalizing s s' with
  | zero => rfl
  | succ n ih =>
      have hget := h.get hs hs' 0 0
      have hok : ∀ {s : FsState Disk}, MapsOk g dev row s → Settled dev row s →
          MapsOk g dev row (getBlock flatStore k dev 0 s).2.2 ∧
            Settled dev row (getBlock flatStore k dev 0 s).2.2 := by
        intro s hs hset
        rcases getBlock_recorded (k := k) hs hset 0 with
          ⟨b, fs, -, -, hr, hok, hsettled, -⟩ | ⟨fs, -, hr, hok, hsettled, -⟩
        · rw [hr]
          exact ⟨hok, hsettled⟩
        · rw [hr]
          exact ⟨hok, hsettled⟩
      have hrest := ih hget.map (hok hs hset).1 (hok hs' hset').1 (hok hs hset).2 (hok hs' hset').2
      show (getBlock flatStore k dev 0 s').2.1 :: Fs.handed k dev n (getBlock flatStore k dev 0 s').2.2 =
        (getBlock flatStore k dev 0 s).2.1 :: Fs.handed k dev n (getBlock flatStore k dev 0 s).2.2
      rw [hget.block, hrest]

end Next

/-! ## Blocks drawn in the course of a call -/

/-- Devices that agree outside the maps and the master. -/
def Outside (g : Shape) (d d' : Dev) : Prop :=
  ∀ q, q ≠ g.blockStart → (∀ k, ¬ g.InMap k q) → d' q = d q

/-- After the blocks `t` have been taken from the maps, and blocks outside the maps written. -/
structure Drawn (g : Shape) (dev : DevNo) (row : Fin inodeNrDev) (H : BlockSets)
    (t : MapKind → List BlockNo) (fs fs' : FsState Disk) : Prop where
  inUse : InUse g dev row (fun k => H k ∪ (t k).toFinset) fs'
  free : ∀ k, ∀ b ∈ t k, g.Covers k b ∧ recorded g dev row fs k b = 0
  nodup : ∀ k, (t k).Nodup
  record : ∀ k b, g.Covers k b →
    recorded g dev row fs' k b = if b ∈ t k then 1 else recorded g dev row fs k b
  next : ∀ k n, handed k dev ((t k).length + n) fs = t k ++ handed k dev n fs'

section Drawn
variable {g : Shape} {dev : DevNo} {row : Fin inodeNrDev} {H : BlockSets} {k : MapKind}
  {b : BlockNo} {t : MapKind → List BlockNo} {fs fs' fs'' : FsState Disk} {d d' d'' : Dev}

theorem Outside.trans (h : Outside g d d') (h' : Outside g d' d'') : Outside g d d'' :=
  fun q hm hq => (h' q hm hq).trans (h q hm hq)

/-- The same write on both. -/
theorem Outside.update (h : Outside g d d') (b : BlockNo) (data : Sector) :
    Outside g (Function.update d b data) (Function.update d' b data) := by
  intro q hm hq
  by_cases hqb : q = b
  · rw [hqb, Function.update_self, Function.update_self]
  · rw [Function.update_of_ne hqb, Function.update_of_ne hqb]
    exact h q hm hq

/-- The write of a file system, on the device. -/
theorem Outside.write (h : Outside g d (fs.store dev)) (b : BlockNo) (data : Sector) :
    Outside g (Function.update d b data) ((fs.write dev b data).store dev) := by
  rw [FsState.write_store]
  exact h.update b data

namespace Drawn

theorem start (h : InUse g dev row H fs) : Drawn g dev row H (fun _ => []) fs fs where
  inUse := h.mono fun _ _ hb => by simpa using hb
  free _ _ hb := by cases hb
  nodup _ := List.nodup_nil
  record _ _ _ := by rw [if_neg List.not_mem_nil]
  next k n := by rw [List.length_nil, Nat.zero_add, List.nil_append]

theorem write (h : Drawn g dev row H t fs fs') {q : BlockNo} (hq : ∀ k, ¬ g.InMap k q)
    (data : Sector) : Drawn g dev row H t fs (fs'.write dev q data) := by
  have huse := h.inUse.write hq data
  refine ⟨huse, h.free, h.nodup, fun k b hb => ?_, fun k n => ?_⟩
  · rw [← h.record k b hb]
    exact (SameBits.write h.inUse.ok hq data).record b hb
  · rw [h.next k n, (SameMap.write fs' (hq k) data).handed h.inUse.ok huse.ok h.inUse.settled
      huse.settled]

/-- **Another block is taken.** -/
theorem take (h : Drawn g dev row H t fs fs')
    (ht : InUse.Took g dev row (fun k => H k ∪ (t k).toFinset) fs' k b fs'') :
    Drawn g dev row H (Function.update t k (t k ++ [b])) fs fs'' := by
  have hnot : b ∉ t k := by
    intro hmem
    have hrec := h.record k b ht.covers
    rw [if_pos hmem, ht.free] at hrec
    cases hrec
  have hfree : recorded g dev row fs k b = 0 := by
    rw [← ht.free, h.record k b ht.covers, if_neg hnot]
  have hself : Function.update t k (t k ++ [b]) k = t k ++ [b] := Function.update_self ..
  refine ⟨ht.inUse.mono fun k' x hx => ?_, fun k' x hx => ?_, fun k' => ?_, fun k' x hx => ?_,
    fun k' n => ?_⟩
  · by_cases hk : k' = k
    · subst hk
      rw [hself, Finset.mem_union, List.mem_toFinset, List.mem_append, List.mem_singleton] at hx
      rw [BlockSets.add, Function.update_self, Finset.mem_insert, Finset.mem_union,
        List.mem_toFinset]
      tauto
    · rw [Function.update_of_ne hk] at hx
      rw [BlockSets.add, Function.update_of_ne hk]
      exact hx
  · by_cases hk : k' = k
    · subst hk
      rw [hself, List.mem_append, List.mem_singleton] at hx
      rcases hx with hx | rfl
      · exact h.free _ x hx
      · exact ⟨ht.covers, hfree⟩
    · rw [Function.update_of_ne hk] at hx
      exact h.free k' x hx
  · by_cases hk : k' = k
    · subst hk
      rw [hself]
      exact (h.nodup _).append (List.nodup_singleton b) (List.disjoint_singleton.mpr hnot)
    · rw [Function.update_of_ne hk]
      exact h.nodup k'
  · rw [ht.record k' x hx, h.record k' x hx]
    by_cases hk : k' = k
    · subst hk
      rw [hself]
      by_cases hxb : x = b
      · subst hxb
        rw [if_pos ⟨rfl, rfl⟩, if_pos (List.mem_append_right _ (List.mem_singleton_self x))]
      · rw [if_neg fun hc => hxb hc.2]
        refine if_congr ?_ rfl rfl
        rw [List.mem_append, List.mem_singleton, or_iff_left hxb]
    · rw [Function.update_of_ne hk, if_neg fun hc => hk hc.1]
  · by_cases hk : k' = k
    · subst hk
      have hhead : handed k' dev (1 + n) fs' = b :: handed k' dev n fs'' := by
        rw [Nat.add_comm, handed, ht.get]
      rw [hself, List.length_append, List.length_singleton, Nat.add_assoc, h.next, hhead,
        List.append_assoc]
      rfl
    · have hsame : SameMap g k' dev row fs' fs'' := by
        have hget := SameMap.get_other (k := k') h.inUse.ok hk 0
        rwa [ht.get] at hget
      rw [Function.update_of_ne hk, h.next, hsame.handed h.inUse.ok ht.inUse.ok h.inUse.settled
        ht.inUse.settled]

end Drawn

end Drawn

end OxKernel.Fs
