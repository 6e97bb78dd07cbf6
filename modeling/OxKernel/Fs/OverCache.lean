import OxKernel.Fs.StorePaths
import OxKernel.Fs.CacheVictims
import OxKernel.Fs.CacheBuilds
import OxKernel.Fs.CacheSync

/-!
# The file system over the buffer cache

The path functions ask their storage for blocks and nothing else, so what they do over the
buffer cache they do over a flat disk, as long as the cache can serve what they ask for. The
requests of a run are collected by a flat store that keeps them; a run over the cache is then
the run over the flat disk, reply by reply, and the cache represents the flat disk at its end.

Over the host files of the user-space build the cache serves every request until a use counter
is saturated, and a `block_sync` at the end brings the files up to the flat disk.

## Main definitions

* `BlockRequest`, `watchedStore`, `requests` — the requests of a run.
* `Cache.Counts` — a bound on the use counters.
* `file_system_over_cache`, `file_system_over_files` — the two levels agree.
-/
namespace OxKernel.Fs

open Lib (Call Tracked Machine)

/-! ## Requests -/

/-- What the path functions ask the storage for. -/
inductive BlockRequest
  | read (dev : DevNo) (block : BlockNo) (data : Sector)
  | write (dev : DevNo) (block : BlockNo) (data : Sector)

namespace BlockRequest

/-- A request as a call of the cache. -/
def op : BlockRequest → Op
  | read dev block data => .read dev block data
  | write dev block data => .write dev block data

def dev : BlockRequest → DevNo
  | read dev _ _ => dev
  | write dev _ _ => dev

def block : BlockRequest → BlockNo
  | read _ block _ => block
  | write _ block _ => block

end BlockRequest

/-- The cache serves a call: its arguments are proper, there is a slot for it, and a dirty
victim can be written back. -/
def Op.Handled {σ : Type} (op : Op) (D : DevLayer σ) (view : σ → Disk) (valid : BlockNo → Prop)
    (c : Cache σ) : Prop :=
  op.Served D view valid c ∧ FindsVictim c op

/-- A flat store that keeps the requests. -/
def watchedStore : BlockLayer (Disk × List BlockRequest) where
  devOpen _ _ s := (.ok, 0, s)
  devClose _ s := (.ok, s)
  devScan _ _ s := (.ok, s)
  devRead dev block _ s := (.ok, s.1 dev block, s)
  devWrite dev block data s := (.ok, (s.1.set dev block data, s.2))
  blockOpen _ _ s := (.ok, 0, s)
  blockRead dev block data s := (.ok, s.1 dev block, (s.1, s.2 ++ [.read dev block data]))
  blockWrite dev block data s :=
    (.ok, (s.1.set dev block data, s.2 ++ [.write dev block data]))
  blockSync _ s := (.ok, s)
  blockReinit s := s

/-- Keeping the requests changes nothing else. -/
theorem flat_tracks_watched :
    flatStore.Tracks (fun _ => True) (fun d s => s.1 = d) watchedStore where
  read dev block data d := by
    intro h
    refine ⟨h, ?_⟩
    rintro ⟨_, log⟩ rfl
    exact ⟨_, rfl, rfl⟩
  write dev block data d := by
    intro h
    refine ⟨h, ?_⟩
    rintro ⟨_, log⟩ rfl
    exact ⟨_, rfl, rfl⟩

/-- The requests of a run. -/
def requests (cs : List PathCall) (s : Names Disk) : List BlockRequest :=
  match pathRun watchedStore cs (s.over (s.fs.store, [])) with
  | some (_, s') => s'.fs.store.2
  | none => []

section Runs
variable {cs : List PathCall} {s s' : Names Disk} {r : Except InodeRtvl (List PathReply)}

/-- A run over the flat store that keeps its requests. -/
theorem pathRun_watched (hrun : pathRun flatStore cs s = some (r, s')) :
    pathRun watchedStore cs (s.over (s.fs.store, [])) =
      some (r, s'.over (s'.fs.store, requests cs s)) := by
  obtain ⟨-, hsim⟩ := tracks_pathRun flat_tracks_watched cs s r s' hrun trivial
  obtain ⟨t, ht, ⟨d, log⟩, rfl, hd⟩ := hsim (s.over (s.fs.store, [])) ⟨_, rfl, rfl⟩
  have hd : d = s'.fs.store := hd
  rw [requests, ht, hd]
  rfl

end Runs

/-! ## Over a cache -/

section Cache
variable {σ : Type} {D : DevLayer σ} {view : σ → Disk} {valid : BlockNo → Prop}

/-- The cache serves all requests so far. -/
def AllHandled (D : DevLayer σ) (view : σ → Disk) (valid : BlockNo → Prop) (c : Cache σ)
    (s : Disk × List BlockRequest) : Prop :=
  (cacheMachine D).Admits (fun c op => op.Handled D view valid c) (s.2.map BlockRequest.op) c

/-- The cache after all requests so far, which represents the flat disk. -/
def CachedAs (D : DevLayer σ) (view : σ → Disk) (valid : BlockNo → Prop) (c : Cache σ)
    (s : Disk × List BlockRequest) (c' : Cache σ) : Prop :=
  c' = (cacheMachine D).exec (s.2.map BlockRequest.op) c ∧ Rep view valid c' s.1

section Snoc
variable {c c' : Cache σ} {s : Disk × List BlockRequest} {F : Disk} {r : BlockRequest}

theorem AllHandled.snoc (h : AllHandled D view valid c (F, s.2 ++ [r])) :
    AllHandled D view valid c s ∧
      r.op.Handled D view valid ((cacheMachine D).exec (s.2.map BlockRequest.op) c) := by
  have hall : (cacheMachine D).Admits (fun c op => op.Handled D view valid c)
      ((s.2 ++ [r]).map BlockRequest.op) c := h
  rw [List.map_append] at hall
  exact ⟨hall.split.1, hall.split.2.1⟩

theorem CachedAs.snoc (h : (r.op.step D ((cacheMachine D).exec (s.2.map BlockRequest.op) c)).2 = c')
    (hrep : Rep view valid c' F) : CachedAs D view valid c (F, s.2 ++ [r]) c' := by
  refine ⟨?_, hrep⟩
  rw [List.map_append, Machine.exec_append]
  exact h.symm

end Snoc

/-- A write that finds a slot succeeds. -/
theorem blockWrite_served {c : Cache σ} {F : Disk} {dev : DevNo} {block : BlockNo}
    (hD : FlatDev D view valid) (H : Rep view valid c F) (hE : Evicts D view valid c dev block)
    (hb : block ≠ blockFreeMark) (hdev : 0 ≤ dev) (hv : valid block)
    (hp : c.place dev block ≠ .full) (data : Sector) :
    ∃ c', blockWrite D dev block data c = (.ok, c') ∧ Rep view valid c' (F.set dev block data) := by
  rcases blockWrite_flat hD H hE hb hdev hv data with h | ⟨c', hfail, -⟩
  · exact h
  · rw [blockWrite] at hfail
    cases hplace : c.place dev block with
    | dirty i =>
        obtain ⟨hw, hflush, -⟩ := evict_flat hD H hE hplace
        simp only [hplace, hflush, Prod.mk.injEq, reduceCtorEq, false_and] at hfail
    | full => exact absurd hplace hp
    | _ => simp only [hplace, Prod.mk.injEq, reduceCtorEq, false_and] at hfail

/-- **The cache answers like the flat disk** as long as it serves the requests. -/
theorem watched_tracks_cache (hD : FlatDev D view valid) (c : Cache σ) :
    watchedStore.Tracks (AllHandled D view valid c) (CachedAs D view valid c) (cacheStore D) where
  read dev block data s := by
    intro h
    obtain ⟨hs, hserved, hplace⟩ := AllHandled.snoc (r := .read dev block data) h
    refine ⟨hs, ?_⟩
    rintro c₁ ⟨rfl, hrep⟩
    rcases blockRead_flat hD hrep hserved.2.2.1 hserved.1.2 hserved.1.1 hserved.2.1 data with
      ⟨c', hread, hrep'⟩ | ⟨hfull, -⟩
    · refine ⟨c', hread, CachedAs.snoc (r := .read dev block data) ?_ hrep'⟩
      show (blockRead D dev block data _).2.2 = c'
      rw [hread]
    · exact absurd (place_full_iff.mp hfull) hplace
  write dev block data s := by
    intro h
    obtain ⟨hs, hserved, hplace⟩ := AllHandled.snoc (r := .write dev block data) h
    refine ⟨hs, ?_⟩
    rintro c₁ ⟨rfl, hrep⟩
    obtain ⟨c', hwrite, hrep'⟩ := blockWrite_served hD hrep hserved.2.2.1 hserved.1.2 hserved.1.1
      hserved.2.1 (fun hfull => hplace (place_full_iff.mp hfull)) data
    refine ⟨c', hwrite, CachedAs.snoc (r := .write dev block data) ?_ hrep'⟩
    show (blockWrite D dev block data _).2 = c'
    rw [hwrite]

variable {cs : List PathCall} {s s' : Names Disk} {r : Except InodeRtvl (List PathReply)}

/-- **The file system over the cache.** If the cache serves the requests of a run over a flat
disk, the run over the cache has the same replies and the same tables, and leaves a cache that
represents the flat disk. -/
theorem file_system_over_cache (hD : FlatDev D view valid) {c : Cache σ}
    (hrep : Rep view valid c s.fs.store) (hrun : pathRun flatStore cs s = some (r, s'))
    (hserved : (cacheMachine D).Admits (fun c op => op.Handled D view valid c)
      ((requests cs s).map BlockRequest.op) c) :
    ∃ c', pathRun (cacheStore D) cs (s.over c) = some (r, s'.over c') ∧
      c' = (cacheMachine D).exec ((requests cs s).map BlockRequest.op) c ∧
      Rep view valid c' s'.fs.store := by
  have hwatched := pathRun_watched hrun
  obtain ⟨-, hsim⟩ := tracks_pathRun (watched_tracks_cache hD c) cs _ _ _ hwatched hserved
  obtain ⟨t, ht, c', rfl, hc', hrep'⟩ := hsim (s.over c) ⟨c, rfl, rfl, hrep⟩
  exact ⟨c', ht, hc', hrep'⟩

end Cache

/-! ## Use counters -/

section Counts
variable {σ : Type} {D : DevLayer σ} {c : Cache σ} {n : ℕ} {dev : DevNo} {block : BlockNo}
  {data : Sector} {i : Fin blockArraySize}

/-- No use counter is above `n`. -/
structure Cache.Counts (n : ℕ) (c : Cache σ) : Prop where
  highest : c.highest.toNat ≤ n
  lru : ∀ i, (c.slots i).lru.toNat ≤ n

theorem toNat_succ_le {x : BlockNo} (h : x.toNat ≤ n) : (x + 1).toNat ≤ n + 1 := by
  rw [UInt32.toNat_add]
  exact (Nat.mod_le _ _).trans (Nat.add_le_add_right h 1)

theorem Cache.Counts.mono {m : ℕ} (h : c.Counts n) (hnm : n ≤ m) : c.Counts m :=
  ⟨h.highest.trans hnm, fun i => (h.lru i).trans hnm⟩

theorem scanSlots_highest_le {slots : Slots} (hlru : ∀ i, (slots i).lru.toNat ≤ n)
    (is : List (Fin blockArraySize)) (a : Scan) (h : a.highest.toNat ≤ n) :
    (scanSlots slots is a).highest.toNat ≤ n := by
  induction is generalizing a with
  | nil => exact h
  | cons i is ih =>
      rw [scanSlots]
      split
      · exact h
      · refine ih _ ?_
        simp only [Scan.visit]
        split
        · exact hlru i
        · exact h

/-- The state in which a miss is served. -/
theorem Cache.Counts.missed (h : c.Counts n) :
    Cache.Counts n { c.wrapCurr with highest := c.scan.highest } :=
  ⟨scanSlots_highest_le h.lru _ _ h.highest, h.lru⟩

theorem Cache.Counts.setSlot (h : c.Counts n) {s : Slot} (hs : s.lru.toNat ≤ n) :
    (c.setSlot i s).Counts n := by
  refine ⟨h.highest, fun j => ?_⟩
  by_cases hj : j = i
  · subst hj
    simpa [Cache.setSlot] using hs
  · simpa [Cache.setSlot, Function.update_of_ne hj] using h.lru j

theorem Slot.bumpLru_le {s : Slot} (h : s.lru.toNat ≤ n) : s.bumpLru.lru.toNat ≤ n + 1 := by
  rw [Slot.bumpLru]
  simp only
  split
  · exact toNat_succ_le h
  · exact h.trans (Nat.le_succ n)

theorem Cache.Counts.install (h : c.Counts n) (dirty : Bool) :
    (Fs.install dev block dirty i c).Counts (n + 1) := by
  have hnext : (if (c.slots i).lru < blockMaxLru then c.highest + 1 else c.highest).toNat ≤ n + 1 := by
    split
    · exact toNat_succ_le h.highest
    · exact h.highest.trans (Nat.le_succ n)
  refine ⟨hnext, ((h.mono (Nat.le_succ n)).setSlot (i := i) ?_).lru⟩
  simp only
  split
  · rename_i hlt
    rw [if_pos hlt] at hnext
    exact hnext
  · exact (h.lru i).trans (Nat.le_succ n)

theorem Cache.Counts.readInto (h : c.Counts n) :
    (Fs.readInto D dev block data i c).2.2.Counts (n + 1) := by
  obtain ⟨r, x, hw, hfill⟩ := fill_eq D dev block i c
  have hfilled : Cache.Counts n { c.setSlot i { c.slots i with array := x } with hw := hw } :=
    ⟨h.highest, (h.setSlot (s := { c.slots i with array := x }) (h.lru i)).lru⟩
  rw [Fs.readInto, hfill]
  cases r with
  | ok => exact hfilled.install false
  | _ => exact hfilled.mono (Nat.le_succ n)

theorem Cache.Counts.writeInto (h : c.Counts n) :
    (Fs.writeInto dev block data i c).Counts (n + 1) :=
  (h.setSlot (s := { c.slots i with array := data }) (h.lru i)).install true

theorem Cache.Counts.flushed {sector : BlockNo} (h : c.Counts n) :
    (flush D dev sector block data c).2.Counts n := by
  obtain ⟨r, hw, hflush⟩ := flush_eq D dev sector block data c
  rw [hflush]
  exact ⟨h.highest, h.lru⟩

theorem Cache.Counts.hit (h : c.Counts n) {s : Slot} (hs : s.lru.toNat ≤ n + 1) :
    Cache.Counts (n + 1) { c.setSlot i s with curr := i } :=
  ⟨h.highest.trans (Nat.le_succ n), ((h.mono (Nat.le_succ n)).setSlot (i := i) hs).lru⟩

theorem Cache.Counts.blockRead (h : c.Counts n) :
    (Fs.blockRead D dev block data c).2.2.Counts (n + 1) := by
  have hmiss := h.missed
  rw [Fs.blockRead]
  split
  · exact h.mono (Nat.le_succ n)
  · split
    · exact h.hit (Slot.bumpLru_le (h.lru _))
    · exact hmiss.readInto
    · exact hmiss.readInto
    · rename_i i _
      have hflush : (flush D (c.slots i).dev (c.slots i).map block (c.slots i).array
        { c.wrapCurr with highest := c.scan.highest }).2.Counts n := hmiss.flushed
      split
      · rename_i heq
        rw [heq] at hflush
        exact hflush.readInto
      · rename_i heq
        rw [heq] at hflush
        exact hflush.mono (Nat.le_succ n)
    · exact hmiss.mono (Nat.le_succ n)

theorem Cache.Counts.blockWrite (h : c.Counts n) :
    (Fs.blockWrite D dev block data c).2.Counts (n + 1) := by
  have hmiss := h.missed
  rw [Fs.blockWrite]
  split
  · exact h.hit (s := { (c.slots _).bumpLru with dirty := true, array := data })
      (Slot.bumpLru_le (h.lru _))
  · exact hmiss.writeInto
  · exact hmiss.writeInto
  · rename_i i _
    have hflush : (flush D (c.slots i).dev (c.slots i).map block (c.slots i).array
      { c.wrapCurr with highest := c.scan.highest }).2.Counts n := hmiss.flushed
    split
    · rename_i heq
      rw [heq] at hflush
      exact hflush.writeInto
    · rename_i heq
      rw [heq] at hflush
      exact hflush.mono (Nat.le_succ n)
  · exact hmiss.mono (Nat.le_succ n)

/-- One more request counts one more use. -/
theorem Cache.Counts.step (h : c.Counts n) (r : BlockRequest) :
    ((cacheMachine D).step r.op c).2.Counts (n + 1) := by
  cases r with
  | read dev block data => exact h.blockRead
  | write dev block data => exact h.blockWrite

/-- A table whose counters have not reached `BLOCK_MAX_LRU` has a slot for every request. -/
theorem Cache.Counts.findsVictim (h : c.Counts n) (hn : n < blockMaxLru.toNat) (op : Op) :
    FindsVictim c op := by
  have hsat : ¬ c.Saturated := fun hsat => by
    have hle := h.lru 0
    rw [(hsat 0).2] at hle
    omega
  cases op with
  | read dev block data => exact fun hfull => hsat hfull.2
  | write dev block data => exact fun hfull => hsat hfull.2
  | _ => trivial

end Counts

/-! ## Syncing -/

section Sync
variable {σ : Type} {D : DevLayer σ} {view : σ → Disk} {valid : BlockNo → Prop} {c : Cache σ}
  {F : Disk} {dev : DevNo} {block : BlockNo} {data : Sector} {i j : Fin blockArraySize}

/-- A write-through changes one buffer. -/
theorem blockDiskWrite_labels :
    SameLabels c.slots (blockDiskWrite D dev block data c).2.slots := by
  rw [blockDiskWrite]
  simp only [writeThrough]
  cases hs : search c.wrapCurr.slots c.wrapCurr.curr dev block with
  | some i =>
      obtain ⟨r, hw, hflush⟩ := flush_eq D dev block block data
        (c.wrapCurr.setSlot i { c.slots i with array := data })
      simp only [Cache.wrapCurr_slots, hflush]
      cases r <;> exact SameLabels.update c.slots i data
  | none =>
      obtain ⟨r, hw, hflush⟩ := flush_eq D dev block block data c.wrapCurr
      simp only [hflush]
      cases r <;> exact SameLabels.refl c.slots

/-- One step of `block_sync` over a device that works leaves slot `i` up to date. -/
theorem syncSlot_leaves (hD : FlatDev D view valid) {a : BlockRtvl × Cache σ}
    (H : Rep view valid a.2 F) :
    (syncSlot D dev i a).1 = a.1 ∧
      ∀ j, ((syncSlot D dev i a).2.slots j).Pending dev → (a.2.slots j).Pending dev ∧ j ≠ i := by
  rw [syncSlot]
  by_cases hp : (a.2.slots i).dirty = true ∧ (a.2.slots i).dev = dev
  · have hm : (a.2.slots i).map ≠ blockFreeMark := by
      intro hfree
      have hclean := H.inv.slots.freeClean i hfree
      rw [hp.1] at hclean
      cases hclean
    obtain ⟨hdev, hv⟩ := H.owner i hm
    rw [hp.2] at hdev
    obtain ⟨c', hwrite, -⟩ := blockDiskWrite_flat hD H hm hdev hv (a.2.slots i).array
    have hlabels : SameLabels a.2.slots
        (blockDiskWrite D dev (a.2.slots i).map (a.2.slots i).array a.2).2.slots :=
      blockDiskWrite_labels
    rw [hwrite] at hlabels
    simp only [if_pos hp, hwrite]
    refine ⟨trivial, fun j hj => ?_⟩
    by_cases hji : j = i
    · subst hji
      simp [Cache.setSlot, Slot.Pending] at hj
    · rw [Slot.Pending, Cache.setSlot] at hj
      simp only [Function.update_of_ne hji] at hj
      exact ⟨⟨by rw [← hlabels.dirty j]; exact hj.1, by rw [← hlabels.dev j]; exact hj.2⟩, hji⟩
  · simp only [if_neg hp]
    refine ⟨trivial, fun j hj => ⟨hj, ?_⟩⟩
    rintro rfl
    exact hp hj

/-- **A sync brings the device up to date.** -/
theorem blockSync_leaves (hD : FlatDev D view valid) (H : Rep view valid c F) :
    (blockSync D dev c).1 = .ok ∧ ∀ i, ¬ ((blockSync D dev c).2.slots i).Pending dev := by
  have hfold : ∀ (is : List (Fin blockArraySize)) (a : BlockRtvl × Cache σ), Rep view valid a.2 F →
      (is.foldl (fun a i => syncSlot D dev i a) a).1 = a.1 ∧
        ∀ j, ((is.foldl (fun a i => syncSlot D dev i a) a).2.slots j).Pending dev →
          (a.2.slots j).Pending dev ∧ j ∉ is := by
    intro is
    induction is with
    | nil => exact fun a _ => ⟨rfl, fun j hj => ⟨hj, List.not_mem_nil⟩⟩
    | cons i is ih =>
        intro a ha
        have hnext : Rep view valid (syncSlot D dev i a).2 F := syncSlot_flat hD ha
        obtain ⟨hr, hpend⟩ : (syncSlot D dev i a).1 = a.1 ∧ _ := syncSlot_leaves hD ha
        obtain ⟨hr', hpend'⟩ := ih _ hnext
        refine ⟨hr'.trans hr, fun j hj => ?_⟩
        obtain ⟨hj', hmem⟩ := hpend' j hj
        obtain ⟨hj'', hne⟩ := hpend j hj'
        exact ⟨hj'', fun hin => (List.mem_cons.mp hin).elim hne hmem⟩
  rw [blockSync]
  obtain ⟨hr, hpend⟩ := hfold (List.finRange blockArraySize) (.ok, c) H
  exact ⟨hr, fun i hi => (hpend i hi).2 (List.mem_finRange i)⟩

/-- The flat disk is on the device after a sync. -/
theorem view_blockSync (hD : FlatDev D view valid) (H : Rep view valid c F)
    (hb : block ≠ blockFreeMark) : view (blockSync D dev c).2.hw dev block = F dev block := by
  have hrep : Rep view valid (blockSync D dev c).2 F := blockSync_flat hD H
  have hnot : ∀ i, ¬ ((blockSync D dev c).2.slots i).Pending dev := (blockSync_leaves hD H).2
  refine hrep.backed dev block hb fun i hi => ?_
  cases hd : ((blockSync D dev c).2.slots i).dirty with
  | false => rfl
  | true => exact absurd ⟨hd, hi.2⟩ (hnot i)

end Sync

/-! ## Over the host files -/

section Files
variable {cs : List PathCall} {s s' : Names Disk} {r : Except InodeRtvl (List PathReply)}
  {c : Cache HostFiles} {n : ℕ}

/-- The host files have room for the block that is asked for. -/
def BlockRequest.Addressable (q : BlockRequest) : Prop := 0 ≤ q.dev ∧ OffsetFits q.block

theorem offsetFits_ne_free {block : BlockNo} (h : OffsetFits block) : block ≠ blockFreeMark := by
  rintro rfl
  simp [OffsetFits, blockFreeMark, devBlockSize] at h

theorem BlockRequest.Addressable.served {q : BlockRequest} (h : q.Addressable) (c : Cache HostFiles) :
    q.op.Served userDev HostFiles.view OffsetFits c := by
  cases q with
  | read dev block data =>
      exact ⟨⟨h.1, offsetFits_ne_free h.2⟩, h.2, Or.inl userDev_scanAddressed, trivial⟩
  | write dev block data =>
      exact ⟨⟨h.1, offsetFits_ne_free h.2⟩, h.2, Or.inl userDev_scanAddressed, trivial⟩

/-- Requests that the host files have room for are served until a counter is saturated. -/
theorem admits_few {qs : List BlockRequest} (hc : c.Counts n) (haddr : ∀ q ∈ qs, q.Addressable)
    (hfew : n + qs.length ≤ blockMaxLru.toNat) :
    (cacheMachine userDev).Admits (fun c op => op.Handled userDev HostFiles.view OffsetFits c)
      (qs.map BlockRequest.op) c := by
  induction qs generalizing c n with
  | nil => trivial
  | cons q qs ih =>
      rw [List.length_cons] at hfew
      refine ⟨⟨(haddr q List.mem_cons_self).served c, hc.findsVictim (by omega) q.op⟩, ?_⟩
      exact ih (hc.step q) (fun q' hq' => haddr q' (List.mem_cons_of_mem _ hq')) (by omega)

/-- **The file system over host files.** A run whose requests have room in the host files and
do not saturate a use counter has the same replies over the cache as over a flat disk, and a
sync after it succeeds and leaves the flat disk in the files. -/
theorem file_system_over_files (hrep : Rep HostFiles.view OffsetFits c s.fs.store)
    (hc : c.Counts n) (hrun : pathRun flatStore cs s = some (r, s'))
    (haddr : ∀ q ∈ requests cs s, q.Addressable)
    (hfew : n + (requests cs s).length ≤ blockMaxLru.toNat) :
    ∃ c', pathRun (cacheStore userDev) cs (s.over c) = some (r, s'.over c') ∧
      ∀ dev, (blockSync userDev dev c').1 = .ok ∧
        ∀ block, OffsetFits block →
          (blockSync userDev dev c').2.hw.view dev block = s'.fs.store dev block := by
  obtain ⟨c', hrun', -, hrep'⟩ := file_system_over_cache userDev_flat hrep hrun
    (admits_few hc haddr hfew)
  refine ⟨c', hrun', fun dev => ⟨(blockSync_leaves userDev_flat hrep').1, fun block hb => ?_⟩⟩
  exact view_blockSync userDev_flat hrep' (offsetFits_ne_free hb)

/-! ### A lookup of the root -/

/-- Host files with the contents of a flat disk. -/
def HostFiles.ofDisk (d : Disk) : HostFiles where
  descriptor _ := 0
  bytes dev k := d dev (UInt32.ofNat (k / devBlockSize)) ⟨k % devBlockSize, Nat.mod_lt _ (by decide)⟩
  offset _ := 0

theorem HostFiles.view_ofDisk (d : Disk) : (HostFiles.ofDisk d).view = d := by
  funext dev block i
  have hi : (i : ℕ) < devBlockSize := i.isLt
  have hdiv : (block.toNat * devBlockSize + i) / devBlockSize = block.toNat := by
    rw [Nat.mul_comm, Nat.mul_add_div (by decide), Nat.div_eq_of_lt hi, Nat.add_zero]
  have hmod : (block.toNat * devBlockSize + i) % devBlockSize = i := by
    rw [Nat.mul_comm, Nat.mul_add_mod, Nat.mod_eq_of_lt hi]
  simp only [view, ofDisk, hdiv, hmod, UInt32.ofNat_toNat]

/-- The cache after the first `block_open` over the files of a flat disk. -/
def filesCache (d : Disk) : Cache HostFiles :=
  (blockOpen userDev "/" 0 (Cache.boot (HostFiles.ofDisk d))).2.2

theorem filesCache_rep (d : Disk) : Rep HostFiles.view OffsetFits (filesCache d) d := by
  have hrep : Rep HostFiles.view OffsetFits (filesCache d) (filesCache d).hw.view :=
    (opened_boot userDev "/" _).rep
  have hview : (filesCache d).hw.view = d := HostFiles.view_ofDisk d
  rwa [hview] at hrep

theorem filesCache_counts (d : Disk) : (filesCache d).Counts 0 :=
  ⟨Nat.le_refl 0, fun _ => Nat.le_refl 0⟩

/-- The lookup of the root asks for one block. -/
theorem inodeGet_root_watched {root cwd now : BlockNo} {p : Cred} {fuel : ℕ}
    (hmount : rootBlock 0 s.fs = some root)
    (hroot : (inodeAt (s.fs.store 0) root).name = [slash]) (doReadlink : Bool) (mode : InodeMode) :
    inodeGet watchedStore 0 p now (fuel + 1) cwd [slash] doReadlink mode
        (s.over (s.fs.store, [])) =
      some (.ok (inodeAt (s.fs.store 0) root),
        s.over (s.fs.store, [.read 0 root Sector.zero])) := by
  have hcomp : components (normalize [slash]) = [[]] := by decide +kernel
  have hlen : ([slash] : CStr).length ≤ maxPath := by decide
  have hmount' : rootBlock 0 (s.over (s.fs.store, ([] : List BlockRequest))).fs = some root := hmount
  generalize ht : s.over (s.fs.store, ([] : List BlockRequest)) = t at hmount' ⊢
  have hmounted : (ofOption (some root) : NameM (Disk × List BlockRequest) BlockNo) t =
      some (.ok root, t) := rfl
  have hpath : krealpath watchedStore 0 root fuel cwd [slash] t =
      some (.ok (normalize [slash]), t) := by
    rw [krealpath, if_pos (show ([slash] : CStr).head? = some slash from rfl)]
    have hfit : ([] : CStr).length + ([slash] : CStr).length ≤ maxPath := hlen
    rw [Call.pure_bind_apply]
    exact Call.bind_of_ok (Call.require_of_pos hfit)
  have hread : readInode watchedStore 0 root t = some (.ok (inodeAt (s.fs.store 0) root),
      s.over (s.fs.store, [.read 0 root Sector.zero])) := by
    rw [← ht]
    rfl
  have hinode : rootInode watchedStore 0 now root t = some (.ok (inodeAt (s.fs.store 0) root),
      s.over (s.fs.store, [.read 0 root Sector.zero])) := by
    rw [rootInode, Call.bind_of_ok hread, if_pos hroot]
    rfl
  rw [inodeGet, Call.get_bind_apply, hmount', Call.bind_of_ok hmounted, getFrom,
    Call.bind_of_ok (Call.require_of_pos hlen), Call.bind_of_ok hpath, Call.bind_of_ok hinode, hcomp]
  rfl

theorem pathRun_inodeGet {σ : Type} {L : BlockLayer σ} {dev : DevNo} {p : Cred}
    {now cwd : BlockNo} {fuel : ℕ} {path : CStr} {doReadlink : Bool} {mode : InodeMode}
    {s s' : Names σ} {r : Except InodeRtvl Inode}
    (h : inodeGet L dev p now fuel cwd path doReadlink mode s = some (r, s')) :
    pathRun L [.inodeGet dev p now fuel cwd path doReadlink mode] s =
      some (.ok [.inode r], s') := by
  have hreply : (PathCall.inodeGet dev p now fuel cwd path doReadlink mode).reply L s =
      some (.ok (.inode r), s') := Call.bind_of_ok (Call.attempt_eq_some.mpr ⟨r, rfl, h⟩)
  rw [pathRun, Call.bind_of_ok hreply]
  rfl

/-- A lookup of the root directory over the files of an empty volume. -/
theorem file_system_over_files_root :
    ∃ c', pathRun (cacheStore userDev)
        [.inodeGet 0 ⟨0, 0⟩ 0 1 4100 [slash] true .dontCheckPerms]
        (Names.over ⟨emptyVolume, 0⟩ (filesCache emptyVolume.store)) =
          some (.ok [.inode (.ok (inodeAt (emptyVolume.store 0) 4100))],
            Names.over ⟨emptyVolume, 0⟩ c') ∧
      ∀ dev, (blockSync userDev dev c').1 = .ok ∧
        ∀ block, OffsetFits block →
          (blockSync userDev dev c').2.hw.view dev block = emptyVolume.store dev block := by
  have hget := @inodeGet_root 0 4100 ⟨emptyVolume, 0⟩ ⟨0, 0⟩ 0 4100 0 emptyVolume_rootBlock
    emptyVolume_root true .dontCheckPerms
  have hwatched := @inodeGet_root_watched ⟨emptyVolume, 0⟩ 4100 4100 0 ⟨0, 0⟩ 0
    emptyVolume_rootBlock emptyVolume_root true .dontCheckPerms
  have hrequests : requests [.inodeGet 0 ⟨0, 0⟩ 0 1 4100 [slash] true .dontCheckPerms]
      ⟨emptyVolume, 0⟩ = [.read 0 4100 Sector.zero] := by
    rw [requests, pathRun_inodeGet hwatched]
    rfl
  refine file_system_over_files (filesCache_rep _) (filesCache_counts _) (pathRun_inodeGet hget) ?_ ?_
  · rw [hrequests]
    intro q hq
    rw [List.mem_singleton.mp hq]
    exact ⟨by decide, offsetFits_ofNat (b := 4100) (by decide)⟩
  · rw [hrequests]
    decide

end Files

end OxKernel.Fs
