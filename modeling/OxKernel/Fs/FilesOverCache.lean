import OxKernel.Fs.FileArrays
import OxKernel.Fs.OverCache
import OxKernel.Fs.StoreFiles

/-!
# Open files over the buffer cache

What the calls on open files do over a flat disk they do over the buffer cache, as long as the
cache can serve their requests. Over the host files of the user-space build, a process with open
files so has byte arrays on top of the cache, and after a `block_sync` the arrays are what a
walk along the chains finds in the host files.

## Main definitions

* `fileRequests` — the requests of a run.
* `files_over_cache` — the calls over the cache and over a flat disk.
* `arrays_over_host_files` — byte arrays at the top, host files at the bottom.
-/
namespace OxKernel.Fs

open Lib (Machine)

variable {I : Type}

theorem filesOver_flat (fd : I → Int32) : filesOver flatStore fd = filesMachine fd :=
  congrArg Machine.mk (funext fun call => funext fun s => call.2.execOver_flat (fd call.1) s)

/-- The requests of a run. -/
def fileRequests (fd : I → Int32) (calls : List (I × FileOp)) (s : Sys Disk) : List BlockRequest :=
  ((filesOver watchedStore fd).exec calls (s.over (s.fs.store, []))).fs.store.2

section Cache
variable {σ : Type} {D : DevLayer σ} {view : σ → Disk} {valid : BlockNo → Prop} {fd : I → Int32}
  {calls : List (I × FileOp)} {s : Sys Disk}

/-- A run over the flat store that keeps its requests. -/
theorem filesOver_watched (fd : I → Int32) (calls : List (I × FileOp)) (s : Sys Disk) :
    (filesOver watchedStore fd).trace calls (s.over (s.fs.store, [])) =
        (filesMachine fd).trace calls s ∧
      (filesOver watchedStore fd).exec calls (s.over (s.fs.store, [])) =
        ((filesMachine fd).exec calls s).over
          (((filesMachine fd).exec calls s).fs.store, fileRequests fd calls s) := by
  obtain ⟨-, hsim⟩ := tracked_filesOver flat_tracks_watched fd calls s trivial
  rw [filesOver_flat] at hsim
  obtain ⟨t, ⟨htrace, hexec⟩, ⟨d, log⟩, rfl, hd⟩ :=
    hsim (s.over (s.fs.store, [])) ⟨_, rfl, rfl⟩
  have hd : d = ((filesMachine fd).exec calls s).fs.store := hd
  refine ⟨htrace, ?_⟩
  rw [fileRequests, hexec, hd]
  rfl

/-- **The calls over the cache.** If the cache serves the requests of a run over a flat disk, the
run over the cache has the same replies and the same tables, and leaves a cache that represents
the flat disk. -/
theorem files_over_cache (hD : FlatDev D view valid) {c : Cache σ} (hrep : Rep view valid c s.fs.store)
    (hserved : (cacheMachine D).Admits (fun c op => op.Handled D view valid c)
      ((fileRequests fd calls s).map BlockRequest.op) c) :
    (filesOver (cacheStore D) fd).trace calls (s.over c) = (filesMachine fd).trace calls s ∧
      ∃ c', (filesOver (cacheStore D) fd).exec calls (s.over c) =
          ((filesMachine fd).exec calls s).over c' ∧
        Rep view valid c' ((filesMachine fd).exec calls s).fs.store := by
  obtain ⟨htrace, hexec⟩ := filesOver_watched fd calls s
  have hgood : AllHandled D view valid c
      ((filesOver watchedStore fd).exec calls (s.over (s.fs.store, []))).fs.store := by
    rw [hexec]
    exact hserved
  obtain ⟨-, hsim⟩ := tracked_filesOver (watched_tracks_cache hD c) fd calls _ hgood
  obtain ⟨t, ⟨htrace', hexec'⟩, c', rfl, -, hrep'⟩ := hsim (s.over c) ⟨c, rfl, rfl, hrep⟩
  rw [htrace] at htrace'
  rw [hexec] at hexec' hrep'
  exact ⟨htrace', c', hexec', hrep'⟩

end Cache

/-! ## Byte arrays over host files -/

section Chains
variable {F : Setting} {c : Chain} {fd : Int32} {t : Fin maxFiles} {s : Sys Disk} {f : ByteFile}
  {n : Inode} {d : BlockNo → Sector}

theorem mapBlock_of_disk (hdisk : ∀ j, j < c.maps.length → d (c.mapAt j) = BlockMap.layout (c.image j))
    {next : BlockNo} (hhead : c.mapAt 0 = next) {j : ℕ} (hj : j < c.maps.length) :
    mapBlock d next j = c.mapAt j := by
  induction j with
  | zero => exact hhead.symm
  | succ j ih =>
      rw [mapBlock, ih (by omega), hdisk j (by omega), Equiv.symm_apply_apply]
      rfl

/-- A disk that agrees on the blocks of a file holds the file too. -/
theorem OpenAt.fileIs_over (h : OpenAt F fd t c s f) {d : Disk}
    (hd : ∀ b ∈ c.all, d F.dev b = s.fs.store F.dev b) : FileIs (s.over d) fd f := by
  have hdev : (s.proc.fileTab t).dev = F.dev := h.file.dev
  have hdesc : (s.over d).proc.descriptor fd = some t := h.desc
  refine ⟨_, by rw [Sys.view, hdesc]; rfl, h.size, h.pos, fun p hp => ?_⟩
  have hsize : (s.proc.fileTab t).size.toNat = f.size := h.size
  have hp : p < f.size := hsize ▸ hp
  rcases h.file.fits with ⟨-, h0⟩ | hfit
  · have h0 : (s.proc.fileTab t).size = 0 := h0
    rw [h0] at hsize
    exact absurd hp (hsize ▸ Nat.not_lt_zero p)
  · have hfit : c.Fits ((s.proc.fileTab t).size.toNat / 512 + 1) := hfit
    rw [hsize] at hfit
    have hq : p / 512 < c.blocks.length := by
      rw [hfit.1]
      omega
    have hmap : p / 512 / 127 < c.maps.length := by
      rw [hfit.2]
      omega
    have hdisk : ∀ j, j < c.maps.length →
        d F.dev (c.mapAt j) = BlockMap.layout (c.image j) := by
      intro j hj
      rw [hd _ (List.mem_append_left _ (Chain.mapAt_mem hj))]
      exact h.file.ok.disk j hj
    have hhead : c.mapAt 0 = (s.proc.fileTab t).next := h.file.head
    have hblock : fileBlock (d F.dev) (s.proc.fileTab t).next (p / 512) = c.blockAt (p / 512) := by
      rw [fileBlock, mapBlock_of_disk hdisk hhead hmap, hdisk _ hmap, Equiv.symm_apply_apply]
      show c.blockAt (127 * (p / 512 / 127) + p / 512 % 127) = c.blockAt (p / 512)
      rw [Nat.div_add_mod]
    show fileByte (d (s.proc.fileTab t).dev) (s.proc.fileTab t).next p = f.bytes p
    rw [hdev, fileByte, hblock, hd _ (List.mem_append_right _ (Chain.blockAt_mem hq))]
    refine h.file.holds p ?_
    show p < (s.proc.fileTab t).size.toNat
    rwa [hsize]

end Chains

section Files
variable [Fintype I] [DecidableEq I] {V : Surroundings I} {c : I → Chain} {s : Sys Disk}
  {f : I → SoughtFile} {calls : List (I × FileOp)} {k : Cache HostFiles} {n : ℕ}

/-- **Byte arrays over host files.** A run on open files that keeps to the rules of the byte arrays,
over the buffer cache on host files: the calls return what those of the byte arrays return, a
sync after them succeeds, and the host files then hold the byte arrays. -/
theorem arrays_over_host_files (h : FilesOpen V c s f)
    (hcalls : arrayMachine.family.Admits V.Fits calls f)
    (hrep : Rep HostFiles.view OffsetFits k s.fs.store) (hk : k.Counts n)
    (hfree : ¬ V.g.Covers .bmap blockFreeMark)
    (haddr : ∀ q ∈ fileRequests V.fd calls s, q.Addressable)
    (hfew : n + (fileRequests V.fd calls s).length ≤ blockMaxLru.toNat) :
    let e := (filesOver (cacheStore userDev) V.fd).exec calls (s.over k)
    (filesOver (cacheStore userDev) V.fd).trace calls (s.over k) =
        arrayMachine.family.trace calls f ∧
      (blockSync userDev V.dev e.fs.store).1 = .ok ∧
      ∀ i, FileIs (e.over (blockSync userDev V.dev e.fs.store).2.hw.view) (V.fd i)
        (arrayMachine.exec (Machine.own i calls) (f i)).toByteFile := by
  obtain ⟨htrace, c', hopen⟩ := h.run hcalls
  obtain ⟨htrace', k', hexec, hrep'⟩ := files_over_cache userDev_flat hrep (admits_few hk haddr hfew)
  obtain ⟨d, hd⟩ : ∃ d, (blockSync userDev V.dev k').2.hw.view = d := ⟨_, rfl⟩
  have hsync : ∀ b, b ≠ blockFreeMark →
      d V.dev b = ((filesMachine V.fd).exec calls s).fs.store V.dev b := by
    intro b hb
    rw [← hd]
    exact view_blockSync userDev_flat hrep' hb
  have hfiles : ∀ i, FileIs (((filesMachine V.fd).exec calls s).over d) (V.fd i)
      (arrayMachine.exec (Machine.own i calls) (f i)).toByteFile := by
    intro i
    rw [← Machine.family_exec]
    refine (hopen.openAt i).fileIs_over fun b hb => hsync b ?_
    rintro rfl
    exact hfree ((hopen.openAt i).file.ok.covers hb)
  intro e
  have he : e = ((filesMachine V.fd).exec calls s).over k' := hexec
  rw [he, Sys.over_store, hd]
  refine ⟨htrace'.trans htrace, (blockSync_leaves userDev_flat hrep').1, fun i => ?_⟩
  rw [Sys.over_over]
  exact hfiles i

end Files

/-! ### Seeks on two files -/

/-- The cursors of both files are moved. -/
def twoSeeks : List (Bool × FileOp) :=
  [(false, .seek 5 .set), (true, .seek 0 .fin), (false, .seek 1 .cur)]

theorem twoSeeks_fit : arrayMachine.family.Admits twoSurroundings.Fits twoSeeks emptyFiles := by
  refine ⟨⟨trivial, fun _ h => absurd h (by decide), twoSurroundings_room fun i => ?_⟩,
    ⟨trivial, fun _ h => absurd h (by decide), twoSurroundings_room fun i => ?_⟩,
    ⟨trivial, fun _ h => absurd h (by decide), twoSurroundings_room fun i => ?_⟩, trivial⟩
  all_goals cases i <;> decide

/-- A seek writes the inode block. -/
theorem twoSeeks_requests : (fileRequests twoSurroundings.fd twoSeeks twoFiles).map
    (fun q => (q.dev, q.block)) = [(0, 4100), (0, 4101), (0, 4100)] := rfl

/-- Seeks over the cache, and a sync. -/
theorem arrays_over_host_files_seeks :
    let e := (filesOver (cacheStore userDev) twoSurroundings.fd).exec twoSeeks
      (twoFiles.over (filesCache twoFiles.fs.store))
    (filesOver (cacheStore userDev) twoSurroundings.fd).trace twoSeeks
        (twoFiles.over (filesCache twoFiles.fs.store)) =
        arrayMachine.family.trace twoSeeks emptyFiles ∧
      (blockSync userDev twoSurroundings.dev e.fs.store).1 = .ok ∧
      ∀ i, FileIs (e.over (blockSync userDev twoSurroundings.dev e.fs.store).2.hw.view) (twoSurroundings.fd i)
        (arrayMachine.exec (Machine.own i twoSeeks) (emptyFiles i)).toByteFile := by
  refine arrays_over_host_files twoFiles_open twoSeeks_fit (filesCache_rep _) (filesCache_counts _)
    ?_ ?_ ?_
  · decide
  · intro q hq
    have hmem : (q.dev, q.block) ∈ [((0 : DevNo), (4100 : BlockNo)), (0, 4101), (0, 4100)] := by
      rw [← twoSeeks_requests]
      exact List.mem_map_of_mem hq
    simp only [List.mem_cons, Prod.mk.injEq, List.not_mem_nil, or_false] at hmem
    have hfits : ∀ b : ℕ, b ≤ 4101 → OffsetFits (UInt32.ofNat b) := fun b hb =>
      offsetFits_ofNat (b := b) (by omega)
    rw [BlockRequest.Addressable]
    rcases hmem with ⟨hd, hb⟩ | ⟨hd, hb⟩ | ⟨hd, hb⟩
    · rw [hd, hb]
      exact ⟨by decide, hfits 4100 (by decide)⟩
    · rw [hd, hb]
      exact ⟨by decide, hfits 4101 (by decide)⟩
    · rw [hd, hb]
      exact ⟨by decide, hfits 4100 (by decide)⟩
  · have hlen := congrArg List.length twoSeeks_requests
    rw [List.length_map] at hlen
    rw [hlen]
    decide

end OxKernel.Fs
