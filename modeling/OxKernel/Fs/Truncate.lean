import OxKernel.Fs.Accounting
import OxKernel.Fs.CurrentDir

/-!
# Truncation

An open with `O_TRUNC` gives back the blocks of the file that it finds. The loop tests the link
that it has just left, so after the last block map it goes on for one more round: it reads block
0 as a block map and gives back what the words there name. A file without a chain is not touched.

## Main definitions

* `truncateTrace` — the loop with the blocks that it gives back.
* `truncated` — these blocks, for a file with a given chain.
* `TruncatesFile` — what a truncation should do.
* `FileChange` — a file gets another chain.
-/
namespace OxKernel.Fs

/-! ## The blocks that the loop gives back -/

/-- The used slots of a block map. -/
def BlockMap.entries (m : BlockMap) : List BlockNo := (List.ofFn m.blocks).filter (· ≠ inodeNull)

/-- What a round gives back for the block map of a block. -/
def BlockMap.frees (m : BlockMap) (current : BlockNo) : List BlockNo :=
  m.entries ++ if current = inodeNull then [] else [current]

section Trace
variable {σ : Type} (L : BlockLayer σ) (dev : DevNo)

/-- Free data blocks one after the other. -/
def freeBlocks (l : List BlockNo) (fs : FsState σ) : FsState σ :=
  l.foldl (fun fs b => (inodeFreeDataBlock L dev b fs).2) fs

theorem freeBlocks_append (l l' : List BlockNo) (fs : FsState σ) :
    freeBlocks L dev (l ++ l') fs = freeBlocks L dev l' (freeBlocks L dev l fs) := List.foldl_append

theorem freeEntries_eq (bmap : BlockMap) (fs : FsState σ) :
    freeEntries L dev bmap fs = freeBlocks L dev bmap.entries fs := by
  rw [freeEntries, freeBlocks, BlockMap.entries, List.ofFn_eq_map]
  induction List.finRange bmapBlocks generalizing fs with
  | nil => rfl
  | cons i is ih =>
      rw [List.foldl_cons, List.map_cons]
      by_cases hnull : bmap.blocks i = inodeNull
      · rw [if_pos hnull, List.filter_cons_of_neg (by simpa using hnull)]
        exact ih fs
      · rw [if_neg hnull, List.filter_cons_of_pos (by simpa using hnull), List.foldl_cons]
        exact ih _

/-- The frees of a round. -/
theorem freeBlocks_frees (bmap : BlockMap) (current : BlockNo) (fs : FsState σ) :
    freeBlocks L dev (bmap.frees current) fs =
      if current = inodeNull then freeEntries L dev bmap fs
      else (inodeFreeDataBlock L dev current (freeEntries L dev bmap fs)).2 := by
  rw [BlockMap.frees, freeBlocks_append, freeEntries_eq]
  split
  · rfl
  · rfl

/-- The loop of a truncation with the blocks that it gives back, in order. -/
def truncateTrace : ℕ → BlockNo → BlockMap → FsState σ → Option (List BlockNo × FsState σ)
  | 0, _, _, _ => none
  | fuel + 1, current, bmap, fs =>
    if current = inodeNull then some ([], fs)
    else
      match L.blockRead dev bmap.next (BlockMap.layout bmap) fs.store with
      | (_, data, st) =>
        let l := (BlockMap.layout.symm data).frees bmap.next
        (truncateTrace fuel bmap.next (BlockMap.layout.symm data)
          (freeBlocks L dev l { fs with store := st })).map fun r => (l ++ r.1, r.2)

/-- **It is the loop of `kopen`.** -/
theorem truncateTrace_snd (fuel : ℕ) (current : BlockNo) (bmap : BlockMap) (fs : FsState σ) :
    (truncateTrace L dev fuel current bmap fs).map Prod.snd =
      truncateLoop L dev fuel current bmap fs := by
  induction fuel generalizing current bmap fs with
  | zero => rfl
  | succ fuel ih =>
      rw [truncateTrace, truncateLoop]
      by_cases hcur : current = inodeNull
      · rw [if_pos hcur, if_pos hcur]
        rfl
      · rw [if_neg hcur, if_neg hcur]
        obtain ⟨r, data, st⟩ := L.blockRead dev bmap.next (BlockMap.layout bmap) fs.store
        dsimp only
        rw [Option.map_map, freeBlocks_frees, ← ih]
        rfl

end Trace

/-! ## On the flat store -/

section Flat
variable {dev : DevNo} {k : MapKind} {fs : FsState Disk} {next : BlockNo} {ms : List BlockNo}

theorem initMap_store (checked : Bool) (row : Fin inodeNrDev) :
    (initMap flatStore k checked dev row fs).2.store = fs.store := by
  unfold initMap
  split
  · split
    · rfl
    · dsimp only
      split
      · rfl
      · rfl
  · rfl

/-- A free writes no block, whatever it is given. -/
theorem freed_keeps (b : BlockNo) : (freed dev k b fs).store = fs.store := by
  unfold freed freeBlock
  split
  · rfl
  · rename_i row _
    have hinit := @initMap_store dev k fs false row
    split
    · rename_i hrun
      rw [hrun] at hinit
      exact hinit
    · rename_i s hrun
      rw [hrun] at hinit
      -- The free looks at one map block, in the window or from the disk.
      have hload : ∀ p (t : FsState Disk), (loadWindow flatStore k dev row p t).2.store = t.store :=
        fun _ _ => rfl
      dsimp only
      split
      · rename_i t hwin
        have ht : t.store = fs.store := by
          split at hwin
          · have hstore := congrArg (fun r : BlockRtvl × FsState Disk => r.2.store) hwin
            rw [hload] at hstore
            exact hstore.symm.trans hinit
          · cases hwin
            exact hinit
        split
        · exact ht
        · exact ht
      · rename_i t _ hwin
        split at hwin
        · cases hwin
          exact hinit
        · cases hwin
          exact hinit

theorem freedAll_keeps (l : List BlockNo) : (freedAll dev k l fs).store = fs.store := by
  induction l generalizing fs with
  | nil => rfl
  | cons b l ih => rw [freedAll_cons, ih, freed_keeps]

/-- A round of the loop. -/
theorem truncateTrace_round {fuel : ℕ} {current : BlockNo} {bmap : BlockMap} {d : Dev}
    (hd : fs.store dev = d) (hcur : current ≠ inodeNull) :
    truncateTrace flatStore dev (fuel + 1) current bmap fs =
      (truncateTrace flatStore dev fuel bmap.next (mapAt d bmap.next)
        (freedAll dev .bmap ((mapAt d bmap.next).frees bmap.next) fs)).map
          fun r => ((mapAt d bmap.next).frees bmap.next ++ r.1, r.2) := by
  subst hd
  rw [truncateTrace, if_neg hcur]
  rfl

theorem truncateTrace_end {fuel : ℕ} {bmap : BlockMap} :
    truncateTrace flatStore dev (fuel + 1) inodeNull bmap fs = some ([], fs) := by
  rw [truncateTrace, if_pos rfl]

/-- The loop in a chain: it gives back the rest of the chain and what block 0 names. -/
theorem truncateTrace_chain {fuel : ℕ} {current : BlockNo} {bmap : BlockMap} {d : Dev}
    (hd : fs.store dev = d) (hcur : current ≠ inodeNull) (hl : Linked d bmap.next ms)
    (hfuel : ms.length + 2 ≤ fuel) :
    truncateTrace flatStore dev fuel current bmap fs =
      some (fileBlocks d ms ++ mapEntries d inodeNull,
        freedAll dev .bmap (fileBlocks d ms ++ mapEntries d inodeNull) fs) := by
  obtain ⟨fuel, rfl⟩ : ∃ n, fuel = n + 1 := ⟨fuel - 1, by omega⟩
  rw [truncateTrace_round hd hcur]
  induction ms generalizing fuel current bmap fs with
  | nil =>
      obtain ⟨fuel, rfl⟩ : ∃ n, fuel = n + 1 := ⟨fuel - 1, by omega⟩
      have hnext : bmap.next = inodeNull := hl
      have hround : (mapAt d inodeNull).frees inodeNull = mapEntries d inodeNull :=
        List.append_nil _
      rw [hnext, hround, truncateTrace_end, Option.map_some, List.append_nil, fileBlocks_nil,
        List.nil_append]
  | cons m ms ih =>
      obtain ⟨hnext, hne, hrest⟩ := hl
      obtain ⟨fuel, rfl⟩ : ∃ n, fuel = n + 1 := ⟨fuel - 1, by omega⟩
      have hround : (mapAt d m).frees m = mapEntries d m ++ [m] := by
        rw [BlockMap.frees, if_neg hne]
        rfl
      have hd' : (freedAll dev .bmap (mapEntries d m ++ [m]) fs).store dev = d := by
        rw [freedAll_keeps]
        exact hd
      rw [hnext, hround, truncateTrace_round hd' hne,
        ih hd' hne hrest fuel (by simp only [List.length_cons] at hfuel; omega), Option.map_some,
        fileBlocks_cons, List.append_assoc (mapEntries d m ++ [m]), freedAll_append dev .bmap
          (mapEntries d m ++ [m])]

/-- The blocks that are given back for a file with a given chain. -/
def truncated (d : Dev) (ms : List BlockNo) : List BlockNo :=
  if ms = [] then [] else fileBlocks d ms ++ mapEntries d inodeNull

/-- **The loop ends**, and has given these blocks back. -/
theorem truncateTrace_flat {fuel : ℕ} {bmap : BlockMap} {d : Dev} (hd : fs.store dev = d)
    (hl : Linked d bmap.next ms) (hfuel : ms.length + 2 ≤ fuel) :
    truncateTrace flatStore dev fuel bmap.next bmap fs =
      some (truncated d ms, freedAll dev .bmap (truncated d ms) fs) := by
  by_cases hms : ms = []
  · subst hms
    obtain ⟨fuel, rfl⟩ : ∃ n, fuel = n + 1 := ⟨fuel - 1, by omega⟩
    have hnext : bmap.next = inodeNull := hl
    rw [truncated, if_pos rfl, hnext, truncateTrace_end]
    rfl
  · rw [truncated, if_neg hms]
    exact truncateTrace_chain hd (hl.head_ne hms) hl hfuel

theorem truncated_eq {d : Dev} (h : ms = [] ∨ mapEntries d inodeNull = []) :
    truncated d ms = fileBlocks d ms := by
  rw [truncated]
  split
  · rename_i hnil
    rw [hnil, fileBlocks_nil]
  · rename_i hne
    rw [h.resolve_left hne, List.append_nil]

/-- The chain is given back and nothing else, if there is none or block 0 names no block. -/
theorem truncated_perm_iff {d : Dev} : (truncated d ms).Perm (fileBlocks d ms) ↔
    ms = [] ∨ mapEntries d inodeNull = [] := by
  constructor
  · intro hperm
    by_cases hms : ms = []
    · exact Or.inl hms
    · have hlen := hperm.length_eq
      rw [truncated, if_neg hms, List.length_append] at hlen
      exact Or.inr (List.length_eq_zero_iff.mp (by omega))
  · intro hcase
    rw [truncated_eq hcase]

end Flat

/-! ## A file with another chain -/

/-- A file gets the chain `ms`, and the other nodes are as before. -/
structure FileChange (b : BlockNo) (ms : List BlockNo) (T : Tree) (d d' : Dev) : Prop where
  mem : b ∈ T.nodes
  file : (inodeAt d b).isFile ≠ 0
  shown : (inodeAt d' b).shown = (inodeAt d b).shown
  linked : Linked d' (inodeAt d' b).next ms
  kept : ∀ c ∈ T.nodes, c ≠ b → NodeKept T (T.setChain b ms) d d' c
  separate : Separate (T.setChain b ms) d'

section Change
variable {root b : BlockNo} {ms : List BlockNo} {T : Tree} {d d' : Dev}

/-- A file has no link, and its blocks are those of its chain. -/
theorem Shaped.file (h : Shaped root T d) (hb : b ∈ T.nodes) (hfile : (inodeAt d b).isFile ≠ 0) :
    (inodeAt d b).HasKind .file ∧ Linked d (inodeAt d b).next (T.chain b) ∧
      T.owned d b = fileBlocks d (T.chain b) := by
  have hok := h.node b hb
  obtain ⟨k, hk⟩ := hok.kind
  have hkind : (inodeAt d b).HasKind .file := hk.file.mp hfile ▸ hk
  have hl := hkind.not_link_of_file
  refine ⟨hkind, hok.chain hl, ?_⟩
  rw [Tree.owned, if_neg hl, if_pos hfile]

theorem Tree.setChain_self : (T.setChain b ms).chain b = ms := Function.update_self ..

theorem Tree.setChain_of_ne {c : BlockNo} (h : c ≠ b) : (T.setChain b ms).chain c = T.chain c :=
  Function.update_of_ne h ..

/-- **A change of one file** keeps the shape. -/
theorem FileChange.shaped (hc : FileChange b ms T d d') (h : Shaped root T d) :
    Shaped root (T.setChain b ms) d' := by
  obtain ⟨hkind, -, -⟩ := h.file hc.mem hc.file
  have hnodir : (inodeAt d b).isDirectory = 0 := hkind.eq_zero.2.1 (by decide)
  have hne : ∀ c, (inodeAt d c).isDirectory ≠ 0 → c ≠ b := by
    rintro c hdir rfl
    exact hdir hnodir
  have hshown : ∀ c ∈ T.nodes, (inodeAt d' c).shown = (inodeAt d c).shown := by
    intro c hcT
    by_cases hcb : c = b
    · rw [hcb]
      exact hc.shown
    · exact (hc.kept c hcT hcb).shown
  -- No file is the parent of a node.
  have hlisted : ∀ c ∈ T.nodes, c ≠ root →
      HasEntry d' ((T.setChain b ms).chain (inodeAt d c).parent) c := by
    intro c hcT hroot
    have hok := h.node c hcT
    have hkept := hc.kept _ hok.parent (hne _ hok.parentDir)
    rw [hkept.chain, HasEntry.congr hkept.maps]
    exact hok.listed hroot
  have hpdir : ∀ c ∈ T.nodes, (inodeAt d' (inodeAt d c).parent).isDirectory ≠ 0 := by
    intro c hcT
    have hok := h.node c hcT
    rw [Inode.eq_of_shown (hshown _ hok.parent) Inode.isDirectory fun _ => rfl]
    exact hok.parentDir
  refine ⟨hc.separate, h.rootMem, ?_, ?_, ?_, fun c hcT => ?_⟩
  · rw [Inode.eq_of_shown (hshown root h.rootMem) Inode.name fun _ => rfl]
    exact h.rootName
  · rw [Inode.eq_of_shown (hshown root h.rootMem) Inode.isDirectory fun _ => rfl]
    exact h.rootDir
  · rw [Inode.eq_of_shown (hshown root h.rootMem) Inode.parent fun _ => rfl]
    exact h.rootParent
  · have hok := h.node c hcT
    by_cases hcb : c = b
    · subst hcb
      have hkind' : (inodeAt d' c).HasKind .file := (Inode.hasKind_shown hc.shown).mpr hkind
      have hnodir' : (inodeAt d' c).isDirectory = 0 := hkind'.eq_zero.2.1 (by decide)
      have hpar : (inodeAt d' c).parent = (inodeAt d c).parent :=
        Inode.eq_of_shown hc.shown Inode.parent fun _ => rfl
      refine ⟨?_, ⟨_, hkind'⟩, fun _ => ?_, fun hl => absurd hl hkind'.not_link_of_file, ?_, ?_, ?_,
        fun hdir => absurd hnodir' hdir, fun hdir => absurd hnodir' hdir⟩
      · rw [Inode.eq_of_shown hc.shown Inode.self fun _ => rfl]
        exact hok.self
      · rw [Tree.setChain_self]
        exact hc.linked
      · rw [hpar]
        exact hok.parent
      · rw [hpar]
        exact hpdir c hcT
      · rw [hpar]
        exact hlisted c hcT
    · exact (hc.kept c hcT hcb).node hok hok.parent (hpdir c hcT) (hlisted c hcT) fun e he hdir =>
        ⟨(hok.entries hdir e he).1, hshown e (hok.entries hdir e he).1⟩

end Change

/-! ## What is freed -/

/-- What a truncation of the file `b` should do: each block of the file is given back once and no
other one, these blocks are off the record and the rest of it is as before, and on disk only the
inode changes, to that of an empty file. -/
structure TruncatesFile (g : Shape) (dev : DevNo) (row : Fin inodeNrDev) (T : Tree) (b : BlockNo)
    (fuel : ℕ) (fs fs' : FsState Disk) : Prop where
  frees : ∃ l fs₁, truncateTrace flatStore dev fuel (inodeAt (fs.store dev) b).next
    { BlockMap.zero with next := (inodeAt (fs.store dev) b).next } fs = some (l, fs₁) ∧
      l.Perm (T.owned (fs.store dev) b)
  record : ∀ k x, g.Covers k x → recorded g dev row fs' k x =
    if k = .bmap ∧ x ∈ T.owned (fs.store dev) b then 0 else recorded g dev row fs k x
  size : (inodeAt (fs'.store dev) b).size = 0
  next : (inodeAt (fs'.store dev) b).next = inodeNull
  other : ∀ q, q ≠ b → fs'.store dev q = fs.store dev q

/-- The inode of a truncated file. -/
def Inode.emptied (n : Inode) (now : BlockNo) : Inode :=
  { n with accessedTime := now, modifiedTime := now, pos := 0, size := 0, next := inodeNull }

theorem Inode.shown_emptied (n : Inode) (now : BlockNo) : (n.emptied now).shown = n.shown := rfl

theorem Inode.next_emptied (n : Inode) (now : BlockNo) : (n.emptied now).next = inodeNull := rfl

theorem Inode.size_emptied (n : Inode) (now : BlockNo) : (n.emptied now).size = 0 := rfl

/-- The state after a truncation of the file `b`. -/
def truncatedFs (dev : DevNo) (now : BlockNo) (T : Tree) (b : BlockNo) (fs : FsState Disk) :
    FsState Disk :=
  (freedAll dev .bmap (truncated (fs.store dev) (T.chain b)) fs).write dev b
    (Inode.layout ((inodeAt (fs.store dev) b).emptied now))

section File
variable {g : Shape} {dev : DevNo} {row : Fin inodeNrDev} {T : Tree} {fs : FsState Disk}
  {b now : BlockNo} {fuel : ℕ}

theorem truncatedFs_store : (truncatedFs dev now T b fs).store dev =
    Function.update (fs.store dev) b (Inode.layout ((inodeAt (fs.store dev) b).emptied now)) := by
  rw [truncatedFs, FsState.write_store, freedAll_keeps]

theorem Stored.truncateTrace_file (h : Stored g dev row T fs) (hb : b ∈ T.nodes)
    (hfile : (inodeAt (fs.store dev) b).isFile ≠ 0) (hfuel : (T.chain b).length + 2 ≤ fuel) :
    truncateTrace flatStore dev fuel (inodeAt (fs.store dev) b).next
      { BlockMap.zero with next := (inodeAt (fs.store dev) b).next } fs =
        some (truncated (fs.store dev) (T.chain b),
          freedAll dev .bmap (truncated (fs.store dev) (T.chain b)) fs) := by
  have hl : Linked (fs.store dev) ({ BlockMap.zero with
      next := (inodeAt (fs.store dev) b).next } : BlockMap).next (T.chain b) :=
    (h.shaped.file hb hfile).2.1
  exact truncateTrace_flat rfl hl hfuel

theorem Stored.truncateLoop_file (h : Stored g dev row T fs) (hb : b ∈ T.nodes)
    (hfile : (inodeAt (fs.store dev) b).isFile ≠ 0) (hfuel : (T.chain b).length + 2 ≤ fuel) :
    truncateLoop flatStore dev fuel (inodeAt (fs.store dev) b).next
      { BlockMap.zero with next := (inodeAt (fs.store dev) b).next } fs =
        some (freedAll dev .bmap (truncated (fs.store dev) (T.chain b)) fs) := by
  rw [← truncateTrace_snd, h.truncateTrace_file hb hfile hfuel]
  rfl

/-- The record after the frees of the blocks of the file. -/
theorem Stored.recorded_truncatedFs (h : Stored g dev row T fs) (hb : b ∈ T.nodes)
    (hblocks : truncated (fs.store dev) (T.chain b) = T.owned (fs.store dev) b) {k : MapKind}
    {x : BlockNo} (hx : g.Covers k x) :
    recorded g dev row (truncatedFs dev now T b fs) k x =
      recorded g dev row (freedAll dev .bmap (T.owned (fs.store dev) b) fs) k x := by
  have hok := h.inUse.ok.freedAll (h.covers_owned hb)
  have hmap := h.clear.not_map .imap b (h.covers_node hb)
  rw [truncatedFs, hblocks]
  exact (SameBits.write hok hmap _).record x hx

/-- **A truncation does what it should**, if and only if the file has no chain or block 0 names no
block, and the frees stay in one map block. -/
theorem Stored.truncates_iff (h : Stored g dev row T fs) (hb : b ∈ T.nodes)
    (hfile : (inodeAt (fs.store dev) b).isFile ≠ 0) (hfuel : (T.chain b).length + 2 ≤ fuel) :
    TruncatesFile g dev row T b fuel fs (truncatedFs dev now T b fs) ↔
      (T.chain b = [] ∨ mapEntries (fs.store dev) inodeNull = []) ∧
        OneWindow g dev row fs .bmap (T.owned (fs.store dev) b) := by
  obtain ⟨-, -, hown⟩ := h.shaped.file hb hfile
  have htrace := h.truncateTrace_file hb hfile hfuel
  have hiff := freedAll_recorded_iff (k := .bmap) h.inUse (h.shaped.nodup b hb) fun x hx =>
    Tree.mem_held_bmap.mpr ⟨b, hb, hx⟩
  have hblocks : T.chain b = [] ∨ mapEntries (fs.store dev) inodeNull = [] →
      truncated (fs.store dev) (T.chain b) = T.owned (fs.store dev) b := fun hcase =>
    (truncated_eq hcase).trans hown.symm
  constructor
  · intro ht
    obtain ⟨l, fs₁, hrun, hperm⟩ := ht.frees
    rw [htrace] at hrun
    cases hrun
    rw [hown, truncated_perm_iff] at hperm
    refine ⟨hperm, hiff.mp fun x hx => ?_⟩
    have hrec := ht.record .bmap x hx
    rw [h.recorded_truncatedFs hb (hblocks hperm) hx] at hrec
    rw [hrec]
    refine if_congr ?_ rfl rfl
    simp
  · rintro ⟨hcase, hwin⟩
    refine ⟨⟨_, _, htrace, ?_⟩, fun k x hx => ?_, ?_, ?_, fun q hq => ?_⟩
    · rw [hblocks hcase]
    · rw [h.recorded_truncatedFs hb (hblocks hcase) hx]
      cases k with
      | imap =>
          rw [if_neg fun hc => absurd hc.1 (by decide)]
          exact (SameBits.freedAll_other h.inUse.ok (h.covers_owned hb) (by decide)).record x hx
      | bmap =>
          rw [hiff.mpr hwin x hx]
          refine if_congr ?_ rfl rfl
          simp
    · rw [truncatedFs_store, inodeAt_update, Inode.size_emptied]
    · rw [truncatedFs_store, inodeAt_update, Inode.next_emptied]
    · rw [truncatedFs_store, Function.update_of_ne hq]

/-- The blocks of a tree after a file has lost its chain. -/
theorem Tree.owned_setChain {d d' : Dev} (hfile : (inodeAt d b).HasKind .file)
    (hshown : (inodeAt d' b).shown = (inodeAt d b).shown)
    (hkept : ∀ c ∈ T.nodes, c ≠ b → NodeKept T (T.setChain b []) d d' c) :
    ∀ c ∈ T.nodes, (T.setChain b []).owned d' c = if c = b then [] else T.owned d c := by
  intro c hc
  by_cases hcb : c = b
  · have hkind : (inodeAt d' b).HasKind .file := (Inode.hasKind_shown hshown).mpr hfile
    rw [if_pos hcb, hcb, Tree.owned, if_neg hkind.not_link_of_file, Tree.setChain_self,
      fileBlocks_nil, ite_self]
  · rw [if_neg hcb, (hkept c hc hcb).owned_eq]

/-- The node is as before, apart from the file. -/
theorem Stored.kept_truncated (h : Stored g dev row T fs) (hb : b ∈ T.nodes) :
    ∀ c ∈ T.nodes, c ≠ b → NodeKept T (T.setChain b []) (fs.store dev)
      ((truncatedFs dev now T b fs).store dev) c := by
  intro c hc hcb
  have hsame : inodeAt ((truncatedFs dev now T b fs).store dev) c = inodeAt (fs.store dev) c := by
    rw [truncatedFs_store, inodeAt_update_of_ne hcb]
  refine ⟨by rw [hsame], by rw [hsame], Tree.setChain_of_ne hcb, fun m hm => ?_⟩
  rw [truncatedFs_store, Function.update_of_ne (h.shaped.map_ne_node hc hm hb).symm]

theorem shown_truncated : (inodeAt ((truncatedFs dev now T b fs).store dev) b).shown =
    (inodeAt (fs.store dev) b).shown := by
  rw [truncatedFs_store, inodeAt_update, Inode.shown_emptied]

theorem Stored.owned_truncated (h : Stored g dev row T fs) (hb : b ∈ T.nodes)
    (hfile : (inodeAt (fs.store dev) b).isFile ≠ 0) :
    ∀ c ∈ T.nodes, (T.setChain b []).owned ((truncatedFs dev now T b fs).store dev) c =
      if c = b then [] else T.owned (fs.store dev) c :=
  Tree.owned_setChain (h.shaped.file hb hfile).1 shown_truncated (h.kept_truncated hb)

theorem Stored.shaped_truncated (h : Stored g dev row T fs) (hb : b ∈ T.nodes)
    (hfile : (inodeAt (fs.store dev) b).isFile ≠ 0) :
    Shaped (g.regionStart .imap) (T.setChain b []) ((truncatedFs dev now T b fs).store dev) := by
  have hchange : FileChange b [] T (fs.store dev) ((truncatedFs dev now T b fs).store dev) := by
    refine ⟨hb, hfile, shown_truncated, ?_, h.kept_truncated hb,
      h.shaped.toSeparate.mono fun a ha => ⟨ha, ?_⟩⟩
    · rw [truncatedFs_store, inodeAt_update]
      exact Inode.next_emptied ..
    · rw [h.owned_truncated hb hfile a ha]
      split
      · exact List.nil_sublist _
      · exact List.Sublist.refl _
  exact hchange.shaped h.shaped

/-- The blocks of the other nodes are in use. -/
theorem Stored.inUse_truncated (h : Stored g dev row T fs) (hb : b ∈ T.nodes)
    (hblocks : Fs.truncated (fs.store dev) (T.chain b) = T.owned (fs.store dev) b) :
    InUse g dev row ((T.held (fs.store dev)).remove .bmap (T.owned (fs.store dev) b))
      (truncatedFs dev now T b fs) := by
  have huse := (h.inUse.freedAll (k := .bmap) (h.shaped.nodup b hb) fun x hx =>
    Tree.mem_held_bmap.mpr ⟨b, hb, hx⟩).1
  rw [truncatedFs, hblocks]
  exact huse.write (h.clear.not_map .imap b (h.covers_node hb)) _

/-- **After a truncation that does what it should** the file is one without a chain, in a tree that
is otherwise as before. -/
theorem Stored.truncated (h : Stored g dev row T fs) (hb : b ∈ T.nodes)
    (hfile : (inodeAt (fs.store dev) b).isFile ≠ 0)
    (hcase : T.chain b = [] ∨ mapEntries (fs.store dev) inodeNull = []) :
    Stored g dev row (T.setChain b []) (truncatedFs dev now T b fs) := by
  obtain ⟨-, -, hown⟩ := h.shaped.file hb hfile
  have hblocks := (truncated_eq hcase).trans hown.symm
  refine ⟨h.clear, h.shaped_truncated hb hfile,
    (h.inUse_truncated hb hblocks).mono fun k x hx => ?_⟩
  refine BlockSets.mem_remove.mpr ?_
  cases k with
  | imap => exact ⟨fun hc => absurd hc.1 (by decide), hx⟩
  | bmap =>
      obtain ⟨c, hc, hxc⟩ := Tree.mem_held_bmap.mp hx
      rw [h.owned_truncated hb hfile c hc] at hxc
      split at hxc
      · cases hxc
      · rename_i hcb
        refine ⟨?_, Tree.mem_held_bmap.mpr ⟨c, hc, hxc⟩⟩
        rintro ⟨-, hxb⟩
        exact h.shaped.disjoint c hc b hb hcb hxc hxb

end File

/-! ## The open -/

section Open
variable {g : Shape} {row : Fin inodeNrDev} {T : Tree} {s s' : Sys Disk} {b now : BlockNo}
  {fuel fuel' : ℕ} {path : CStr} {flags perm : UInt32}

theorem hasFlag_oTrunc : hasFlag (flags ||| oTrunc) oTrunc = true := by
  have habsorb : (flags ||| oTrunc) &&& oTrunc = oTrunc := by
    apply UInt32.toBitVec_inj.mp
    rw [UInt32.toBitVec_and, UInt32.toBitVec_or]
    ext i hi
    rw [BitVec.getElem_and, BitVec.getElem_or]
    cases oTrunc.toBitVec[i]
    · rw [Bool.and_false]
    · rw [Bool.or_true, Bool.and_true]
  rw [hasFlag, habsorb]
  decide

theorem openMode_oTrunc : openMode (flags ||| oTrunc) = .rw := by
  rw [openMode, hasFlag_oTrunc, Bool.or_true, if_pos rfl]

theorem openInode_oTrunc {σ : Type} {L : BlockLayer σ} {dev : DevNo} {n : Inode}
    {fs fs' : FsState σ} (hflag : hasFlag flags oTrunc = true)
    (hloop : truncateLoop L dev fuel n.next { BlockMap.zero with next := n.next } fs = some fs') :
    openInode L fuel now dev flags n fs =
      some (({ n.emptied now with oMode := n.oMode ||| accessFlag flags } : Inode).opened dev 0,
        { fs' with
          store := (L.blockWrite dev n.self (Inode.layout (n.emptied now)) fs'.store).2 }) := by
  rw [openInode, if_pos hflag]
  refine Option.bind_eq_some_iff.mpr ⟨fs', hloop, ?_⟩
  show some (Inode.opened _ dev (if hasFlag flags oAppend then 0 else 0), _) = _
  rw [ite_self]
  rfl

/-- An open that finds an inode and changes the file system ends, with a descriptor or without. -/
theorem openWith_ends {σ : Type} {L : BlockLayer σ} {s : Sys σ} {n n' : Inode} {fs : FsState σ}
    (hfind : openFind L perm fuel now path flags s = some (.ok n, s))
    (hopen : openInode L fuel now (masterGetDev s) flags n s.fs = some (n', fs)) :
    ∃ w s', openWith L perm fuel now path flags s = some (w, s') ∧ s'.fs = fs := by
  cases halloc : s.proc.allocDescriptor with
  | none =>
      refine ⟨-1, { s with fs := fs }, ?_, rfl⟩
      refine Option.bind_eq_some_iff.mpr ⟨_, hfind, Option.bind_eq_some_iff.mpr ⟨_, hopen, ?_⟩⟩
      dsimp only
      rw [halloc]
      rfl
  | some a =>
      obtain ⟨w, t, p⟩ := a
      refine ⟨w, { s with fs := fs, proc := p.setInode t n' }, ?_, rfl⟩
      refine Option.bind_eq_some_iff.mpr ⟨_, hfind, Option.bind_eq_some_iff.mpr ⟨_, hopen, ?_⟩⟩
      dsimp only
      rw [halloc]
      rfl

/-- A lookup that ends at a file ends there with more rounds too. -/
theorem Stored.get_more (h : Stored g (masterGetDev s) row T s.fs) {doReadlink : Bool}
    {mode : InodeMode} {n : Inode}
    (hget : s.get flatStore fuel now path doReadlink mode = some (.ok n, s'))
    (hfuel : fuel + T.maxLength ≤ fuel') :
    s.get flatStore fuel' now path doReadlink mode = some (.ok n, s) := by
  have hst : Stored g (masterGetDev s) row T s.toNames.fs := h
  obtain ⟨t, hrun, -⟩ := Sys.get_ok.mp hget
  have hgo : Lib.Call.Mirrors (SameNode s.toNames s.toNames (masterGetDev s) T.nodes)
      (inodeGet flatStore (masterGetDev s) s.proc.cred now fuel s.proc.cwd path doReadlink mode)
      s.toNames
      (inodeGet flatStore (masterGetDev s) s.proc.cred now fuel' s.proc.cwd path doReadlink mode)
      s.toNames :=
    hst.shows.mirrors_inodeGet hfuel (samePath_self s.toNames s.proc.cwd path) doReadlink mode
  obtain ⟨-, n', hmore, c, -, hn, hn'⟩ := hgo n t hrun
  rw [← hn] at hn'
  rw [hn'] at hmore
  exact Sys.get_ok.mpr ⟨_, hmore, rfl⟩

/-- **An open with `O_TRUNC`** of a file ends, and has truncated the file. -/
theorem Stored.openWith_oTrunc (h : Stored g (masterGetDev s) row T s.fs) (hb : b ∈ T.nodes)
    (hfile : (inodeAt (s.fs.store (masterGetDev s)) b).isFile ≠ 0)
    (hget : s.get flatStore fuel now path true .rw =
      some (.ok (inodeAt (s.fs.store (masterGetDev s)) b), s'))
    (hfuel : fuel + T.maxLength + 2 ≤ fuel') :
    ∃ w s'', openWith flatStore perm fuel' now path (flags ||| oTrunc) s = some (w, s'') ∧
      s''.fs = truncatedFs (masterGetDev s) now T b s.fs := by
  have hchain := Tree.length_le hb
  have hmax : fuel + T.maxLength ≤ fuel' := by omega
  have hlen : (T.chain b).length + 2 ≤ fuel' := by omega
  have hfind : openFind flatStore perm fuel' now path (flags ||| oTrunc) s =
      some (.ok (inodeAt (s.fs.store (masterGetDev s)) b), s) := by
    rw [openFind, openMode_oTrunc, h.get_more hget hmax]
    rfl
  have hopen := @openInode_oTrunc now fuel' (flags ||| oTrunc) _ _ _ _ _ _ hasFlag_oTrunc
    (h.truncateLoop_file hb hfile hlen)
  rw [(h.shaped.node b hb).self] at hopen
  exact openWith_ends hfind hopen

/-- **The law of `O_TRUNC`**, for `kopen` and `kopen2`. The open ends, and it frees each block of
the file once and no other, leaves the rest as it was and the file empty, if and only if the file
has no chain or block 0 names no block, and the frees stay in one map block. -/
theorem truncate_law_iff (h : Stored g (masterGetDev s) row T s.fs) (hb : b ∈ T.nodes)
    (hfile : (inodeAt (s.fs.store (masterGetDev s)) b).isFile ≠ 0)
    (hget : s.get flatStore fuel now path true .rw =
      some (.ok (inodeAt (s.fs.store (masterGetDev s)) b), s'))
    (hfuel : fuel + T.maxLength + 2 ≤ fuel') :
    ∃ w s'', openWith flatStore perm fuel' now path (flags ||| oTrunc) s = some (w, s'') ∧
      (TruncatesFile g (masterGetDev s) row T b fuel' s.fs s''.fs ↔
        (T.chain b = [] ∨ mapEntries (s.fs.store (masterGetDev s)) inodeNull = []) ∧
          OneWindow g (masterGetDev s) row s.fs .bmap
            (T.owned (s.fs.store (masterGetDev s)) b)) := by
  obtain ⟨w, s'', hrun, hfs⟩ := h.openWith_oTrunc hb hfile hget hfuel
  have hchain := Tree.length_le hb
  have hlen : (T.chain b).length + 2 ≤ fuel' := by omega
  refine ⟨w, s'', hrun, ?_⟩
  rw [hfs]
  exact h.truncates_iff hb hfile hlen

end Open

/-! ## A file with one block -/

/-- The file `t` without a chain. -/
def fileT : Inode := { newInode 0 [116] 511 0 0 0 4101 4100 with isFile := 1 }

/-- A volume with the file `t`, which has one block, and with words in block 0. -/
def chainVolume (words : List BlockNo) : FsState Disk :=
  (leafVolume [fileT] []).writes 0
    [(0, BlockMap.layout (listMap words)), (4101, Inode.layout { fileT with next := 6149 }),
      (6149, BlockMap.layout (listMap [6150]))]

/-- The tree on it. -/
def chainTree : Tree := (leafTree [fileT]).setChain 4101 [6149]

theorem fileT_name : fileT.name = [116] := cstr_strcpy (.of_all (by decide) (by decide))

theorem fileT_kind : fileT.HasKind .file := ⟨by decide, by decide, by decide, by decide⟩

theorem leavesOk_fileT : LeavesOk [fileT] [] := by
  have hlink := fileT_kind.not_link_of_file
  refine ⟨?_, ?_, by decide, by decide, ?_, ?_, ?_, ?_, ?_, ?_⟩
  · exact List.forall_mem_singleton.mpr (by decide)
  · intro w hw
    cases hw
  · exact List.forall_mem_singleton.mpr (by decide)
  · exact List.forall_mem_singleton.mpr ⟨_, fileT_kind, by decide⟩
  · exact List.forall_mem_singleton.mpr fun _ => rfl
  · exact List.forall_mem_singleton.mpr fun hl => absurd hl hlink
  · exact List.forall_mem_singleton.mpr (List.forall_mem_singleton.mpr fun hl => absurd hl hlink)
  · exact List.forall_mem_singleton.mpr (List.forall_mem_singleton.mpr fun _ => rfl)

section Example
variable {words : List BlockNo}

theorem chainVolume_store {w : BlockNo × Sector}
    (hw : w ∈ [((0 : BlockNo), BlockMap.layout (listMap words)),
      (4101, Inode.layout { fileT with next := 6149 }), (6149, BlockMap.layout (listMap [6150]))]) :
    (chainVolume words).store 0 w.1 = w.2 := by
  refine FsState.writes_store ?_ hw
  show ([0, 4101, 6149] : List BlockNo).Nodup
  decide

theorem chainVolume_contents :
    mapAt ((chainVolume words).store 0) 0 = listMap words ∧
      inodeAt ((chainVolume words).store 0) 4101 = { fileT with next := 6149 } ∧
      mapAt ((chainVolume words).store 0) 6149 = listMap [6150] := by
  have hzero := @chainVolume_store words _ List.mem_cons_self
  have hnode := @chainVolume_store words _ (List.mem_cons_of_mem _ List.mem_cons_self)
  have hmap := @chainVolume_store words _
    (List.mem_cons_of_mem _ (List.mem_cons_of_mem _ List.mem_cons_self))
  refine ⟨?_, ?_, ?_⟩
  · rw [mapAt, hzero, Equiv.symm_apply_apply]
  · rw [inodeAt, hnode, Equiv.symm_apply_apply]
  · rw [mapAt, hmap, Equiv.symm_apply_apply]

theorem chainVolume_other {q : BlockNo} (hq : q ∉ ([0, 4101, 6149] : List BlockNo)) :
    (chainVolume words).store 0 q = (leafVolume [fileT] []).store 0 q :=
  FsState.writes_of_not_mem hq

theorem mapEntries_zero :
    mapEntries ((chainVolume words).store 0) inodeNull = (listMap words).entries := by
  show ((mapAt ((chainVolume words).store 0) 0).entries) = _
  rw [chainVolume_contents.1]

theorem entries_single : (listMap [6150]).entries = [6150] := by decide +kernel

theorem chainVolume_kept (c : BlockNo) (hc : c ∈ (leafTree [fileT]).nodes) (hne : c ≠ 4101) :
    NodeKept (leafTree [fileT]) chainTree ((leafVolume [fileT] []).store 0)
      ((chainVolume words).store 0) c := by
  have hc : c ∈ ({4100, 4101} : Finset BlockNo) := hc
  obtain rfl : c = 4100 := by
    rcases Finset.mem_insert.mp hc with h | h
    · exact h
    · exact absurd (Finset.mem_singleton.mp h) hne
  have hsame : inodeAt ((chainVolume words).store 0) 4100 =
      inodeAt ((leafVolume [fileT] []).store 0) 4100 := by
    rw [inodeAt, chainVolume_other (by decide), inodeAt]
  refine ⟨by rw [hsame], by rw [hsame], Tree.setChain_of_ne (by decide), fun m hm => ?_⟩
  obtain rfl : m = 6148 := List.mem_singleton.mp hm
  exact chainVolume_other (by decide)

/-- The blocks of the two nodes. -/
theorem chainVolume_owned :
    chainTree.owned ((chainVolume words).store 0) 4100 = [6148] ∧
      chainTree.owned ((chainVolume words).store 0) 4101 = [6150, 6149] := by
  obtain ⟨-, hnode, hmap⟩ := @chainVolume_contents words
  constructor
  · rw [(chainVolume_kept 4100 (by decide) (by decide)).owned_eq, leafTree,
      owned_flatTree leavesOk_fileT.rootKind (by decide) (by decide)]
    exact if_pos rfl
  · have hkind : (inodeAt ((chainVolume words).store 0) 4101).HasKind .file := by
      rw [hnode]
      exact ⟨by decide, by decide, by decide, by decide⟩
    have hentries : mapEntries ((chainVolume words).store 0) 6149 = [6150] := by
      show (mapAt ((chainVolume words).store 0) 6149).entries = [6150]
      rw [hmap, entries_single]
    rw [Tree.owned, if_neg hkind.not_link_of_file, if_pos (hkind.file.mpr rfl), chainTree,
      Tree.setChain_self, fileBlocks_cons, hentries, fileBlocks_nil]
    rfl

theorem chainTree_cases {c : BlockNo} (h : c ∈ chainTree.nodes) : c = 4100 ∨ c = 4101 := by
  have h : c ∈ ({4100, 4101} : Finset BlockNo) := h
  simpa using h

theorem chainVolume_separate : Separate chainTree ((chainVolume words).store 0) := by
  obtain ⟨hroot, hfile⟩ := @chainVolume_owned words
  constructor
  · intro a ha b hb
    rcases chainTree_cases ha with rfl | rfl
    · rw [hroot]
      rcases chainTree_cases hb with rfl | rfl <;> decide
    · rw [hfile]
      rcases chainTree_cases hb with rfl | rfl <;> decide
  · intro a ha b hb hab
    rcases chainTree_cases ha with rfl | rfl <;> rcases chainTree_cases hb with rfl | rfl
    · exact absurd rfl hab
    · rw [hroot, hfile]
      exact List.singleton_disjoint.mpr (by decide)
    · rw [hroot, hfile]
      exact List.disjoint_singleton.mpr (by decide)
    · exact absurd rfl hab
  · intro a ha
    rcases chainTree_cases ha with rfl | rfl
    · rw [hroot]
      decide
    · rw [hfile]
      decide

theorem chainVolume_shaped : Shaped 4100 chainTree ((chainVolume words).store 0) := by
  obtain ⟨-, hnode, hmap⟩ := @chainVolume_contents words
  have hold : inodeAt ((leafVolume [fileT] []).store 0) 4101 = fileT := by
    have hself : fileT.self = 4101 := rfl
    rw [← hself]
    exact leavesOk_fileT.node (List.mem_singleton_self _)
  have hchange : FileChange 4101 [6149] (leafTree [fileT]) ((leafVolume [fileT] []).store 0)
      ((chainVolume words).store 0) := by
    refine ⟨by decide, ?_, ?_, ?_, chainVolume_kept, chainVolume_separate⟩
    · rw [hold]
      decide
    · rw [hnode, hold]
      rfl
    · rw [hnode]
      refine ⟨rfl, by decide, ?_⟩
      rw [hmap]
      rfl
  exact hchange.shaped leavesOk_fileT.shaped

theorem chainVolume_stored :
    Stored (volumeShape (5242880 / 512)) 0 0 chainTree (chainVolume words) := by
  obtain ⟨hroot, hfile⟩ := @chainVolume_owned words
  refine ⟨volumeShape_clear (by decide), ?_, InUse.writes (leavesOk_fileT.inUse (fun b hb => ?_)
    fun b hb => ?_) fun w hw k => ?_⟩
  · rw [shape_10240.1]
    exact chainVolume_shaped
  · rcases chainTree_cases hb with rfl | rfl <;> decide
  · obtain ⟨c, hc, hbc⟩ := Tree.mem_held_bmap.mp hb
    rcases chainTree_cases hc with rfl | rfl
    · rw [hroot] at hbc
      rw [List.mem_singleton.mp hbc]
      decide
    · rw [hfile] at hbc
      rcases List.mem_pair.mp hbc with rfl | rfl <;> decide
  · have hmem : w.1 ∈ ([0, 4101, 6149] : List BlockNo) := List.mem_map_of_mem hw
    simp only [List.mem_cons, List.not_mem_nil, or_false] at hmem
    rcases hmem with h | h | h <;> rw [h]
    · cases k <;> decide
    · exact not_inMap_10240 (by decide) k
    · exact not_inMap_10240 (by decide) k

/-- A process in the root directory. -/
def chainSys (words : List BlockNo) : Sys Disk :=
  { Sys.start (chainVolume words) with proc := { Proc.zero with cwd := 4100 } }

theorem chainSys_stored : Stored (volumeShape (5242880 / 512)) (masterGetDev (chainSys words)) 0
    chainTree (chainSys words).fs := chainVolume_stored

theorem chainSys_file :
    (inodeAt ((chainSys words).fs.store (masterGetDev (chainSys words))) 4101).isFile ≠ 0 := by
  have hnode := (@chainVolume_contents words).2.1
  show (inodeAt ((chainVolume words).store 0) 4101).isFile ≠ 0
  rw [hnode]
  decide

/-- The lookup of `/t`. -/
theorem chainSys_get : (chainSys words).get flatStore 2 0 [slash, 116] true .rw =
    some (.ok (inodeAt ((chainSys words).fs.store (masterGetDev (chainSys words))) 4101),
      chainSys words) := by
  have hst : Stored (volumeShape (5242880 / 512)) 0 0 chainTree
      (⟨chainVolume words, 0⟩ : Names Disk).fs := chainVolume_stored
  have hnode := (@chainVolume_contents words).2.1
  have hroot : inodeAt ((chainVolume words).store 0) 4100 =
      { Inode.zero.asRoot 0 0 4100 with next := 6148 } := by
    rw [inodeAt, chainVolume_other (by decide)]
    exact leavesOk_fileT.root
  have hname : (inodeAt ((chainVolume words).store 0) 4101).name = [116] := by
    rw [hnode]
    exact fileT_name
  have hentry : HasEntry ((chainVolume words).store 0) [6148] 4101 := by
    refine (HasEntry.congr fun m hm => ?_).mpr (leavesOk_fileT.hasEntry.mpr List.mem_cons_self)
    rw [List.mem_singleton.mp hm]
    exact chainVolume_other (by decide)
  have hdist : EntriesOk ((chainVolume words).store 0) [6148] := by
    refine (chainVolume_shaped.node 4100 (by decide)).distinct ?_
    rw [hroot]
    decide
  have hent := hdist.namedEntry_eq hentry
  rw [hname] at hent
  have hkind : (inodeAt ((chainVolume words).store 0) 4101).HasKind .file := by
    rw [hnode]
    exact ⟨by decide, by decide, by decide, by decide⟩
  have hchain : chainTree.chain ((volumeShape (5242880 / 512)).regionStart .imap) = [6148] := by
    rw [shape_10240.1]
    rfl
  have hget := @Stored.inodeGet_entry _ _ _ _ _ hst ⟨0, 0⟩ 0 4100 4101 1 [slash, 116] [116] true .rw
    rfl (by decide) (by decide +kernel) ?_ (hchain ▸ hent)
    (fun hc => hkind.not_link_of_file hc.1) ?_ (by rw [hchain]; decide)
  · exact Sys.get_ok.mpr ⟨_, hget, rfl⟩
  · rw [shape_10240.1, hroot]
    right
    right
    right
    decide
  · rw [hnode]
    right
    right
    right
    decide

end Example

/-- The block map of the root directory is freed with the file if block 0 names it. -/
theorem truncate_frees_root_map :
    ∃ w s', kopen flatStore 6 0 [slash, 116] (oRdwr ||| oTrunc) (chainSys [6148]) = some (w, s') ∧
      ¬ TruncatesFile (volumeShape (5242880 / 512)) 0 0 chainTree 4101 6 (chainSys [6148]).fs
        s'.fs := by
  have hst := @chainSys_stored [6148]
  obtain ⟨w, s', hrun, hfs⟩ := hst.openWith_oTrunc (by decide) chainSys_file chainSys_get
    (show 2 + chainTree.maxLength + 2 ≤ 6 by decide)
  refine ⟨w, s', hrun, ?_⟩
  rw [hfs]
  intro ht
  rcases ((hst.truncates_iff (by decide) chainSys_file (by decide)).mp ht).1 with h | h
  · exact absurd h (by decide)
  · have hzero : (listMap [6148]).entries = [] := mapEntries_zero.symm.trans h
    exact absurd hzero (by decide +kernel)

/-- The file is truncated if block 0 has no words. -/
theorem truncate_law_empty_block :
    ∃ w s', kopen flatStore 6 0 [slash, 116] (oRdwr ||| oTrunc) (chainSys []) = some (w, s') ∧
      TruncatesFile (volumeShape (5242880 / 512)) 0 0 chainTree 4101 6 (chainSys []).fs s'.fs := by
  obtain ⟨w, s', hrun, hlaw⟩ := @truncate_law_iff _ _ _ _ _ 4101 0 2 6 [slash, 116] oRdwr
    (openPerm (oRdwr ||| oTrunc)) (@chainSys_stored []) (by decide) chainSys_file chainSys_get
    (by decide)
  have hptr : ((chainVolume []).masterTab 0).ptr .bmap =
      (volumeShape (5242880 / 512)).mapStart .bmap := (mountedVolume_fresh rfl).ptr .bmap
  have hzero : (listMap []).entries = [] := by decide +kernel
  refine ⟨w, s', hrun, hlaw.mpr ⟨Or.inr (mapEntries_zero.trans hzero), Or.inr ⟨_, fun b hb => ?_,
    Or.inl hptr.symm⟩⟩⟩
  have hb : b ∈ chainTree.owned ((chainVolume []).store 0) 4101 := hb
  rw [chainVolume_owned.2] at hb
  rcases List.mem_pair.mp hb with rfl | rfl <;> decide

end OxKernel.Fs
