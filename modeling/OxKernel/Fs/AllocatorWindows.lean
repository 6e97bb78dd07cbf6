import OxKernel.Fs.AllocatorFailures

/-!
# The windows when requests fail

A get sets its bit in the window before the two writes that may fail, and every call sets the
map pointer before the read that may fail and fills the window. So a failed write leaves a bit
marked for a block that nobody has, and a failed read leaves the window of one map block under
the number of another. Where the requests of every call are served the windows hold the
contents of their map blocks, but for the bits of freed blocks, and a call that fails leaves
both maps as they are.

## Main definitions

* `WindowsOk` — the windows hold their map blocks up to the freed bits.
* `Unmarked`, `WroteOwn` — what a failed call, and any call, may do to the maps.
* `Caller`, `attemptMachine`, `Served` — runs of calls, and the condition on a call.
-/
namespace OxKernel.Fs

/-! ## What a call may do -/

/-- Bit `i` of map block `p` is the bit of block `b`. -/
def Shape.IsBitOf (g : Shape) (k : MapKind) (b p : BlockNo) (i : ℕ) : Prop :=
  g.ptrOf k b = p ∧ (g.bitOf k b).toNat = i

/-- The window `w` holds the contents `d` of map block `p`, but that the bits of some blocks
of `freed` are clear. -/
def Agrees (g : Shape) (k : MapKind) (p : BlockNo) (freed : Finset BlockNo) (w d : Sector) : Prop :=
  ∀ i, bitGet w i = bitGet d i ∨ bitGet w i = 0 ∧ ∃ b ∈ freed, g.IsBitOf k b p i

/-- Both windows hold the contents of the map blocks that the pointers name. -/
structure WindowsOk (g : Shape) (dev : DevNo) (row : Fin inodeNrDev) (s : FsState Disk)
    (freed : MapKind → Finset BlockNo) : Prop where
  ok : MapsOk g dev row s
  agrees : ∀ k, Agrees g k ((s.masterTab row).ptr k) (freed k) (s.window k row)
    (s.store dev ((s.masterTab row).ptr k))

/-- Map block `p` as the driver has it: in the window, or on disk. -/
def mapSector (dev : DevNo) (row : Fin inodeNrDev) (k : MapKind) (s : FsState Disk) (p : BlockNo) :
    Sector :=
  if p = (s.masterTab row).ptr k then s.window k row else s.store dev p

/-- The maps of `s'` are those of `s`, on disk and as the driver has them. -/
def Unmarked (g : Shape) (dev : DevNo) (row : Fin inodeNrDev) (s s' : FsState Disk) : Prop :=
  ∀ k p, g.InMap k p →
    mapSector dev row k s' p = mapSector dev row k s p ∧ s'.store dev p = s.store dev p

/-- Where the maps of `s'` differ on disk from those of `s`, the bit is that of a taken block,
and set now, or that of a freed block, and clear now. -/
def WroteOwn (g : Shape) (dev : DevNo) (taken : MapKind → BlockNo → Prop)
    (freed : MapKind → Finset BlockNo) (s s' : FsState Disk) : Prop :=
  ∀ k p i, g.InMap k p →
    bitGet (s'.store dev p) i = bitGet (s.store dev p) i ∨
      bitGet (s'.store dev p) i = 1 ∧ (∃ b, taken k b ∧ g.IsBitOf k b p i) ∨
      bitGet (s'.store dev p) i = 0 ∧ ∃ b ∈ freed k, g.IsBitOf k b p i

section Windows
variable {g : Shape} {k : MapKind} {dev : DevNo} {row : Fin inodeNrDev} {s : FsState Disk}
  {freed : MapKind → Finset BlockNo} {p i : BlockNo} {w : Sector}

theorem Agrees.refl {F : Finset BlockNo} (d : Sector) : Agrees g k p F d d := fun _ => .inl rfl

/-- A bit that is clear on disk is not set in the window. -/
theorem WindowsOk.not_set (h : WindowsOk g dev row s freed) {i : ℕ}
    (h1 : bitGet (s.window k row) i = 1)
    (h0 : bitGet (s.store dev ((s.masterTab row).ptr k)) i = 0) : False := by
  rcases h.agrees k i with heq | ⟨hzero, -⟩
  · omega
  · omega

/-- A window that is not the map block on disk has a clear bit at its cursor: a free was the
last call that changed it. -/
structure CursorsOk (g : Shape) (dev : DevNo) (row : Fin inodeNrDev) (s : FsState Disk)
    (freed : MapKind → Finset BlockNo) : Prop extends WindowsOk g dev row s freed where
  cursor : ∀ k, s.window k row = s.store dev ((s.masterTab row).ptr k) ∨
    bitGet (s.window k row) ((s.masterTab row).bit k).toNat = 0

theorem Mounted.cursorsOk (h : Mounted g dev row s) : CursorsOk g dev row s freed where
  ok := h.toMapsOk
  agrees k := by
    rw [h.loaded k]
    exact .refl _
  cursor k := .inl (h.loaded k)

/-- A scan that has passed the cursor has the contents of the disk. -/
theorem CursorsOk.clean (h : CursorsOk g dev row s freed) (hc : CursorSet k row s) :
    s.window k row = s.store dev ((s.masterTab row).ptr k) := by
  rcases h.cursor k with hw | h0
  · exact hw
  · rw [CursorSet] at hc
    omega

theorem CursorsOk.seen (h : CursorsOk g dev row s freed) (hc : CursorSet k row s)
    (hw : Seen k dev row s p w) : w = s.store dev p := by
  rcases hw with ⟨rfl, rfl⟩ | ⟨-, rfl⟩
  · exact h.clean hc
  · rfl

theorem mapSector_of_clean (h : s.window k row = s.store dev ((s.masterTab row).ptr k))
    (p : BlockNo) : mapSector dev row k s p = s.store dev p := by
  rw [mapSector]
  split
  · rename_i hp
    rw [h, hp]
  · rfl

theorem mapSector_scanned_other {k' : MapKind} (hk : k' ≠ k) (q : BlockNo) :
    mapSector dev row k' (scanned s k row p i w) q = mapSector dev row k' s q := by
  rw [mapSector, scanned_ptr_other hk, scanned_window_other hk, scanned_store, mapSector]

/-- The window has moved to other contents that agree with the disk. -/
theorem CursorsOk.moved (h : CursorsOk g dev row s freed) {freed' : MapKind → Finset BlockNo}
    (hp : g.InMap k p) (hi : i.toNat < 512) (hw : Agrees g k p (freed' k) w (s.store dev p))
    (hcur : w = s.store dev p ∨ bitGet w i.toNat = 0) (hF : ∀ k', k' ≠ k → freed' k' = freed k') :
    CursorsOk g dev row (scanned s k row p i w) freed' where
  ok := h.ok.scanned hp hi
  agrees k' := by
    by_cases hk : k' = k
    · subst hk
      rw [scanned_ptr, scanned_window, scanned_store]
      exact hw
    · rw [scanned_ptr_other hk, scanned_window_other hk, scanned_store, hF k' hk]
      exact h.agrees k'
  cursor k' := by
    by_cases hk : k' = k
    · subst hk
      rw [scanned_ptr, scanned_window, scanned_store, scanned_bit]
      exact hcur
    · rw [scanned_ptr_other hk, scanned_window_other hk, scanned_store, scanned_bit_other hk]
      exact h.cursor k'

/-- **A get that fails** leaves the maps as they are: the scan has loaded what is on disk. -/
theorem CursorsOk.failed (h : CursorsOk g dev row s freed) (hc : CursorSet k row s)
    (hp : g.InMap k p) (hw : w = s.store dev p) :
    CursorsOk g dev row (scanned s k row p 0 w) freed ∧
      Unmarked g dev row s (scanned s k row p 0 w) := by
  subst hw
  refine ⟨h.moved hp (by decide) (.refl _) (.inl rfl) fun _ _ => rfl, fun k' q hq => ⟨?_, rfl⟩⟩
  by_cases hk : k' = k
  · subst hk
    rw [mapSector_of_clean (h.clean hc) q, mapSector_of_clean (by simp), scanned_store]
  · exact mapSector_scanned_other hk q

/-- **A get that succeeds** has one more bit set, in the window and on disk. -/
theorem CursorsOk.taken (h : CursorsOk g dev row s freed) {freed' : MapKind → Finset BlockNo}
    (hp : g.InMap k p) (hi : i.toNat < 512) (hF : ∀ k', k' ≠ k → freed' k' = freed k') :
    CursorsOk g dev row (afterTake g k dev row s p i w) freed' := by
  have hg := h.ok.sound
  have hself : (afterTake g k dev row s p i w).store dev p = bitSet w i.toNat 1 := by
    rw [afterTake_store (InMap.ne_blockStart hg hp), if_pos rfl]
  have hother : ∀ k', k' ≠ k → (afterTake g k dev row s p i w).store dev
      ((s.masterTab row).ptr k') = s.store dev ((s.masterTab row).ptr k') := by
    intro k' hk
    rw [afterTake_store (InMap.ne_blockStart hg (h.ok.ptr k')),
      if_neg (InMap.ne_of_ne hg hp (h.ok.ptr k') hk)]
  refine ⟨⟨h.ok.afterTake hp hi, fun k' => ?_⟩, fun k' => ?_⟩
  · by_cases hk : k' = k
    · subst hk
      rw [afterTake_ptr, afterTake_window, hself]
      exact .refl _
    · rw [afterTake_ptr_other hk, afterTake_window_other hk, hother k' hk, hF k' hk]
      exact h.agrees k'
  · by_cases hk : k' = k
    · subst hk
      left
      rw [afterTake_ptr, afterTake_window, hself]
    · rw [afterTake_ptr_other hk, afterTake_window_other hk, hother k' hk,
        afterTake_bit_other hk]
      exact h.cursor k'

/-- What a get that succeeds has recorded on disk. -/
theorem CursorsOk.wroteOwn (h : CursorsOk g dev row s freed) {taken : MapKind → BlockNo → Prop}
    (hp : g.InMap k p) (hi : i.toNat < 512) (hw : Seen k dev row s p w)
    (ht : taken k (g.blockAt k p i)) :
    WroteOwn g dev taken freed s (afterTake g k dev row s p i w) := by
  intro k' q j hq
  have hg := h.ok.sound
  rw [afterTake_store (InMap.ne_blockStart hg hq)]
  by_cases hqp : q = p
  · subst hqp
    have hk : k' = k := by
      by_contra hk
      exact InMap.ne_of_ne hg hp hq hk rfl
    subst hk
    rw [if_pos rfl]
    by_cases hj : j = i.toNat
    · -- The bit of the block that the get returns.
      right
      left
      subst hj
      refine ⟨bitGet_bitSet_self (by simp only [devBlockSize]; omega) (.inr rfl), _, ht, ?_, ?_⟩
      · exact Shape.ptrOf_blockAt hg hp hi
      · rw [Shape.bitOf_blockAt hg hp hi]
    · -- Another bit of the window, which may be that of a freed block.
      rw [bitGet_bitSet_of_ne hj]
      rcases hw with ⟨rfl, rfl⟩ | ⟨-, rfl⟩
      · exact (h.agrees k' j).imp_right .inr
      · exact .inl rfl
  · rw [if_neg hqp]
    exact .inl rfl

/-- **A free** has cleared the bit of its block in the window. -/
theorem CursorsOk.cleared (h : CursorsOk g dev row s freed) {freed' : MapKind → Finset BlockNo}
    {b : BlockNo} (hb : g.Covers k b) (h0 : bitGet w (g.bitOf k b).toNat = 0)
    (hsame : ∀ i, i ≠ (g.bitOf k b).toNat →
      bitGet w i = bitGet (if g.ptrOf k b = (s.masterTab row).ptr k then s.window k row
        else s.store dev (g.ptrOf k b)) i)
    (hF : ∀ k', k' ≠ k → freed' k' = freed k') (hFk : freed' k = insert b (freed k)) :
    CursorsOk g dev row (scanned s k row (g.ptrOf k b) (g.bitOf k b) w) freed' := by
  refine h.moved (Shape.inMap_ptrOf h.ok.sound hb) (Shape.bitOf_lt hb) ?_ (.inr h0) hF
  intro i
  rw [hFk]
  by_cases hi : i = (g.bitOf k b).toNat
  · subst hi
    exact .inr ⟨h0, b, Finset.mem_insert_self b _, rfl, rfl⟩
  · rw [hsame i hi]
    split
    · rename_i hp
      rw [hp]
      refine (h.agrees k i).imp_right fun ⟨hz, a, ha, hbit⟩ => ?_
      exact ⟨hz, a, Finset.mem_insert_of_mem ha, hbit⟩
    · exact .inl rfl

end Windows

/-! ## Runs of calls -/

theorem GetResult.of_forget {r : GetResult Flaky} {v : InodeRtvl} {b : BlockNo} {s : FsState Disk}
    (h : r.forget = (v, b, s)) : ∃ fs, r = (v, b, fs) ∧ fs.forget = s := by
  obtain ⟨v', b', fs⟩ := r
  cases h
  exact ⟨fs, rfl, rfl⟩

/-- The caller of the allocators of one device. -/
structure Caller where
  fs : FsState Flaky
  /-- The blocks freed and not returned by a get since. -/
  freed : MapKind → Finset BlockNo

/-- A caller that has not made a call yet. -/
def Caller.start (fs : FsState Flaky) : Caller := ⟨fs, fun _ => ∅⟩

/-- The coming requests are served as `serves` says, and none has been refused yet. -/
def FsState.serving (serves : ℕ → Bool) (s : FsState Flaky) : FsState Flaky :=
  { s with store := { s.store with serves := serves, refused := [] } }

/-- `inode_get_inode_block` or `inode_get_data_block`. -/
def tryGetBlock : MapKind → DevNo → BlockNo → FsState Flaky → GetResult Flaky
  | .imap => inodeGetInodeBlock flakyStore
  | .bmap => inodeGetDataBlock flakyStore

/-- `inode_free_inode_block` or `inode_free_data_block`. -/
def tryFreeBlock : MapKind → DevNo → BlockNo → FsState Flaky → InodeRtvl × FsState Flaky
  | .imap => inodeFreeInodeBlock flakyStore
  | .bmap => inodeFreeDataBlock flakyStore

theorem tryGetBlock_eq (k : MapKind) : tryGetBlock k = getBlock flakyStore k := by
  cases k <;> rfl

theorem tryFreeBlock_eq (k : MapKind) : tryFreeBlock k = freeBlock flakyStore k := by
  cases k <;> rfl

/-- Perform one call. -/
def AllocOp.attempt (dev : DevNo) : AllocOp → Caller → (InodeRtvl × BlockNo) × Caller
  | .get k, c =>
    match tryGetBlock k dev 0 c.fs with
    | (.ok, b, fs) => ((.ok, b), ⟨fs, Function.update c.freed k ((c.freed k).erase b)⟩)
    | (r, b, fs) => ((r, b), { c with fs := fs })
  | .free k b, c =>
    match tryFreeBlock k dev b c.fs with
    | (.ok, fs) => ((.ok, b), ⟨fs, Function.update c.freed k (insert b (c.freed k))⟩)
    | (r, fs) => ((r, b), { c with fs := fs })

/-- The allocators of a device as a machine: an input is a call, and which of its requests are
served. -/
def attemptMachine (dev : DevNo) :
    Lib.Machine Caller (AllocOp × (ℕ → Bool)) (InodeRtvl × BlockNo) where
  step i c := i.1.attempt dev { c with fs := c.fs.serving i.2 }

/-- The requests of a call are served, and a block it frees is one of the volume. -/
def Served (g : Shape) (dev : DevNo) (c : Caller) : AllocOp × (ℕ → Bool) → Prop
  | (.get k, serves) => g.Serves k (tryGetBlock k dev 0 (c.fs.serving serves)).2.2.store.refused
  | (.free k b, serves) =>
    g.Covers k b ∧ g.Serves k (tryFreeBlock k dev b (c.fs.serving serves)).2.store.refused

/-- What is promised of a call `i` made by `c`, which has answered and left the caller `r`. -/
structure CallOk (g : Shape) (dev : DevNo) (row : Fin inodeNrDev) (i : AllocOp × (ℕ → Bool))
    (c : Caller) (r : (InodeRtvl × BlockNo) × Caller) : Prop where
  windows : WindowsOk g dev row r.2.fs.forget r.2.freed
  failed : r.1.1 ≠ .ok → Unmarked g dev row c.fs.forget r.2.fs.forget
  wrote : WroteOwn g dev (fun k b => i.1 = .get k ∧ r.1 = (.ok, b)) c.freed c.fs.forget
    r.2.fs.forget

section Runs
variable {g : Shape} {dev : DevNo} {row : Fin inodeNrDev} {c : Caller}

/-- A get that takes a block. -/
theorem call_taken (h : CursorsOk g dev row c.fs.forget c.freed) {k : MapKind} {serves : ℕ → Bool}
    {p j b : BlockNo} {w : Sector} {fs : FsState Flaky} (hp : g.InMap k p) (hj : j.toNat < 512)
    (hw : Seen k dev row c.fs.forget p w) (hb : b = g.blockAt k p j)
    (hfs : fs.forget = afterTake g k dev row c.fs.forget p j w)
    (hget : tryGetBlock k dev 0 (c.fs.serving serves) = (.ok, b, fs)) :
    CursorsOk g dev row ((attemptMachine dev).step (.get k, serves) c).2.fs.forget
        ((attemptMachine dev).step (.get k, serves) c).2.freed ∧
      CallOk g dev row (.get k, serves) c ((attemptMachine dev).step (.get k, serves) c) := by
  have hstep : (attemptMachine dev).step (.get k, serves) c =
      ((.ok, b), ⟨fs, Function.update c.freed k ((c.freed k).erase b)⟩) := by
    simp only [attemptMachine, AllocOp.attempt, hget]
  have hinv : CursorsOk g dev row fs.forget (Function.update c.freed k ((c.freed k).erase b)) := by
    rw [hfs]
    exact h.taken hp hj fun k' hk => Function.update_of_ne hk _ _
  rw [hstep]
  refine ⟨hinv, ⟨hinv.toWindowsOk, fun hne => absurd rfl hne, ?_⟩⟩
  show WroteOwn g dev _ c.freed c.fs.forget fs.forget
  rw [hfs]
  exact h.wroteOwn hp hj hw ⟨rfl, by rw [hb]⟩

/-- A get that fails. -/
theorem call_failed (h : CursorsOk g dev row c.fs.forget c.freed) {k : MapKind} {serves : ℕ → Bool}
    {p b : BlockNo} {w : Sector} {fs : FsState Flaky} (hc : CursorSet k row c.fs.forget)
    (hp : g.InMap k p) (hw : w = c.fs.store.disk dev p)
    (hfs : fs.forget = scanned c.fs.forget k row p 0 w)
    (hget : tryGetBlock k dev 0 (c.fs.serving serves) = (.fail, b, fs)) :
    CursorsOk g dev row ((attemptMachine dev).step (.get k, serves) c).2.fs.forget
        ((attemptMachine dev).step (.get k, serves) c).2.freed ∧
      CallOk g dev row (.get k, serves) c ((attemptMachine dev).step (.get k, serves) c) := by
  have hstep : (attemptMachine dev).step (.get k, serves) c =
      ((.fail, b), { c with fs := fs }) := by
    simp only [attemptMachine, AllocOp.attempt, hget]
  obtain ⟨hinv, hsame⟩ := h.failed hc hp hw
  rw [← hfs] at hinv hsame
  rw [hstep]
  refine ⟨hinv, ⟨hinv.toWindowsOk, fun _ => hsame, fun k' q j hq => .inl ?_⟩⟩
  rw [(hsame k' q hq).2]

/-- **One call** whose requests are served. -/
theorem CursorsOk.call (h : CursorsOk g dev row c.fs.forget c.freed) {i : AllocOp × (ℕ → Bool)}
    (hserved : Served g dev c i) :
    CursorsOk g dev row ((attemptMachine dev).step i c).2.fs.forget
        ((attemptMachine dev).step i c).2.freed ∧
      CallOk g dev row i c ((attemptMachine dev).step i c) := by
  obtain ⟨op, serves⟩ := i
  have hok : MapsOk g dev row (c.fs.serving serves).forget := h.ok
  cases op with
  | get k =>
      have hget := congrFun (congrFun (congrFun (tryGetBlock_eq k) dev) 0) (c.fs.serving serves)
      have hserved' : g.Serves k
          (getBlock flakyStore k dev 0 (c.fs.serving serves)).2.2.store.refused := hget ▸ hserved
      rcases getBlock_flaky hok 0 hserved' with ⟨p, j, w, hp, hj, hw, -, -, hr⟩ | ⟨hc, -, hr⟩ |
        ⟨hc, p, w, hp, hw, hr⟩
      · obtain ⟨fs, heq, hfs⟩ := GetResult.of_forget hr
        exact call_taken h hp hj hw rfl hfs (hget.trans heq)
      · obtain ⟨fs, heq, hfs⟩ := GetResult.of_forget hr
        exact call_failed h hc ⟨le_rfl, h.ok.sound.nonempty k⟩ rfl hfs (hget.trans heq)
      · obtain ⟨fs, heq, hfs⟩ := GetResult.of_forget hr
        exact call_failed h hc hp (h.seen hc hw) hfs (hget.trans heq)
  | free k b =>
      have hfree := congrFun (congrFun (congrFun (tryFreeBlock_eq k) dev) b) (c.fs.serving serves)
      obtain ⟨hb, hserved⟩ := hserved
      rw [hfree] at hserved
      obtain ⟨fs, heq, hflat⟩ := freeBlock_flaky hok hb hserved
      obtain ⟨w, hr, h0, hsame⟩ := freeBlock_flat (k := k) h.ok hb
      have hfs : fs.forget = scanned c.fs.forget k row (g.ptrOf k b) (g.bitOf k b) w :=
        (Prod.mk.inj (hflat.symm.trans hr)).2
      have hstep : (attemptMachine dev).step (.free k b, serves) c =
          ((.ok, b), ⟨fs, Function.update c.freed k (insert b (c.freed k))⟩) := by
        simp only [attemptMachine, AllocOp.attempt, hfree, heq]
      have hinv : CursorsOk g dev row fs.forget
          (Function.update c.freed k (insert b (c.freed k))) := by
        rw [hfs]
        exact h.cleared hb h0 hsame (fun k' hk => Function.update_of_ne hk _ _)
          (Function.update_self _ _ _)
      rw [hstep]
      refine ⟨hinv, ⟨hinv.toWindowsOk, fun hne => absurd rfl hne, fun k' q j _ => .inl ?_⟩⟩
      show bitGet (fs.forget.store dev q) j = _
      rw [hfs]
      rfl

/-- **The windows under failures.** In every run on a mounted device in which the requests of
every call are served, after every call both windows hold the contents of the map blocks that
the pointers name, but for the bits of freed blocks; a call that has failed has changed neither
map; and what a call has written to a map is the bit of the block it returns and the bits of
freed blocks. -/
theorem windows_ok_of_served {fs : FsState Flaky} (h : Mounted g dev row fs.forget)
    {calls : List (AllocOp × (ℕ → Bool))}
    (hcalls : (attemptMachine dev).Admits (Served g dev) calls (Caller.start fs))
    (pre : List (AllocOp × (ℕ → Bool))) (i : AllocOp × (ℕ → Bool))
    (post : List (AllocOp × (ℕ → Bool))) (hsplit : calls = pre ++ i :: post) :
    CallOk g dev row i ((attemptMachine dev).exec pre (Caller.start fs))
      ((attemptMachine dev).step i ((attemptMachine dev).exec pre (Caller.start fs))) := by
  subst hsplit
  obtain ⟨hpre, hi, -⟩ := hcalls.split
  have hinv : CursorsOk g dev row ((attemptMachine dev).exec pre (Caller.start fs)).fs.forget
      ((attemptMachine dev).exec pre (Caller.start fs)).freed :=
    Lib.Machine.exec_invariant (P := fun c : Caller => CursorsOk g dev row c.fs.forget c.freed)
      (fun _ _ hc hop => (hc.call hop).1) pre _ h.cursorsOk hpre
  exact (hinv.call hi).2

end Runs

/-! ## A refused write -/

section Refused
variable {g : Shape} {k : MapKind} {dev : DevNo} {row : Fin inodeNrDev} {s : FsState Flaky}

theorem takeBit_served (a : MapScan Flaky) (h : ∀ n, a.fs.store.serves n = true) :
    (takeBit flakyStore k dev row a).2.2.store.refused = a.fs.store.refused := by
  simp [takeBit, flakyStore, h, Flaky.next]

/-- Nothing is refused by a store that serves everything. -/
theorem served_get (hs : MapsOk g dev row s.forget)
    (h0 : bitGet (s.window k row) ((s.masterTab row).bit k).toNat = 0) :
    Served g dev (Caller.start s) (.get k, fun _ => true) := by
  have hok : MapsOk g dev row (s.serving fun _ => true) := .of_forget (s := s.serving _) hs
  simp only [Served, Caller.start, tryGetBlock_eq]
  rw [getBlock_of_clear hok 0 h0, takeBit_served _ fun _ => rfl]
  intro q hq
  cases hq

/-- The write of the master is refused: the bit is set in the window, and nowhere else. -/
theorem takeBit_refused (a : MapScan Flaky) (h : a.fs.store.serves 0 = false) :
    ∃ fs, takeBit flakyStore k dev row a = (.fail, inodeNopos, fs) ∧
      fs.window k row = bitSet (a.fs.window k row) a.bit.toNat 1 ∧
      (fs.masterTab row).ptr k = (a.fs.masterTab row).ptr k ∧
      fs.store.disk = a.fs.store.disk := by
  refine ⟨(takeBit flakyStore k dev row a).2.2, ?_, ?_, ?_, ?_⟩
  · simp [takeBit, flakyStore, h]
  · simp [takeBit, flakyStore, h]
  · have hptr : ∀ (m : Master) (b : BlockNo), (m.setBit b k).ptr k = m.ptr k := by
      intro m b
      cases k <;> rfl
    simp [takeBit, flakyStore, h, hptr]
  · simp [takeBit, flakyStore, h, Flaky.refuse, Flaky.next]

/-- **A refused write marks a bit.** On a mounted device with a clear bit at the cursor a get
whose first write is refused fails, and has marked a bit that is not on disk. -/
theorem write_refused_marks (h : Mounted g dev row s.forget)
    (h0 : bitGet (s.window k row) ((s.masterTab row).bit k).toNat = 0) {serves : ℕ → Bool}
    (hserves : serves 0 = false) :
    ((attemptMachine dev).step (.get k, serves) (Caller.start s)).1.1 = .fail ∧
      ¬ WindowsOk g dev row
        ((attemptMachine dev).step (.get k, serves) (Caller.start s)).2.fs.forget
        ((attemptMachine dev).step (.get k, serves) (Caller.start s)).2.freed ∧
      ¬ Unmarked g dev row s.forget
        ((attemptMachine dev).step (.get k, serves) (Caller.start s)).2.fs.forget := by
  have hok : MapsOk g dev row (s.serving serves) := .of_forget (s := s.serving serves) h.toMapsOk
  obtain ⟨fs, htake, hwin, hptr, hdisk⟩ := @takeBit_refused k dev row
    ⟨(s.masterTab row).ptr k, (s.masterTab row).bit k, 0, s.serving serves⟩ hserves
  have hget : tryGetBlock k dev 0 (s.serving serves) = (.fail, inodeNopos, fs) := by
    rw [tryGetBlock_eq, getBlock_of_clear hok 0 h0]
    exact htake
  have hstep : (attemptMachine dev).step (.get k, serves) (Caller.start s) =
      ((.fail, inodeNopos), ⟨fs, fun _ => ∅⟩) := by
    simp only [attemptMachine, AllocOp.attempt, Caller.start, hget]
  replace hptr : (fs.masterTab row).ptr k = (s.masterTab row).ptr k := hptr
  -- The bit in the window is set now.
  have hbit : ((s.masterTab row).bit k).toNat / 8 < devBlockSize := by
    have hlt := h.bit k
    simp only [FsState.forget_masterTab] at hlt
    simp only [devBlockSize]
    omega
  have hset : bitGet (fs.window k row) ((s.masterTab row).bit k).toNat = 1 := by
    rw [hwin]
    exact bitGet_bitSet_self hbit (.inr rfl)
  rw [hstep]
  refine ⟨rfl, fun hw => ?_, fun hu => ?_⟩
  · have hload : s.window k row = s.store.disk dev ((s.masterTab row).ptr k) := h.loaded k
    refine hw.not_set hset ?_
    rw [FsState.forget_masterTab, FsState.forget_store, hptr, hdisk]
    exact (congrArg (bitGet · _) hload).symm.trans h0
  · have heq := (hu k _ (h.ptr k)).1
    simp only [mapSector, FsState.forget_masterTab, hptr, FsState.forget_window, if_true] at heq
    rw [heq] at hset
    exact absurd (hset.symm.trans h0) (by decide)

/-- The read of a window is refused: only the pointer moves. -/
theorem loadWindow_refused {p : BlockNo} (hserves : s.store.serves 0 = false) :
    ∃ fs, loadWindow flakyStore k dev row p s = (.fail, fs) ∧
      (fs.masterTab row).ptr k = p ∧ fs.window k row = s.window k row ∧
      fs.store.disk = s.store.disk := by
  have hptr : ∀ m : Master, (m.setPtr p k).ptr k = p := by
    intro m
    cases k <;> rfl
  refine ⟨(loadWindow flakyStore k dev row p s).2, ?_, ?_, ?_, ?_⟩
  · simp [loadWindow, flakyStore, hserves]
  · simp [loadWindow, hptr]
  · simp [loadWindow, flakyStore, hserves]
  · simp [loadWindow, flakyStore, hserves, Flaky.refuse, Flaky.next]

/-- A free in another map block whose read is refused: the pointer has moved, the window has not. -/
theorem freeBlock_refused (hs : MapsOk g dev row s) {b : BlockNo}
    (hne : g.ptrOf k b ≠ (s.masterTab row).ptr k) (hserves : s.store.serves 0 = false) :
    ∃ fs, freeBlock flakyStore k dev b s = (.fail, fs) ∧
      (fs.masterTab row).ptr k = g.ptrOf k b ∧ fs.window k row = s.window k row ∧
      fs.store.disk = s.store.disk := by
  obtain ⟨fs, hload, hfs⟩ := @loadWindow_refused k dev row
    (s.setMaster row ((s.masterTab row).setBit (g.bitOf k b) k)) (g.ptrOf k b) hserves
  refine ⟨fs, ?_, hfs⟩
  rw [freeBlock_mounted hs]
  simp only [if_pos hne, hload]

/-- **A refused read swaps the map blocks.** On a mounted device a free in another map block
whose read is refused fails, and the pointer names that block over the window of the first. -/
theorem read_refused_swaps (h : Mounted g dev row s.forget) {b : BlockNo}
    (hne : g.ptrOf k b ≠ (s.masterTab row).ptr k) {i : ℕ} (h1 : bitGet (s.window k row) i = 1)
    (h0 : bitGet (s.store.disk dev (g.ptrOf k b)) i = 0) {serves : ℕ → Bool}
    (hserves : serves 0 = false) :
    ((attemptMachine dev).step (.free k b, serves) (Caller.start s)).1.1 = .fail ∧
      ¬ WindowsOk g dev row
        ((attemptMachine dev).step (.free k b, serves) (Caller.start s)).2.fs.forget
        ((attemptMachine dev).step (.free k b, serves) (Caller.start s)).2.freed := by
  have hok : MapsOk g dev row (s.serving serves) := .of_forget (s := s.serving serves) h.toMapsOk
  obtain ⟨fs, hfree, hptr, hwin, hdisk⟩ := freeBlock_refused (s := s.serving serves) hok hne hserves
  have hstep : (attemptMachine dev).step (.free k b, serves) (Caller.start s) =
      ((.fail, b), ⟨fs, fun _ => ∅⟩) := by
    simp only [attemptMachine, AllocOp.attempt, Caller.start, tryFreeBlock_eq, hfree]
  rw [hstep]
  refine ⟨rfl, fun hw => ?_⟩
  -- The window has a set bit that is clear in the block of the pointer.
  have hset : bitGet (fs.window k row) i = 1 := by
    rw [hwin]
    exact h1
  refine hw.not_set hset ?_
  rw [FsState.forget_masterTab, FsState.forget_store, hptr, hdisk]
  exact h0

end Refused

/-- A state over the store that has refused nothing. -/
def FsState.flaky (s : FsState Disk) : FsState Flaky :=
  ⟨⟨s.store, fun _ => true, []⟩, s.masterTab, s.window, s.initMaster, s.windowAddr⟩

section FreshVolume
variable {g : Shape} {row : Fin inodeNrDev} {s : FsState Disk}

theorem Fresh.mounted_flaky (h : Fresh g row s) : Mounted g 0 row s.flaky.forget := h.mounted

theorem Fresh.cursor_clear (h : Fresh g row s) (k : MapKind) :
    bitGet (s.flaky.window k row) ((s.flaky.masterTab row).bit k).toNat = 0 := by
  have hw : s.flaky.window k row = Sector.zero := h.window k
  rw [hw]
  exact bitGet_zero _

end FreshVolume

/-- On a volume of 10240 blocks: the first get is served. -/
theorem windows_ok_first_get :
    CallOk (volumeShape (5242880 / 512)) 0 0 (.get .bmap, fun _ => true)
      (Caller.start (mountedVolume 5242880).flaky)
      ((attemptMachine 0).step (.get .bmap, fun _ => true)
        (Caller.start (mountedVolume 5242880).flaky)) := by
  have hF := @mountedVolume_fresh 5242880 rfl
  have hserved := served_get hF.mounted_flaky.toMapsOk (hF.cursor_clear .bmap)
  have hcalls : (attemptMachine 0).Admits (Served (volumeShape (5242880 / 512)) 0)
      [(.get .bmap, fun _ => true)] (Caller.start (mountedVolume 5242880).flaky) :=
    ⟨hserved, trivial⟩
  exact windows_ok_of_served hF.mounted_flaky hcalls [] _ [] rfl

/-- On a volume of 10240 blocks: the first get fails at its first write, and has marked a bit. -/
theorem first_get_write_refused :
    Mounted (volumeShape (5242880 / 512)) 0 0 (mountedVolume 5242880).flaky.forget ∧
      ((attemptMachine 0).step (.get .bmap, fun _ => false)
        (Caller.start (mountedVolume 5242880).flaky)).1.1 = .fail ∧
      ¬ WindowsOk (volumeShape (5242880 / 512)) 0 0
        ((attemptMachine 0).step (.get .bmap, fun _ => false)
          (Caller.start (mountedVolume 5242880).flaky)).2.fs.forget
        ((attemptMachine 0).step (.get .bmap, fun _ => false)
          (Caller.start (mountedVolume 5242880).flaky)).2.freed ∧
      ¬ Unmarked (volumeShape (5242880 / 512)) 0 0 (mountedVolume 5242880).flaky.forget
        ((attemptMachine 0).step (.get .bmap, fun _ => false)
          (Caller.start (mountedVolume 5242880).flaky)).2.fs.forget := by
  have hF := @mountedVolume_fresh 5242880 rfl
  exact ⟨hF.mounted_flaky, write_refused_marks hF.mounted_flaky (hF.cursor_clear .bmap) rfl⟩

end OxKernel.Fs
