import OxKernel.Fs.AllocatorRuns

/-!
# The allocators over a store that fails

The store here refuses the requests it likes to refuse, a refused read leaving the buffer
alone as `block_read` does. A call ends at the first request that is refused; up to there it
does what it does over a store that never fails (`scanBody_flaky`), so what is known of the
calls there is used for both.

A failed read of the block that is in the window does no harm. That is every read when the
map is a single block.

## Main definitions

* `Flaky`, `flakyStore` — the store, with the requests it has refused.
* `Shape.Serves` — no write was refused, and no read that matters.
* `Ended` — the ways a get ends whose requests are served.
-/
namespace OxKernel.Fs

/-! ## The store -/

/-- A request to the store. -/
inductive Request
  | read (dev : DevNo) (block : BlockNo)
  | write (dev : DevNo) (block : BlockNo)
  deriving DecidableEq, Repr

/-- A disk, which of the coming requests it serves, and the requests it has refused. -/
structure Flaky where
  disk : Disk
  serves : ℕ → Bool
  refused : List Request

/-- On to the next request. -/
def Flaky.next (f : Flaky) : Flaky := { f with serves := fun n => f.serves (n + 1) }

/-- The request is refused. -/
def Flaky.refuse (q : Request) (f : Flaky) : Flaky := { f.next with refused := q :: f.refused }

/-- The calls of `block.h` that the allocators make, each served or refused. The rest of the
interface is that of the store that never fails. -/
def flakyStore : BlockLayer Flaky where
  devOpen path dev f := ((kernelDev.devOpen path dev f.disk).1,
    (kernelDev.devOpen path dev f.disk).2.1, f)
  devClose _ f := (.ok, f)
  devScan _ _ f := (.ok, f)
  devRead dev block _ f := (.ok, f.disk dev block, f)
  devWrite dev block data f := (.ok, { f with disk := f.disk.set dev block data })
  blockOpen _ _ f := (.ok, 0, f)
  blockRead dev block data f :=
    if f.serves 0 then (.ok, f.disk dev block, f.next)
    else (.fail, data, f.refuse (.read dev block))
  blockWrite dev block data f :=
    if f.serves 0 then (.ok, { f.next with disk := f.disk.set dev block data })
    else (.fail, f.refuse (.write dev block))
  blockSync _ f := (.ok, f)
  blockReinit f := f

/-- The state over the disk alone. -/
def FsState.forget (s : FsState Flaky) : FsState Disk :=
  ⟨s.store.disk, s.masterTab, s.window, s.initMaster, s.windowAddr⟩

/-- The state of a scan over the disk alone. -/
def MapScan.forget (a : MapScan Flaky) : MapScan Disk := ⟨a.ptr, a.bit, a.pass, a.fs.forget⟩

/-- The result of a get over the disk alone. -/
def GetResult.forget (r : GetResult Flaky) : GetResult Disk := (r.1, r.2.1, r.2.2.forget)

@[simp] theorem FsState.forget_masterTab (s : FsState Flaky) : s.forget.masterTab = s.masterTab :=
  rfl

@[simp] theorem FsState.forget_window (s : FsState Flaky) : s.forget.window = s.window := rfl

@[simp] theorem FsState.forget_store (s : FsState Flaky) : s.forget.store = s.store.disk := rfl

/-- What is said of a mounted device says nothing of the store. -/
theorem MapsOk.of_forget {g : Shape} {dev : DevNo} {row : Fin inodeNrDev} {s : FsState Flaky}
    (h : MapsOk g dev row s.forget) : MapsOk g dev row s :=
  ⟨h.sound, h.mounted, h.shape, h.ptr, h.bit⟩

/-! ## One request -/

section Requests
variable {k : MapKind} {dev : DevNo} {row : Fin inodeNrDev} {p : BlockNo}

/-- Loading a window: as over the disk, or only the pointer moves. -/
theorem loadWindow_flaky (s : FsState Flaky) :
    (∃ s', loadWindow flakyStore k dev row p s = (.ok, s') ∧
        loadWindow flatStore k dev row p s.forget = (.ok, s'.forget)) ∨
      ∃ s', loadWindow flakyStore k dev row p s = (.fail, s') ∧
        s'.store.refused = .read dev p :: s.store.refused ∧
        s'.forget = s.forget.setMaster row ((s.masterTab row).setPtr p k) := by
  by_cases hserves : s.store.serves 0 = true
  · left
    refine ⟨(loadWindow flakyStore k dev row p s).2, ?_, ?_⟩
    · simp [loadWindow, flakyStore, hserves]
    · simp only [loadWindow, flakyStore, flatStore, FsState.setMaster_store, hserves, if_true]
      rfl
  · right
    refine ⟨(loadWindow flakyStore k dev row p s).2, ?_, ?_, ?_⟩
    · simp [loadWindow, flakyStore, hserves]
    · simp [loadWindow, flakyStore, hserves, Flaky.refuse, Flaky.next]
    · simp [loadWindow, flakyStore, hserves, FsState.forget, FsState.setMaster, FsState.setWindow,
        Flaky.refuse, Flaky.next]

/-- Setting a bit: as over the disk, or a write is refused. -/
theorem takeBit_flaky (a : MapScan Flaky) :
    takeBit flatStore k dev row a.forget = (takeBit flakyStore k dev row a).forget ∨
      ∃ b, .write dev b ∈ (takeBit flakyStore k dev row a).2.2.store.refused := by
  by_cases h0 : a.fs.store.serves 0 = true
  · by_cases h1 : a.fs.store.serves 1 = true
    · left
      simp only [takeBit, flakyStore, flatStore, FsState.setMaster_store, FsState.setWindow_store,
        h0, h1, Flaky.next, if_true]
      rfl
    · right
      refine ⟨a.ptr, ?_⟩
      simp [takeBit, flakyStore, h0, h1, Flaky.next, Flaky.refuse]
  · right
    refine ⟨((a.fs.masterTab row).setBit a.bit k).blockStart, ?_⟩
    simp [takeBit, flakyStore, h0, Flaky.next, Flaky.refuse]

/-! ## One round of the scan -/

/-- The outcome of a round over the disk alone. -/
def forgetRound : MapScan Flaky ⊕ GetResult Flaky → MapScan Disk ⊕ GetResult Disk :=
  Sum.map MapScan.forget GetResult.forget

theorem next_forget (a : MapScan Flaky) : forgetRound a.next = a.forget.next := by
  by_cases h : a.pass < inodeNrPass <;> simp [MapScan.next, MapScan.forget, h, forgetRound,
    GetResult.forget]

/-- The round has ended at a refused read of block `p`, which is the block in the pointer now. -/
def StuckAt (k : MapKind) (dev : DevNo) (row : Fin inodeNrDev) (p : BlockNo) (s : FsState Flaky)
    (x : MapScan Flaky ⊕ GetResult Flaky) : Prop :=
  ∃ s', x = .inr (.fail, inodeNopos, s') ∧ s'.store.refused = .read dev p :: s.store.refused ∧
    s'.forget = s.forget.setMaster row ((s.masterTab row).setPtr p k)

theorem scanBlock_flaky (pass : ℕ) (s : FsState Flaky) :
    scanBlock flatStore k dev row p pass s.forget =
        forgetRound (scanBlock flakyStore k dev row p pass s) ∨
      StuckAt k dev row p s (scanBlock flakyStore k dev row p pass s) := by
  rcases @loadWindow_flaky k dev row p s with ⟨s', heq, hflat⟩ | ⟨s', heq, hrefused, hs'⟩
  · left
    simp only [scanBlock, heq, hflat, next_forget]
    rfl
  · right
    exact ⟨s', by simp only [scanBlock, heq], hrefused, hs'⟩

/-- The map block after `p` in the order of the scan. -/
def nextMapBlock (m : Master) (k : MapKind) (p : BlockNo) : BlockNo :=
  if p + 1 < m.mapEnd k then p + 1 else m.mapStart k

/-- **A round over the store that fails**: what it does over the disk alone, or a write was
refused, or the read of the next map block was. -/
theorem scanBody_flaky (a : MapScan Flaky) :
    scanBody flatStore k dev row a.forget = forgetRound (scanBody flakyStore k dev row a) ∨
      (∃ r b, scanBody flakyStore k dev row a = .inr r ∧ .write dev b ∈ r.2.2.store.refused) ∨
      bitGet (a.fs.window k row) a.bit.toNat = 1 ∧
        StuckAt k dev row (nextMapBlock (a.fs.masterTab row) k a.ptr)
          (a.fs.setMaster row ((a.fs.masterTab row).setBit 0 k))
          (scanBody flakyStore k dev row a) := by
  by_cases hbit : bitGet (a.fs.window k row) a.bit.toNat = 0
  · have hbit' : bitGet (a.forget.fs.window k row) a.forget.bit.toNat = 0 := hbit
    simp only [scanBody, if_pos hbit, if_pos hbit']
    rcases @takeBit_flaky k dev row a with hflat | ⟨b, hb⟩
    · left
      rw [hflat]
      rfl
    · right
      left
      exact ⟨_, b, rfl, hb⟩
  · have hbit' : ¬ bitGet (a.forget.fs.window k row) a.forget.bit.toNat = 0 := hbit
    have hset : bitGet (a.fs.window k row) a.bit.toNat = 1 := bitGet_ne_zero hbit
    simp only [scanBody, if_neg hbit, if_neg hbit']
    by_cases h0 : (a.bit + 1) % 512 = 0
    · have h0' : (a.forget.bit + 1) % 512 = 0 := h0
      have hend : ((a.fs.masterTab row).setBit 0 k).mapEnd k = (a.fs.masterTab row).mapEnd k := by
        simp
      have hstart : ((a.fs.masterTab row).setBit 0 k).mapStart k =
          (a.fs.masterTab row).mapStart k := by
        cases k <;> rfl
      simp only [h0, h0', if_true]
      by_cases hlt : a.ptr + 1 < (a.fs.masterTab row).mapEnd k
      · have hlt' : a.forget.ptr + 1 < ((a.forget.fs.masterTab row).setBit 0 k).mapEnd k := by
          simpa [MapScan.forget] using hlt
        rw [if_pos hlt', if_pos (by rwa [hend]), nextMapBlock, if_pos hlt]
        exact (scanBlock_flaky a.pass
          (a.fs.setMaster row ((a.fs.masterTab row).setBit 0 k))).imp_right fun h => .inr ⟨hset, h⟩
      · have hlt' : ¬ a.forget.ptr + 1 < ((a.forget.fs.masterTab row).setBit 0 k).mapEnd k := by
          simpa [MapScan.forget] using hlt
        have hstart' : ((a.forget.fs.masterTab row).setBit 0 k).mapStart k =
            (a.fs.masterTab row).mapStart k := hstart
        rw [if_neg hlt', if_neg (by rwa [hend]), nextMapBlock, if_neg hlt, hstart, hstart']
        exact (scanBlock_flaky (a.pass + 1)
          (a.fs.setMaster row ((a.fs.masterTab row).setBit 0 k))).imp_right fun h => .inr ⟨hset, h⟩
    · have h0' : ¬ (a.forget.bit + 1) % 512 = 0 := h0
      left
      simp only [h0, h0', if_false, next_forget]
      rfl

end Requests

/-! ## A call whose requests are served -/

/-- No write was refused, and a read only if the map is a single block, which is the one in
the window. -/
def Shape.Serves (g : Shape) (k : MapKind) (refused : List Request) : Prop :=
  ∀ q ∈ refused, g.mapLen k = 1 ∧ ∃ dev b, q = .read dev b

section Served
variable {g : Shape} {k : MapKind} {dev : DevNo} {row : Fin inodeNrDev} {s : FsState Flaky}

theorem Shape.Serves.no_write {refused : List Request} (h : g.Serves k refused) (b : BlockNo) :
    .write dev b ∉ refused := by
  intro hb
  obtain ⟨-, d, b', hq⟩ := h _ hb
  cases hq

/-- Setting the pointer to the block it is at. -/
theorem scanned_setPtr {s : FsState Disk} {p b : BlockNo} {w : Sector} :
    (scanned s k row p b w).setMaster row
      (((scanned s k row p b w).masterTab row).setPtr p k) = scanned s k row p b w := by
  have hm : (((s.masterTab row).setPtr p k).setBit b k).setPtr p k =
      ((s.masterTab row).setPtr p k).setBit b k := by cases k <;> rfl
  rw [scanned_masterTab, hm]
  simp [scanned, FsState.setMaster, FsState.setWindow]

/-- The next block of a map of one block is the same. -/
theorem nextMapBlock_of_single {m : Master} {p : BlockNo} (hm : m.shape = g) (hp : g.InMap k p)
    (hlen : g.mapLen k = 1) : nextMapBlock m k p = p := by
  have hend : m.mapEnd k = g.mapEnd k := congrFun (congrArg Shape.mapEnd hm) k
  have hstart : m.mapStart k = g.mapStart k := congrFun (congrArg Shape.mapStart hm) k
  have hsucc := succ_toNat_of_inMap hp
  obtain ⟨h1, h2⟩ := hp
  simp only [Shape.mapLen] at hlen
  rw [nextMapBlock, hend, hstart, if_neg ?_]
  · apply UInt32.toNat_inj.mp
    omega
  · rw [UInt32.lt_iff_toNat_lt, hsucc]
    omega

/-- A get that gave up at a refused read, with the window it had. -/
def Stopped (g : Shape) (k : MapKind) (dev : DevNo) (row : Fin inodeNrDev) (s : FsState Disk)
    (r : GetResult Disk) : Prop :=
  CursorSet k row s ∧
    ∃ p w, g.InMap k p ∧ Seen k dev row s p w ∧ r = (.fail, inodeNopos, scanned s k row p 0 w)

/-- The three ways a get ends whose requests are served: it takes a clear bit, or finds every
bit set, or gives up at a read of the block in the window. -/
def Ended (g : Shape) (k : MapKind) (dev : DevNo) (row : Fin inodeNrDev) (s : FsState Disk)
    (r : GetResult Disk) : Prop :=
  Taken g k dev row s r ∨ Exhausted g k dev row s r ∨ Stopped g k dev row s r

/-- A round that goes on has been served. -/
theorem scanBody_flaky_inl {a b : MapScan Flaky} (h : scanBody flakyStore k dev row a = .inl b) :
    scanBody flatStore k dev row a.forget = .inl b.forget := by
  rcases @scanBody_flaky k dev row a with hflat | ⟨r, -, hr, -⟩ | ⟨-, s', hx, -⟩
  · rw [h] at hflat
    exact hflat
  · rw [h] at hr
    cases hr
  · rw [h] at hx
    cases hx

/-- The last round of a get whose requests are served. -/
theorem scanBody_flaky_inr (hs : MapsOk g dev row s.forget) {a : MapScan Flaky}
    (ha : ScanInv g k dev row s.forget a.forget)
    {r : GetResult Flaky} (h : scanBody flakyStore k dev row a = .inr r)
    (hserved : g.Serves k r.2.2.store.refused) : Ended g k dev row s.forget r.forget := by
  rcases @scanBody_flaky k dev row a with hflat | ⟨r', b, hr, hb⟩ | ⟨hbit, s', hx, href, hs'⟩
  · rw [h] at hflat
    exact (scanBody_leave hs ha hflat).imp_right Or.inl
  · rw [h] at hr
    cases hr
    exact absurd hb (hserved.no_write b)
  · -- The read that was refused is of the block in the window.
    rw [h] at hx
    cases hx
    have hlen : g.mapLen k = 1 := (hserved _ (by rw [href]; exact List.mem_cons_self)).1
    have hstate : (a.fs.setMaster row ((a.fs.masterTab row).setBit 0 k)).forget =
        scanned s.forget k row a.ptr 0 (a.fs.window k row) := by
      have h := @scanned_setBit _ s.forget k row a.ptr a.bit 0 (a.fs.window k row)
      have hfs : a.fs.forget = scanned s.forget k row a.ptr a.bit (a.fs.window k row) := ha.fs
      rwa [← hfs] at h
    have hshape : (a.fs.masterTab row).shape = g := by
      have h := congrArg (fun t : FsState Disk => (t.masterTab row).shape) ha.fs
      simp only [scanned_shape, hs.shape] at h
      exact h
    have hp : nextMapBlock (a.fs.masterTab row) k a.ptr = a.ptr :=
      nextMapBlock_of_single hshape ha.inMap hlen
    right
    right
    refine ⟨ha.cursorSet hbit, a.ptr, a.fs.window k row, ha.inMap, ha.seen, ?_⟩
    have hgoal : s'.forget = scanned s.forget k row a.ptr 0 (a.fs.window k row) := by
      rw [hs', hstate, ← FsState.forget_masterTab (a.fs.setMaster _ _), hstate, hp]
      exact scanned_setPtr
    rw [← hgoal]
    rfl

/-- **A get whose requests are served.** -/
theorem getBlock_flaky (hs : MapsOk g dev row s.forget) (block : BlockNo)
    (hserved : g.Serves k (getBlock flakyStore k dev block s).2.2.store.refused) :
    Ended g k dev row s.forget (GetResult.forget (getBlock flakyStore k dev block s)) := by
  rw [getBlock_mounted hs.of_forget] at hserved ⊢
  refine Lib.Loop.run_rule (L := scanLoop flakyStore k dev row)
    (P := fun a => ScanInv g k dev row s.forget a.forget)
    (Q := fun r => g.Serves k r.2.2.store.refused → Ended g k dev row s.forget r.forget)
    ?_ ?_ _ (.start hs) hserved
  · intro a b ha hb
    exact ha.step hs (scanBody_flaky_inl hb)
  · intro a r ha hr hserved
    exact scanBody_flaky_inr hs ha hr hserved

/-- A map of one block has no other. -/
theorem eq_of_single {p q : BlockNo} (hp : g.InMap k p) (hq : g.InMap k q) (hlen : g.mapLen k = 1) :
    p = q := by
  obtain ⟨hp1, hp2⟩ := hp
  obtain ⟨hq1, hq2⟩ := hq
  simp only [Shape.mapLen] at hlen
  apply UInt32.toNat_inj.mp
  omega

/-- **A free whose requests are served** of a block the map covers: as over the disk alone. -/
theorem freeBlock_flaky (hs : MapsOk g dev row s.forget) {b : BlockNo} (hb : g.Covers k b)
    (hserved : g.Serves k (freeBlock flakyStore k dev b s).2.store.refused) :
    ∃ s', freeBlock flakyStore k dev b s = (.ok, s') ∧
      freeBlock flatStore k dev b s.forget = (.ok, s'.forget) := by
  rw [freeBlock_mounted hs.of_forget] at hserved
  rw [freeBlock_mounted hs.of_forget, freeBlock_mounted hs, FsState.forget_masterTab]
  generalize g.bitOf k b = i at hserved ⊢
  -- Clearing the bit makes no request.
  have hclear : ∀ t : FsState Flaky, ∃ s',
      (if bitGet (t.window k row) i.toNat = 0 then (InodeRtvl.ok, t)
        else (.ok, t.setWindow k row (bitSet (t.window k row) i.toNat 0))) = (.ok, s') ∧
      (if bitGet (t.forget.window k row) i.toNat = 0 then (InodeRtvl.ok, t.forget)
        else (.ok, t.forget.setWindow k row (bitSet (t.forget.window k row) i.toNat 0))) =
          (.ok, s'.forget) := by
    intro t
    by_cases h0 : bitGet (t.window k row) i.toNat = 0
    · exact ⟨t, if_pos h0, if_pos h0⟩
    · exact ⟨_, if_neg h0, if_neg h0⟩
  by_cases hne : g.ptrOf k b ≠ (s.masterTab row).ptr k
  · simp only [if_pos hne] at hserved ⊢
    rcases @loadWindow_flaky k dev row (g.ptrOf k b)
      (s.setMaster row ((s.masterTab row).setBit i k)) with ⟨t, heq, hflat⟩ | ⟨t, heq, href, -⟩
    · have hflat' : loadWindow flatStore k dev row (g.ptrOf k b)
          (s.forget.setMaster row ((s.masterTab row).setBit i k)) = (.ok, t.forget) := hflat
      rw [heq, hflat']
      exact hclear t
    · -- A refused read is of the only block, which is the one in the window.
      rw [heq] at hserved
      have hlen : g.mapLen k = 1 := (hserved _ (by rw [href]; exact List.mem_cons_self)).1
      exact absurd (eq_of_single (Shape.inMap_ptrOf hs.sound hb) (hs.ptr k) hlen) hne
  · simp only [if_neg hne]
    exact hclear (s.setMaster row ((s.masterTab row).setBit i k))

end Served

end OxKernel.Fs
