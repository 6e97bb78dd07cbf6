import OxKernel.Fs.Dir
import OxKernel.Fs.Resolve
import OxKernel.Fs.Capacity
import OxKernel.Lib.Machine
import Mathlib.Data.List.GetD

/-!
# Reading a directory stream to its end

What `kreaddir` returns on a directory that does not change. The stream is a cursor in the
list of `.`, `..` and the entries of the used slots; the block map that it keeps is one of
the chain or none, also after `krewinddir` and after the end, so the scan from the head of
the chain either finds the block map of the slot or the end.

Between the calls on the stream the process may open, read, rewind and close other streams, and
make other calls, as long as the block maps of the directory stay as they are. What holds for a
stream then depends on the other ones too: a name that is too long for `d_name` changes `__fd` of
the stream behind, and closing that one closes a stream of another directory.

A chain of allocated blocks has fewer slots than `__offset` can count.

## Main definitions

* `usedSlots`, `listing` — the entries of a directory in the order of the chain.
* `StreamAt` — a stream that has returned a number of entries.
* `DirStream.NamesFit` — the names that a call may read fit into `d_name`.
* `DirOp`, `dirMachine` — runs of calls on the streams of a process.
* `StreamsOk` — what holds for all streams of the table.

## Main results

* `kreaddir_lists` — what a stream returns in a run whose names fit.
* `kreaddir_starts_again` — what it may return otherwise.
-/
namespace OxKernel.Fs

open Lib (Attempt)

section Slots
variable (d : Dev) (ms : List BlockNo)

/-- The entry in a slot of a chain and the place of the slot in its block map. -/
def slotAt (q : ℕ) : Option (BlockNo × BlockNo) :=
  if (mapAt d (ms.getD (q / 127) inodeNull)).entry (UInt32.ofNat (q % 127)) = inodeNull then none
  else some ((mapAt d (ms.getD (q / 127) inodeNull)).entry (UInt32.ofNat (q % 127)),
    UInt32.ofNat (q % 127))

/-- The used slots of a chain from a slot on. -/
def usedSlots (q : ℕ) : List (BlockNo × BlockNo) :=
  (List.range' q (127 * ms.length - q)).filterMap (slotAt d ms)

/-- What `kreaddir` is to return for a used slot. -/
def usedEntry (path : CStr) (a : BlockNo × BlockNo) : Dirent :=
  slotEntry path a.1 a.2 (inodeAt d a.1)

/-- What `kreaddir` is to return for a directory, one call after the other. -/
def listing (path : CStr) : List Dirent :=
  dotEntry path [dot] :: dotEntry path [dot, dot] :: (usedSlots d ms 0).map (usedEntry d path)

variable {d ms}

/-- The entries of the used slots name a block. -/
theorem ino_listing {path : CStr} {k : ℕ} {e : Dirent} (h : (listing d ms path)[k + 2]? = some e) :
    e.ino ≠ inodeNull := by
  rw [listing, List.getElem?_cons_succ, List.getElem?_cons_succ, List.getElem?_map] at h
  obtain ⟨a, ha, rfl⟩ := Option.map_eq_some_iff.mp h
  obtain ⟨q, -, hslot⟩ := List.mem_filterMap.mp (List.mem_of_getElem? ha)
  rw [slotAt] at hslot
  split at hslot
  · cases hslot
  · rename_i hne
    cases hslot
    exact hne

theorem length_listing {path : CStr} :
    (listing d ms path).length = (usedSlots d ms 0).length + 2 := by
  rw [listing, List.length_cons, List.length_cons, List.length_map]

theorem usedSlots_end : usedSlots d ms (127 * ms.length) = [] := by
  rw [usedSlots, Nat.sub_self]
  rfl

theorem usedSlots_of_lt {q : ℕ} (hq : q < 127 * ms.length) :
    usedSlots d ms q = (slotAt d ms q).toList ++ usedSlots d ms (q + 1) := by
  have hlen : 127 * ms.length - q = (127 * ms.length - (q + 1)) + 1 := by omega
  rw [usedSlots, hlen, List.range'_succ, List.filterMap_cons, usedSlots]
  cases slotAt d ms q <;> rfl

theorem usedSlots_congr {d' : Dev} (hd : ∀ m ∈ ms, d' m = d m) (q : ℕ) :
    usedSlots d' ms q = usedSlots d ms q := by
  rw [usedSlots, usedSlots]
  apply List.filterMap_congr
  intro r hr
  have hlt : r / 127 < ms.length := by
    have hrange := List.mem_range'_1.mp hr
    omega
  have hmap : mapAt d' (ms.getD (r / 127) inodeNull) = mapAt d (ms.getD (r / 127) inodeNull) := by
    rw [List.getD_eq_getElem _ _ hlt, mapAt, hd _ (List.getElem_mem hlt), mapAt]
  rw [slotAt, slotAt, hmap]

end Slots

/-! ## One call -/

section Stream
variable {d : Dev} {ms : List BlockNo} {dir : DirStream} {dev : DevNo} {disk : Disk}

/-- The chain has fewer slots than `__offset` can count. -/
def SlotsFit (ms : List BlockNo) : Prop := 127 * ms.length + 2 < 2 ^ 32

/-- The copy of the inode leads to the chain, and the block map that the stream keeps is the
one with the number it keeps. -/
structure OnChain (d : Dev) (ms : List BlockNo) (dir : DirStream) : Prop where
  linked : Linked d dir.data.next ms
  cached : dir.block = inodeNull ∨ ms[dir.blockPtr.toNat]? = some dir.block

/-- The scan from a block map on. -/
theorem seek_flat : ∀ (n : ℕ) (ms : List BlockNo) (dir : DirStream),
    Linked (disk dev) dir.block ms → n ≤ ms.length →
    ∃ b, Attempt.iterate (fun _ => seekStep flatStore dev) n () ⟨dir, disk, []⟩ =
        (some (), ⟨{ dir with block := b, blockPtr := dir.blockPtr + UInt32.ofNat n }, disk, []⟩) ∧
      Linked (disk dev) b (ms.drop n) := by
  intro n
  induction n with
  | zero =>
      intro ms dir h _
      refine ⟨dir.block, ?_, h⟩
      have h0 : dir.blockPtr + UInt32.ofNat 0 = dir.blockPtr := UInt32.add_zero _
      rw [Attempt.iterate_zero, h0]
      rfl
  | succ n ih =>
      intro ms dir h hn
      cases ms with
      | nil => cases hn
      | cons m ms =>
          have hb : dir.block ≠ inodeNull := h.head_ne (List.cons_ne_nil _ _)
          have hstep : seekStep flatStore dev ⟨dir, disk, []⟩ =
              (some (), ⟨{ dir with
                block := (mapAt (disk dev) dir.block).next, blockPtr := dir.blockPtr + 1 }, disk, []⟩) := by
            rw [seekStep, if_neg hb]
            rfl
          have hnext : Linked (disk dev) (mapAt (disk dev) dir.block).next ms := by
            rw [h.1]
            exact h.2.2
          obtain ⟨b, hrun, hlinked⟩ := ih ms { dir with
            block := (mapAt (disk dev) dir.block).next, blockPtr := dir.blockPtr + 1 } hnext
            (Nat.le_of_succ_le_succ hn)
          refine ⟨b, ?_, hlinked⟩
          have hptr : dir.blockPtr + 1 + UInt32.ofNat n = dir.blockPtr + UInt32.ofNat (n + 1) := by
            rw [UInt32.ofNat_add, UInt32.add_assoc, UInt32.add_comm (UInt32.ofNat n)]
            rfl
          rw [Attempt.iterate_succ, Attempt.bind_of_some hstep, hrun]
          simp only [hptr]

theorem slot_number {q : ℕ} (hfit : q + 2 < 2 ^ 32) (hoff : dir.offset.toNat = q + 2) :
    (dir.offset - 2) / 127 = UInt32.ofNat (q / 127) ∧
      (dir.offset - 2) % 127 = UInt32.ofNat (q % 127) := by
  have hsub : (dir.offset - 2).toNat = q := by
    rw [UInt32.toNat_sub_of_le _ _ (UInt32.le_iff_toNat_le.mpr (by rw [hoff]; exact Nat.le_add_left 2 q)), hoff]
    rfl
  constructor
  · apply UInt32.toNat_inj.mp
    rw [UInt32.toNat_div, hsub, UInt32.toNat_ofNat']
    exact (Nat.mod_eq_of_lt (by show q / 127 < 2 ^ 32; omega)).symm
  · apply UInt32.toNat_inj.mp
    rw [UInt32.toNat_mod, hsub, UInt32.toNat_ofNat']
    exact (Nat.mod_eq_of_lt (by show q % 127 < 2 ^ 32; omega)).symm

/-- The slot is in the block map that the stream has. -/
def AtHand (q : ℕ) (dir : DirStream) : Prop :=
  dir.blockPtr = UInt32.ofNat (q / 127) ∧ dir.block ≠ inodeNull

/-- A slot of the block map at hand. -/
theorem readSlot_hit {q fuel : ℕ} (hfit : q + 2 < 2 ^ 32)
    (h : OnChain (disk dev) ms dir) (hoff : dir.offset.toNat = q + 2) (hand : AtHand q dir) :
    readSlot flatStore dev (fuel + 1) ⟨dir, disk, []⟩ =
      match slotAt (disk dev) ms q with
      | none => readSlot flatStore dev fuel ⟨{ dir with offset := dir.offset + 1 }, disk, []⟩
      | some a => DirIo.fill ⟨dir, disk, []⟩ (usedEntry (disk dev) dir.path a)
          (nameBytes dir.path (inodeAt (disk dev) a.1).name maxPath) := by
  obtain ⟨hdiv, hmod⟩ := slot_number hfit hoff
  have hptr : dir.blockPtr.toNat = q / 127 := by
    rw [hand.1, UInt32.toNat_ofNat']
    exact Nat.mod_eq_of_lt (by show q / 127 < 2 ^ 32; omega)
  have hblock : ms.getD (q / 127) inodeNull = dir.block := by
    rw [List.getD_eq_getElem?_getD, ← hptr, h.cached.resolve_left hand.2]
    rfl
  have hand' : dir.blockPtr = UInt32.ofNat (q / 127) ∧ dir.block ≠ inodeNull := hand
  rw [readSlot]
  simp only [hdiv, hmod]
  rw [if_pos hand', slotAt, hblock]
  by_cases hnull : (mapAt (disk dev) dir.block).entry (UInt32.ofNat (q % 127)) = inodeNull
  · rw [if_pos hnull]
    exact if_pos hnull
  · rw [if_neg hnull]
    exact if_neg hnull

/-- A slot of another block map of the chain: the scan gets that one to hand. -/
theorem readSlot_miss {q : ℕ} (fuel : ℕ) (hfit : q + 2 < 2 ^ 32) (hq : q < 127 * ms.length)
    (h : OnChain (disk dev) ms dir) (hoff : dir.offset.toNat = q + 2) (hand : ¬ AtHand q dir) :
    ∃ dir' : DirStream, dir' = { dir with blockPtr := dir'.blockPtr, block := dir'.block } ∧
      OnChain (disk dev) ms dir' ∧ AtHand q dir' ∧
      readSlot flatStore dev (fuel + 1) ⟨dir, disk, []⟩ = readSlot flatStore dev fuel ⟨dir', disk, []⟩ := by
  obtain ⟨hdiv, hmod⟩ := slot_number hfit hoff
  have hlt : q / 127 < ms.length := by omega
  have hnat : (UInt32.ofNat (q / 127)).toNat = q / 127 := by
    rw [UInt32.toNat_ofNat']
    exact Nat.mod_eq_of_lt (by show q / 127 < 2 ^ 32; omega)
  obtain ⟨b, hrun, hlinked⟩ := seek_flat (q / 127) ms
    { dir with blockPtr := 0, block := dir.data.next } h.linked (Nat.le_of_lt hlt)
  rw [List.drop_eq_getElem_cons hlt] at hlinked
  have hb : b ≠ inodeNull := hlinked.head_ne (List.cons_ne_nil _ _)
  have hzero : (0 : UInt32) + UInt32.ofNat (q / 127) = UInt32.ofNat (q / 127) := UInt32.zero_add _
  refine ⟨{ dir with blockPtr := UInt32.ofNat (q / 127), block := b }, rfl, ⟨h.linked, ?_⟩,
    ⟨rfl, hb⟩, ?_⟩
  · right
    show ms[(UInt32.ofNat (q / 127)).toNat]? = some b
    rw [hnat, List.getElem?_eq_getElem hlt, hlinked.1]
  · have hand' : ¬ (dir.blockPtr = UInt32.ofNat (q / 127) ∧ dir.block ≠ inodeNull) := hand
    rw [readSlot]
    simp only [hdiv, hmod]
    rw [if_neg hand', hnat, hrun]
    simp only [hzero]
    rw [if_neg fun hnull => hb hnull.2]

/-- Behind the last slot: NULL. -/
theorem readSlot_end (fuel : ℕ) (hfit : SlotsFit ms) (h : OnChain (disk dev) ms dir)
    (hoff : dir.offset.toNat = 127 * ms.length + 2) :
    ∃ dir' : DirStream, dir' = { dir with blockPtr := dir'.blockPtr, block := inodeNull } ∧
      readSlot flatStore dev (fuel + 1) ⟨dir, disk, []⟩ = some (none, ⟨dir', disk, []⟩) := by
  rw [SlotsFit] at hfit
  obtain ⟨hdiv, hmod⟩ := slot_number hfit hoff
  rw [Nat.mul_div_cancel_left _ (by decide : 0 < 127)] at hdiv
  have hnat : (UInt32.ofNat ms.length).toNat = ms.length := by
    rw [UInt32.toNat_ofNat']
    exact Nat.mod_eq_of_lt (by show ms.length < 2 ^ 32; omega)
  have hmiss : ¬ (dir.blockPtr = UInt32.ofNat ms.length ∧ dir.block ≠ inodeNull) := by
    rintro ⟨hptr, hb⟩
    have hcached := h.cached.resolve_left hb
    rw [hptr, hnat, List.getElem?_eq_none (le_refl _)] at hcached
    cases hcached
  obtain ⟨b, hrun, hlinked⟩ := seek_flat ms.length ms
    { dir with blockPtr := 0, block := dir.data.next } h.linked (le_refl _)
  rw [List.drop_length] at hlinked
  have hzero : (0 : UInt32) + UInt32.ofNat ms.length = UInt32.ofNat ms.length := UInt32.zero_add _
  refine ⟨{ dir with blockPtr := UInt32.ofNat ms.length, block := inodeNull }, rfl, ?_⟩
  rw [readSlot]
  simp only [hdiv]
  rw [if_neg hmiss, hnat, hrun]
  have hb : b = inodeNull := hlinked
  simp only [hzero, hb]
  rw [if_pos ⟨trivial, trivial⟩]

/-- The bytes that the entry of a used slot puts behind the stream. -/
def usedPast (d : Dev) (path : CStr) (a : BlockNo × BlockNo) : CStr :=
  (nameBytes path (inodeAt d a.1).name maxPath).drop (maxPath + 1)

/-- The first used slot from slot `q` on is returned, and the stream stops behind it. -/
def SlotRead (dev : DevNo) (disk : Disk) (ms : List BlockNo) (path : CStr) (q : ℕ)
    (r : Option (Option Dirent × DirIo Disk)) : Prop :=
  ∃ io q', r = some ((usedSlots (disk dev) ms q).head?.map (usedEntry (disk dev) path), io) ∧
    OnChain (disk dev) ms io.dir ∧ io.dir.path = path ∧ io.dir.offset.toNat = q' + 2 ∧
    q' ≤ 127 * ms.length ∧ usedSlots (disk dev) ms q' = (usedSlots (disk dev) ms q).tail ∧
    io.past = ((usedSlots (disk dev) ms q).head?.map (usedPast (disk dev) path)).getD []

/-- **The part of `kreaddir` from RETRY on** reads the next used slot. -/
theorem readSlot_flat (hfit : SlotsFit ms) {path : CStr} : ∀ (n q fuel : ℕ) (dir : DirStream),
    q + n = 127 * ms.length → 2 * n + 1 ≤ fuel → OnChain (disk dev) ms dir → dir.path = path →
    dir.offset.toNat = q + 2 →
    SlotRead dev disk ms path q (readSlot flatStore dev fuel ⟨dir, disk, []⟩) := by
  have hfit' : 127 * ms.length + 2 < 2 ^ 32 := hfit
  intro n
  induction n with
  | zero =>
      intro q fuel dir hn hfuel h hpath hoff
      obtain rfl : q = 127 * ms.length := hn
      obtain ⟨fuel, rfl⟩ := Nat.exists_eq_add_of_le' hfuel
      obtain ⟨dir', hdir, hrun⟩ := readSlot_end fuel hfit h hoff
      refine ⟨⟨dir', disk, []⟩, 127 * ms.length, ?_, ?_, ?_, ?_, le_refl _, ?_, ?_⟩
      · rw [usedSlots_end]
        exact hrun
      · rw [hdir]
        exact ⟨h.linked, Or.inl rfl⟩
      · rw [hdir]
        exact hpath
      · rw [hdir]
        exact hoff
      · rw [usedSlots_end]
        rfl
      · rw [usedSlots_end]
        rfl
  | succ n ih =>
      intro q fuel dir hn hfuel h hpath hoff
      have hq : q < 127 * ms.length := by omega
      -- Once the block map is at hand, one round reads the slot.
      have hhit : ∀ (fuel : ℕ) (dir : DirStream), 2 * n + 1 ≤ fuel → OnChain (disk dev) ms dir →
          dir.path = path → dir.offset.toNat = q + 2 → AtHand q dir →
          SlotRead dev disk ms path q (readSlot flatStore dev (fuel + 1) ⟨dir, disk, []⟩) := by
        intro fuel dir hfuel h hpath hoff hand
        have hsucc : (dir.offset + 1).toNat = q + 1 + 2 := by
          rw [Lib.toNat_succ (by omega), hoff]
        rw [readSlot_hit (by omega) h hoff hand, SlotRead, usedSlots_of_lt hq]
        cases hslot : slotAt (disk dev) ms q with
        | none =>
            exact ih (q + 1) fuel { dir with offset := dir.offset + 1 } (by omega) hfuel
              ⟨h.linked, h.cached⟩ hpath hsucc
        | some a =>
            subst hpath
            exact ⟨_, q + 1, rfl, ⟨h.linked, h.cached⟩, rfl, hsucc, hq, rfl, rfl⟩
      obtain ⟨fuel, rfl⟩ := Nat.exists_eq_add_of_le' (Nat.le_trans (Nat.le_add_left 2 _) hfuel)
      by_cases hand : AtHand q dir
      · exact hhit (fuel + 1) dir (by omega) h hpath hoff hand
      · obtain ⟨dir', hdir, hchain, hand', hrun⟩ :=
          readSlot_miss (fuel + 1) (by omega) hq h hoff hand
        rw [hrun]
        refine hhit fuel dir' (by omega) hchain ?_ ?_ hand'
        · rw [hdir]
          exact hpath
        · rw [hdir]
          exact hoff

/-- A stream that has returned `k` entries since it was opened or rewound. -/
structure StreamAt (d : Dev) (ms : List BlockNo) (path : CStr) (k : ℕ) (dir : DirStream) : Prop
    extends OnChain d ms dir where
  path_eq : dir.path = path
  offset : match k with
    | 0 => dir.offset = 0
    | 1 => dir.offset = 1
    | k + 2 => ∃ q, dir.offset.toNat = q + 2 ∧ q ≤ 127 * ms.length ∧
        usedSlots d ms q = (usedSlots d ms 0).drop k

/-- The number of entries that have been returned after one more call. -/
def advance (len k : ℕ) : ℕ := if k < len then k + 1 else k

/-- The calls for `.` and `..`. -/
theorem readStream_dots (fuel : ℕ) (hoff : dir.offset = 0 ∨ dir.offset = 1)
    (h : OnChain (disk dev) ms dir) :
    ∃ io, readStream flatStore dev fuel ⟨dir, disk, []⟩ =
        some (some (dotEntry dir.path (if dir.offset = 0 then [dot] else [dot, dot])), io) ∧
      OnChain (disk dev) ms io.dir ∧ io.dir.path = dir.path ∧ io.dir.offset = dir.offset + 1 := by
  rw [readStream]
  exact ⟨_, if_pos hoff, ⟨h.linked, h.cached⟩, rfl, rfl⟩

/-- **One call of `kreaddir`** returns the next entry of the listing, or NULL at its end. -/
theorem readStream_flat (hfit : SlotsFit ms) {path : CStr} {k : ℕ} {fuel : ℕ}
    (hfuel : 2 * (127 * ms.length) + 1 ≤ fuel) (h : StreamAt (disk dev) ms path k dir) :
    ∃ io, readStream flatStore dev fuel ⟨dir, disk, []⟩ =
        some ((listing (disk dev) ms path)[k]?, io) ∧
      StreamAt (disk dev) ms path (advance (listing (disk dev) ms path).length k) io.dir := by
  have hlen : (listing (disk dev) ms path).length = (usedSlots (disk dev) ms 0).length + 2 :=
    length_listing
  have hoff := h.offset
  obtain rfl := h.path_eq
  match k with
  | 0 =>
    have h0 : dir.offset = 0 := hoff
    obtain ⟨io, hrun, hchain, hpath, hnext⟩ := readStream_dots fuel (Or.inl h0) h.toOnChain
    refine ⟨io, ?_, ⟨hchain, hpath, ?_⟩⟩
    · rw [hrun, if_pos h0]
      rfl
    · rw [advance, if_pos (by omega)]
      show io.dir.offset = 1
      rw [hnext, h0]
      rfl
  | 1 =>
    have h1 : dir.offset = 1 := hoff
    obtain ⟨io, hrun, hchain, hpath, hnext⟩ := readStream_dots fuel (Or.inr h1) h.toOnChain
    refine ⟨io, ?_, ⟨hchain, hpath, ?_⟩⟩
    · rw [hrun, if_neg (by rw [h1]; decide)]
      rfl
    · rw [advance, if_pos (by omega)]
      refine ⟨0, ?_, Nat.zero_le _, rfl⟩
      rw [hnext, h1]
      rfl
  | k + 2 =>
    obtain ⟨q, hq, hle, hdrop⟩ := hoff
    have hentry : ¬ (dir.offset = 0 ∨ dir.offset = 1) := by
      rintro (h0 | h0)
      · rw [h0] at hq
        cases hq
      · rw [h0] at hq
        exact absurd hq (by show 1 ≠ q + 2; omega)
    obtain ⟨io, q', hrun, hchain, hpath, hoff', hle', htail, -⟩ := readSlot_flat hfit
      (127 * ms.length - q) q fuel dir (by omega) (by omega) h.toOnChain rfl hq
    refine ⟨io, ?_, ⟨hchain, hpath, ?_⟩⟩
    · rw [readStream]
      simp only
      rw [if_neg hentry, hrun, hdrop, List.head?_drop, listing, List.getElem?_cons_succ,
        List.getElem?_cons_succ, List.getElem?_map]
    · rw [hdrop, List.tail_drop] at htail
      rw [advance, hlen]
      by_cases hk : k + 2 < (usedSlots (disk dev) ms 0).length + 2
      · rw [if_pos hk]
        exact ⟨q', hoff', hle', htail⟩
      · rw [if_neg hk]
        refine ⟨q', hoff', hle', ?_⟩
        rw [htail, List.drop_eq_nil_of_le (by omega), List.drop_eq_nil_of_le (by omega)]

end Stream

/-! ## What a call leaves alone -/

section Frame
variable {d : Dev} {dev : DevNo} {disk : Disk} {dir : DirStream} {fuel : ℕ}

/-- The block maps that a stream can come to. -/
inductive DirStream.OnMap (d : Dev) (dir : DirStream) : BlockNo → Prop
  | head : OnMap d dir dir.data.next
  | cached : OnMap d dir dir.block
  | next {m : BlockNo} : OnMap d dir m → m ≠ inodeNull → OnMap d dir (mapAt d m).next

/-- The names that a call may put behind the path and a slash. -/
inductive DirStream.MayRead (d : Dev) (dir : DirStream) : CStr → Prop
  | dot : dir.offset = 0 → MayRead d dir [dot]
  | dots : dir.offset = 1 → MayRead d dir [dot, dot]
  | entry {m o : BlockNo} : ¬ (dir.offset = 0 ∨ dir.offset = 1) → OnMap d dir m → m ≠ inodeNull →
      (mapAt d m).entry o ≠ inodeNull → MayRead d dir (inodeAt d ((mapAt d m).entry o)).name

/-- **The path, a slash and each name** that the next call may read fit into `d_name`. -/
def DirStream.NamesFit (d : Dev) (dir : DirStream) : Prop :=
  ∀ name, dir.MayRead d name → dir.path.length + 1 + name.length < maxPath

/-- What the loop of `kreaddir` leaves as it is. -/
structure Scanning (dev : DevNo) (disk : Disk) (dir : DirStream) (s : DirIo Disk) : Prop where
  store : s.store = disk
  past : s.past = []
  fd : s.dir.fd = dir.fd
  allocation : s.dir.allocation = dir.allocation
  path : s.dir.path = dir.path
  data : s.dir.data = dir.data
  block : dir.OnMap (disk dev) s.dir.block

theorem Scanning.start : Scanning dev disk dir ⟨dir, disk, []⟩ :=
  ⟨rfl, rfl, rfl, rfl, rfl, rfl, .cached⟩

theorem keeps_seekStep : Attempt.Keeps (Scanning dev disk dir) (seekStep flatStore dev) := by
  intro s h
  rw [seekStep]
  split
  · exact h
  · rename_i hb
    refine ⟨h.store, h.past, h.fd, h.allocation, h.path, h.data, ?_⟩
    have hnext := h.block.next hb
    rw [← h.store] at hnext ⊢
    exact hnext

/-- Only the stream changes, and what is behind it only by a name that does not fit. -/
structure ReadLeaves (dev : DevNo) (disk : Disk) (dir : DirStream) (io : DirIo Disk) : Prop where
  store : io.store = disk
  fd : io.dir.fd = dir.fd
  allocation : io.dir.allocation = dir.allocation
  data : io.dir.data = dir.data
  past : dir.NamesFit (disk dev) → io.past = []

theorem Scanning.leaves {s : DirIo Disk} (h : Scanning dev disk dir s) :
    ReadLeaves dev disk dir s :=
  ⟨h.store, h.fd, h.allocation, h.data, fun _ => h.past⟩

theorem readSlot_leaves (hentry : ¬ (dir.offset = 0 ∨ dir.offset = 1)) {r : Option Dirent}
    {io s : DirIo Disk} (h : Scanning dev disk dir s)
    (hrun : readSlot flatStore dev fuel s = some (r, io)) : ReadLeaves dev disk dir io := by
  induction fuel generalizing s with
  | zero => cases hrun
  | succ fuel ih =>
      rw [readSlot] at hrun
      simp only at hrun
      split at hrun
      · rename_i hand
        simp only [flatStore] at hrun
        split at hrun
        · refine ih ?_ hrun
          exact ⟨h.store, h.past, h.fd, h.allocation, h.path, h.data, h.block⟩
        · rename_i hino
          simp only [DirIo.fill, Option.some.injEq, Prod.mk.injEq] at hrun
          obtain ⟨-, rfl⟩ := hrun
          refine ⟨h.store, h.fd, h.allocation, h.data, fun hfit => ?_⟩
          rw [h.store] at hino ⊢
          rw [h.path]
          exact drop_nameBytes (hfit _ (.entry hentry h.block hand.2 hino))
      · have hhead : Scanning dev disk dir
            { s with dir := { s.dir with blockPtr := 0, block := s.dir.data.next } } := by
          refine ⟨h.store, h.past, h.fd, h.allocation, h.path, h.data, ?_⟩
          show dir.OnMap (disk dev) s.dir.data.next
          rw [h.data]
          exact .head
        split at hrun
        · rename_i s' hseek
          cases hrun
          exact ((Attempt.Keeps.iterate (fun _ => keeps_seekStep) _ ()).after hhead hseek).leaves
        · rename_i s' hseek
          have hs' := (Attempt.Keeps.iterate (fun _ => keeps_seekStep) _ ()).after hhead hseek
          split at hrun
          · cases hrun
            exact hs'.leaves
          · exact ih hs' hrun

/-- **One call of `kreaddir`**, on any stream. -/
theorem readStream_leaves {r : Option Dirent} {io : DirIo Disk}
    (hrun : readStream flatStore dev fuel ⟨dir, disk, []⟩ = some (r, io)) :
    ReadLeaves dev disk dir io := by
  rw [readStream] at hrun
  split at hrun
  · rename_i hoff
    simp only [DirIo.fill, Option.some.injEq, Prod.mk.injEq] at hrun
    obtain ⟨-, rfl⟩ := hrun
    refine ⟨rfl, rfl, rfl, rfl, fun hfit => ?_⟩
    have hoff' : dir.offset = 0 ∨ dir.offset = 1 := hoff
    by_cases h0 : dir.offset = 0
    · rw [if_pos h0]
      exact drop_nameBytes (hfit _ (.dot h0))
    · rw [if_neg h0]
      exact drop_nameBytes (hfit _ (.dots (hoff'.resolve_left h0)))
  · rename_i hoff
    exact readSlot_leaves hoff .start hrun

end Frame

/-! ## Runs -/

/-- A stream of the table that is not open is at the start and keeps no block map, and one that is
open names itself. -/
structure DirStream.Sound (j : Fin maxDir) (dir : DirStream) : Prop where
  closed : dir.allocation = 0 → dir.offset = 0 ∧ dir.block = inodeNull
  opened : dir.allocation ≠ 0 → dir.fd = Int32.ofNat j

def StreamsOk (p : Proc) : Prop := ∀ j, (p.dirTab j).Sound j

theorem DirStream.Sound.zero (j : Fin maxDir) : DirStream.zero.Sound j :=
  ⟨fun _ => ⟨rfl, rfl⟩, fun h => absurd rfl h⟩

theorem DirStream.index_of_fd {dir : DirStream} {j : Fin maxDir} (h : dir.fd = Int32.ofNat j) :
    dir.index = some j := by
  have hj : (j : ℕ) < 1024 := j.isLt
  have hint : dir.fd.toInt = (j : ℤ) := by
    rw [h, Int32.toInt_ofNat_of_lt (by omega)]
  have hnat : dir.fd.toInt.toNat = j := by rw [hint, Int.toNat_natCast]
  rw [DirStream.index, dif_pos ⟨by omega, by rw [hnat]; exact j.isLt⟩]
  exact congrArg some (Fin.ext hnat)

/-- The calls on the streams of a process, and other calls, which may bring the system into a new
state. -/
inductive DirOp
  | opendir (now : BlockNo) (path : CStr)
  | closedir (now : BlockNo) (i : Fin maxDir)
  | rewinddir (i : Fin maxDir)
  | readdir (now : BlockNo) (i : Fin maxDir)
  | other (s : Sys Disk)

section Runs
variable {i j : Fin maxDir} {ms : List BlockNo} {path : CStr} {k fuel : ℕ} {s s' : Sys Disk}
  {op : DirOp} {now : BlockNo} {p : Proc} {dir : DirStream}

/-- The contents of the device that the calls work on. -/
def Sys.device (s : Sys Disk) : Dev := s.fs.store (masterGetDev s)

/-- The system with another stream in the table. -/
def Sys.setDir (s : Sys Disk) (i : Fin maxDir) (d : DirStream) : Sys Disk :=
  { s with proc := s.proc.setDir i d }

theorem Sys.device_setDir (d : DirStream) : (s.setDir i d).device = s.device := rfl

@[simp] theorem Sys.setDir_self (d : DirStream) : (s.setDir i d).proc.dirTab i = d :=
  Proc.setDir_self ..

theorem Sys.setDir_of_ne (h : j ≠ i) (d : DirStream) :
    (s.setDir i d).proc.dirTab j = s.proc.dirTab j := Proc.setDir_of_ne _ h _

theorem Sys.setDir_setDir (d d' : DirStream) : (s.setDir i d).setDir i d' = s.setDir i d' := by
  simp only [setDir, Proc.setDir, Function.update_idem]

/-- One call, with what a `kreaddir` that returns gives back. -/
def DirOp.step (fuel : ℕ) : DirOp → Sys Disk → Option (Option Dirent) × Sys Disk
  | .opendir now path, s =>
    match kopendir flatStore fuel now path s with
    | some (_, s') => (none, s')
    | none => (none, s)
  | .closedir now i, s => (none, (kclosedir flatStore now i s).2)
  | .rewinddir i, s => (none, krewinddir i s)
  | .readdir now i, s =>
    match kreaddir flatStore fuel now i s with
    | some (e, s') => (some e, s')
    | none => (none, s)
  | .other s', _ => (none, s')

/-- The calls of a process as a machine. -/
def dirMachine (fuel : ℕ) : Lib.Machine (Sys Disk) DirOp (Option (Option Dirent)) where
  step := DirOp.step fuel

/-- The calls get streams that are open, and other calls leave the streams alone. -/
def DirOp.Proper (s : Sys Disk) : DirOp → Prop
  | .opendir _ _ => True
  | .closedir _ j => (s.proc.dirTab j).allocation ≠ 0
  | .rewinddir j => (s.proc.dirTab j).allocation ≠ 0
  | .readdir _ j => (s.proc.dirTab j).allocation ≠ 0
  | .other s' => s'.proc.dirTab = s.proc.dirTab

/-- The names that are read fit into `d_name`. -/
def DirOp.Fits (s : Sys Disk) : DirOp → Prop
  | .readdir _ j => (s.proc.dirTab j).NamesFit s.device
  | _ => True

/-- The call leaves stream `i` open and its block maps alone. -/
structure DirOp.Keeps (fuel : ℕ) (i : Fin maxDir) (ms : List BlockNo) (s : Sys Disk) (op : DirOp) :
    Prop where
  proper : op.Proper s
  notClosed : ∀ now, op ≠ .closedir now i
  maps : ∀ m ∈ ms, (op.step fuel s).2.device m = s.device m

/-- The streams that a call may change. -/
def DirOp.On (s : Sys Disk) (j : Fin maxDir) : DirOp → Prop
  | .opendir _ _ => (s.proc.dirTab j).allocation = 0
  | .closedir _ j' => j' = j
  | .rewinddir j' => j' = j
  | .readdir _ j' => j' = j
  | .other _ => False

/-- The number of entries that stream `i` has returned, after one more call. -/
def DirOp.cursor (i : Fin maxDir) (len k : ℕ) : DirOp → ℕ
  | .readdir _ j => if j = i then advance len k else k
  | .rewinddir j => if j = i then 0 else k
  | _ => k

/-! ## What the calls do -/

/-- `kopendir` takes a stream that is not open. -/
theorem kopendir_cases {r : Option (Fin maxDir)} {path : CStr}
    (h : kopendir flatStore fuel now path s = some (r, s')) :
    (r = none ∧ s'.proc.dirTab = s.proc.dirTab) ∨
      ∃ j d, (s.proc.dirTab j).allocation = 0 ∧
        s'.proc.dirTab = Function.update s.proc.dirTab j d ∧
        d.offset = (s.proc.dirTab j).offset ∧ d.block = (s.proc.dirTab j).block ∧
        (r = none ∧ d.allocation = 0 ∨
          r = some j ∧ d.allocation ≠ 0 ∧ d.fd = Int32.ofNat j ∧ d.path = path.take maxPath) := by
  unfold kopendir at h
  split at h
  · cases h
    exact .inl ⟨rfl, rfl⟩
  · rename_i j hj
    have hfree : (s.proc.dirTab j).allocation = 0 := by simpa using List.find?_some hj
    obtain ⟨⟨x, s₁⟩, hget, h⟩ := Option.bind_eq_some_iff.mp h
    have hproc : s₁.proc = s.proc := Sys.call_proc hget
    simp only at h
    split at h
    · simp only [Option.pure_def, Option.some.injEq, Prod.mk.injEq] at h
      obtain ⟨rfl, rfl⟩ := h
      rw [hproc]
      exact .inr ⟨j, _, hfree, rfl, rfl, rfl, .inl ⟨rfl, rfl⟩⟩
    · simp only [Option.pure_def, Option.some.injEq, Prod.mk.injEq] at h
      obtain ⟨rfl, rfl⟩ := h
      rw [hproc]
      have hopen : (512 : UInt32) ≠ 0 := by decide
      exact .inr ⟨j, _, hfree, rfl, rfl, rfl, .inr ⟨rfl, hopen, rfl, rfl⟩⟩

/-- `kreaddir` on a stream that names itself. -/
theorem kreaddir_of_index (hidx : (s.proc.dirTab i).index = some i) :
    kreaddir flatStore fuel now i s =
      (readStream flatStore (masterGetDev s) fuel
        ⟨(s.proc.dirTab i).accessed now, s.fs.store, []⟩).map fun r =>
          (r.1, { s with
            proc := (s.proc.setDir i r.2.dir).spill i r.2.past
            fs := { s.fs with store := r.2.store } }) := by
  have htouched : ∀ d, (s.proc.setDir i d).dirTab i = d := fun d => Function.update_self ..
  have htwice : ∀ d d', (s.proc.setDir i d).setDir i d' = s.proc.setDir i d' := by
    intro d d'
    simp only [Proc.setDir, Function.update_idem]
  rw [kreaddir, hidx, Option.bind_eq_bind, Option.bind_some]
  simp only [htouched, htwice]
  cases readStream flatStore (masterGetDev s) fuel
    ⟨(s.proc.dirTab i).accessed now, s.fs.store, []⟩ <;> rfl

theorem DirStream.OnMap.accessed {d : Dev} {m : BlockNo} (h : (dir.accessed now).OnMap d m) :
    dir.OnMap d m := by
  induction h with
  | head => exact .head
  | cached => exact .cached
  | next _ hm ih => exact .next ih hm

theorem DirStream.NamesFit.accessed {d : Dev} (h : dir.NamesFit d) :
    (dir.accessed now).NamesFit d := by
  intro name hname
  apply h
  cases hname with
  | dot h0 => exact .dot h0
  | dots h1 => exact .dots h1
  | entry hentry hmap hm he => exact .entry hentry hmap.accessed hm he

/-- **What a call does to the streams**: it changes at most one, which stays sound. -/
theorem DirOp.step_cases (fuel : ℕ) (hok : StreamsOk s.proc) (hop : op.Proper s) (hfit : op.Fits s) :
    (op.step fuel s).2.proc.dirTab = s.proc.dirTab ∨
      ∃ j d, op.On s j ∧ d.Sound j ∧
        (op.step fuel s).2.proc.dirTab = Function.update s.proc.dirTab j d := by
  cases op with
  | opendir now path =>
      cases hrun : kopendir flatStore fuel now path s with
      | none => exact .inl (by rw [DirOp.step, hrun])
      | some a =>
          obtain ⟨r, s'⟩ := a
          have hstep : (DirOp.step fuel (.opendir now path) s).2 = s' := by rw [DirOp.step, hrun]
          rw [hstep]
          rcases kopendir_cases hrun with ⟨-, hsame⟩ | ⟨j, d, hfree, hset, hoff, hblock, hres⟩
          · exact .inl hsame
          · refine .inr ⟨j, d, hfree, ⟨fun _ => ?_, fun hne => ?_⟩, hset⟩
            · rw [hoff, hblock]
              exact (hok j).closed hfree
            · rcases hres with ⟨-, hclosed⟩ | ⟨-, -, hfd, -⟩
              · exact absurd hclosed hne
              · exact hfd
  | closedir now j =>
      have hidx := DirStream.index_of_fd ((hok j).opened hop)
      refine .inr ⟨j, .zero, rfl, .zero j, ?_⟩
      simp only [DirOp.step, kclosedir, hidx]
      rfl
  | rewinddir j =>
      have hidx := DirStream.index_of_fd ((hok j).opened hop)
      refine .inr ⟨j, { s.proc.dirTab j with offset := 0 }, rfl,
        ⟨fun h => absurd h hop, fun _ => (hok j).opened hop⟩, ?_⟩
      simp only [DirOp.step, krewinddir, hidx]
      rfl
  | readdir now j =>
      have hidx := DirStream.index_of_fd ((hok j).opened hop)
      cases hrun : readStream flatStore (masterGetDev s) fuel
          ⟨(s.proc.dirTab j).accessed now, s.fs.store, []⟩ with
      | none =>
          refine .inl ?_
          rw [DirOp.step, kreaddir_of_index hidx, hrun]
          rfl
      | some a =>
          obtain ⟨r, io⟩ := a
          have hleaves := readStream_leaves hrun
          have hfits : (s.proc.dirTab j).NamesFit s.device := hfit
          refine .inr ⟨j, io.dir, rfl, ⟨fun h => ?_, fun _ => ?_⟩, ?_⟩
          · rw [hleaves.allocation] at h
            exact absurd h hop
          · rw [hleaves.fd]
            exact (hok j).opened hop
          · rw [DirOp.step, kreaddir_of_index hidx, hrun]
            show ((s.proc.setDir j io.dir).spill j io.past).dirTab = _
            rw [hleaves.past hfits.accessed, Proc.spill_nil]
            rfl
  | other s' => exact .inl hop

theorem StreamsOk.step (hok : StreamsOk s.proc) (hop : op.Proper s) (hfit : op.Fits s) :
    StreamsOk (op.step fuel s).2.proc := by
  intro j
  rcases DirOp.step_cases fuel hok hop hfit with hsame | ⟨j', d, -, hsound, hset⟩
  · rw [hsame]
    exact hok j
  · rw [hset]
    by_cases hj : j = j'
    · subst hj
      rw [Function.update_self]
      exact hsound
    · rw [Function.update_of_ne hj]
      exact hok j

/-- **The streams stay sound** in every run whose names fit. -/
theorem StreamsOk.exec (hok : StreamsOk s.proc) (ops : List DirOp)
    (hops : (dirMachine fuel).Admits (fun s op => op.Proper s ∧ op.Fits s) ops s) :
    StreamsOk ((dirMachine fuel).exec ops s).proc :=
  Lib.Machine.exec_invariant (P := fun s : Sys Disk => StreamsOk s.proc)
    (fun _ _ hok hop => hok.step hop.1 hop.2) ops s hok hops


/-! ## The stream of a directory -/

/-- The stream of a directory in the table of the process, with the number of entries it has
returned. -/
structure ReadsDir (i : Fin maxDir) (ms : List BlockNo) (path : CStr) (k : ℕ) (s : Sys Disk) :
    Prop where
  ok : StreamsOk s.proc
  isOpen : (s.proc.dirTab i).allocation ≠ 0
  reads : StreamAt s.device ms path k (s.proc.dirTab i)

theorem StreamAt.accessed {d : Dev} (h : StreamAt d ms path k dir) (now : BlockNo) :
    StreamAt d ms path k (dir.accessed now) :=
  ⟨⟨h.linked, h.cached⟩, h.path_eq, h.offset⟩

/-- `kreaddir` on an open stream. -/
theorem kreaddir_flat (hfit : SlotsFit ms) (hfuel : 2 * (127 * ms.length) + 1 ≤ fuel)
    (h : ReadsDir i ms path k s) (now : BlockNo) :
    ∃ io : DirIo Disk, kreaddir flatStore fuel now i s = some ((listing s.device ms path)[k]?,
        { s with
          proc := (s.proc.setDir i io.dir).spill i io.past
          fs := { s.fs with store := s.fs.store } }) ∧
      ReadLeaves (masterGetDev s) s.fs.store ((s.proc.dirTab i).accessed now) io ∧
      StreamAt s.device ms path (advance (listing s.device ms path).length k) io.dir := by
  obtain ⟨io, hrun, hat⟩ := readStream_flat hfit hfuel (h.reads.accessed now)
  have hleaves := readStream_leaves hrun
  refine ⟨io, ?_, hleaves, hat⟩
  rw [kreaddir_of_index (DirStream.index_of_fd ((h.ok i).opened h.isOpen)), hrun]
  simp only [Option.map_some, hleaves.store]
  rfl

theorem StreamAt.congr {d d' : Dev} {dir : DirStream} (h : StreamAt d ms path k dir)
    (hd : ∀ m ∈ ms, d' m = d m) : StreamAt d' ms path k dir where
  linked := h.linked.congr hd
  cached := h.cached
  path_eq := h.path_eq
  offset := by
    have hoff := h.offset
    match k with
    | 0 => exact hoff
    | 1 => exact hoff
    | k + 2 =>
      obtain ⟨q, ho, hle, hdrop⟩ := hoff
      exact ⟨q, ho, hle, by rw [usedSlots_congr hd, usedSlots_congr hd, hdrop]⟩

/-- The number of entries does not change as long as the block maps do not. -/
theorem length_listing_congr {d d' : Dev} (hd : ∀ m ∈ ms, d' m = d m) :
    (listing d' ms path).length = (listing d ms path).length := by
  rw [length_listing, length_listing, usedSlots_congr hd]

/-- `kreaddir` of a name that fits. -/
theorem ReadsDir.read (hslots : SlotsFit ms) (hfuel : 2 * (127 * ms.length) + 1 ≤ fuel)
    (h : ReadsDir i ms path k s) (hfits : (s.proc.dirTab i).NamesFit s.device) (now : BlockNo) :
    ∃ dir : DirStream,
      kreaddir flatStore fuel now i s = some ((listing s.device ms path)[k]?, s.setDir i dir) ∧
      dir.data = ((s.proc.dirTab i).accessed now).data ∧
      ReadsDir i ms path (advance (listing s.device ms path).length k) (s.setDir i dir) := by
  obtain ⟨io, hrun, hleaves, hat⟩ := kreaddir_flat hslots hfuel h now
  rw [hleaves.past hfits.accessed, Proc.spill_nil] at hrun
  refine ⟨io.dir, hrun, hleaves.data, fun j => ?_, ?_, ?_⟩
  · by_cases hj : j = i
    · subst hj
      rw [Sys.setDir_self]
      refine ⟨fun h0 => ?_, fun _ => ?_⟩
      · rw [hleaves.allocation] at h0
        exact absurd h0 h.isOpen
      · rw [hleaves.fd]
        exact (h.ok j).opened h.isOpen
    · rw [Sys.setDir_of_ne hj]
      exact h.ok j
  · rw [Sys.setDir_self, hleaves.allocation]
    exact h.isOpen
  · rw [Sys.setDir_self]
    exact hat

/-- A call that is not on the stream. -/
theorem ReadsDir.of_not_on (h : ReadsDir i ms path k s) (hop : op.Keeps fuel i ms s)
    (hfit : op.Fits s) (hon : ¬ op.On s i) : ReadsDir i ms path k (op.step fuel s).2 := by
  have hsame : (op.step fuel s).2.proc.dirTab i = s.proc.dirTab i := by
    rcases DirOp.step_cases fuel h.ok hop.proper hfit with hsame | ⟨j, d, hj, -, hset⟩
    · rw [hsame]
    · rw [hset, Function.update_of_ne]
      rintro rfl
      exact hon hj
  refine ⟨h.ok.step hop.proper hfit, ?_, ?_⟩
  · rw [hsame]
    exact h.isOpen
  · rw [hsame]
    exact h.reads.congr hop.maps

/-- One step of a run keeps the stream on the directory. -/
theorem ReadsDir.step (hslots : SlotsFit ms) (hfuel : 2 * (127 * ms.length) + 1 ≤ fuel)
    (h : ReadsDir i ms path k s) (hop : op.Keeps fuel i ms s) (hfit : op.Fits s) :
    ReadsDir i ms path (op.cursor i (listing s.device ms path).length k) (op.step fuel s).2 := by
  cases op with
  | opendir now path' => exact h.of_not_on hop hfit h.isOpen
  | closedir now j =>
      refine h.of_not_on hop hfit ?_
      rintro rfl
      exact hop.notClosed now rfl
  | rewinddir j =>
      by_cases hj : j = i
      · subst hj
        have hidx := DirStream.index_of_fd ((h.ok j).opened h.isOpen)
        have hstep : ((DirOp.rewinddir j).step fuel s).2.proc.dirTab j =
            { s.proc.dirTab j with offset := 0 } := by
          simp only [DirOp.step, krewinddir, hidx]
          exact Function.update_self ..
        rw [DirOp.cursor, if_pos rfl]
        refine ⟨h.ok.step hop.proper hfit, ?_, ?_⟩
        · rw [hstep]
          exact h.isOpen
        · rw [hstep]
          exact StreamAt.congr ⟨⟨h.reads.linked, h.reads.cached⟩, h.reads.path_eq, rfl⟩ hop.maps
      · rw [DirOp.cursor, if_neg hj]
        exact h.of_not_on hop hfit hj
  | readdir now j =>
      by_cases hj : j = i
      · subst hj
        obtain ⟨dir, hrun, -, hnext⟩ := h.read hslots hfuel hfit now
        rw [DirOp.cursor, if_pos rfl, DirOp.step, hrun]
        exact hnext
      · rw [DirOp.cursor, if_neg hj]
        exact h.of_not_on hop hfit hj
  | other s' => exact h.of_not_on hop hfit not_false

/-- **A stream stays on its directory.** Along every run whose names fit the stream has returned as
many entries as the calls since it was opened or rewound ask for. -/
theorem ReadsDir.exec (hslots : SlotsFit ms) (hfuel : 2 * (127 * ms.length) + 1 ≤ fuel)
    (ops : List DirOp) (h : ReadsDir i ms path k s)
    (hops : (dirMachine fuel).Admits (fun s op => op.Keeps fuel i ms s ∧ op.Fits s) ops s) :
    ReadsDir i ms path (ops.foldl (DirOp.cursor i (listing s.device ms path).length) k)
      ((dirMachine fuel).exec ops s) := by
  induction ops generalizing s k with
  | nil => exact h
  | cons op ops ih =>
      obtain ⟨⟨hkeep, hfit⟩, hrest⟩ := hops
      have hrun := ih (h.step hslots hfuel hkeep hfit) hrest
      rw [length_listing_congr hkeep.maps] at hrun
      exact hrun

/-- What `kopendir` leaves. -/
theorem kopendir_opens (hok : StreamsOk s.proc)
    (hopen : kopendir flatStore fuel now path s = some (some i, s'))
    (hchain : Linked s'.device (s'.proc.dirTab i).data.next ms) :
    ReadsDir i ms (path.take maxPath) 0 s' := by
  rcases kopendir_cases hopen with ⟨hr, -⟩ | ⟨j, d, hfree, hset, hoff, hblock, hres⟩
  · cases hr
  · rcases hres with ⟨hr, -⟩ | ⟨hr, hne, hfd, hpath⟩
    · cases hr
    · obtain rfl : i = j := Option.some.inj hr
      obtain ⟨hzero, hnull⟩ := (hok i).closed hfree
      have hdir : s'.proc.dirTab i = d := by rw [hset, Function.update_self]
      refine ⟨fun j => ?_, ?_, ⟨⟨hchain, ?_⟩, ?_, ?_⟩⟩
      · rw [hset]
        by_cases hj : j = i
        · subst hj
          rw [Function.update_self]
          exact ⟨fun h => absurd h hne, fun _ => hfd⟩
        · rw [Function.update_of_ne hj]
          exact hok j
      · rw [hdir]
        exact hne
      · rw [hdir, hblock]
        exact .inl hnull
      · rw [hdir]
        exact hpath
      · show (s'.proc.dirTab i).offset = 0
        rw [hdir, hoff]
        exact hzero

/-- Every block map of an allocated chain is counted once, so the slots can be counted. -/
theorem slotsFit_of_covers {d : Dev} {next : BlockNo} {size : BlockNo} (h : Linked d next ms)
    (hcov : ∀ m ∈ ms, (volumeShape (size / 512)).Covers .bmap m) : SlotsFit ms := by
  have hn := volumeSize_lt size
  have hsound := volumeShape_sound hn
  have hsub : ms.toFinset ⊆ (volumeShape (size / 512)).covered .bmap := by
    intro m hm
    exact (Shape.mem_covered hsound).mpr (hcov m (List.mem_toFinset.mp hm))
  have hle := Finset.card_le_card hsub
  rw [List.toFinset_card_of_nodup h.nodup, Shape.card_covered hsound, volumeShape_mapLen hn] at hle
  have hmap : mapBlocks (volumeCount (size / 512).toNat .bmap) ≤ 4096 := by
    simp only [mapBlocks, volumeCount, volumeBlocks]
    omega
  rw [SlotsFit]
  omega

/-- **A directory stream lists its directory.** While the directory does not change, after
any calls on the streams of the process and elsewhere, `kreaddir` returns the entry that comes
next since the stream was opened or rewound: `.`, `..`, the entries of the used slots in the order
of the chain, and then NULL, if every name that was read fits into `d_name`. -/
theorem kreaddir_lists {size : BlockNo} {fuel' : ℕ} {before ops : List DirOp}
    (hok : StreamsOk s.proc)
    (hbefore : (dirMachine fuel).Admits (fun s op => op.Proper s ∧ op.Fits s) before s)
    (hopen : kopendir flatStore fuel' now path ((dirMachine fuel).exec before s) =
      some (some i, s'))
    (hchain : Linked s'.device (s'.proc.dirTab i).data.next ms)
    (halloc : ∀ m ∈ ms, (volumeShape (size / 512)).Covers .bmap m)
    (hfuel : 2 * (127 * ms.length) + 1 ≤ fuel)
    (hops : (dirMachine fuel).Admits (fun s op => op.Keeps fuel i ms s ∧ op.Fits s) ops s')
    (now' : BlockNo) :
    ∃ s'', kreaddir flatStore fuel now' i ((dirMachine fuel).exec ops s') =
      some ((listing ((dirMachine fuel).exec ops s').device ms (path.take maxPath))[
        ops.foldl (DirOp.cursor i (listing s'.device ms (path.take maxPath)).length) 0]?, s'') := by
  have hslots := slotsFit_of_covers hchain halloc
  have hstart := kopendir_opens (hok.exec before hbefore) hopen hchain
  obtain ⟨io, hrun, -⟩ := kreaddir_flat hslots hfuel (hstart.exec hslots hfuel ops hops) now'
  exact ⟨_, hrun⟩

/-! ## Directories whose names fit -/

/-- Every name of a directory fits, with the path and a slash. -/
structure ListingFits (d : Dev) (ms : List BlockNo) (path : CStr) : Prop where
  dots : path.length + 3 < maxPath
  names : ∀ m ∈ ms, ∀ o, (mapAt d m).entry o ≠ inodeNull →
    path.length + 1 + (inodeAt d ((mapAt d m).entry o)).name.length < maxPath

/-- The name in the entry of a slot. -/
theorem cstr_slotEntry {ino off : UInt32} {n : Inode} (hpath : ∀ c ∈ path, c ≠ 0)
    (hfit : path.length + 1 + n.name.length < maxPath) :
    cstr (slotEntry path ino off n).name = path ++ [slash] ++ n.name :=
  cstr_nameBytes (n := maxPath) hpath (cstr_nonzero _) hfit (by omega)

/-- **The names of a listing** are the path, a slash and the name in the inode. -/
theorem ListingFits.cstr_listing {d : Dev} (h : ListingFits d ms path) (hpath : ∀ c ∈ path, c ≠ 0) :
    (listing d ms path).map (fun e => cstr e.name) =
      (path ++ [slash] ++ [dot]) :: (path ++ [slash] ++ [dot, dot]) ::
        (usedSlots d ms 0).map fun a => path ++ [slash] ++ (inodeAt d a.1).name := by
  have hdots := h.dots
  have hone : ∀ c ∈ [dot], c ≠ 0 := List.forall_mem_singleton.mpr (by decide)
  have htwo : ∀ c ∈ [dot, dot], c ≠ 0 := List.forall_mem_cons.mpr ⟨by decide, hone⟩
  have hdot : cstr (dotEntry path [dot]).name = path ++ [slash] ++ [dot] :=
    cstr_nameBytes hpath hone (by rw [List.length_singleton]; omega) (le_refl _)
  have hdotdot : cstr (dotEntry path [dot, dot]).name = path ++ [slash] ++ [dot, dot] :=
    cstr_nameBytes hpath htwo hdots (le_refl _)
  rw [listing, List.map_cons, List.map_cons, hdot, hdotdot, List.map_map]
  congr 2
  refine List.map_congr_left fun a ha => ?_
  obtain ⟨q, hq, hslot⟩ := List.mem_filterMap.mp ha
  have hlt : q / 127 < ms.length := by
    have hrange := List.mem_range'_1.mp hq
    omega
  have hmem : ms.getD (q / 127) inodeNull ∈ ms := by
    rw [List.getD_eq_getElem _ _ hlt]
    exact List.getElem_mem hlt
  have hfit : path.length + 1 + (inodeAt d a.1).name.length < maxPath := by
    rw [slotAt] at hslot
    split at hslot
    · cases hslot
    · rename_i hne
      rw [← Option.some.inj hslot]
      exact h.names _ hmem _ hne
  rw [Function.comp_apply, usedEntry]
  exact cstr_slotEntry hpath hfit

theorem Linked.head_mem {d : Dev} {next : BlockNo} (h : Linked d next ms) :
    next = inodeNull ∨ next ∈ ms := by
  cases ms with
  | nil => exact .inl h
  | cons m ms => exact .inr (h.1 ▸ List.mem_cons_self)

/-- A stream comes to the block maps of its chain only. -/
theorem OnChain.mem {d : Dev} {m : BlockNo} (h : OnChain d ms dir) (hm : dir.OnMap d m) :
    m = inodeNull ∨ m ∈ ms := by
  induction hm with
  | head => exact h.linked.head_mem
  | cached => exact h.cached.imp id List.mem_of_getElem?
  | next _ hne ih =>
      obtain ⟨pre, post, hms⟩ := List.append_of_mem (ih.resolve_left hne)
      have hrest := Linked.suffix (hms ▸ h.linked)
      rw [hms]
      exact (Linked.head_mem hrest.2.2).imp id fun hin =>
        List.mem_append_right _ (List.mem_cons_of_mem _ hin)

theorem StreamAt.namesFit {d : Dev} (h : StreamAt d ms path k dir) (hfits : ListingFits d ms path) :
    dir.NamesFit d := by
  intro name hname
  have hdots := hfits.dots
  rw [h.path_eq]
  cases hname with
  | dot _ =>
      rw [List.length_singleton]
      omega
  | dots _ => exact hdots
  | entry _ hmap hne he => exact hfits.names _ ((h.mem hmap).resolve_left hne) _ he

/-- A call on the stream that leaves the streams open. -/
def DirOp.Browses (i : Fin maxDir) : DirOp → Prop
  | .readdir _ j => j = i
  | .rewinddir j => j = i
  | _ => False

/-- Reading a directory whose names fit leaves the disk alone. -/
theorem ReadsDir.device_step (hslots : SlotsFit ms) (hfuel : 2 * (127 * ms.length) + 1 ≤ fuel)
    (h : ReadsDir i ms path k s) (hop : op.Browses i) : (op.step fuel s).2.device = s.device := by
  cases op with
  | readdir now j =>
      obtain rfl : j = i := hop
      obtain ⟨io, hrun, -⟩ := kreaddir_flat hslots hfuel h now
      rw [DirOp.step, hrun]
      rfl
  | rewinddir j =>
      obtain rfl : j = i := hop
      have hidx := DirStream.index_of_fd ((h.ok j).opened h.isOpen)
      simp only [DirOp.step, krewinddir, hidx]
      rfl
  | opendir now path' => exact hop.elim
  | closedir now j => exact hop.elim
  | other s' => exact hop.elim

theorem ReadsDir.keeps (hslots : SlotsFit ms) (hfuel : 2 * (127 * ms.length) + 1 ≤ fuel)
    (h : ReadsDir i ms path k s) (hop : op.Browses i) : op.Keeps fuel i ms s := by
  have hdev := h.device_step hslots hfuel hop
  refine ⟨?_, ?_, fun m _ => by rw [hdev]⟩
  · cases op with
    | readdir now j => exact (show j = i from hop) ▸ h.isOpen
    | rewinddir j => exact (show j = i from hop) ▸ h.isOpen
    | opendir now path' => exact hop.elim
    | closedir now j => exact hop.elim
    | other s' => exact hop.elim
  · rintro now rfl
    exact hop.elim

theorem ReadsDir.admits (hslots : SlotsFit ms) (hfuel : 2 * (127 * ms.length) + 1 ≤ fuel)
    {ops : List DirOp} (h : ReadsDir i ms path k s) (hfits : ListingFits s.device ms path)
    (hops : ∀ op ∈ ops, op.Browses i) :
    (dirMachine fuel).Admits (fun s op => op.Keeps fuel i ms s ∧ op.Fits s) ops s := by
  induction ops generalizing s k with
  | nil => trivial
  | cons op ops ih =>
      have hop := hops op List.mem_cons_self
      have hkeep := h.keeps hslots hfuel hop
      have hfit : op.Fits s := by
        cases op with
        | readdir now j => exact (show j = i from hop) ▸ h.reads.namesFit hfits
        | _ => trivial
      refine ⟨⟨hkeep, hfit⟩, ih (h.step hslots hfuel hkeep hfit) ?_ fun op' hop' =>
        hops op' (List.mem_cons_of_mem _ hop')⟩
      show ListingFits (op.step fuel s).2.device ms path
      rw [h.device_step hslots hfuel hop]
      exact hfits

end Runs

/-! ## The root directory -/

theorem Sys.call_of_same {α : Type} {s : Sys Disk} {x : NameM Disk α} {r : Except InodeRtvl α}
    (h : x s.toNames = some (r, s.toNames)) : s.call x = some (r, s) := by
  rw [Sys.call, h]
  rfl

/-- The stream of the root, opened as number `i`. -/
def rootStream (s : Sys Disk) (i : Fin maxDir) (now root : BlockNo) : DirStream :=
  DirStream.setPath { s.proc.dirTab i with
    fd := Int32.ofNat i, allocation := 512
    data := { inodeAt s.device root with accessedTime := now } } [slash]

theorem rootStream_data (s : Sys Disk) (i : Fin maxDir) (now root : BlockNo) :
    (rootStream s i now root).data = { inodeAt s.device root with accessedTime := now } := rfl

/-- `kopendir` of the root takes the first stream that is not open. -/
theorem kopendir_root (fuel : ℕ) {s : Sys Disk} {root : BlockNo} {i : Fin maxDir} (now : BlockNo)
    (hmount : rootBlock (masterGetDev s) s.fs = some root)
    (hname : (inodeAt s.device root).name = [slash]) (hfree : (s.proc.dirTab i).allocation = 0)
    (hfirst : ∀ j < i, (s.proc.dirTab j).allocation ≠ 0) :
    kopendir flatStore (fuel + 1) now [slash] s =
      some (some i, s.setDir i (rootStream s i now root)) := by
  have hget : s.get flatStore (fuel + 1) now [slash] false .rx =
      some (.ok (inodeAt s.device root), s) :=
    Sys.call_of_same (inodeGet_root (s := s.toNames) hmount hname false .rx)
  have hfind : (List.finRange maxDir).find? (fun i => (s.proc.dirTab i).allocation = 0) = some i :=
    Lib.find?_finRange_eq_some (decide_eq_true hfree) fun j hj => decide_eq_false (hfirst j hj)
  unfold kopendir
  rw [hfind]
  simp only [hget]
  rfl

def firstDir : Fin maxDir := ⟨0, by decide⟩

def secondDir : Fin maxDir := ⟨1, by decide⟩

/-- A volume of 10240 blocks whose root directory has two entries in the slots 1 and 3 of its
only block map. -/
def listedVolume : FsState Disk :=
  ((mountedVolume 5242880).write 0 4100
    (Inode.layout { Inode.zero.asRoot 0 0 4100 with next := 6148 })).write 0 6148
    (BlockMap.layout ((BlockMap.zero.setEntry 1 4101).setEntry 3 4102))

/-- The first entry has a name of 254 letters. -/
def longVolume : FsState Disk :=
  listedVolume.write 0 4101
    (Inode.layout { Inode.zero with path := fun i => if (i : ℕ) < 254 then 97 else 0 })

/-- The root has been opened by a process without streams. -/
def rootOpened (fs : FsState Disk) : Sys Disk :=
  (Sys.start fs).setDir firstDir (rootStream (Sys.start fs) firstDir 0 4100)

theorem start_device (fs : FsState Disk) : (Sys.start fs).device = fs.store 0 :=
  congrArg fs.store (masterGetDev_start fs)

theorem rootOpened_device (fs : FsState Disk) : (rootOpened fs).device = fs.store 0 :=
  congrArg fs.store (masterGetDev_start fs)

/-- What the root directory of either volume is. -/
structure Listed (fs : FsState Disk) : Prop where
  root : rootBlock 0 fs = some 4100
  inode : inodeAt (fs.store 0) 4100 = { Inode.zero.asRoot 0 0 4100 with next := 6148 }
  map : mapAt (fs.store 0) 6148 = (BlockMap.zero.setEntry 1 4101).setEntry 3 4102

theorem listed_listedVolume : Listed listedVolume := by
  refine ⟨?_, ?_, ?_⟩
  · rw [listedVolume, (((@mountedVolume_fresh 5242880 rfl).ok.write _ _).write _ _).rootBlock_eq]
    decide
  · rw [listedVolume, FsState.write_store, inodeAt_update_of_ne (by decide), FsState.write_store,
      inodeAt_update]
  · rw [listedVolume, FsState.write_store, mapAt_update]

theorem listed_longVolume : Listed longVolume := by
  refine ⟨?_, ?_, ?_⟩
  · rw [longVolume, listedVolume,
      ((((@mountedVolume_fresh 5242880 rfl).ok.write _ _).write _ _).write _ _).rootBlock_eq]
    decide
  · rw [longVolume, FsState.write_store, inodeAt_update_of_ne (by decide)]
    exact listed_listedVolume.inode
  · rw [longVolume, FsState.write_store, mapAt_update_of_ne (by decide)]
    exact listed_listedVolume.map

section Listed
variable {fs : FsState Disk} (h : Listed fs)
include h

theorem Listed.rootName : (inodeAt (fs.store 0) 4100).name = [slash] := by
  rw [h.inode]
  exact cstr_strcpy (.of_all (by decide) (by decide))

theorem Listed.entry {o : BlockNo} (he : (mapAt (fs.store 0) 6148).entry o ≠ inodeNull) :
    (mapAt (fs.store 0) 6148).entry o = 4101 ∨ (mapAt (fs.store 0) 6148).entry o = 4102 := by
  rw [h.map] at he ⊢
  simp only [BlockMap.entry, BlockMap.setEntry, Function.update_apply] at he ⊢
  split_ifs at he ⊢ with h3 h1
  · exact .inr rfl
  · exact .inl rfl
  · exact absurd rfl he

/-- The root has been opened by a process without streams. -/
theorem Listed.opens (fuel : ℕ) :
    kopendir flatStore (fuel + 1) 0 [slash] (Sys.start fs) = some (some firstDir, rootOpened fs) :=
  kopendir_root fuel 0 (masterGetDev_start fs ▸ h.root)
    (start_device fs ▸ h.rootName) rfl
    fun _ hj => absurd hj (Nat.not_lt_zero _)

theorem Listed.linked : Linked (rootOpened fs).device
    ((rootOpened fs).proc.dirTab firstDir).data.next [6148] := by
  have hdir : (rootOpened fs).proc.dirTab firstDir = rootStream (Sys.start fs) firstDir 0 4100 :=
    Sys.setDir_self _
  rw [rootOpened_device, hdir, rootStream_data, start_device, h.inode]
  refine ⟨rfl, by decide, ?_⟩
  rw [h.map]
  rfl

theorem Listed.readsDir : ReadsDir firstDir [6148] [slash] 0 (rootOpened fs) :=
  kopendir_opens (fun j => .zero j) (h.opens 0) h.linked

end Listed

/-- The block map of the root has a bit. -/
theorem covers_6148 : ∀ m ∈ [(6148 : BlockNo)], (volumeShape (5242880 / 512)).Covers .bmap m := by
  have hcov : (volumeShape (5242880 / 512)).Covers .bmap 6148 := by
    rw [Shape.Covers, bmap_10240.1, bmap_10240.2]
    decide
  simpa using hcov

theorem listedVolume_fits : ListingFits (rootOpened listedVolume).device [6148] [slash] := by
  have hname : ∀ b : BlockNo, 4100 < b.toNat → b.toNat < 6148 →
      (inodeAt (listedVolume.store 0) b).name = [] := by
    intro b hlow hhigh
    have hne : ∀ c : BlockNo, c.toNat ≤ 4100 ∨ 6148 ≤ c.toNat → b ≠ c := by
      rintro c hc rfl
      omega
    have H := volumeShape_numbers (volumeSize_lt 5242880)
    have hzero : (mountedVolume 5242880).store 0 b = Sector.zero := by
      refine (@mountedVolume_fresh 5242880 rfl).inodes b ?_ ?_
      · rw [H.regionStart .imap]
        exact (by decide : (4100 : ℕ) ≤ 4100).trans hlow.le
      · rw [H.regionEnd .imap, H.regionStart .imap]
        exact hhigh
    rw [listedVolume, FsState.write_store, inodeAt_update_of_ne (hne 6148 (.inr (le_refl _))),
      FsState.write_store, inodeAt_update_of_ne (hne 4100 (.inl (le_refl _))), inodeAt, hzero]
    rfl
  refine ⟨by decide, fun m hm o he => ?_⟩
  obtain rfl := List.mem_singleton.mp hm
  have he' : (mapAt (listedVolume.store 0) 6148).entry o ≠ inodeNull := rootOpened_device _ ▸ he
  rw [rootOpened_device]
  rcases listed_listedVolume.entry he' with h | h
  · rw [h, hname 4101 (by decide) (by decide)]
    decide
  · rw [h, hname 4102 (by decide) (by decide)]
    decide

/-- The third call after a rewind returns the first used slot. -/
theorem kreaddir_lists_root :
    ∃ s', kopendir flatStore 1 0 [slash] (Sys.start listedVolume) = some (some firstDir, s') ∧
      ∃ s'' ops, ops = [DirOp.readdir 0 firstDir, .readdir 0 firstDir, .rewinddir firstDir,
          .readdir 0 firstDir, .readdir 0 firstDir] ∧
        kreaddir flatStore 255 0 firstDir ((dirMachine 255).exec ops s') =
          some ((listing ((dirMachine 255).exec ops s').device [6148] [slash])[2]?, s'') := by
  have h := listed_listedVolume
  have hfuel : 2 * (127 * [(6148 : BlockNo)].length) + 1 ≤ 255 := le_refl _
  refine ⟨rootOpened listedVolume, h.opens 0, ?_⟩
  have hops : (dirMachine 255).Admits (fun s op => op.Keeps 255 firstDir [6148] s ∧ op.Fits s)
      [.readdir 0 firstDir, .readdir 0 firstDir, .rewinddir firstDir, .readdir 0 firstDir,
        .readdir 0 firstDir] (rootOpened listedVolume) := by
    refine h.readsDir.admits (slotsFit_of_covers h.linked covers_6148) hfuel listedVolume_fits ?_
    simp [DirOp.Browses]
  obtain ⟨s'', hread⟩ := @kreaddir_lists _ _ _ _ _ _ _ _ _ [] _ (fun j => .zero j) trivial
    (h.opens 0) h.linked covers_6148 hfuel hops 0
  have hcursor : ∀ n, [DirOp.readdir 0 firstDir, .readdir 0 firstDir, .rewinddir firstDir,
      .readdir 0 firstDir, .readdir 0 firstDir].foldl (DirOp.cursor firstDir (n + 2)) 0 = 2 := by
    intro n
    simp [DirOp.cursor, advance]
  have htake : List.take maxPath [slash] = [slash] := rfl
  rw [length_listing, hcursor, htake] at hread
  exact ⟨s'', _, rfl, hread⟩

/-- For `.` and `..` the path has to fit. -/
theorem ReadsDir.namesFit_dots {i : Fin maxDir} {ms : List BlockNo} {path : CStr} {k : ℕ}
    {s : Sys Disk} (h : ReadsDir i ms path k s) (hk : k < 2) (hpath : path.length + 3 < maxPath) :
    (s.proc.dirTab i).NamesFit s.device := by
  have hoff : (s.proc.dirTab i).offset = 0 ∨ (s.proc.dirTab i).offset = 1 := by
    have hat := h.reads.offset
    match k with
    | 0 => exact .inl hat
    | 1 => exact .inr hat
    | k + 2 => omega
  intro name hname
  rw [h.reads.path_eq]
  cases hname with
  | dot _ =>
      rw [List.length_singleton]
      omega
  | dots _ => exact hpath
  | entry hentry _ _ _ => exact absurd hoff hentry

/-- The name of 254 letters puts a zero behind the stream of the root. -/
theorem longVolume_past : usedPast (longVolume.store 0) [slash] (4101, 1) = [0] := by
  have hname : (inodeAt (longVolume.store 0) 4101).name = List.replicate 254 97 := by
    rw [longVolume, FsState.write_store, inodeAt_update]
    decide +kernel
  rw [usedPast, hname]
  decide +kernel

theorem Listed.usedSlots {fs : FsState Disk} (h : Listed fs) :
    (usedSlots (fs.store 0) [6148] 0).head? = some (4101, 1) := by
  have hget : ∀ q < 127, [(6148 : BlockNo)].getD (q / 127) inodeNull = 6148 := by
    intro q hq
    rw [Nat.div_eq_of_lt hq]
    rfl
  have h0 : slotAt (fs.store 0) [6148] 0 = none := by
    rw [slotAt, hget 0 (by decide), h.map]
    rfl
  have h1 : slotAt (fs.store 0) [6148] 1 = some (4101, 1) := by
    rw [slotAt, hget 1 (by decide), h.map]
    rfl
  rw [usedSlots_of_lt (by decide), h0, usedSlots_of_lt (by decide), h1]
  rfl

/-- The root has been opened twice. -/
def twoOpened (fs : FsState Disk) : Sys Disk :=
  (rootOpened fs).setDir secondDir (rootStream (rootOpened fs) secondDir 0 4100)

theorem twoOpened_device (fs : FsState Disk) : (twoOpened fs).device = fs.store 0 :=
  rootOpened_device fs

theorem Listed.opens_again {fs : FsState Disk} (h : Listed fs) (fuel : ℕ) :
    kopendir flatStore (fuel + 1) 0 [slash] (rootOpened fs) =
      some (some secondDir, twoOpened fs) := by
  have hmaster : masterGetDev (rootOpened fs) = 0 := masterGetDev_start fs
  refine kopendir_root fuel 0 (hmaster ▸ h.root) (rootOpened_device fs ▸ h.rootName) rfl
    fun j hj => ?_
  have hlt : (j : ℕ) < 1 := hj
  obtain rfl : j = firstDir := Fin.ext (by omega : (j : ℕ) = 0)
  have hdir : (rootOpened fs).proc.dirTab firstDir = rootStream (Sys.start fs) firstDir 0 4100 :=
    Sys.setDir_self _
  rw [hdir]
  exact (by decide : (512 : UInt32) ≠ 0)

section TwoStreams
variable {i j : Fin maxDir} {ms : List BlockNo} {path : CStr} {fuel : ℕ} {s : Sys Disk}
  {a : BlockNo × BlockNo}

/-- The calls for `.` and `..`. -/
theorem ReadsDir.read_dots (hslots : SlotsFit ms) (hfuel : 2 * (127 * ms.length) + 1 ≤ fuel)
    (h : ReadsDir i ms path 0 s) (hpath : path.length + 3 < maxPath) : ∃ dir : DirStream,
    (dirMachine fuel).Admits (fun s op => op.Keeps fuel i ms s) [.readdir 0 i, .readdir 0 i] s ∧
      (dirMachine fuel).exec [.readdir 0 i, .readdir 0 i] s = s.setDir i dir ∧
      dir.data.self = (s.proc.dirTab i).data.self ∧ ReadsDir i ms path 2 (s.setDir i dir) := by
  have hlen : ∀ n, advance (n + 2) 0 = 1 ∧ advance (n + 2) 1 = 2 := fun n =>
    ⟨if_pos (by omega), if_pos (by omega)⟩
  obtain ⟨dir, hrun, hdata, h₁⟩ := h.read hslots hfuel (h.namesFit_dots (by decide) hpath) 0
  rw [length_listing, (hlen _).1] at h₁
  obtain ⟨dir', hrun', hdata', h₂⟩ :=
    h₁.read hslots hfuel (h₁.namesFit_dots (by decide) hpath) 0
  rw [length_listing, (hlen _).2] at h₂
  rw [Sys.setDir_setDir] at hrun' h₂
  have hstep : ((dirMachine fuel).step (.readdir 0 i) s).2 = s.setDir i dir := by
    simp only [dirMachine, DirOp.step, hrun]
  refine ⟨dir', ⟨h.keeps hslots hfuel rfl, ?_, trivial⟩, ?_, ?_, h₂⟩
  · rw [hstep]
    exact h₁.keeps hslots hfuel rfl
  · simp only [dirMachine, Lib.Machine.exec_cons, Lib.Machine.exec_nil, DirOp.step, hrun, hrun']
  · rw [hdata', Sys.setDir_self]
    show dir.data.self = _
    rw [hdata]
    rfl

/-- The call for the first used slot. -/
theorem ReadsDir.read_first (hslots : SlotsFit ms) (hfuel : 2 * (127 * ms.length) + 1 ≤ fuel)
    (h : ReadsDir i ms path 2 s) (ha : (usedSlots s.device ms 0).head? = some a) :
    ∃ dir : DirStream, (DirOp.step fuel (.readdir 0 i) s).2 =
        { s.setDir i dir with
          proc := (s.setDir i dir).proc.spill i (usedPast s.device path a) } ∧
      dir.data.self = (s.proc.dirTab i).data.self := by
  obtain ⟨q, hoff, hq, hdrop⟩ := (h.reads.accessed 0).offset
  rw [List.drop_zero] at hdrop
  have hentry : ¬ (((s.proc.dirTab i).accessed 0).offset = 0 ∨
      ((s.proc.dirTab i).accessed 0).offset = 1) := by
    rintro (h0 | h0)
    · rw [h0] at hoff
      cases hoff
    · rw [h0] at hoff
      exact absurd hoff (by show 1 ≠ q + 2; omega)
  obtain ⟨io, q', hrun, -, -, -, -, -, hpast⟩ := readSlot_flat hslots (127 * ms.length - q) q fuel
    ((s.proc.dirTab i).accessed 0) (by omega) (by omega) (h.reads.accessed 0).toOnChain h.reads.path_eq
    hoff
  have hstream : readStream flatStore (masterGetDev s) fuel
      ⟨(s.proc.dirTab i).accessed 0, s.fs.store, []⟩ =
        some ((usedSlots s.device ms q).head?.map (usedEntry s.device path), io) := by
    rw [readStream]
    simp only
    rw [if_neg hentry]
    exact hrun
  have hleaves := readStream_leaves hstream
  have hdevice : s.fs.store (masterGetDev s) = s.device := rfl
  rw [hdevice, hdrop, ha] at hpast
  refine ⟨io.dir, ?_, ?_⟩
  · rw [DirOp.step, kreaddir_of_index (DirStream.index_of_fd ((h.ok i).opened h.isOpen)), hstream]
    simp only [Option.map_some, hpast, hleaves.store]
    rfl
  · rw [hleaves.data]
    rfl

end TwoStreams

/-- A zero behind the first stream makes the second one name the first one. -/
theorem poke_fd {d : DirStream} (h : d.fd = Int32.ofNat secondDir) :
    (d.poke [0]).fd = Int32.ofNat firstDir := by
  have hbytes : Lib.Layout.i32.symm (fun i : Fin 4 =>
      [0].getD i (Lib.Layout.i32 (Int32.ofNat secondDir) i)) = Int32.ofNat firstDir := by
    decide +kernel
  rw [DirStream.poke, h]
  exact hbytes

theorem spill_first (p : Proc) (bs : List UInt8) :
    p.spill firstDir bs = p.setDir secondDir ((p.dirTab secondDir).poke bs) :=
  dif_pos (by decide)

/-- Both streams, with the zero behind the name that the first one has read. -/
def spilled (fs : FsState Disk) (dir : DirStream) : Sys Disk :=
  let s := (twoOpened fs).setDir firstDir dir
  s.setDir secondDir ((s.proc.dirTab secondDir).poke [0])

section Spilled
variable (fs : FsState Disk) (dir : DirStream)

theorem first_spilled : (spilled fs dir).proc.dirTab firstDir = dir := by
  rw [spilled, Sys.setDir_of_ne (by decide), Sys.setDir_self]

theorem second_spilled : (spilled fs dir).proc.dirTab secondDir =
    (rootStream (rootOpened fs) secondDir 0 4100).poke [0] := by
  have hsecond : ((twoOpened fs).setDir firstDir dir).proc.dirTab secondDir =
      rootStream (rootOpened fs) secondDir 0 4100 := by
    rw [Sys.setDir_of_ne (by decide)]
    exact Sys.setDir_self _
  rw [spilled, Sys.setDir_self, hsecond]

/-- The second stream is open and names the first one. -/
theorem index_second_spilled : ((spilled fs dir).proc.dirTab secondDir).index = some firstDir ∧
    ((spilled fs dir).proc.dirTab secondDir).allocation ≠ 0 := by
  rw [second_spilled]
  exact ⟨DirStream.index_of_fd (poke_fd rfl), (by decide : (512 : UInt32) ≠ 0)⟩

end Spilled

/-- The second stream is closed after the first one has read the long name. -/
def longOps : List DirOp :=
  [.opendir 0 [slash]] ++ [.readdir 0 firstDir, .readdir 0 firstDir] ++
    [.readdir 0 firstDir, .closedir 0 secondDir]

/-- `kclosedir` on a stream that names the stream `k`. -/
theorem kclosedir_of_index {s : Sys Disk} {j k : Fin maxDir} (now : BlockNo)
    (hidx : (s.proc.dirTab j).index = some k) :
    (kclosedir flatStore now j s).2.proc.dirTab k = .zero ∧
      ∀ m, m ≠ (s.proc.dirTab k).data.self →
        (kclosedir flatStore now j s).2.device m = s.device m := by
  rw [kclosedir, hidx]
  refine ⟨Proc.setDir_self .., fun m hm => ?_⟩
  exact Disk.set_of_ne fun h => hm h.2

/-- The long name closes the first stream with the second one. -/
theorem Listed.longOps_closes {fs : FsState Disk} (h : Listed fs)
    (hpast : usedPast (fs.store 0) [slash] (4101, 1) = [0]) :
    ((dirMachine 255).exec longOps (rootOpened fs)).proc.dirTab firstDir = .zero ∧
      (dirMachine 255).Admits (fun s op => op.Keeps 255 firstDir [6148] s) longOps
        (rootOpened fs) := by
  have hslots := slotsFit_of_covers h.linked covers_6148
  have hfuel : 2 * (127 * [(6148 : BlockNo)].length) + 1 ≤ 255 := le_refl _
  have hopen : ((dirMachine 255).step (.opendir 0 [slash]) (rootOpened fs)).2 = twoOpened fs := by
    simp only [dirMachine, DirOp.step, h.opens_again 254]
  have hkeep : (DirOp.opendir 0 [slash]).Keeps 255 firstDir [6148] (rootOpened fs) := by
    refine ⟨trivial, nofun, fun m _ => ?_⟩
    show ((dirMachine 255).step (.opendir 0 [slash]) (rootOpened fs)).2.device m = _
    rw [hopen, twoOpened_device, rootOpened_device]
  have h₂ : ReadsDir firstDir [6148] [slash] 0 (twoOpened fs) :=
    hopen ▸ h.readsDir.step hslots hfuel hkeep trivial
  obtain ⟨dir, hdots, hrun, hself, h₄⟩ := ReadsDir.read_dots hslots hfuel h₂ (by decide)
  obtain ⟨dir', hrun', hself'⟩ := h₄.read_first hslots hfuel (a := (4101, 1)) (by
    rw [Sys.device_setDir, twoOpened_device]
    exact h.usedSlots)
  rw [Sys.device_setDir, twoOpened_device, hpast, spill_first, Sys.setDir_setDir] at hrun'
  obtain ⟨hidx, hopen₂⟩ := index_second_spilled fs dir'
  have hfirst : ((spilled fs dir').proc.dirTab firstDir).data.self = 4100 := by
    have hdir : (twoOpened fs).proc.dirTab firstDir =
        rootStream (Sys.start fs) firstDir 0 4100 := by
      rw [twoOpened, Sys.setDir_of_ne (by decide)]
      exact Sys.setDir_self _
    rw [first_spilled, hself', Sys.setDir_self, hself, hdir, rootStream_data, start_device, h.inode]
    rfl
  obtain ⟨hzero, hdevice⟩ := kclosedir_of_index 0 hidx
  have hread : ((dirMachine 255).step (.readdir 0 firstDir)
      ((twoOpened fs).setDir firstDir dir)).2 = spilled fs dir' := hrun'
  have hopened : (dirMachine 255).exec [.opendir 0 [slash]] (rootOpened fs) = twoOpened fs := hopen
  constructor
  · rw [longOps, Lib.Machine.exec_append, Lib.Machine.exec_append, hopened, hrun,
      Lib.Machine.exec_cons, hread]
    exact hzero
  · have hclose : (DirOp.closedir 0 secondDir).Keeps 255 firstDir [6148] (spilled fs dir') := by
      refine ⟨hopen₂, nofun, fun m hm => ?_⟩
      obtain rfl := List.mem_singleton.mp hm
      refine hdevice 6148 ?_
      rw [hfirst]
      decide
    have hlast : (dirMachine 255).Admits (fun s op => op.Keeps 255 firstDir [6148] s)
        [.readdir 0 firstDir, .closedir 0 secondDir] ((twoOpened fs).setDir firstDir dir) := by
      refine ⟨h₄.keeps hslots hfuel rfl, ?_, trivial⟩
      rw [hread]
      exact hclose
    refine .append (.append ⟨hkeep, trivial⟩ ?_) ?_
    · rw [hopened]
      exact hdots
    · rw [Lib.Machine.exec_append, hopened, hrun]
      exact hlast

/-- A stream that is not open returns the entry for a dot. -/
theorem kreaddir_of_zero {s : Sys Disk} (fuel : ℕ) (now : BlockNo)
    (h : s.proc.dirTab firstDir = .zero) :
    ∃ s', kreaddir flatStore fuel now firstDir s = some (some (dotEntry [] [dot]), s') := by
  have hidx : (s.proc.dirTab firstDir).index = some firstDir := by
    rw [h]
    exact DirStream.index_of_fd rfl
  rw [kreaddir_of_index hidx, h, readStream]
  exact ⟨_, rfl⟩

theorem longOps_cursor (n : ℕ) :
    ∃ k, longOps.foldl (DirOp.cursor firstDir (n + 2)) 0 = k + 2 := by
  simp only [longOps, List.cons_append, List.nil_append, List.foldl_cons, List.foldl_nil,
    DirOp.cursor, if_pos]
  rw [advance, advance, advance]
  split_ifs <;> first | exact ⟨1, rfl⟩ | exact ⟨0, rfl⟩ | omega

/-- The zero behind the long name makes the second stream name the first one, so that closing the
second one closes the first one. -/
theorem kreaddir_starts_again : ¬ ∀ (s s' : Sys Disk) (i : Fin maxDir) (ms : List BlockNo)
    (path : CStr) (fuel fuel' : ℕ) (now size : BlockNo) (ops : List DirOp), StreamsOk s.proc →
    kopendir flatStore fuel' now path s = some (some i, s') →
    Linked s'.device (s'.proc.dirTab i).data.next ms →
    (∀ m ∈ ms, (volumeShape (size / 512)).Covers .bmap m) → 2 * (127 * ms.length) + 1 ≤ fuel →
    (dirMachine fuel).Admits (fun s op => op.Keeps fuel i ms s) ops s' →
    ∀ now', ∃ s'', kreaddir flatStore fuel now' i ((dirMachine fuel).exec ops s') =
      some ((listing ((dirMachine fuel).exec ops s').device ms (path.take maxPath))[
        ops.foldl (DirOp.cursor i (listing s'.device ms (path.take maxPath)).length) 0]?, s'') := by
  intro hall
  have h := listed_longVolume
  obtain ⟨hclosed, hops⟩ := h.longOps_closes longVolume_past
  obtain ⟨s'', hread⟩ := hall (Sys.start longVolume) (rootOpened longVolume) firstDir [6148] [slash]
    255 1 0 5242880 longOps (fun j => .zero j) (h.opens 0) h.linked covers_6148 (le_refl _) hops 0
  obtain ⟨s₁, hdot⟩ := kreaddir_of_zero 255 0 hclosed
  have hentry := hdot.symm.trans hread
  simp only [Option.some.injEq, Prod.mk.injEq] at hentry
  rw [length_listing] at hentry
  obtain ⟨k, hk⟩ := longOps_cursor (usedSlots (rootOpened longVolume).device [6148] 0).length
  rw [hk] at hentry
  exact ino_listing hentry.1.symm rfl

end OxKernel.Fs
