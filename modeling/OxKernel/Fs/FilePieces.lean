import OxKernel.Fs.FileArrays

/-!
# Files written and read in pieces

A buffer that is written to a new file in pieces and then read back in pieces, cut in any two
ways. The calls go through the cursor, so that it does not matter where the pieces end, at a
multiple of the block size or of 127 blocks either: only a seek makes the next call look for its
block, and the seek here is to the start.

## Main definitions

* `writesFrom`, `reads`, `pieces` — the calls, and what the reads return.
* `SoughtFile.FitsIn` — what a call on one file must keep to.
* `written_then_read` — the round trip.
-/
namespace OxKernel.Fs

open Lib (Machine)

/-! ## Pieces of a buffer -/

/-- The number of bytes of a list of pieces. -/
def totalCount (ks : List UInt32) : ℕ := (ks.map UInt32.toNat).sum

/-- Write consecutive pieces of a buffer. -/
def writesFrom (now : BlockNo) (buf : Buffer) : ℕ → List UInt32 → List FileOp
  | _, [] => []
  | off, k :: ks => .write now (fun j => buf (off + j)) k :: writesFrom now buf (off + k.toNat) ks

/-- Read pieces, each into a buffer of its own. -/
def reads (now : BlockNo) (js : List (Buffer × UInt32)) : List FileOp :=
  js.map fun a => .read now a.1 a.2

/-- What reads return that get consecutive pieces. -/
def pieces (bytes : ℕ → UInt8) : ℕ → List (Buffer × UInt32) → List FileReply
  | _, [] => []
  | off, a :: js =>
    .read a.2.toInt32 (fetched bytes off a.2.toNat a.1) :: pieces bytes (off + a.2.toNat) js

@[simp] theorem totalCount_nil : totalCount [] = 0 := rfl

@[simp] theorem totalCount_cons (k : UInt32) (ks : List UInt32) :
    totalCount (k :: ks) = k.toNat + totalCount ks := rfl

section Arrays
variable {f : SoughtFile} {now : BlockNo} {buf : Buffer} {ks : List UInt32}
  {js : List (Buffer × UInt32)} {off N : ℕ}

/-- Two writes in a row are one write. -/
theorem ByteFile.write_write (f : ByteFile) (buf : Buffer) (k m : ℕ) :
    (f.write buf k).write (fun j => buf (k + j)) m = f.write buf (k + m) := by
  have hbytes : overwrite (overwrite f.bytes f.pos k buf) (f.pos + k) m (fun j => buf (k + j)) =
      overwrite f.bytes f.pos (k + m) buf := by
    funext p
    simp only [overwrite]
    by_cases hlate : f.pos + k ≤ p ∧ p < f.pos + k + m
    · have hidx : k + (p - (f.pos + k)) = p - f.pos := by omega
      rw [if_pos hlate, if_pos (by omega), hidx]
    · rw [if_neg hlate]
      by_cases hearly : f.pos ≤ p ∧ p < f.pos + k
      · rw [if_pos hearly, if_pos (by omega)]
      · rw [if_neg hearly, if_neg (by omega)]
  have hsize : max (max f.size (f.pos + k)) (f.pos + k + m) = max f.size (f.pos + (k + m)) := by
    omega
  have hpos : f.pos + k + m = f.pos + (k + m) := Nat.add_assoc ..
  rw [write, write, write, hbytes, hsize, hpos]

/-- Writes in pieces are one write. -/
theorem exec_writesFrom (hle : f.pos ≤ f.size) :
    (arrayMachine.exec (writesFrom now buf off ks) f).toByteFile =
      f.write (fun j => buf (off + j)) (totalCount ks) := by
  induction ks generalizing off f with
  | nil => exact (write_nothing f.toByteFile hle _).symm
  | cons k ks ih =>
      have hle' : (arrayMachine.step (.write now (fun j => buf (off + j)) k) f).2.pos ≤
          (arrayMachine.step (.write now (fun j => buf (off + j)) k) f).2.size := Nat.le_max_right ..
      rw [writesFrom, Machine.exec_cons, ih hle', totalCount_cons, ← ByteFile.write_write]
      simp only [Nat.add_assoc]
      rfl

theorem trace_writesFrom :
    (arrayMachine.trace (writesFrom now buf off ks) f).map Prod.snd =
      ks.map fun k => .write k.toInt32 := by
  induction ks generalizing off f with
  | nil => rfl
  | cons k ks ih =>
      rw [writesFrom, Machine.trace_cons, List.map_cons, ih]
      rfl

/-- Reads in pieces move the cursor. -/
theorem exec_reads : (arrayMachine.exec (reads now js) f).toByteFile =
    f.moveTo (f.pos + totalCount (js.map Prod.snd)) := by
  induction js generalizing f with
  | nil => rfl
  | cons a js ih =>
      have hexec : reads now (a :: js) = .read now a.1 a.2 :: reads now js := rfl
      rw [hexec, Machine.exec_cons, ih, List.map_cons, totalCount_cons, ← Nat.add_assoc]
      rfl

theorem trace_reads :
    (arrayMachine.trace (reads now js) f).map Prod.snd = pieces f.bytes f.pos js := by
  induction js generalizing f with
  | nil => rfl
  | cons a js ih =>
      have hexec : reads now (a :: js) = .read now a.1 a.2 :: reads now js := rfl
      rw [hexec, Machine.trace_cons, List.map_cons, ih]
      rfl

/-- Pieces of two arrays that agree where they are. -/
theorem pieces_congr {bytes bytes' : ℕ → UInt8}
    (h : ∀ p, off ≤ p → p < off + totalCount (js.map Prod.snd) → bytes p = bytes' p) :
    pieces bytes off js = pieces bytes' off js := by
  induction js generalizing off with
  | nil => rfl
  | cons a js ih =>
      rw [List.map_cons, totalCount_cons] at h
      have hfetch : fetched bytes off a.2.toNat a.1 = fetched bytes' off a.2.toNat a.1 := by
        funext j
        simp only [fetched]
        split
        · exact h _ (by omega) (by omega)
        · rfl
      rw [pieces, pieces, hfetch, ih fun p hp hlt => h p (by omega) (by omega)]

/-! ## What the calls must keep to -/

/-- What a call on one file must keep to, where the file may grow to a size. -/
structure SoughtFile.FitsIn (N : ℕ) (f : SoughtFile) (op : FileOp) : Prop where
  inside : op.Inside f.toByteFile
  start : f.sought = true → 0 < op.count → f.pos % 65024 = 0 → f.pos = 0
  size : (f.toByteFile.step op).size ≤ N

theorem admits_writesFrom (hsought : f.sought = false) (hle : f.pos ≤ f.size)
    (hN : max f.size (f.pos + totalCount ks) ≤ N) :
    arrayMachine.Admits (SoughtFile.FitsIn N) (writesFrom now buf off ks) f := by
  induction ks generalizing off f with
  | nil => trivial
  | cons k ks ih =>
      rw [totalCount_cons] at hN
      have hno : ¬ f.sought = true := by
        rw [hsought]
        exact Bool.false_ne_true
      refine ⟨⟨hle, fun h => absurd h hno, ?_⟩, ih ?_ (Nat.le_max_right ..) ?_⟩
      · show max f.size (f.pos + k.toNat) ≤ N
        omega
      · show (if k = 0 then f.sought else false) = false
        rw [hsought, ite_self]
      · show max (max f.size (f.pos + k.toNat)) (f.pos + k.toNat + totalCount ks) ≤ N
        omega

theorem admits_reads (hsought : f.sought = true → f.pos = 0) (hN : f.size ≤ N)
    (hin : f.pos + totalCount (js.map Prod.snd) ≤ f.size) :
    arrayMachine.Admits (SoughtFile.FitsIn N) (reads now js) f := by
  induction js generalizing f with
  | nil => trivial
  | cons a js ih =>
      rw [List.map_cons, totalCount_cons] at hin
      refine ⟨⟨?_, fun h _ _ => hsought h, hN⟩, ih ?_ hN ?_⟩
      · show f.pos + a.2.toNat ≤ f.size
        omega
      · intro h
        have h : (if a.2 = 0 then f.sought else false) = true := h
        split at h
        · rename_i h0
          show f.pos + a.2.toNat = 0
          rw [hsought h, h0]
          rfl
        · cases h
      · show f.pos + a.2.toNat + totalCount (js.map Prod.snd) ≤ f.size
        omega

end Arrays

/-! ## The round trip -/

section RoundTrip
variable {I : Type} [Fintype I] [DecidableEq I] {V : Surroundings I} {c : I → Chain}
  {s : Sys Disk} {f : I → SoughtFile} {i : I} {N : ℕ}

/-- The volume has room for one of the files to grow to a size. -/
def Surroundings.RoomFor (V : Surroundings I) (f : I → SoughtFile) (i : I) (N : ℕ) : Prop :=
  V.others.card + (chainLen N + ∑ j ∈ Finset.univ.erase i, chainLen (f j).size) + 1 <
    512 * V.g.mapLen .bmap

/-- Calls on one of the files. -/
theorem Surroundings.RoomFor.admits (hroom : V.RoomFor f i N) {ops : List FileOp}
    (hops : arrayMachine.Admits (SoughtFile.FitsIn N) ops (f i)) :
    arrayMachine.family.Admits V.Fits (ops.map fun op => (i, op)) f := by
  induction ops generalizing f with
  | nil => trivial
  | cons op ops ih =>
      obtain ⟨⟨hin, hstart, hsize⟩, hrest⟩ := hops
      refine ⟨⟨hin, hstart, ?_⟩, ih (f := Function.update f i (arrayMachine.step op (f i)).2) ?_ ?_⟩
      · show V.others.card + ∑ j, chainLen (Function.update f i (arrayMachine.step op (f i)).2 j).size
            + 1 < 512 * V.g.mapLen .bmap
        have hmono := chainLen_mono hsize
        have hroom : V.others.card + (chainLen N + ∑ j ∈ Finset.univ.erase i, chainLen (f j).size)
            + 1 < 512 * V.g.mapLen .bmap := hroom
        have hstep : (arrayMachine.step op (f i)).2.size = ((f i).toByteFile.step op).size := rfl
        rw [sum_update, hstep]
        omega
      · rw [Surroundings.RoomFor] at hroom ⊢
        have hsum : ∑ j ∈ Finset.univ.erase i,
            chainLen (Function.update f i (arrayMachine.step op (f i)).2 j).size =
            ∑ j ∈ Finset.univ.erase i, chainLen (f j).size :=
          Finset.sum_congr rfl fun j hj => by
            rw [Function.update_of_ne (Finset.ne_of_mem_erase hj)]
        rw [hsum]
        exact hroom
      · rw [Function.update_self]
        exact hrest

/-- The bytes of a file are known up to its size. -/
theorem FileIs.same {fd : Int32} {g g' : ByteFile} (h : FileIs s fd g) (hsame : g.Same g') :
    FileIs s fd g' := by
  obtain ⟨g₀, hview, hg₀⟩ := h
  refine ⟨g₀, hview, hg₀.size.trans hsame.size, hg₀.pos.trans hsame.pos, fun p hp => ?_⟩
  exact (hg₀.bytes p hp).trans (hsame.bytes p (hg₀.size ▸ hp))

/-- **The round trip in pieces.** A buffer that is written to a new file in pieces and read from
the start in pieces, cut in any two ways, comes back piece by piece. The file is left with the
buffer as its bytes, and the other open files with theirs. -/
theorem written_then_read (h : FilesOpen V c s f) (hnew : f i = ⟨.empty, false⟩) {now now' : BlockNo}
    {buf : Buffer} {ks : List UInt32} {js : List (Buffer × UInt32)}
    (hle : totalCount (js.map Prod.snd) ≤ totalCount ks) (hroom : V.RoomFor f i (totalCount ks)) :
    let ops := writesFrom now buf 0 ks ++ .seek 0 .set :: reads now' js
    let calls := ops.map fun op => (i, op)
    ((filesMachine V.fd).trace calls s).map Prod.snd =
        (ks.map fun k => .write k.toInt32) ++ .seek 0 :: pieces buf 0 js ∧
      FileIs ((filesMachine V.fd).exec calls s) (V.fd i)
        ⟨buf, totalCount ks, totalCount (js.map Prod.snd)⟩ ∧
      ∀ j, j ≠ i → FileIs ((filesMachine V.fd).exec calls s) (V.fd j) (f j).toByteFile := by
  intro ops calls
  have hf : (f i).toByteFile = .empty := by rw [hnew]
  have hsize : (f i).size = 0 := congrArg ByteFile.size hf
  have hpos : (f i).pos = 0 := congrArg ByteFile.pos hf
  -- The array after the writes, and after the seek.
  obtain ⟨g, hg⟩ : ∃ g, arrayMachine.exec (writesFrom now buf 0 ks) (f i) = g := ⟨_, rfl⟩
  have hwritten : g.toByteFile = (f i).write (fun j => buf (0 + j)) (totalCount ks) := by
    rw [← hg]
    exact exec_writesFrom (by rw [hsize, hpos])
  have hgsize : g.size = totalCount ks := by
    rw [hwritten]
    show max (f i).size ((f i).pos + totalCount ks) = _
    rw [hsize, hpos, Nat.zero_add, Nat.max_eq_right (Nat.zero_le _)]
  have hgbytes : ∀ p, p < totalCount ks → g.bytes p = buf p := by
    intro p hp
    rw [hwritten, ByteFile.write]
    simp only [overwrite, hpos]
    rw [if_pos ⟨Nat.zero_le _, by omega⟩, Nat.zero_add, Nat.sub_zero]
  obtain ⟨g', hg'⟩ : ∃ g', (arrayMachine.step (.seek 0 .set) g).2 = g' := ⟨_, rfl⟩
  have hmoved : g'.toByteFile = g.moveTo 0 := by rw [← hg']; rfl
  have hadmits : arrayMachine.Admits (SoughtFile.FitsIn (totalCount ks)) ops (f i) := by
    refine Machine.Admits.append (admits_writesFrom ?_ ?_ ?_) ⟨⟨trivial, ?_, ?_⟩, ?_⟩
    · rw [hnew]
    · rw [hsize, hpos]
    · rw [hsize, hpos, Nat.zero_add, Nat.max_eq_right (Nat.zero_le _)]
    · exact fun _ h => absurd h (Nat.lt_irrefl 0)
    · rw [hg]
      exact hgsize.le
    · rw [hg, hg']
      refine admits_reads (fun _ => ?_) ?_ ?_
      · rw [hmoved]
        rfl
      · rw [hmoved]
        exact hgsize.le
      · rw [hmoved]
        show 0 + _ ≤ g.size
        rw [hgsize, Nat.zero_add]
        exact hle
  obtain ⟨htrace, hfiles⟩ := files_are_arrays h (hroom.admits hadmits)
  have hexec : arrayMachine.exec ops (f i) = arrayMachine.exec (reads now' js) g' := by
    rw [Machine.exec_append, hg, Machine.exec_cons, hg']
  refine ⟨?_, ?_, fun j hj => ?_⟩
  · rw [htrace, Machine.family_trace_map, Machine.trace_append, List.map_append, trace_writesFrom, hg,
      Machine.trace_cons, List.map_cons, hg', trace_reads, hmoved]
    have hpieces : pieces g.bytes 0 js = pieces buf 0 js :=
      pieces_congr fun p _ hp => hgbytes p (by omega)
    show _ ++ _ :: pieces g.bytes 0 js = _
    rw [hpieces]
    rfl
  · have hfile := hfiles i
    rw [Machine.own_map, hexec, exec_reads, hmoved] at hfile
    refine hfile.same ⟨hgsize, Nat.zero_add _, fun p hp => hgbytes p ?_⟩
    have hp : p < g.size := hp
    rwa [hgsize] at hp
  · have hfile := hfiles j
    rwa [Machine.own_map_of_ne (Ne.symm hj)] at hfile

end RoundTrip

theorem twoSurroundings_roomFor : twoSurroundings.RoomFor emptyFiles false 601 := by
  have herase : Finset.univ.erase false = {true} := by decide
  have hmap : twoSurroundings.g.mapLen .bmap = 2 := bmap_10240.1
  rw [Surroundings.RoomFor, herase, Finset.sum_singleton, hmap]
  decide

/-- 601 bytes, written to the first of two files as 1 and 600 and read as 512 and 89. -/
theorem written_then_read_two :
    let ops := writesFrom 0 (fun j => UInt8.ofNat j) 0 [1, 600] ++
      .seek 0 .set :: reads 0 [(fun _ => 0, 512), (fun _ => 0, 89)]
    let calls := ops.map fun op => (false, op)
    ((filesMachine twoSurroundings.fd).trace calls twoFiles).map Prod.snd =
        [.write 1, .write 600, .seek 0] ++
          pieces (fun j => UInt8.ofNat j) 0 [(fun _ => 0, 512), (fun _ => 0, 89)] ∧
      FileIs ((filesMachine twoSurroundings.fd).exec calls twoFiles) 0
        ⟨fun j => UInt8.ofNat j, 601, 601⟩ ∧
      ∀ j, j ≠ false → FileIs ((filesMachine twoSurroundings.fd).exec calls twoFiles)
        (twoSurroundings.fd j) .empty :=
  written_then_read twoFiles_open rfl (by decide) twoSurroundings_roomFor

end OxKernel.Fs
