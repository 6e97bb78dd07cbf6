import OxKernel.Lib.Translation
import OxKernel.Mm.PageRuns

/-!
# The page tables

`mem_init` fills a page directory and the page tables behind it, all of them in a row, so that
every page leads to itself: the pages below `END_KMEM` for the kernel, the others for everyone.
`mem_set_read_only` and `mem_unset_read_only` change the entries of a run of pages later on, and
flush the translation of each page that they have changed.

The memory is a function from addresses to words, and the processor is a `Lib.Translator` on it.

## Main definitions

* `initTables` — the memory after the loops of `mem_init`.
* `memSetReadOnly`, `memUnsetReadOnly` — the calls.
* `i386Tables` — what the processor makes of the tables.
* `TablesOk` — the tables lead every page to itself, with the rights it should have.

## Main results

* `initTables_ok`, `TablesOk.store`, `Mapped.setPages` — where the tables are as they should be.
* `TablesOk.walk` — and where they lead.
-/
namespace OxKernel.Mm

open Lib (Translator)

/-! ## The entries -/

/-- `PTE_PRESENT` and `PDE_PRESENT`. -/
def ptePresent : UInt32 := 1

/-- `PTE_READ_WRITE` and `PDE_READ_WRITE`. -/
def pteReadWrite : UInt32 := 2

/-- `PTE_USER` and `PDE_USER`. -/
def pteUser : UInt32 := 4

/-- `PT_SET_READ_ONLY`. -/
def ptSetReadOnly (entry : UInt32) : UInt32 := entry &&& ~~~2

/-- `PT_SET_ATTRIB` and `PD_SET_ATTRIB`. -/
def ptSetAttrib (entry attrib : UInt32) : UInt32 := entry ||| attrib

/-- `PT_SET_FRAME` and `PD_SET_FRAME`. -/
def ptSetFrame (entry addr : UInt32) : UInt32 := (entry &&& ~~~0xFFFFF000) ||| addr

/-- `GET_PAGE_PRESENT`. -/
def getPagePresent (entry : UInt32) : UInt32 := entry &&& 1

/-- `GET_PAGE_READ_WRITE`. -/
def getPageReadWrite (entry : UInt32) : UInt32 := (entry >>> 1) &&& 1

/-- `GET_PAGE_USER`. -/
def getPageUser (entry : UInt32) : UInt32 := (entry >>> 2) &&& 1

/-- `GET_PAGE_ADDRESS`. -/
def getPageAddress (entry : UInt32) : UInt32 := (entry &&& ~~~(pageSize - 1)) >>> 12

/-- `PD_INDEX`. -/
def pdIndex (virt : UInt32) : UInt32 := (virt >>> 22) &&& 0x3FF

/-- `PT_INDEX`. -/
def ptIndex (virt : UInt32) : UInt32 := (virt >>> 12) &&& 0x3FF

/-- The tables of the processor: a page is found by its number, and its rights are those of users
and to write. -/
def i386Tables : Lib.Tables UInt32 UInt32 UInt32 (Bool × Bool) where
  directoryEntry root page := root + 4 * pdIndex (page * pageSize)
  tableEntry table page := table + 4 * ptIndex (page * pageSize)
  present entry := getPagePresent entry == 1
  frame entry := getPageAddress entry * pageSize
  rights entry := (getPageUser entry == 1, getPageReadWrite entry == 1)

/-! ## The loops -/

/-- `KERNEL_PAGE_DIR`. -/
def kernelPageDir : UInt32 := kernelEnd

/-- `KERNEL_PAGE_TABLE`. -/
def kernelPageTable : UInt32 := kernelEnd + pageSize

/-- The entry `i` that a loop of `mem_init` makes. -/
def pageEntry (pageLimit i frame : UInt32) : UInt32 :=
  if i < pageLimit then
    ptSetFrame (ptSetAttrib (ptSetAttrib 0 ptePresent) pteReadWrite) frame
  else
    ptSetFrame (ptSetAttrib (ptSetAttrib (ptSetAttrib 0 ptePresent) pteReadWrite) pteUser) frame

/-- The rest of a loop of `mem_init` over the entries from `i` on. -/
def fillTable (table pageLimit : UInt32) :
    ℕ → UInt32 → UInt32 → (UInt32 → UInt32) → UInt32 → UInt32
  | 0, _, _, mem => mem
  | k + 1, i, frame, mem =>
    fillTable table pageLimit k (i + 1) (frame + pageSize)
      (Function.update mem (table + 4 * i) (pageEntry pageLimit i frame))

/-- The memory after `mem_init` has loaded the `KERNEL_PAGE_TABLE`s and the `KERNEL_PAGE_DIR`. -/
def initTables (nrPages : UInt32) (mem : UInt32 → UInt32) : UInt32 → UInt32 :=
  fillTable kernelPageDir (endKmem nrPages / oneFullPageTableBytes)
    (nrPages / pageTableSize).toNat 0 kernelPageTable
    (fillTable kernelPageTable (endKmem nrPages / pageSize) nrPages.toNat 0 0 mem)

/-- The memory and the translations that the processor remembers. -/
abbrev Mmu := Translator UInt32 UInt32 UInt32 (Bool × Bool)

/-- The rest of the loop of `mem_set_read_only` or `mem_unset_read_only` from entry `i` on. -/
def setPages (change : UInt32 → UInt32) : ℕ → UInt32 → Mmu → Mmu
  | 0, _, s => s
  | k + 1, i, s =>
    let entry := kernelPageTable + 4 * i
    setPages change k (i + 1)
      -- `page_flush_tlb(i * PAGE_SIZE)` flushes the page that the address is in.
      ((s.store entry (change (s.mem entry))).forget (i * pageSize / pageSize))

/-- The number of pages that a call changes. -/
def clampPages (nr nrPages : UInt32) : UInt32 := if nrPages > nr then nr else nrPages

/-- `mem_set_read_only`, where `NR_PAGES` is `nr`. -/
def memSetReadOnly (nr addr nrPages : UInt32) (s : Mmu) : Mmu :=
  setPages ptSetReadOnly (clampPages nr nrPages).toNat (addr / pageSize) s

/-- `mem_unset_read_only`, where `NR_PAGES` is `nr`. -/
def memUnsetReadOnly (nr addr nrPages : UInt32) (s : Mmu) : Mmu :=
  setPages (ptSetAttrib · pteReadWrite) (clampPages nr nrPages).toNat (addr / pageSize) s

/-! ## Reading entries -/

variable {nr e page a : UInt32} {u w : Bool} {ro : UInt32 → Bool} {mem : UInt32 → UInt32}

/-- A field of bits as a number. -/
theorem toNat_shiftRight_and {s m : UInt32} {k : ℕ} (x : UInt32) (hs : s.toNat < 32)
    (hm : m.toNat = 2 ^ k - 1) : ((x >>> s) &&& m).toNat = x.toNat / 2 ^ s.toNat % 2 ^ k := by
  rw [UInt32.toNat_and, UInt32.toNat_shiftRight, Nat.mod_eq_of_lt hs, hm,
    Nat.shiftRight_eq_div_pow, Nat.and_two_pow_sub_one_eq_mod]

theorem toNat_getPagePresent (e : UInt32) : (getPagePresent e).toNat = e.toNat % 2 := by
  rw [getPagePresent, UInt32.toNat_and]
  exact Nat.and_one_is_mod _

theorem toNat_getPageReadWrite (e : UInt32) : (getPageReadWrite e).toNat = e.toNat / 2 % 2 :=
  toNat_shiftRight_and (k := 1) e (by decide) rfl

theorem toNat_getPageUser (e : UInt32) : (getPageUser e).toNat = e.toNat / 4 % 2 :=
  toNat_shiftRight_and (k := 1) e (by decide) rfl

theorem toNat_getPageAddress (e : UInt32) : (getPageAddress e).toNat = e.toNat / 4096 := by
  have he := e.toNat_lt
  have hmask : (~~~(pageSize - 1)) >>> 12 = 2 ^ 20 - 1 := by decide
  rw [getPageAddress, UInt32.shiftRight_and, hmask,
    toNat_shiftRight_and (k := 20) e (by decide) rfl]
  simp only [UInt32.reduceToNat]
  omega

theorem toNat_pdIndex (v : UInt32) : (pdIndex v).toNat = v.toNat / 2 ^ 22 := by
  have hv := v.toNat_lt
  rw [pdIndex, toNat_shiftRight_and (k := 10) v (by decide) rfl]
  simp only [UInt32.reduceToNat]
  omega

theorem toNat_ptIndex (v : UInt32) : (ptIndex v).toNat = v.toNat / 4096 % 1024 :=
  toNat_shiftRight_and (k := 10) v (by decide) rfl

/-- An entry by what its macros read. -/
structure Entry (e page : UInt32) (user writable : Bool) : Prop where
  present : getPagePresent e = 1
  address : getPageAddress e = page
  user : getPageUser e = user.toUInt32
  readWrite : getPageReadWrite e = writable.toUInt32

theorem toNat_bool (b : Bool) : b.toUInt32.toNat = b.toNat := by cases b <;> rfl

theorem entry_of_toNat {x : ℕ} (hx : e.toNat = 4096 * page.toNat + x) (hlt : x < 4096)
    (hp : x % 2 = 1) (hw : x / 2 % 2 = w.toNat) (hu : x / 4 % 2 = u.toNat) : Entry e page u w := by
  refine ⟨?_, ?_, ?_, ?_⟩ <;> rw [← UInt32.toNat_inj]
  · rw [toNat_getPagePresent, UInt32.toNat_one]
    omega
  · rw [toNat_getPageAddress]
    omega
  · rw [toNat_getPageUser, toNat_bool]
    omega
  · rw [toNat_getPageReadWrite, toNat_bool]
    omega

/-- What the loops of `mem_init` store. -/
theorem entry_pageEntry (limit i : UInt32) (hp : page.toNat < 2 ^ 20) :
    Entry (pageEntry limit i (page * pageSize)) page (decide (limit ≤ i)) true := by
  have hframe : (page * pageSize).toNat = 2 ^ 12 * page.toNat := by
    simp only [pageSize, UInt32.toNat_mul, UInt32.reduceToNat]
    omega
  have hor : ∀ c : UInt32, c.toNat < 2 ^ 12 →
      (c ||| page * pageSize).toNat = 4096 * page.toNat + c.toNat := by
    intro c hc
    rw [UInt32.toNat_or, hframe, Nat.lor_comm, ← Nat.two_pow_add_eq_or_of_lt hc]
  rw [pageEntry]
  by_cases hi : i < limit
  · rw [if_pos hi]
    have hle : decide (limit ≤ i) = false := by
      rw [decide_eq_false_iff_not]
      exact UInt32.not_le.mpr hi
    rw [hle]
    exact entry_of_toNat (hor 3 (by decide)) (by decide) rfl rfl rfl
  · rw [if_neg hi]
    have hle : decide (limit ≤ i) = true := by
      rw [decide_eq_true_iff]
      exact UInt32.not_lt.mp hi
    rw [hle]
    exact entry_of_toNat (hor 7 (by decide)) (by decide) rfl rfl rfl

/-- `PT_SET_READ_ONLY` takes the right to write and nothing else. -/
theorem Entry.setReadOnly (h : Entry e page u w) : Entry (ptSetReadOnly e) page u false := by
  refine ⟨?_, ?_, ?_, ?_⟩
  · rw [← h.present, getPagePresent, ptSetReadOnly, UInt32.and_assoc]
    rfl
  · rw [← h.address, getPageAddress, ptSetReadOnly, UInt32.and_assoc]
    rfl
  · rw [← h.user, getPageUser, ptSetReadOnly, UInt32.shiftRight_and, UInt32.and_assoc]
    rfl
  · rw [getPageReadWrite, ptSetReadOnly, UInt32.shiftRight_and, UInt32.and_assoc]
    exact UInt32.and_zero

theorem or_and (x y z : UInt32) : (x ||| y) &&& z = (x &&& z) ||| (y &&& z) := by
  rw [← UInt32.toBitVec_inj, UInt32.toBitVec_and, UInt32.toBitVec_or, UInt32.toBitVec_or,
    UInt32.toBitVec_and, UInt32.toBitVec_and]
  exact BitVec.and_or_distrib_right

/-- `PT_SET_ATTRIB(page, PTE_READ_WRITE)` gives it. -/
theorem Entry.setReadWrite (h : Entry e page u w) :
    Entry (ptSetAttrib e pteReadWrite) page u true := by
  refine ⟨?_, ?_, ?_, ?_⟩
  · rw [← h.present, getPagePresent, ptSetAttrib, or_and]
    exact UInt32.or_zero
  · have hzero : pteReadWrite &&& ~~~(pageSize - 1) = 0 := by decide
    rw [← h.address, getPageAddress, ptSetAttrib, or_and, hzero, UInt32.or_zero, getPageAddress]
  · rw [← h.user, getPageUser, ptSetAttrib, UInt32.shiftRight_or, or_and]
    exact UInt32.or_zero
  · rw [getPageReadWrite, ptSetAttrib, UInt32.shiftRight_or, or_and]
    have hbit : e >>> 1 &&& 1 = getPageReadWrite e := rfl
    rw [hbit, h.readWrite]
    cases w <;> rfl

/-- What the processor reads from an entry. -/
theorem Entry.tables (h : Entry e page u w) : i386Tables.present e = true ∧
    i386Tables.frame e = page * pageSize ∧ i386Tables.rights e = (u, w) := by
  refine ⟨beq_iff_eq.mpr h.present, congrArg (· * pageSize) h.address, ?_⟩
  show (getPageUser e == 1, getPageReadWrite e == 1) = (u, w)
  rw [h.user, h.readWrite]
  cases u <;> cases w <;> rfl

/-! ## The tables -/

/-- Where the entry of a page is in the page tables. -/
theorem toNat_entry (hi : a.toNat < 2 ^ 22) :
    (kernelPageTable + 4 * a).toNat = 2101248 + 4 * a.toNat := by
  simp only [kernelPageTable, kernelEnd, oneMeg, pageSize, UInt32.toNat_add, UInt32.toNat_mul,
    UInt32.reduceToNat]
  omega

/-- Where the entry of a page table is in the page directory. -/
theorem toNat_directoryEntry (hi : a.toNat < 2 ^ 22) :
    (kernelPageDir + 4 * a).toNat = 2097152 + 4 * a.toNat := by
  simp only [kernelPageDir, kernelEnd, oneMeg, UInt32.toNat_add, UInt32.toNat_mul,
    UInt32.reduceToNat]
  omega

/-- The tables lead every page that a page table covers to itself: the pages from `END_KMEM` on for
users, and those that are not read-only to write. -/
structure TablesOk (nr : UInt32) (ro : UInt32 → Bool) (mem : UInt32 → UInt32) : Prop where
  directory : ∀ i : UInt32, i.toNat < nr.toNat / 1024 →
    Entry (mem (kernelPageDir + 4 * i)) (513 + i) (decide (4 ≤ i)) true
  table : ∀ i : UInt32, i < nr →
    Entry (mem (kernelPageTable + 4 * i)) i (decide (4096 ≤ i)) (!ro i)

theorem fillTable_of_ne {table limit i frame : UInt32} {k : ℕ}
    (h : ∀ j < k, a ≠ table + 4 * (i + UInt32.ofNat j)) :
    fillTable table limit k i frame mem a = mem a := by
  induction k generalizing i frame mem with
  | zero => rfl
  | succ k ih =>
      rw [fillTable, ih, Function.update_of_ne]
      · have h0 : a ≠ table + 4 * (i + 0) := h 0 (Nat.succ_pos k)
        rwa [UInt32.add_zero] at h0
      · intro j hj
        have hnext : i + 1 + UInt32.ofNat j = i + UInt32.ofNat (j + 1) := by
          rw [UInt32.ofNat_add, UInt32.add_assoc, UInt32.add_comm 1]
          rfl
        rw [hnext]
        exact h (j + 1) (Nat.succ_lt_succ hj)

/-- **What a loop of `mem_init` stores.** -/
theorem fillTable_entry {table limit i frame : UInt32} {k j : ℕ} (hj : j < k) (hk : k ≤ 2 ^ 20) :
    fillTable table limit k i frame mem (table + 4 * (i + UInt32.ofNat j)) =
      pageEntry limit (i + UInt32.ofNat j) (frame + UInt32.ofNat j * pageSize) := by
  induction k generalizing i frame mem j with
  | zero => exact absurd hj (Nat.not_lt_zero j)
  | succ k ih =>
      rw [fillTable]
      cases j with
      | zero =>
          have hzero : UInt32.ofNat 0 = 0 := rfl
          rw [hzero, UInt32.add_zero, UInt32.zero_mul, UInt32.add_zero, fillTable_of_ne,
            Function.update_self]
          intro j hj heq
          have hnat := congrArg UInt32.toNat heq
          simp only [UInt32.toNat_add, UInt32.toNat_mul, UInt32.reduceToNat,
            UInt32.toNat_ofNat'] at hnat
          omega
      | succ j =>
          have hnext : i + UInt32.ofNat (j + 1) = i + 1 + UInt32.ofNat j := by
            rw [UInt32.ofNat_add, UInt32.add_assoc, UInt32.add_comm 1]
            rfl
          have hframe : frame + UInt32.ofNat (j + 1) * pageSize =
              frame + pageSize + UInt32.ofNat j * pageSize := by
            rw [UInt32.ofNat_add, UInt32.add_mul, UInt32.add_assoc, UInt32.add_comm pageSize]
            rfl
          rw [hnext, hframe]
          exact ih (Nat.lt_of_succ_lt_succ hj) (by omega)

/-- **The tables after `mem_init`**: no page is read-only. -/
theorem initTables_ok (hnr : nr.toNat < 2 ^ 20) (mem : UInt32 → UInt32) :
    TablesOk nr (fun _ => false) (initTables nr mem) := by
  have hdirs : (nr / pageTableSize).toNat = nr.toNat / 1024 := UInt32.toNat_div nr pageTableSize
  have hlimit : endKmem nr / pageSize = 4096 := by
    rw [Paging.endKmem_eq hnr]
    decide
  have hdirlimit : endKmem nr / oneFullPageTableBytes = 4 := by
    rw [Paging.endKmem_eq hnr]
    decide
  constructor
  · intro i hi
    have hloop := @fillTable_entry (fillTable kernelPageTable (endKmem nr / pageSize) nr.toNat 0 0
      mem) kernelPageDir 4 0 kernelPageTable (nr.toNat / 1024) i.toNat hi (by omega)
    rw [UInt32.ofNat_toNat, UInt32.zero_add] at hloop
    have hframe : kernelPageTable + i * pageSize = (513 + i) * pageSize := by
      rw [UInt32.add_mul]
      rfl
    rw [initTables, hdirs, hdirlimit, hloop, hframe]
    apply entry_pageEntry
    simp only [UInt32.toNat_add, UInt32.reduceToNat]
    omega
  · intro i hi
    have hi' := UInt32.lt_iff_toNat_lt.mp hi
    have hloop := @fillTable_entry mem kernelPageTable 4096 0 0 nr.toNat i.toNat hi' (by omega)
    rw [UInt32.ofNat_toNat, UInt32.zero_add, UInt32.zero_add] at hloop
    rw [initTables, hdirs, fillTable_of_ne, hlimit, hloop]
    · exact entry_pageEntry 4096 i (by omega)
    · intro j hj heq
      have hnat := congrArg UInt32.toNat heq
      rw [toNat_entry (by omega), toNat_directoryEntry] at hnat
      · simp only [UInt32.zero_add, UInt32.toNat_ofNat'] at hnat
        omega
      · simp only [UInt32.zero_add, UInt32.toNat_ofNat']
        omega

/-- `mem_init` leaves the rest of the page directory as it was. -/
theorem initTables_rest (hnr : nr.toNat < 2 ^ 20) {d : UInt32} (hlo : nr.toNat / 1024 ≤ d.toNat)
    (hhi : d.toNat < 1024) (mem : UInt32 → UInt32) :
    initTables nr mem (kernelPageDir + 4 * d) = mem (kernelPageDir + 4 * d) := by
  have hdirs : (nr / pageTableSize).toNat = nr.toNat / 1024 := UInt32.toNat_div nr pageTableSize
  rw [initTables, hdirs, fillTable_of_ne, fillTable_of_ne]
  · intro j hj heq
    have hnat := congrArg UInt32.toNat heq
    rw [toNat_directoryEntry (by omega), toNat_entry] at hnat
    · omega
    · simp only [UInt32.zero_add, UInt32.toNat_ofNat']
      omega
  · intro j hj heq
    have hnat := congrArg UInt32.toNat heq
    rw [toNat_directoryEntry (by omega), toNat_directoryEntry] at hnat
    · simp only [UInt32.zero_add, UInt32.toNat_ofNat'] at hnat
      omega
    · simp only [UInt32.zero_add, UInt32.toNat_ofNat']
      omega

/-- The word is neither in the page directory nor in a page table. -/
def Outside (nr a : UInt32) : Prop := a.toNat < 2097152 ∨ 2101248 + 4 * nr.toNat ≤ a.toNat

theorem Outside.ne_entry (h : Outside nr a) {i : UInt32} (hi : i < nr)
    (hnr : nr.toNat < 2 ^ 20) : kernelPageTable + 4 * i ≠ a := by
  rintro rfl
  have hi := UInt32.lt_iff_toNat_lt.mp hi
  rw [Outside, toNat_entry (by omega)] at h
  omega

theorem Outside.ne_directoryEntry (h : Outside nr a) {i : UInt32}
    (hi : i.toNat < nr.toNat / 1024) (hnr : nr.toNat < 2 ^ 20) : kernelPageDir + 4 * i ≠ a := by
  rintro rfl
  rw [Outside, toNat_directoryEntry (by omega)] at h
  omega

/-- Other stores keep the tables. -/
theorem TablesOk.store (h : TablesOk nr ro mem) (hnr : nr.toNat < 2 ^ 20) (ha : Outside nr a)
    (y : UInt32) : TablesOk nr ro (Function.update mem a y) := by
  constructor
  · intro i hi
    rw [Function.update_of_ne (ha.ne_directoryEntry hi hnr)]
    exact h.directory i hi
  · intro i hi
    rw [Function.update_of_ne (ha.ne_entry hi hnr)]
    exact h.table i hi

/-- The change to an entry makes its page read-only, or not. -/
def SetsReadOnly (change : UInt32 → UInt32) (b : Bool) : Prop :=
  ∀ e page u w, Entry e page u w → Entry (change e) page u (!b)

/-- A round of `mem_set_read_only` or `mem_unset_read_only`. -/
theorem TablesOk.set (h : TablesOk nr ro mem) (hnr : nr.toNat < 2 ^ 20) {i : UInt32} {b : Bool}
    {change : UInt32 → UInt32} (hi : i < nr) (hchange : SetsReadOnly change b) :
    TablesOk nr (Function.update ro i b) (Function.update mem (kernelPageTable + 4 * i)
      (change (mem (kernelPageTable + 4 * i)))) := by
  have hlt := UInt32.lt_iff_toNat_lt.mp hi
  constructor
  · intro j hj
    have hne : kernelPageDir + 4 * j ≠ kernelPageTable + 4 * i := by
      intro heq
      have hnat := congrArg UInt32.toNat heq
      rw [toNat_entry (by omega), toNat_directoryEntry (by omega)] at hnat
      omega
    rw [Function.update_of_ne hne]
    exact h.directory j hj
  · intro j hj
    have hlt' := UInt32.lt_iff_toNat_lt.mp hj
    by_cases hji : j = i
    · subst hji
      rw [Function.update_self, Function.update_self]
      exact hchange _ _ _ _ (h.table j hj)
    · have hne : kernelPageTable + 4 * j ≠ kernelPageTable + 4 * i := by
        intro heq
        have hnat := congrArg UInt32.toNat heq
        rw [toNat_entry (by omega), toNat_entry (by omega)] at hnat
        exact hji (UInt32.toNat_inj.mp (by omega))
      rw [Function.update_of_ne hne, Function.update_of_ne hji]
      exact h.table j hj

/-- The pages that a page table covers. -/
def mappedPages (nr : UInt32) : Set UInt32 := {p | p.toNat < nr.toNat / 1024 * 1024}

/-- Where a page leads: to itself. -/
def leadsTo (ro : UInt32 → Bool) (p : UInt32) : UInt32 × Bool × Bool :=
  (p * pageSize, decide (4096 ≤ p), !ro p)

/-- **The walk of a page that is covered.** -/
theorem TablesOk.walk (h : TablesOk nr ro mem) (hnr : nr.toNat < 2 ^ 20) {p : UInt32}
    (hp : p ∈ mappedPages nr) : i386Tables.walk mem kernelPageDir p = some (leadsTo ro p) := by
  have hp : p.toNat < nr.toNat / 1024 * 1024 := hp
  have haddr : (p * pageSize).toNat = 4096 * p.toNat := by
    simp only [pageSize, UInt32.toNat_mul, UInt32.reduceToNat]
    omega
  obtain ⟨d, hd⟩ : ∃ d, pdIndex (p * pageSize) = d := ⟨_, rfl⟩
  obtain ⟨i, hi⟩ : ∃ i, ptIndex (p * pageSize) = i := ⟨_, rfl⟩
  have hdp : d.toNat = p.toNat / 1024 := by
    rw [← hd, toNat_pdIndex, haddr]
    omega
  have hip : i.toNat = p.toNat % 1024 := by
    rw [← hi, toNat_ptIndex, haddr]
    omega
  have hdir := h.directory d (by omega)
  have htab := h.table p (UInt32.lt_iff_toNat_lt.mpr (by omega))
  obtain ⟨hpresent, hframe, hrights⟩ := hdir.tables
  obtain ⟨hpresent', hframe', hrights'⟩ := htab.tables
  have hroot : i386Tables.directoryEntry kernelPageDir p = kernelPageDir + 4 * d := by
    rw [← hd]
    rfl
  -- The page tables are in a row, so the entry of a page is where its number says.
  have hentry : i386Tables.tableEntry ((513 + d) * pageSize) p = kernelPageTable + 4 * p := by
    show (513 + d) * pageSize + 4 * ptIndex (p * pageSize) = _
    rw [hi, ← UInt32.toNat_inj, toNat_entry (by omega)]
    simp only [pageSize, UInt32.toNat_add, UInt32.toNat_mul, UInt32.reduceToNat]
    omega
  have huser : (decide (4 ≤ d) && decide (4096 ≤ p)) = decide (4096 ≤ p) := by
    by_cases hp4 : 4096 ≤ p
    · have hd4 : 4 ≤ d := by
        simp only [UInt32.le_iff_toNat_le, UInt32.reduceToNat] at hp4 ⊢
        omega
      rw [decide_eq_true hd4, Bool.true_and]
    · rw [decide_eq_false hp4, Bool.and_false]
  rw [Lib.Tables.walk_eq (by rw [hroot]) (by rw [hframe, hentry]) hpresent hpresent', hframe',
    hrights, hrights', leadsTo]
  show some (p * pageSize, (decide (4 ≤ d) && decide (4096 ≤ p)), true && !ro p) = _
  rw [huser, Bool.true_and]

/-! ## The calls -/

/-- The tables are right, and the processor remembers nothing else. -/
structure Mapped (nr : UInt32) (ro : UInt32 → Bool) (s : Mmu) : Prop where
  tables : TablesOk nr ro s.mem
  maps : s.Maps i386Tables kernelPageDir (mappedPages nr) (leadsTo ro)

variable {s : Mmu} {change : UInt32 → UInt32} {b : Bool}

/-- After `mem_init` nothing is remembered. -/
theorem mapped_init (hnr : nr.toNat < 2 ^ 20) (mem : UInt32 → UInt32) :
    Mapped nr (fun _ => false) ⟨initTables nr mem, fun _ => none⟩ := by
  have htables := initTables_ok hnr mem
  exact ⟨htables, ⟨fun p hp => htables.walk hnr hp, fun p hp found hfound => by cases hfound⟩⟩

theorem Mapped.store (h : Mapped nr ro s) (hnr : nr.toNat < 2 ^ 20) (ha : Outside nr a)
    (y : UInt32) : Mapped nr ro (s.store a y) := by
  have htables := h.tables.store hnr ha y
  exact ⟨htables, h.maps.store fun q hq => htables.walk hnr hq⟩

theorem Mapped.find (h : Mapped nr ro s) (p : UInt32) :
    Mapped nr ro (s.find i386Tables kernelPageDir p).2 := by
  have hmem : (s.find i386Tables kernelPageDir p).2.mem = s.mem := s.mem_find p
  refine ⟨?_, h.maps.find_state p⟩
  rw [hmem]
  exact h.tables

/-- The read-only pages after a call on the `k` pages from `i` on. -/
def readOnlyAfter (i k : ℕ) (b : Bool) (ro : UInt32 → Bool) (p : UInt32) : Bool :=
  if i ≤ p.toNat ∧ p.toNat < i + k then b else ro p

/-- **A call** on pages of the memory: it sets their entries and flushes them. -/
theorem Mapped.setPages {k : ℕ} {i : UInt32} (h : Mapped nr ro s) (hnr : nr.toNat < 2 ^ 20)
    (hchange : SetsReadOnly change b) (hk : i.toNat + k ≤ nr.toNat) :
    Mapped nr (readOnlyAfter i.toNat k b ro) (setPages change k i s) := by
  induction k generalizing i ro s with
  | zero =>
      have hsame : readOnlyAfter i.toNat 0 b ro = ro := by
        funext p
        exact if_neg (by omega)
      rw [hsame]
      exact h
  | succ k ih =>
      have hi : i < nr := UInt32.lt_iff_toNat_lt.mpr (by omega)
      have hpage : i * pageSize / pageSize = i := by
        rw [← UInt32.toNat_inj]
        simp only [pageSize, UInt32.toNat_div, UInt32.toNat_mul, UInt32.reduceToNat]
        omega
      have hnext : (i + 1).toNat = i.toNat + 1 := Lib.toNat_succ (by omega)
      have hround : Mapped nr (Function.update ro i b)
          ((s.store (kernelPageTable + 4 * i) (change (s.mem (kernelPageTable + 4 * i)))).forget
            (i * pageSize / pageSize)) := by
        have htables := h.tables.set hnr hi hchange
        refine ⟨htables, h.maps.storeForget (fun q hq => htables.walk hnr hq) fun q hq => ?_⟩
        rw [hpage] at hq
        rw [leadsTo, leadsTo, Function.update_of_ne hq]
      have hrest := ih (i := i + 1) hround (by omega)
      have hsame : readOnlyAfter (i + 1).toNat k b (Function.update ro i b) =
          readOnlyAfter i.toNat (k + 1) b ro := by
        funext p
        by_cases hp : p = i
        · subst hp
          rw [readOnlyAfter, readOnlyAfter, if_neg (by omega), if_pos (by omega),
            Function.update_self]
        · have hne : p.toNat ≠ i.toNat := fun heq => hp (UInt32.toNat_inj.mp heq)
          rw [readOnlyAfter, readOnlyAfter, Function.update_of_ne hp]
          exact if_congr (by omega) rfl rfl
      rw [hsame] at hrest
      exact hrest

end OxKernel.Mm
