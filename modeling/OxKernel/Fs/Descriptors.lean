import OxKernel.Fs.FileOpen
import Mathlib

/-!
# The tables of descriptors and open files

A descriptor is a pointer into the table of open files, and an entry of that table is free
when its path is empty; nothing counts the descriptors of an entry. `TablesOk` says that
the two tables agree, and that descriptors share an entry just when they go back to the
same open. Each call that opens, closes or duplicates descriptors makes one of four changes
to the tables, under a condition on the lookup or on the writes that it makes on the way.

## Main definitions

* `TablesOk` — the descriptors and the open files agree.
* `Opens`, `Closes`, `Duplicates`, `SameTables` — the changes.
* `LastOf`, `closeSync`, `closeWrite` — what the close of an entry writes.
-/
namespace OxKernel.Fs

/-! ## Descriptors by number -/

/-- A descriptor as the caller has it. -/
def descNo (fd : Fin maxFiles) : Int32 := Int32.ofNat fd

theorem descNo_toInt (fd : Fin maxFiles) : (descNo fd).toInt = (fd : ℕ) := by
  have hlt : (fd : ℕ) < 2 ^ 31 := lt_trans fd.isLt (by decide)
  exact Int32.toInt_ofNat_of_lt hlt

theorem descNo_injective : Function.Injective descNo := by
  intro fd fd' h
  have hint := congrArg Int32.toInt h
  rw [descNo_toInt, descNo_toInt] at hint
  exact Fin.ext (by omega)

theorem descNo_nonneg (fd : Fin maxFiles) : ¬ descNo fd < 0 := by
  rw [Int32.lt_iff_toInt_lt, descNo_toInt]
  simp

theorem descNo_ne_neg_one (fd : Fin maxFiles) : descNo fd ≠ -1 := by
  intro h
  have hint := congrArg Int32.toInt h
  rw [descNo_toInt] at hint
  have hneg : (-1 : Int32).toInt = -1 := by decide
  omega

/-- An inode without a name, which marks a free entry of `file_tab`. -/
def Inode.Unnamed (n : Inode) : Prop := n.path 0 = 0

namespace Proc
variable (p : Proc) (fd : Fin maxFiles)

@[simp] theorem descriptor_descNo : p.descriptor (descNo fd) = p.fileDesc fd := by
  have hidx : (descNo fd).toInt.toNat = fd := by
    rw [descNo_toInt]
    exact Int.toNat_natCast _
  rw [descriptor, if_neg (descNo_nonneg fd), dif_pos (by rw [hidx]; exact fd.isLt)]
  exact congrArg p.fileDesc (Fin.ext hidx)

theorem setDescriptor_descNo (q : Option (Fin maxFiles)) :
    p.setDescriptor (descNo fd) q = { p with fileDesc := Function.update p.fileDesc fd q } := by
  have hidx : (descNo fd).toInt.toNat = fd := by
    rw [descNo_toInt]
    exact Int.toNat_natCast _
  have hfin : (⟨(descNo fd).toInt.toNat, by rw [hidx]; exact fd.isLt⟩ : Fin maxFiles) = fd :=
    Fin.ext hidx
  rw [setDescriptor, dif_pos (by rw [hidx]; exact fd.isLt), hfin]

/-- What the search for a descriptor returns: an entry with an empty path and a descriptor
that is not in use. -/
theorem allocDescriptor_eq_some {p p' : Proc} {w : Int32} {t : Fin maxFiles}
    (h : p.allocDescriptor = some (w, t, p')) :
    ∃ fd, w = descNo fd ∧ p.fileDesc fd = none ∧ (p.fileTab t).Unnamed ∧
      p' = { p with fileDesc := Function.update p.fileDesc fd (some t) } := by
  unfold allocDescriptor at h
  generalize hi : List.find? (fun i => decide ((p.fileTab i).path 0 = 0)) (List.finRange maxFiles) = a at h
  generalize hfd : List.find? (fun fd => (p.fileDesc fd).isNone) (List.finRange maxFiles) = b at h
  rcases a with _ | i
  · cases h
  · rcases b with _ | fd
    · cases h
    · cases h
      have htab := List.find?_some hi
      rw [decide_eq_true_eq] at htab
      have hnone := List.find?_some hfd
      exact ⟨fd, rfl, Option.isNone_iff_eq_none.mp hnone, htab, rfl⟩

end Proc

/-! ## The tables -/

/-- The descriptors and the open files agree, for descriptors that go back to the opens in
`origin`. -/
structure TablesOk (desc : Fin maxFiles → Option (Fin maxFiles)) (tab : Fin maxFiles → Inode)
    (origin : Fin maxFiles → ℕ) (opens : ℕ) : Prop where
  /-- A descriptor points to an open file. -/
  holds : ∀ fd t, desc fd = some t → ¬ (tab t).Unnamed
  /-- Descriptors point to the same entry just when they go back to the same open. -/
  shared : ∀ fd fd' t t', desc fd = some t → desc fd' = some t' → (t = t' ↔ origin fd = origin fd')
  /-- An entry in use has a descriptor. -/
  referenced : ∀ t, ¬ (tab t).Unnamed → ∃ fd, desc fd = some t
  /-- The opens so far are numbered. -/
  numbered : ∀ fd t, desc fd = some t → origin fd < opens

section Tables
variable {desc : Fin maxFiles → Option (Fin maxFiles)} {tab : Fin maxFiles → Inode}
  {origin : Fin maxFiles → ℕ} {opens : ℕ} {fd fd' t t' : Fin maxFiles}

theorem TablesOk.empty (hdesc : ∀ fd, desc fd = none) (htab : ∀ t, (tab t).Unnamed) :
    TablesOk desc tab origin opens where
  holds fd t h := by
    rw [hdesc] at h
    cases h
  shared fd fd' t t' h := by
    rw [hdesc] at h
    cases h
  referenced t h := absurd (htab t) h
  numbered fd t h := by
    rw [hdesc] at h
    cases h

/-- A descriptor after one descriptor has been set. -/
theorem update_desc {q : Option (Fin maxFiles)} (h : Function.update desc fd q fd' = some t) :
    fd' = fd ∧ q = some t ∨ fd' ≠ fd ∧ desc fd' = some t := by
  by_cases hfd : fd' = fd
  · subst hfd
    rw [Function.update_self] at h
    exact Or.inl ⟨rfl, h⟩
  · rw [Function.update_of_ne hfd] at h
    exact Or.inr ⟨hfd, h⟩

/-- Opening a file. -/
theorem TablesOk.opened (h : TablesOk desc tab origin opens) (hfd : desc fd = none)
    (ht : (tab t).Unnamed) {n : Inode} (hn : ¬ n.Unnamed) :
    TablesOk (Function.update desc fd (some t)) (Function.update tab t n)
      (Function.update origin fd opens) (opens + 1) where
  holds fd₁ t₁ h₁ := by
    by_cases he : t₁ = t
    · rw [he, Function.update_self]
      exact hn
    · rw [Function.update_of_ne he]
      rcases update_desc h₁ with ⟨_, hq⟩ | ⟨_, hq⟩
      · cases hq
        exact absurd rfl he
      · exact h.holds fd₁ t₁ hq
  shared fd₁ fd₂ t₁ t₂ h₁ h₂ := by
    rcases update_desc h₁ with ⟨rfl, hq₁⟩ | ⟨hne₁, hd₁⟩
    · cases hq₁
      rcases update_desc h₂ with ⟨rfl, hq₂⟩ | ⟨hne₂, hd₂⟩
      · cases hq₂
        exact iff_of_true rfl rfl
      · rw [Function.update_self, Function.update_of_ne hne₂]
        have hlt := h.numbered fd₂ t₂ hd₂
        refine iff_of_false ?_ (by omega)
        rintro rfl
        exact h.holds fd₂ t hd₂ ht
    · rcases update_desc h₂ with ⟨rfl, hq₂⟩ | ⟨hne₂, hd₂⟩
      · cases hq₂
        rw [Function.update_self, Function.update_of_ne hne₁]
        have hlt := h.numbered fd₁ t₁ hd₁
        refine iff_of_false ?_ (by omega)
        rintro rfl
        exact h.holds fd₁ t₁ hd₁ ht
      · rw [Function.update_of_ne hne₁, Function.update_of_ne hne₂]
        exact h.shared fd₁ fd₂ t₁ t₂ hd₁ hd₂
  referenced t₁ h₁ := by
    by_cases he : t₁ = t
    · exact ⟨fd, by rw [he, Function.update_self]⟩
    · rw [Function.update_of_ne he] at h₁
      obtain ⟨fd₁, hfd₁⟩ := h.referenced t₁ h₁
      refine ⟨fd₁, ?_⟩
      rw [Function.update_of_ne, hfd₁]
      rintro rfl
      rw [hfd] at hfd₁
      cases hfd₁
  numbered fd₁ t₁ h₁ := by
    rcases update_desc h₁ with ⟨rfl, _⟩ | ⟨hne, h₁⟩
    · rw [Function.update_self]
      exact Nat.lt_succ_self _
    · rw [Function.update_of_ne hne]
      exact Nat.lt_succ_of_lt (h.numbered fd₁ t₁ h₁)

/-- Pointing a free descriptor to the entry of another one. -/
theorem TablesOk.duplicated (h : TablesOk desc tab origin opens) (hfd : desc fd = some t)
    (hfree : desc fd' = none) :
    TablesOk (Function.update desc fd' (some t)) tab (Function.update origin fd' (origin fd)) opens := by
  have hsame : ∀ fd₁ t₁, Function.update desc fd' (some t) fd₁ = some t₁ →
      ∃ fd₂, desc fd₂ = some t₁ ∧ Function.update origin fd' (origin fd) fd₁ = origin fd₂ := by
    intro fd₁ t₁ h₁
    rcases update_desc h₁ with ⟨rfl, hq⟩ | ⟨hne, h₁⟩
    · cases hq
      exact ⟨fd, hfd, Function.update_self ..⟩
    · exact ⟨fd₁, h₁, Function.update_of_ne hne ..⟩
  constructor
  · intro fd₁ t₁ h₁
    obtain ⟨fd₂, h₂, -⟩ := hsame fd₁ t₁ h₁
    exact h.holds fd₂ t₁ h₂
  · intro fd₁ fd₂ t₁ t₂ h₁ h₂
    obtain ⟨fd₃, h₃, ho₃⟩ := hsame fd₁ t₁ h₁
    obtain ⟨fd₄, h₄, ho₄⟩ := hsame fd₂ t₂ h₂
    rw [ho₃, ho₄]
    exact h.shared fd₃ fd₄ t₁ t₂ h₃ h₄
  · intro t₁ h₁
    obtain ⟨fd₁, hfd₁⟩ := h.referenced t₁ h₁
    refine ⟨fd₁, ?_⟩
    rw [Function.update_of_ne, hfd₁]
    rintro rfl
    rw [hfree] at hfd₁
    cases hfd₁
  · intro fd₁ t₁ h₁
    obtain ⟨fd₂, h₂, ho₂⟩ := hsame fd₁ t₁ h₁
    rw [ho₂]
    exact h.numbered fd₂ t₁ h₂

/-- Taking a descriptor away, when every entry but the one it points to stays and that one
is freed unless it has another descriptor. -/
theorem TablesOk.released (h : TablesOk desc tab origin opens) (hfd : desc fd = some t)
    {tab' : Fin maxFiles → Inode} (htab : ∀ t', t' ≠ t → tab' t' = tab t')
    (hlast : (∃ fd', fd' ≠ fd ∧ desc fd' = some t ∧ tab' t = tab t) ∨
      (∀ fd', fd' ≠ fd → desc fd' ≠ some t) ∧ (tab' t).Unnamed) :
    TablesOk (Function.update desc fd none) tab' origin opens := by
  have hkept : ∀ fd₁ t₁, Function.update desc fd none fd₁ = some t₁ → fd₁ ≠ fd ∧ desc fd₁ = some t₁ := by
    intro fd₁ t₁ h₁
    rcases update_desc h₁ with ⟨_, h₁⟩ | h₁
    · cases h₁
    · exact h₁
  constructor
  · intro fd₁ t₁ h₁
    obtain ⟨hne, h₁⟩ := hkept fd₁ t₁ h₁
    have hopen := h.holds fd₁ t₁ h₁
    by_cases ht : t₁ = t
    · rw [ht] at h₁ hopen ⊢
      rcases hlast with ⟨_, _, _, he⟩ | ⟨hnone, _⟩
      · rw [he]
        exact hopen
      · exact absurd h₁ (hnone fd₁ hne)
    · rw [htab t₁ ht]
      exact hopen
  · intro fd₁ fd₂ t₁ t₂ h₁ h₂
    exact h.shared fd₁ fd₂ t₁ t₂ (hkept fd₁ t₁ h₁).2 (hkept fd₂ t₂ h₂).2
  · intro t₁ h₁
    by_cases ht : t₁ = t
    · rw [ht] at h₁ ⊢
      rcases hlast with ⟨fd₁, hne, hfd₁, _⟩ | ⟨_, hfree⟩
      · exact ⟨fd₁, by rw [Function.update_of_ne hne, hfd₁]⟩
      · exact absurd hfree h₁
    · rw [htab t₁ ht] at h₁
      obtain ⟨fd₁, hfd₁⟩ := h.referenced t₁ h₁
      refine ⟨fd₁, ?_⟩
      rw [Function.update_of_ne, hfd₁]
      rintro rfl
      rw [hfd] at hfd₁
      cases hfd₁
      exact ht rfl
  · intro fd₁ t₁ h₁
    exact h.numbered fd₁ t₁ (hkept fd₁ t₁ h₁).2

end Tables

/-! ## What the calls do to the tables -/

section Calls
variable {σ : Type} {L : BlockLayer σ} {s s' : Sys σ} {fuel : ℕ} {now : BlockNo} {path : CStr}
  {flags mode perm : UInt32} {w : Int32}

/-- The tables of a process are those of another one. -/
def SameTables (p p' : Proc) : Prop := p'.fileDesc = p.fileDesc ∧ p'.fileTab = p.fileTab

/-- A call has opened a file that has a name. -/
def Opens (w : Int32) (p p' : Proc) : Prop :=
  ∃ fd t n, w = descNo fd ∧ p.fileDesc fd = none ∧ (p.fileTab t).Unnamed ∧ ¬ n.Unnamed ∧
    p'.fileDesc = Function.update p.fileDesc fd (some t) ∧
    p'.fileTab = Function.update p.fileTab t n

/-- A lookup finds an inode that has a name. -/
def FindsNamed (x : Option (Except InodeRtvl Inode × Sys σ)) : Prop :=
  ∀ r s', x = some (r, s') → ∃ n, r = .ok n ∧ ¬ n.Unnamed

/-- What a lookup finds has a name. -/
def OnlyNamed (x : Option (Except InodeRtvl Inode × Sys σ)) : Prop :=
  ∀ n s', x = some (.ok n, s') → ¬ n.Unnamed

theorem Sys.get_proc {doReadlink : Bool} {m : InodeMode} {r : Except InodeRtvl Inode}
    (h : s.get L fuel now path doReadlink m = some (r, s')) : s'.proc = s.proc := Sys.call_proc h

theorem Sys.create_proc {r : Except InodeRtvl Unit}
    (h : s.create L fuel now path perm = some (r, s')) : s'.proc = s.proc := Sys.call_proc h

theorem openFind_proc {r : Except InodeRtvl Inode}
    (h : openFind L perm fuel now path flags s = some (r, s')) : s'.proc = s.proc := by
  simp only [openFind, Option.bind_eq_bind, Option.bind_eq_some_iff] at h
  obtain ⟨⟨r₁, s₁⟩, hget, h⟩ := h
  have hproc := Sys.get_proc hget
  cases r₁ with
  | ok n =>
      cases h
      exact hproc
  | error e =>
      dsimp only at h
      split at h
      · simp only [Option.bind_eq_some_iff] at h
        obtain ⟨⟨r₂, s₂⟩, hcreate, h⟩ := h
        have hproc₂ := Sys.create_proc hcreate
        cases r₂ with
        | error e' =>
            cases h
            rw [hproc₂, hproc]
        | ok u => rw [Sys.get_proc h, hproc₂, hproc]
      · cases h
        exact hproc

theorem openInode_path {dev : DevNo} {n n' : Inode} {fs fs' : FsState σ}
    (h : openInode L fuel now dev flags n fs = some (n', fs')) : n'.path = n.path := by
  simp only [openInode, Option.bind_eq_bind] at h
  split at h
  · simp only [Option.bind_eq_some_iff] at h
    obtain ⟨fs₁, _, ⟨n₁, fs₂⟩, htrunc, h⟩ := h
    cases htrunc
    cases h
    rfl
  · cases h
    rfl

/-- **`kopen` and `kopen2`** open a file or leave the tables alone. -/
theorem openWith_tables (hnamed : s.proc.allocDescriptor ≠ none →
      OnlyNamed (openFind L perm fuel now path flags s))
    (h : openWith L perm fuel now path flags s = some (w, s')) :
    Opens w s.proc s'.proc ∨ w = -1 ∧ SameTables s.proc s'.proc := by
  simp only [openWith, Option.bind_eq_bind, Option.bind_eq_some_iff] at h
  obtain ⟨⟨r, s₁⟩, hfind, h⟩ := h
  have hproc := openFind_proc hfind
  cases r with
  | error e =>
      cases h
      exact Or.inr ⟨rfl, by rw [hproc], by rw [hproc]⟩
  | ok n =>
      simp only [Option.bind_eq_some_iff] at h
      obtain ⟨⟨n', fs⟩, hopen, h⟩ := h
      rw [hproc] at h
      cases halloc : s.proc.allocDescriptor with
      | none =>
          rw [halloc] at h
          cases h
          exact Or.inr ⟨rfl, rfl, rfl⟩
      | some a =>
          obtain ⟨w', t, p⟩ := a
          rw [halloc] at h
          cases h
          obtain ⟨fd, rfl, hfd, ht, rfl⟩ := Proc.allocDescriptor_eq_some halloc
          have hn := hnamed (by rw [halloc]; exact Option.some_ne_none _) n s₁ hfind
          refine Or.inl ⟨fd, t, n', rfl, hfd, ht, ?_, rfl, rfl⟩
          rw [Inode.Unnamed, openInode_path hopen]
          exact hn

/-- **`kcreat`** opens a file or leaves the tables alone, if the lookup of the new file
succeeds. -/
theorem kcreat_tables
    (hnamed : ∀ u s₁ w t p, s.create L fuel now path mode = some (.ok u, s₁) →
      s.proc.allocDescriptor = some (w, t, p) →
      FindsNamed (Sys.get L { s₁ with proc := p } fuel now path true (inodeGetMode mode s.proc.umask)))
    (h : kcreat L fuel now path mode s = some (w, s')) :
    Opens w s.proc s'.proc ∨ w = -1 ∧ SameTables s.proc s'.proc := by
  simp only [kcreat, Option.bind_eq_bind, Option.bind_eq_some_iff] at h
  obtain ⟨⟨r, s₁⟩, hcreate, h⟩ := h
  have hproc := Sys.create_proc hcreate
  cases r with
  | error e =>
      cases h
      exact Or.inr ⟨rfl, by rw [hproc], by rw [hproc]⟩
  | ok u =>
      dsimp only at h
      rw [hproc] at h
      cases halloc : s.proc.allocDescriptor with
      | none =>
          rw [halloc] at h
          cases h
          exact Or.inr ⟨rfl, by rw [hproc], by rw [hproc]⟩
      | some a =>
          obtain ⟨w', t, p⟩ := a
          rw [halloc] at h
          simp only [Option.bind_eq_some_iff] at h
          obtain ⟨⟨r₂, s₂⟩, hget, h⟩ := h
          have hproc₂ : s₂.proc = p := Sys.get_proc hget
          have hfinds := hnamed u s₁ w' t p hcreate halloc
          obtain ⟨fd, rfl, hfd, ht, rfl⟩ := Proc.allocDescriptor_eq_some halloc
          obtain ⟨n, rfl, hn⟩ := hfinds r₂ s₂ hget
          cases h
          refine Or.inl ⟨fd, t, n.opened (masterGetDev s₂) 0, rfl, hfd, ht, hn, ?_, ?_⟩
          · rw [hproc₂]
            rfl
          · rw [hproc₂]
            rfl

/-! ### Closing and duplicating -/

variable {fd newfd t : Fin maxFiles}

/-- The only descriptor of an entry. -/
def LastOf (p : Proc) (fd t : Fin maxFiles) : Prop :=
  p.fileDesc fd = some t ∧ ∀ fd', fd' ≠ fd → p.fileDesc fd' ≠ some t

/-- The blocks are written before an entry is closed. -/
def closeSync (L : BlockLayer σ) (t : Fin maxFiles) (s : Sys σ) : BlockRtvl × σ :=
  L.blockSync (s.proc.fileTab t).dev s.fs.store

/-- The inode is written before an entry is closed. -/
def closeWrite (L : BlockLayer σ) (now : BlockNo) (t : Fin maxFiles) (s : Sys σ) : BlockRtvl × σ :=
  let n := (s.proc.fileTab t).closed now
  L.blockWrite n.dev n.self (Inode.layout n) (closeSync L t s).2

/-- A call has taken a descriptor away, and freed the entry if it was the last one. -/
def Closes (fd : Fin maxFiles) (p p' : Proc) : Prop :=
  ∃ t, p.fileDesc fd = some t ∧ p'.fileDesc = Function.update p.fileDesc fd none ∧
    (∀ t', t' ≠ t → p'.fileTab t' = p.fileTab t') ∧
    ((∃ fd', fd' ≠ fd ∧ p.fileDesc fd' = some t ∧ p'.fileTab t = p.fileTab t) ∨
      (∀ fd', fd' ≠ fd → p.fileDesc fd' ≠ some t) ∧ (p'.fileTab t).Unnamed)

theorem any_shared_iff {p : Proc} :
    ((List.finRange maxFiles).any fun i => p.fileDesc i = some t ∧ (i : ℤ) ≠ (descNo fd).toInt) = true ↔
      ∃ fd', fd' ≠ fd ∧ p.fileDesc fd' = some t := by
  rw [List.any_eq_true]
  constructor
  · rintro ⟨i, _, hi⟩
    rw [decide_eq_true_eq, descNo_toInt] at hi
    refine ⟨i, ?_, hi.1⟩
    rintro rfl
    exact hi.2 rfl
  · rintro ⟨i, hne, hi⟩
    refine ⟨i, List.mem_finRange i, ?_⟩
    rw [decide_eq_true_eq, descNo_toInt]
    refine ⟨hi, fun he => hne (Fin.ext ?_)⟩
    exact Int.ofNat_inj.mp he

/-- **`kclose`** closes a descriptor or leaves the tables alone, if no write fails after the
blocks have been written; it closes the descriptor if it writes everything. -/
theorem kclose_tables
    (hwrite : ∀ t, LastOf s.proc fd t → (closeSync L t s).1 = .ok → (closeWrite L now t s).1 = .ok)
    (h : kclose L now (descNo fd) s = (w, s')) :
    w = 0 ∧ Closes fd s.proc s'.proc ∨
      w = -1 ∧ SameTables s.proc s'.proc ∧
        ∀ t, s.proc.fileDesc fd = some t → LastOf s.proc fd t ∧ (closeSync L t s).1 ≠ .ok := by
  rw [kclose, Proc.descriptor_descNo] at h
  cases hfd : s.proc.fileDesc fd with
  | none =>
      rw [hfd] at h
      cases h
      refine Or.inr ⟨rfl, ⟨rfl, rfl⟩, ?_⟩
      intro t ht
      cases ht
  | some t =>
      rw [hfd] at h
      dsimp only at h
      by_cases hshared : ∃ fd', fd' ≠ fd ∧ s.proc.fileDesc fd' = some t
      · rw [if_pos (any_shared_iff.mpr hshared)] at h
        cases h
        obtain ⟨fd', hne, hfd'⟩ := hshared
        refine Or.inl ⟨rfl, t, hfd, ?_, ?_, Or.inl ⟨fd', hne, hfd', ?_⟩⟩
        · rw [Proc.setDescriptor_descNo]
        · intro t' _
          rw [Proc.setDescriptor_descNo]
        · rw [Proc.setDescriptor_descNo]
      · rw [if_neg (fun hany => hshared (any_shared_iff.mp hany))] at h
        have hlast : ∀ fd', fd' ≠ fd → s.proc.fileDesc fd' ≠ some t :=
          fun fd' hne hfd' => hshared ⟨fd', hne, hfd'⟩
        rcases hsync : L.blockSync (s.proc.fileTab t).dev s.fs.store with ⟨r, st⟩
        have hsync₁ : (closeSync L t s).1 = r := by rw [closeSync, hsync]
        rw [hsync] at h
        by_cases hr : r = .ok
        · subst hr
          have hok := hwrite t ⟨hfd, hlast⟩ hsync₁
          rw [closeWrite, closeSync, hsync] at hok
          dsimp only at h hok
          rcases hw : L.blockWrite ((s.proc.fileTab t).closed now).dev
            ((s.proc.fileTab t).closed now).self (Inode.layout ((s.proc.fileTab t).closed now)) st
            with ⟨r', st'⟩
          rw [hw] at h hok
          dsimp only at hok
          subst hok
          cases h
          refine Or.inl ⟨rfl, t, hfd, ?_, ?_, Or.inr ⟨hlast, ?_⟩⟩
          · rw [Proc.setDescriptor_descNo]
            rfl
          · intro t' ht'
            rw [Proc.setDescriptor_descNo]
            exact Function.update_of_ne ht' ..
          · rw [Proc.setDescriptor_descNo]
            show (Function.update s.proc.fileTab t Inode.zero t).Unnamed
            rw [Function.update_self]
            rfl
        · refine Or.inr ?_
          have hne : (closeSync L t s).1 ≠ .ok := by rw [hsync₁]; exact hr
          have hs' : w = -1 ∧ s'.proc = s.proc := by
            cases r with
            | ok => exact absurd rfl hr
            | _ =>
                cases h
                exact ⟨rfl, rfl⟩
          refine ⟨hs'.1, ⟨by rw [hs'.2], by rw [hs'.2]⟩, ?_⟩
          intro t' ht'
          cases ht'
          exact ⟨⟨hfd, hlast⟩, hne⟩

/-- A call has pointed a free descriptor to the entry of another one. -/
def Duplicates (fd newfd : Fin maxFiles) (p p' : Proc) : Prop :=
  ∃ t, p.fileDesc fd = some t ∧ p.fileDesc newfd = none ∧
    p'.fileDesc = Function.update p.fileDesc newfd (some t) ∧ p'.fileTab = p.fileTab

/-- **`kdup`** duplicates a descriptor or leaves the tables alone. -/
theorem kdup_tables (h : kdup (descNo fd) s = (w, s')) :
    (∃ newfd, w = descNo newfd ∧ Duplicates fd newfd s.proc s'.proc) ∨
      w = -1 ∧ SameTables s.proc s'.proc := by
  rw [kdup, Proc.descriptor_descNo] at h
  cases hfd : s.proc.fileDesc fd with
  | none =>
      rw [hfd] at h
      cases h
      exact Or.inr ⟨rfl, rfl, rfl⟩
  | some t =>
      rw [hfd] at h
      dsimp only at h
      cases hfind : (List.finRange maxFiles).find? fun i => (s.proc.fileDesc i).isNone with
      | none =>
          rw [hfind] at h
          cases h
          exact Or.inr ⟨rfl, rfl, rfl⟩
      | some i =>
          rw [hfind] at h
          cases h
          have hnone := List.find?_some hfind
          exact Or.inl ⟨i, rfl, t, hfd, Option.isNone_iff_eq_none.mp hnone, rfl, rfl⟩

/-- **`kdup2`** duplicates a descriptor, after closing the new one if it was in use, or
leaves the tables alone, if the close succeeds. -/
theorem kdup2_tables
    (hclose : s.proc.fileDesc fd ≠ none → s.proc.fileDesc newfd ≠ s.proc.fileDesc fd →
      ∀ t, LastOf s.proc newfd t → (closeSync L t s).1 = .ok ∧ (closeWrite L now t s).1 = .ok)
    (h : kdup2 L now (descNo fd) (descNo newfd) s = (w, s')) :
    (w = descNo newfd ∧ s.proc.fileDesc fd ≠ none ∧
      (s.proc.fileDesc newfd = s.proc.fileDesc fd ∧ s' = s ∨
        Duplicates fd newfd s.proc s'.proc ∨
        ∃ p, Closes newfd s.proc p ∧ Duplicates fd newfd p s'.proc)) ∨
      w = -1 ∧ SameTables s.proc s'.proc := by
  rw [kdup2, Proc.descriptor_descNo, Proc.descriptor_descNo] at h
  cases hfd : s.proc.fileDesc fd with
  | none =>
      rw [hfd] at h
      cases h
      exact Or.inr ⟨rfl, rfl, rfl⟩
  | some t =>
      have hrange : ¬ (descNo newfd < 0 ∨ (maxFiles : ℤ) < (descNo newfd).toInt) := by
        rintro (hneg | hbig)
        · exact descNo_nonneg newfd hneg
        · rw [descNo_toInt] at hbig
          have := newfd.isLt
          omega
      rw [hfd] at h hclose
      dsimp only at h
      rw [if_neg hrange] at h
      refine Or.inl ?_
      by_cases hsame : s.proc.fileDesc newfd = some t
      · rw [if_pos hsame] at h
        cases h
        exact ⟨rfl, Option.some_ne_none _, Or.inl ⟨hsame, rfl⟩⟩
      · rw [if_neg hsame] at h
        have hwrites := hclose (Option.some_ne_none _) hsame
        cases hnew : s.proc.fileDesc newfd with
        | none =>
            rw [hnew, Option.isSome_none, if_neg Bool.false_ne_true, Proc.setDescriptor_descNo] at h
            cases h
            exact ⟨rfl, Option.some_ne_none _, Or.inr (Or.inl ⟨t, hfd, hnew, rfl, rfl⟩)⟩
        | some t' =>
            rw [hnew, Option.isSome_some, if_pos rfl, Proc.setDescriptor_descNo] at h
            rcases hk : kclose L now (descNo newfd) s with ⟨w', s₁⟩
            rw [hk] at h
            cases h
            rcases kclose_tables (fun t₁ hl _ => (hwrites t₁ hl).2) hk with ⟨_, hcl⟩ | ⟨_, _, hfail⟩
            · refine ⟨rfl, Option.some_ne_none _, Or.inr (Or.inr ⟨s₁.proc, hcl, t, ?_, ?_, rfl, rfl⟩)⟩
              · have hne : fd ≠ newfd := by
                  rintro rfl
                  exact hsame hfd
                obtain ⟨_, _, hdesc, _⟩ := hcl
                rw [hdesc, Function.update_of_ne hne, hfd]
              · obtain ⟨_, _, hdesc, _⟩ := hcl
                rw [hdesc, Function.update_self]
            · obtain ⟨hlast, hne⟩ := hfail t' hnew
              exact absurd (hwrites t' hlast).1 hne

end Calls

end OxKernel.Fs
