import OxKernel.Libk.Compare

/-!
# Copying in memory

`memmove`, `strncpy` and `strncat` of `string.c`, over a memory that keeps a list of the addresses
that are written. An address is a natural number: an object does not reach around the end of
the address space.

The loops fold copying, padding and the end of the string into their conditions. The padding loop
of `strncpy` goes on while the zero that it has just written is not zero, the pointer of
`strncat` has moved over the terminator when there was room for it, and the loop of `memmove`
that goes down waits for an unsigned index to become negative.

## Main definitions

* `Memory` — the bytes, and where they were written.
* `memmove`, `strncpy`, `strncat` — the functions.
* `Moves`, `CopiesExactly`, `AppendsExactly` — what they should do.

## Main results

* `memmove_moves_iff`, `bounded_copies_iff` — when they do.
-/
namespace OxKernel.Libk

/-! ## Memory -/

/-- A memory that began with the bytes `start`: what was not written is as it was. -/
structure Memory (start : ℕ → UInt8) where
  byte : ℕ → UInt8
  /-- The addresses that were written. -/
  writes : List ℕ
  kept : ∀ p, p ∉ writes → byte p = start p

variable {start : ℕ → UInt8}

/-- The memory at the beginning. -/
def Memory.initial (start : ℕ → UInt8) : Memory start where
  byte := start
  writes := []
  kept _ _ := rfl

/-- `*p = c`. -/
def Memory.store (m : Memory start) (p : ℕ) (c : UInt8) : Memory start where
  byte := Function.update m.byte p c
  writes := p :: m.writes
  kept q hq := by
    rw [List.mem_cons, not_or] at hq
    rw [Function.update_of_ne hq.1, m.kept q hq.2]

@[simp] theorem Memory.byte_initial : (Memory.initial start).byte = start := rfl

@[simp] theorem Memory.writes_initial : (Memory.initial start).writes = [] := rfl

@[simp] theorem Memory.byte_store (m : Memory start) (p : ℕ) (c : UInt8) :
    (m.store p c).byte = Function.update m.byte p c := rfl

@[simp] theorem Memory.writes_store (m : Memory start) (p : ℕ) (c : UInt8) :
    (m.store p c).writes = p :: m.writes := rfl

/-! ## The functions -/

/-- The loop of `memmove` that goes down, from index `i` on; no result if it has not ended after
the given number of rounds. -/
def moveDown (d s : ℕ) : ℕ → UInt32 → Memory start → Option (Memory start)
  | 0, _, _ => none
  | rounds + 1, i, m =>
    if i ≥ 0 then moveDown d s rounds (i - 1) (m.store (d + i.toNat) (m.byte (s + i.toNat)))
    else some m

/-- The loop of `memmove` that goes up. -/
def moveUp : ℕ → ℕ → ℕ → Memory start → Memory start
  | 0, _, _, m => m
  | n + 1, d, s, m => moveUp n (d + 1) (s + 1) (m.store d (m.byte s))

/-- `memmove`, with a bound for the rounds of the loop that goes down. -/
def memmove (rounds dest src : ℕ) (n : UInt32) (m : Memory start) : Option (Memory start) :=
  if dest > src then moveDown dest src rounds (n - 1) m else some (moveUp n.toNat dest src m)

/-- The loop `for( ; i < n && (*dest++ = *src++); i++)`, where `n - i` is given: what is left of
it at the end, `dest` and the memory. -/
def copyLoop : ℕ → ℕ → ℕ → Memory start → ℕ × ℕ × Memory start
  | 0, dest, _, m => (0, dest, m)
  | left + 1, dest, src, m =>
    let c := m.byte src
    if c ≠ 0 then copyLoop left (dest + 1) (src + 1) (m.store dest c)
    else (left + 1, dest + 1, m.store dest c)

/-- The loop `for( ; i < n && (*dest++ = '\0'); i++)`, where `n - i` is given. -/
def padLoop : ℕ → ℕ → Memory start → Memory start
  | 0, _, m => m
  | left + 1, dest, m =>
    let c : UInt8 := 0
    if c ≠ 0 then padLoop left (dest + 1) (m.store dest c) else m.store dest c

/-- `strncpy`. -/
def strncpy (dest src n : ℕ) (m : Memory start) : Memory start :=
  let (left, dest, m) := copyLoop n dest src m
  padLoop left dest m

/-- The loop of `strncat` that looks for the end of a string; no result if it is not there after
the given number of rounds. -/
def findEnd : ℕ → ℕ → Memory start → Option ℕ
  | 0, _, _ => none
  | rounds + 1, dest, m =>
    if dest ≠ 0 ∧ m.byte dest ≠ 0 then findEnd rounds (dest + 1) m else some dest

/-- `strncat`, with a bound for the length of the string at `dest`. -/
def strncat (rounds dest src n : ℕ) (m : Memory start) : Option (Memory start) := do
  let dest ← findEnd rounds dest m
  let (_, dest, m) := copyLoop n dest src m
  return m.store dest 0

/-! ## Runs of stores -/

/-- The bytes of a list, one after the other. -/
def Memory.storeAll (m : Memory start) : ℕ → CharStr → Memory start
  | _, [] => m
  | p, c :: cs => (m.store p c).storeAll (p + 1) cs

section Stores
variable {m : Memory start} {d n p : ℕ} {cs : CharStr} {c : UInt8}

@[simp] theorem Memory.storeAll_nil : m.storeAll p [] = m := rfl

@[simp] theorem Memory.storeAll_cons :
    m.storeAll p (c :: cs) = (m.store p c).storeAll (p + 1) cs := rfl

theorem Memory.storeAll_concat :
    m.storeAll p (cs ++ [c]) = (m.storeAll p cs).store (p + cs.length) c := by
  induction cs generalizing m p with
  | nil => rfl
  | cons b cs ih =>
      simp only [List.cons_append, Memory.storeAll_cons, List.length_cons]
      rw [ih, Nat.add_assoc, Nat.add_comm 1]

theorem Memory.mem_writes_storeAll {q : ℕ} :
    q ∈ (m.storeAll p cs).writes ↔ q ∈ m.writes ∨ p ≤ q ∧ q < p + cs.length := by
  induction cs generalizing m p with
  | nil =>
      simp only [Memory.storeAll_nil, List.length_nil, Nat.add_zero]
      exact ⟨Or.inl, fun h => h.resolve_right (by omega)⟩
  | cons c cs ih =>
      rw [Memory.storeAll_cons, ih, Memory.writes_store, List.mem_cons, List.length_cons]
      have hsplit : q = p ∨ p + 1 ≤ q ∧ q < p + 1 + cs.length ↔
          p ≤ q ∧ q < p + (cs.length + 1) := by omega
      rw [← hsplit, or_assoc, or_left_comm]

/-- A run of stores leaves what lies below alone. -/
theorem Memory.byte_storeAll_below {q : ℕ} (hq : q < p) :
    (m.storeAll p cs).byte q = m.byte q := by
  induction cs generalizing m p with
  | nil => rfl
  | cons c cs ih =>
      rw [Memory.storeAll_cons, ih (by omega), Memory.byte_store,
        Function.update_of_ne (by omega)]

theorem Memory.byte_storeAll {i : ℕ} (hi : i < cs.length) :
    (m.storeAll p cs).byte (p + i) = cs.getD i 0 := by
  induction cs generalizing m p i with
  | nil => exact absurd hi (Nat.not_lt_zero i)
  | cons c cs ih =>
      rw [Memory.storeAll_cons]
      cases i with
      | zero =>
          simp only [Nat.add_zero]
          rw [Memory.byte_storeAll_below (Nat.lt_add_one p), Memory.byte_store,
            Function.update_self, List.getD_cons_zero]
      | succ i =>
          rw [Nat.add_comm i 1, ← Nat.add_assoc, ih (by simpa using hi), Nat.add_comm 1 i,
            List.getD_cons_succ]

/-- A run of stores fills the interval of its length. -/
theorem Memory.writes_storeAll_iff :
    (∀ q, q ∈ ((Memory.initial start).storeAll d cs).writes ↔ d ≤ q ∧ q < d + n) ↔
      cs.length = n := by
  simp only [Memory.mem_writes_storeAll, Memory.writes_initial, List.not_mem_nil, false_or]
  constructor
  · intro h
    have hend := h (d + n)
    have hlast := h (d + cs.length)
    omega
  · intro h q
    rw [h]

end Stores

/-! ## `memmove` -/

/-- `memmove` ends, the bytes are where they should be, and no others are written. -/
def Moves (start : ℕ → UInt8) (dest src : ℕ) (n : UInt32) : Prop :=
  ∃ rounds m, memmove rounds dest src n (Memory.initial start) = some m ∧
    (∀ k < n.toNat, m.byte (dest + k) = start (src + k)) ∧
    ∀ p ∈ m.writes, dest ≤ p ∧ p < dest + n.toNat

section Move
variable {m : Memory start} {d s n : ℕ}

/-- An unsigned index is never negative, so the loop that goes down does not end. -/
theorem moveDown_eq_none (rounds : ℕ) (i : UInt32) (m : Memory start) :
    moveDown d s rounds i m = none := by
  induction rounds generalizing i m with
  | zero => rfl
  | succ rounds ih =>
      have hnonneg : i ≥ 0 := UInt32.le_iff_toNat_le.mpr (Nat.zero_le _)
      rw [moveDown, if_pos hnonneg, ih]

/-- The loop that goes up writes one byte after the other. -/
theorem mem_writes_moveUp (n d s : ℕ) (m : Memory start) (p : ℕ) :
    p ∈ (moveUp n d s m).writes ↔ p ∈ m.writes ∨ d ≤ p ∧ p < d + n := by
  induction n generalizing d s m with
  | zero =>
      rw [moveUp]
      exact ⟨Or.inl, fun h => h.resolve_right (by omega)⟩
  | succ n ih =>
      rw [moveUp, ih, Memory.writes_store, List.mem_cons]
      constructor
      · rintro ((rfl | h) | h)
        · exact Or.inr ⟨le_rfl, by omega⟩
        · exact Or.inl h
        · exact Or.inr ⟨by omega, by omega⟩
      · rintro (h | h)
        · exact Or.inl (Or.inr h)
        · by_cases hp : p = d
          · exact Or.inl (Or.inl hp)
          · exact Or.inr ⟨by omega, by omega⟩

/-- The loop that goes up leaves what lies below alone. -/
theorem byte_moveUp_below {p : ℕ} (hp : p < d) : (moveUp n d s m).byte p = m.byte p := by
  induction n generalizing d s m with
  | zero => rfl
  | succ n ih =>
      rw [moveUp, ih (by omega), Memory.byte_store, Function.update_of_ne (by omega)]

/-- **Moving down in memory**, from the lowest byte on: a byte that is still to be read lies above
those that were written. -/
theorem byte_moveUp (hle : d ≤ s) {k : ℕ} (hk : k < n) :
    (moveUp n d s m).byte (d + k) = m.byte (s + k) := by
  induction n generalizing d s m k with
  | zero => exact absurd hk (Nat.not_lt_zero k)
  | succ n ih =>
      rw [moveUp]
      cases k with
      | zero =>
          simp only [Nat.add_zero]
          rw [byte_moveUp_below (Nat.lt_add_one d), Memory.byte_store, Function.update_self]
      | succ k =>
          rw [Nat.add_comm k 1, ← Nat.add_assoc, ← Nat.add_assoc, ih (by omega) (by omega),
            Memory.byte_store, Function.update_of_ne (by omega)]

end Move

/-- **`memmove`** moves the bytes exactly if they do not go up: behind the test `d > s` it does
not end. -/
theorem memmove_moves_iff (start : ℕ → UInt8) (dest src : ℕ) (n : UInt32) :
    Moves start dest src n ↔ dest ≤ src := by
  constructor
  · rintro ⟨rounds, m, hrun, -⟩
    by_contra hlt
    rw [memmove, if_pos (Nat.lt_of_not_le hlt), moveDown_eq_none] at hrun
    cases hrun
  · intro hle
    refine ⟨0, moveUp n.toNat dest src (Memory.initial start), ?_, ?_, ?_⟩
    · rw [memmove, if_neg (Nat.not_lt.mpr hle)]
    · intro k hk
      exact byte_moveUp hle hk
    · intro p hp
      rw [mem_writes_moveUp] at hp
      exact hp.resolve_left List.not_mem_nil

/-- **Moving one byte up by one** does not end. -/
theorem memmove_up_by_one :
    (∀ rounds, memmove rounds 1001 1000 1 (Memory.initial fun _ => 0) = none) ∧
      ¬ Moves (fun _ => 0) 1001 1000 1 := by
  have hnone : ∀ rounds, memmove rounds 1001 1000 1 (Memory.initial fun _ => 0) = none :=
    fun rounds => by rw [memmove, if_pos (by decide), moveDown_eq_none]
  refine ⟨hnone, ?_⟩
  rintro ⟨rounds, m, hrun, -⟩
  rw [hnone] at hrun
  cases hrun

/-! ## `strncpy` and `strncat` -/

/-- A string is at an address: its characters, and the terminator. -/
def StrAt (byte : ℕ → UInt8) (p : ℕ) (s : CString) : Prop :=
  ∀ i ≤ s.chars.length, byte (p + i) = s.chars.getD i 0

/-- Bytes written from `dest` on do not change a string before it is read. -/
def Apart (dest src : ℕ) (s : CString) : Prop := dest ≤ src ∨ src + s.chars.length < dest

/-- `strncpy` writes the bound's number of bytes: the characters of the string, and zeros. -/
structure CopiesExactly (start : ℕ → UInt8) (dest src n : ℕ) (s : CString) : Prop where
  writes : ∀ p, p ∈ (strncpy dest src n (Memory.initial start)).writes ↔
    dest ≤ p ∧ p < dest + n
  bytes : ∀ i < n, (strncpy dest src n (Memory.initial start)).byte (dest + i) =
    s.chars.getD i 0

/-- `strncat` writes at the end of a string the characters that the bound allows, one terminator
and nothing else. -/
def AppendsExactly (start : ℕ → UInt8) (dest src n : ℕ) (d s : CString) : Prop :=
  ∃ rounds m, strncat rounds dest src n (Memory.initial start) = some m ∧
    (∀ p, p ∈ m.writes ↔ dest + d.chars.length ≤ p ∧
      p < dest + d.chars.length + (min n s.chars.length + 1)) ∧
    (∀ i < min n s.chars.length, m.byte (dest + d.chars.length + i) = s.chars.getD i 0) ∧
    m.byte (dest + d.chars.length + min n s.chars.length) = 0

section Copy
variable {m : Memory start} {dest src n : ℕ} {d s : CString}

/-- Behind the first character of a string is the rest of it. -/
theorem at_tail {byte : ℕ → UInt8} {p : ℕ} {c : UInt8} {cs : CharStr}
    (h : ∀ i ≤ (c :: cs).length, byte (p + i) = (c :: cs).getD i 0) :
    ∀ i ≤ cs.length, byte (p + 1 + i) = cs.getD i 0 := by
  intro i hi
  rw [Nat.add_assoc, Nat.add_comm 1 i, h (i + 1) (by simpa using hi), List.getD_cons_succ]

/-- The copying loop stops at the bound. -/
theorem copyLoop_bound {cs : CharStr} (hz : ∀ c ∈ cs, c ≠ 0) (hn : n ≤ cs.length)
    (hat : ∀ i ≤ cs.length, m.byte (src + i) = cs.getD i 0)
    (hsep : dest ≤ src ∨ src + cs.length < dest) :
    copyLoop n dest src m = (0, dest + n, m.storeAll dest (cs.take n)) := by
  induction n generalizing cs dest src m with
  | zero => rfl
  | succ n ih =>
      cases cs with
      | nil => exact absurd hn (by simp)
      | cons c cs =>
          have hc : m.byte src = c := hat 0 (Nat.zero_le _)
          have hrest : ∀ i ≤ cs.length, (m.store dest c).byte (src + 1 + i) = cs.getD i 0 := by
            intro i hi
            rw [List.length_cons] at hsep
            rw [Memory.byte_store, Function.update_of_ne (by omega), at_tail hat i hi]
          rw [copyLoop]
          simp only [hc]
          rw [if_pos (hz c List.mem_cons_self),
            ih (fun x hx => hz x (List.mem_cons_of_mem _ hx)) (by simpa using hn) hrest
              (by rw [List.length_cons] at hsep; omega),
            List.take_succ_cons, Memory.storeAll_cons, Nat.add_assoc, Nat.add_comm 1 n]

/-- The copying loop stops at the terminator: it has moved over it, and has not counted it. -/
theorem copyLoop_end {cs : CharStr} (hz : ∀ c ∈ cs, c ≠ 0) (hn : cs.length < n)
    (hat : ∀ i ≤ cs.length, m.byte (src + i) = cs.getD i 0)
    (hsep : dest ≤ src ∨ src + cs.length < dest) :
    copyLoop n dest src m =
      (n - cs.length, dest + cs.length + 1, m.storeAll dest (cs ++ [0])) := by
  induction cs generalizing n dest src m with
  | nil =>
      obtain ⟨n, rfl⟩ : ∃ left, n = left + 1 := ⟨n - 1, by simp at hn; omega⟩
      have hc : m.byte src = 0 := hat 0 le_rfl
      rw [copyLoop]
      simp [hc]
  | cons c cs ih =>
      rw [List.length_cons] at hn hsep
      obtain ⟨n, rfl⟩ : ∃ left, n = left + 1 := ⟨n - 1, by omega⟩
      have hc : m.byte src = c := hat 0 (Nat.zero_le _)
      have hrest : ∀ i ≤ cs.length, (m.store dest c).byte (src + 1 + i) = cs.getD i 0 := by
        intro i hi
        rw [Memory.byte_store, Function.update_of_ne (by omega), at_tail hat i hi]
      rw [copyLoop]
      simp only [hc]
      rw [if_pos (hz c List.mem_cons_self),
        ih (fun x hx => hz x (List.mem_cons_of_mem _ hx)) (by omega) hrest (by omega),
        List.cons_append, Memory.storeAll_cons, List.length_cons, Nat.add_sub_add_right,
        Nat.add_assoc dest 1, Nat.add_comm 1]

/-- The padding loop writes one zero, whatever is left. -/
theorem padLoop_succ (left p : ℕ) : padLoop (left + 1) p m = m.store p 0 := by
  rw [padLoop]
  simp

/-- What `strncpy` writes: behind a terminator, one more zero. -/
theorem strncpy_eq (hat : StrAt m.byte src s) (hsep : Apart dest src s) :
    strncpy dest src n m = m.storeAll dest
      (if n ≤ s.chars.length then s.chars.take n else s.chars ++ [0] ++ [0]) := by
  rw [strncpy]
  split_ifs with hn
  · rw [copyLoop_bound s.nonzero hn hat hsep]
    rfl
  · have hlt := Nat.lt_of_not_le hn
    rw [copyLoop_end s.nonzero hlt hat hsep]
    simp only
    rw [← Nat.sub_add_cancel (Nat.sub_pos_of_lt hlt), padLoop_succ, Memory.storeAll_concat,
      Memory.storeAll_concat, Memory.storeAll_concat, List.length_append,
      List.length_singleton, Nat.add_assoc]

/-- The end of a string is found. -/
theorem findEnd_eq {cs : CharStr} (hz : ∀ c ∈ cs, c ≠ 0)
    (hat : ∀ i ≤ cs.length, m.byte (dest + i) = cs.getD i 0) (hnull : dest ≠ 0) :
    findEnd (cs.length + 1) dest m = some (dest + cs.length) := by
  induction cs generalizing dest with
  | nil =>
      have hc : m.byte dest = 0 := hat 0 le_rfl
      rw [findEnd, if_neg fun h => h.2 hc]
      rfl
  | cons c cs ih =>
      have hc : m.byte dest = c := hat 0 (Nat.zero_le _)
      have hgo : dest ≠ 0 ∧ m.byte dest ≠ 0 := ⟨hnull, hc ▸ hz c List.mem_cons_self⟩
      rw [List.length_cons, findEnd, if_pos hgo,
        ih (fun x hx => hz x (List.mem_cons_of_mem _ hx)) (at_tail hat) (Nat.succ_ne_zero _),
        Nat.add_assoc, Nat.add_comm 1]

/-- No other end is found. -/
theorem findEnd_unique {rounds rounds' e e' : ℕ} (h : findEnd rounds dest m = some e)
    (h' : findEnd rounds' dest m = some e') : e = e' := by
  induction rounds generalizing dest rounds' with
  | zero => cases h
  | succ rounds ih =>
      cases rounds' with
      | zero => cases h'
      | succ rounds' =>
          rw [findEnd] at h h'
          split_ifs at h h' with hgo
          · exact ih h h'
          · exact (Option.some.inj h).symm.trans (Option.some.inj h')

/-- What `strncat` writes: behind a terminator, another one. -/
theorem strncat_eq (hd : StrAt m.byte dest d) (hnull : dest ≠ 0) (hat : StrAt m.byte src s)
    (hsep : Apart (dest + d.chars.length) src s) :
    strncat (d.chars.length + 1) dest src n m = some (m.storeAll (dest + d.chars.length)
      ((if n ≤ s.chars.length then s.chars.take n else s.chars ++ [0]) ++ [0])) := by
  rw [strncat, findEnd_eq d.nonzero hd hnull, Option.bind_eq_bind, Option.bind_some,
    Memory.storeAll_concat]
  split_ifs with hn
  · rw [copyLoop_bound s.nonzero hn hat hsep, List.length_take, Nat.min_eq_left hn]
    rfl
  · rw [copyLoop_end s.nonzero (Nat.lt_of_not_le hn) hat hsep, List.length_append]
    rfl

theorem strncat_unique {rounds rounds' : ℕ} {m₁ m₂ : Memory start}
    (h₁ : strncat rounds dest src n m = some m₁) (h₂ : strncat rounds' dest src n m = some m₂) :
    m₁ = m₂ := by
  rw [strncat, Option.bind_eq_bind, Option.bind_eq_some_iff] at h₁ h₂
  obtain ⟨e, he, h₁⟩ := h₁
  obtain ⟨e', he', h₂⟩ := h₂
  rw [findEnd_unique he he'] at h₁
  exact Option.some.inj (h₁.symm.trans h₂)

end Copy

section Exact
variable {dest src n : ℕ} {d s : CString}

/-- A prefix of a string with zeros behind it. -/
theorem getD_append_zeros (cs : CharStr) {zs : CharStr} (hzs : ∀ c ∈ zs, c = 0) (i : ℕ) :
    (cs ++ zs).getD i 0 = cs.getD i 0 := by
  by_cases hi : i < cs.length
  · rw [List.getD_append _ _ _ _ hi]
  · have hle := Nat.le_of_not_lt hi
    rw [List.getD_append_right _ _ _ _ hle, List.getD_eq_default _ _ hle]
    by_cases hlt : i - cs.length < zs.length
    · rw [List.getD_eq_getElem _ _ hlt]
      exact hzs _ (List.getElem_mem hlt)
    · rw [List.getD_eq_default _ _ (Nat.le_of_not_lt hlt)]

theorem getD_take {cs : CharStr} {i : ℕ} (hi : i < n) : (cs.take n).getD i 0 = cs.getD i 0 := by
  rw [List.getD_eq_getElem?_getD, List.getD_eq_getElem?_getD, List.getElem?_take, if_pos hi]

/-- `strncpy` fills its bound exactly if the string does, or leaves out two bytes: the terminator
and one zero. -/
theorem copiesExactly_iff (hat : StrAt start src s) (hsep : Apart dest src s) :
    CopiesExactly start dest src n s ↔ n ≤ s.chars.length ∨ n = s.chars.length + 2 := by
  have hrun := strncpy_eq (m := Memory.initial start) (n := n) hat hsep
  constructor
  · intro h
    have hwrites := h.writes
    rw [hrun, Memory.writes_storeAll_iff] at hwrites
    split_ifs at hwrites with hn
    · exact Or.inl hn
    · exact Or.inr (by simpa using hwrites.symm)
  · intro h
    refine ⟨?_, ?_⟩
    · rw [hrun, Memory.writes_storeAll_iff]
      split_ifs with hn
      · rw [List.length_take, Nat.min_eq_left hn]
      · simpa using (h.resolve_left hn).symm
    · intro i hi
      rw [hrun]
      split_ifs with hn
      · rw [Memory.byte_storeAll (by rw [List.length_take]; omega), getD_take hi]
      · rw [Memory.byte_storeAll (by simp; omega), List.append_assoc,
          getD_append_zeros _ (by simp)]

/-- `strncat` writes one terminator exactly if the bound stops it at the end of the string or
before. -/
theorem appendsExactly_iff (hd : StrAt start dest d) (hnull : dest ≠ 0)
    (hat : StrAt start src s) (hsep : Apart (dest + d.chars.length) src s) :
    AppendsExactly start dest src n d s ↔ n ≤ s.chars.length := by
  have hrun := strncat_eq (m := Memory.initial start) (n := n) hd hnull hat hsep
  constructor
  · rintro ⟨rounds, m, h, hwrites, -⟩
    rw [strncat_unique h hrun, Memory.writes_storeAll_iff] at hwrites
    split_ifs at hwrites with hn
    · exact hn
    · simp at hwrites
      omega
  · intro hn
    have hlen : (s.chars.take n).length = n := by rw [List.length_take, Nat.min_eq_left hn]
    rw [if_pos hn] at hrun
    refine ⟨_, _, hrun, ?_, ?_, ?_⟩
    · rw [Memory.writes_storeAll_iff, List.length_append, hlen, Nat.min_eq_left hn,
        List.length_singleton]
    · intro i hi
      have hin : i < n := Nat.lt_of_lt_of_le hi (Nat.min_le_left _ _)
      rw [Memory.byte_storeAll (by rw [List.length_append, hlen]; omega),
        List.getD_append _ _ _ _ (by rwa [hlen]), getD_take hin]
    · rw [Nat.min_eq_left hn, Memory.byte_storeAll (by rw [List.length_append, hlen]; simp),
        List.getD_append_right _ _ _ _ hlen.le, hlen, Nat.sub_self, List.getD_cons_zero]

end Exact

/-- **The bounded copies**, of a string that they do not overwrite: `strncpy` writes exactly the
bound's number of bytes if the bound ends in the string, or is two more than its length, and for
no other bound; `strncat` ends the string once if the bound ends in it, and for no other bound. -/
theorem bounded_copies_iff {start : ℕ → UInt8} {dest src : ℕ} {d s : CString} (n : ℕ)
    (hsrc : StrAt start src s) (hnull : dest ≠ 0) (hdest : StrAt start dest d)
    (hcpy : Apart dest src s) (hcat : Apart (dest + d.chars.length) src s) :
    (CopiesExactly start dest src n s ↔ n ≤ s.chars.length ∨ n = s.chars.length + 2) ∧
      (AppendsExactly start dest src n d s ↔ n ≤ s.chars.length) :=
  ⟨copiesExactly_iff hsrc hcpy, appendsExactly_iff hdest hnull hsrc hcat⟩

/-- A memory with the string `a` at 200, and zeros. -/
def oneLetter (p : ℕ) : UInt8 := if p = 200 then 0x61 else 0

def stringA : CString := ⟨[0x61], by simp⟩
def stringEmpty : CString := ⟨[], nonzero_nil⟩

theorem strAt_oneLetter : StrAt oneLetter 200 stringA := by
  intro i hi
  have hle : i ≤ 1 := hi
  obtain rfl | rfl : i = 0 ∨ i = 1 := by omega
  · rfl
  · rfl

theorem strAt_oneLetter_empty : StrAt oneLetter 100 stringEmpty := by
  intro i hi
  rw [Nat.le_zero.mp hi]
  rfl

/-- With a bound of one byte both are exact. -/
theorem bounded_copies_one :
    CopiesExactly oneLetter 100 200 1 stringA ∧
      AppendsExactly oneLetter 100 200 1 stringEmpty stringA :=
  have h := bounded_copies_iff 1 strAt_oneLetter (by decide) strAt_oneLetter_empty
    (Or.inl (by decide)) (Or.inl (by decide))
  ⟨h.1.mpr (Or.inl le_rfl), h.2.mpr le_rfl⟩

/-- **One byte too many**: with room for the letter and the terminator, `strncpy` and `strncat`
write a third byte. -/
theorem bounded_copies_two :
    102 ∈ (strncpy 100 200 2 (Memory.initial oneLetter)).writes ∧
      ¬ CopiesExactly oneLetter 100 200 2 stringA ∧
      ¬ AppendsExactly oneLetter 100 200 2 stringEmpty stringA := by
  refine ⟨by decide, fun h => ?_, fun h => ?_⟩
  · exact absurd ((copiesExactly_iff strAt_oneLetter (Or.inl (by decide))).mp h) (by decide)
  · have hle := (appendsExactly_iff strAt_oneLetter_empty (by decide) strAt_oneLetter
      (Or.inl (by decide))).mp h
    exact absurd hle (by decide)

end OxKernel.Libk
