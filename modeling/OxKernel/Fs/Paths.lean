import OxKernel.Fs.Inode

/-!
# Paths

`paths.c`: strings in buffers of `MAX_PATH` bytes, and `get_next_path`, which cuts a path
into its components. It puts a zero in the place of every slash and returns pointers into
the buffer, so a component is read from the buffer that the last call leaves.

A C string is the list of its bytes before the terminating zero, and a buffer that was
filled with zeroes and then written reads as zero behind the string.

## Main definitions

* `CStr`, `cstr`, `strcpy` — strings and arrays of characters.
* `getNextPath`, `components` — the components of a path.
* `pushFront`, `normalize` — the parts of `krealpath` that do not read the disk.
-/
namespace OxKernel.Fs

/-! ## Strings -/

/-- A C string, without the zero at its end. -/
abbrev CStr := List UInt8

/-- The string in an array of characters. -/
def cstr {n : ℕ} (a : Fin n → UInt8) : CStr := (List.ofFn a).takeWhile (· ≠ 0)

/-- `strcpy` into an array. -/
def strcpy {n : ℕ} (dst : Fin n → UInt8) (src : CStr) : Fin n → UInt8 := fun i =>
  if h : i < src.length then src[i] else if (i : ℕ) = src.length then 0 else dst i

/-- The characters of a slash and of a dot. -/
def slash : UInt8 := 47
def dot : UInt8 := 46

/-- A string that fits into a buffer of `MAX_PATH` bytes with its terminating zero. -/
structure CStr.Fits (s : CStr) : Prop where
  length : s.length < maxPath
  nonzero : ∀ c ∈ s, c ≠ 0

theorem CStr.Fits.of_all {s : CStr} (hlen : s.length < maxPath) (h : s.all (· ≠ 0) = true) :
    s.Fits := ⟨hlen, by simpa using h⟩

theorem takeWhile_append_zero {s t : CStr} (h : ∀ c ∈ s, c ≠ 0) :
    (s ++ 0 :: t).takeWhile (· ≠ 0) = s := by
  rw [List.takeWhile_append_of_pos (by simpa using h)]
  simp

theorem ofFn_strcpy {n : ℕ} (dst : Fin n → UInt8) {s : CStr} (h : s.length < n) :
    List.ofFn (strcpy dst s) = s ++ 0 :: (List.ofFn dst).drop (s.length + 1) := by
  apply List.ext_getElem
  · simp only [List.length_ofFn, List.length_append, List.length_cons, List.length_drop]
    omega
  · intro i h1 h2
    rw [List.getElem_ofFn, strcpy]
    by_cases hi : i < s.length
    · rw [dif_pos hi, List.getElem_append_left hi]
      rfl
    · rw [dif_neg hi, List.getElem_append_right (by omega)]
      by_cases he : i = s.length
      · simp [he]
      · obtain ⟨k, rfl⟩ : ∃ k, i = s.length + 1 + k := ⟨i - s.length - 1, by omega⟩
        have hk : s.length + 1 + k - s.length = k + 1 := by omega
        simp only [he, if_false, hk, List.getElem_cons_succ, List.getElem_drop, List.getElem_ofFn]

/-- The string that was copied is the string in the array. -/
theorem cstr_strcpy {dst : Fin maxPath → UInt8} {s : CStr} (h : s.Fits) :
    cstr (strcpy dst s) = s := by
  rw [cstr, ofFn_strcpy dst h.length]
  exact takeWhile_append_zero h.nonzero

theorem cstr_nonzero {n : ℕ} (a : Fin n → UInt8) : ∀ c ∈ cstr a, c ≠ 0 := fun c hc => by
  have hall := List.all_takeWhile (p := fun c : UInt8 => decide (c ≠ 0)) (l := List.ofFn a)
  simpa using List.all_eq_true.mp hall c hc

/-! ## Components -/

/-- The string at a position of a path buffer. -/
def cstrAt (path : Buffer) (p : ℕ) : CStr :=
  ((List.range (maxPath - p)).map fun i => path (p + i)).takeWhile (· ≠ 0)

/-- `get_next_path`: the position of the next component, the new `*start` and the buffer. -/
def getNextPath (start : ℕ) (path : Buffer) : Option (ℕ × ℕ × Buffer) :=
  if path start = dot ∧ path (start + 1) = 0 then some (start, start + 1, path)
  else if path start = dot ∧ path (start + 1) = dot ∧ path (start + 2) = 0 then
    some (start, start + 2, path)
  else
    match (List.range maxPath).find? fun i => start ≤ i ∧ path i = slash with
    | some i => some (start, i, Function.update path i 0)
    | none =>
      if path start ≠ 0 then some (start, start + (cstrAt path start).length + 1, path) else none

/-- The loop that calls `get_next_path` until it returns NULL, with the pointers it has
collected and the buffer it leaves. A round moves `start` on, so the number of rounds is
at most the number of bytes. -/
def pathTab : ℕ → ℕ → Buffer → List ℕ × Buffer
  | 0, _, path => ([], path)
  | rounds + 1, start, path =>
    match getNextPath start path with
    | none => ([], path)
    | some (p, start, path) =>
      match pathTab rounds (start + 1) path with
      | (tab, path) => (p :: tab, path)

/-- A string in a buffer of zeroes. -/
def pathBuffer (path : CStr) : Buffer := fun i => path.getD i 0

/-- The components of a path; the one before a leading slash is empty. -/
def components (path : CStr) : List CStr :=
  match pathTab (maxPath + 1) 0 (pathBuffer path) with
  | (tab, path) => tab.map (cstrAt path)

/-! ## Absolute paths -/

/-- `push_front`: NULL when the result is longer than `MAX_PATH`. -/
def pushFront (dst src : CStr) : Option CStr :=
  if maxPath < dst.length + src.length then none else some (src ++ dst)

/-- One component of a path that is made absolute: `.` stands for nothing and `..` takes
the component before away. -/
def normalizeStep (path : List CStr) (c : CStr) : List CStr :=
  if c = [dot] then path else if c = [dot, dot] then path.dropLast else path ++ [c]

/-- The components in a row, with slashes between them. -/
def assemble (path : List CStr) : CStr :=
  match (path.intersperse [slash]).flatten with
  | [] => [slash]
  | c :: s => c :: s

/-- The end of `krealpath`: the components without `.` and `..`. -/
def normalize (path : CStr) : CStr := assemble ((components path).foldl normalizeStep [])

/-! ## The components fit into a buffer -/

theorem cstrAt_fits (path : Buffer) {p : ℕ} (hp : 0 < p) : (cstrAt path p).Fits where
  length := by
    have hle : List.length (cstrAt path p) ≤ maxPath - p := by
      rw [cstrAt]
      refine (List.takeWhile_prefix _).length_le.trans ?_
      rw [List.length_map, List.length_range]
    have hmax : 0 < maxPath := by decide
    omega
  nonzero c hc := by
    have hall := List.all_takeWhile (p := fun c : UInt8 => decide (c ≠ 0))
      (l := (List.range (maxPath - p)).map fun i => path (p + i))
    have := List.all_eq_true.mp hall c hc
    simpa using this

theorem getNextPath_start {start : ℕ} {path path' : Buffer} {p start' : ℕ}
    (h : getNextPath start path = some (p, start', path')) : p = start ∧ start ≤ start' := by
  rw [getNextPath] at h
  split at h
  · cases h
    exact ⟨rfl, Nat.le_succ _⟩
  · split at h
    · cases h
      exact ⟨rfl, by omega⟩
    · split at h
      · rename_i i hi
        cases h
        have := List.find?_some hi
        simp only [decide_eq_true_eq] at this
        exact ⟨rfl, this.1⟩
      · split at h
        · cases h
          exact ⟨rfl, by omega⟩
        · cases h

/-- The pointers are behind the start. -/
theorem le_of_mem_pathTab {rounds : ℕ} : ∀ {start : ℕ} {path : Buffer} {p : ℕ},
    p ∈ (pathTab rounds start path).1 → start ≤ p := by
  induction rounds with
  | zero =>
      intro start path p hp
      cases hp
  | succ rounds ih =>
      intro start path p hp
      rw [pathTab] at hp
      split at hp
      · cases hp
      · rename_i q start' path' hnext
        obtain ⟨rfl, hle⟩ := getNextPath_start hnext
        rcases List.mem_cons.mp hp with rfl | hp
        · exact le_refl _
        · have := ih hp
          omega

/-- **Every component but the first fits into a name.** -/
theorem components_fits {path : CStr} {c : CStr} (h : c ∈ (components path).tail) : c.Fits := by
  have hpos : ∀ p ∈ (pathTab (maxPath + 1) 0 (pathBuffer path)).1.tail, 0 < p := by
    intro p hp
    rw [pathTab] at hp
    split at hp
    · cases hp
    · have := le_of_mem_pathTab hp
      omega
  rw [components, ← List.map_tail] at h
  obtain ⟨p, hp, rfl⟩ := List.mem_map.mp h
  exact cstrAt_fits _ (hpos p hp)

end OxKernel.Fs
