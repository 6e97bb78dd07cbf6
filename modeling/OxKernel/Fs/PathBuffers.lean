import OxKernel.Fs.Realpath
import OxKernel.Lib.Traced

/-!
# The buffers of the path functions

What `krealpath` and the beginnings of `inode_get`, `inode_create` and `inode_free` touch of the
buffers of `MAX_PATH` elements: `in_path`, `res_path`, `link_path`, and `tmp`, `ptr_path`,
`ptr_tab` and `gen_path` of `krealpath`, and the local buffer of `push_front`. The directories
above the current one enter by their names only.

Every length check compares with `MAX_PATH` itself, which leaves no room for the terminating
zero, and `get_next_path` is called again at a position behind that zero.

## Main definitions

* `PathBuf`, `Touch` — the buffers, and an access to one.
* `nextReads`, `realpathTo` — the functions, with what they touch.
* `RealFits` — the lengths for which `krealpath` stays inside.

## Main results

* `realpathTo_value` — they return what `krealpath` does.
* `realpathTo_all` — `krealpath` stays inside for exactly the lengths that fit.
-/
namespace OxKernel.Fs

open Lib (Call Traced)

/-! ## Strings in buffers -/

/-- The buffers of `MAX_PATH` elements. -/
inductive PathBuf
  | inPath
  | resPath
  | linkPath
  | tmp
  | ptrPath
  | pushed
  | ptrTab
  | genPath
  deriving DecidableEq, Repr

/-- An access to an element of a buffer. -/
abbrev Touch : Type := PathBuf × ℕ

/-- A computation that touches the buffers. -/
abbrev PathM : Type → Type := Traced Touch

/-- The access is inside the buffer. -/
def Touch.Inside (t : Touch) : Prop := t.2 < maxPath

/-- The bytes of a string and the zero at its end, from a position on. -/
def stringTouches (b : PathBuf) (p : ℕ) (s : CStr) : List Touch :=
  (List.range (s.length + 1)).map fun i => (b, p + i)

/-- `strcpy`. -/
def copyTo (b : PathBuf) (src : CStr) : PathM CStr := do
  Traced.touch (stringTouches b 0 src)
  pure src

/-- `strcat`. -/
def appendTo (b : PathBuf) (dst src : CStr) : PathM CStr := do
  Traced.touch (stringTouches b dst.length src)
  pure (dst ++ src)

/-- `push_front`, which builds the string in a buffer of its own first. -/
def pushFrontTo (b : PathBuf) (dst src : CStr) : PathM CStr := do
  Traced.require (dst.length + src.length ≤ maxPath)
  Traced.touch ((List.range (dst.length + src.length)).map fun i => (.pushed, i))
  copyTo b (src ++ dst)

/-- The loop of `krealpath` that goes up from the current directory, whose name comes first. -/
def cwdFront : CStr → List CStr → PathM CStr
  | tmp, [] => pure tmp
  | tmp, name :: names => do
    let tmp ← pushFrontTo .tmp tmp name
    let tmp ← pushFrontTo .tmp tmp [slash]
    cwdFront tmp names

/-! ## Components -/

/-- The first test of `get_next_path`, for a dot at the end. -/
def dotReads (start : ℕ) (path : Buffer) : List ℕ :=
  start :: if path start = dot then [start + 1] else []

/-- The second test, for two dots at the end. -/
def dotsReads (start : ℕ) (path : Buffer) : List ℕ :=
  start :: if path start = dot then
    (start + 1) :: if path (start + 1) = dot then [start + 2] else []
  else []

/-- The loop that looks for a slash, up to the end of the buffer, and the loop that goes to the
end of the string. -/
def scanReads (start : ℕ) (path : Buffer) : List ℕ :=
  match (List.range maxPath).find? fun i => start ≤ i ∧ path i = slash with
  | some i => List.range' start (i + 1 - start)
  | none =>
    List.range' start (maxPath - start) ++ start ::
      if path start ≠ 0 then List.range' start ((cstrAt path start).length + 1) else []

/-- The bytes that `get_next_path` looks at. -/
def nextReads (start : ℕ) (path : Buffer) : List ℕ :=
  dotReads start path ++
    if path start = dot ∧ path (start + 1) = 0 then []
    else
      dotsReads start path ++
        if path start = dot ∧ path (start + 1) = dot ∧ path (start + 2) = 0 then []
        else scanReads start path

/-- `get_next_path`. -/
def nextPath (b : PathBuf) (start : ℕ) (path : Buffer) : PathM (Option (ℕ × ℕ × Buffer)) := do
  Traced.touch ((nextReads start path).map fun i => (b, i))
  pure (getNextPath start path)

/-- The loop that fills `ptr_tab`, from element `n` on. -/
def tokenize (b : PathBuf) : ℕ → ℕ → ℕ → Buffer → PathM (List ℕ × Buffer)
  | 0, _, _, path => pure ([], path)
  | rounds + 1, n, start, path => do
    match ← nextPath b start path with
    | none => pure ([], path)
    | some (p, start, path) => do
      Traced.touch [(.ptrTab, n)]
      let a ← tokenize b rounds (n + 1) (start + 1) path
      pure (p :: a.1, a.2)

/-- The loop that fills `gen_path`, from element `i` of `ptr_tab` on. Behind a `..` it looks at
the next element, even if there is none. -/
def generate : ℕ → List CStr → List CStr → PathM (List CStr)
  | _, [], gen => pure gen
  | i, c :: cs, gen => do
    Traced.touch [(.ptrTab, i)]
    if c = [dot] then generate (i + 1) cs gen
    else if c = [dot, dot] then do
      Traced.touch [(.ptrTab, i + 1)]
      generate (i + 1) cs gen.dropLast
    else do
      Traced.touch [(.genPath, gen.length), (.genPath, gen.length + 1)]
      generate (i + 1) cs (gen ++ [c])

/-- The loop that puts the path together, from element `i` of `gen_path` on. -/
def assembleTo (b : PathBuf) : ℕ → CStr → List CStr → PathM CStr
  | _, res, [] => if res = [] then appendTo b res [slash] else pure res
  | i, res, c :: cs => do
    Traced.touch [(.genPath, i)]
    let res ← appendTo b res c
    if cs = [] then assembleTo b (i + 1) res cs
    else do
      let res ← appendTo b res [slash]
      assembleTo b (i + 1) res cs

/-! ## The functions -/

/-- The path of the current directory, which `krealpath` puts in front of a relative path. -/
def frontTo (b : PathBuf) (names : List CStr) (path : CStr) : PathM CStr :=
  if path.head? = some slash then pure []
  else do
    let tmp ← cwdFront [] names
    Traced.require (tmp.length + 1 ≤ maxPath)
    let tmp ← appendTo .tmp tmp [slash]
    pushFrontTo b [] tmp

/-- `krealpath`, with its result in the buffer `b`. -/
def realpathTo (b : PathBuf) (names : List CStr) (path : CStr) : PathM CStr := do
  let res ← frontTo b names path
  Traced.require (res.length + path.length ≤ maxPath)
  let full ← appendTo .ptrPath [] res
  let full ← appendTo .ptrPath full path
  let a ← tokenize .ptrPath (maxPath + 1) 0 0 (pathBuffer full)
  let gen ← generate 0 (a.1.map (cstrAt a.2)) []
  assembleTo b 0 [] gen

/-- The beginning of `inode_get`. -/
def getTo (names : List CStr) (path : CStr) : PathM CStr := do
  Traced.require (path.length ≤ maxPath)
  let _ ← copyTo .inPath path
  let res ← realpathTo .resPath names path
  let _ ← tokenize .resPath (maxPath + 1) 0 0 (pathBuffer res)
  pure res

/-- The path of a link, made absolute. -/
def linkTo (names : List CStr) : Option CStr → PathM Unit
  | none => pure ()
  | some lpath => do
    let _ ← realpathTo .linkPath names lpath
    pure ()

/-- The beginning of `inode_create`. -/
def createTo (names : List CStr) (path : CStr) (lpath : Option CStr) : PathM CStr := do
  Traced.require (path.length ≤ maxPath)
  Traced.require (∀ l ∈ lpath, l.length ≤ maxPath)
  let _ ← copyTo .inPath path
  let res ← realpathTo .resPath names path
  linkTo names lpath
  let _ ← tokenize .resPath (maxPath + 1) 0 0 (pathBuffer res)
  pure res

/-- The beginning of `inode_free`. -/
def freeTo (path : CStr) : PathM CStr := do
  Traced.require (path.length ≤ maxPath)
  copyTo .inPath path

/-! ## What they return -/

section Values
variable {b : PathBuf} {names : List CStr} {path dst src : CStr}

@[simp] theorem copyTo_value (b : PathBuf) (src : CStr) : (copyTo b src).value = some src := by
  simp [copyTo]

@[simp] theorem appendTo_value (b : PathBuf) (dst src : CStr) :
    (appendTo b dst src).value = some (dst ++ src) := by
  simp [appendTo]

theorem pushFrontTo_value (b : PathBuf) (dst src : CStr) :
    (pushFrontTo b dst src).value = pushFront dst src := by
  by_cases h : dst.length + src.length ≤ maxPath
  · simp [pushFrontTo, pushFront, h, Nat.not_lt.mpr h]
  · simp [pushFrontTo, pushFront, h, Nat.lt_of_not_le h]

theorem tokenize_value (b : PathBuf) (rounds n start : ℕ) (path : Buffer) :
    (tokenize b rounds n start path).value = some (pathTab rounds start path) := by
  induction rounds generalizing n start path with
  | zero => rfl
  | succ rounds ih =>
      rw [tokenize, pathTab, nextPath]
      rcases hnext : getNextPath start path with _ | ⟨p, start', path'⟩
      · simp
      · simp [ih]

theorem generate_value (i : ℕ) (cs gen : List CStr) :
    (generate i cs gen).value = some (cs.foldl normalizeStep gen) := by
  induction cs generalizing i gen with
  | nil => rfl
  | cons c cs ih =>
      rw [generate, List.foldl_cons, normalizeStep]
      by_cases h : c = [dot]
      · simp [h, ih]
      · by_cases h' : c = [dot, dot]
        · simp [h', ih]
        · simp [h, h', ih]

theorem assembleTo_value (b : PathBuf) (i : ℕ) (res : CStr) (cs : List CStr) :
    (assembleTo b i res cs).value =
      some (if res ++ [slash].intercalate cs = [] then [slash]
        else res ++ [slash].intercalate cs) := by
  induction cs generalizing i res with
  | nil =>
      rw [assembleTo]
      by_cases h : res = []
      · simp [h]
      · simp [h]
  | cons c cs ih =>
      rw [assembleTo]
      by_cases h : cs = []
      · subst h
        have hrest := ih (i + 1) (res ++ c)
        simp only [List.intercalate_nil, List.append_nil] at hrest
        simp [hrest]
      · simp [h, ih, List.intercalate_cons_of_ne_nil h]

/-- The front that the loop builds. -/
def frontOf (tmp : CStr) (names : List CStr) : CStr :=
  names.foldl (fun tmp name => slash :: (name ++ tmp)) tmp

/-- The path from the root, with the names of the directories above. -/
def fullOf (names : List CStr) (path : CStr) : CStr :=
  if path.head? = some slash then path else frontOf [] names ++ slash :: path

theorem fullOf_absolute (h : path.head? = some slash) : fullOf names path = path := if_pos h

theorem fullOf_relative (h : ¬ path.head? = some slash) :
    fullOf names path = frontOf [] names ++ slash :: path := if_neg h

theorem frontOf_length (tmp : CStr) (names : List CStr) :
    (frontOf tmp names).length = tmp.length + (names.map fun n => n.length + 1).sum := by
  induction names generalizing tmp with
  | nil => rfl
  | cons name names ih =>
      rw [frontOf, List.foldl_cons, ← frontOf, ih, List.map_cons, List.sum_cons]
      simp only [List.length_cons, List.length_append]
      omega

theorem cwdFront_value (tmp : CStr) (names : List CStr) (htmp : tmp.length ≤ maxPath) :
    (cwdFront tmp names).value =
      if (frontOf tmp names).length ≤ maxPath then some (frontOf tmp names) else none := by
  induction names generalizing tmp with
  | nil =>
      rw [frontOf, List.foldl_nil, if_pos htmp]
      rfl
  | cons name names ih =>
      have hlen := frontOf_length (slash :: (name ++ tmp)) names
      simp only [List.length_cons, List.length_append] at hlen
      rw [frontOf, List.foldl_cons, ← frontOf, cwdFront]
      simp only [Traced.value_bind, pushFrontTo_value, pushFront]
      by_cases h₁ : maxPath < tmp.length + name.length
      · rw [if_pos h₁, if_neg (by omega)]
        rfl
      · rw [if_neg h₁, Option.bind_some]
        by_cases h₂ : maxPath < (name ++ tmp).length + [slash].length
        · rw [if_pos h₂, if_neg]
          · rfl
          · rw [List.length_append, List.length_singleton] at h₂
            omega
        · rw [if_neg h₂, Option.bind_some]
          refine ih _ ?_
          rw [List.length_append, List.length_singleton] at h₂
          simp only [List.singleton_append, List.length_cons, List.length_append]
          omega

theorem pushFront_of_le (h : dst.length + src.length ≤ maxPath) :
    pushFront dst src = some (src ++ dst) := if_neg (Nat.not_lt.mpr h)

theorem pushFront_of_lt (h : maxPath < dst.length + src.length) : pushFront dst src = none :=
  if_pos h

theorem frontTo_value (b : PathBuf) (names : List CStr) (path : CStr) :
    (frontTo b names path).value =
      if path.head? = some slash then some []
      else if (frontOf [] names).length + 1 ≤ maxPath then some (frontOf [] names ++ [slash])
      else none := by
  rw [frontTo]
  split
  · rfl
  · simp only [Traced.value_bind, cwdFront_value [] names (Nat.zero_le _), pushFrontTo_value]
    by_cases h : (frontOf [] names).length + 1 ≤ maxPath
    · have hpush : pushFront [] (frontOf [] names ++ [slash]) =
          some (frontOf [] names ++ [slash] ++ []) := pushFront_of_le (by simpa using h)
      rw [if_pos (by omega), if_pos h, Option.bind_some, Traced.value_require, if_pos h,
        appendTo_value, Option.bind_some, Option.bind_some, hpush, List.append_nil]
    · rw [if_neg h]
      by_cases h' : (frontOf [] names).length ≤ maxPath
      · rw [if_pos h', Option.bind_some, Traced.value_require, if_neg h, Option.bind_none]
      · rw [if_neg h', Option.bind_none]

/-- **What `krealpath` returns**, if the path from the root is not too long. -/
theorem realpathTo_value (b : PathBuf) (names : List CStr) (path : CStr) :
    (realpathTo b names path).value =
      if (fullOf names path).length ≤ maxPath then some (normalize (fullOf names path))
      else none := by
  have hend : ∀ full : CStr,
      ((tokenize .ptrPath (maxPath + 1) 0 0 (pathBuffer full)).value.bind fun a =>
        (generate 0 (a.1.map (cstrAt a.2)) []).value.bind fun gen =>
          (assembleTo b 0 [] gen).value) = some (normalize full) := by
    intro full
    simp only [tokenize_value, generate_value, assembleTo_value, Option.bind_some, List.nil_append,
      normalize, components, assemble_eq]
  simp only [realpathTo, Traced.value_bind, frontTo_value, appendTo_value, Option.bind_some,
    List.nil_append, hend]
  by_cases hslash : path.head? = some slash
  · rw [fullOf_absolute hslash, if_pos hslash, Option.bind_some, List.length_nil, Nat.zero_add,
      Traced.value_require, List.nil_append]
    split <;> rfl
  · rw [fullOf_relative hslash, if_neg hslash]
    have hlen : (frontOf [] names ++ slash :: path).length =
        (frontOf [] names).length + 1 + path.length := by
      rw [List.length_append, List.length_cons]
      omega
    by_cases h : (frontOf [] names).length + 1 ≤ maxPath
    · rw [if_pos h, Option.bind_some, Traced.value_require, List.length_append,
        List.length_singleton, hlen]
      split
      · rw [Option.bind_some]
        simp
      · rfl
    · rw [if_neg h, hlen, if_neg (by omega)]
      rfl

end Values

/-! ## What they touch -/

/-- The lengths that the loop goes through are not `MAX_PATH`, where the string would fill the
buffer; a longer string is refused. -/
def FrontFits : ℕ → List CStr → Prop
  | t, [] => t + 1 ≠ maxPath
  | t, name :: names =>
    t + name.length ≠ maxPath ∧ t + name.length + 1 ≠ maxPath ∧
      FrontFits (t + name.length + 1) names

/-- How far behind the end of a path the last call of `get_next_path` looks. -/
def lastSkip (path : CStr) : ℕ :=
  match (path.splitOn slash).getLast? with
  | none => 0
  | some [] => 0
  | some (c :: t) => endSkip (c :: t) + 1

section Touches
variable {b : PathBuf} {names : List CStr} {path rest dst src t : CStr}

/-- The elements of a list of positions are inside if the positions are. -/
theorem positions_all {l : List ℕ} :
    (Traced.touch (l.map fun i => (b, i))).All Touch.Inside ↔ ∀ i ∈ l, i < maxPath := by
  rw [Traced.all_touch, List.forall_mem_map]
  rfl

@[simp] theorem string_all {p : ℕ} :
    (Traced.touch (stringTouches b p src)).All Touch.Inside ↔ p + src.length < maxPath := by
  have h := positions_all (b := b) (l := (List.range (src.length + 1)).map (p + ·))
  rw [List.map_map, List.forall_mem_map] at h
  refine h.trans ⟨fun hall => hall src.length (List.mem_range.mpr (Nat.lt_succ_self _)), ?_⟩
  intro hlt i hi
  have := List.mem_range.mp hi
  omega

@[simp] theorem copyTo_all : (copyTo b src).All Touch.Inside ↔ src.length < maxPath := by
  simp [copyTo]

@[simp] theorem appendTo_all :
    (appendTo b dst src).All Touch.Inside ↔ dst.length + src.length < maxPath := by
  simp [appendTo]

/-- The length check of `push_front` lets the length pass that fills the buffer. -/
theorem pushFrontTo_all :
    (pushFrontTo b dst src).All Touch.Inside ↔ dst.length + src.length ≠ maxPath := by
  by_cases h : dst.length + src.length ≤ maxPath
  · simp [pushFrontTo, positions_all, h]
    constructor
    · rintro ⟨-, hlt⟩
      omega
    · intro hne
      exact ⟨fun i hi => hi.trans_le h, by omega⟩
  · simp [pushFrontTo, h]
    omega

/-- Strings that are too long already are refused. -/
theorem FrontFits.of_lt {k : ℕ} (h : maxPath < k) (names : List CStr) : FrontFits k names := by
  induction names generalizing k with
  | nil => exact fun h0 => by omega
  | cons name names ih => exact ⟨by omega, by omega, ih (by omega)⟩

/-- The loop stays inside the buffers, and leaves room for a slash. -/
theorem cwdFront_all (tmp : CStr) (names : List CStr) :
    (cwdFront tmp names).All Touch.Inside ∧
        (∀ front, (cwdFront tmp names).value = some front → front.length + 1 ≠ maxPath) ↔
      FrontFits tmp.length names := by
  induction names generalizing tmp with
  | nil => simp [cwdFront, FrontFits]
  | cons name names ih =>
      rw [cwdFront, FrontFits]
      simp only [Traced.all_bind, Traced.value_bind, pushFrontTo_all, pushFrontTo_value]
      by_cases h₁ : tmp.length + name.length ≤ maxPath
      · have hlen : (name ++ tmp).length + [slash].length = tmp.length + name.length + 1 := by
          rw [List.length_append, List.length_singleton, Nat.add_comm name.length]
        have hlen' : (slash :: (name ++ tmp)).length = tmp.length + name.length + 1 := by
          rw [← hlen]
          rfl
        rw [pushFront_of_le h₁, ← hlen', ← ih]
        by_cases h₂ : tmp.length + name.length + 1 ≤ maxPath
        · have hpush : pushFront (name ++ tmp) [slash] = some (slash :: (name ++ tmp)) :=
            pushFront_of_le (hlen ▸ h₂)
          simp only [hpush, hlen, hlen', Option.bind_some, Option.some.injEq, forall_eq', and_assoc]
        · have hfull : tmp.length + name.length = maxPath := by omega
          simp [hfull]
      · rw [pushFront_of_lt (Nat.lt_of_not_le h₁)]
        simp [FrontFits.of_lt (show maxPath < tmp.length + name.length + 1 by omega) names]
        omega

/-- The path of the directory stays inside, for a relative path. -/
theorem frontTo_all :
    (frontTo b names path).All Touch.Inside ↔
      (path.head? ≠ some slash → FrontFits 0 names) := by
  rw [frontTo]
  by_cases hslash : path.head? = some slash
  · simp [hslash]
  · have hzero : ([] : CStr).length = 0 := rfl
    rw [if_neg hslash, ← hzero, ← cwdFront_all]
    simp only [Traced.all_bind, Traced.all_require, Traced.value_require, appendTo_all,
      appendTo_value, pushFrontTo_all, true_and, hslash, not_false_eq_true, ne_eq, forall_const,
      Option.some.injEq, forall_eq', List.length_nil, List.length_append, List.length_singleton,
      Nat.zero_add]
    refine and_congr_right fun _ => forall_congr' fun front => forall_congr' fun _ => ?_
    by_cases hlen : front.length + 1 ≤ maxPath
    · simp only [if_pos hlen, forall_const]
      omega
    · simp only [if_neg hlen, reduceCtorEq, false_implies, implies_true, true_iff]
      omega

/-! ### `get_next_path` -/

section Reads
variable {start n : ℕ} {path : Buffer} {rest t : CStr}

theorem mem_range'_lt {s m k i : ℕ} (h : i ∈ List.range' s m) (hle : s + m ≤ k) : i < k := by
  have := List.mem_range'_1.mp h
  omega

/-- The tests for dots look no further than the first character that is none. -/
theorem nextReads_inside (hn : start + n < maxPath) (hdot : path (start + n) ≠ dot)
    (hscan : ∀ i ∈ scanReads start path, i < maxPath) :
    ∀ i ∈ nextReads start path, i < maxPath := by
  have h0 : path start = dot → 0 < n := fun h => Nat.pos_of_ne_zero fun h0 => by
    rw [h0] at hdot
    exact hdot h
  have h1 : path start = dot → path (start + 1) = dot → 1 < n := fun h h' => by
    have hne : n ≠ 1 := fun h1 => by
      rw [h1] at hdot
      exact hdot h'
    have := h0 h
    omega
  have hfirst : ∀ i ∈ dotReads start path, i < maxPath := by
    intro i hi
    rw [dotReads] at hi
    split at hi
    · rename_i h
      have := h0 h
      simp only [List.mem_cons, List.not_mem_nil, or_false] at hi
      omega
    · rw [List.mem_singleton.mp hi]
      omega
  have hsecond : ∀ i ∈ dotsReads start path, i < maxPath := by
    intro i hi
    rw [dotsReads] at hi
    split at hi
    · rename_i h
      have := h0 h
      split at hi
      · rename_i h'
        have := h1 h h'
        simp only [List.mem_cons, List.not_mem_nil, or_false] at hi
        omega
      · simp only [List.mem_cons, List.not_mem_nil, or_false] at hi
        omega
    · rw [List.mem_singleton.mp hi]
      omega
  intro i hi
  rw [nextReads] at hi
  rcases List.mem_append.mp hi with hi | hi
  · exact hfirst i hi
  · split at hi
    · exact absurd hi List.not_mem_nil
    · rcases List.mem_append.mp hi with hi | hi
      · exact hsecond i hi
      · split at hi
        · exact absurd hi List.not_mem_nil
        · exact hscan i hi

/-- In front of a slash. -/
theorem Reads.slash_inside {r : CStr} (h : Reads path start (t ++ slash :: r)) (ht : slash ∉ t)
    (hlt : start + t.length < maxPath) : ∀ i ∈ nextReads start path, i < maxPath := by
  have hslash : path (start + t.length) = slash := by
    rw [h]
    simp
  refine nextReads_inside hlt (by rw [hslash]; decide) fun i hi => ?_
  rw [scanReads, h.find_slash ht hlt] at hi
  exact mem_range'_lt hi (by omega)

/-- The last component. -/
theorem Reads.last_inside (h : Reads path start t) (ht : slash ∉ t) (hz : ∀ c ∈ t, c ≠ 0)
    (hlt : start + t.length < maxPath) : ∀ i ∈ nextReads start path, i < maxPath := by
  have hend : path (start + t.length) = 0 := by
    rw [h, List.getD_eq_default _ _ le_rfl]
  have hstr : cstrAt path start = t := cstrAt_eq hz hlt.le (fun i _ => h i) hend
  refine nextReads_inside hlt (by rw [hend]; decide) fun i hi => ?_
  rw [scanReads, h.find_none ht, hstr] at hi
  rcases List.mem_append.mp hi with hi | hi
  · exact mem_range'_lt hi (by omega)
  · rcases List.mem_cons.mp hi with rfl | hi
    · omega
    · split at hi
      · exact mem_range'_lt hi (by omega)
      · exact absurd hi List.not_mem_nil

/-- Every call looks at its first position. -/
theorem start_mem_nextReads (start : ℕ) (path : Buffer) : start ∈ nextReads start path :=
  List.mem_append_left _ List.mem_cons_self

/-- At the end of the path. -/
theorem Reads.end_inside (h : Reads path start []) :
    (∀ i ∈ nextReads start path, i < maxPath) ↔ start < maxPath :=
  ⟨fun hall => hall start (start_mem_nextReads start path), fun hlt =>
    h.last_inside List.not_mem_nil (fun _ hc => absurd hc List.not_mem_nil) hlt⟩

end Reads

/-! ### All components -/

theorem lastSkip_slash (ht : slash ∉ t) (r : CStr) : lastSkip (t ++ slash :: r) = lastSkip r := by
  have hne := List.splitOn_ne_nil slash r
  rw [lastSkip, lastSkip, List.splitOn_append_cons_self_of_not_mem ht]
  rcases hr : r.splitOn slash with - | ⟨c, cs⟩
  · exact absurd hr hne
  · rw [List.getLast?_cons_cons]

theorem lastSkip_last (ht : slash ∉ t) (hne : t ≠ []) : lastSkip t = endSkip t + 1 := by
  rw [lastSkip, List.splitOn_eq_singleton ht]
  cases t with
  | nil => exact absurd rfl hne
  | cons c t => rfl

@[simp] theorem element_all {n : ℕ} :
    (Traced.touch [(b, n)]).All Touch.Inside ↔ n < maxPath := by
  have h := positions_all (b := b) (l := [n])
  simpa using h

theorem tokenize_end {rounds n start : ℕ} {path : Buffer} (h : Reads path start []) :
    (tokenize b (rounds + 1) n start path).All Touch.Inside ↔ start < maxPath := by
  rw [tokenize, nextPath, ← h.end_inside, ← positions_all (b := b)]
  simp [getNextPath_end h]

theorem tokenize_step {rounds n start p start' : ℕ} {path path' : Buffer}
    (h : getNextPath start path = some (p, start', path')) :
    (tokenize b (rounds + 1) n start path).All Touch.Inside ↔
      (∀ i ∈ nextReads start path, i < maxPath) ∧ n < maxPath ∧
        (tokenize b rounds (n + 1) (start' + 1) path').All Touch.Inside := by
  rw [tokenize, nextPath, ← positions_all (b := b)]
  simp [h]

/-- **The loop** over a path that fits looks behind its end. -/
theorem tokenize_all {rounds : ℕ} : ∀ {n start : ℕ} {path : Buffer} {rest : CStr},
    rest.length < rounds → (∀ c ∈ rest, c ≠ 0) → Reads path start rest →
    (rest ≠ [] → start + rest.length < maxPath) → n ≤ start →
    ((tokenize b rounds n start path).All Touch.Inside ↔
      start + rest.length + lastSkip rest < maxPath) := by
  induction rounds with
  | zero => exact fun h => absurd h (Nat.not_lt_zero _)
  | succ rounds ih =>
      intro n start path rest hlt hz h hfit hn
      rcases rest.firstSlash with hno | ⟨t, r, ht, rfl⟩
      · by_cases hne : rest = []
        · subst hne
          exact tokenize_end h
        · have hfit' := hfit hne
          have hpos := List.length_pos_of_ne_nil hne
          have hrest := h.behind (i := rest.length + endSkip rest + 1) (by omega)
          rw [← Nat.add_assoc start] at hrest
          obtain ⟨rounds, rfl⟩ : ∃ k, rounds = k + 1 := ⟨rounds - 1, by omega⟩
          rw [tokenize_step (getNextPath_last h hno hz hne hfit'.le), tokenize_end hrest,
            lastSkip_last hno hne]
          have hin := h.last_inside hno hz hfit'
          constructor
          · rintro ⟨-, -, hlast⟩
            omega
          · exact fun hlast => ⟨hin, by omega, by omega⟩
      · have hlen : (t ++ slash :: r).length = t.length + (r.length + 1) := by
          rw [List.length_append, List.length_cons]
        have hfit' : start + (t.length + (r.length + 1)) < maxPath := hlen ▸ hfit (by simp)
        have hbehind := h.behind_slash
        have hrest := ih (n := n + 1) (by omega)
          (fun c hc => hz c (List.mem_append_right _ (List.mem_cons_of_mem _ hc))) hbehind
          (fun _ => by omega) (by omega)
        rw [tokenize_step (getNextPath_slash h ht hz (by omega)), hrest, hlen, lastSkip_slash ht]
        have hin := h.slash_inside ht (by omega)
        constructor
        · rintro ⟨-, -, hlast⟩
          omega
        · exact fun hlast => ⟨hin, by omega, by omega⟩

/-- The components that are left are not more than those of the path. -/
theorem generate_all {i : ℕ} {cs gen : List CStr} (h : i + cs.length < maxPath)
    (hgen : gen.length ≤ i) : (generate i cs gen).All Touch.Inside := by
  induction cs generalizing i gen with
  | nil => exact Traced.all_pure gen
  | cons c cs ih =>
      rw [List.length_cons] at h
      have hdrop : gen.dropLast.length ≤ i + 1 := by
        rw [List.length_dropLast]
        omega
      have hpush : (gen ++ [c]).length ≤ i + 1 := by
        rw [List.length_append, List.length_singleton]
        omega
      have htwo : (Traced.touch [(PathBuf.genPath, gen.length), (.genPath, gen.length + 1)]).All
          Touch.Inside := by
        have hpos := positions_all (b := .genPath) (l := [gen.length, gen.length + 1])
        refine hpos.mpr fun k hk => ?_
        simp only [List.mem_cons, List.not_mem_nil, or_false] at hk
        omega
      rw [generate, Traced.all_bind]
      refine ⟨element_all.mpr (by omega), fun _ _ => ?_⟩
      split
      · exact ih (by omega) (by omega)
      · split
        · exact Traced.all_bind.mpr
            ⟨element_all.mpr (by omega), fun _ _ => ih (by omega) hdrop⟩
        · exact Traced.all_bind.mpr ⟨htwo, fun _ _ => ih (by omega) hpush⟩

/-- The path that is put together is as long as its components with the slashes. -/
theorem assembleTo_all {i : ℕ} {res : CStr} {cs : List CStr} (hi : i + cs.length ≤ maxPath)
    (h : res.length + ([slash].intercalate cs).length < maxPath) :
    (assembleTo b i res cs).All Touch.Inside := by
  induction cs generalizing i res with
  | nil =>
      rw [assembleTo]
      split
      · rename_i hres
        rw [appendTo_all, hres]
        decide
      · exact Traced.all_pure res
  | cons c cs ih =>
      rw [List.length_cons] at hi
      rw [assembleTo, Traced.all_bind]
      refine ⟨element_all.mpr (by omega), fun _ _ => ?_⟩
      by_cases hcs : cs = []
      · subst hcs
        have hone : [slash].intercalate [c] = c := by simp
        rw [hone] at h
        rw [Traced.all_bind]
        refine ⟨appendTo_all.mpr h, fun r hr => ?_⟩
        rw [appendTo_value] at hr
        cases hr
        rw [if_pos rfl]
        refine ih (by rw [List.length_nil]; omega) ?_
        simpa using h
      · rw [List.intercalate_cons_of_ne_nil hcs, List.length_append, List.length_append,
          List.length_singleton] at h
        rw [Traced.all_bind]
        refine ⟨appendTo_all.mpr (by omega), fun r hr => ?_⟩
        rw [appendTo_value] at hr
        cases hr
        rw [if_neg hcs, Traced.all_bind, appendTo_all, List.length_append, List.length_singleton]
        refine ⟨by omega, fun r hr => ?_⟩
        rw [appendTo_value] at hr
        cases hr
        refine ih (by omega) ?_
        simp only [List.length_append, List.length_singleton]
        omega

end Touches

/-! ## Lengths -/

section Lengths
variable {names cs : List CStr} {path full : CStr}

/-- The length of a path of components, with a slash before each. -/
def span (cs : List CStr) : ℕ := (cs.flatMap (slash :: ·)).length

theorem span_cons (c : CStr) (cs : List CStr) : span (c :: cs) = c.length + 1 + span cs := by
  rw [span, List.flatMap_cons, List.length_append, List.length_cons, span]

theorem span_append (a b : List CStr) : span (a ++ b) = span a + span b := by
  rw [span, List.flatMap_append, List.length_append, span, span]

theorem span_sublist {a b : List CStr} (h : a.Sublist b) : span a ≤ span b :=
  (h.flatMap (slash :: ·)).length_le

theorem length_le_span (cs : List CStr) : cs.length ≤ span cs := by
  induction cs with
  | nil => exact Nat.zero_le _
  | cons c cs ih =>
      rw [span_cons, List.length_cons]
      omega

theorem span_eq (h : cs ≠ []) : span cs = ([slash].intercalate cs).length + 1 := by
  rw [span, flatMap_slash h, List.length_cons]

theorem span_splitOn (path : CStr) : span (path.splitOn slash) = path.length + 1 := by
  rw [span_eq (List.splitOn_ne_nil slash path), List.intercalate_splitOn]

theorem cut_sublist (path : CStr) : (cutAtSlashes path).Sublist (path.splitOn slash) := by
  rw [cutAtSlashes]
  split
  · exact List.dropLast_sublist _
  · exact List.Sublist.refl _

/-- Components of a path, put together, are characters of the path. -/
theorem intercalate_sublist (h : cs.Sublist (path.splitOn slash)) :
    ([slash].intercalate cs).Sublist path := by
  by_cases hcs : cs = []
  · subst hcs
    exact List.nil_sublist path
  · have hsub := h.flatMap (slash :: ·)
    rw [flatMap_slash hcs, flatMap_slash (List.splitOn_ne_nil slash path),
      List.intercalate_splitOn] at hsub
    exact List.cons_sublist_cons.mp hsub

/-- A component takes at least one character of the path. -/
theorem cut_length_le (path : CStr) : (cutAtSlashes path).length ≤ path.length := by
  have hspan := span_splitOn path
  rcases List.eq_nil_or_concat (path.splitOn slash) with h0 | ⟨cs, c, hcs⟩
  · exact absurd h0 (List.splitOn_ne_nil slash path)
  · rw [List.concat_eq_append] at hcs
    rw [hcs, span_append, span_cons] at hspan
    have hle := length_le_span cs
    rw [cutAtSlashes, hcs]
    split
    · rw [List.dropLast_concat]
      omega
    · rename_i hlast
      rw [List.getLast?_concat, Option.some.injEq] at hlast
      have hpos := List.length_pos_of_ne_nil hlast
      rw [List.length_append, List.length_singleton]
      omega

theorem frontTo_some {b : PathBuf} {res : CStr} (h : (frontTo b names path).value = some res) :
    res ++ path = fullOf names path := by
  rw [frontTo_value] at h
  split at h
  · rename_i hslash
    cases h
    rw [fullOf_absolute hslash, List.nil_append]
  · rename_i hslash
    split at h
    · cases h
      rw [fullOf_relative hslash, List.append_assoc, List.singleton_append]
    · cases h

theorem frontTo_none {b : PathBuf} (h : (frontTo b names path).value = none) :
    maxPath < (fullOf names path).length := by
  rw [frontTo_value] at h
  split at h
  · cases h
  · rename_i hslash
    split at h
    · cases h
    · rw [fullOf_relative hslash, List.length_append, List.length_cons]
      omega

end Lengths

/-! ## The calls -/

/-- The lengths for which `krealpath` stays inside: those of the front, and that of the path from
the root, unless it is refused. -/
structure RealFits (names : List CStr) (path : CStr) : Prop where
  front : path.head? ≠ some slash → FrontFits 0 names
  full : maxPath < (fullOf names path).length ∨
    (fullOf names path).length + lastSkip (fullOf names path) < maxPath

section Realpath
variable {b : PathBuf} {names : List CStr} {path : CStr}

theorem reads_pathBuffer (path : CStr) : Reads (pathBuffer path) 0 path := fun i => by
  rw [pathBuffer, Nat.zero_add]

/-- The components of a path in a buffer. -/
theorem tokenize_path (hz : ∀ c ∈ path, c ≠ 0) (hlt : path.length < maxPath) :
    (tokenize b (maxPath + 1) 0 0 (pathBuffer path)).All Touch.Inside ↔
      path.length + lastSkip path < maxPath := by
  have h := tokenize_all (b := b) (n := 0) (Nat.lt_succ_of_lt hlt) hz (reads_pathBuffer path)
    (fun _ => by rwa [Nat.zero_add]) le_rfl
  rwa [Nat.zero_add] at h

/-- **`krealpath` stays inside the buffers** for exactly the lengths that fit. -/
theorem realpathTo_all (hz : ∀ c ∈ fullOf names path, c ≠ 0) :
    (realpathTo b names path).All Touch.Inside ↔ RealFits names path := by
  have hrest : ∀ full : CStr, (∀ c ∈ full, c ≠ 0) → full.length < maxPath →
      ∀ a, (tokenize .ptrPath (maxPath + 1) 0 0 (pathBuffer full)).value = some a →
        (generate 0 (a.1.map (cstrAt a.2)) []).All Touch.Inside ∧
          ∀ gen, (generate 0 (a.1.map (cstrAt a.2)) []).value = some gen →
            (assembleTo b 0 [] gen).All Touch.Inside := by
    intro full hz hlt a ha
    rw [tokenize_value] at ha
    cases ha
    have hcs : (pathTab (maxPath + 1) 0 (pathBuffer full)).1.map
        (cstrAt (pathTab (maxPath + 1) 0 (pathBuffer full)).2) = cutAtSlashes full :=
      components_eq hz hlt.le
    rw [hcs]
    have hcut := cut_length_le full
    refine ⟨generate_all (by omega) le_rfl, fun gen hgen => ?_⟩
    rw [generate_value] at hgen
    cases hgen
    have hsub := (leaves_sublist (cutAtSlashes full)).trans (cut_sublist full)
    have hlen := (intercalate_sublist hsub).length_le
    have hcount := (leaves_sublist (cutAtSlashes full)).length_le
    refine assembleTo_all ?_ ?_
    · show 0 + (leaves (cutAtSlashes full)).length ≤ maxPath
      omega
    · show [].length + ([slash].intercalate (leaves (cutAtSlashes full))).length < maxPath
      rw [List.length_nil]
      omega
  rw [realpathTo, Traced.all_bind, frontTo_all]
  constructor
  · rintro ⟨hfront, h⟩
    refine ⟨hfront, ?_⟩
    rcases hres : (frontTo b names path).value with _ | res
    · exact Or.inl (frontTo_none hres)
    · have hfull := frontTo_some hres
      have hlen : res.length + path.length = (fullOf names path).length := by
        rw [← hfull, List.length_append]
      by_cases hle : res.length + path.length ≤ maxPath
      · have h' := h res hres
        simp only [Traced.all_bind, Traced.all_require, Traced.value_require, if_pos hle,
          appendTo_all, appendTo_value, List.nil_append, hfull, true_and, forall_const,
          Option.some.injEq, forall_eq'] at h'
        obtain ⟨-, hlt, htok, -⟩ := h'
        rw [hlen] at hlt
        exact Or.inr ((tokenize_path hz hlt).mp htok)
      · exact Or.inl (by omega)
  · rintro ⟨hfront, hfits⟩
    refine ⟨hfront, fun res hres => ?_⟩
    have hfull := frontTo_some hres
    have hlen : res.length + path.length = (fullOf names path).length := by
      rw [← hfull, List.length_append]
    by_cases hle : res.length + path.length ≤ maxPath
    · have hlt := hfits.resolve_left (by omega)
      simp only [Traced.all_bind, Traced.all_require, Traced.value_require, if_pos hle,
        appendTo_all, appendTo_value, List.nil_append, hfull, true_and, forall_const,
        Option.some.injEq, forall_eq']
      refine ⟨?_, by omega, (tokenize_path hz (by omega)).mpr hlt, hrest _ hz (by omega)⟩
      rw [List.length_nil]
      omega
    · simp only [Traced.all_bind, Traced.all_require, Traced.value_require, if_neg hle,
        true_and, reduceCtorEq, false_implies, implies_true]

end Realpath

end OxKernel.Fs
