import OxKernel.Fs.Paths
import Mathlib.Data.List.GetD
import Mathlib.Tactic.Common

/-!
# The components of a path

What the loop around `get_next_path` collects: the path cut at its slashes, without the empty
component behind a slash at its end. The dots at the end, which `get_next_path` looks for
first, make no difference, and the positions behind the terminating zero hold zeroes.

## Main results

* `components_eq` — the components of every path that fits into the buffer.
-/
namespace OxKernel.Fs

/-! ## Cutting at slashes -/

/-- A path cut at its slashes. The empty component behind a slash at the end is left out. -/
def cutAtSlashes (path : CStr) : List CStr :=
  if (path.splitOn slash).getLast? = some [] then (path.splitOn slash).dropLast
  else path.splitOn slash

@[simp] theorem cutAtSlashes_nil : cutAtSlashes [] = [] := rfl

theorem cutAtSlashes_slash {t : CStr} (ht : slash ∉ t) (r : CStr) :
    cutAtSlashes (t ++ slash :: r) = t :: cutAtSlashes r := by
  have hne := List.splitOn_ne_nil slash r
  rw [cutAtSlashes, cutAtSlashes, List.splitOn_append_cons_self_of_not_mem ht]
  rcases hr : r.splitOn slash with - | ⟨c, cs⟩
  · exact absurd hr hne
  · rw [List.getLast?_cons_cons, List.dropLast_cons_of_ne_nil (List.cons_ne_nil c cs)]
    split <;> rfl

theorem cutAtSlashes_last {t : CStr} (ht : slash ∉ t) (hne : t ≠ []) : cutAtSlashes t = [t] := by
  rw [cutAtSlashes, List.splitOn_eq_singleton ht]
  exact if_neg (by simpa using hne)

theorem slash_not_mem_of_splitOn {path c : CStr} (hc : c ∈ path.splitOn slash) : slash ∉ c := by
  induction path generalizing c with
  | nil =>
      rw [List.splitOn_nil, List.mem_singleton] at hc
      subst hc
      exact List.not_mem_nil
  | cons x path ih =>
      rw [List.splitOn_cons_eq_if_modifyHead] at hc
      split at hc
      · rcases List.mem_cons.mp hc with rfl | hc
        · exact List.not_mem_nil
        · exact ih hc
      · rename_i hx
        have hx' : slash ≠ x := fun h0 => hx (beq_iff_eq.mpr h0.symm)
        rcases hs : path.splitOn slash with - | ⟨d, ds⟩
        · exact absurd hs (List.splitOn_ne_nil slash path)
        · rw [hs, List.modifyHead_cons] at hc
          rcases List.mem_cons.mp hc with rfl | hc
          · have hd : slash ∉ d := ih (hs ▸ List.mem_cons_self)
            simp [hx', hd]
          · exact ih (hs ▸ List.mem_cons_of_mem _ hc)

theorem slash_not_mem_of_cut {path c : CStr} (hc : c ∈ cutAtSlashes path) : slash ∉ c := by
  rw [cutAtSlashes] at hc
  split at hc
  · exact slash_not_mem_of_splitOn (List.mem_of_mem_dropLast hc)
  · exact slash_not_mem_of_splitOn hc

/-- A path up to its first slash. -/
theorem CStr.firstSlash (path : CStr) :
    slash ∉ path ∨ ∃ t r, slash ∉ t ∧ path = t ++ slash :: r := by
  induction path with
  | nil => exact Or.inl List.not_mem_nil
  | cons x path ih =>
      by_cases hx : x = slash
      · exact Or.inr ⟨[], path, List.not_mem_nil, by rw [hx, List.nil_append]⟩
      · have hx' : ∀ {t : CStr}, slash ∉ t → slash ∉ x :: t := fun ht hmem =>
          (List.mem_cons.mp hmem).elim (fun h0 => hx h0.symm) ht
        rcases ih with hno | ⟨t, r, ht, rfl⟩
        · exact Or.inl (hx' hno)
        · exact Or.inr ⟨x :: t, r, hx' ht, rfl⟩

/-! ## One component -/

/-- The bytes of a buffer from a position on are those of a string, and then zeroes. -/
def Reads (path : Buffer) (p : ℕ) (t : CStr) : Prop := ∀ i, path (p + i) = t.getD i 0

section Buffer
variable {start : ℕ} {path : Buffer} {rest t : CStr}

/-- The string at a position. -/
theorem cstrAt_eq {p : ℕ} (ht : ∀ c ∈ t, c ≠ 0) (hle : p + t.length ≤ maxPath)
    (hbytes : ∀ i, i < t.length → path (p + i) = t.getD i 0)
    (hend : path (p + t.length) = 0) : cstrAt path p = t := by
  obtain ⟨k, hk⟩ := Nat.exists_eq_add_of_le hle
  have hsplit : maxPath - p = t.length + k := by omega
  have hfront : (List.range t.length).map (fun i => path (p + i)) = t := by
    apply List.ext_getElem
    · rw [List.length_map, List.length_range]
    · intro i h₁ h₂
      rw [List.getElem_map, List.getElem_range, hbytes i h₂, List.getD_eq_getElem]
  rw [cstrAt, hsplit, List.range_add, List.map_append, hfront,
    List.takeWhile_append_of_pos (by simpa using ht)]
  cases k with
  | zero => exact List.append_nil t
  | succ k =>
      rw [List.range_succ_eq_map]
      simp [hend]

theorem Reads.no_slash (h : Reads path start rest) (hno : slash ∉ rest) {i : ℕ} (hi : start ≤ i) :
    path i ≠ slash := by
  obtain ⟨k, rfl⟩ := Nat.exists_eq_add_of_le hi
  rw [h k]
  intro hk
  by_cases hlt : k < rest.length
  · rw [List.getD_eq_getElem _ _ hlt] at hk
    exact hno (hk ▸ List.getElem_mem hlt)
  · rw [List.getD_eq_default _ _ (Nat.not_lt.mp hlt)] at hk
    exact absurd hk (by decide)

theorem Reads.find_none (h : Reads path start rest) (hno : slash ∉ rest) :
    (List.range maxPath).find? (fun i => start ≤ i ∧ path i = slash) = none := by
  rw [List.find?_eq_none]
  intro i _
  simp only [decide_eq_true_eq, not_and]
  exact fun hi => h.no_slash hno hi

theorem Reads.find_slash {r : CStr} (h : Reads path start (t ++ slash :: r)) (ht : slash ∉ t)
    (hle : start + t.length < maxPath) :
    (List.range maxPath).find? (fun i => start ≤ i ∧ path i = slash) = some (start + t.length) := by
  rw [List.find?_range_eq_some]
  have hat : path (start + t.length) = slash := by
    rw [h]
    simp
  refine ⟨by simp [hat], List.mem_range.mpr hle, fun j hj => ?_⟩
  by_cases hs : start ≤ j
  · obtain ⟨k, rfl⟩ := Nat.exists_eq_add_of_le hs
    have hk : k < t.length := by omega
    have hne : path (start + k) ≠ slash := by
      rw [h, List.getD_eq_getElem _ _ (by simp; omega), List.getElem_append_left hk]
      exact fun h0 => ht (h0 ▸ List.getElem_mem hk)
    simp [hne]
  · simp [hs]

/-- Behind the end of a string there are zeroes. -/
theorem Reads.behind (h : Reads path start t) {i : ℕ} (hi : t.length ≤ i) :
    Reads path (start + i) [] := fun j => by
  rw [Nat.add_assoc, h, List.getD_eq_default _ _ (by omega), List.getD_nil]

/-- Behind a slash that has been cut out the path goes on. -/
theorem Reads.behind_slash {r : CStr} (h : Reads path start (t ++ slash :: r)) :
    Reads (Function.update path (start + t.length) 0) (start + t.length + 1) r := by
  intro i
  rw [Function.update_of_ne (by omega), show start + t.length + 1 + i =
    start + (t.length + (i + 1)) by omega, h, List.getD_append_right _ _ _ _ (by omega)]
  simp

/-- At the end of the path there is no component. -/
theorem getNextPath_end (h : Reads path start []) : getNextPath start path = none := by
  have hzero : path start = 0 := h 0
  have hdot : (0 : UInt8) ≠ dot := by decide
  rw [getNextPath, hzero, if_neg (fun hx => hdot hx.1), if_neg (fun hx => hdot hx.1),
    h.find_none List.not_mem_nil]
  exact if_neg (not_not.mpr rfl)

/-- **A component in front of a slash**, which becomes a zero. -/
theorem getNextPath_slash {r : CStr} (h : Reads path start (t ++ slash :: r)) (ht : slash ∉ t)
    (hz : ∀ c ∈ t ++ slash :: r, c ≠ 0) (hle : start + t.length < maxPath) :
    getNextPath start path =
      some (start, start + t.length, Function.update path (start + t.length) 0) := by
  have hne : ∀ i, i ≤ t.length → path (start + i) ≠ 0 := by
    intro i hi
    have hlt : i < (t ++ slash :: r).length := by
      rw [List.length_append, List.length_cons]
      omega
    rw [h, List.getD_eq_getElem _ _ hlt]
    exact hz _ (List.getElem_mem hlt)
  have hslash : path (start + t.length) = slash := by
    rw [h]
    simp
  have hsd : slash ≠ dot := by decide
  rw [getNextPath, if_neg, if_neg, h.find_slash ht hle]
  · rintro ⟨h0, h1, h2⟩
    rcases Nat.lt_trichotomy t.length 1 with hlt | hone | hgt
    · rw [Nat.lt_one_iff.mp hlt] at hslash
      exact hsd (hslash.symm.trans h0)
    · rw [hone] at hslash
      exact hsd (hslash.symm.trans h1)
    · exact hne 2 hgt h2
  · rintro ⟨h0, h1⟩
    rcases Nat.eq_zero_or_pos t.length with hzero | hpos
    · rw [hzero] at hslash
      exact hsd (hslash.symm.trans h0)
    · exact hne 1 hpos h1

/-- The bytes of the string `.`. -/
theorem dot_bytes (hz : ∀ c ∈ t, c ≠ 0) : t.getD 0 0 = dot ∧ t.getD 1 0 = 0 ↔ t = [dot] := by
  have hd : (0 : UInt8) ≠ dot := by decide
  rcases t with _ | ⟨x, _ | ⟨y, t⟩⟩
  · simp [hd]
  · simp
  · have hy : y ≠ 0 := hz y (by simp)
    simp [hy]

/-- The bytes of the string `..`. -/
theorem dots_bytes (hz : ∀ c ∈ t, c ≠ 0) :
    t.getD 0 0 = dot ∧ t.getD 1 0 = dot ∧ t.getD 2 0 = 0 ↔ t = [dot, dot] := by
  have hd : (0 : UInt8) ≠ dot := by decide
  rcases t with _ | ⟨x, _ | ⟨y, _ | ⟨z, t⟩⟩⟩
  · simp [hd]
  · simp [hd]
  · simp
  · have hy : z ≠ 0 := hz z (by simp)
    simp [hy]

/-- How far behind its end the last component leaves `*start`: the dots are looked for first. -/
def endSkip (t : CStr) : ℕ := if t = [dot] ∨ t = [dot, dot] then 0 else 1

/-- **The last component**. The next position is at its end or behind. -/
theorem getNextPath_last (h : Reads path start t) (ht : slash ∉ t) (hz : ∀ c ∈ t, c ≠ 0)
    (hne : t ≠ []) (hle : start + t.length ≤ maxPath) :
    getNextPath start path = some (start, start + (t.length + endSkip t), path) := by
  have hend : ∀ i, t.length ≤ i → path (start + i) = 0 := fun i hi => by
    rw [h, List.getD_eq_default _ _ hi]
  have hstr : cstrAt path start = t := cstrAt_eq hz hle (fun i _ => h i) (hend _ le_rfl)
  have hzero : path start = t.getD 0 0 := h 0
  have hfirst : path start ≠ 0 := by
    rw [hzero, List.getD_eq_getElem _ _ (List.length_pos_of_ne_nil hne)]
    exact hz _ (List.getElem_mem _)
  have hone : path start = dot ∧ path (start + 1) = 0 ↔ t = [dot] := by
    rw [hzero, h 1]
    exact dot_bytes hz
  have htwo : path start = dot ∧ path (start + 1) = dot ∧ path (start + 2) = 0 ↔
      t = [dot, dot] := by
    rw [hzero, h 1, h 2]
    exact dots_bytes hz
  rw [getNextPath, endSkip]
  simp only [hone, htwo]
  by_cases hd : t = [dot]
  · rw [if_pos hd, if_pos (Or.inl hd), hd]
    rfl
  by_cases hdd : t = [dot, dot]
  · rw [if_neg hd, if_pos hdd, if_pos (Or.inr hdd), hdd]
    rfl
  rw [if_neg hd, if_neg hdd, if_neg (not_or.mpr ⟨hd, hdd⟩), h.find_none ht, hstr]
  exact if_pos hfirst

end Buffer

/-! ## All components -/

/-- **The loop** collects the rest of the path, cut at its slashes, and does not change what
lies before. -/
theorem pathTab_cut {rounds : ℕ} : ∀ {start : ℕ} {path : Buffer} {rest : CStr},
    rest.length < rounds → (∀ c ∈ rest, c ≠ 0) → Reads path start rest →
    (rest ≠ [] → start + rest.length ≤ maxPath) →
    ∃ tab path', pathTab rounds start path = (tab, path') ∧
      tab.map (cstrAt path') = cutAtSlashes rest ∧ ∀ i, i < start → path' i = path i := by
  induction rounds with
  | zero => exact fun h => absurd h (Nat.not_lt_zero _)
  | succ rounds ih =>
      intro start path rest hlt hz h hle
      rcases rest.firstSlash with hno | ⟨t, r, ht, rfl⟩
      · by_cases hne : rest = []
        · subst hne
          rw [pathTab, getNextPath_end h]
          exact ⟨[], path, rfl, rfl, fun _ _ => rfl⟩
        · have hnext := getNextPath_last h hno hz hne (hle hne)
          have hrest := h.behind (i := rest.length + endSkip rest + 1) (by omega)
          rw [← Nat.add_assoc start] at hrest
          have hpos := List.length_pos_of_ne_nil hne
          obtain ⟨tab, path', htab, hmap, hsame⟩ := ih (by simpa using by omega)
            (fun c hc => absurd hc List.not_mem_nil) hrest (fun h0 => absurd rfl h0)
          refine ⟨start :: tab, path', ?_, ?_, fun i hi => hsame i (by omega)⟩
          · rw [pathTab, hnext]
            dsimp only
            rw [htab]
          · have hhead : cstrAt path' start = rest := by
              refine cstrAt_eq hz (hle hne) (fun i hi => ?_) ?_
              · rw [hsame _ (by omega), h]
              · rw [hsame _ (by omega), h, List.getD_eq_default _ _ le_rfl]
            rw [List.map_cons, hmap, hhead, cutAtSlashes_last hno hne]
            rfl
      · have hlen : (t ++ slash :: r).length = t.length + (r.length + 1) := by
          rw [List.length_append, List.length_cons]
        have hle' : start + (t.length + (r.length + 1)) ≤ maxPath := hlen ▸ hle (by simp)
        have hnext := getNextPath_slash h ht hz (by omega)
        have hbehind := h.behind_slash
        obtain ⟨tab, path', htab, hmap, hsame⟩ := ih (by omega)
          (fun c hc => hz c (List.mem_append_right _ (List.mem_cons_of_mem _ hc))) hbehind
          fun _ => by omega
        have hbefore : ∀ i, i < start + t.length → path' i = path i := by
          intro i hi
          rw [hsame i (by omega), Function.update_of_ne (by omega)]
        refine ⟨start :: tab, path', ?_, ?_, fun i hi => hbefore i (by omega)⟩
        · rw [pathTab, hnext]
          dsimp only
          rw [htab]
        · have hhead : cstrAt path' start = t := by
            refine cstrAt_eq (fun c hc => hz c (List.mem_append_left _ hc)) (by omega)
              (fun i hi => ?_) ?_
            · rw [hbefore _ (by omega), h, List.getD_append _ _ _ _ hi]
            · rw [hsame _ (by omega), Function.update_self]
          rw [List.map_cons, hmap, hhead, cutAtSlashes_slash ht]

/-- **The components of a path** that fits into the buffer: it is cut at its slashes. -/
theorem components_eq {path : CStr} (hz : ∀ c ∈ path, c ≠ 0) (hle : path.length ≤ maxPath) :
    components path = cutAtSlashes path := by
  have hreads : Reads (pathBuffer path) 0 path := fun i => by rw [pathBuffer, Nat.zero_add]
  obtain ⟨tab, path', htab, hmap, -⟩ :=
    pathTab_cut (Nat.lt_succ_of_le hle) hz hreads fun _ => by rwa [Nat.zero_add]
  rw [components, htab]
  exact hmap

end OxKernel.Fs
