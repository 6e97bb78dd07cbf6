import OxKernel.Fs.PathBuffers

/-!
# Calls that stay inside the path buffers

The lengths for which no access of `inode_get`, `kreadlink`, `inode_create` or `inode_free` is
outside a buffer, as far as the path is made absolute and cut into its components. They depend on
the names of the directories above the current one, on the length of the path, and on what it ends
with.

## Main definitions

* `BufferCall.Law` — no access is outside, and what does not fit is refused.
* `BufferCall.Fits` — the lengths.
* `namesAbove` — the names of the directories above one, on a disk.

## Main results

* `BufferCall.law_iff` — the law holds of exactly the calls that fit.
* `krealpath_eq_realpathTo` — on a disk, the names are those that `krealpath` reads.
-/
namespace OxKernel.Fs

open Lib (Call Traced)

/-! ## The components of the result -/

/-- No component is `.` or `..`, and the last one is not empty, so nothing but a slash at the end
is left out of the path. -/
def Straight (path : CStr) : Prop :=
  [dot] ∉ cutAtSlashes path ∧ [dot, dot] ∉ cutAtSlashes path ∧
    (cutAtSlashes path).getLast? ≠ some []

section Result
variable {cs : List CStr} {path : CStr}

theorem lastSkip_of_last {c : CStr} (h : (path.splitOn slash).getLast? = some c) :
    lastSkip path = if c = [] then 0 else endSkip c + 1 := by
  rw [lastSkip, h]
  cases c <;> rfl

theorem lastSkip_le (path : CStr) : lastSkip path ≤ 2 := by
  rw [lastSkip]
  split
  · omega
  · omega
  · rw [endSkip]
    split <;> omega

/-- Where no component is special, all are left. -/
theorem leaves_self (h : [dot] ∉ cs) (h' : [dot, dot] ∉ cs) : leaves cs = cs := by
  induction cs using List.reverseRecOn with
  | nil => rfl
  | append_singleton cs c ih =>
      simp only [List.mem_append, List.mem_singleton, not_or] at h h'
      rw [leaves_concat, ih h.1 h'.1, normalizeStep_push (fun h0 => h.2 h0.symm)
        fun h0 => h'.2 h0.symm]

/-- No special component is left. -/
theorem leaves_sublist_filter (cs : List CStr) :
    (leaves cs).Sublist (cs.filter fun c => c ≠ [dot] ∧ c ≠ [dot, dot]) := by
  induction cs using List.reverseRecOn with
  | nil => exact List.Sublist.refl _
  | append_singleton cs c ih =>
      rw [leaves_concat, List.filter_append]
      rcases component_cases c with rfl | rfl | ⟨h, h'⟩
      · rw [normalizeStep_dot]
        exact ih.trans (List.sublist_append_left _ _)
      · rw [normalizeStep_dots]
        exact ((List.dropLast_sublist _).trans ih).trans (List.sublist_append_left _ _)
      · have hone : [c].filter (fun c => c ≠ [dot] ∧ c ≠ [dot, dot]) = [c] := by simp [h, h']
        rw [normalizeStep_push h h', hone]
        exact ih.append_right _

/-- A special component takes at least two characters with it. -/
theorem span_leaves {c : CStr} (hc : c ∈ cs) (hspecial : c = [dot] ∨ c = [dot, dot]) :
    span (leaves cs) + 2 ≤ span cs := by
  have hle := span_sublist (leaves_sublist_filter cs)
  obtain ⟨a, b, rfl⟩ := List.append_of_mem hc
  have hpos : 1 ≤ c.length := by
    rcases hspecial with rfl | rfl <;> decide
  rw [List.filter_append, List.filter_cons_of_neg, span_append] at hle
  swap
  · rcases hspecial with rfl | rfl <;> decide
  have hrest := hle.trans (Nat.add_le_add (span_sublist List.filter_sublist)
    (span_sublist List.filter_sublist))
  rw [span_append, span_cons]
  omega

theorem cutAtSlashes_cases (path : CStr) :
    (path.splitOn slash).getLast? = some [] ∧ path.splitOn slash = cutAtSlashes path ++ [[]] ∨
      (path.splitOn slash).getLast? ≠ some [] ∧ cutAtSlashes path = path.splitOn slash := by
  rw [cutAtSlashes]
  split
  · rename_i hlast
    obtain ⟨cs, hcs⟩ := List.getLast?_eq_some_iff.mp hlast
    exact Or.inl ⟨hlast, by rw [hcs, List.dropLast_concat]⟩
  · rename_i hlast
    exact Or.inr ⟨hlast, rfl⟩

theorem cutAtSlashes_ne_nil (hhead : path.head? = some slash) : cutAtSlashes path ≠ [] := by
  obtain ⟨r, rfl⟩ := List.head?_eq_some_iff.mp hhead
  rw [← List.nil_append (slash :: r), cutAtSlashes_slash List.not_mem_nil]
  exact List.cons_ne_nil _ _

/-- With a special component the result is short. -/
theorem assemble_fits_of_special
    (hspecial : [dot] ∈ cutAtSlashes path ∨ [dot, dot] ∈ cutAtSlashes path)
    (hfit : path.length + lastSkip path < maxPath) :
    (assemble (leaves (cutAtSlashes path))).length +
      lastSkip (assemble (leaves (cutAtSlashes path))) < maxPath := by
  have hcut := span_sublist (cut_sublist path)
  rw [span_splitOn] at hcut
  have hspan : span (leaves (cutAtSlashes path)) + 2 ≤ span (cutAtSlashes path) := by
    rcases hspecial with h | h
    · exact span_leaves h (Or.inl rfl)
    · exact span_leaves h (Or.inr rfl)
  rw [assemble_eq]
  split
  · decide
  · rename_i hne
    have h0 : leaves (cutAtSlashes path) ≠ [] := fun h0 => hne (by rw [h0]; rfl)
    rw [span_eq h0] at hspan
    have hskip := lastSkip_le ([slash].intercalate (leaves (cutAtSlashes path)))
    omega

/-- Without one it is the path up to a slash at its end. -/
theorem assemble_fits_iff
    (hplain : ¬ ([dot] ∈ cutAtSlashes path ∨ [dot, dot] ∈ cutAtSlashes path))
    (hhead : path.head? = some slash) (hfit : path.length + lastSkip path < maxPath) :
    (assemble (cutAtSlashes path)).length + lastSkip (assemble (cutAtSlashes path)) < maxPath ↔
      ¬ (path.length + 1 = maxPath ∧ Straight path) := by
  have hne := cutAtSlashes_ne_nil hhead
  have hlen := span_eq hne
  rw [assemble_eq]
  obtain ⟨c, hc⟩ : ∃ c, (cutAtSlashes path).getLast? = some c :=
    ⟨_, List.getLast?_eq_some_getLast hne⟩
  have hmem := List.mem_of_getLast? hc
  have hskip : endSkip c = 1 := by
    refine if_neg fun h => hplain ?_
    rcases h with rfl | rfl
    · exact Or.inl hmem
    · exact Or.inr hmem
  rcases cutAtSlashes_cases path with ⟨-, hsplit⟩ | ⟨hlast, hsplit⟩
  · -- The slash at the end is left out.
    have hspan := span_splitOn path
    rw [hsplit, span_append, span_cons, hlen, List.length_nil] at hspan
    have hnil : span [] = 0 := rfl
    have hback : ([slash].intercalate (cutAtSlashes path)).splitOn slash = cutAtSlashes path :=
      List.splitOn_intercalate slash (fun c hc => slash_not_mem_of_cut hc) hne
    split
    · rename_i hempty
      rw [hempty, List.splitOn_nil] at hback
      have hcurved : ¬ Straight path := fun h => h.2.2 (by rw [← hback]; rfl)
      simp only [hcurved, and_false, not_false_eq_true, iff_true]
      decide
    · rw [lastSkip_of_last (hback ▸ hc), Straight, hc, hskip]
      by_cases hc0 : c = []
      · simp only [hc0, if_true, ne_eq, not_true_eq_false, and_false, not_false_eq_true, iff_true]
        omega
      · have hstraight : [dot] ∉ cutAtSlashes path ∧ [dot, dot] ∉ cutAtSlashes path :=
          not_or.mp hplain
        simp only [hc0, if_false, hstraight, ne_eq, Option.some.injEq, not_false_eq_true,
          and_true]
        omega
  · -- All of the path is left.
    have hpath : path ≠ [] := fun h0 => by
      rw [h0] at hhead
      cases hhead
    rw [hsplit] at hc ⊢
    have hc0 : c ≠ [] := fun h0 => hlast (by rw [hc, h0])
    have htwo := lastSkip_of_last hc
    rw [if_neg hc0, hskip] at htwo
    rw [List.intercalate_splitOn, if_neg hpath]
    exact ⟨fun _ h => by omega, fun _ => hfit⟩

/-- **The result** of `krealpath` can be cut, too, unless all of a path of 255 characters but
the slash at its end is left. -/
theorem normalize_fits (hz : ∀ c ∈ path, c ≠ 0) (hhead : path.head? = some slash)
    (hfit : path.length + lastSkip path < maxPath) :
    (normalize path).length + lastSkip (normalize path) < maxPath ↔
      ¬ (path.length + 1 = maxPath ∧ Straight path) := by
  have hnorm : normalize path = assemble (leaves (cutAtSlashes path)) := by
    rw [normalize, components_eq hz (by omega), leaves]
  rw [hnorm]
  by_cases hspecial : [dot] ∈ cutAtSlashes path ∨ [dot, dot] ∈ cutAtSlashes path
  · have hcurved : ¬ Straight path := fun h => hspecial.elim h.1 h.2.1
    exact iff_of_true (assemble_fits_of_special hspecial hfit) fun h => hcurved h.2
  · rw [leaves_self (fun h => hspecial (Or.inl h)) fun h => hspecial (Or.inr h)]
    exact assemble_fits_iff hspecial hhead hfit

end Result

/-! ## Single calls -/

/-- A call with a path. -/
inductive BufferCall
  | get (path : CStr)
  | readlink (path : CStr)
  | create (path : CStr) (lpath : Option CStr)
  | free (path : CStr)

/-- The paths whose length the call checks. -/
def BufferCall.paths : BufferCall → List CStr
  | .get path => [path]
  | .readlink _ => []
  | .create path lpath => path :: lpath.toList
  | .free path => [path]

/-- All paths of a call are strings. -/
def BufferCall.Strings : BufferCall → Prop
  | .readlink path => ∀ c ∈ path, c ≠ 0
  | call => ∀ p ∈ call.paths, ∀ c ∈ p, c ≠ 0

/-- What the call touches until its path is cut into components, but for the calls of other path
functions. `kreadlink` makes the path in a link absolute; `strncpy` has put that path into a buffer
of the size of the one in the link. -/
def BufferCall.run (names : List CStr) : BufferCall → PathM CStr
  | .get path => getTo names path
  | .readlink path => realpathTo .resPath names path
  | .create path lpath => createTo names path lpath
  | .free path => freeTo path

/-- What is asked of a call: no access is outside a buffer, and a path that does not fit into a
buffer is refused before anything is touched. -/
structure BufferCall.Law (names : List CStr) (call : BufferCall) : Prop where
  inside : (call.run names).All Touch.Inside
  refused : ∀ p ∈ call.paths, maxPath ≤ p.length → (call.run names).trace = []

/-- The components of the result are found inside the buffer. -/
def ResFits (names : List CStr) (path : CStr) : Prop :=
  ¬ ((fullOf names path).length + 1 = maxPath ∧ Straight (fullOf names path))

/-- A path that is refused, or one with which every length fits. -/
def GetFits (names : List CStr) (path : CStr) : Prop :=
  maxPath < path.length ∨ path.length ≠ maxPath ∧ RealFits names path ∧ ResFits names path

/-- The path from the root is not refused. -/
def Accepted (names : List CStr) (path : CStr) : Prop := (fullOf names path).length ≤ maxPath

/-- Paths of which one is refused, or with which every length fits. The path of a link is made
absolute if the other one was not refused. -/
def CreateFits (names : List CStr) (path : CStr) (lpath : Option CStr) : Prop :=
  (∃ p ∈ path :: lpath.toList, maxPath < p.length) ∨
    (∀ p ∈ path :: lpath.toList, p.length ≠ maxPath) ∧ RealFits names path ∧
      (Accepted names path → (∀ l ∈ lpath, RealFits names l) ∧
        ((∀ l ∈ lpath, Accepted names l) → ResFits names path))

/-- The lengths of a call for which everything fits. -/
def BufferCall.Fits (names : List CStr) : BufferCall → Prop
  | .get path => GetFits names path
  | .readlink path => RealFits names path
  | .create path lpath => CreateFits names path lpath
  | .free path => path.length ≠ maxPath

section Calls
variable {names : List CStr} {path : CStr} {lpath : Option CStr}

theorem frontOf_nonzero (hnames : ∀ n ∈ names, ∀ c ∈ n, c ≠ 0) {tmp : CStr}
    (htmp : ∀ c ∈ tmp, c ≠ 0) : ∀ c ∈ frontOf tmp names, c ≠ 0 := by
  induction names generalizing tmp with
  | nil => exact htmp
  | cons name names ih =>
      refine ih (fun n hn => hnames n (List.mem_cons_of_mem _ hn)) fun c hc => ?_
      rcases List.mem_cons.mp hc with rfl | hc
      · decide
      · rcases List.mem_append.mp hc with hc | hc
        · exact hnames name List.mem_cons_self c hc
        · exact htmp c hc

theorem fullOf_nonzero (hnames : ∀ n ∈ names, ∀ c ∈ n, c ≠ 0) (hz : ∀ c ∈ path, c ≠ 0) :
    ∀ c ∈ fullOf names path, c ≠ 0 := by
  by_cases hslash : path.head? = some slash
  · rw [fullOf_absolute hslash]
    exact hz
  · rw [fullOf_relative hslash]
    intro c hc
    rcases List.mem_append.mp hc with hc | hc
    · exact frontOf_nonzero hnames (fun c hc => absurd hc List.not_mem_nil) c hc
    · rcases List.mem_cons.mp hc with rfl | hc
      · decide
      · exact hz c hc

theorem fullOf_head (names : List CStr) (path : CStr) : (fullOf names path).head? = some slash := by
  by_cases hslash : path.head? = some slash
  · rw [fullOf_absolute hslash, hslash]
  · rw [fullOf_relative hslash]
    have hfront : ∀ tmp : CStr, tmp = [] ∨ tmp.head? = some slash →
        frontOf tmp names = [] ∨ (frontOf tmp names).head? = some slash := by
      induction names with
      | nil => exact fun tmp h => h
      | cons name names ih => exact fun tmp h => ih _ (Or.inr rfl)
    rcases hfront [] (Or.inl rfl) with h | h
    · rw [h]
      rfl
    · rw [List.head?_append, h]
      rfl

/-- The result has only characters of the path. -/
theorem normalize_sublist (hz : ∀ c ∈ path, c ≠ 0) (hle : path.length ≤ maxPath)
    (hhead : path.head? = some slash) : (normalize path).Sublist path := by
  rw [normalize, components_eq hz hle, ← leaves, assemble_eq]
  split
  · obtain ⟨r, rfl⟩ := List.head?_eq_some_iff.mp hhead
    exact (List.nil_sublist r).cons_cons slash
  · exact intercalate_sublist ((leaves_sublist (cutAtSlashes path)).trans (cut_sublist path))

theorem ResFits.of_refused (h : ¬ Accepted names path) : ResFits names path := fun hfull => by
  rw [Accepted] at h
  omega

/-- The end of a call, where the path from the root fits. -/
theorem tokenize_result {b b' : PathBuf} (hz : ∀ c ∈ fullOf names path, c ≠ 0)
    (hfits : RealFits names path) :
    (∀ res, (realpathTo b names path).value = some res →
      (tokenize b' (maxPath + 1) 0 0 (pathBuffer res)).All Touch.Inside) ↔ ResFits names path := by
  rw [realpathTo_value]
  by_cases hacc : Accepted names path
  · have hlt := hfits.full.resolve_left (Nat.not_lt.mpr hacc)
    have hhead := fullOf_head names path
    have hsub := normalize_sublist hz hacc hhead
    have hlen := hsub.length_le
    simp only [if_pos (show (fullOf names path).length ≤ maxPath from hacc), Option.some.injEq,
      forall_eq']
    rw [tokenize_path (fun c hc => hz c (hsub.subset hc)) (by omega)]
    exact normalize_fits hz hhead hlt
  · rw [if_neg (show ¬ (fullOf names path).length ≤ maxPath from hacc)]
    exact ⟨fun _ => .of_refused hacc, fun _ res hres => by cases hres⟩

theorem realpathTo_some {b : PathBuf} :
    (∃ res, (realpathTo b names path).value = some res) ↔ Accepted names path := by
  rw [realpathTo_value, Accepted]
  split
  · rename_i h
    exact iff_of_true ⟨_, rfl⟩ h
  · rename_i h
    exact iff_of_false (fun ⟨r, hr⟩ => by cases hr) h

theorem getTo_all (hnames : ∀ n ∈ names, ∀ c ∈ n, c ≠ 0) (hz : ∀ c ∈ path, c ≠ 0) :
    (getTo names path).All Touch.Inside ↔ GetFits names path := by
  have hfz := fullOf_nonzero hnames hz
  rw [getTo, GetFits]
  by_cases hle : path.length ≤ maxPath
  · simp only [Traced.all_bind, Traced.all_require, Traced.value_require, if_pos hle, true_and,
      forall_const, copyTo_all, copyTo_value, realpathTo_all hfz, Option.some.injEq, forall_eq',
      tokenize_value, Traced.all_pure, implies_true, and_true]
    constructor
    · rintro ⟨hlt, hfits, hres⟩
      exact Or.inr ⟨by omega, hfits, (tokenize_result hfz hfits).mp hres⟩
    · rintro (hlt | ⟨hne, hfits, hres⟩)
      · omega
      · exact ⟨by omega, hfits, (tokenize_result hfz hfits).mpr hres⟩
  · have hlt := Nat.lt_of_not_le hle
    simp [hle, hlt]

theorem freeTo_all : (freeTo path).All Touch.Inside ↔ path.length ≠ maxPath := by
  rw [freeTo]
  by_cases hle : path.length ≤ maxPath
  · simp only [Traced.all_bind, Traced.all_require, Traced.value_require, if_pos hle, true_and,
      forall_const, copyTo_all]
    omega
  · have hne : path.length ≠ maxPath := by omega
    simp [hle, hne]

theorem linkTo_all (hnames : ∀ n ∈ names, ∀ c ∈ n, c ≠ 0) (hz : ∀ l ∈ lpath, ∀ c ∈ l, c ≠ 0) :
    (linkTo names lpath).All Touch.Inside ↔ ∀ l ∈ lpath, RealFits names l := by
  cases lpath with
  | none => simp [linkTo]
  | some l =>
      have hfz := fullOf_nonzero hnames (hz l rfl)
      simp [linkTo, realpathTo_all hfz]

theorem linkTo_value (names : List CStr) (lpath : Option CStr) :
    (linkTo names lpath).value = some () ↔ ∀ l ∈ lpath, Accepted names l := by
  cases lpath with
  | none => simp [linkTo]
  | some l =>
      simp only [linkTo, Traced.value_bind, realpathTo_value, Option.mem_def, Option.some.injEq,
        forall_eq', Accepted]
      split
      · rename_i h
        simp [h]
      · rename_i h
        simp [h]

theorem createTo_all (hnames : ∀ n ∈ names, ∀ c ∈ n, c ≠ 0) (hz : ∀ c ∈ path, c ≠ 0)
    (hzl : ∀ l ∈ lpath, ∀ c ∈ l, c ≠ 0) (hle : path.length ≤ maxPath)
    (hlel : ∀ l ∈ lpath, l.length ≤ maxPath) :
    (createTo names path lpath).All Touch.Inside ↔ path.length ≠ maxPath ∧ RealFits names path ∧
      (Accepted names path → (∀ l ∈ lpath, RealFits names l) ∧
        ((∀ l ∈ lpath, Accepted names l) → ResFits names path)) := by
  have hfz := fullOf_nonzero hnames hz
  rw [createTo]
  simp only [Traced.all_bind, Traced.all_require, Traced.value_require, if_pos hle, if_pos hlel,
    true_and, forall_const, copyTo_all, copyTo_value, realpathTo_all hfz, Option.some.injEq,
    forall_eq', tokenize_value, Traced.all_pure, implies_true, and_true, linkTo_all hnames hzl]
  refine and_congr (by omega) (and_congr_right fun hfits => ?_)
  rw [← @tokenize_result names path .resPath .resPath hfz hfits]
  constructor
  · intro h hacc
    obtain ⟨res, hres⟩ := (realpathTo_some (b := .resPath)).mpr hacc
    refine ⟨(h res hres).1, fun hlink res' hres' => ?_⟩
    exact (h res' hres').2 () ((linkTo_value names lpath).mpr hlink)
  · intro h res hres
    obtain ⟨hlink, hrest⟩ := h (realpathTo_some.mp ⟨res, hres⟩)
    exact ⟨hlink, fun _ hval => hrest ((linkTo_value names lpath).mp hval) res hres⟩

/-- A call whose path is too long is refused before it touches anything. -/
theorem getTo_refused (h : maxPath < path.length) : (getTo names path).trace = [] := by
  have hle := Nat.not_le.mpr h
  rw [getTo, Traced.require, if_neg hle]
  rfl

theorem freeTo_refused (h : maxPath < path.length) : (freeTo path).trace = [] := by
  have hle := Nat.not_le.mpr h
  rw [freeTo, Traced.require, if_neg hle]
  rfl

theorem createTo_refused (h : ∃ p ∈ path :: lpath.toList, maxPath < p.length) :
    (createTo names path lpath).trace = [] := by
  obtain ⟨p, hp, hlt⟩ := h
  have hle := Nat.not_le.mpr hlt
  rw [createTo, Traced.require, Traced.require]
  by_cases hpath : path.length ≤ maxPath
  · have hl : ¬ ∀ l ∈ lpath, l.length ≤ maxPath := by
      rcases List.mem_cons.mp hp with rfl | hp
      · exact absurd hpath hle
      · exact fun hall => hle (hall p (Option.mem_toList.mp hp))
    rw [if_pos hpath, if_neg hl]
    rfl
  · rw [if_neg hpath]
    rfl

/-- A call that is not refused touches `in_path`. -/
theorem createTo_touches (hle : path.length ≤ maxPath) (hlel : ∀ l ∈ lpath, l.length ≤ maxPath) :
    (createTo names path lpath).trace ≠ [] := by
  rw [createTo, Ne, Traced.trace_eq_nil]
  simp only [Traced.all_bind, Traced.all_require, Traced.value_require, if_pos hle, if_pos hlel,
    true_and, forall_const, copyTo, Traced.all_touch]
  rintro ⟨⟨hall, -⟩, -⟩
  exact hall (.inPath, 0 + 0) (List.mem_map.mpr ⟨0, List.mem_range.mpr (Nat.succ_pos _), rfl⟩)

/-- **No access of a call is outside a buffer** for exactly those whose lengths fit. -/
theorem BufferCall.law_iff {call : BufferCall} (hnames : ∀ n ∈ names, ∀ c ∈ n, c ≠ 0)
    (hz : call.Strings) : call.Law names ↔ call.Fits names := by
  cases call with
  | readlink path =>
      have hall := realpathTo_all (b := .resPath) (fullOf_nonzero hnames hz)
      exact ⟨fun h => hall.mp h.inside, fun h => ⟨hall.mpr h, fun p hp => absurd hp List.not_mem_nil⟩⟩
  | get path =>
      have hall := getTo_all hnames (hz path List.mem_cons_self)
      refine ⟨fun h => hall.mp h.inside, fun h => ⟨hall.mpr h, fun p hp hlong => ?_⟩⟩
      rw [List.mem_singleton.mp hp] at hlong
      exact getTo_refused (by rcases h with h | h <;> omega)
  | free path =>
      have hall : (freeTo path).All Touch.Inside ↔ path.length ≠ maxPath := freeTo_all
      refine ⟨fun h => hall.mp h.inside, fun h => ⟨hall.mpr h, fun p hp hlong => ?_⟩⟩
      rw [List.mem_singleton.mp hp] at hlong
      exact freeTo_refused (Nat.lt_of_le_of_ne hlong (Ne.symm h))
  | create path lpath =>
      by_cases hlong : ∃ p ∈ path :: lpath.toList, maxPath < p.length
      · have hnil : (createTo names path lpath).trace = [] := createTo_refused hlong
        refine iff_of_true ⟨fun t ht => ?_, fun _ _ _ => hnil⟩ (Or.inl hlong)
        rw [show (BufferCall.create path lpath).run names = createTo names path lpath from rfl,
          hnil] at ht
        exact absurd ht List.not_mem_nil
      · have hle : ∀ p ∈ path :: lpath.toList, p.length ≤ maxPath := fun p hp =>
          Nat.le_of_not_lt fun hlt => hlong ⟨p, hp, hlt⟩
        have hpath := hle path List.mem_cons_self
        have hlink : ∀ l ∈ lpath, l.length ≤ maxPath := fun l hl =>
          hle l (List.mem_cons_of_mem _ (Option.mem_toList.mpr hl))
        have hall := createTo_all hnames (hz path List.mem_cons_self)
          (fun l hl => hz l (List.mem_cons_of_mem _ (Option.mem_toList.mpr hl))) hpath hlink
        have htouch : (createTo names path lpath).trace ≠ [] := createTo_touches hpath hlink
        constructor
        · rintro ⟨hin, hrefused⟩
          refine Or.inr ⟨fun p hp heq => htouch (hrefused p hp heq.ge), ?_⟩
          exact (hall.mp hin).2
        · rintro (h | ⟨hne, hrest⟩)
          · exact absurd h hlong
          · refine ⟨hall.mpr ⟨hne path List.mem_cons_self, hrest⟩, fun p hp hge => ?_⟩
            exact absurd ((hle p hp).antisymm hge) (hne p hp)

end Calls

/-! ## On a disk -/

/-- The names of the directories from one up to the root, without that of the root: a number of
them that no buffer holds, if there are more. -/
def namesAbove (d : BlockNo → Sector) (root : BlockNo) : ℕ → BlockNo → List CStr
  | 0, _ => []
  | rounds + 1, b =>
    if b = root then []
    else (inodeAt d b).name :: namesAbove d root rounds (inodeAt d b).parent

section Disk
variable {dev : DevNo} {root cwd b : BlockNo} {d : BlockNo → Sector} {rounds fuel : ℕ}
  {path : CStr} {s : Names Disk}

theorem namesAbove_nonzero : ∀ n ∈ namesAbove d root rounds b, ∀ c ∈ n, c ≠ 0 := by
  induction rounds generalizing b with
  | zero => exact fun n hn => absurd hn List.not_mem_nil
  | succ rounds ih =>
      rw [namesAbove]
      split
      · exact fun n hn => absurd hn List.not_mem_nil
      · exact List.forall_mem_cons.mpr ⟨cstr_nonzero _, ih⟩

/-- The loop up to the root gives up before the names run out. -/
theorem cwdPath_eq_cwdFront (tmp : CStr) (htmp : tmp.length ≤ maxPath)
    (hrounds : maxPath < tmp.length + rounds) (hfuel : rounds < fuel) :
    cwdPath flatStore dev root fuel b tmp s =
      (ofOption (cwdFront tmp (namesAbove (s.fs.store dev) root rounds b)).value : NameM Disk CStr)
        s := by
  induction rounds generalizing b tmp fuel with
  | zero => omega
  | succ rounds ih =>
      obtain ⟨fuel, rfl⟩ : ∃ k, fuel = k + 1 := ⟨fuel - 1, by omega⟩
      rw [cwdPath, namesAbove]
      by_cases hb : b = root
      · rw [if_pos hb, if_pos hb]
        rfl
      · rw [if_neg hb, if_neg hb, Call.bind_of_ok (readInode_flat ..), cwdFront]
        simp only [Traced.value_bind, pushFrontTo_value]
        by_cases hfirst : tmp.length + (inodeAt (s.fs.store dev) b).name.length ≤ maxPath
        · rw [pushFront_of_le hfirst, Call.bind_of_ok rfl, Option.bind_some]
          by_cases hsecond : ((inodeAt (s.fs.store dev) b).name ++ tmp).length + [slash].length ≤
              maxPath
          · rw [pushFront_of_le hsecond, Call.bind_of_ok rfl, Option.bind_some]
            rw [List.length_append, List.length_singleton] at hsecond
            refine ih _ ?_ ?_ (Nat.lt_of_succ_lt_succ hfuel)
            · simp only [List.singleton_append, List.length_cons, List.length_append]
              omega
            · simp only [List.singleton_append, List.length_cons, List.length_append]
              omega
          · rw [pushFront_of_lt (Nat.lt_of_not_le hsecond)]
            rfl
        · rw [pushFront_of_lt (Nat.lt_of_not_le hfirst)]
          rfl

/-- **On a disk**, `krealpath` returns what the names of the directories above the current one
make of the path. -/
theorem krealpath_eq_realpathTo (buf : PathBuf) (path : CStr) (hfuel : maxPath + 1 < fuel) :
    krealpath flatStore dev root fuel cwd path s =
      (ofOption (realpathTo buf (namesAbove (s.fs.store dev) root (maxPath + 1) cwd) path).value :
        NameM Disk CStr) s := by
  have hcwd : cwdPath flatStore dev root fuel cwd [] s =
      (ofOption (cwdFront [] (namesAbove (s.fs.store dev) root (maxPath + 1) cwd)).value :
        NameM Disk CStr) s :=
    cwdPath_eq_cwdFront [] (Nat.zero_le _) (by rw [List.length_nil]; omega) hfuel
  generalize namesAbove (s.fs.store dev) root (maxPath + 1) cwd = names at hcwd ⊢
  rw [realpathTo_value]
  by_cases hslash : path.head? = some slash
  · rw [fullOf_absolute hslash]
    by_cases hle : path.length ≤ maxPath
    · rw [if_pos hle, krealpath_absolute hslash hle]
      rfl
    · have hno : ¬ ([] : CStr).length + path.length ≤ maxPath := by
        rw [List.length_nil, Nat.zero_add]
        exact hle
      rw [if_neg hle, krealpath, if_pos hslash]
      exact (Call.bind_of_ok rfl).trans (Call.bind_of_error (Call.require_of_neg hno))
  · rw [fullOf_relative hslash, krealpath, if_neg hslash]
    rw [cwdFront_value [] names (Nat.zero_le _)] at hcwd
    have hlen : (frontOf [] names ++ slash :: path).length =
        (frontOf [] names).length + 1 + path.length := by
      rw [List.length_append, List.length_cons]
      omega
    by_cases hfront : (frontOf [] names).length + 1 ≤ maxPath
    · have hpush : pushFront [] (frontOf [] names ++ [slash]) =
          some (frontOf [] names ++ [slash]) := by
        rw [pushFront_of_le, List.append_nil]
        rwa [List.length_nil, Nat.zero_add, List.length_append, List.length_singleton]
      rw [if_pos (by omega)] at hcwd
      rw [Call.bind_of_ok hcwd, Call.bind_of_ok (Call.require_of_pos hfront), hpush,
        Call.bind_of_ok rfl]
      dsimp only
      rw [Call.require_bind_apply, List.append_assoc, List.singleton_append, hlen,
        List.length_append, List.length_singleton]
      split <;> rfl
    · rw [hlen, if_neg (by omega)]
      by_cases hle : (frontOf [] names).length ≤ maxPath
      · rw [if_pos hle] at hcwd
        rw [Call.bind_of_ok hcwd]
        exact Call.bind_of_error (Call.require_of_neg hfront)
      · rw [if_neg hle] at hcwd
        exact Call.bind_of_error hcwd

/-- What `krealpath` makes of a string is one. -/
theorem krealpath_nonzero (hz : ∀ c ∈ path, c ≠ 0) :
    (krealpath flatStore dev root fuel cwd path : NameM Disk CStr).Returns
      fun res => ∀ c ∈ res, c ≠ 0 := by
  intro s res s' h
  obtain ⟨full, hfull, hle, rfl⟩ := krealpath_ok h
  have hnz := hfull.nonzero hz
  exact fun c hc => hnz c ((normalize_sublist hnz hle hfull.head).subset hc)

end Disk

end OxKernel.Fs
