import OxKernel.Fs.Components
import OxKernel.Fs.Resolve

/-!
# Absolute paths

What `krealpath` makes of a path, compared with lexical normalisation: cut the path at its
slashes, leave out the empty components and `.`, and let each `..` take the component before
it away, or nothing at the root.

`krealpath` keeps the empty component before a leading slash in the place of the root. A `..`
can take it away, and then the result does not start with a slash any more; and it keeps the
empty components between two slashes.

## Main definitions

* `normalForm`, `NormalPath` — lexical normalisation, and the paths that are in normal form.
* `FullPath` — the path that a path stands for, from the root.
* `RealpathLaw` — the result is in normal form, is the normal form of the path, and does not
  change any more.
* `Grounded`, `Sound` — the paths for which that is so.

## Main results

* `krealpath_law_iff` — the law holds of exactly the sound paths.
-/
namespace OxKernel.Fs

open Lib (Call)

/-! ## Lexical normalisation -/

/-- A component of a path in normal form. -/
def dropStep (path : List CStr) (c : CStr) : List CStr :=
  if c = [] ∨ c = [dot] then path else if c = [dot, dot] then path.dropLast else path ++ [c]

/-- The components that are left. -/
def names (cs : List CStr) : List CStr := cs.foldl dropStep []

/-- A path from the root, of its components. -/
def rooted (cs : List CStr) : CStr := if cs = [] then [slash] else cs.flatMap (slash :: ·)

/-- The normal form of a path. -/
def normalForm (path : CStr) : CStr := rooted (names (path.splitOn slash))

/-- A component that a path in normal form may have. -/
def IsName (c : CStr) : Prop := c ≠ [] ∧ c ≠ [dot] ∧ c ≠ [dot, dot]

/-- A path in normal form starts with a slash, and every component behind it is a name. -/
def NormalPath (path : CStr) : Prop :=
  path.head? = some slash ∧ (path = [slash] ∨ ∀ c ∈ path.tail.splitOn slash, IsName c)

/-! ## Walks -/

/-- The number of components left, where nothing is below the root. -/
def depth (cs : List CStr) : ℕ :=
  cs.foldl (fun d c => if c = [dot] then d else if c = [dot, dot] then d - 1 else d + 1) 0

/-- The number of components left on top of `d` others, unless a `..` goes below them. -/
def climb : ℕ → List CStr → Option ℕ
  | d, [] => some d
  | d, c :: cs =>
    if c = [dot] then climb d cs
    else if c = [dot, dot] then
      match d with
      | 0 => none
      | d + 1 => climb d cs
    else climb (d + 1) cs

/-- All components are taken away again. -/
def Level (cs : List CStr) : Prop := climb 0 cs = some 0

/-- A part that leaves a single component, an empty one, and then names above it. -/
def Grounded (cs : List CStr) : Prop :=
  ∃ a b post, cs = a ++ [] :: b ++ post ∧ depth a = 0 ∧ Level b ∧ [] ∉ post ∧ climb 0 post ≠ none

/-- Nothing is left, two empty components are, or the path is grounded. -/
def Sound (cs : List CStr) : Prop :=
  depth cs = 0 ∨ (∃ a b c, cs = a ++ [] :: b ++ [] :: c ∧ depth a = 0 ∧ Level b ∧ Level c) ∨
    Grounded cs

/-! ## The stack of components -/

/-- What `krealpath` leaves of the components. -/
def leaves (cs : List CStr) : List CStr := cs.foldl normalizeStep []

section Stack
variable {cs a b post : List CStr} {st S : List CStr} {x c : CStr} {d e : ℕ}

theorem normalizeStep_dot (st : List CStr) : normalizeStep st [dot] = st := if_pos rfl

theorem normalizeStep_dots (st : List CStr) : normalizeStep st [dot, dot] = st.dropLast := by
  rw [normalizeStep, if_neg (by decide), if_pos rfl]

theorem normalizeStep_push (h : c ≠ [dot]) (h' : c ≠ [dot, dot]) :
    normalizeStep st c = st ++ [c] := by
  rw [normalizeStep, if_neg h, if_neg h']

/-- Off the special components, a component is pushed. -/
theorem component_cases (c : CStr) :
    c = [dot] ∨ c = [dot, dot] ∨ c ≠ [dot] ∧ c ≠ [dot, dot] := by
  by_cases h : c = [dot]
  · exact Or.inl h
  · by_cases h' : c = [dot, dot]
    · exact Or.inr (Or.inl h')
    · exact Or.inr (Or.inr ⟨h, h'⟩)

theorem leaves_concat (cs : List CStr) (c : CStr) :
    leaves (cs ++ [c]) = normalizeStep (leaves cs) c := by
  rw [leaves, List.foldl_concat, leaves]

theorem depth_eq (cs : List CStr) : depth cs = (leaves cs).length := by
  induction cs using List.reverseRecOn with
  | nil => rfl
  | append_singleton cs c ih =>
      rw [depth, List.foldl_concat, ← depth, ih, leaves_concat]
      rcases component_cases c with rfl | rfl | ⟨h, h'⟩
      · rw [if_pos rfl, normalizeStep_dot]
      · rw [if_neg (by decide), if_pos rfl, normalizeStep_dots, List.length_dropLast]
      · rw [if_neg h, if_neg h', normalizeStep_push h h', List.length_append, List.length_singleton]

theorem climb_dot (d : ℕ) (cs : List CStr) : climb d ([dot] :: cs) = climb d cs := by
  rw [climb.eq_def]
  exact if_pos rfl

theorem climb_dots_succ (d : ℕ) (cs : List CStr) :
    climb (d + 1) ([dot, dot] :: cs) = climb d cs := by
  rw [climb, if_neg (by decide), if_pos rfl]

theorem climb_dots_zero (cs : List CStr) : climb 0 ([dot, dot] :: cs) = none := by
  rw [climb, if_neg (by decide), if_pos rfl]

theorem climb_push (h : c ≠ [dot]) (h' : c ≠ [dot, dot]) (d : ℕ) (cs : List CStr) :
    climb d (c :: cs) = climb (d + 1) cs := by
  rw [climb.eq_def]
  exact (if_neg h).trans (if_neg h')

theorem climb_append (d : ℕ) (a b : List CStr) :
    climb d (a ++ b) = (climb d a).bind fun e => climb e b := by
  induction a generalizing d with
  | nil => rfl
  | cons c a ih =>
      rw [List.cons_append]
      rcases component_cases c with rfl | rfl | ⟨h, h'⟩
      · rw [climb_dot, climb_dot, ih]
      · cases d with
        | zero =>
            rw [climb_dots_zero, climb_dots_zero]
            rfl
        | succ d => rw [climb_dots_succ, climb_dots_succ, ih]
      · rw [climb_push h h', climb_push h h', ih]

/-- **A climb** touches only what is on top. -/
theorem foldl_climb (h : climb S.length b = some e) :
    ∃ T : List CStr, T.length = e ∧
      ∀ st, b.foldl normalizeStep (st ++ S) = st ++ T := by
  induction b generalizing S with
  | nil =>
      cases h
      exact ⟨S, rfl, fun _ => rfl⟩
  | cons c b ih =>
      rcases component_cases c with rfl | rfl | ⟨hc, hc'⟩
      · rw [climb_dot] at h
        obtain ⟨T, hT, hfold⟩ := ih h
        refine ⟨T, hT, fun st => ?_⟩
        rw [List.foldl_cons, normalizeStep_dot, hfold]
      · rcases List.eq_nil_or_concat S with rfl | ⟨S, y, rfl⟩
        · rw [List.length_nil, climb_dots_zero] at h
          cases h
        · rw [List.concat_eq_append] at h ⊢
          rw [List.length_append, List.length_singleton, climb_dots_succ] at h
          obtain ⟨T, hT, hfold⟩ := ih h
          refine ⟨T, hT, fun st => ?_⟩
          rw [List.foldl_cons, normalizeStep_dots, ← List.append_assoc, List.dropLast_concat, hfold]
      · rw [climb_push hc hc', ← List.length_singleton (a := c), ← List.length_append] at h
        obtain ⟨T, hT, hfold⟩ := ih h
        refine ⟨T, hT, fun st => ?_⟩
        rw [List.foldl_cons, normalizeStep_push hc hc', List.append_assoc, hfold]

theorem Level.foldl (h : Level b) (st : List CStr) : b.foldl normalizeStep st = st := by
  obtain ⟨T, hT, hfold⟩ := foldl_climb (S := []) h
  have hnil : T = [] := List.length_eq_zero_iff.mp hT
  have hst := hfold st
  rwa [hnil, List.append_nil] at hst

theorem climb_mono {d e : ℕ} (h : climb d b = some e) (k : ℕ) : climb (d + k) b = some (e + k) := by
  induction b generalizing d with
  | nil =>
      cases h
      rfl
  | cons c b ih =>
      rcases component_cases c with rfl | rfl | ⟨hc, hc'⟩
      · rw [climb_dot] at h ⊢
        exact ih h
      · cases d with
        | zero =>
            rw [climb_dots_zero] at h
            cases h
        | succ d =>
            rw [climb_dots_succ] at h
            rw [Nat.succ_add, climb_dots_succ]
            exact ih h
      · rw [climb_push hc hc'] at h ⊢
        rw [Nat.add_right_comm]
        exact ih h

theorem Level.append (ha : Level a) (hb : Level b) : Level (a ++ b) := by
  rw [Level, climb_append, ha]
  exact hb

/-- **The component on top** of the stack has been pushed, and everything behind it has been
taken away. -/
theorem leaves_top (h : leaves cs = st ++ [x]) :
    ∃ a b, cs = a ++ x :: b ∧ leaves a = st ∧ Level b ∧ x ≠ [dot] ∧ x ≠ [dot, dot] := by
  induction hn : cs.length using Nat.strong_induction_on generalizing cs st x with
  | _ n ih =>
      rcases List.eq_nil_or_concat cs with rfl | ⟨cs, c, rfl⟩
      · simp [leaves] at h
      · rw [List.concat_eq_append] at h hn ⊢
        rw [List.length_append, List.length_singleton] at hn
        rw [leaves_concat] at h
        rcases component_cases c with rfl | rfl | ⟨hc, hc'⟩
        · rw [normalizeStep_dot] at h
          obtain ⟨a, b, rfl, ha, hb, hx⟩ := ih _ (by omega) h rfl
          exact ⟨a, b ++ [[dot]], by simp, ha, hb.append (climb_dot 0 []), hx⟩
        · -- The component that the `..` has taken away lies above the one on top.
          rw [normalizeStep_dots] at h
          obtain ⟨y, hy⟩ : ∃ y, leaves cs = st ++ [x] ++ [y] := by
            rcases List.eq_nil_or_concat (leaves cs) with h0 | ⟨l, y, hl⟩
            · rw [h0] at h
              simp at h
            · rw [List.concat_eq_append] at hl
              rw [hl, List.dropLast_concat] at h
              exact ⟨y, by rw [hl, h]⟩
          obtain ⟨a', b', rfl, ha', hb', hyd, hydd⟩ := ih _ (by omega) hy rfl
          have hlen : a'.length < n := by
            rw [List.length_append, List.length_cons] at hn
            omega
          obtain ⟨a, b, rfl, ha, hb, hx⟩ := ih _ hlen ha' rfl
          refine ⟨a, b ++ (y :: b' ++ [[dot, dot]]), by simp, ha, hb.append ?_, hx⟩
          rw [Level, List.cons_append, climb_push hyd hydd, climb_append, climb_mono hb' 1]
          exact climb_dots_succ 0 []
        · rw [normalizeStep_push hc hc'] at h
          obtain ⟨hst, hx⟩ := List.append_inj' h rfl
          cases hx
          exact ⟨cs, [], rfl, hst, rfl, hc, hc'⟩

theorem leaves_append (a b : List CStr) : leaves (a ++ b) = b.foldl normalizeStep (leaves a) :=
  List.foldl_append

theorem leaves_eq_nil : leaves cs = [] ↔ depth cs = 0 := by
  rw [depth_eq, List.length_eq_zero_iff]

/-- An empty component is left on top. -/
theorem leaves_empty_top : leaves cs = st ++ [[]] ↔
    ∃ a b, cs = a ++ [] :: b ∧ leaves a = st ∧ Level b := by
  constructor
  · intro h
    obtain ⟨a, b, hcs, ha, hb, -⟩ := leaves_top h
    exact ⟨a, b, hcs, ha, hb⟩
  · rintro ⟨a, b, rfl, rfl, hb⟩
    rw [leaves_append, List.foldl_cons, normalizeStep_push (by decide) (by decide), hb.foldl]

/-- Nothing but the root is left. -/
theorem leaves_root : leaves cs = [[]] ↔ ∃ a b, cs = a ++ [] :: b ∧ depth a = 0 ∧ Level b := by
  have h := @leaves_empty_top cs []
  simp only [leaves_eq_nil] at h
  exact h

theorem names_concat (cs : List CStr) (c : CStr) : names (cs ++ [c]) = dropStep (names cs) c := by
  rw [names, List.foldl_concat, names]

theorem dropStep_eq (h : c ≠ []) (st : List CStr) : dropStep st c = normalizeStep st c := by
  rw [dropStep, normalizeStep]
  simp only [h, false_or]

theorem dropStep_nil (st : List CStr) : dropStep st [] = st := if_pos (Or.inl rfl)

theorem foldl_dropStep (h : [] ∉ post) (S : List CStr) :
    post.foldl dropStep S = post.foldl normalizeStep S := by
  induction post generalizing S with
  | nil => rfl
  | cons c post ih =>
      have hc : c ≠ [] := fun h0 => h (h0 ▸ List.mem_cons_self)
      rw [List.foldl_cons, List.foldl_cons, dropStep_eq hc,
        ih fun hmem => h (List.mem_cons_of_mem _ hmem)]

theorem dropLast_sublist_of {α : Type} {l m : List α} {y : α} (h : l.Sublist (m ++ [y])) :
    l.dropLast.Sublist m := by
  obtain ⟨l₁, l₂, rfl, h₁, h₂⟩ := List.sublist_append_iff.mp h
  rcases List.sublist_singleton.mp h₂ with rfl | rfl
  · rw [List.append_nil]
    exact (List.dropLast_sublist _).trans h₁
  · rw [List.dropLast_concat]
    exact h₁

/-- The names that are left are among those that `krealpath` leaves. -/
theorem names_sublist (cs : List CStr) : (names cs).Sublist ((leaves cs).filter (· ≠ [])) := by
  induction cs using List.reverseRecOn with
  | nil => exact List.Sublist.refl _
  | append_singleton cs c ih =>
      rw [names_concat, leaves_concat]
      by_cases hc : c = []
      · subst hc
        rw [dropStep_nil, normalizeStep_push (by decide) (by decide), List.filter_append]
        simpa using ih
      · rw [dropStep_eq hc]
        rcases component_cases c with rfl | rfl | ⟨h, h'⟩
        · rw [normalizeStep_dot, normalizeStep_dot]
          exact ih
        · rw [normalizeStep_dots, normalizeStep_dots]
          rcases List.eq_nil_or_concat (leaves cs) with h0 | ⟨l, y, hl⟩
          · rw [h0] at ih ⊢
            exact (List.dropLast_sublist _).trans ih
          · rw [List.concat_eq_append] at hl
            rw [hl, List.filter_append] at ih
            rw [hl, List.dropLast_concat]
            exact dropLast_sublist_of (ih.trans (List.filter_sublist.append_left _))
        · rw [normalizeStep_push h h', normalizeStep_push h h', List.filter_append]
          have hone : [c].filter (· ≠ []) = [c] := by simp [hc]
          rw [hone]
          exact ih.append_right _

theorem empty_not_mem_names (cs : List CStr) : [] ∉ names cs := fun h => by
  simpa using (names_sublist cs).subset h

/-- Above an empty component that stays, the names are those of the normal form. -/
theorem leaves_grounded {pre : List CStr} (hpre : leaves pre = [[]]) (hpost : [] ∉ post) {d : ℕ}
    (hclimb : climb 0 post = some d) :
    leaves (pre ++ post) = [] :: names (pre ++ post) ∧ (names (pre ++ post)).length = d := by
  have hnone : names pre = [] := by
    have hsub := names_sublist pre
    rw [hpre] at hsub
    exact List.sublist_nil.mp hsub
  obtain ⟨T, hT, hfold⟩ := foldl_climb (S := []) hclimb
  have hnames : names (pre ++ post) = T := by
    rw [names, List.foldl_append, ← names, hnone, foldl_dropStep hpost]
    exact hfold []
  rw [hnames, leaves_append, hpre]
  exact ⟨hfold [[]], hT⟩

theorem grounded_iff_split :
    Grounded cs ↔ ∃ pre post, cs = pre ++ post ∧ leaves pre = [[]] ∧ [] ∉ post ∧
      climb 0 post ≠ none := by
  constructor
  · rintro ⟨a, b, post, rfl, ha, hb, h⟩
    exact ⟨a ++ [] :: b, post, rfl, leaves_root.mpr ⟨a, b, rfl, ha, hb⟩, h⟩
  · rintro ⟨pre, post, rfl, hpre, h⟩
    obtain ⟨a, b, rfl, ha, hb⟩ := leaves_root.mp hpre
    exact ⟨a, b, post, rfl, ha, hb, h⟩

theorem Grounded.of_root (h : leaves cs = [[]]) : Grounded cs :=
  grounded_iff_split.mpr ⟨cs, [], (List.append_nil cs).symm, h, List.not_mem_nil, by simp [climb]⟩

theorem Grounded.leaves (h : Grounded cs) : Fs.leaves cs = [] :: names cs := by
  obtain ⟨pre, post, rfl, hpre, hpost, hclimb⟩ := grounded_iff_split.mp h
  obtain ⟨d, hd⟩ := Option.ne_none_iff_exists'.mp hclimb
  exact (leaves_grounded hpre hpost hd).1

/-- One more component above the root, where there is something to take away for a `..`. -/
theorem Grounded.concat (h : Grounded cs) (hc : c ≠ []) (hup : c = [dot, dot] → names cs ≠ []) :
    Grounded (cs ++ [c]) := by
  obtain ⟨pre, post, rfl, hpre, hpost, hclimb⟩ := grounded_iff_split.mp h
  obtain ⟨d, hd⟩ := Option.ne_none_iff_exists'.mp hclimb
  have hlen := (leaves_grounded hpre hpost hd).2
  refine grounded_iff_split.mpr ⟨pre, post ++ [c], by simp, hpre, ?_, ?_⟩
  · simpa [hpost] using fun h0 : [] = c => hc h0.symm
  · rw [climb_append, hd]
    rcases component_cases c with rfl | rfl | ⟨h, h'⟩
    · rw [Option.bind_some, climb_dot]
      exact Option.some_ne_none d
    · have hpos := List.length_pos_of_ne_nil (hup rfl)
      obtain ⟨e, rfl⟩ : ∃ e, d = e + 1 := ⟨d - 1, by omega⟩
      rw [Option.bind_some, climb_dots_succ]
      exact Option.some_ne_none e
    · rw [Option.bind_some, climb_push h h']
      exact Option.some_ne_none (d + 1)

/-- **Where as many names are left as in the normal form**, behind a root that is left, the path
is grounded. -/
theorem grounded_of_length {M : List CStr} (h : leaves cs = [] :: M) (hM : [] ∉ M)
    (hlen : M.length = (names cs).length) : Grounded cs := by
  induction cs using List.reverseRecOn generalizing M with
  | nil => cases h
  | append_singleton cs c ih =>
      by_cases hroot : M = []
      · subst hroot
        exact .of_root h
      rw [leaves_concat] at h
      rw [names_concat] at hlen
      have hpos := List.length_pos_of_ne_nil hroot
      by_cases hc : c = []
      · -- An empty component would stay on top of the root.
        subst hc
        rw [normalizeStep_push (by decide) (by decide)] at h
        rcases hl : leaves cs with - | ⟨x, l⟩
        · rw [hl] at h
          cases h
          exact absurd rfl hroot
        · rw [hl, List.cons_append] at h
          obtain ⟨-, rfl⟩ := List.cons_eq_cons.mp h
          exact absurd (List.mem_append_right _ (List.mem_singleton_self _)) hM
      rw [dropStep_eq hc] at hlen
      rcases component_cases c with rfl | rfl | ⟨h', h''⟩
      · rw [normalizeStep_dot] at h hlen
        exact (ih h hM hlen).concat hc fun h0 => absurd h0 (by decide)
      · rw [normalizeStep_dots] at h hlen
        rw [List.length_dropLast] at hlen
        obtain ⟨y, hy⟩ : ∃ y, leaves cs = [] :: (M ++ [y]) := by
          rcases List.eq_nil_or_concat (leaves cs) with h0 | ⟨l, y, hl⟩
          · rw [h0] at h
            cases h
          · rw [List.concat_eq_append] at hl
            rw [hl, List.dropLast_concat] at h
            exact ⟨y, by rw [hl, h, List.cons_append]⟩
        have hne : y ≠ [] := by
          -- Otherwise more names are left than `krealpath` leaves.
          rintro rfl
          have hsub := names_sublist cs
          have hempty : [([] : CStr)].filter (· ≠ []) = [] := rfl
          rw [hy, ← List.singleton_append, List.filter_append, hempty, List.nil_append,
            List.filter_append, hempty, List.append_nil] at hsub
          have hle := hsub.length_le.trans (List.length_filter_le _ M)
          omega
        refine (ih hy ?_ ?_).concat hc fun _ h0 => ?_
        · simpa [hM] using fun h0 : [] = y => hne h0.symm
        · rw [List.length_append, List.length_singleton]
          omega
        · rw [h0, List.length_nil] at hlen
          omega
      · rw [normalizeStep_push h' h''] at h hlen
        rw [List.length_append, List.length_singleton] at hlen
        rcases hl : leaves cs with - | ⟨x, l⟩
        · rw [hl] at h
          cases h
          exact absurd rfl hc
        · rw [hl, List.cons_append] at h
          obtain ⟨rfl, rfl⟩ := List.cons_eq_cons.mp h
          refine (ih hl (fun h0 => hM (List.mem_append_left _ h0)) ?_).concat hc fun h0 =>
            absurd h0 h''
          rw [List.length_append, List.length_singleton] at hlen
          omega

theorem grounded_iff : Grounded cs ↔ leaves cs = [] :: names cs :=
  ⟨Grounded.leaves, fun h => grounded_of_length h (empty_not_mem_names cs) rfl⟩

theorem leaves_sublist (cs : List CStr) : (leaves cs).Sublist cs := by
  induction cs using List.reverseRecOn with
  | nil => exact List.Sublist.refl _
  | append_singleton cs c ih =>
      rw [leaves_concat]
      rcases component_cases c with rfl | rfl | ⟨h, h'⟩
      · rw [normalizeStep_dot]
        exact ih.trans (List.sublist_append_left _ _)
      · rw [normalizeStep_dots]
        exact ((List.dropLast_sublist _).trans ih).trans (List.sublist_append_left _ _)
      · rw [normalizeStep_push h h']
        exact ih.append_right _

/-- Nothing is put in the place of a component. -/
theorem names_sublist_self (cs : List CStr) : (names cs).Sublist cs :=
  ((names_sublist cs).trans List.filter_sublist).trans (leaves_sublist cs)

/-- Every component that is left is a name. -/
theorem isName_of_mem_names {cs : List CStr} : ∀ {c}, c ∈ names cs → IsName c := by
  induction cs using List.reverseRecOn with
  | nil => exact fun h => absurd h List.not_mem_nil
  | append_singleton cs x ih =>
      intro c hc
      rw [names_concat] at hc
      by_cases hx : x = []
      · rw [hx, dropStep_nil] at hc
        exact ih hc
      · rw [dropStep_eq hx] at hc
        rcases component_cases x with rfl | rfl | ⟨h, h'⟩
        · rw [normalizeStep_dot] at hc
          exact ih hc
        · rw [normalizeStep_dots] at hc
          exact ih (List.mem_of_mem_dropLast hc)
        · rw [normalizeStep_push h h'] at hc
          rcases List.mem_append.mp hc with hc | hc
          · exact ih hc
          · rw [List.mem_singleton.mp hc]
            exact ⟨hx, h, h'⟩

/-- Names are left as they are. -/
theorem foldl_names {N : List CStr} (h : ∀ c ∈ N, IsName c) (st : List CStr) :
    N.foldl normalizeStep st = st ++ N := by
  induction N generalizing st with
  | nil => exact (List.append_nil st).symm
  | cons c N ih =>
      have hc := h c List.mem_cons_self
      rw [List.foldl_cons, normalizeStep_push hc.2.1 hc.2.2,
        ih fun x hx => h x (List.mem_cons_of_mem _ hx), List.append_assoc, List.singleton_append]

end Stack

/-! ## Paths from the root -/

section Rooted
variable {cs N : List CStr}

theorem flatMap_slash (h : cs ≠ []) :
    cs.flatMap (slash :: ·) = slash :: [slash].intercalate cs := by
  induction cs with
  | nil => exact absurd rfl h
  | cons c cs ih =>
      by_cases hcs : cs = []
      · subst hcs
        simp
      · rw [List.flatMap_cons, ih hcs, List.intercalate_cons_of_ne_nil hcs]
        simp

theorem rooted_of_ne_nil (h : N ≠ []) : rooted N = [slash].intercalate ([] :: N) := by
  rw [rooted, if_neg h, flatMap_slash h, List.intercalate_cons_of_ne_nil h]
  rfl

theorem assemble_eq (cs : List CStr) :
    assemble cs = if [slash].intercalate cs = [] then [slash] else [slash].intercalate cs := by
  rw [assemble, ← List.intercalate]
  split
  · rename_i h
    rw [if_pos h]
  · rename_i h
    rw [if_neg (h ▸ List.cons_ne_nil _ _), h]

/-- The end of `krealpath` finds a root and names above it. -/
theorem assemble_root (h : ∀ c ∈ N, IsName c) : assemble ([] :: N) = rooted N := by
  by_cases hN : N = []
  · subst hN
    rfl
  · rw [rooted_of_ne_nil hN, assemble_eq, if_neg]
    rw [List.intercalate_cons_of_ne_nil hN]
    simp

/-- **What `krealpath` assembles** is the normal form for exactly the sound paths. -/
theorem assemble_iff (hcs : ∀ c ∈ cs, slash ∉ c) :
    assemble (leaves cs) = rooted (names cs) ↔ Sound cs := by
  have hleaves : ∀ c ∈ leaves cs, slash ∉ c := fun c hc => hcs c ((leaves_sublist cs).subset hc)
  have hnil : leaves cs = [] ∨ leaves cs = [[], []] → names cs = [] := by
    intro h
    have hsub := names_sublist cs
    rcases h with h | h
    · rw [h] at hsub
      exact List.sublist_nil.mp hsub
    · rw [h] at hsub
      exact List.sublist_nil.mp hsub
  have htwo : leaves cs = [[], []] ↔
      ∃ a b c, cs = a ++ [] :: b ++ [] :: c ∧ depth a = 0 ∧ Level b ∧ Level c := by
    have htop := @leaves_empty_top cs [[]]
    refine htop.trans ⟨?_, ?_⟩
    · rintro ⟨a', c, rfl, ha', hc⟩
      obtain ⟨a, b, rfl, ha, hb⟩ := leaves_root.mp ha'
      exact ⟨a, b, c, rfl, ha, hb, hc⟩
    · rintro ⟨a, b, c, rfl, ha, hb, hc⟩
      exact ⟨_, c, rfl, leaves_root.mpr ⟨a, b, rfl, ha, hb⟩, hc⟩
  constructor
  · intro h
    by_cases h0 : leaves cs = []
    · exact Or.inl (leaves_eq_nil.mp h0)
    have hsplit := List.splitOn_intercalate slash hleaves h0
    rw [assemble_eq] at h
    by_cases hempty : [slash].intercalate (leaves cs) = []
    · rw [hempty] at hsplit
      exact Or.inr (Or.inr (.of_root hsplit.symm))
    rw [if_neg hempty] at h
    by_cases hN : names cs = []
    · rw [h, hN] at hsplit
      exact Or.inr (Or.inl (htwo.mp hsplit.symm))
    · rw [h, rooted_of_ne_nil hN, List.splitOn_intercalate slash _ (List.cons_ne_nil _ _)] at hsplit
      · exact Or.inr (Or.inr (grounded_iff.mpr hsplit.symm))
      · intro c hc
        rcases List.mem_cons.mp hc with rfl | hc
        · exact List.not_mem_nil
        · exact hcs c ((names_sublist_self cs).subset hc)
  · rintro (h | h | h)
    · have h0 := leaves_eq_nil.mpr h
      rw [h0, hnil (Or.inl h0)]
      rfl
    · have h2 := htwo.mpr h
      rw [h2, hnil (Or.inr h2)]
      rfl
    · rw [h.leaves]
      exact assemble_root fun c hc => isName_of_mem_names hc

end Rooted

/-! ## Whole paths -/

section Path
variable {path : CStr}

theorem names_cut (path : CStr) : names (cutAtSlashes path) = names (path.splitOn slash) := by
  rw [cutAtSlashes]
  split
  · rename_i h
    obtain ⟨cs, hcs⟩ := List.getLast?_eq_some_iff.mp h
    rw [hcs, List.dropLast_concat, names_concat, dropStep_nil]
  · rfl

theorem slash_not_mem_names {c : CStr} (hc : c ∈ names (path.splitOn slash)) : slash ∉ c :=
  slash_not_mem_of_splitOn ((names_sublist_self _).subset hc)

/-- The normal form is in normal form. -/
theorem normalForm_normal (path : CStr) : NormalPath (normalForm path) := by
  rw [normalForm]
  by_cases hN : names (path.splitOn slash) = []
  · rw [hN]
    exact ⟨rfl, Or.inl rfl⟩
  · have hrooted : rooted (names (path.splitOn slash)) =
        slash :: [slash].intercalate (names (path.splitOn slash)) := by
      rw [rooted, if_neg hN, flatMap_slash hN]
    rw [hrooted]
    refine ⟨rfl, Or.inr fun c hc => ?_⟩
    rw [List.tail_cons, List.splitOn_intercalate slash (fun c hc => slash_not_mem_names hc) hN]
      at hc
    exact isName_of_mem_names hc

/-- The normal form of a path from the root leaves characters out. -/
theorem normalForm_sublist (h : path.head? = some slash) : (normalForm path).Sublist path := by
  obtain ⟨r, rfl⟩ := List.head?_eq_some_iff.mp h
  have hsplit : (slash :: r).splitOn slash = [] :: r.splitOn slash := by
    rw [List.splitOn_cons_eq_if_modifyHead, if_pos (beq_self_eq_true slash)]
  have hnames : names ([] :: r.splitOn slash) = names (r.splitOn slash) := by
    rw [names, List.foldl_cons, dropStep_nil, names]
  rw [normalForm, hsplit, hnames, rooted]
  split
  · exact (List.nil_sublist r).cons_cons slash
  · have hsub := (names_sublist_self (r.splitOn slash)).flatMap (slash :: ·)
    rwa [flatMap_slash (List.splitOn_ne_nil slash r), List.intercalate_splitOn] at hsub

/-- **The normal form does not change any more.** -/
theorem normalize_normalForm (hlen : (normalForm path).length ≤ maxPath)
    (hz : ∀ c ∈ normalForm path, c ≠ 0) : normalize (normalForm path) = normalForm path := by
  rw [normalize, components_eq hz hlen, normalForm]
  have hcut : cutAtSlashes (rooted (names (path.splitOn slash))) =
      [] :: names (path.splitOn slash) := by
    by_cases hN : names (path.splitOn slash) = []
    · rw [hN]
      rfl
    · rw [rooted, if_neg hN, flatMap_slash hN, ← List.nil_append (slash :: _),
        cutAtSlashes_slash List.not_mem_nil]
      rw [cutAtSlashes, List.splitOn_intercalate slash (fun c hc => slash_not_mem_names hc) hN,
        if_neg]
      intro hlast
      exact (isName_of_mem_names (List.mem_of_getLast? hlast)).1 rfl
  have hnames : ∀ c ∈ names (path.splitOn slash), IsName c := fun c hc => isName_of_mem_names hc
  rw [hcut, List.foldl_cons, normalizeStep_push (by decide) (by decide), foldl_names hnames]
  exact assemble_root hnames

end Path

/-! ## `krealpath` -/

/-- The path from the root to a directory, by the parents and names on the disk. -/
inductive PathOf (d : BlockNo → Sector) (root : BlockNo) : BlockNo → CStr → Prop
  | root : PathOf d root root []
  | step {b : BlockNo} {p : CStr} (hb : b ≠ root) (h : PathOf d root (inodeAt d b).parent p) :
    PathOf d root b (p ++ slash :: (inodeAt d b).name)

/-- The path that a path stands for, from the root: one that does not start with a slash is
behind the path of the current directory. -/
def FullPath (d : BlockNo → Sector) (root cwd : BlockNo) (path full : CStr) : Prop :=
  if path.head? = some slash then full = path
  else ∃ p, PathOf d root cwd p ∧ full = p ++ slash :: path

/-- What `krealpath` has to return for a path from the root. -/
structure RealpathLaw (dev : DevNo) (root : BlockNo) (full res : CStr) : Prop where
  normal : NormalPath res
  eq : res = normalForm full
  again : ∀ (fuel : ℕ) (cwd : BlockNo) (t : Names Disk),
    krealpath flatStore dev root fuel cwd res t = some (.ok res, t)

section Realpath
variable {dev : DevNo} {root cwd : BlockNo} {fuel : ℕ} {path full res p q : CStr}
  {s s' : Names Disk} {d : BlockNo → Sector}

theorem ofOption_eq_ok {α : Type} {o : Option α} {a : α}
    (h : (ofOption o : NameM Disk α) s = some (.ok a, s')) : o = some a ∧ s' = s := by
  cases o with
  | none => cases h
  | some x =>
      cases h
      exact ⟨rfl, rfl⟩

theorem PathOf.unique {b : BlockNo} (h : PathOf d root b p) (h' : PathOf d root b q) : p = q := by
  induction h generalizing q with
  | root =>
      cases h' with
      | root => rfl
      | step hb h => exact absurd rfl hb
  | step hb h ih =>
      cases h' with
      | root => exact absurd rfl hb
      | step hb' h' => rw [ih h']

theorem PathOf.head {b : BlockNo} (h : PathOf d root b p) : p = [] ∨ p.head? = some slash := by
  induction h with
  | root => exact Or.inl rfl
  | step hb h ih =>
      rcases ih with rfl | ih
      · exact Or.inr rfl
      · refine Or.inr ?_
        rw [List.head?_append, ih]
        rfl

theorem PathOf.nonzero {b : BlockNo} (h : PathOf d root b p) : ∀ c ∈ p, c ≠ 0 := by
  induction h with
  | root => exact fun c hc => absurd hc List.not_mem_nil
  | step hb h ih =>
      intro c hc
      rcases List.mem_append.mp hc with hc | hc
      · exact ih c hc
      · rcases List.mem_cons.mp hc with rfl | hc
        · decide
        · exact cstr_nonzero _ c hc

theorem fullPath_absolute (h : path.head? = some slash) : FullPath d root cwd path path := by
  rw [FullPath, if_pos h]

theorem FullPath.unique (h : FullPath d root cwd path p) (h' : FullPath d root cwd path q) :
    p = q := by
  rw [FullPath] at h h'
  split at h
  · rename_i hslash
    rw [if_pos hslash] at h'
    exact h.trans h'.symm
  · rename_i hslash
    rw [if_neg hslash] at h'
    obtain ⟨a, ha, rfl⟩ := h
    obtain ⟨b, hb, rfl⟩ := h'
    rw [ha.unique hb]

theorem FullPath.head (h : FullPath d root cwd path full) : full.head? = some slash := by
  rw [FullPath] at h
  split at h
  · rw [h]
    assumption
  · obtain ⟨p, hp, rfl⟩ := h
    rcases hp.head with rfl | hhead
    · rfl
    · rw [List.head?_append, hhead]
      rfl

theorem FullPath.nonzero (h : FullPath d root cwd path full) (hz : ∀ c ∈ path, c ≠ 0) :
    ∀ c ∈ full, c ≠ 0 := by
  rw [FullPath] at h
  split at h
  · rw [h]
    exact hz
  · obtain ⟨p, hp, rfl⟩ := h
    intro c hc
    rcases List.mem_append.mp hc with hc | hc
    · exact hp.nonzero c hc
    · rcases List.mem_cons.mp hc with rfl | hc
      · decide
      · exact hz c hc

theorem pushFront_eq_some {dst src r : CStr} (h : pushFront dst src = some r) : r = src ++ dst := by
  rw [pushFront] at h
  split at h
  · cases h
  · cases h
    rfl

/-- The loop puts the path of the directory in front. -/
theorem cwdPath_ok {b : BlockNo} {tmp : CStr}
    (h : cwdPath flatStore dev root fuel b tmp s = some (.ok res, s')) :
    s' = s ∧ ∃ p, PathOf (s.fs.store dev) root b p ∧ res = p ++ tmp := by
  induction fuel generalizing b tmp with
  | zero => cases h
  | succ fuel ih =>
      rw [cwdPath] at h
      split at h
      · rename_i hb
        cases h
        subst hb
        exact ⟨rfl, [], .root, rfl⟩
      · rename_i hb
        rw [Call.bind_of_ok (readInode_flat ..)] at h
        obtain ⟨tmp₁, s₁, hname, h⟩ := Call.bind_eq_ok.mp h
        obtain ⟨hpush, rfl⟩ := ofOption_eq_ok hname
        obtain ⟨tmp₂, s₂, hslash, h⟩ := Call.bind_eq_ok.mp h
        obtain ⟨hpush', rfl⟩ := ofOption_eq_ok hslash
        obtain ⟨rfl, p, hp, rfl⟩ := ih h
        refine ⟨rfl, _, .step hb hp, ?_⟩
        rw [pushFront_eq_some hpush', pushFront_eq_some hpush]
        simp

/-- **What `krealpath` returns** for the path from the root. -/
theorem krealpath_ok (h : krealpath flatStore dev root fuel cwd path s = some (.ok res, s')) :
    ∃ full, FullPath (s.fs.store dev) root cwd path full ∧ full.length ≤ maxPath ∧
      res = normalize full := by
  have hend : ∀ {front : CStr} {t : Names Disk}, (do
      Call.require (front.length + path.length ≤ maxPath) .fail
      pure (normalize (front ++ path)) : NameM Disk CStr) t = some (.ok res, s') →
      (front ++ path).length ≤ maxPath ∧ res = normalize (front ++ path) := by
    intro front t hrun
    obtain ⟨u, t', hlen, hrun⟩ := Call.bind_eq_ok.mp hrun
    obtain ⟨hfit, -⟩ := Call.require_eq_ok.mp hlen
    cases hrun
    exact ⟨by rwa [List.length_append], rfl⟩
  rw [krealpath] at h
  simp only [FullPath]
  split at h
  · rename_i hslash
    obtain ⟨front, s₁, hfront, h⟩ := Call.bind_eq_ok.mp h
    cases hfront
    exact ⟨path, by rw [if_pos hslash], hend h⟩
  · rename_i hslash
    obtain ⟨tmp, s₁, htmp, h₁⟩ := Call.bind_eq_ok.mp h
    obtain ⟨u, s₂, hlen, h₂⟩ := Call.bind_eq_ok.mp h₁
    obtain ⟨front, s₃, hfront, h₃⟩ := Call.bind_eq_ok.mp h₂
    obtain ⟨hpush, -⟩ := ofOption_eq_ok hfront
    obtain ⟨-, p, hp, rfl⟩ := cwdPath_ok htmp
    have hfull : front ++ path = p ++ slash :: path := by
      rw [pushFront_eq_some hpush]
      simp
    exact ⟨front ++ path, by rw [if_neg hslash]; exact ⟨p, hp, hfull⟩, hend h₃⟩

/-- **`krealpath` normalises a path** for exactly the sound paths. -/
theorem krealpath_law_iff (hz : ∀ c ∈ path, c ≠ 0)
    (h : krealpath flatStore dev root fuel cwd path s = some (.ok res, s'))
    (hfull : FullPath (s.fs.store dev) root cwd path full) :
    RealpathLaw dev root full res ↔ Sound (cutAtSlashes full) := by
  obtain ⟨full', hfull', hlen, rfl⟩ := krealpath_ok h
  rw [hfull'.unique hfull] at hlen ⊢
  have hfz := hfull.nonzero hz
  have hslash : ∀ c ∈ cutAtSlashes full, slash ∉ c := fun c hc => slash_not_mem_of_cut hc
  have hres : normalize full = assemble (leaves (cutAtSlashes full)) := by
    rw [normalize, components_eq hfz hlen, leaves]
  have hform : normalForm full = rooted (names (cutAtSlashes full)) := by
    rw [normalForm, names_cut]
  rw [← assemble_iff hslash, ← hres, ← hform]
  constructor
  · exact fun hlaw => hlaw.eq
  · intro heq
    rw [heq]
    have hsub := normalForm_sublist hfull.head
    have hlen' := hsub.length_le.trans hlen
    have hnormal := normalForm_normal full
    have hnz : ∀ c ∈ normalForm full, c ≠ 0 := fun c hc => hfz c (hsub.subset hc)
    refine ⟨hnormal, rfl, fun fuel cwd t => ?_⟩
    rw [krealpath_absolute hnormal.1 hlen', normalize_normalForm hlen' hnz]

/-- The path `/a/./../b/` has nothing empty between its slashes, and its `..` stays below the
root. -/
theorem realpath_of_ab :
    krealpath flatStore 0 4100 0 4100
        [slash, 97, slash, dot, slash, dot, dot, slash, 98, slash]
        (⟨mountedVolume 5242880, 0⟩ : Names Disk) =
      some (.ok [slash, 98], ⟨mountedVolume 5242880, 0⟩) ∧
    RealpathLaw 0 4100 [slash, 97, slash, dot, slash, dot, dot, slash, 98, slash] [slash, 98] := by
  have hres : normalize [slash, 97, slash, dot, slash, dot, dot, slash, 98, slash] =
      [slash, 98] := by decide +kernel
  have hrun := @krealpath_absolute 0 4100 (⟨mountedVolume 5242880, 0⟩ : Names Disk) 4100 0
    [slash, 97, slash, dot, slash, dot, dot, slash, 98, slash] rfl (by decide)
  rw [hres] at hrun
  refine ⟨hrun, (krealpath_law_iff (by decide +kernel) hrun (fullPath_absolute rfl)).mpr ?_⟩
  exact Or.inr (Or.inr
    ⟨[], [], [[97], [dot], [dot, dot], [98]], rfl, rfl, rfl, by decide, by decide⟩)

/-- In the root, `/../a` is made `a`, which does not start with a slash any more. -/
theorem realpath_loses_root :
    krealpath flatStore 0 4100 0 4100 [slash, dot, dot, slash, 97]
        (⟨mountedVolume 5242880, 0⟩ : Names Disk) = some (.ok [97], ⟨mountedVolume 5242880, 0⟩) ∧
      FullPath ((mountedVolume 5242880).store 0) 4100 4100 [slash, dot, dot, slash, 97]
        [slash, dot, dot, slash, 97] ∧
      normalForm [slash, dot, dot, slash, 97] = [slash, 97] ∧
      ¬ RealpathLaw 0 4100 [slash, dot, dot, slash, 97] [97] := by
  have hres : normalize [slash, dot, dot, slash, 97] = [97] := by decide +kernel
  have hrun := @krealpath_absolute 0 4100 (⟨mountedVolume 5242880, 0⟩ : Names Disk) 4100 0
    [slash, dot, dot, slash, 97] rfl (by decide)
  rw [hres] at hrun
  refine ⟨hrun, fullPath_absolute rfl, rfl, fun h => ?_⟩
  have hhead : ([97] : CStr).head? = some slash := h.normal.1
  exact absurd hhead (by decide)

end Realpath

end OxKernel.Fs
