import Mathlib

/-!
# Trees of names

Nodes that name their parents, each with a name of its own among the children of its parent. A
node is at the path of the names from the root down to it. In a sound tree every node is at
some path, and no two nodes are at the same one, so that a tree can be read as a name space:
the kind of what is at each path. Adding a leaf to a tree and removing one are the two ways in
which the name space changes.

## Main definitions

* `Space`, `Space.of`, `Space.Closed`, `Space.Step` — name spaces, and their changes.
* `NameTree`, `NameTree.At` — trees, and the paths of their nodes.
* `NameTree.Sound`, `NameTree.Adds`, `NameTree.Removes` — sound trees, and their changes.
-/
namespace OxKernel.Lib

universe u v w
variable {ν : Type u} {α : Type v} {κ : Type w}

/-! ## Name spaces -/

/-- The kind of what is at each path. -/
def Space (α : Type v) (κ : Type w) := List α → Option κ

namespace Space

open Classical in
/-- The name space of the nodes that a relation puts at paths. -/
noncomputable def of (R : List α → ν → Prop) (kind : ν → κ) : Space α κ := fun ns =>
  if h : ∃ a, R ns a then some (kind h.choose) else none

variable {dir k : κ} {S S' : Space α κ} {ns : List α} {x : α}

/-- What is at a path is in a directory. -/
structure Closed (dir : κ) (S : Space α κ) : Prop where
  root : S [] = some dir
  parent : ∀ ns x, S (ns ++ [x]) ≠ none → S ns = some dir

/-- Something is made in a directory, under a name that is not in use there. -/
structure Makes (dir : κ) (S : Space α κ) (ns : List α) (x : α) (k : κ) (S' : Space α κ) : Prop where
  parent : S ns = some dir
  free : S (ns ++ [x]) = none
  made : S' (ns ++ [x]) = some k
  other : ∀ ms, ms ≠ ns ++ [x] → S' ms = S ms

/-- What is at a path is removed, with nothing below it. -/
structure Drops (S : Space α κ) (ns : List α) (S' : Space α κ) : Prop where
  ne_root : ns ≠ []
  used : S ns ≠ none
  leaf : ∀ x, S (ns ++ [x]) = none
  gone : S' ns = none
  other : ∀ ms, ms ≠ ns → S' ms = S ms

/-- A change of a name space, at one path at most. -/
inductive Step (dir : κ) (S : Space α κ) : Space α κ → Prop
  | same : Step dir S S
  | makes {S' : Space α κ} {ns : List α} {x : α} {k : κ} (h : Makes dir S ns x k S') : Step dir S S'
  | drops {S' : Space α κ} {ns : List α} (h : Drops S ns S') : Step dir S S'

theorem Makes.closed (h : Makes dir S ns x k S') (hS : S.Closed dir) : S'.Closed dir := by
  have hne : ∀ y : α, ns ≠ ns ++ [y] := fun y he => by simpa using congrArg List.length he
  refine ⟨?_, fun ms y hy => ?_⟩
  · rw [h.other [] (List.append_ne_nil_of_right_ne_nil ns (List.cons_ne_nil x [])).symm]
    exact hS.root
  · by_cases hms : ms ++ [y] = ns ++ [x]
    · obtain ⟨rfl, -⟩ := List.append_inj' hms rfl
      rw [h.other ms (hne x)]
      exact h.parent
    · rw [h.other _ hms] at hy
      have hdir := hS.parent ms y hy
      rw [h.other ms, hdir]
      rintro rfl
      rw [h.free] at hdir
      cases hdir

theorem Drops.closed (h : Drops S ns S') (hS : S.Closed dir) : S'.Closed dir := by
  refine ⟨?_, fun ms y hy => ?_⟩
  · rw [h.other [] h.ne_root.symm]
    exact hS.root
  · have hold : S (ms ++ [y]) ≠ none := by
      by_cases hms : ms ++ [y] = ns
      · exact absurd (hms ▸ h.gone) hy
      · rwa [h.other _ hms] at hy
    rw [h.other ms]
    · exact hS.parent ms y hold
    · rintro rfl
      exact hold (h.leaf y)

/-- A step leaves what is at a path in a directory. -/
theorem Step.closed (h : Step dir S S') (hS : S.Closed dir) : S'.Closed dir := by
  cases h with
  | same => exact hS
  | makes h => exact h.closed hS
  | drops h => exact h.closed hS

/-- And so does a run of steps. -/
theorem Closed.run (hS : S.Closed dir) (h : Relation.ReflTransGen (Step dir) S S') :
    S'.Closed dir := by
  induction h with
  | refl => exact hS
  | tail _ hstep ih => exact hstep.closed ih

end Space

/-! ## Trees -/

/-- Nodes with their parents, names and kinds. -/
structure NameTree (ν : Type u) (α : Type v) (κ : Type w) where
  nodes : Set ν
  root : ν
  parent : ν → ν
  name : ν → α
  kind : ν → κ

namespace NameTree
variable {t t' : NameTree ν α κ} {dir k : κ} {ns ms : List α} {x : α} {a b e P : ν}

/-- The path of a node. -/
inductive At (t : NameTree ν α κ) : List α → ν → Prop
  | root : At t [] t.root
  | child {ns : List α} {a : ν} (h : At t ns (t.parent a)) (ha : a ∈ t.nodes) (hr : a ≠ t.root) :
      At t (ns ++ [t.name a]) a

/-- Every node is in a directory, under a name of its own, and below the root. -/
structure Sound (dir : κ) (t : NameTree ν α κ) : Prop where
  root_mem : t.root ∈ t.nodes
  root_dir : t.kind t.root = dir
  parent_mem : ∀ a ∈ t.nodes, t.parent a ∈ t.nodes
  parent_dir : ∀ a ∈ t.nodes, t.kind (t.parent a) = dir
  distinct : ∀ a ∈ t.nodes, ∀ b ∈ t.nodes, a ≠ t.root → b ≠ t.root → t.parent a = t.parent b →
    t.name a = t.name b → a = b
  rooted : ∀ a ∈ t.nodes, ∃ ns, t.At ns a

theorem At.mem (h : t.At ns a) (hroot : t.root ∈ t.nodes) : a ∈ t.nodes := by
  cases h with
  | root => exact hroot
  | child _ ha _ => exact ha

/-- Only the root is at the empty path. -/
theorem At.eq_root (h : t.At [] a) : a = t.root := by
  generalize hns : ([] : List α) = ns at h
  cases h with
  | root => rfl
  | child h ha hr => exact absurd hns (List.append_ne_nil_of_right_ne_nil _ (List.cons_ne_nil _ _)).symm

/-- A node at a longer path is a child of the one above. -/
theorem At.concat (h : t.At (ns ++ [x]) a) :
    t.At ns (t.parent a) ∧ a ∈ t.nodes ∧ a ≠ t.root ∧ t.name a = x := by
  generalize hms : ns ++ [x] = ms at h
  cases h with
  | root => exact absurd hms (List.append_ne_nil_of_right_ne_nil _ (List.cons_ne_nil _ _))
  | child h ha hr =>
      obtain ⟨rfl, hx⟩ := List.append_inj' hms rfl
      exact ⟨h, ha, hr, (List.cons.inj hx).1.symm⟩

/-- What is at a path is below something at every shorter one. -/
theorem At.above (h : t.At (ns ++ ms) a) : ∃ b, t.At ns b := by
  induction ms using List.reverseRecOn generalizing a with
  | nil =>
      rw [List.append_nil] at h
      exact ⟨a, h⟩
  | append_singleton ms x ih =>
      rw [← List.append_assoc] at h
      exact ih h.concat.1

/-- **No two nodes are at one path.** -/
theorem At.node_unique (h : t.At ns a) (hs : t.Sound dir) (h' : t.At ns b) : a = b := by
  induction h generalizing b with
  | root => exact h'.eq_root.symm
  | child h ha hr ih =>
      obtain ⟨hp, hb, hbr, hname⟩ := h'.concat
      exact hs.distinct _ ha b hb hr hbr (ih hp) hname.symm

/-- **No node is at two paths.** -/
theorem At.path_unique (h : t.At ns a) (h' : t.At ms a) : ns = ms := by
  induction h generalizing ms with
  | root =>
      cases h' with
      | root => rfl
      | child _ _ hr => exact absurd rfl hr
  | child h ha hr ih =>
      cases h' with
      | root => exact absurd rfl hr
      | child h' _ _ => rw [ih h']

/-- The name space of a tree. -/
noncomputable def space (t : NameTree ν α κ) : Space α κ := Space.of t.At t.kind

theorem At.space_eq (h : t.At ns a) (hs : t.Sound dir) : t.space ns = some (t.kind a) := by
  have hex : ∃ a, t.At ns a := ⟨a, h⟩
  rw [space, Space.of, dif_pos hex, hex.choose_spec.node_unique hs h]

theorem space_eq_none (h : ∀ a, ¬ t.At ns a) : t.space ns = none :=
  dif_neg fun ⟨a, ha⟩ => h a ha

theorem space_ne_none (h : t.space ns ≠ none) : ∃ a, t.At ns a := by
  by_contra hex
  exact h (dif_neg hex)

/-- The name space of a sound tree is closed. -/
theorem Sound.closed (hs : t.Sound dir) : t.space.Closed dir := by
  refine ⟨?_, fun ns x hx => ?_⟩
  · rw [At.root.space_eq hs, hs.root_dir]
  · obtain ⟨a, ha⟩ := space_ne_none hx
    obtain ⟨hp, hmem, -, -⟩ := ha.concat
    rw [hp.space_eq hs, hs.parent_dir a hmem]

/-! ## Adding a leaf -/

/-- `t'` is `t` with one more node `e`, under a new name in the directory `P`. -/
structure Adds (dir : κ) (t : NameTree ν α κ) (P e : ν) (x : α) (k : κ) (t' : NameTree ν α κ) :
    Prop where
  root : t'.root = t.root
  nodes : ∀ a, a ∈ t'.nodes ↔ a = e ∨ a ∈ t.nodes
  fresh : e ∉ t.nodes
  mem : P ∈ t.nodes
  isDir : t.kind P = dir
  parent_new : t'.parent e = P
  name_new : t'.name e = x
  kind_new : t'.kind e = k
  parent : ∀ a ∈ t.nodes, t'.parent a = t.parent a
  name : ∀ a ∈ t.nodes, t'.name a = t.name a
  kind : ∀ a ∈ t.nodes, t'.kind a = t.kind a
  new : ∀ a ∈ t.nodes, a ≠ t.root → t.parent a = P → t.name a ≠ x

namespace Adds

theorem ne_root (h : t.Adds dir P e x k t') (hs : t.Sound dir) : e ≠ t.root := by
  rintro rfl
  exact h.fresh hs.root_mem

/-- The paths of the old nodes are the same, and the new one is below `P`. -/
theorem at_iff (h : t.Adds dir P e x k t') (hs : t.Sound dir) :
    t'.At ns a ↔ t.At ns a ∨ ∃ ms, t.At ms P ∧ ns = ms ++ [x] ∧ a = e := by
  constructor
  · intro ha
    induction ha with
    | root =>
        rw [h.root]
        exact Or.inl .root
    | @child ns a _ ha hr ih =>
        rw [h.root] at hr
        rcases (h.nodes a).mp ha with rfl | ha
        · rw [h.parent_new] at ih
          rcases ih with hP | ⟨-, -, -, rfl⟩
          · exact Or.inr ⟨ns, hP, by rw [h.name_new], rfl⟩
          · exact absurd h.mem h.fresh
        · rw [h.parent a ha] at ih
          rcases ih with hp | ⟨-, -, -, hpe⟩
          · rw [h.name a ha]
            exact Or.inl (.child hp ha hr)
          · exact absurd (hpe ▸ hs.parent_mem a ha) h.fresh
  · have hold : ∀ {ns a}, t.At ns a → t'.At ns a := by
      intro ns a ha
      induction ha with
      | root =>
          rw [← h.root]
          exact .root
      | @child ns a _ ha hr ih =>
          rw [← h.parent a ha] at ih
          rw [← h.name a ha]
          exact .child ih ((h.nodes a).mpr (Or.inr ha)) (by rwa [h.root])
    rintro (ha | ⟨ms, hP, rfl, rfl⟩)
    · exact hold ha
    · rw [← h.name_new]
      refine .child ?_ ((h.nodes a).mpr (Or.inl rfl)) (by rw [h.root]; exact h.ne_root hs)
      rw [h.parent_new]
      exact hold hP

theorem sound (h : t.Adds dir P e x k t') (hs : t.Sound dir) : t'.Sound dir := by
  have hold : ∀ {a}, a ∈ t.nodes → a ∈ t'.nodes := fun ha => (h.nodes _).mpr (Or.inr ha)
  -- A new name is the name of no other child.
  have hnew : ∀ b ∈ t.nodes, b ≠ t.root → t'.parent b = P → t'.name b ≠ x := by
    intro b hb hbr hp
    rw [h.name b hb]
    exact h.new b hb hbr ((h.parent b hb).symm.trans hp)
  refine ⟨?_, ?_, fun a ha => ?_, fun a ha => ?_, fun a ha b hb har hbr hp hx => ?_, fun a ha => ?_⟩
  · rw [h.root]
    exact hold hs.root_mem
  · rw [h.root, h.kind _ hs.root_mem, hs.root_dir]
  · rcases (h.nodes a).mp ha with rfl | ha
    · rw [h.parent_new]
      exact hold h.mem
    · rw [h.parent a ha]
      exact hold (hs.parent_mem a ha)
  · rcases (h.nodes a).mp ha with rfl | ha
    · rw [h.parent_new, h.kind P h.mem, h.isDir]
    · rw [h.parent a ha, h.kind _ (hs.parent_mem a ha), hs.parent_dir a ha]
  · rw [h.root] at har hbr
    rcases (h.nodes a).mp ha with rfl | haT <;> rcases (h.nodes b).mp hb with rfl | hbT
    · rfl
    · exact absurd (hx.symm.trans h.name_new) (hnew b hbT hbr (hp.symm.trans h.parent_new))
    · exact absurd (hx.trans h.name_new) (hnew a haT har (hp.trans h.parent_new))
    · rw [h.parent a haT, h.parent b hbT] at hp
      rw [h.name a haT, h.name b hbT] at hx
      exact hs.distinct a haT b hbT har hbr hp hx
  · rcases (h.nodes a).mp ha with rfl | ha
    · obtain ⟨ms, hms⟩ := hs.rooted P h.mem
      exact ⟨ms ++ [x], (h.at_iff hs).mpr (Or.inr ⟨ms, hms, rfl, rfl⟩)⟩
    · obtain ⟨ms, hms⟩ := hs.rooted a ha
      exact ⟨ms, (h.at_iff hs).mpr (Or.inl hms)⟩

/-- **In the name space one entry is made.** -/
theorem makes (h : t.Adds dir P e x k t') (hs : t.Sound dir) :
    ∃ ns, t.At ns P ∧ Space.Makes dir t.space ns x k t'.space := by
  obtain ⟨ns, hP⟩ := hs.rooted P h.mem
  have hfree : ∀ a, ¬ t.At (ns ++ [x]) a := by
    intro a ha
    obtain ⟨hp, hmem, har, hname⟩ := ha.concat
    exact h.new a hmem har (hp.node_unique hs hP) hname
  have hs' := h.sound hs
  refine ⟨ns, hP, ⟨?_, space_eq_none hfree, ?_, fun ms hms => ?_⟩⟩
  · rw [hP.space_eq hs, h.isDir]
  · rw [((h.at_iff hs).mpr (Or.inr ⟨ns, hP, rfl, rfl⟩)).space_eq hs', h.kind_new]
  · by_cases hex : ∃ a, t.At ms a
    · obtain ⟨a, ha⟩ := hex
      rw [ha.space_eq hs, ((h.at_iff hs).mpr (Or.inl ha)).space_eq hs', h.kind a (ha.mem hs.root_mem)]
    · rw [space_eq_none fun a ha => hex ⟨a, ha⟩]
      refine space_eq_none fun a ha => ?_
      rcases (h.at_iff hs).mp ha with ha | ⟨ms', hP', rfl, -⟩
      · exact hex ⟨a, ha⟩
      · rw [hP'.path_unique hP] at hms
        exact hms rfl

end Adds

/-! ## Removing a leaf -/

/-- `t'` is `t` without its leaf `b`. -/
structure Removes (t : NameTree ν α κ) (b : ν) (t' : NameTree ν α κ) : Prop where
  root : t'.root = t.root
  nodes : ∀ a, a ∈ t'.nodes ↔ a ≠ b ∧ a ∈ t.nodes
  mem : b ∈ t.nodes
  ne_root : b ≠ t.root
  leaf : ∀ a ∈ t.nodes, t.parent a ≠ b
  parent : ∀ a ∈ t'.nodes, t'.parent a = t.parent a
  name : ∀ a ∈ t'.nodes, t'.name a = t.name a
  kind : ∀ a ∈ t'.nodes, t'.kind a = t.kind a

namespace Removes

/-- The paths of the other nodes are the same. -/
theorem at_iff (h : t.Removes b t') : t'.At ns a ↔ t.At ns a ∧ a ≠ b := by
  constructor
  · intro ha
    induction ha with
    | root =>
        rw [h.root]
        exact ⟨.root, h.ne_root.symm⟩
    | @child ns a _ ha hr ih =>
        obtain ⟨hab, haT⟩ := (h.nodes a).mp ha
        rw [h.root] at hr
        rw [h.parent a ha] at ih
        rw [h.name a ha]
        exact ⟨.child ih.1 haT hr, hab⟩
  · rintro ⟨ha, hab⟩
    induction ha with
    | root =>
        rw [← h.root]
        exact .root
    | @child ns a _ ha hr ih =>
        have hmem : a ∈ t'.nodes := (h.nodes a).mpr ⟨hab, ha⟩
        have hp := ih (h.leaf a ha)
        rw [← h.parent a hmem] at hp
        rw [← h.name a hmem]
        exact .child hp hmem (by rwa [h.root])

theorem sound (h : t.Removes b t') (hs : t.Sound dir) : t'.Sound dir := by
  have hparent : ∀ a ∈ t.nodes, t.parent a ∈ t'.nodes := fun a ha =>
    (h.nodes _).mpr ⟨h.leaf a ha, hs.parent_mem a ha⟩
  have hroot : t.root ∈ t'.nodes := (h.nodes _).mpr ⟨h.ne_root.symm, hs.root_mem⟩
  refine ⟨?_, ?_, fun a ha => ?_, fun a ha => ?_, fun a ha c hc har hcr hp hx => ?_, fun a ha => ?_⟩
  · rwa [h.root]
  · rw [h.root, h.kind _ hroot, hs.root_dir]
  · rw [h.parent a ha]
    exact hparent a ((h.nodes a).mp ha).2
  · have haT := ((h.nodes a).mp ha).2
    rw [h.parent a ha, h.kind _ (hparent a haT), hs.parent_dir a haT]
  · rw [h.root] at har hcr
    rw [h.parent a ha, h.parent c hc] at hp
    rw [h.name a ha, h.name c hc] at hx
    exact hs.distinct a ((h.nodes a).mp ha).2 c ((h.nodes c).mp hc).2 har hcr hp hx
  · obtain ⟨hab, haT⟩ := (h.nodes a).mp ha
    obtain ⟨ns, hns⟩ := hs.rooted a haT
    exact ⟨ns, h.at_iff.mpr ⟨hns, hab⟩⟩

/-- **In the name space one entry is gone.** -/
theorem drops (h : t.Removes b t') (hs : t.Sound dir) :
    ∃ ns, t.At ns b ∧ Space.Drops t.space ns t'.space := by
  obtain ⟨ns, hb⟩ := hs.rooted b h.mem
  have hs' := h.sound hs
  refine ⟨ns, hb, ⟨?_, ?_, fun x => ?_, ?_, fun ms hms => ?_⟩⟩
  · rintro rfl
    exact h.ne_root hb.eq_root
  · rw [hb.space_eq hs]
    exact Option.some_ne_none _
  · refine space_eq_none fun a ha => ?_
    obtain ⟨hp, hmem, -, -⟩ := ha.concat
    exact h.leaf a hmem (hp.node_unique hs hb)
  · refine space_eq_none fun a ha => ?_
    obtain ⟨ha, hab⟩ := h.at_iff.mp ha
    exact hab (ha.node_unique hs hb)
  · by_cases hex : ∃ a, t.At ms a
    · obtain ⟨a, ha⟩ := hex
      have hab : a ≠ b := by
        rintro rfl
        exact hms (ha.path_unique hb)
      have ha' := h.at_iff.mpr ⟨ha, hab⟩
      rw [ha.space_eq hs, ha'.space_eq hs', h.kind a (ha'.mem hs'.root_mem)]
    · rw [space_eq_none fun a ha => hex ⟨a, ha⟩]
      exact space_eq_none fun a ha => hex ⟨a, (h.at_iff.mp ha).1⟩

end Removes

end NameTree

end OxKernel.Lib
