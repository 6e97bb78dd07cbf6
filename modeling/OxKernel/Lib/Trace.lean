import OxKernel.Lib.Call

/-!
# Computations with a log

A computation beside a copy of it that also writes a log. The copy does what the
computation does, whether that ends or not, and the log only grows. `Traces P` says this
and that everything the copy adds to the log has the property `P`; a condition that was
required before an entry is written can be used for the entry.

## Main definitions

* `Call.logged`, `Call.note` — a step without an entry, and an entry.
* `Call.Traces` — a copy with a log, all of whose entries have a property.
-/
namespace OxKernel.Lib.Call

variable {ε σ ω α β : Type}

/-- A step that adds nothing to the log. -/
def logged (x : Call ε σ α) : Call ε (σ × List ω) α := fun s =>
  (x s.1).map fun a => (a.1, a.2, s.2)

/-- Add an entry to the log. -/
def note (w : ω) : Call ε (σ × List ω) Unit := modify fun s => (s.1, s.2 ++ [w])

/-- `y` does what `x` does, and adds only entries with `P` to the log. -/
def Traces (P : ω → Prop) (y : Call ε (σ × List ω) α) (x : Call ε σ α) : Prop :=
  ∀ s l, (x s = none → y (s, l) = none) ∧
    ∀ r s', x s = some (r, s') → ∃ l', y (s, l) = some (r, s', l ++ l') ∧ ∀ w ∈ l', P w

section
variable {P : ω → Prop} {x : Call ε σ α} {y : Call ε (σ × List ω) α}

theorem Traces.logged (x : Call ε σ α) : Traces P (logged x) x := by
  intro s l
  constructor
  · intro hx
    rw [Call.logged, hx]
    rfl
  · intro r s' hx
    refine ⟨[], ?_, fun w hw => by cases hw⟩
    rw [Call.logged, hx, List.append_nil]
    rfl

/-- Without its log the copy is the computation. -/
theorem Traces.forget (h : Traces P y x) (s : σ) (l : List ω) :
    (y (s, l)).map (fun a => (a.1, a.2.1)) = x s := by
  obtain ⟨hnone, hsome⟩ := h s l
  rcases hx : x s with _ | ⟨r, s'⟩
  · rw [hnone hx]
    rfl
  · obtain ⟨l', hy, -⟩ := hsome r s' hx
    rw [hy]
    rfl

theorem Traces.loop : Traces P (loop : Call ε (σ × List ω) α) loop :=
  fun _ _ => ⟨fun _ => rfl, fun _ _ hx => by cases hx⟩

theorem Traces.pure (a : α) : Traces P (Pure.pure a : Call ε (σ × List ω) α) (Pure.pure a) := by
  intro s l
  constructor
  · intro hx
    cases hx
  · intro r s' hx
    cases hx
    exact ⟨[], by rw [List.append_nil]; rfl, fun w hw => by cases hw⟩

theorem Traces.fail (e : ε) : Traces P (fail e : Call ε (σ × List ω) α) (fail e) := by
  intro s l
  constructor
  · intro hx
    cases hx
  · intro r s' hx
    cases hx
    exact ⟨[], by rw [List.append_nil]; rfl, fun w hw => by cases hw⟩

theorem Traces.bind {f : α → Call ε σ β} {g : α → Call ε (σ × List ω) β} (hx : Traces P y x)
    (hf : ∀ a, Traces P (g a) (f a)) : Traces P (y >>= g) (x >>= f) := by
  intro s l
  obtain ⟨hnone, hsome⟩ := hx s l
  rcases hxs : x s with _ | ⟨_ | a, s'⟩
  · rw [bind_of_none hxs, bind_of_none (hnone hxs)]
    exact ⟨fun _ => rfl, fun _ _ h => by cases h⟩
  · obtain ⟨l', hy, hP⟩ := hsome _ _ hxs
    rw [bind_of_error hxs, bind_of_error hy]
    refine ⟨fun h => (by cases h), fun r s₁ h => ?_⟩
    cases h
    exact ⟨l', rfl, hP⟩
  · obtain ⟨l', hy, hP⟩ := hsome _ _ hxs
    obtain ⟨hnone', hsome'⟩ := hf a s' (l ++ l')
    rw [bind_of_ok hxs, bind_of_ok hy]
    refine ⟨hnone', fun r s₁ h => ?_⟩
    obtain ⟨l'', hg, hP'⟩ := hsome' r s₁ h
    refine ⟨l' ++ l'', ?_, ?_⟩
    · rw [hg, List.append_assoc]
    · intro w hw
      rcases List.mem_append.mp hw with hw | hw
      · exact hP w hw
      · exact hP' w hw

/-- What was required can be used for what follows. -/
theorem Traces.require_bind {c : Prop} [Decidable c] {e : ε} (h : c → Traces P y x) :
    Traces P (Call.logged (require c e : Call ε σ Unit) >>= fun _ => y) (require c e >>= fun _ => x) := by
  by_cases hc : c
  · have hreq : (require c e : Call ε σ Unit) = Pure.pure () := if_pos hc
    rw [hreq]
    exact Traces.bind (Traces.logged _) fun _ => h hc
  · have hreq : (require c e : Call ε σ Unit) = Call.fail e := if_neg hc
    intro s l
    rw [hreq]
    refine ⟨fun hx => (by cases hx), fun r s' hx => ?_⟩
    cases hx
    exact ⟨[], by rw [List.append_nil]; rfl, fun w hw => by cases hw⟩

/-- An entry with the property. -/
theorem Traces.note_bind {w : ω} (hw : P w) (h : Traces P y x) :
    Traces P (note w >>= fun _ => y) x := by
  intro s l
  obtain ⟨hnone, hsome⟩ := h s (l ++ [w])
  refine ⟨hnone, fun r s' hx => ?_⟩
  obtain ⟨l', hy, hP⟩ := hsome r s' hx
  refine ⟨w :: l', ?_, ?_⟩
  · rw [List.append_cons]
    exact hy
  · intro v hv
    rcases List.mem_cons.mp hv with rfl | hv
    · exact hw
    · exact hP v hv

theorem Traces.recover (h : Traces P y x) (d : α) : Traces P (recover y d) (recover x d) := by
  intro s l
  obtain ⟨hnone, hsome⟩ := h s l
  rw [Call.recover, Call.recover]
  rcases hxs : x s with _ | ⟨_ | a, s'⟩
  · rw [hnone hxs]
    exact ⟨fun _ => rfl, fun _ _ h => by cases h⟩
  · obtain ⟨l', hy, hP⟩ := hsome _ _ hxs
    rw [hy]
    refine ⟨fun h => (by cases h), fun r s₁ h => ?_⟩
    cases h
    exact ⟨l', rfl, hP⟩
  · obtain ⟨l', hy, hP⟩ := hsome _ _ hxs
    rw [hy]
    refine ⟨fun h => (by cases h), fun r s₁ h => ?_⟩
    cases h
    exact ⟨l', rfl, hP⟩

end

end OxKernel.Lib.Call
