import OxKernel.Lib.Call
import OxKernel.Lib.Traced

/-!
# Computations that note what they start

A computation over a state that may fail or not return, and that lists what it starts on its
way. The list is there even if the computation does not return, so a condition on the whole list
is one on everything that is started before an endless loop, too.

## Main definitions

* `Noted` — the end, if there is one, and the list.
* `Noted.of`, `Noted.note` — a computation that notes nothing, and one note.
* `Noted.Notes` — a copy of a computation, all of whose notes have a property.

## Main results

* `Noted.Notes.bind` — the rule for sequences.
-/
namespace OxKernel.Lib

/-- A computation over states `σ` that lists notes in `τ`. -/
def Noted (τ ε σ α : Type) : Type := σ → Traced τ (Except ε α × σ)

namespace Noted
variable {τ ε σ α β : Type}

instance : Monad (Noted τ ε σ) where
  pure a := fun s => pure (.ok a, s)
  bind x f := fun s => x s >>= fun r =>
    match r with
    | (.ok a, s') => f a s'
    | (.error e, s') => pure (.error e, s')

/-- A computation that notes nothing. -/
def of (x : Call ε σ α) : Noted τ ε σ α := fun s => (x s, [])

/-- Note something about the state. -/
def note (w : σ → τ) : Noted τ ε σ Unit := fun s => (some (.ok (), s), [w s])

/-- Go on with a result of its own after an error. -/
def recover (x : Noted τ ε σ α) (a : α) : Noted τ ε σ α := fun s => x s >>= fun r =>
  match r with
  | (.ok a', s') => pure (.ok a', s')
  | (.error _, s') => pure (.ok a, s')

/-- Leave with an error of its own after an error. -/
def orFail (x : Noted τ ε σ α) (e : ε) : Noted τ ε σ α := fun s => x s >>= fun r =>
  match r with
  | (.ok a, s') => pure (.ok a, s')
  | (.error _, s') => pure (.error e, s')

/-- The state at the end, and the notes. -/
def final (x : Noted τ ε σ α) (s : σ) : Traced τ σ := ((x s).value.map Prod.snd, (x s).trace)

/-! ## Single runs -/

section Runs
variable {x : Noted τ ε σ α} {f : α → Noted τ ε σ β} {s s' : σ} {a : α} {e : ε} {l : List τ}

theorem bind_of_ok (h : x s = (some (.ok a, s'), l)) :
    (x >>= f) s = ((f a s').value, l ++ (f a s').trace) := by
  show (x s >>= _ : Traced τ (Except ε β × σ)) = _
  rw [h]
  rfl

theorem bind_of_error (h : x s = (some (.error e, s'), l)) :
    (x >>= f) s = (some (.error e, s'), l) := by
  show (x s >>= _ : Traced τ (Except ε β × σ)) = _
  rw [h]
  show (some _, l ++ []) = _
  rw [List.append_nil]

/-- A part that notes nothing adds nothing. -/
theorem quiet_bind (h : x s = (some (.ok a, s'), [])) : (x >>= f) s = f a s' := bind_of_ok h

theorem of_bind {x : Call ε σ α} (h : x s = some (.ok a, s')) : (of x >>= f) s = f a s' :=
  quiet_bind (show of x s = (some (.ok a, s'), []) by rw [of, h])

theorem of_bind_error {x : Call ε σ α} (h : x s = some (.error e, s')) :
    (of x >>= f) s = (some (.error e, s'), []) :=
  bind_of_error (show of x s = (some (.error e, s'), []) by rw [of, h])

theorem of_bind_none {x : Call ε σ α} (h : x s = none) : (of x >>= f) s = (none, []) := by
  show (of x s >>= _ : Traced τ (Except ε β × σ)) = _
  rw [of, h]
  rfl

theorem trace_bind_of_quiet (h : ∀ a s, (f a s).trace = []) :
    ((x >>= f) s).trace = (x s).trace := by
  rcases hx : x s with ⟨_ | ⟨_ | a, s'⟩, l⟩
  · show (x s >>= _ : Traced τ (Except ε β × σ)).trace = _
    rw [hx]
    rfl
  · rw [bind_of_error hx]
    rfl
  · rw [bind_of_ok hx, h a s']
    exact List.append_nil l

theorem trace_recover (a : α) : (recover x a s).trace = (x s).trace := by
  rw [recover]
  rcases x s with ⟨_ | ⟨_ | a', s'⟩, l⟩
  · rfl
  · exact List.append_nil l
  · exact List.append_nil l

theorem note_bind (w : σ → τ) (y : Noted τ ε σ α) (s : σ) :
    (note w >>= fun _ => y) s = ((y s).value, w s :: (y s).trace) :=
  bind_of_ok (x := note w) (s := s) (a := ()) rfl

end Runs

/-! ## Copies -/

/-- `y` ends where `x` ends, and all of its notes have `P`. -/
def Notes (P : τ → Prop) (y : Noted τ ε σ α) (x : Call ε σ α) : Prop :=
  ∀ s, (y s).value = x s ∧ (y s).All P

section Rules
variable {P : τ → Prop} {x : Call ε σ α} {y : Noted τ ε σ α} {f : α → Call ε σ β}
  {g : α → Noted τ ε σ β}

theorem Notes.of (x : Call ε σ α) : Notes P (Noted.of x) x :=
  fun _ => ⟨rfl, fun _ h => absurd h List.not_mem_nil⟩

theorem Notes.pure (a : α) : Notes P (Pure.pure a : Noted τ ε σ α) (Pure.pure a) :=
  fun _ => ⟨rfl, fun _ h => absurd h List.not_mem_nil⟩

/-- A copy that notes nothing. -/
theorem Notes.quiet (h : Notes (fun _ => False) y x) (s : σ) : y s = (x s, []) :=
  Prod.ext (h s).1 (Traced.trace_eq_nil.mpr (h s).2)

/-- The rest of a sequence may use what its first part returns. -/
theorem Notes.bind_returns {Q : α → Prop} (hx : Notes P y x) (hQ : x.Returns Q)
    (hf : ∀ a, Q a → Notes P (g a) (f a)) : Notes P (y >>= g) (x >>= f) := by
  intro s
  obtain ⟨hval, hall⟩ := hx s
  rcases hxs : x s with _ | ⟨_ | a, s'⟩
  · rw [hxs] at hval
    have hy : y s = (none, (y s).trace) := Prod.ext hval rfl
    have hyg : (y >>= g) s = (none, (y s).trace) := by
      show (y s >>= _ : Traced τ (Except ε β × σ)) = _
      rw [hy]
      rfl
    rw [Call.bind_of_none hxs, hyg]
    exact ⟨rfl, hall⟩
  · rw [hxs] at hval
    have hy : y s = (some (.error _, s'), (y s).trace) := Prod.ext hval rfl
    rw [Call.bind_of_error hxs, bind_of_error hy]
    exact ⟨rfl, hall⟩
  · rw [hxs] at hval
    have hy : y s = (some (.ok a, s'), (y s).trace) := Prod.ext hval rfl
    obtain ⟨hvalg, hallg⟩ := hf a (hQ s a s' hxs) s'
    rw [Call.bind_of_ok hxs, bind_of_ok hy]
    refine ⟨hvalg, fun w hw => ?_⟩
    rcases List.mem_append.mp hw with hw | hw
    · exact hall w hw
    · exact hallg w hw

/-- **A sequence** is a copy if its parts are. -/
theorem Notes.bind (hx : Notes P y x) (hf : ∀ a, Notes P (g a) (f a)) :
    Notes P (y >>= g) (x >>= f) :=
  hx.bind_returns (fun _ _ _ _ => trivial) fun a _ => hf a

theorem Notes.note_bind {w : σ → τ} (hw : ∀ s, P (w s)) (h : Notes P y x) :
    Notes P (note w >>= fun _ => y) x := by
  intro s
  obtain ⟨hval, hall⟩ := h s
  rw [Noted.note_bind]
  refine ⟨hval, fun v hv => ?_⟩
  rcases List.mem_cons.mp hv with rfl | hv
  · exact hw s
  · exact hall v hv

theorem Notes.recover (h : Notes P y x) (a : α) : Notes P (recover y a) (Call.recover x a) := by
  intro s
  obtain ⟨hval, hall⟩ := h s
  rw [Call.recover, Noted.recover]
  simp only [Traced.value_bind, Traced.all_bind, hval]
  rcases x s with _ | ⟨_ | b, s'⟩
  · exact ⟨rfl, hall, fun r hr => by cases hr⟩
  · exact ⟨rfl, hall, fun r hr => by cases hr; exact Traced.all_pure _⟩
  · exact ⟨rfl, hall, fun r hr => by cases hr; exact Traced.all_pure _⟩

theorem Notes.orFail (h : Notes P y x) (e : ε) : Notes P (orFail y e) (Call.orFail x e) := by
  intro s
  obtain ⟨hval, hall⟩ := h s
  rw [Call.orFail, Noted.orFail]
  simp only [Traced.value_bind, Traced.all_bind, hval]
  rcases x s with _ | ⟨_ | b, s'⟩
  · exact ⟨rfl, hall, fun r hr => by cases hr⟩
  · exact ⟨rfl, hall, fun r hr => by cases hr; exact Traced.all_pure _⟩
  · exact ⟨rfl, hall, fun r hr => by cases hr; exact Traced.all_pure _⟩

end Rules

end Noted

end OxKernel.Lib
