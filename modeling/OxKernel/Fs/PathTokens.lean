import OxKernel.Fs.PathBufferLaw

/-!
# The loop around `get_next_path`

`krealpath`, `inode_get` and `inode_create` call `get_next_path` until it returns NULL and move
`start` on by one after each result. The callers keep the pointers, so a component has to stay a
string of its own in the buffer while the later calls cut off the components behind it.

## Main definitions

* `nextCalls` — the results of the calls, each with the string at the time of its return.

## Main results

* `nextCalls_components` — the results are the path cut at its slashes, and then NULL.
-/
namespace OxKernel.Fs

/-- A result of `get_next_path`. -/
structure PathToken where
  /-- Where it points to. -/
  pos : ℕ
  /-- The string there when the call returns. -/
  component : CStr

/-- The calls from a position on, until one returns NULL: the results before, and where the
last call starts in which buffer. Without an end after the given number of calls there is no
result. -/
def nextCalls : ℕ → ℕ → Buffer → Option (List PathToken × ℕ × Buffer)
  | 0, _, _ => none
  | calls + 1, start, path =>
    match getNextPath start path with
    | none => some ([], start, path)
    | some (p, start, path) => do
      let (tokens, last) ← nextCalls calls (start + 1) path
      return (⟨p, cstrAt path p⟩ :: tokens, last)

/-- The string of a token is in the buffer, with its zero inside of it. -/
def PathToken.StaysIn (t : PathToken) (path : Buffer) : Prop :=
  cstrAt path t.pos = t.component ∧ path (t.pos + t.component.length) = 0 ∧
    t.pos + t.component.length < maxPath

section Calls
variable {calls start : ℕ} {path : Buffer} {rest t : CStr}

theorem nextCalls_end (h : Reads path start []) :
    nextCalls (calls + 1) start path = some ([], start, path) := by
  rw [nextCalls, getNextPath_end h]

theorem nextCalls_step {p start' last : ℕ} {path' final : Buffer} {tokens : List PathToken}
    (h : getNextPath start path = some (p, start', path'))
    (hrest : nextCalls calls (start' + 1) path' = some (tokens, last, final)) :
    nextCalls (calls + 1) start path = some (⟨p, cstrAt path' p⟩ :: tokens, last, final) := by
  simp only [nextCalls, h, hrest]
  rfl

/-- A component in a buffer that agrees with the one of its call up to the zero behind it. -/
theorem PathToken.staysIn_of_agree {final : Buffer} (hz : ∀ c ∈ t, c ≠ 0)
    (hlt : start + t.length < maxPath) (hbytes : ∀ i, i < t.length → path (start + i) = t.getD i 0)
    (hend : path (start + t.length) = 0) (hsame : ∀ i, i ≤ start + t.length → final i = path i) :
    (⟨start, cstrAt path start⟩ : PathToken).StaysIn final ∧ cstrAt path start = t := by
  have hstr : cstrAt path start = t := cstrAt_eq hz hlt.le hbytes hend
  have hfinal : cstrAt final start = t := by
    apply cstrAt_eq hz hlt.le
    · intro i hi
      rw [hsame _ (by omega), hbytes i hi]
    · rw [hsame _ le_rfl, hend]
  refine ⟨⟨?_, ?_, ?_⟩, hstr⟩
  · rw [hfinal, hstr]
  · rw [hstr, hsame _ le_rfl, hend]
  · rwa [hstr]

/-- **The rest of a path**, cut at its slashes, and then NULL; what lies before stays. -/
theorem nextCalls_cut : ∀ {calls start : ℕ} {path : Buffer} {rest : CStr},
    rest.length < calls → (∀ c ∈ rest, c ≠ 0) → Reads path start rest →
    (rest ≠ [] → start + rest.length < maxPath) →
    ∃ tokens last final, nextCalls calls start path = some (tokens, last, final) ∧
      tokens.map PathToken.component = cutAtSlashes rest ∧
      (∀ t ∈ tokens, t.StaysIn final) ∧ getNextPath last final = none ∧
      ∀ i, i < start → final i = path i := by
  intro calls
  induction calls with
  | zero => exact fun h => absurd h (Nat.not_lt_zero _)
  | succ calls ih =>
      intro start path rest hlt hz h hfit
      rcases rest.firstSlash with hno | ⟨t, r, ht, rfl⟩
      · by_cases hne : rest = []
        · subst hne
          exact ⟨[], start, path, nextCalls_end h, rfl, fun _ h => absurd h List.not_mem_nil,
            getNextPath_end h, fun _ _ => rfl⟩
        · -- The last component: the next call starts behind its zero, where there are zeroes.
          have hfit' := hfit hne
          have hnext := getNextPath_last h hno hz hne hfit'.le
          have hbehind := h.behind (i := rest.length + endSkip rest + 1) (by omega)
          rw [← Nat.add_assoc start] at hbehind
          have hpos := List.length_pos_of_ne_nil hne
          obtain ⟨calls, rfl⟩ : ∃ k, calls = k + 1 := ⟨calls - 1, by omega⟩
          have hend : path (start + rest.length) = 0 := by
            rw [h, List.getD_eq_default _ _ le_rfl]
          obtain ⟨hstays, hstr⟩ := PathToken.staysIn_of_agree hz hfit' (fun i _ => h i) hend
            fun _ _ => rfl
          refine ⟨_, _, _, nextCalls_step hnext (nextCalls_end hbehind), ?_, ?_,
            getNextPath_end hbehind, fun _ _ => rfl⟩
          · rw [List.map_singleton, hstr, cutAtSlashes_last hno hne]
          · intro t ht
            rw [List.mem_singleton.mp ht]
            exact hstays
      · have hlen : (t ++ slash :: r).length = t.length + (r.length + 1) := by
          rw [List.length_append, List.length_cons]
        have hfit' : start + (t.length + (r.length + 1)) < maxPath := hlen ▸ hfit (by simp)
        have hnext := getNextPath_slash h ht hz (by omega)
        obtain ⟨tokens, last, final, hcalls, hmap, hstays, hnull, hsame⟩ := ih (by omega)
          (fun c hc => hz c (List.mem_append_right _ (List.mem_cons_of_mem _ hc))) h.behind_slash
          fun _ => by omega
        have hbytes : ∀ i, i < t.length →
            Function.update path (start + t.length) 0 (start + i) = t.getD i 0 := by
          intro i hi
          rw [Function.update_of_ne (by omega), h, List.getD_append _ _ _ _ hi]
        obtain ⟨hstay, hstr⟩ := PathToken.staysIn_of_agree
          (fun c hc => hz c (List.mem_append_left _ hc)) (by omega) hbytes
          (Function.update_self ..) fun i hi => hsame i (by omega)
        refine ⟨_, _, _, nextCalls_step hnext hcalls, ?_, ?_, hnull, ?_⟩
        · rw [List.map_cons, hmap, hstr, cutAtSlashes_slash ht]
        · intro u hu
          rcases List.mem_cons.mp hu with rfl | hu
          · exact hstay
          · exact hstays u hu
        · intro i hi
          rw [hsame i (by omega), Function.update_of_ne (by omega)]

end Calls

/-- The pointers that the loops of the callers keep. -/
theorem nextCalls_pathTab {calls start last : ℕ} {path final : Buffer} {tokens : List PathToken}
    (h : nextCalls calls start path = some (tokens, last, final)) :
    pathTab calls start path = (tokens.map PathToken.pos, final) := by
  induction calls generalizing start path tokens with
  | zero => cases h
  | succ calls ih =>
      rw [nextCalls] at h
      rw [pathTab]
      rcases hnext : getNextPath start path with _ | ⟨p, start', path'⟩
      · simp only [hnext] at h
        cases h
        rfl
      · simp only [hnext, Option.bind_eq_bind, Option.bind_eq_some_iff] at h
        obtain ⟨⟨tokens', last', final'⟩, hrest, hdone⟩ := h
        cases hdone
        simp only [ih hrest, List.map_cons]

/-- **The loop around `get_next_path`** over a path of at most 253 bytes: it ends, the results
are the components, each of which stays a string in the buffer, and no call looks outside of
the buffer. -/
theorem nextCalls_components {path : CStr} (hz : ∀ c ∈ path, c ≠ 0) (hle : path.length ≤ 253)
    {calls : ℕ} (hcalls : path.length < calls) (b : PathBuf) :
    (∃ tokens last final, nextCalls calls 0 (pathBuffer path) = some (tokens, last, final) ∧
      pathTab calls 0 (pathBuffer path) = (tokens.map PathToken.pos, final) ∧
      tokens.map PathToken.component = cutAtSlashes path ∧
      (∀ t ∈ tokens, t.StaysIn final) ∧ getNextPath last final = none) ∧
    (tokenize b (maxPath + 1) 0 0 (pathBuffer path)).All Touch.Inside := by
  have hlt : path.length < maxPath := by
    rw [maxPath]
    omega
  constructor
  · obtain ⟨tokens, last, final, hrun, hmap, hstays, hnull, -⟩ :=
      nextCalls_cut hcalls hz (reads_pathBuffer path) fun _ => by rwa [Nat.zero_add]
    exact ⟨tokens, last, final, hrun, nextCalls_pathTab hrun, hmap, hstays, hnull⟩
  · rw [tokenize_path hz hlt, maxPath]
    have := lastSkip_le path
    omega

/-- The path `//b`. -/
theorem nextCalls_components_slashes :
    (∃ tokens last final, nextCalls 9 0 (pathBuffer [slash, slash, 98]) =
        some (tokens, last, final) ∧
      pathTab 9 0 (pathBuffer [slash, slash, 98]) = (tokens.map PathToken.pos, final) ∧
      tokens.map PathToken.component = cutAtSlashes [slash, slash, 98] ∧
      (∀ t ∈ tokens, t.StaysIn final) ∧ getNextPath last final = none) ∧
    (tokenize .ptrPath (maxPath + 1) 0 0 (pathBuffer [slash, slash, 98])).All Touch.Inside :=
  nextCalls_components (by simp [slash]) (by decide) (by decide) .ptrPath

end OxKernel.Fs
