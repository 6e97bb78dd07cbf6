import OxKernel.Libk.Strtok

/-!
# Splitting a string into tokens

A sequence of calls of `strtok` should return the longest runs of characters that are no
delimiters. It does so for a string in which the delimiters are where `strspn` and `strpbrk` look
for them: those that are skipped in their own order, none of them at its place behind a character
of a run, and one of them at its place behind the end.

## Main definitions

* `runsOf` — the longest runs without delimiters.
* `Splits` — what a sequence of calls should do.
* `Splittable` — how delimiters and other characters have to follow each other.

## Main results

* `strtok_splits_iff` — when `strtok` splits a string.
-/
namespace OxKernel.Libk

/-! ## Tokens -/

/-- The longest runs of characters that are not in `ct`. -/
def runsOf (ct s : CharStr) : List CharStr := (s.splitOnP (· ∈ ct)).filter (· ≠ [])

/-- The results of `n` calls `strtok(NULL, ct)`. -/
def nullCalls (ct : CharStr) : ℕ → StrtokState → Option (List (Option ℕ))
  | 0, _ => some []
  | n + 1, σ => do
    let (r, σ) ← strtok none ct σ
    let rs ← nullCalls ct n σ
    return r :: rs

/-- The calls `strtok(s, ct)`, `strtok(NULL, ct)` and so on return some tokens, and then NULL for
ever. -/
def Yields (ct : CharStr) : Option ℕ → StrtokState → List CharStr → Prop
  | s, σ, [] => ∃ σ', strtok s ct σ = some (none, σ') ∧
      ∀ n, nullCalls ct n σ' = some (List.replicate n none)
  | s, σ, t :: ts => ∃ j σ', strtok s ct σ = some (some j, σ') ∧ textAt σ'.cells j = t ∧
      Yields ct none σ' ts

/-- A string in memory, with the pointer of an earlier sequence of calls. -/
def StrtokState.initial (s : CString) (saved : Option ℕ) : StrtokState := ⟨s.chars ++ [0], saved⟩

/-- `strtok` splits a string into its runs. -/
def Splits (s ct : CString) (saved : Option ℕ) : Prop :=
  Yields ct.chars (some 0) (.initial s saved) (runsOf ct.chars s.chars)

/-! ## The order of delimiters -/

/-- Characters in the order of `ct`: a run of the first one, one of the second, and so on. -/
def InOrder (ct l : CharStr) : Prop := behindRuns ct l = []

/-- The delimiters that a string starts with. -/
def leadOf (ct s : CharStr) : CharStr := s.takeWhile (· ∈ ct)

/-- There is room for `ct`, and no character is the one at its place in `ct`. -/
def Clear (ct l : CharStr) : Prop :=
  ct.length ≤ l.length + 1 ∧ ∀ (i : ℕ) c, l[i]? = some c → ct[i]? ≠ some c

/-- Some character is the one at its place in `ct`. -/
def Meets (ct l : CharStr) : Prop := ∃ (i : ℕ) (c : UInt8), l[i]? = some c ∧ ct[i]? = some c

/-- **Where `strtok` can split a string**: delimiters that it has to skip are in the order of
`ct`, none is found where a run goes on, and one is where it ends. -/
structure Splittable (ct s : CharStr) : Prop where
  lead : InOrder ct (leadOf ct s)
  clear : ∀ x t, x :: t <:+ s → x ∉ ct → Clear ct (x :: t)
  ends : ∀ x d t, x :: d :: t <:+ s → x ∉ ct → d ∈ ct →
    Meets ct (d :: t) ∧ InOrder ct (leadOf ct t)

section Search
variable {ct l r t : CharStr} {x d : UInt8}

/-- A character that is not in `ct` is behind the runs, with what follows. -/
theorem behindRuns_append (hr : ∀ c ∈ r.head?, c ∉ ct) :
    behindRuns ct (l ++ r) = behindRuns ct l ++ r := by
  induction ct generalizing l with
  | nil => rfl
  | cons c ct ih =>
      have hstop : r.dropWhile (· = c) = r := by
        cases r with
        | nil => rfl
        | cons y r =>
            have hy : y ≠ c := fun h => hr y rfl (h ▸ List.mem_cons_self)
            exact List.dropWhile_cons_of_neg (by simpa using hy)
      have hdrop : (l ++ r).dropWhile (· = c) = l.dropWhile (· = c) ++ r := by
        rw [List.dropWhile_append, hstop]
        split <;> rename_i h
        · rw [List.isEmpty_iff.mp h, List.nil_append]
        · rfl
      rw [behindRuns, behindRuns, hdrop]
      exact ih fun y hy h => hr y hy (List.mem_cons_of_mem _ h)

/-- The end of characters in order is in order. -/
theorem InOrder.of_append (h : InOrder ct (l ++ r)) : InOrder ct r := by
  induction ct generalizing l r with
  | nil => exact (List.append_eq_nil_iff.mp h).2
  | cons c ct ih =>
      rw [InOrder, behindRuns, List.dropWhile_append] at h
      rw [InOrder, behindRuns]
      split at h
      · exact h
      · have hr := ih (l := l.dropWhile (· = c)) h
        have hsplit := List.takeWhile_append_dropWhile (p := (· = c)) (l := r)
        exact ih (l := r.takeWhile (· = c)) (hsplit.symm ▸ hr)

/-- The inner loop of `strpbrk` finds a character at its place. -/
theorem anyAhead_eq_true (hct : ∀ c ∈ ct, c ≠ 0) :
    anyAhead (l ++ [0]) ct = some true ↔ Meets ct l := by
  induction ct generalizing l with
  | nil =>
      refine iff_of_false (by cases l <;> simp [anyAhead]) ?_
      rintro ⟨i, c, -, hc⟩
      simp at hc
  | cons c ct ih =>
      have ih' := fun l => ih (l := l) fun x hx => hct x (List.mem_cons_of_mem _ hx)
      cases l with
      | nil =>
          have hc := (hct c List.mem_cons_self).symm
          refine iff_of_false ?_ ?_
          · cases ct <;> simp [anyAhead, hc]
          · rintro ⟨i, d, hd, -⟩
            simp at hd
      | cons x l =>
          rw [List.cons_append, anyAhead]
          split
          · rename_i hx
            exact iff_of_true rfl ⟨0, c, by simp [hx], rfl⟩
          · rename_i hx
            rw [ih' l]
            constructor
            · rintro ⟨i, d, hl, hd⟩
              exact ⟨i + 1, d, by simpa using hl, by simpa using hd⟩
            · rintro ⟨i, d, hl, hd⟩
              cases i with
              | zero =>
                  simp at hl hd
                  exact absurd (hl.trans hd.symm) hx
              | succ i => exact ⟨i, d, by simpa using hl, by simpa using hd⟩

/-- It finds none, and reads nothing behind the terminator. -/
theorem anyAhead_eq_false (hct : ∀ c ∈ ct, c ≠ 0) :
    anyAhead (l ++ [0]) ct = some false ↔ Clear ct l := by
  induction ct generalizing l with
  | nil => exact iff_of_true (by cases l <;> rfl) ⟨Nat.zero_le _, by simp⟩
  | cons c ct ih =>
      have ih' := fun l => ih (l := l) fun x hx => hct x (List.mem_cons_of_mem _ hx)
      cases l with
      | nil =>
          have hc := (hct c List.mem_cons_self).symm
          cases ct with
          | nil => exact iff_of_true (by simp [anyAhead, hc]) ⟨le_rfl, by simp⟩
          | cons d ct =>
              refine iff_of_false (by simp [anyAhead, hc]) fun h => ?_
              exact absurd h.1 (by simp)
      | cons x l =>
          rw [List.cons_append, anyAhead]
          split
          · rename_i hx
            refine iff_of_false (by simp) fun h => h.2 0 c (by simp [hx]) rfl
          · rename_i hx
            rw [ih' l]
            constructor
            · rintro ⟨hlen, hne⟩
              refine ⟨by simpa using hlen, fun i d hl => ?_⟩
              cases i with
              | zero =>
                  simp at hl ⊢
                  rw [← hl]
                  exact fun h => hx h.symm
              | succ i => simpa using hne i d (by simpa using hl)
            · rintro ⟨hlen, hne⟩
              refine ⟨by simpa using hlen, fun i d hl => ?_⟩
              simpa using hne (i + 1) d (by simpa using hl)

/-- `strpbrk` finds the end of a run. -/
def FindsEnd (ct t r : CharStr) : Prop :=
  strpbrk ct (t ++ r ++ [0]) = some (if r = [] then none else some t.length)

/-- Looking behind each character of a run. -/
structure Seen (ct t r : CharStr) : Prop where
  clear : ∀ x t', x :: t' <:+ t → Clear ct (x :: t' ++ r)
  meets : r ≠ [] → Meets ct r

theorem seen_nil : Seen ct [] r ↔ (r ≠ [] → Meets ct r) := by
  refine ⟨Seen.meets, fun h => ⟨fun x t' ht => ?_, h⟩⟩
  exact absurd (List.suffix_nil.mp ht) (by simp)

theorem seen_cons : Seen ct (x :: t) r ↔ Clear ct (x :: t ++ r) ∧ Seen ct t r := by
  constructor
  · rintro ⟨hclear, hmeets⟩
    exact ⟨hclear x t (List.suffix_refl _),
      fun y t' ht => hclear y t' (ht.trans (List.suffix_cons x t)), hmeets⟩
  · rintro ⟨hx, hclear, hmeets⟩
    refine ⟨fun y t' ht => ?_, hmeets⟩
    rcases List.suffix_cons_iff.mp ht with heq | ht
    · rwa [heq]
    · exact hclear y t' ht

/-- **`strpbrk`** finds the end of a run exactly if it sees no delimiter on the run, and one behind
it. -/
theorem findsEnd_iff (hct : ∀ c ∈ ct, c ≠ 0) (hz : ∀ c ∈ t ++ r, c ≠ 0) :
    FindsEnd ct t r ↔ Seen ct t r := by
  induction t with
  | nil =>
      rw [seen_nil, FindsEnd, List.nil_append]
      cases r with
      | nil => exact iff_of_true (by simp [strpbrk]) fun h => absurd rfl h
      | cons d r =>
          have hd : d ≠ 0 := hz d (by simp)
          have hmeets := anyAhead_eq_true (l := d :: r) hct
          rw [List.cons_append] at hmeets
          rw [List.cons_append, strpbrk_cons hd, if_neg (List.cons_ne_nil d r), ← hmeets]
          rcases anyAhead (d :: (r ++ [0])) ct with _ | _ | _
          · simp
          · rcases strpbrk ct (r ++ [0]) with _ | _ | _ <;> simp
          · simp
  | cons x t ih =>
      have hx : x ≠ 0 := hz x (by simp)
      have hclear := anyAhead_eq_false (l := x :: t ++ r) hct
      rw [List.cons_append, List.cons_append] at hclear
      rw [seen_cons, List.cons_append, ← ih fun c hc => hz c (by simp at hc ⊢; tauto), ← hclear,
        FindsEnd, FindsEnd, List.cons_append, List.cons_append, strpbrk_cons hx]
      rcases anyAhead (x :: (t ++ r ++ [0])) ct with _ | _ | _
      · simp
      · rcases strpbrk ct (t ++ r ++ [0]) with _ | _ | k
        · simp
        · by_cases hr : r = [] <;> simp [hr]
        · by_cases hr : r = [] <;> simp [hr]
      · by_cases hr : r = [] <;> simp [hr]

end Search

/-! ## A string, run by run -/

section Runs
variable {ct l t r s : CharStr} {d : UInt8}

/-- Every string is delimiters, a run, and the end or a delimiter with the rest behind it. -/
theorem exists_run (ct s : CharStr) : ∃ l t r, s = l ++ (t ++ r) ∧ (∀ c ∈ l, c ∈ ct) ∧
    (∀ c ∈ t, c ∉ ct) ∧ (∀ c ∈ r.head?, c ∈ ct) ∧ (t = [] → r = []) := by
  refine ⟨leadOf ct s, (s.dropWhile (· ∈ ct)).takeWhile (· ∉ ct),
    (s.dropWhile (· ∈ ct)).dropWhile (· ∉ ct), ?_, ?_, ?_, ?_, ?_⟩
  · rw [List.takeWhile_append_dropWhile, leadOf, List.takeWhile_append_dropWhile]
  · intro c hc
    simpa using List.mem_takeWhile_imp hc
  · intro c hc
    simpa using List.mem_takeWhile_imp hc
  · intro c hc
    have hnot := List.head?_dropWhile_not (· ∉ ct) (s.dropWhile (· ∈ ct))
    rw [Option.mem_def.mp hc] at hnot
    simpa using hnot
  · intro ht
    cases hd : s.dropWhile (· ∈ ct) with
    | nil => rfl
    | cons x r =>
        have hnot := List.head?_dropWhile_not (· ∈ ct) s
        rw [hd] at hnot ht
        rw [List.takeWhile_cons_of_pos (by simpa using hnot)] at ht
        cases ht

/-- The first character behind delimiters is that of the run. -/
theorem head?_not_mem (ht : ∀ c ∈ t, c ∉ ct) (htr : t = [] → r = []) :
    ∀ c ∈ (t ++ r).head?, c ∉ ct := by
  cases t with
  | nil => simp [htr rfl]
  | cons x t =>
      intro c hc
      exact ht c (by simp at hc; simp [hc])

theorem leadOf_append (hl : ∀ c ∈ l, c ∈ ct) (hr : ∀ c ∈ r.head?, c ∉ ct) :
    leadOf ct (l ++ r) = l := by
  rw [leadOf, List.takeWhile_append_of_pos (by simpa using hl)]
  cases r with
  | nil => simp
  | cons x r => rw [List.takeWhile_cons_of_neg (by simpa using hr x rfl), List.append_nil]

/-- Delimiters and nothing else are in order. -/
theorem Splittable.inOrder (h : Splittable ct s) (hall : ∀ c ∈ s, c ∈ ct) : InOrder ct s := by
  have hlead := h.lead
  rwa [leadOf, List.takeWhile_eq_self_iff.mpr (by simpa using hall)] at hlead

/-- The runs of a string. -/
theorem runsOf_delims (hl : ∀ c ∈ l, c ∈ ct) : runsOf ct (l ++ s) = runsOf ct s := by
  induction l with
  | nil => rfl
  | cons c l ih =>
      have hc : decide (c ∈ ct) = true := by simpa using hl c List.mem_cons_self
      rw [← ih fun x hx => hl x (List.mem_cons_of_mem _ hx), runsOf, runsOf, List.cons_append,
        List.splitOnP_cons_eq_if_modifyHead, if_pos hc, List.filter_cons_of_neg (by simp)]

theorem runsOf_run (ht : ∀ c ∈ t, c ∉ ct) (hne : t ≠ []) : runsOf ct t = [t] := by
  rw [runsOf, List.splitOnP_eq_singleton (by simpa using ht)]
  simp [hne]

theorem runsOf_run_delim (ht : ∀ c ∈ t, c ∉ ct) (hne : t ≠ []) (hd : d ∈ ct) :
    runsOf ct (t ++ d :: s) = t :: runsOf ct s := by
  rw [runsOf, List.splitOnP_append_cons_of_forall_mem (by simpa using ht) _ (by simpa using hd),
    List.filter_cons_of_pos (by simpa using hne), runsOf]

/-- The end of two lists is one of the second, or more than that. -/
theorem suffix_append_cases {u a b : CharStr} (h : u <:+ a ++ b) :
    u <:+ b ∨ ∃ a', a' <:+ a ∧ a' ≠ [] ∧ u = a' ++ b := by
  induction a with
  | nil => exact Or.inl h
  | cons x a ih =>
      rcases List.suffix_cons_iff.mp h with rfl | h
      · exact Or.inr ⟨x :: a, List.suffix_refl _, List.cons_ne_nil x a, rfl⟩
      · rcases ih h with h | ⟨a', ha', hne, rfl⟩
        · exact Or.inl h
        · exact Or.inr ⟨a', ha'.trans (List.suffix_cons x a), hne, rfl⟩

/-- A part of a string that begins with no delimiter begins on the run or behind it. -/
theorem suffix_of_run {x : UInt8} {u : CharStr} (hl : ∀ c ∈ l, c ∈ ct) (hx : x ∉ ct)
    (h : x :: u <:+ l ++ (t ++ r)) :
    x :: u <:+ r ∨ ∃ t', x :: t' <:+ t ∧ u = t' ++ r := by
  rcases suffix_append_cases h with h | ⟨l', hl', hne, hu⟩
  · rcases suffix_append_cases h with h | ⟨t', ht', hne, hu⟩
    · exact Or.inl h
    · cases t' with
      | nil => exact absurd rfl hne
      | cons y t' =>
          rw [List.cons_append, List.cons.injEq] at hu
          obtain ⟨rfl, rfl⟩ := hu
          exact Or.inr ⟨t', ht', rfl⟩
  · cases l' with
    | nil => exact absurd rfl hne
    | cons y l' =>
        rw [List.cons_append, List.cons.injEq] at hu
        exact absurd (hl y (hl'.subset List.mem_cons_self)) (hu.1 ▸ hx)

/-- A string with one run at its end. -/
theorem splittable_last (hl : ∀ c ∈ l, c ∈ ct) (ht : ∀ c ∈ t, c ∉ ct) :
    Splittable ct (l ++ t) ↔ InOrder ct l ∧ Seen ct t [] := by
  have hlead : leadOf ct (l ++ t) = l :=
    leadOf_append hl fun c hc => ht c (List.mem_of_mem_head? hc)
  constructor
  · rintro ⟨hin, hclear, -⟩
    refine ⟨hlead ▸ hin, fun x t' ht' => ?_, fun h => absurd rfl h⟩
    rw [List.append_nil]
    exact hclear x t' (List.suffix_append_of_suffix ht') (ht x (ht'.subset List.mem_cons_self))
  · rintro ⟨hin, hclear, -⟩
    have hcut : ∀ {x : UInt8} {u : CharStr}, x ∉ ct → x :: u <:+ l ++ t → x :: u <:+ t := by
      intro x u hx h
      rw [← List.append_nil t] at h
      rcases suffix_of_run hl hx h with h | ⟨t', ht', rfl⟩
      · exact absurd (List.suffix_nil.mp h) (by simp)
      · rwa [List.append_nil]
    refine ⟨hlead.symm ▸ hin, fun x u h hx => ?_, fun x d u h hx hd => ?_⟩
    · simpa using hclear x u (hcut hx h)
    · have hmem : d ∈ t := (hcut hx h).subset (by simp)
      exact absurd hd (ht d hmem)

/-- A string with a delimiter behind its first run. -/
theorem splittable_run (hl : ∀ c ∈ l, c ∈ ct) (ht : ∀ c ∈ t, c ∉ ct) (hne : t ≠ [])
    (hd : d ∈ ct) : Splittable ct (l ++ (t ++ d :: s)) ↔
      InOrder ct l ∧ Seen ct t (d :: s) ∧ Splittable ct s := by
  have hlead : leadOf ct (l ++ (t ++ d :: s)) = l :=
    leadOf_append hl (head?_not_mem ht fun h => absurd h hne)
  have hsuffix : s <:+ l ++ (t ++ d :: s) := by
    refine List.suffix_append_of_suffix (List.suffix_append_of_suffix ?_)
    exact List.suffix_cons d s
  constructor
  · rintro ⟨hin, hclear, hends⟩
    obtain ⟨t₀, x, rfl⟩ := (List.eq_nil_or_concat' t).resolve_left hne
    have hend : x :: d :: s <:+ l ++ (t₀ ++ [x] ++ d :: s) :=
      ⟨l ++ t₀, by simp⟩
    obtain ⟨hmeets, hnext⟩ := hends x d s hend (ht x (by simp)) hd
    refine ⟨hlead ▸ hin, ⟨fun y t' ht' => ?_, fun _ => hmeets⟩, hnext, ?_, ?_⟩
    · obtain ⟨u, hu⟩ := ht'
      refine hclear y _ ⟨l ++ u, ?_⟩ (ht y (hu ▸ by simp))
      rw [← hu]
      simp
    · exact fun y u hu => hclear y u (hu.trans hsuffix)
    · exact fun y e u hu => hends y e u (hu.trans hsuffix)
  · rintro ⟨hin, ⟨hclear, hmeets⟩, hs⟩
    refine ⟨hlead.symm ▸ hin, fun x u h hx => ?_, fun x e u h hx he => ?_⟩
    · rcases suffix_of_run hl hx h with h | ⟨t', ht', rfl⟩
      · rcases List.suffix_cons_iff.mp h with heq | h
        · rw [List.cons.injEq] at heq
          exact absurd hd (heq.1 ▸ hx)
        · exact hs.clear x u h hx
      · exact hclear x t' ht'
    · rcases suffix_of_run hl hx h with h | ⟨t', ht', heq⟩
      · rcases List.suffix_cons_iff.mp h with heq | h
        · rw [List.cons.injEq] at heq
          exact absurd hd (heq.1 ▸ hx)
        · exact hs.ends x e u h hx he
      · cases t' with
        | nil =>
            rw [List.nil_append, List.cons.injEq] at heq
            rw [heq.1, heq.2]
            exact ⟨hmeets (List.cons_ne_nil d s), hs.lead⟩
        | cons y t' =>
            rw [List.cons_append, List.cons.injEq] at heq
            have hmem : y ∈ t := ht'.subset (by simp)
            exact absurd he (heq.1 ▸ ht y hmem)

end Runs

/-! ## Sequences of calls -/

/-- Every further call returns NULL. -/
def Quiet (ct : CharStr) (σ : StrtokState) : Prop :=
  ∀ n, nullCalls ct n σ = some (List.replicate n none)

section Calls
variable {ct s l t r b : CharStr} {σ : StrtokState} {i j : ℕ}

theorem quiet_of_null (h : strtok none ct σ = some (none, σ)) : Quiet ct σ := by
  intro n
  induction n with
  | zero => rfl
  | succ n ih => simp [nullCalls, h, ih, List.replicate_succ]

theorem quiet_of_saved_none (h : σ.saved = none) : Quiet ct σ :=
  quiet_of_null (by simp [strtok, h])

/-- Behind nothing but delimiters in order there is no token. -/
theorem quiet_of_inOrder (hct : ∀ c ∈ ct, c ≠ 0) (hz : ∀ c ∈ s, c ≠ 0) (hi : σ.saved = some i)
    (hs : σ.cells.drop i = s ++ [0]) (hin : InOrder ct s) : Quiet ct σ := by
  refine quiet_of_null ?_
  simp [strtok, hi, (strtokAt_eq hct hz hs).1 hin]

/-- A token that starts with a delimiter is none of the runs. -/
theorem misplaced_ne {y : UInt8} (hy : y ∈ ct) (ht : ∀ c ∈ t, c ∉ ct) (hne : t ≠ []) (k : ℕ) :
    (y :: b).take k ≠ t := by
  intro h
  cases k with
  | zero => exact hne (by rw [← h, List.take_zero])
  | succ k =>
      rw [List.take_succ_cons] at h
      exact ht y (h ▸ List.mem_cons_self) hy

/-- A token is the first run exactly if `strpbrk` found the end of it. -/
theorem take_eq_run_iff {k : Option ℕ} (hk : ∀ m ∈ k, m < (t ++ r).length) :
    (t ++ r).take (k.getD (t ++ r).length) = t ↔ k = if r = [] then none else some t.length := by
  constructor
  · intro h
    cases k with
    | none =>
        rw [Option.getD_none, List.take_length] at h
        rw [if_pos (List.append_right_eq_self.mp h)]
    | some m =>
        have hm := hk m rfl
        have hlen := congrArg List.length h
        rw [Option.getD_some, List.length_take, Nat.min_eq_left hm.le] at hlen
        rw [List.length_append] at hm
        have hr : r ≠ [] := fun h0 => by simp [h0] at hm; omega
        rw [if_neg hr, hlen]
  · intro h
    rw [h]
    split_ifs with hr
    · simp [hr]
    · simp

theorem runsOf_eq_nil_iff : runsOf ct s = [] ↔ ∀ c ∈ s, c ∈ ct := by
  constructor
  · intro h
    obtain ⟨l, t, r, rfl, hl, ht, hr, htr⟩ := exists_run ct s
    by_cases hne : t = []
    · rw [hne, htr hne]
      simpa using hl
    · cases r with
      | nil => simp [runsOf_delims hl, runsOf_run ht hne] at h
      | cons d r => simp [runsOf_delims hl, runsOf_run_delim ht hne (hr d rfl)] at h
  · intro h
    rw [← List.append_nil s, runsOf_delims h]
    rfl

/-- Delimiters and nothing else: `strtok` has to skip them. -/
theorem yields_nil_iff (hct : ∀ c ∈ ct, c ≠ 0) {p : Option ℕ} (hz : ∀ c ∈ l, c ≠ 0)
    (hp : (p <|> σ.saved) = some i) (hs : σ.cells.drop i = l ++ [0]) :
    Yields ct p σ [] ↔ InOrder ct l ∧ Quiet ct σ := by
  obtain ⟨hnull, htoken⟩ := strtokAt_eq hct hz hs
  have hcall : strtok p ct σ = strtokAt i ct σ := by
    rw [strtok, hp]
  rw [Yields, hcall]
  by_cases hin : behindRuns ct l = []
  · rw [hnull hin]
    constructor
    · rintro ⟨σ', hσ, hquiet⟩
      cases hσ
      exact ⟨hin, hquiet⟩
    · exact fun h => ⟨σ, rfl, h.2⟩
  · obtain ⟨j, -, hrun⟩ := htoken hin
    refine iff_of_false ?_ fun h => hin h.1
    rintro ⟨σ', hσ, -⟩
    rw [hrun, Option.map_eq_some_iff] at hσ
    obtain ⟨k, -, hσ⟩ := hσ
    cases k <;> cases hσ

/-- The first token is the text behind the delimiters that are skipped, up to where `strpbrk`
stops. -/
theorem yields_cons_iff (hct : ∀ c ∈ ct, c ≠ 0) {p : Option ℕ} (hz : ∀ c ∈ s, c ≠ 0)
    (hp : (p <|> σ.saved) = some i) (hs : σ.cells.drop i = s ++ [0])
    (hb : behindRuns ct s = b) (hne : b ≠ []) (ts : List CharStr) :
    ∃ j, σ.cells.drop j = b ++ [0] ∧ (Yields ct p σ (t :: ts) ↔
      ∃ k, strpbrk ct (b ++ [0]) = some k ∧ (∀ m ∈ k, m < b.length) ∧
        b.take (k.getD b.length) = t ∧ Yields ct none (foundAt j σ k).2 ts) := by
  subst hb
  obtain ⟨j, hj, hrun⟩ := (strtokAt_eq hct hz hs).2 hne
  have hcall : strtok p ct σ = strtokAt i ct σ := by
    rw [strtok, hp]
  have hzb : ∀ c ∈ behindRuns ct s, c ≠ 0 := fun c hc => hz c ((behindRuns_suffix ct _).subset hc)
  have hlt : ∀ {k : Option ℕ}, strpbrk ct (behindRuns ct s ++ [0]) = some k →
      ∀ m ∈ k, m < (behindRuns ct s).length := by
    intro k hk m hm
    rw [Option.mem_def.mp hm] at hk
    exact strpbrk_lt hk
  refine ⟨j, hj, ?_⟩
  rw [Yields, hcall, hrun]
  constructor
  · rintro ⟨j', σ', hσ, htext, hrest⟩
    obtain ⟨k, hk, hfound⟩ := Option.map_eq_some_iff.mp hσ
    have hpos : (foundAt j σ k).1 = some j := by
      cases k <;> rfl
    rw [hfound] at hpos
    cases hpos
    refine ⟨k, hk, hlt hk, ?_, by rw [hfound]; exact hrest⟩
    rw [← textAt_foundAt hzb hj (hlt hk), hfound, htext]
  · rintro ⟨k, hk, hk', htext, hrest⟩
    refine ⟨j, (foundAt j σ k).2, ?_, ?_, hrest⟩
    · rw [hk, Option.map_some]
      cases k <;> rfl
    · rw [textAt_foundAt hzb hj hk', htext]

theorem found_run_iff (P : Option ℕ → Prop) :
    (∃ k, strpbrk ct (t ++ r ++ [0]) = some k ∧ (∀ m ∈ k, m < (t ++ r).length) ∧
      (t ++ r).take (k.getD (t ++ r).length) = t ∧ P k) ↔
      FindsEnd ct t r ∧ P (if r = [] then none else some t.length) := by
  constructor
  · rintro ⟨k, hk, hlt, htext, hP⟩
    rw [take_eq_run_iff hlt] at htext
    subst htext
    exact ⟨hk, hP⟩
  · rintro ⟨hk, hP⟩
    have hlt : ∀ m ∈ (if r = [] then none else some t.length), m < (t ++ r).length := by
      intro m hm
      rw [FindsEnd, Option.mem_def.mp hm] at hk
      exact strpbrk_lt hk
    exact ⟨_, hk, hlt, (take_eq_run_iff hlt).mpr rfl, hP⟩

/-- A call returns the first run exactly if the delimiters in front of it are skipped and
`strpbrk` sees its end. -/
theorem yields_run_iff (hct : ∀ c ∈ ct, c ≠ 0) {p : Option ℕ} (hz : ∀ c ∈ l ++ (t ++ r), c ≠ 0)
    (hp : (p <|> σ.saved) = some i) (hs : σ.cells.drop i = l ++ (t ++ r) ++ [0])
    (hl : ∀ c ∈ l, c ∈ ct) (ht : ∀ c ∈ t, c ∉ ct) (hne : t ≠ []) (ts : List CharStr) :
    ∃ j, (InOrder ct l → σ.cells.drop j = t ++ r ++ [0]) ∧ (Yields ct p σ (t :: ts) ↔
      InOrder ct l ∧ Seen ct t r ∧
        Yields ct none (foundAt j σ (if r = [] then none else some t.length)).2 ts) := by
  have hbehind := behindRuns_append (l := l) (head?_not_mem (r := r) ht fun h => absurd h hne)
  have hbne : behindRuns ct l ++ (t ++ r) ≠ [] := by simp [hne]
  obtain ⟨j, hj, hyields⟩ := yields_cons_iff (t := t) hct hz hp hs hbehind hbne ts
  refine ⟨j, fun hin => by rw [hj, hin, List.nil_append], hyields.trans ?_⟩
  cases hin : behindRuns ct l with
  | cons y b =>
      -- A delimiter is not skipped, and the token starts with it.
      have hy : y ∈ ct := hl y ((behindRuns_suffix ct l).subset (hin ▸ List.mem_cons_self))
      refine iff_of_false ?_ fun h => ?_
      · rintro ⟨k, -, -, htext, -⟩
        exact misplaced_ne hy ht hne _ htext
      · rw [InOrder, hin] at h
        cases h.1
  | nil =>
      have hlead : InOrder ct l := hin
      have hfind := findsEnd_iff (t := t) (r := r) hct fun c hc =>
        hz c (List.mem_append_right _ hc)
      simp only [List.nil_append]
      rw [found_run_iff fun k => Yields ct none (foundAt j σ k).2 ts, hfind]
      exact (and_iff_right hlead).symm

/-- **From one call on**: the first token, and the rest by induction on what is left. -/
theorem yields_iff (hct : ∀ c ∈ ct, c ≠ 0) {p : Option ℕ} (hz : ∀ c ∈ s, c ≠ 0)
    (hp : (p <|> σ.saved) = some i) (hs : σ.cells.drop i = s ++ [0]) :
    Yields ct p σ (runsOf ct s) ↔ Splittable ct s ∧ (runsOf ct s = [] → Quiet ct σ) := by
  induction hlen : s.length using Nat.strong_induction_on generalizing s σ p i with
  | _ len ih =>
      obtain ⟨l, t, r, rfl, hl, ht, hr, htr⟩ := exists_run ct s
      by_cases hne : t = []
      · have hrnil := htr hne
        subst hne hrnil
        have hsplit := splittable_last hl ht
        have hseen : Seen ct [] [] := seen_nil.mpr fun h => absurd rfl h
        simp only [List.append_nil] at *
        rw [runsOf_eq_nil_iff.mpr hl, hsplit, yields_nil_iff hct hz hp hs]
        simp [hseen]
      · obtain ⟨j, hj, hyields⟩ := yields_run_iff hct hz hp hs hl ht hne (runsOf ct r.tail)
        cases r with
        | nil =>
            have hdone : Yields ct none (foundAt j σ none).2 (runsOf ct []) :=
              ⟨_, rfl, quiet_of_saved_none rfl⟩
            rw [List.append_nil, runsOf_delims hl, runsOf_run ht hne]
            rw [List.tail_nil, if_pos rfl] at hyields
            refine hyields.trans ?_
            rw [splittable_last hl ht]
            simp [hdone]
        | cons d r =>
            have hd : d ∈ ct := hr d rfl
            rw [runsOf_delims hl, runsOf_run_delim ht hne hd, splittable_run hl ht hne hd]
            rw [List.tail_cons, if_neg (List.cons_ne_nil d r)] at hyields
            refine hyields.trans ?_
            simp only [reduceCtorEq, false_implies, and_true]
            refine and_congr_right fun hlead => and_congr_right fun _ => ?_
            -- Behind the delimiter the next call goes on.
            have hlast : t.length < (t ++ d :: r).length := by simp
            have hdrop : (t ++ d :: r).drop (t.length + 1) = r := by
              rw [← List.drop_drop, List.drop_left, List.drop_one, List.tail_cons]
            have hnext := drop_foundAt (hj hlead) hlast
            rw [hdrop] at hnext
            have hzr : ∀ c ∈ r, c ≠ 0 := fun c hc => hz c (by simp [hc])
            rw [ih r.length (by rw [← hlen]; simp; omega) hzr rfl hnext rfl]
            refine and_iff_left_of_imp fun h hnil => ?_
            exact quiet_of_inOrder hct hzr rfl hnext (h.inOrder (runsOf_eq_nil_iff.mp hnil))

/-- A string of delimiters in order: the call with NULL goes to the string that was split before. -/
theorem quiet_initial_iff {s : CString} {saved : Option ℕ} (hct : ∀ c ∈ ct, c ≠ 0)
    (hin : InOrder ct s.chars) :
    Quiet ct (.initial s saved) ↔ ∀ q ∈ saved, q ≤ s.chars.length := by
  constructor
  · intro h q hq
    by_contra hlt
    have hlen : (s.chars ++ [0]).length ≤ q := by
      rw [List.length_append, List.length_singleton]
      omega
    have hone := h 1
    rw [Option.mem_def] at hq
    simp [nullCalls, strtok, strtokAt, StrtokState.initial, hq, List.drop_eq_nil_of_le hlen,
      strspn] at hone
  · intro h
    cases saved with
    | none => exact quiet_of_saved_none rfl
    | some q =>
        have hq : q ≤ s.chars.length := h q rfl
        refine quiet_of_inOrder (s := s.chars.drop q) hct
          (fun c hc => s.nonzero c (List.mem_of_mem_drop hc)) rfl ?_ ?_
        · rw [StrtokState.initial, List.drop_append_of_le_length hq]
        · rw [← List.take_append_drop q s.chars] at hin
          exact hin.of_append

end Calls

/-- **`strtok`** splits a string exactly if the delimiters are where it looks for them; a string
without a token needs a pointer that is not left in another one. -/
theorem strtok_splits_iff (s ct : CString) (saved : Option ℕ) :
    Splits s ct saved ↔ Splittable ct.chars s.chars ∧
      ((∀ c ∈ s.chars, c ∈ ct.chars) → ∀ q ∈ saved, q ≤ s.chars.length) := by
  rw [Splits, yields_iff (i := 0) ct.nonzero s.nonzero rfl rfl, runsOf_eq_nil_iff]
  exact and_congr_right fun h => forall_congr' fun hall =>
    quiet_initial_iff ct.nonzero (h.inOrder hall)

/-- The string of an `a`, a tab and a `b`, and the delimiters blank and tab. -/
def stringATabB : CString := ⟨[0x61, 0x09, 0x62], by simp⟩
def blanks : CString := ⟨[0x20, 0x09], by simp⟩

/-- **An empty token**: the tab stands one place behind the letter, and one place behind the blank
in the other string. -/
theorem strtok_empty_token :
    strtok (some 0) blanks.chars (.initial stringATabB none) =
        some (some 0, ⟨[0, 0x09, 0x62, 0], some 1⟩) ∧
      runsOf blanks.chars stringATabB.chars = [[0x61], [0x62]] ∧
      ¬ Splits stringATabB blanks none := by
  have hfirst : strtok (some 0) blanks.chars (.initial stringATabB none) =
      some (some 0, ⟨[0, 0x09, 0x62, 0], some 1⟩) := rfl
  have hruns : runsOf blanks.chars stringATabB.chars = [[0x61], [0x62]] := by decide
  refine ⟨hfirst, hruns, ?_⟩
  rw [Splits, hruns]
  rintro ⟨j, σ, hcall, htext, -⟩
  rw [hfirst] at hcall
  cases hcall
  cases htext

end OxKernel.Libk
