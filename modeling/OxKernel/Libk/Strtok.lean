import OxKernel.Libk.Compare
import Mathlib.Data.List.TakeWhile

/-!
# `strtok`

`strtok` of `string.c`, with `strspn` and `strpbrk`, which it calls. The string that is split is
an object of its own: a list of bytes, the terminator the last one, and a pointer into it is an
index. A read behind the object has no result, and the pointer that `strtok` saves may have been
left outside of it by a string that was split before.

`strspn` goes over the delimiters once, so it skips them only in their own order. `strpbrk`
compares the `i`-th delimiter with the character `i` places on.

## Main definitions

* `strspn`, `strpbrk`, `strtok` — the functions.
* `tokenLoop` — the loop of a caller.

## Main results

* `strspn_eq` — what `strspn` skips.
* `strtokAt_eq` — what a call returns and leaves behind.
* `tokenLoop_isSome` — the loop ends.
-/
namespace OxKernel.Libk

/-! ## The functions -/

/-- The inner loop of `strspn`: how often the bytes start with `c`, and what is behind. -/
def spanOf (c : UInt8) : CharStr → Option (ℕ × CharStr)
  | [] => none
  | x :: cs =>
    if c = x then do
      let (i, cs) ← spanOf c cs
      return (i + 1, cs)
    else some (0, x :: cs)

/-- `strspn`, of the bytes from a pointer on. -/
def strspn : CharStr → CharStr → Option ℕ
  | [], _ => none
  | _ :: _, [] => some 0
  | x :: cs, c :: ct =>
    if x = 0 then some 0
    else do
      let (i, cs) ← spanOf c (x :: cs)
      let n ← strspn cs ct
      return i + n

/-- The inner loop of `strpbrk`. -/
def anyAhead : CharStr → CharStr → Option Bool
  | _, [] => some false
  | [], _ :: _ => none
  | x :: cs, c :: ct => if x = c then some true else anyAhead cs ct

/-- `strpbrk`, of the bytes from a pointer on: how far behind the pointer its result is. -/
def strpbrk (ct : CharStr) : CharStr → Option (Option ℕ)
  | [] => none
  | x :: cs =>
    if x = 0 then some none
    else do
      if ← anyAhead (x :: cs) ct then return some 0
      else
        let k ← strpbrk ct cs
        return k.map (· + 1)

/-- The bytes of the string, and the pointer `___strtok`. -/
structure StrtokState where
  cells : CharStr
  saved : Option ℕ

/-- `strtok` behind the choice of `i`. -/
def strtokAt (i : ℕ) (ct : CharStr) (σ : StrtokState) : Option (Option ℕ × StrtokState) := do
  let n ← strspn (σ.cells.drop i) ct
  let j := i + n
  let c ← σ.cells[j]?
  if c = 0 then return (none, σ)
  else
    match ← strpbrk ct (σ.cells.drop j) with
    | none => return (some j, { σ with saved := none })
    | some k => return (some j, ⟨σ.cells.set (j + k) 0, some (j + k + 1)⟩)

/-- `strtok`. -/
def strtok (s : Option ℕ) (ct : CharStr) (σ : StrtokState) :
    Option (Option ℕ × StrtokState) :=
  match s <|> σ.saved with
  | none => some (none, σ)
  | some i => strtokAt i ct σ

/-- The string at an index. -/
def textAt (cells : CharStr) (j : ℕ) : CharStr := (cells.drop j).takeWhile (· ≠ 0)

/-! ## What `strspn` skips -/

/-- What is left behind a run of the first character of `ct`, one of the second, and so on. -/
def behindRuns : CharStr → CharStr → CharStr
  | [], l => l
  | c :: ct, l => behindRuns ct (l.dropWhile (· = c))

section Spans
variable {l : CharStr} {ct : CharStr} {c : UInt8}

theorem spanOf_eq (hc : c ≠ 0) : spanOf c (l ++ [0]) =
    some ((l.takeWhile (· = c)).length, l.dropWhile (· = c) ++ [0]) := by
  induction l with
  | nil => simp [spanOf, hc]
  | cons x l ih =>
      by_cases hx : x = c
      · subst hx
        simp [spanOf, ih]
      · have hx' : c ≠ x := fun h => hx h.symm
        simp [spanOf, hx, hx']

theorem behindRuns_suffix (ct l : CharStr) : behindRuns ct l <:+ l := by
  induction ct generalizing l with
  | nil => exact List.suffix_refl l
  | cons c ct ih => exact (ih _).trans (List.dropWhile_suffix _)

theorem drop_length_takeWhile_add (p : UInt8 → Bool) (l : CharStr) (n : ℕ) :
    l.drop ((l.takeWhile p).length + n) = (l.dropWhile p).drop n := by
  induction l with
  | nil => simp
  | cons x l ih =>
      by_cases hx : p x
      · rw [List.takeWhile_cons_of_pos hx, List.dropWhile_cons_of_pos hx, List.length_cons,
          Nat.add_right_comm, List.drop_succ_cons, ih]
      · rw [List.takeWhile_cons_of_neg hx, List.dropWhile_cons_of_neg hx, List.length_nil,
          Nat.zero_add]

/-- **`strspn`** skips the runs of the characters of `ct`. -/
theorem strspn_eq (hct : ∀ c ∈ ct, c ≠ 0) (hz : ∀ c ∈ l, c ≠ 0) :
    ∃ n ≤ l.length, strspn (l ++ [0]) ct = some n ∧ l.drop n = behindRuns ct l := by
  induction ct generalizing l with
  | nil =>
      refine ⟨0, Nat.zero_le _, ?_, rfl⟩
      cases l <;> rfl
  | cons c ct ih =>
      cases l with
      | nil =>
          refine ⟨0, le_rfl, rfl, ?_⟩
          rw [behindRuns, List.dropWhile_nil, List.drop_nil]
          exact (List.suffix_nil.mp (behindRuns_suffix ct [])).symm
      | cons x l =>
          have hz' : ∀ y ∈ (x :: l).dropWhile (· = c), y ≠ 0 := fun y hy =>
            hz y ((List.dropWhile_suffix _).subset hy)
          obtain ⟨n, hn, hrun, hdrop⟩ := ih (fun x hx => hct x (List.mem_cons_of_mem _ hx)) hz'
          refine ⟨((x :: l).takeWhile (· = c)).length + n, ?_, ?_, ?_⟩
          · have hlen := congrArg List.length
              (List.takeWhile_append_dropWhile (p := (· = c)) (l := x :: l))
            rw [List.length_append] at hlen
            omega
          · have hspan := spanOf_eq (l := x :: l) (hct c List.mem_cons_self)
            rw [List.cons_append] at hspan
            rw [List.cons_append, strspn, if_neg (hz x List.mem_cons_self), hspan]
            simp [hrun]
          · rw [behindRuns, ← hdrop, drop_length_takeWhile_add]

end Spans

/-! ## One call -/

/-- What `strtok` returns and leaves behind after `strpbrk`, for a token at `j`. -/
def foundAt (j : ℕ) (σ : StrtokState) : Option ℕ → Option ℕ × StrtokState
  | none => (some j, { σ with saved := none })
  | some k => (some j, ⟨σ.cells.set (j + k) 0, some (j + k + 1)⟩)

section Calls
variable {ct s b : CharStr} {x : UInt8} {σ : StrtokState} {i j : ℕ}

theorem strpbrk_cons (hx : x ≠ 0) (cs : CharStr) : strpbrk ct (x :: cs) =
    (anyAhead (x :: cs) ct).bind fun b =>
      if b then some (some 0) else (strpbrk ct cs).map (Option.map (· + 1)) := by
  rw [strpbrk, if_neg hx]
  rcases anyAhead (x :: cs) ct with _ | _ | _ <;> rcases strpbrk ct cs with _ | _ <;> rfl

theorem strpbrk_lt {k : ℕ} (h : strpbrk ct (b ++ [0]) = some (some k)) : k < b.length := by
  induction b generalizing k with
  | nil => simp [strpbrk] at h
  | cons x b ih =>
      by_cases hx : x = 0
      · simp [strpbrk, hx] at h
      · rw [List.cons_append, strpbrk_cons hx] at h
        rcases hahead : anyAhead (x :: (b ++ [0])) ct with _ | _ | _
        · simp [hahead] at h
        · rcases hrest : strpbrk ct (b ++ [0]) with _ | _ | m
          · simp [hahead, hrest] at h
          · simp [hahead, hrest] at h
          · simp [hahead, hrest] at h
            have hlt := ih hrest
            rw [List.length_cons]
            omega
        · simp [hahead] at h
          simp [← h]

theorem getElem?_of_drop {cells : CharStr} (h : cells.drop j = b ++ [0]) :
    cells[j]? = some (b.headD 0) := by
  rw [← List.head?_drop, h]
  cases b <;> rfl

/-- **`strtok`** at the beginning of a string. -/
theorem strtokAt_eq (hct : ∀ c ∈ ct, c ≠ 0) (hz : ∀ c ∈ s, c ≠ 0)
    (hs : σ.cells.drop i = s ++ [0]) :
    (behindRuns ct s = [] → strtokAt i ct σ = some (none, σ)) ∧
      (behindRuns ct s ≠ [] → ∃ j, σ.cells.drop j = behindRuns ct s ++ [0] ∧
        strtokAt i ct σ = (strpbrk ct (behindRuns ct s ++ [0])).map (foundAt j σ)) := by
  obtain ⟨n, hn, hspan, hdrop⟩ := strspn_eq hct hz
  have hj : σ.cells.drop (i + n) = behindRuns ct s ++ [0] := by
    rw [← List.drop_drop, hs, List.drop_append_of_le_length hn, hdrop]
  have hc := getElem?_of_drop hj
  constructor
  · intro hb
    rw [hb] at hc
    simp [strtokAt, hs, hspan, hc]
  · intro hb
    refine ⟨i + n, hj, ?_⟩
    have hne : (behindRuns ct s).headD 0 ≠ 0 := by
      cases hcs : behindRuns ct s with
      | nil => exact absurd hcs hb
      | cons c cs => exact hz c ((behindRuns_suffix ct s).subset (hcs ▸ List.mem_cons_self))
    simp only [strtokAt, hs, hspan, hc, hj, Option.bind_eq_bind, Option.bind_some, if_neg hne]
    rcases strpbrk ct (behindRuns ct s ++ [0]) with _ | _ | k <;> rfl

theorem takeWhile_string (hz : ∀ c ∈ b, c ≠ 0) (r : CharStr) :
    (b ++ 0 :: r).takeWhile (· ≠ 0) = b := by
  rw [List.takeWhile_append_of_pos (by simpa using hz), List.takeWhile_cons_of_neg (by simp),
    List.append_nil]

/-- The string at the token when `strtok` returns. -/
theorem textAt_foundAt {k : Option ℕ} (hz : ∀ c ∈ b, c ≠ 0) (hj : σ.cells.drop j = b ++ [0])
    (hk : ∀ m ∈ k, m < b.length) :
    textAt (foundAt j σ k).2.cells j = b.take (k.getD b.length) := by
  cases k with
  | none =>
      rw [foundAt, textAt, hj, takeWhile_string hz, Option.getD_none, List.take_length]
  | some m =>
      have hm := hk m rfl
      have hset : (b ++ [0]).set m 0 = b.take m ++ 0 :: (b.drop (m + 1) ++ [0]) := by
        rw [List.set_append_left _ _ hm, List.set_eq_take_append_cons_drop, if_pos hm,
          List.append_assoc, List.cons_append]
      rw [foundAt, textAt, List.drop_set, if_neg (by omega), Nat.add_sub_cancel_left, hj, hset,
        takeWhile_string fun c hc => hz c (List.mem_of_mem_take hc), Option.getD_some]

/-- What is left for the next call. -/
theorem drop_foundAt {m : ℕ} (hj : σ.cells.drop j = b ++ [0]) (hm : m < b.length) :
    (foundAt j σ (some m)).2.cells.drop (j + m + 1) = b.drop (m + 1) ++ [0] := by
  rw [foundAt, List.drop_set_of_lt (by omega), Nat.add_assoc, ← List.drop_drop, hj,
    List.drop_append_of_le_length hm]

end Calls

/-! ## The loop of a caller -/

/-- The loop `for(t = strtok(s, ct); t; t = strtok(NULL, ct))`: its tokens, as they are when the
calls return. No result if it has not ended after the given number of calls. -/
def tokenLoop (ct : CharStr) : ℕ → Option ℕ → StrtokState → Option (List CharStr)
  | 0, _, _ => none
  | calls + 1, s, σ => do
    match ← strtok s ct σ with
    | (none, _) => return []
    | (some j, σ) => do
      let ts ← tokenLoop ct calls none σ
      return textAt σ.cells j :: ts

section Loop
variable {ct s : CharStr} {σ : StrtokState} {i : ℕ}

theorem anyAhead_isSome {cs : CharStr} (h : ct.length ≤ cs.length) : (anyAhead cs ct).isSome := by
  induction ct generalizing cs with
  | nil => cases cs <;> rfl
  | cons c ct ih =>
      cases cs with
      | nil => exact absurd h (by simp)
      | cons x cs =>
          rw [anyAhead]
          split
          · rfl
          · exact ih (by simpa using h)

/-- With two delimiters `strpbrk` never looks behind the terminator. -/
theorem strpbrk_isSome (hct : ct.length ≤ 2) (b : CharStr) : (strpbrk ct (b ++ [0])).isSome := by
  induction b with
  | nil => simp [strpbrk]
  | cons x b ih =>
      by_cases hx : x = 0
      · simp [strpbrk, hx]
      · have hahead : (anyAhead (x :: (b ++ [0])) ct).isSome :=
          anyAhead_isSome (hct.trans (by simp))
        obtain ⟨found, hfound⟩ := Option.isSome_iff_exists.mp hahead
        obtain ⟨k, hk⟩ := Option.isSome_iff_exists.mp ih
        rw [List.cons_append, strpbrk_cons hx, hfound, hk]
        cases found <;> rfl

theorem tokenLoop_null (calls : ℕ) (h : σ.saved = none) :
    tokenLoop ct (calls + 1) none σ = some [] := by
  simp [tokenLoop, strtok, h]

/-- **The loop ends**, with no more tokens than the string has characters: each call but the last
gets past one of them. -/
theorem tokenLoop_isSome (hct : ∀ c ∈ ct, c ≠ 0) (htwo : ct.length ≤ 2) {p : Option ℕ}
    (hz : ∀ c ∈ s, c ≠ 0) (hp : (p <|> σ.saved) = some i) (hs : σ.cells.drop i = s ++ [0])
    {calls : ℕ} (hcalls : s.length + 2 ≤ calls) : (tokenLoop ct calls p σ).isSome := by
  induction calls generalizing s σ p i with
  | zero => exact absurd hcalls (by simp)
  | succ calls ih =>
      obtain ⟨hnull, htoken⟩ := strtokAt_eq hct hz hs
      have hcall : strtok p ct σ = strtokAt i ct σ := by
        rw [strtok, hp]
      by_cases hb : behindRuns ct s = []
      · simp [tokenLoop, hcall, hnull hb]
      · obtain ⟨j, hj, hrun⟩ := htoken hb
        obtain ⟨k, hk⟩ := Option.isSome_iff_exists.mp (strpbrk_isSome htwo (behindRuns ct s))
        have hle := (behindRuns_suffix ct s).length_le
        rw [hk, Option.map_some] at hrun
        cases k with
        | none =>
            -- The next call returns NULL.
            obtain ⟨calls, rfl⟩ : ∃ n, calls = n + 1 := ⟨calls - 1, by omega⟩
            have hend : tokenLoop ct (calls + 1) none { σ with saved := none } = some [] :=
              tokenLoop_null calls rfl
            rw [tokenLoop]
            simp [hcall, hrun, foundAt, hend]
        | some m =>
            have hm := strpbrk_lt hk
            have hrest := ih (σ := (foundAt j σ (some m)).2) (p := none)
              (s := (behindRuns ct s).drop (m + 1))
              (fun c hc => hz c ((behindRuns_suffix ct s).subset (List.mem_of_mem_drop hc))) rfl
              (drop_foundAt hj hm) (by rw [List.length_drop]; omega)
            obtain ⟨ts, hts⟩ := Option.isSome_iff_exists.mp hrest
            rw [foundAt] at hts
            simp [tokenLoop, hcall, hrun, foundAt, hts]

end Loop

end OxKernel.Libk
