import Mathlib.Data.Nat.Bitwise
import OxKernel.Kernel.Balance
import OxKernel.Kernel.Exit

/-!
# The delivery of signals

`whichbit` and `signal_exec`, which changes the context of the current process so that it goes
on in a signal handler.

## Main definitions

* `whichbit`, `signalExec` — the functions.
* `LeastBit` — the least bit of a word.
* `DeliversLeast` — only the least signal that is pending and not blocked is delivered.
-/
namespace OxKernel.Kernel

open Lib (Call)

/-! ## The functions -/

/-- `whichbit`. -/
def whichbit (bits : UInt32) : Int32 :=
  match (List.range 32).find? fun i => bits &&& UInt32.ofNat i ≠ 0 with
  | some i => Int32.ofNat i
  | none => -1

/-- `struct cpu_ctx`: the instruction pointer and the stack pointer, with the words of the stack. -/
structure CpuCtx where
  eip : UInt32
  esp : UInt32
  stack : UInt32 → UInt32

def sigIgn : UInt32 := 1
def sigDfl : UInt32 := 0
def saOneshot : UInt32 := 0x40000000

/-- The index of a valid signal. -/
def ValidSignal.index {signal : Int32} (h : ValidSignal signal) : Fin 32 :=
  ⟨signal.toInt.toNat, by
    obtain ⟨-, hle⟩ := h
    rw [Int32.le_iff_toInt_le] at hle
    have h22 : (22 : Int32).toInt = 22 := by decide
    omega⟩

/-- What `signal_exec` comes to: a value without a signal, the handler of a signal, or the call
of `kexit` for it. -/
inductive ExecResult
  | returned (value : Int32)
  | entered (signal : Int32)
  | exits (signal : Int32)
  deriving DecidableEq

section Exec
variable (e : Env) (oldmask : UInt32)

/-- The test of `SA_ONESHOT`: the signal is handled one time. -/
def oneshot (me : Ptr) (i : Fin 32) : KernelM Unit :=
  Call.modify fun s => s.update me fun x =>
    if (x.sigaction i).flags &&& saOneshot ≠ 0 then
      { x with sigaction := Function.update x.sigaction i { x.sigaction i with handler := 0 } }
    else x

/-- `signal_exec` from the test of `SA_ONESHOT` on. If the process went through `kexit` before,
this comes when it runs again. -/
def enterHandler (me : Ptr) (signal : Int32) (i : Fin 32) (handler : UInt32) (ctx : CpuCtx) :
    KernelM (ExecResult × CpuCtx) := do
  oneshot me i
  let esp := ctx.esp - 4
  let stack := Function.update ctx.stack esp signal.toUInt32
  let s ← Call.get
  let curr ← deref s.currentProcess
  Call.modify fun s => s.update curr fun x =>
    { x with blocked := x.blocked ||| ((s.mem me).sigaction i).mask }
  pure (.entered signal, { eip := handler, esp := esp + 4, stack := stack })

/-- `signal_exec` from the look at the handler on. -/
def deliver (me : Ptr) (signal : Int32) (i : Fin 32) (ctx : CpuCtx) :
    KernelM (ExecResult × CpuCtx) := do
  let s ← Call.get
  let handler := ((s.mem me).sigaction i).handler
  if handler = sigIgn then pure (.returned 0, ctx)
  else if handler = sigDfl then
    if signal = 17 then pure (.returned 0, ctx)
    else do
      let r ← kexit e (1 <<< signal)
      -- Without an init process `kexit` returns at once.
      if r = 0 then enterHandler me signal i handler ctx else pure (.exits signal, ctx)
  else enterHandler me signal i handler ctx

/-- `signal_exec`: what it comes to, and the context. -/
def signalExec (ctx : Option CpuCtx) : KernelM (ExecResult × Option CpuCtx) := do
  let s ← Call.get
  let me ← deref s.currentProcess
  let signal := whichbit ((s.mem me).signal &&& ~~~oldmask)
  if signal = 0 then pure (.returned 0, ctx)
  else if h : ValidSignal signal then
    match ctx with
    | none => pure (.returned (-1), none)
    | some c => do
      let (r, c) ← deliver e me signal h.index c
      pure (r, some c)
  else pure (.returned (-1), ctx)

end Exec

/-! ## The least bit -/

/-- The word is 0 and the number -1, or the number is that of the least bit of the word. -/
def LeastBit (bits : UInt32) (r : Int32) : Prop :=
  (bits = 0 ∧ r = -1) ∨
    ∃ k : ℕ, k < 32 ∧ r = Int32.ofNat k ∧ bits.toNat.testBit k ∧
      ∀ j < k, bits.toNat.testBit j = false

section Bits
variable {bits : UInt32} {k : ℕ}

theorem exists_leastBit (h : bits ≠ 0) :
    ∃ k < 32, bits.toNat.testBit k ∧ ∀ j < k, bits.toNat.testBit j = false := by
  have hne : bits.toNat ≠ 0 := fun h0 => h (UInt32.toNat_inj.mp h0)
  have hex : ∃ k, bits.toNat.testBit k := Nat.exists_testBit_of_ne_zero hne
  refine ⟨Nat.find hex, ?_, Nat.find_spec hex, fun j hj => ?_⟩
  · by_contra hge
    have hbit := Nat.find_spec hex
    have hlt : bits.toNat < 2 ^ Nat.find hex :=
      bits.toNat_lt.trans_le (Nat.pow_le_pow_right (by omega) (by omega))
    rw [Nat.testBit_lt_two_pow hlt] at hbit
    cases hbit
  · have := Nat.find_min hex hj
    simpa using this

/-- The test of `whichbit`. -/
theorem and_ne_zero_iff {i : ℕ} (hi : i < 32) :
    bits &&& UInt32.ofNat i ≠ 0 ↔ ∃ j, bits.toNat.testBit j ∧ i.testBit j := by
  have hofNat : (UInt32.ofNat i).toNat = i := UInt32.toNat_ofNat_of_lt (hi.trans (by decide))
  have hiff : bits &&& UInt32.ofNat i = 0 ↔ bits.toNat &&& i = 0 := by
    rw [← UInt32.toNat_inj, UInt32.toNat_and, hofNat]
    exact Iff.rfl
  rw [ne_eq, hiff]
  constructor
  · intro hne
    obtain ⟨j, hj⟩ := Nat.exists_testBit_of_ne_zero hne
    rw [Nat.testBit_and, Bool.and_eq_true] at hj
    exact ⟨j, hj⟩
  · rintro ⟨j, hj, hij⟩ hzero
    have : (bits.toNat &&& i).testBit j = true := by
      rw [Nat.testBit_and, hj, hij]
      rfl
    rw [hzero] at this
    simp at this

/-- A number below a power of two has no bit from there on. -/
theorem testBit_le {i j : ℕ} (h : i.testBit j) : 2 ^ j ≤ i := Nat.ge_two_pow_of_testBit h

/-- **What `whichbit` finds**: the power of two of the least bit if that is less than 32, and
nothing otherwise. -/
theorem whichbit_eq (hk : bits.toNat.testBit k) (hleast : ∀ j < k, bits.toNat.testBit j = false) :
    whichbit bits = if k ≤ 4 then Int32.ofNat (2 ^ k) else -1 := by
  have hbelow : ∀ i < 32, i < 2 ^ k → ¬ bits &&& UInt32.ofNat i ≠ 0 := by
    intro i hi hlt hand
    obtain ⟨j, hj, hij⟩ := (and_ne_zero_iff hi).mp hand
    have hjk : ¬ j < k := by
      intro hjk
      rw [hleast j hjk] at hj
      cases hj
    have := testBit_le hij
    have := Nat.pow_le_pow_right (by omega : 2 > 0) (Nat.le_of_not_lt hjk)
    omega
  unfold whichbit
  by_cases hk4 : k ≤ 4
  · have hpow : 2 ^ k < 32 := Nat.pow_lt_pow_right (by omega) (by omega : k < 5)
    have hfind : (List.range 32).find? (fun i => bits &&& UInt32.ofNat i ≠ 0) = some (2 ^ k) := by
      apply List.find?_range_eq_some.mpr
      refine ⟨decide_eq_true ?_, List.mem_range.mpr hpow, fun j hj => ?_⟩
      · exact (and_ne_zero_iff hpow).mpr ⟨k, hk, Nat.testBit_two_pow_self⟩
      · simpa using hbelow j (hj.trans hpow) hj
    rw [if_pos hk4, hfind]
  · have hpow : 32 ≤ 2 ^ k := Nat.pow_le_pow_right (n := 2) (by omega) (by omega : 5 ≤ k)
    have hfind : (List.range 32).find? (fun i => bits &&& UInt32.ofNat i ≠ 0) = none := by
      apply List.find?_range_eq_none.mpr
      intro i hi
      simpa using hbelow i hi (by omega)
    rw [if_neg hk4, hfind]

theorem whichbit_zero : whichbit 0 = -1 := by
  decide

/-- The number of a bit is not its place value. -/
theorem ofNat_two_pow_ne (hk : k ≤ 4) : Int32.ofNat (2 ^ k) ≠ Int32.ofNat k := by
  have hall : ∀ k ≤ 4, Int32.ofNat (2 ^ k) ≠ Int32.ofNat k := by decide
  exact hall k hk

/-- `whichbit` finds the least bit of no word but 0. -/
theorem leastBit_whichbit_iff : LeastBit bits (whichbit bits) ↔ bits = 0 := by
  constructor
  · rintro (⟨hzero, -⟩ | ⟨k, hk, heq, hbit, hleast⟩)
    · exact hzero
    · rw [whichbit_eq hbit hleast] at heq
      split at heq
      · next hk4 => exact absurd heq (ofNat_two_pow_ne hk4)
      · have : ∀ k < 32, (-1 : Int32) ≠ Int32.ofNat k := by decide
        exact absurd heq (this k hk)
  · rintro rfl
    exact .inl ⟨rfl, whichbit_zero⟩

end Bits

/-! ## The delivery -/

/-- The signal a call was for. -/
def ExecResult.signal : ExecResult → Option Int32
  | .returned _ => none
  | .entered signal => some signal
  | .exits signal => some signal

/-- Only pending signals that are not blocked are delivered, and of these the least. -/
structure DeliversLeast (e : Env) (oldmask : UInt32) (s : State) (me : Ptr) (ctx : Option CpuCtx) :
    Prop where
  whichbit : LeastBit ((s.mem me).signal &&& ~~~oldmask)
    (whichbit ((s.mem me).signal &&& ~~~oldmask))
  least : ∀ r c s' signal, signalExec e oldmask ctx s = some (.ok (r, c), s') →
    r.signal = some signal → LeastBit ((s.mem me).signal &&& ~~~oldmask) signal
  unchanged : (s.mem me).signal &&& ~~~oldmask = 0 → ∃ value,
    signalExec e oldmask ctx s = some (.ok (.returned value, ctx), s)

section Delivery
variable {e : Env} {oldmask : UInt32} {s : State} {me : Ptr} {ctx : Option CpuCtx}

theorem signalExec_of_zero (hme : s.currentProcess = some me)
    (hzero : (s.mem me).signal &&& ~~~oldmask = 0) :
    signalExec e oldmask ctx s = some (.ok (.returned (-1), ctx), s) := by
  refine (Call.bind_of_ok rfl).trans ?_
  refine (Call.bind_of_ok (deref_run hme s)).trans ?_
  simp only [hzero, whichbit_zero]
  rfl

/-- A call with a word whose least bit is below bit 5 delivers the place value of the bit. -/
theorem signalExec_of_least {k : ℕ} {c : CpuCtx} (hme : s.currentProcess = some me) (hk4 : k ≤ 4)
    (hk : ((s.mem me).signal &&& ~~~oldmask).toNat.testBit k)
    (hleast : ∀ j < k, ((s.mem me).signal &&& ~~~oldmask).toNat.testBit j = false) :
    signalExec e oldmask (some c) s =
      (do
        let (r, c) ← deliver e me (Int32.ofNat (2 ^ k)) (Fin.ofNat 32 (2 ^ k)) c
        pure (r, some c) : KernelM _) s := by
  refine (Call.bind_of_ok rfl).trans ?_
  refine (Call.bind_of_ok (deref_run hme s)).trans ?_
  have hfacts : ∀ k ≤ 4, Int32.ofNat (2 ^ k) ≠ 0 ∧
      ∃ h : ValidSignal (Int32.ofNat (2 ^ k)), h.index = Fin.ofNat 32 (2 ^ k) := by decide
  obtain ⟨hne, hvalid, hindex⟩ := hfacts k hk4
  have hbit : whichbit ((s.mem me).signal &&& ~~~oldmask) = Int32.ofNat (2 ^ k) := by
    rw [whichbit_eq hk hleast, if_pos hk4]
  simp only [hbit]
  rw [if_neg hne, dif_pos hvalid, hindex]

/-- A call with a word whose least bit is bit 5 or a later one delivers nothing. -/
theorem signalExec_of_late {k : ℕ} (hme : s.currentProcess = some me) (hk4 : ¬ k ≤ 4)
    (hk : ((s.mem me).signal &&& ~~~oldmask).toNat.testBit k)
    (hleast : ∀ j < k, ((s.mem me).signal &&& ~~~oldmask).toNat.testBit j = false) :
    signalExec e oldmask ctx s = some (.ok (.returned (-1), ctx), s) := by
  refine (Call.bind_of_ok rfl).trans ?_
  refine (Call.bind_of_ok (deref_run hme s)).trans ?_
  have hbit : whichbit ((s.mem me).signal &&& ~~~oldmask) = -1 := by
    rw [whichbit_eq hk hleast, if_neg hk4]
  simp only [hbit]
  rfl

theorem signalExec_of_none (hme : s.currentProcess = some me) : ∃ value,
    signalExec e oldmask none s = some (.ok (.returned value, none), s) := by
  have hrun : signalExec e oldmask none s =
      (if whichbit ((s.mem me).signal &&& ~~~oldmask) = 0 then pure (.returned 0, none)
        else if ValidSignal (whichbit ((s.mem me).signal &&& ~~~oldmask)) then
          pure (.returned (-1), none)
        else pure (.returned (-1), none) : KernelM (ExecResult × Option CpuCtx)) s := by
    refine (Call.bind_of_ok rfl).trans ?_
    exact Call.bind_of_ok (deref_run hme s)
  rw [hrun]
  split
  · exact ⟨0, rfl⟩
  · rw [ite_self]
    exact ⟨-1, rfl⟩

/-- What a call of `deliver` comes to is about its signal. -/
theorem deliver_signal {signal signal' : Int32} {i : Fin 32} {c c' : CpuCtx} {r : ExecResult}
    {s' : State} (h : deliver e me signal i c s = some (.ok (r, c'), s'))
    (hr : r.signal = some signal') : signal' = signal := by
  have henter : ∀ handler, Call.Returns (enterHandler me signal i handler c) fun a =>
      a.1 = .entered signal := by
    intro handler
    apply Call.Returns.bind
    intro _
    apply Call.Returns.bind
    intro s
    apply Call.Returns.bind
    intro curr
    apply Call.Returns.bind
    intro _
    exact Call.Returns.pure rfl
  have hall : Call.Returns (deliver e me signal i c) fun a =>
      ∀ signal', a.1.signal = some signal' → signal' = signal := by
    have hentered : ∀ handler, Call.Returns (enterHandler me signal i handler c) fun a =>
        ∀ signal', a.1.signal = some signal' → signal' = signal := by
      intro handler s a s' hrun signal' hsignal
      rw [henter handler s a s' hrun] at hsignal
      exact (Option.some.inj hsignal).symm
    apply Call.Returns.bind
    intro s
    apply Call.Returns.ite
    · exact Call.Returns.pure fun signal' h => by cases h
    · apply Call.Returns.ite
      · apply Call.Returns.ite
        · exact Call.Returns.pure fun signal' h => by cases h
        · apply Call.Returns.bind
          intro r
          apply Call.Returns.ite
          · exact hentered _
          · exact Call.Returns.pure fun signal' h => (Option.some.inj h).symm
      · exact hentered _
  exact hall s _ s' h signal' hr

/-- **Which signals are delivered**: the claimed delivery takes place only where nothing is pending
that is not blocked. Where a signal is delivered, its number is the place value of the least bit
and not the number of that bit. -/
theorem delivers_least_iff (hme : s.currentProcess = some me) :
    (DeliversLeast e oldmask s me ctx ↔ (s.mem me).signal &&& ~~~oldmask = 0) ∧
      ∀ r c s' signal, signalExec e oldmask ctx s = some (.ok (r, c), s') →
        r.signal = some signal →
          ∃ k ≤ 4, LeastBit ((s.mem me).signal &&& ~~~oldmask) (Int32.ofNat k) ∧
            signal = Int32.ofNat (2 ^ k) := by
  refine ⟨⟨fun h => leastBit_whichbit_iff.mp h.whichbit, fun hzero => ?_⟩,
    fun r c s' signal hok hsignal => ?_⟩
  · have hrun := @signalExec_of_zero e _ _ _ ctx hme hzero
    refine ⟨leastBit_whichbit_iff.mpr hzero, fun r c s' signal hok hsignal => ?_, fun _ => ⟨_, hrun⟩⟩
    rw [hrun] at hok
    cases hok
    cases hsignal
  · have hne : (s.mem me).signal &&& ~~~oldmask ≠ 0 := by
      intro hzero
      rw [signalExec_of_zero hme hzero] at hok
      cases hok
      cases hsignal
    obtain ⟨k, hk32, hk, hleast⟩ := exists_leastBit hne
    have hleastBit : LeastBit ((s.mem me).signal &&& ~~~oldmask) (Int32.ofNat k) :=
      .inr ⟨k, hk32, rfl, hk, hleast⟩
    by_cases hk4 : k ≤ 4
    · refine ⟨k, hk4, hleastBit, ?_⟩
      cases ctx with
      | none =>
        obtain ⟨value, hrun⟩ := @signalExec_of_none e oldmask _ _ hme
        rw [hrun] at hok
        cases hok
        cases hsignal
      | some ctx =>
        rw [signalExec_of_least hme hk4 hk hleast] at hok
        obtain ⟨⟨r', c'⟩, s₁, hdeliver, hret⟩ := Call.bind_eq_ok.mp hok
        cases hret
        exact deliver_signal hdeliver hsignal
    · rw [signalExec_of_late hme hk4 hk hleast] at hok
      cases hok
      cases hsignal

end Delivery

/-! ## A pending SIGHUP -/

/-- The table of two processes, the current one with `SIGHUP` pending and a handler for each of
the signals 1 and 2. -/
def hupState : State :=
  Calls.pairState.update firstProcess fun x =>
    { x with
      signal := 1 <<< sigHup
      sigaction := fun i => { x.sigaction i with handler := 0x1000 * UInt32.ofNat i } }

def hupCtx : CpuCtx := ⟨0x8000, 0x9000, fun _ => 0⟩

theorem hupState_signal : (hupState.mem firstProcess).signal &&& ~~~0 = 2 := by
  decide

/-- With only signal 1 pending the process goes on in the handler of signal 2. -/
theorem signalExec_enters_wrong_handler : ∃ c s',
    signalExec ⟨fun _ => 0, 1⟩ 0 (some hupCtx) hupState = some (.ok (.entered 2, some c), s') ∧
      c.eip = ((hupState.mem firstProcess).sigaction 2).handler ∧
      ¬ LeastBit ((hupState.mem firstProcess).signal &&& ~~~0) 2 := by
  have hbit : ((hupState.mem firstProcess).signal &&& ~~~0).toNat.testBit 1 := by
    rw [hupState_signal]
    decide
  have hleast : ∀ j < 1, ((hupState.mem firstProcess).signal &&& ~~~0).toNat.testBit j = false := by
    rw [hupState_signal]
    decide
  have hrun := @signalExec_of_least ⟨fun _ => 0, 1⟩ 0 hupState firstProcess 1 hupCtx
    rfl (by omega) hbit hleast
  refine ⟨_, _, hrun.trans rfl, rfl, ?_⟩
  rw [hupState_signal]
  rintro (⟨hzero, -⟩ | ⟨k, hk, heq, -, hmin⟩)
  · revert hzero
    decide
  · have hall : ∀ k < 32, (2 : Int32) = Int32.ofNat k → k = 2 := by decide
    obtain rfl := hall k hk heq
    have := hmin 1 (by omega)
    revert this
    decide

theorem delivers_least_hupState :
    ¬ DeliversLeast ⟨fun _ => 0, 1⟩ 0 hupState firstProcess (some hupCtx) := by
  intro h
  have hzero := (delivers_least_iff rfl).1.mp h
  rw [hupState_signal] at hzero
  revert hzero
  decide

end OxKernel.Kernel
