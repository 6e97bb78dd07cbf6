import OxKernel.Lib.Call
import OxKernel.Lib.Machine
import OxKernel.Libk.StrtokLaw
import Mathlib.Data.Int.Notation
import Mathlib.Logic.Function.Basic

/-!
# The call that starts a program

`kexecve` loads a file and makes it the image of the current process, or calls itself for the
interpreter of a script. The loaded image and the arguments are what the process keeps of it;
the descriptors it closes and the switch to another process are in modules of their own.
Memory is taken to suffice for the arguments. The value `none` of a call is a run to which C
gives no meaning, after an access through NULL or past the end of an array.

## Main definitions

* `Argv` — a value of `p_argv`.
* `KexecState` — the processes and the static counter.
* `interpret` — the branch for scripts, up to the nested call.
* `kexecve` — the function.
* `Receives` — the arguments that a program is to get.
* `KexecLaw` — what a call promises.
-/
namespace OxKernel.Kernel

open Lib (Call Machine)

/-- The bytes of a string, without the one that ends it. -/
abbrev CString := List UInt8

/-- `MAX_PATH`. -/
abbrev maxPath : ℕ := 256

/-- `EXEC_MAX_RECURSION`. -/
abbrev execMaxRecursion : ℕ := 16

/-- A value of type `char **`: NULL, an array of the caller, or one that `kexecve` allocated. -/
inductive Argv
  | null
  | given (args : List CString)
  | allocated (args : List CString)
  deriving DecidableEq

/-- The strings of an array. -/
def Argv.words : Argv → Option (List CString)
  | .null => none
  | .given args => some args
  | .allocated args => some args

/-- Memory that `kexecve` frees. -/
inductive Freed
  | image (exec : UInt32)
  | argv (args : Argv)

/-- The fields of `struct process` about its image. -/
structure ExecImage where
  exec : UInt32
  execSize : UInt32
  elfEntry : UInt32
  argc : ℕ
  argv : Argv
  envp : UInt32
  deleteArgv : Bool
  firstExec : Bool

/-- The images of the processes, the static `nr_recursion`, and what has been freed, the last
one first. -/
structure KexecState where
  images : ℕ → ExecImage
  nrRecursion : ℤ
  freed : List Freed

/-- The state before the first call. -/
def KexecState.atBoot (images : ℕ → ExecImage) : KexecState :=
  { images := images, nrRecursion := 0, freed := [] }

/-- A call that prints a message and returns -1, or returns. -/
abbrev KexecM (α : Type) := Call String KexecState α

/-- An access that has to be inside its array. -/
def inArray (c : Prop) [Decidable c] : KexecM Unit := if c then pure () else Call.loop

/-- The strings of an array, none of which NULL has. -/
def readArgv (argv : Argv) : KexecM (List CString) :=
  match argv.words with
  | some args => pure args
  | none => Call.loop

section Bind
variable {α : Type} {s : KexecState}

theorem inArray_bind_apply {c : Prop} [Decidable c] (f : Unit → KexecM α) :
    (inArray c >>= f) s = if c then f () s else none := by
  rw [inArray]
  split <;> rfl

theorem readArgv_bind_of_some {argv : Argv} {args : List CString} (f : List CString → KexecM α)
    (h : argv.words = some args) : (readArgv argv >>= f) s = f args s := by
  rw [readArgv, h]
  rfl

theorem readArgv_bind_of_none {argv : Argv} (f : List CString → KexecM α) (h : argv.words = none) :
    (readArgv argv >>= f) s = none := by
  rw [readArgv, h]
  rfl

end Bind

/-! ## Scripts -/

/-- `isspace`. -/
def isspace (c : UInt8) : Bool := c == 0x20 || (c ≥ 0x09 && c ≤ 0x0d)

/-- The bytes before the first one that is 0. -/
def cString (bytes : List UInt8) : CString := bytes.takeWhile (· ≠ 0)

/-- `image[0] == '#' && image[1] == '!'`. -/
def isScript (image : List UInt8) : Bool := image.getD 0 0 == 0x23 && image.getD 1 0 == 0x21

/-- The first index from `i` on of a byte with `p`, or 0. -/
def firstIndex (p : UInt8 → Bool) (image : List UInt8) (i : ℕ) : ℕ :=
  ((List.range image.length).find? fun k => i ≤ k ∧ p (image.getD k 0)).getD 0

/-- `start`. -/
def nameStart (image : List UInt8) : ℕ := firstIndex (fun c => !isspace c) image 2

/-- `end`. -/
def nameEnd (image : List UInt8) : ℕ := firstIndex isspace image (nameStart image + 1)

/-- The bytes that are copied to `interpreter`. -/
def nameBytes (image : List UInt8) : List UInt8 := (image.take (nameEnd image)).drop (nameStart image)

/-- The bytes that are copied to `args`. -/
def argBytes (image : List UInt8) : List UInt8 := (image.drop (nameEnd image)).takeWhile (· ≠ 0x0a)

/-- The delimiters of arguments, blank and tab. -/
def argDelims : CString := [0x20, 0x09]

/-- The interpreter of a script. -/
def interpreter (image : List UInt8) : CString := cString (nameBytes image)

/-- The arguments that a script gives its interpreter. -/
def scriptArgs (image : List UInt8) : List CString :=
  Libk.runsOf argDelims (cString (argBytes image))

/-- The results of `strtok(args, " \t")` and of the calls after it, up to NULL. -/
def interpreterArgs (image : List UInt8) : List CString :=
  let args := cString (argBytes image)
  (Libk.tokenLoop argDelims (args.length + 2) (some 0) ⟨args ++ [0], none⟩).getD []

/-- The calls come to an end. -/
theorem interpreterArgs_spec (image : List UInt8) :
    let args := cString (argBytes image)
    Libk.tokenLoop argDelims (args.length + 2) (some 0) ⟨args ++ [0], none⟩ =
      some (interpreterArgs image) := by
  have hend : (Libk.tokenLoop argDelims ((cString (argBytes image)).length + 2) (some 0)
      ⟨cString (argBytes image) ++ [0], none⟩).isSome := by
    refine Libk.tokenLoop_isSome (i := 0) (by simp [argDelims]) le_rfl ?_ rfl rfl le_rfl
    intro c hc
    simpa using List.mem_takeWhile_imp hc
  obtain ⟨ts, hts⟩ := Option.isSome_iff_exists.mp hend
  simp only [interpreterArgs, hts, Option.getD_some]

/-- Some bytes are a string in an array of `MAX_PATH` zeros. -/
def EndsInArray (bytes : List UInt8) : Prop :=
  bytes.length < maxPath ∨ bytes.length = maxPath ∧ 0 ∈ bytes

instance (bytes : List UInt8) : Decidable (EndsInArray bytes) := by
  unfold EndsInArray
  infer_instance

/-- The branch for scripts, up to the nested call: its `filename` and its `argv`. -/
def interpret (image : List UInt8) (argv : Argv) : KexecM (CString × Argv) := do
  Call.require ((nameBytes image).length ≤ maxPath) "execve:: interpreter name too long\n"
  inArray (EndsInArray (argBytes image))
  let args := interpreterArgs image
  Call.require (args.length ≤ maxPath) "execve:: error processing interpreter args\n"
  -- without an argument there is no array, and yet its first entry is written
  inArray (args ≠ [])
  let rest ← readArgv argv
  Call.require (args.length + rest.length ≤ maxPath) "execve:: error argv[j] != NULL\n"
  Call.require (args.length + rest.length < maxPath) "execve:: error i >= MAX_PATH\n"
  let s ← Call.get
  Call.require (s.nrRecursion ≤ execMaxRecursion)
    "execve:: error nr_recursion > EXEC_MAX_RECURSION\n"
  Call.modify fun s => { s with nrRecursion := s.nrRecursion + 1 }
  inArray (EndsInArray (nameBytes image))
  pure (interpreter image, .allocated (args ++ rest.map (List.take 1024)))

/-! ## Programs -/

/-- What is outside of `kexecve`: `file_load`, and the entry, `exec` and `exec_size` that
`image_load` answers with, which are not checked. -/
structure Loader where
  fileLoad : CString → Option (List UInt8)
  imageLoad : List UInt8 → UInt32 × UInt32 × UInt32

/-- The image of a process after the branch for programs. -/
def programImage (loaded : UInt32 × UInt32 × UInt32) (argc : ℕ) (argv : Argv) (envp : UInt32)
    (deleteArgv : Bool) : ExecImage where
  exec := loaded.2.1
  execSize := loaded.2.2
  elfEntry := loaded.1
  argc := argc
  argv := argv
  envp := envp
  deleteArgv := deleteArgv
  firstExec := true

/-- The memory of an image that is given up, the last one first. -/
def ExecImage.given (image : ExecImage) : List Freed :=
  (if image.deleteArgv then [.argv image.argv] else []) ++
    if image.exec ≠ 0 then [.image image.exec] else []

/-- The branch for programs. -/
def program (loaded : UInt32 × UInt32 × UInt32) (pid : ℕ) (envp : UInt32) (argv : Argv) :
    KexecM Unit := do
  let s ← Call.get
  -- the array that an outer call allocated is in a variable of its own
  let deleteArgv : Bool := s.nrRecursion ≠ 0
  let argv2 : Argv := if s.nrRecursion ≠ 0 then .null else argv
  let args ← readArgv argv2
  Call.modify fun s =>
    { images := Function.update s.images pid
        (programImage loaded args.length argv2 envp deleteArgv)
      nrRecursion := s.nrRecursion - 1
      freed := (s.images pid).given ++ s.freed }

/-! ## The function -/

/-- A script is refused before the nested call: the name of its interpreter is too long, or there
are too many arguments. -/
def ScriptRefused (image : List UInt8) (argv : List CString) : Prop :=
  maxPath < (nameBytes image).length ∨
    EndsInArray (argBytes image) ∧ interpreterArgs image ≠ [] ∧
      maxPath ≤ (interpreterArgs image).length + argv.length

section Kexecve
variable (loader : Loader) (pid : ℕ) (envp : UInt32)

/-- `kexecve`, up to a call of itself. -/
def kexecveBody (filename : CString) (argv : Argv) : KexecM (Option (CString × Argv)) :=
  match loader.fileLoad filename with
  | none => Call.fail "execve:: error loading file\n"
  | some image =>
      if isScript image then do
        let next ← interpret image argv
        pure (some next)
      else do
        program (loader.imageLoad image) pid envp argv
        pure none

variable {loader pid envp}
variable {image : List UInt8} {filename : CString} {argv : Argv} {s s' : KexecState}

/-- A script is refused and leaves everything as it is, or the counter is below the limit and goes
up. -/
theorem interpret_cases {r : Except String (CString × Argv)}
    (h : interpret image argv s = some (r, s')) :
    ((∃ e, r = .error e) ∧ s' = s) ∨
      (∃ next, r = .ok next) ∧ s.nrRecursion ≤ execMaxRecursion ∧
        s'.nrRecursion = s.nrRecursion + 1 := by
  cases hwords : argv.words with
  | none =>
      simp only [interpret, Call.require_bind_apply, inArray_bind_apply,
        readArgv_bind_of_none _ hwords] at h
      split_ifs at h <;> cases h <;> exact .inl ⟨⟨_, rfl⟩, rfl⟩
  | some args =>
      simp only [interpret, Call.require_bind_apply, inArray_bind_apply, readArgv_bind_of_some _ hwords,
        Call.get_bind_apply, Call.modify_bind_apply] at h
      split_ifs at h <;> cases h <;>
        first
        | exact .inl ⟨⟨_, rfl⟩, rfl⟩
        | exact .inr ⟨⟨_, rfl⟩, ‹s.nrRecursion ≤ execMaxRecursion›, rfl⟩

/-- A script is refused for its texts, unless the limit is reached. -/
theorem interpret_error_iff {args : List CString} (hs : s.nrRecursion ≤ execMaxRecursion) :
    (∃ e, interpret image (.given args) s = some (.error e, s)) ↔ ScriptRefused image args := by
  simp only [interpret, Call.require_bind_apply, inArray_bind_apply, Call.get_bind_apply,
    readArgv_bind_of_some _ (show (Argv.given args).words = some args from rfl),
    Call.modify_bind_apply, hs, if_true, ScriptRefused]
  split_ifs <;> simp <;> grind

/-- A program becomes the image only where the counter is 0. -/
theorem program_cases {loaded : UInt32 × UInt32 × UInt32} {r : Except String Unit}
    (h : program loaded pid envp argv s = some (r, s')) :
    r = .ok () ∧ s.nrRecursion = 0 ∧ s'.nrRecursion = -1 := by
  rw [program, Call.get_bind_apply] at h
  by_cases hz : s.nrRecursion = 0
  · cases hwords : argv.words with
    | none => simp [hz, readArgv_bind_of_none _ hwords] at h
    | some args =>
        simp [hz, readArgv_bind_of_some _ hwords] at h
        rw [← h.1, ← h.2]
        exact ⟨rfl, hz, rfl⟩
  · simp [hz, readArgv_bind_of_none _ (show Argv.null.words = none from rfl)] at h

/-- A call is refused, or goes on with a nested call and a higher counter, or a program becomes the
image and the counter goes down. -/
theorem kexecveBody_cases {r : Except String (Option (CString × Argv))}
    (h : kexecveBody loader pid envp filename argv s = some (r, s')) :
    ((∃ e, r = .error e) ∧ s' = s) ∨
      ((∃ next, r = .ok (some next)) ∧ s.nrRecursion ≤ execMaxRecursion ∧
        s'.nrRecursion = s.nrRecursion + 1) ∨
      r = .ok none ∧ s.nrRecursion = 0 ∧ s'.nrRecursion = -1 := by
  rw [kexecveBody] at h
  cases hload : loader.fileLoad filename with
  | none =>
      rw [hload] at h
      cases h
      exact .inl ⟨⟨_, rfl⟩, rfl⟩
  | some image =>
      rw [hload] at h
      dsimp only at h
      split at h
      · rcases hrun : interpret image argv s with _ | ⟨_ | next, s₁⟩
        · simp [Call.bind_of_none hrun] at h
        · rw [Call.bind_of_error hrun] at h
          cases h
          exact (interpret_cases hrun).imp (fun h => ⟨⟨_, rfl⟩, h.2⟩) (by simp)
        · rw [Call.bind_of_ok hrun] at h
          cases h
          rcases interpret_cases hrun with ⟨⟨e, he⟩, -⟩ | ⟨-, hnext⟩
          · cases he
          · exact .inr (.inl ⟨⟨next, rfl⟩, hnext⟩)
      · rcases hrun : program (loader.imageLoad image) pid envp argv s with _ | ⟨_ | u, s₁⟩
        · simp [Call.bind_of_none hrun] at h
        · exact absurd (program_cases hrun).1 (by simp)
        · rw [Call.bind_of_ok hrun] at h
          cases h
          exact .inr (.inr ⟨rfl, (program_cases hrun).2⟩)

/-- A nested call starts with a higher counter. -/
theorem kexecveBody_next {next : CString × Argv}
    (h : kexecveBody loader pid envp filename argv s = some (.ok (some next), s')) :
    s.nrRecursion ≤ execMaxRecursion ∧ s'.nrRecursion = s.nrRecursion + 1 := by
  rcases kexecveBody_cases h with ⟨⟨e, he⟩, -⟩ | ⟨-, hnext⟩ | ⟨hdone, -⟩
  · cases he
  · exact hnext
  · cases hdone

/-- `kexecve`. The call of itself is its last step. -/
def kexecve (loader : Loader) (pid : ℕ) (envp : UInt32) (filename : CString) (argv : Argv)
    (s : KexecState) : Option (Except String Unit × KexecState) :=
  match _h : kexecveBody loader pid envp filename argv s with
  | none => none
  | some (.error e, s') => some (.error e, s')
  | some (.ok none, s') => some (.ok (), s')
  | some (.ok (some next), s') => kexecve loader pid envp next.1 next.2 s'
termination_by (17 - s.nrRecursion).toNat
decreasing_by
  obtain ⟨hmax, hnext⟩ := kexecveBody_next _h
  rw [hnext, execMaxRecursion] at *
  omega

/-- The function either ends in its body or goes on with a nested call. -/
theorem kexecve_of_next {next : CString × Argv}
    (h : kexecveBody loader pid envp filename argv s = some (.ok (some next), s')) :
    kexecve loader pid envp filename argv s = kexecve loader pid envp next.1 next.2 s' := by
  rw [kexecve]
  split <;> simp_all

theorem kexecve_of_done
    (h : kexecveBody loader pid envp filename argv s = some (.ok none, s')) :
    kexecve loader pid envp filename argv s = some (.ok (), s') := by
  rw [kexecve]
  split <;> simp_all

theorem kexecve_of_error {e : String}
    (h : kexecveBody loader pid envp filename argv s = some (.error e, s')) :
    kexecve loader pid envp filename argv s = some (.error e, s') := by
  rw [kexecve]
  split <;> simp_all

theorem kexecve_of_none (h : kexecveBody loader pid envp filename argv s = none) :
    kexecve loader pid envp filename argv s = none := by
  rw [kexecve]
  split <;> simp_all

/-- **A nested call never gets back to the counter of the first one.** -/
theorem kexecve_nested {r : Except String Unit} (hs : 1 ≤ s.nrRecursion)
    (h : kexecve loader pid envp filename argv s = some (r, s')) : 1 ≤ s'.nrRecursion := by
  fun_induction kexecve loader pid envp filename argv s with
  | case1 filename argv s hbody => cases h
  | case2 filename argv s e s₁ hbody =>
      cases h
      rcases kexecveBody_cases hbody with ⟨-, rfl⟩ | ⟨⟨_, hr⟩, -⟩ | ⟨hr, -⟩
      · exact hs
      · cases hr
      · cases hr
  | case3 filename argv s s₁ hbody =>
      rcases kexecveBody_cases hbody with ⟨⟨_, hr⟩, -⟩ | ⟨⟨_, hr⟩, -⟩ | ⟨-, hzero, -⟩
      · cases hr
      · cases hr
      · omega
  | case4 filename argv s s₁ next hbody ih =>
      have hnext := (kexecveBody_next hbody).2
      exact ih (by omega) h

/-! ## The law -/

/-- `filename` leads over `n` scripts to a program that is to get `args`. -/
inductive Receives (loader : Loader) : ℕ → CString → List CString → List CString → Prop
  | program {filename : CString} {argv : List CString} {image : List UInt8}
      (hload : loader.fileLoad filename = some image) (h : ¬ isScript image) :
      Receives loader 0 filename argv argv
  | script {n : ℕ} {filename : CString} {argv args : List CString} {image : List UInt8}
      (hload : loader.fileLoad filename = some image) (h : isScript image)
      (hrest : Receives loader n (interpreter image) (scriptArgs image ++ argv) args) :
      Receives loader (n + 1) filename argv args

end Kexecve

/-- A call of `kexecve` by the process `pid`. -/
structure KexecCall where
  loader : Loader
  pid : ℕ
  filename : CString
  argv : List CString
  envp : UInt32

namespace KexecCall
variable (c : KexecCall) {s s' : KexecState}

/-- The call. -/
def run (s : KexecState) : Option (Except String Unit × KexecState) :=
  kexecve c.loader c.pid c.envp c.filename (.given c.argv) s

/-- The arguments are as they should be after a call that returned. -/
structure Received (image : ExecImage) : Prop where
  args : ∃ n ≤ execMaxRecursion, ∃ args, Receives c.loader n c.filename c.argv args ∧
    image.argv.words = some args ∧ image.argc = args.length
  deleted : image.deleteArgv ↔ ∃ args, image.argv = .allocated args

/-- What a call promises: an answer, the counter back at 0, and the arguments unless there was an
error. -/
def Law (s : KexecState) : Prop :=
  ∃ r s', c.run s = some (r, s') ∧ s'.nrRecursion = 0 ∧
    (r = .ok () → c.Received (s'.images c.pid))

/-- The call fails before any program is loaded or a nested call is made. -/
def Refused : Prop :=
  ∀ image, c.loader.fileLoad c.filename = some image →
    isScript image ∧ ScriptRefused image c.argv

/-- A call is refused for its texts, unless the limit is reached. -/
theorem refused_iff (hs : s.nrRecursion ≤ execMaxRecursion) :
    c.Refused ↔
      ∃ e, kexecveBody c.loader c.pid c.envp c.filename (.given c.argv) s = some (.error e, s) := by
  rw [Refused, kexecveBody]
  rcases c.loader.fileLoad c.filename with _ | image
  · exact iff_of_true (by simp) ⟨_, rfl⟩
  · simp only [Option.some.injEq, forall_eq']
    rw [← interpret_error_iff hs]
    split
    · next hscript =>
        constructor
        · rintro ⟨-, e, he⟩
          exact ⟨e, Call.bind_of_error he⟩
        · rintro ⟨e, he⟩
          rcases Call.bind_eq_error.mp he with he | ⟨_, _, _, he⟩
          · exact ⟨hscript, e, he⟩
          · cases he
    · next hscript =>
        refine iff_of_false (fun h => hscript h.1) ?_
        rintro ⟨e, he⟩
        rcases Call.bind_eq_error.mp he with he | ⟨_, _, _, he⟩
        · exact absurd (program_cases he).1 (by simp)
        · cases he

/-- A refused call changes nothing. -/
theorem Refused.run_eq {c : KexecCall} (h : c.Refused) (hs : s.nrRecursion ≤ execMaxRecursion) :
    ∃ e, c.run s = some (.error e, s) := by
  obtain ⟨e, he⟩ := (c.refused_iff hs).mp h
  exact ⟨e, kexecve_of_error he⟩

/-- With the counter at 0 a call keeps its promise exactly if it is refused. -/
theorem law_iff (hs : s.nrRecursion = 0) : c.Law s ↔ c.Refused := by
  have hle : s.nrRecursion ≤ execMaxRecursion := by simp [hs]
  constructor
  · rintro ⟨r, s', hrun, hzero, -⟩
    rw [c.refused_iff hle]
    rcases hbody : kexecveBody c.loader c.pid c.envp c.filename (.given c.argv) s with
      _ | ⟨e | _ | next, s₁⟩
    · rw [run, kexecve_of_none hbody] at hrun
      cases hrun
    · rcases kexecveBody_cases hbody with ⟨-, rfl⟩ | ⟨⟨_, hr⟩, -⟩ | ⟨hr, -⟩
      · exact ⟨e, rfl⟩
      · cases hr
      · cases hr
    · rw [run, kexecve_of_done hbody] at hrun
      cases hrun
      rcases kexecveBody_cases hbody with ⟨⟨_, hr⟩, -⟩ | ⟨⟨_, hr⟩, -⟩ | ⟨-, -, hdown⟩
      · cases hr
      · cases hr
      · omega
    · rw [run, kexecve_of_next hbody] at hrun
      have hnext := (kexecveBody_next hbody).2
      have hlast := kexecve_nested (by omega) hrun
      omega
  · intro href
    obtain ⟨e, he⟩ := href.run_eq hle
    exact ⟨_, s, he, hs, by simp⟩

end KexecCall

/-! ## Runs -/

/-- Calls of `kexecve` one after the other. A call to which C gives no meaning ends the run, and
its state is of no account. -/
def kexecCalls : Machine KexecState KexecCall (Option (Except String Unit)) where
  step c s :=
    match c.run s with
    | some (r, s') => (some r, s')
    | none => (none, s)

/-- **`kexecve` keeps its promise exactly in the runs of refused calls.** The first program that
is loaded leaves the counter at -1, and the first nested call leaves it above 0, if it ends at
all. -/
theorem kexecve_law (images : ℕ → ExecImage) (cs : List KexecCall) :
    kexecCalls.Admits (fun s c => c.Law s) cs (.atBoot images) ↔ ∀ c ∈ cs, c.Refused := by
  have hboot : (KexecState.atBoot images).nrRecursion = 0 := rfl
  generalize KexecState.atBoot images = s at hboot
  induction cs generalizing s with
  | nil => simp [Machine.Admits]
  | cons c cs ih =>
      rw [Machine.Admits, List.forall_mem_cons, c.law_iff hboot]
      refine and_congr_right fun href => ih _ ?_
      obtain ⟨e, he⟩ := href.run_eq (s := s) (by simp [hboot])
      simp [kexecCalls, he, hboot]

/-- Files of which each is a program of the same four bytes, and loaded at 1 MB. -/
def onlyPrograms : Loader where
  fileLoad _ := some [0x7f, 0x45, 0x4c, 0x46]
  imageLoad _ := (0x100000, 0x100000, 4096)

/-- The first program after boot leaves the counter at -1. -/
theorem program_counts_down : ¬ ∀ (images : ℕ → ExecImage) (cs : List KexecCall),
    kexecCalls.Admits (fun s c => c.Law s) cs (.atBoot images) := by
  intro h
  let image : ExecImage := ⟨0, 0, 0, 0, .null, 0, false, false⟩
  obtain ⟨⟨r, s', hrun, hzero, -⟩, -⟩ :=
    h (fun _ => image) [⟨onlyPrograms, 1, [0x78], [[0x78]], 0⟩]
  rw [KexecCall.run, kexecve_of_done rfl] at hrun
  cases hrun
  cases hzero
end OxKernel.Kernel
