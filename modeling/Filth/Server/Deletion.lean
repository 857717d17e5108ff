import Filth.Base.Machine
import Filth.Server.Prepare

/-!
# Deleting a file

`HTTP_Origin_Server::unlink`, `src/HTTP_Origin_Server.cpp:29–33`, and the branch of
`prepare_response` that calls it, `src/HTTP_2616_Server_Work.cpp:97–109`. What the call in the
body of the function is a call of is found by the rules for names; then the calls are frames on a
stack.
-/

namespace Filth

open Base

/-- The types that a call can have an argument of. -/
inductive ArgType where
  | string | charPtr
  deriving DecidableEq, Repr

/-- There is an implicit conversion: a string can be made of characters, but not the other way. -/
def ArgType.convertsTo : ArgType → ArgType → Bool
  | .charPtr, .string => true
  | a, b => a = b

/-- What is declared under the name `unlink`: the function of the namespace, and `unlink(2)`. -/
inductive Callee where
  | wrapper | systemCall
  deriving DecidableEq, Repr

/-- A function that is declared under a name. -/
structure Declaration where
  param : ArgType
  callee : Callee
  deriving DecidableEq, Repr

/-- Unqualified lookup. The innermost scope that declares the name hides all others; what its
declarations do not admit is an error. -/
def lookupName (scopes : List (List Declaration)) (arg : ArgType) : Option Callee :=
  (scopes.find? (· ≠ [])).bind fun ds ↦
    (ds.find? fun d ↦ arg.convertsTo d.param).map Declaration.callee

/-- The scopes around the call `unlink(path.c_str())`: the body of the function, the namespace
`HTTP_Origin_Server`, and the global one with `unistd.h`. -/
def unlinkScopes : List (List Declaration) :=
  [[], [⟨.string, .wrapper⟩], [⟨.charPtr, .systemCall⟩]]

/-- What the body calls, `src/HTTP_Origin_Server.cpp:32`. -/
def unlinkCallee : Option Callee := lookupName unlinkScopes .charPtr

/-- An `int` that is returned: 0, −1 or an error number. -/
inductive Returned where
  | zero | minusOne | error (e : Errno)
  deriving DecidableEq, Repr

/-- Where a process is: about to call, in the comparison with −1, or back in the branch for
`DELETE`. -/
inductive Frame where
  | enter (callee : Callee) (path : Str)
  | compare
  | deleteBranch
  deriving DecidableEq, Repr

/-- A thread that deletes: its stack, the value returned last, `errno`, the paths it has made
system calls on, and the status it has thrown. -/
structure Deleting (ω : Type) where
  frames : List Frame
  value : Returned
  errno : Errno
  world : ω
  calls : List Str
  thrown : Option Status

/-- The status that follows from an error number. -/
def deleteStatus : Returned → Status
  | .zero => .ok
  | .error .eacces => .forbidden
  | .error .eisdir => .forbidden
  | .error .enoent => .notFound
  | .error .eperm => .forbidden
  | _ => .internalServerError

/-- The statuses are those of the branch. -/
theorem deleteFile_fst {ω Ref : Type} (W : World ω Ref) (path : Str) (s : Scene ω Ref) :
    (deleteFile W path s).1 =
      .error (deleteStatus ((W.unlink path s.world).1.elim .zero .error)) := by
  unfold deleteFile
  cases h : W.unlink path s.world with
  | mk err world =>
    rw [WorkM.call_bind h]
    cases err with
    | none => rfl
    | some e => cases e <;> rfl

variable {ω : Type} (inner : Option Callee) (unlink2 : Str → ω → Option Errno × ω)

/-- One step of the thread, `src/HTTP_Origin_Server.cpp:30–33`. -/
def Deleting.step (s : Deleting ω) : Option (Deleting ω) :=
  match s.frames with
  | [] => none
  | .enter .wrapper path :: k =>
    inner.map fun callee ↦ { s with frames := .enter callee (cstr path) :: .compare :: k }
  | .enter .systemCall path :: k =>
    match unlink2 path s.world with
    | (none, world) =>
      some { s with frames := k, value := .zero, world, calls := s.calls ++ [path] }
    | (some e, world) =>
      some { s with frames := k, value := .minusOne, errno := e, world, calls := s.calls ++ [path] }
  | .compare :: k =>
    some { s with
      frames := k
      value := if s.value = .minusOne then .error s.errno else .zero }
  | .deleteBranch :: k => some { s with frames := k, thrown := some (deleteStatus s.value) }

/-- A thread that handles a `DELETE`. -/
def Deleting.start (path : Str) (world : ω) : Deleting ω :=
  { frames := [.enter .wrapper path, .deleteBranch], value := .zero, errno := .other 0, world
    calls := [], thrown := none }

/-- The thread as a machine. -/
def deletion (path : Str) (world : ω) : Machine (Deleting ω) Unit where
  init := .start path world
  step s _ := s.step inner unlink2

/-- The thread gets to the end: with one system call on the path, its outcome, and a response. -/
def DeletesOnce (path : Str) (world : ω) : Prop :=
  ∃ n t, (deletion inner unlink2 path world).run (.start path world) (List.replicate n ()) = some t ∧
    t.frames = [] ∧ t.calls = [cstr path] ∧ t.world = (unlink2 (cstr path) world).2 ∧
    t.thrown = some (deleteStatus ((unlink2 (cstr path) world).1.elim .zero .error))

/-- A body that called `unlink(2)` would do what is expected of it. -/
theorem deletesOnce_of_systemCall (path : Str) (world : ω) :
    DeletesOnce (some .systemCall) unlink2 path world := by
  refine ⟨4, ?_⟩
  cases h : unlink2 (cstr path) world with
  | mk err world' =>
    cases err <;> simp [Machine.run, deletion, Deleting.step, Deleting.start, List.replicate, h]

/-- The thread is in a call of the function from its own body. -/
def Recursing (s : Deleting ω) : Prop :=
  s.calls = [] ∧ s.thrown = none ∧
    ∃ path depth, s.frames = .enter .wrapper path :: (List.replicate depth .compare ++ [.deleteBranch])

/-- Name lookup finds the function itself. -/
private theorem unlinkCallee_eq : unlinkCallee = some .wrapper := by decide

private theorem recursing_start (path : Str) (world : ω) : Recursing (.start path world) :=
  ⟨rfl, rfl, path, 0, rfl⟩

/-- A call from its own body is followed by another one, a frame further down. -/
private theorem recursing_step {s : Deleting ω} (h : Recursing s) :
    ∃ t, s.step unlinkCallee unlink2 = some t ∧ Recursing t := by
  obtain ⟨hcalls, hthrown, path, depth, hframes⟩ := h
  refine ⟨{ s with frames := .enter .wrapper (cstr path) ::
    (List.replicate (depth + 1) .compare ++ [.deleteBranch]) }, ?_, hcalls, hthrown, cstr path,
    depth + 1, rfl⟩
  rw [Deleting.step, hframes, unlinkCallee_eq]
  rfl

/-- Every run stays in such calls. -/
theorem recursing_run (path : Str) (world : ω) {s t : Deleting ω} (h : Recursing s) {n : Nat}
    (hrun : (deletion unlinkCallee unlink2 path world).run s (List.replicate n ()) = some t) :
    Recursing t := by
  refine Machine.AllStates.last _ (Machine.allStates_of_step _ ?_ h _) hrun
  intro s _ s' hs hstep
  obtain ⟨t, ht, hrec⟩ := recursing_step unlink2 hs
  obtain rfl : t = s' := Option.some.inj (ht.symm.trans hstep)
  exact hrec

/-- As the source is written, no `DELETE` gets to its end: the function calls itself, again and
again, and makes no system call. -/
theorem not_deletesOnce (path : Str) (world : ω) : ¬ DeletesOnce unlinkCallee unlink2 path world := by
  rintro ⟨n, t, hrun, hframes, -⟩
  obtain ⟨-, -, path', depth, hrec⟩ :=
    recursing_run unlink2 path world (recursing_start path world) hrun
  rw [hframes] at hrec
  cases hrec

/-- Not even for a plain name in a directory where everything can be deleted. -/
theorem not_deletesOnce_plain :
    ¬ DeletesOnce unlinkCallee (fun _ w ↦ (none, w)) "index.html".toList () := by
  rintro ⟨n, t, hrun, -, hcalls, -⟩
  have hrec := recursing_run _ "index.html".toList () (recursing_start _ ()) hrun
  rw [hrec.1] at hcalls
  cases hcalls

end Filth
