import Filth.Server.Prepare

/-!
# What a request to a domain socket takes and gives back

The branch of `prepare_response` for domain sockets, `src/HTTP_2616_Server_Work.cpp:168–199`, with
the calls of `register_alien`, `schedule` and the constructors of the new work. A destructor closes
the descriptor of a work, `src/Work.cpp:18–26`; before there is a work nobody does.
-/

namespace Filth

open Base

/-- What `connect` can do. -/
inductive Connecting where
  | done | interrupted | failed
  deriving DecidableEq, Repr

/-- What the calls of the branch do: the descriptor that `socket` returns, whether `fcntl` succeeds
with `F_GETFL` and with `F_SETFL`, what `connect` does time after time, where `operator new` finds
memory, whether the constructors do, except for the body, which they can do without, and
`wmap[w->fd]`, and whether `epoll_ctl` succeeds. -/
structure SocketCalls where
  socket : Option Nat
  getfl : Bool
  setfl : Bool
  connects : List Connecting
  object : Option Nat
  parts : Bool
  mapped : Bool
  epollCtl : Bool

/-- What a request may leave behind: descriptors that are open, works in the work map, descriptors
that are registered with `epoll`, and whether the work is not to be scheduled. -/
structure Holdings where
  opened : Finset Nat
  wmap : Nat → Option Nat
  polled : Finset Nat
  nosch : Bool

/-- How the branch ends: with an answer, with a `ResourceErr`, or asleep. -/
inductive BranchEnd where
  | oops (s : Status)
  | resourceErr
  | asleep
  deriving DecidableEq, Repr

namespace SocketCalls

variable (calls : SocketCalls)

/-- The loop around `connect`, which is tried again while it is interrupted. -/
def connectLoop : List Connecting → Option Bool
  | [] => none
  | .done :: _ => some true
  | .interrupted :: rest => connectLoop rest
  | .failed :: _ => some false

/-- `new HTTP_Client_Work_Unix`, `src/HTTP_Client_Work_Unix.cpp:7–13`. If a constructor runs out of
memory, the base class is destroyed and closes the descriptor. -/
def newClientWork (fd : Nat) (s : Holdings) : Option Nat × Holdings :=
  match calls.object with
  | none => (none, s)
  | some w => if calls.parts then (some w, s) else (none, { s with opened := s.opened.erase fd })

/-- `register_alien`, or none if memory runs out; `src/FindWork_prealloc.hpp:57–67`. -/
def registerAlien (fd w : Nat) (s : Holdings) : Option Bool × Holdings :=
  match s.wmap fd with
  | some _ => (some false, s)
  | none =>
    if calls.mapped then (some true, { s with wmap := Function.update s.wmap fd (some w) })
    else (none, s)

/-- From `new` on. What `register_alien` returns is not looked at. -/
def startClient (fd : Nat) (s : Holdings) : BranchEnd × Holdings :=
  match calls.newClientWork fd s with
  | (none, s) => (.oops .internalServerError, s)
  | (some w, s) =>
    match calls.registerAlien fd w s with
    | (none, s) => (.oops .internalServerError, s)
    | (some _, s) =>
      let s := { s with nosch := true }
      if calls.epollCtl then (.asleep, { s with polled := insert fd s.polled })
      else (.resourceErr, s)

/-- `handle_request_domain_socket`, or none while `connect` is interrupted;
`src/HTTP_2616_Server_Work.cpp:169–199`. -/
def handleDomainSocket (s : Holdings) : Option (BranchEnd × Holdings) :=
  match calls.socket with
  | none => some (.oops .internalServerError, s)
  | some fd =>
    let s := { s with opened := insert fd s.opened }
    if !calls.getfl then some (.oops .internalServerError, s)
    else if !calls.setfl then some (.oops .internalServerError, s)
    else
      match connectLoop calls.connects with
      | none => none
      | some false => some (.oops .internalServerError, s)
      | some true => some (calls.startClient fd s)

/-- `socket` returns a descriptor that is not in use. -/
def Fresh (s : Holdings) : Prop := ∀ fd, calls.socket = some fd → fd ∉ s.opened

/-- An answer that does not come from the socket leaves everything as it was. -/
def LeavesNoTrace (s : Holdings) : Prop :=
  ∀ status s', calls.handleDomainSocket s = some (.oops status, s') → s' = s

/-- If there is a descriptor, then `fcntl` does not fail, `connect` only by being interrupted, and
`operator new` and the work map do not run out of memory; the constructors may. -/
def Released (s : Holdings) : Prop :=
  ∀ fd, calls.socket = some fd → calls.getfl = true ∧ calls.setfl = true ∧
    connectLoop calls.connects ≠ some false ∧
    (connectLoop calls.connects = some true → calls.object ≠ none ∧
      (calls.parts = true → calls.mapped = true ∨ s.wmap fd ≠ none))

variable {calls} {s s' : Holdings} {fd : Nat} {status : Status}

/-- A descriptor that is opened and left so is a trace. -/
theorem insert_opened_ne (h : fd ∉ s.opened) : { s with opened := insert fd s.opened } ≠ s := by
  intro heq
  have hopened := congrArg Holdings.opened heq
  exact h (Finset.insert_eq_self.mp hopened)

/-- The ways from `new` on. -/
theorem startClient_cases (calls : SocketCalls) (fd : Nat) (s : Holdings) :
    calls.object = none ∧ calls.startClient fd s = (.oops .internalServerError, s) ∨
    calls.object ≠ none ∧ calls.parts = false ∧ calls.startClient fd s =
      (.oops .internalServerError, { s with opened := s.opened.erase fd }) ∨
    calls.object ≠ none ∧ calls.parts = true ∧ calls.mapped = false ∧ s.wmap fd = none ∧
      calls.startClient fd s = (.oops .internalServerError, s) ∨
    calls.object ≠ none ∧ (calls.mapped = true ∨ s.wmap fd ≠ none) ∧
      ∀ status s', calls.startClient fd s ≠ (.oops status, s') := by
  unfold startClient newClientWork
  cases hobject : calls.object with
  | none => exact .inl ⟨rfl, rfl⟩
  | some w =>
    cases hparts : calls.parts with
    | false => exact .inr (.inl ⟨nofun, rfl, rfl⟩)
    | true =>
      unfold registerAlien
      cases hfound : s.wmap fd with
      | some u =>
        refine .inr (.inr (.inr ⟨nofun, .inr nofun, fun status s' ↦ ?_⟩))
        cases calls.epollCtl <;> simp [hfound]
      | none =>
        cases hmapped : calls.mapped with
        | false => exact .inr (.inr (.inl ⟨nofun, rfl, rfl, rfl, by simp [hfound]⟩))
        | true =>
          refine .inr (.inr (.inr ⟨nofun, .inl rfl, fun status s' ↦ ?_⟩))
          cases calls.epollCtl <;> simp [hfound]

private theorem status_of_startClient (h : calls.startClient fd s = (.oops status, s')) :
    status = .internalServerError := by
  rcases startClient_cases calls fd s with
    ⟨-, hcase⟩ | ⟨-, -, hcase⟩ | ⟨-, -, -, -, hcase⟩ | ⟨-, -, hcase⟩
  · cases hcase.symm.trans h
    rfl
  · cases hcase.symm.trans h
    rfl
  · cases hcase.symm.trans h
    rfl
  · exact absurd h (hcase status s')

/-- Whether the branch comes to `new` with its descriptor, or none while `connect` is interrupted. -/
def connected (calls : SocketCalls) : Option Bool :=
  if calls.getfl && calls.setfl then connectLoop calls.connects else some false

/-- What the branch does with a descriptor. -/
theorem handleDomainSocket_of_socket (hsocket : calls.socket = some fd) (s : Holdings) :
    calls.handleDomainSocket s = calls.connected.map fun done ↦
      if done then calls.startClient fd { s with opened := insert fd s.opened }
      else (.oops .internalServerError, { s with opened := insert fd s.opened }) := by
  simp only [handleDomainSocket, connected, hsocket]
  cases hgetfl : calls.getfl with
  | false => rfl
  | true =>
    cases hsetfl : calls.setfl with
    | false => rfl
    | true =>
      simp only [Bool.not_true, Bool.and_true, Bool.false_eq_true, if_true, if_false]
      cases connectLoop calls.connects with
      | none => rfl
      | some done => cases done <;> rfl

private theorem released_iff (calls : SocketCalls) (s : Holdings) : calls.Released s ↔
    ∀ fd, calls.socket = some fd → calls.connected ≠ some false ∧
      (calls.connected = some true → calls.object ≠ none ∧
        (calls.parts = true → calls.mapped = true ∨ s.wmap fd ≠ none)) := by
  refine forall₂_congr fun fd _ ↦ ?_
  unfold connected
  cases calls.getfl with
  | false => simp
  | true =>
    cases calls.setfl with
    | false => simp
    | true => simp

/-- Where one of the calls fails that leave the descriptor open, the answer is that of an error and
the descriptor is left open. -/
theorem handleDomainSocket_of_not_released (h : ¬ calls.Released s) :
    ∃ fd, calls.socket = some fd ∧ calls.handleDomainSocket s =
      some (.oops .internalServerError, { s with opened := insert fd s.opened }) := by
  rw [released_iff] at h
  push Not at h
  obtain ⟨fd, hsocket, hfails⟩ := h
  refine ⟨fd, hsocket, ?_⟩
  rw [handleDomainSocket_of_socket hsocket]
  cases hconnected : calls.connected with
  | none => cases hconnected.symm.trans (hfails (by simp [hconnected])).1
  | some done =>
    cases done with
    | false => rfl
    | true =>
      obtain ⟨-, hstart⟩ := hfails (by simp [hconnected])
      rw [Option.map_some, if_pos rfl]
      congr 1
      rcases startClient_cases calls fd { s with opened := insert fd s.opened } with
        ⟨-, hcase⟩ | ⟨hobject, hparts, -⟩ | ⟨-, -, -, -, hcase⟩ | ⟨hobject, hmapped, -⟩
      · exact hcase
      · cases hparts.symm.trans (hstart hobject).1
      · exact hcase
      · obtain ⟨-, hunmapped, hfound⟩ := hstart hobject
        rcases hmapped with hmapped | hmapped
        · exact absurd hmapped hunmapped
        · exact absurd hfound hmapped

/-- Where none of them fails, what answers has closed the descriptor, or never had one. -/
private theorem leavesNoTrace_of_released (hfresh : calls.Fresh s) (h : calls.Released s) :
    calls.LeavesNoTrace s := by
  intro status s' hend
  cases hsocket : calls.socket with
  | none =>
    rw [handleDomainSocket, hsocket] at hend
    cases hend
    rfl
  | some fd =>
    obtain ⟨hconnect, hstart⟩ := (released_iff calls s).mp h fd hsocket
    rw [handleDomainSocket_of_socket hsocket] at hend
    obtain ⟨done, hdone, hclient⟩ := Option.map_eq_some_iff.mp hend
    cases done with
    | false => exact absurd hdone hconnect
    | true =>
      obtain ⟨hobject, hmap⟩ := hstart hdone
      rw [if_pos rfl] at hclient
      rcases startClient_cases calls fd { s with opened := insert fd s.opened } with
        ⟨hnone, -⟩ | ⟨-, -, hcase⟩ | ⟨-, hparts, hmapped, hfound, -⟩ | ⟨-, -, hcase⟩
      · exact absurd hnone hobject
      · cases hcase.symm.trans hclient
        have herase : (insert fd s.opened).erase fd = s.opened :=
          Finset.erase_insert (hfresh fd hsocket)
        simp only [herase]
      · rcases hmap hparts with hmapped' | hfound'
        · cases hmapped.symm.trans hmapped'
        · exact absurd hfound hfound'
      · exact absurd hclient (hcase status s')

/-- For all results of the calls, in every state: an answer that does not come from the socket
leaves everything as it was if and only if none of the calls fails that leave the descriptor
open. -/
theorem leavesNoTrace_iff (calls : SocketCalls) (s : Holdings) (hfresh : calls.Fresh s) :
    calls.LeavesNoTrace s ↔ calls.Released s := by
  constructor
  · intro h
    by_contra hreleased
    obtain ⟨fd, hsocket, hend⟩ := handleDomainSocket_of_not_released hreleased
    exact insert_opened_ne (hfresh fd hsocket) (h _ _ hend)
  · exact leavesNoTrace_of_released hfresh

/-- An attempt that is interrupted once, and runs out of memory in a constructor. -/
theorem leavesNoTrace_iff_parts :
    let calls : SocketCalls :=
      ⟨some 7, true, true, [.interrupted, .done], some 4096, false, true, true⟩
    let s : Holdings :=
      { opened := {3, 4, 5}, wmap := fun _ ↦ none, polled := {3, 5}, nosch := false }
    calls.LeavesNoTrace s ↔ calls.Released s := by
  intro calls s
  apply leavesNoTrace_iff
  intro fd h
  cases h
  decide

/-- Nobody listens at the socket. -/
theorem not_leavesNoTrace_refused : ¬ ∀ (calls : SocketCalls) (s : Holdings), calls.Fresh s →
    calls.LeavesNoTrace s := by
  intro h
  let calls : SocketCalls := ⟨some 7, true, true, [.failed], some 4096, true, true, true⟩
  let s : Holdings :=
    { opened := {3, 4, 5}, wmap := fun _ ↦ none, polled := {3, 5}, nosch := false }
  have hfresh : calls.Fresh s := by
    intro fd hfd
    cases hfd
    decide
  have hreleased : ¬ calls.Released s := fun hr ↦ (hr 7 rfl).2.2.1 rfl
  obtain ⟨fd, hsocket, hend⟩ := handleDomainSocket_of_not_released hreleased
  exact insert_opened_ne (hfresh fd hsocket) (h calls s hfresh _ _ hend)

end SocketCalls

/-! ### The branch as part of a request -/

/-- A world in which the calls for a domain socket do this. -/
def World.serving {Ref : Type} (W : World Holdings Ref) (calls : SocketCalls) :
    World Holdings Ref :=
  { W with
    socket := fun s ↦ (calls.socket, match calls.socket with
      | none => s
      | some fd => { s with opened := insert fd s.opened })
    getFlags := fun _ s ↦ (calls.getfl, s)
    setFlags := fun _ s ↦ (calls.setfl, s)
    connect := fun _ _ s ↦ (SocketCalls.connectLoop calls.connects = some true, s)
    startClient := fun fd _ _ s ↦
      ((calls.startClient fd s).1 = .asleep, (calls.startClient fd s).2) }

/-- What a request does in such a world is what the branch does, unless `epoll_ctl` fails. -/
theorem domainSocket_serving {Ref : Type} (W : World Holdings Ref) {calls : SocketCalls}
    {scene : Scene Holdings Ref} {e : BranchEnd} {s' : Holdings}
    (h : calls.handleDomainSocket scene.world = some (e, s')) (he : e ≠ .resourceErr)
    (path reqBody : Str) :
    domainSocket (W.serving calls) path reqBody scene =
      match e with
      | .oops status => (.error status, { scene with world := s' })
      | _ => (.ok none, { scene with world := s', nosch := true }) := by
  unfold SocketCalls.handleDomainSocket at h
  cases hsocket : calls.socket with
  | none =>
    rw [hsocket] at h
    cases h
    simp [domainSocket, WorkM.call, World.serving, hsocket]
  | some fd =>
    simp only [hsocket] at h
    cases hgetfl : calls.getfl with
    | false =>
      simp only [hgetfl, Bool.not_false, if_true, Option.some.injEq, Prod.mk.injEq] at h
      obtain ⟨rfl, rfl⟩ := h
      simp [domainSocket, WorkM.call, World.serving, hsocket, hgetfl]
    | true =>
      cases hsetfl : calls.setfl with
      | false =>
        simp only [hgetfl, hsetfl, Bool.not_true, Bool.not_false, Bool.false_eq_true, if_true,
          if_false, Option.some.injEq, Prod.mk.injEq] at h
        obtain ⟨rfl, rfl⟩ := h
        simp [domainSocket, WorkM.call, World.serving, hsocket, hgetfl, hsetfl]
      | true =>
        simp only [hgetfl, hsetfl, Bool.not_true, Bool.false_eq_true, if_false] at h
        cases hconnect : SocketCalls.connectLoop calls.connects with
        | none =>
          rw [hconnect] at h
          cases h
        | some done =>
          rw [hconnect] at h
          cases done with
          | false =>
            cases h
            simp [domainSocket, WorkM.call, World.serving, hsocket, hgetfl, hsetfl, hconnect]
          | true =>
            have hstart := Option.some.inj h
            cases e with
            | oops status =>
              cases SocketCalls.status_of_startClient hstart
              simp [domainSocket, WorkM.call, WorkM.asks, World.serving, hsocket, hgetfl, hsetfl,
                hconnect, hstart]
            | resourceErr => exact absurd rfl he
            | asleep =>
              simp [domainSocket, WorkM.call, WorkM.asks, World.serving, hsocket, hgetfl, hsetfl,
                hconnect, hstart]

end Filth
