import Filth.Sched.Ownership
import Filth.Server.Relay
import Filth.Server.Transparency

/-!
# Client works that have delivered

What is done with an `HTTP_Client_Work_Unix` by `operator()`, `src/HTTP_Client_Work.cpp:44–104`, by
`browse_resp` and `async_setresponse`, `src/HTTP_2616_Server_Work.cpp:520–530`, which deletes it, by
`Scheduler::reschedule` and by `Worker::work`, `src/Worker.cpp:13–38`, and in which order.
-/

namespace Filth

open Base

/-! ### When a response is complete -/

namespace ClientWork

variable {ω : Type} (max : Limit)

/-- With what is read in this turn the response is complete: all of the body has arrived, or the
end of the headers and behind it as much of a body as they announce. -/
def Completes (w : ClientWork) (a : Chances ω) : Prop :=
  w.m = .read ∧
    if w.inhdrsDone then Arrives w.inbodySz a.bodyChunks
    else a.readStop ≠ .failed ∧ ∃ inbuf hdrs n,
      parse max (rduntil w.inbuf a.chunks) w.inhdrs = .ok (true, inbuf, hdrs) ∧
        announcedSize (hdrs.hdr .contentLength) w.inbodySz = .ok n ∧ (inbuf.read n).1.length = n

/-- The call gets as far as `browse_resp`. -/
def Delivers (w : ClientWork) (a : Chances ω) : Prop :=
  ∃ hdrs body, (w.operator max a).2 = .delivered hdrs body

variable {max} {w : ClientWork} {a : Chances ω}

private theorem readInbuf_delivers_iff (hlt : w.inbodySz < sizeBound) :
    (∃ hdrs body, w.readInbuf.2 = .delivered hdrs body) ↔
      ∃ n, announcedSize (w.inhdrs.hdr .contentLength) w.inbodySz = .ok n ∧
        (w.inbuf.read n).1.length = n := by
  unfold readInbuf
  split
  · next e he => exact iff_of_false nofun fun ⟨n, hn, _⟩ ↦ by cases he.symm.trans hn
  · next hn =>
    have hnone : (w.inbuf.read 0).1.length = 0 :=
      Nat.le_zero.mp (IStream.length_read_le w.inbuf 0)
    exact iff_of_true ⟨_, _, rfl⟩ ⟨0, hn, hnone⟩
  · next n hn =>
    have hn_lt := announcedSize_lt hlt hn
    have hle := IStream.length_read_le w.inbuf (n + 1)
    have hall : sizeSub (n + 1) (w.inbuf.read (n + 1)).1.length = 0 ↔
        (w.inbuf.read (n + 1)).1.length = n + 1 := by
      unfold sizeSub sizeBound at *
      omega
    dsimp only
    split
    · next hzero => exact iff_of_true ⟨_, _, rfl⟩ ⟨n + 1, hn, hall.mp hzero⟩
    · next hne =>
      refine iff_of_false nofun ?_
      rintro ⟨n', hn', hlen⟩
      cases hn.symm.trans hn'
      exact hne (hall.mpr hlen)

/-- It does so if and only if the response is complete. -/
theorem delivers_iff_completes (hlt : w.inbodySz < sizeBound) :
    w.Delivers max a ↔ w.Completes max a := by
  unfold Delivers Completes operator
  cases hm : w.m with
  | write =>
    refine iff_of_false ?_ nofun
    unfold writeOut
    dsimp only
    split
    · split <;> exact nofun
    · split <;> exact nofun
  | read =>
    rw [eq_self, true_and]
    dsimp only
    split
    · rw [← rduntilBody_eq_zero_iff hlt w.inbody]
      unfold readBody
      dsimp only
      split
      · next hzero => exact iff_of_true ⟨_, _, rfl⟩ hzero
      · next hne =>
        refine iff_of_false ?_ hne
        split <;> exact nofun
    · unfold readHdrs
      dsimp only
      split
      · next hfailed => exact iff_of_false nofun fun h ↦ h.1 hfailed
      · next hstop =>
        rw [and_iff_right hstop]
        cases parse max (rduntil w.inbuf a.chunks) w.inhdrs with
        | error e => exact iff_of_false nofun nofun
        | ok o =>
          obtain ⟨done, inbuf, hdrs⟩ := o
          cases done with
          | false => exact iff_of_false nofun nofun
          | true =>
            have hread := readInbuf_delivers_iff
              (w := { w with inbuf, inhdrsDone := true, inhdrs := hdrs }) hlt
            refine hread.trans ⟨fun ⟨n, hn⟩ ↦ ⟨inbuf, hdrs, n, rfl, hn⟩, ?_⟩
            rintro ⟨_, _, n, heq, hn⟩
            cases heq
            exact ⟨n, hn⟩

/-- What is missing of a body is always a `size_t`. -/
private theorem inbodySz_operator_lt (hlt : w.inbodySz < sizeBound) :
    (w.operator max a).1.inbodySz < sizeBound := by
  unfold operator
  cases w.m with
  | write =>
    dsimp only
    unfold writeOut
    dsimp only
    split
    · exact hlt
    · split <;> exact hlt
  | read =>
    dsimp only
    split
    · have hbody := rduntilBody_lt hlt w.inbody a.bodyChunks
      unfold readBody
      dsimp only
      split
      · exact hbody
      · split <;> exact hbody
    · unfold readHdrs
      dsimp only
      split
      · exact hlt
      · cases parse max (rduntil w.inbuf a.chunks) w.inhdrs with
        | error e => exact hlt
        | ok o =>
          obtain ⟨done, inbuf, hdrs⟩ := o
          cases done with
          | false => exact hlt
          | true =>
            change (readInbuf { w with inbuf, inhdrsDone := true, inhdrs := hdrs }).1.inbodySz < _
            unfold readInbuf
            split
            · exact hlt
            · exact Nat.lt_of_le_of_lt (Nat.zero_le _) hlt
            · exact sizeSub_lt _ _

end ClientWork

/-! ### From turn to turn -/

/-- What is done with a client work. -/
inductive ClientDeed where
  /-- `operator()` reads and sets its members. -/
  | call
  /-- `async_setresponse` unregisters it and deletes it, which closes its socket. -/
  | settle
  /-- `async_setresponse` reschedules the work that has waited for the response. -/
  | wake
  /-- `Scheduler::reschedule` reads its descriptor and its mode. The descriptor is that of its
  socket, registered with epoll, or it is not any more. -/
  | reschedule (registered : Bool)
  /-- The worker has caught a `SocketErr`, reads its descriptor and sets `deleteme`. -/
  | mark
  /-- The worker reads `deleteme`. -/
  | test
  /-- The worker or the scheduler deletes it. -/
  | delete
  deriving DecidableEq, Repr

/-- The work itself is read, set or deleted. -/
def ClientDeed.Uses : ClientDeed → Prop
  | wake => False
  | _ => True

/-- A client work with its socket. `log` is no member of the source. -/
structure ClientLife where
  work : ClientWork
  deleteme : Bool
  deleted : Bool
  /-- epoll watches the socket. -/
  armed : Bool
  /-- Workers that are past `operator()` and have not looked at `deleteme` yet. -/
  past : Nat
  /-- A worker has been left by an exception. -/
  terminated : Bool
  log : List ClientDeed

/-- What happens to a client work. -/
inductive LifeAct where
  /-- Its socket is ready, and a worker calls it. Where a work is woken up, and where this work is
  rescheduled after it has been deleted, epoll knows the descriptor it gets, or it does not. -/
  | turn (a : Chances Unit) (woken known : Bool)
  /-- A worker looks at `deleteme`; of a deleted work it may find anything. -/
  | look (rest : Bool)
  /-- Its socket has an error or has been hung up. -/
  | hangup

namespace ClientLife

/-- The work has been scheduled. -/
def new (work : ClientWork) : ClientLife :=
  { work, deleteme := false, deleted := false, armed := true, past := 0, terminated := false
    log := [] }

def note (l : ClientLife) (d : ClientDeed) : ClientLife := { l with log := l.log ++ [d] }

/-- `delete` and `~Work`, `src/Work.cpp:19–27`, which closes the socket. -/
def delete (l : ClientLife) (d : ClientDeed) : ClientLife :=
  { l.note d with deleted := true, armed := false }

/-- `Scheduler::reschedule(this)`, `src/HTTP_Client_Work.cpp:101`; no worker catches a
`ResourceErr`. -/
def reschedule (l : ClientLife) (known : Bool) : ClientLife :=
  let l := l.note (.reschedule !l.deleted)
  if !l.deleted then { l with armed := true, past := l.past + 1 }
  else if known then { l with past := l.past + 1 }
  else { l with terminated := true }

/-- `async_setresponse`, `src/HTTP_2616_Server_Work.cpp:520–530`. -/
def settle (l : ClientLife) (woken : Bool) : ClientLife :=
  let l := (l.delete .settle).note .wake
  if woken then l else { l with terminated := true }

/-- `operator()`, `src/HTTP_Client_Work.cpp:45–104`, up to where it is left or calls something.
Nobody watches the socket then. -/
def call (l : ClientLife) (work : ClientWork) : ClientLife :=
  { l.note .call with work, armed := false }

/-- A worker executes the work, `src/Worker.cpp:26–32`, up to where it looks at `deleteme`. -/
def turn (max : Limit) (l : ClientLife) (a : Chances Unit) (woken known : Bool) : ClientLife :=
  match l.work.operator max a with
  | (work, .rescheduled) => (l.call work).reschedule known
  | (work, .delivered _ _) =>
    let l := (l.call work).settle woken
    if l.terminated then l else l.reschedule known
  | (work, .socketErr) => { (l.call work).note .mark with deleteme := true, past := l.past + 1 }
  | (work, .oops _) => { l.call work with terminated := true }

/-- What a worker finds for `deleteme`. -/
def doomed (l : ClientLife) (rest : Bool) : Bool := if l.deleted then rest else l.deleteme

/-- The worker deletes the work, or leaves it alone; `src/Worker.cpp:33–34`. -/
def look (l : ClientLife) (rest : Bool) : ClientLife :=
  let l := { l.note .test with past := l.past - 1 }
  if l.doomed rest then l.delete .delete else l

end ClientLife

/-- A client work from when it is scheduled. -/
def clientLife (max : Limit) (work : ClientWork) : Machine ClientLife LifeAct where
  init := .new work
  step l act :=
    if l.terminated then none
    else match act with
      | .turn a woken known => if l.armed then some (l.turn max a woken known) else none
      | .look rest => if l.past = 0 then none else some (l.look rest)
      | .hangup => if l.armed then some (l.delete .delete) else none

/-- Once the response has been handed over the work is not used; and it is rescheduled only as
long as it is there and its socket is registered. -/
structure NeverUsedAgain (log : List ClientDeed) : Prop where
  unused : log.Pairwise fun d e ↦ d = .settle → ¬ e.Uses
  live : log.Pairwise fun d e ↦ d = .settle ∨ d = .delete → ∀ registered, e ≠ .reschedule registered
  registered : .reschedule false ∉ log

/-- The response is not complete at the end of the turn, or the worker does not get further than
to wake up the work that waits for it. -/
def LifeAct.Spares (max : Limit) (l : ClientLife) : LifeAct → Prop
  | .turn a woken _ => l.work.Completes max a → woken = false
  | _ => True

/-- One more deed. -/
theorem neverUsedAgain_concat {log : List ClientDeed} {d : ClientDeed} :
    NeverUsedAgain (log ++ [d]) ↔ NeverUsedAgain log ∧ (.settle ∈ log → ¬ d.Uses) ∧
      ∀ registered, d = .reschedule registered →
        registered = true ∧ .settle ∉ log ∧ .delete ∉ log := by
  constructor
  · rintro ⟨hunused, hlive, hreg⟩
    obtain ⟨hunused, -, hunused'⟩ := List.pairwise_append.mp hunused
    obtain ⟨hlive, -, hlive'⟩ := List.pairwise_append.mp hlive
    rw [List.mem_append, not_or] at hreg
    have hd := List.mem_singleton_self d
    refine ⟨⟨hunused, hlive, hreg.1⟩, fun hsettle ↦ hunused' _ hsettle d hd rfl, ?_⟩
    rintro registered rfl
    refine ⟨?_, fun h ↦ hlive' _ h _ hd (.inl rfl) _ rfl, fun h ↦ hlive' _ h _ hd (.inr rfl) _ rfl⟩
    by_contra hfalse
    rw [Bool.not_eq_true] at hfalse
    exact hreg.2 (List.mem_singleton.mpr (by rw [hfalse]))
  · rintro ⟨⟨hunused, hlive, hreg⟩, hsettle, hres⟩
    refine ⟨List.pairwise_append.mpr ⟨hunused, List.pairwise_singleton _ _, ?_⟩,
      List.pairwise_append.mpr ⟨hlive, List.pairwise_singleton _ _, ?_⟩, ?_⟩
    · rintro e he f hf rfl
      rw [List.mem_singleton.mp hf]
      exact hsettle he
    · rintro e he f hf hgone registered rfl
      obtain ⟨-, hsettled, hdeleted⟩ := hres registered (List.mem_singleton.mp hf).symm
      rcases hgone with rfl | rfl
      · exact hsettled he
      · exact hdeleted he
    · rw [List.mem_append, not_or]
      refine ⟨hreg, fun hmem ↦ ?_⟩
      exact Bool.false_ne_true (hres false (List.mem_singleton.mp hmem).symm).1

/-- Of a work that has not been handed over: it is there as long as it is watched. -/
structure ClientLife.Unsettled (l : ClientLife) : Prop where
  size : l.work.inbodySz < sizeBound
  settle : .settle ∉ l.log
  armed : l.armed = true → l.deleted = false ∧ .delete ∉ l.log

/-- A deed other than rescheduling or handing over. -/
theorem NeverUsedAgain.concat {log : List ClientDeed} (h : NeverUsedAgain log)
    (hsettle : .settle ∉ log) {d : ClientDeed} (hd : ∀ registered, d ≠ .reschedule registered) :
    NeverUsedAgain (log ++ [d]) :=
  neverUsedAgain_concat.mpr ⟨h, fun hmem ↦ absurd hmem hsettle, fun _ heq ↦ absurd heq (hd _)⟩

/-- Deleting a work that has not been handed over. -/
theorem ClientLife.Unsettled.delete {l : ClientLife} (hl : l.Unsettled) :
    (l.delete .delete).Unsettled :=
  ⟨hl.size, by simp [ClientLife.delete, ClientLife.note, hl.settle], nofun⟩

section Turn

variable {max : Limit} {l : ClientLife} {a : Chances Unit} {woken known : Bool}

/-- A turn in which the response is not complete. -/
theorem turn_of_not_delivers (hl : l.Unsettled) (hlog : NeverUsedAgain l.log)
    (harmed : l.armed = true) (h : ¬ l.work.Delivers max a) :
    NeverUsedAgain (l.turn max a woken known).log ∧
      ((l.turn max a woken known).terminated = false → (l.turn max a woken known).Unsettled) := by
  obtain ⟨hthere, hdelete⟩ := hl.armed harmed
  have hsize : (l.work.operator max a).1.inbodySz < sizeBound :=
    ClientWork.inbodySz_operator_lt hl.size
  have hcall : NeverUsedAgain (l.log ++ [ClientDeed.call]) := hlog.concat hl.settle nofun
  have hsettle : .settle ∉ l.log ++ [ClientDeed.call] := by simp [hl.settle]
  unfold ClientWork.Delivers at h
  unfold ClientLife.turn
  generalize l.work.operator max a = o at h hsize
  obtain ⟨work, ending⟩ := o
  cases ending with
  | rescheduled =>
    have heq : (l.call work).reschedule known =
        { l with work, armed := true, past := l.past + 1
                 log := l.log ++ [ClientDeed.call] ++ [ClientDeed.reschedule true] } := by
      simp [ClientLife.reschedule, ClientLife.call, ClientLife.note, hthere]
    dsimp only
    rw [heq]
    refine ⟨neverUsedAgain_concat.mpr ⟨hcall, fun hmem ↦ absurd hmem hsettle, ?_⟩, fun _ ↦ ?_⟩
    · rintro registered heq
      cases heq
      exact ⟨rfl, hsettle, by simp [hdelete]⟩
    · exact ⟨hsize, by simp [hl.settle], fun _ ↦ ⟨hthere, by simp [hdelete]⟩⟩
  | delivered hdrs body => exact absurd ⟨hdrs, body, rfl⟩ h
  | socketErr =>
    refine ⟨hcall.concat hsettle nofun, fun _ ↦ ⟨hsize, ?_, nofun⟩⟩
    simp [ClientLife.call, ClientLife.note, hl.settle]
  | oops e => exact ⟨hcall, nofun⟩

/-- A turn in which it is. -/
theorem turn_of_delivers (hl : l.Unsettled) (hlog : NeverUsedAgain l.log)
    (hup : l.terminated = false) (h : l.work.Delivers max a) :
    (NeverUsedAgain (l.turn max a woken known).log ↔ woken = false) ∧
      (woken = false → (l.turn max a woken known).terminated = true) := by
  obtain ⟨hdrs, body, hend⟩ := h
  have hcall : NeverUsedAgain (l.log ++ [ClientDeed.call]) := hlog.concat hl.settle nofun
  have hsettled : NeverUsedAgain (l.log ++ [ClientDeed.call] ++ [ClientDeed.settle]) :=
    hcall.concat (by simp [hl.settle]) nofun
  have hwake :
      NeverUsedAgain (l.log ++ [ClientDeed.call] ++ [ClientDeed.settle] ++ [ClientDeed.wake]) :=
    neverUsedAgain_concat.mpr ⟨hsettled, fun _ ↦ id, nofun⟩
  unfold ClientLife.turn
  generalize l.work.operator max a = o at hend
  obtain ⟨work, ending⟩ := o
  subst hend
  cases woken with
  | false => exact ⟨iff_of_true hwake rfl, fun _ ↦ rfl⟩
  | true =>
    have hup' : ((l.call work).settle true).terminated = false := hup
    have heq : (((l.call work).settle true).reschedule known).log =
        l.log ++ [ClientDeed.call] ++ [ClientDeed.settle] ++ [ClientDeed.wake] ++
          [ClientDeed.reschedule false] := by cases known <;> rfl
    refine ⟨iff_of_false (fun h ↦ ?_) nofun, nofun⟩
    dsimp only at h
    rw [hup', if_neg Bool.false_ne_true, heq] at h
    exact (neverUsedAgain_concat.mp h).2.1 (by simp) trivial

end Turn

/-- A worker looks at a work that has not been handed over. -/
theorem look_of_unsettled {l : ClientLife} (hl : l.Unsettled) (hlog : NeverUsedAgain l.log)
    (rest : Bool) : NeverUsedAgain (l.look rest).log ∧ (l.look rest).Unsettled := by
  have htest : NeverUsedAgain (l.log ++ [ClientDeed.test]) := hlog.concat hl.settle nofun
  have hlooked : ({ l.note .test with past := l.past - 1 } : ClientLife).Unsettled := by
    refine ⟨hl.size, ?_, fun harmed ↦ ⟨(hl.armed harmed).1, ?_⟩⟩
    · simp [ClientLife.note, hl.settle]
    · simp [ClientLife.note, (hl.armed harmed).2]
  unfold ClientLife.look
  dsimp only
  split
  · exact ⟨htest.concat hlooked.settle nofun, hlooked.delete⟩
  · exact ⟨htest, hlooked⟩

/-- What a step is. -/
theorem clientLife_step {max : Limit} {w : ClientWork} {l l' : ClientLife} {act : LifeAct}
    (h : (clientLife max w).step l act = some l') : l.terminated = false ∧
      ((∃ a woken known, act = .turn a woken known ∧ l.armed = true ∧
          l' = l.turn max a woken known) ∨
        (∃ rest, act = .look rest ∧ l' = l.look rest) ∨
          act = .hangup ∧ l.armed = true ∧ l' = l.delete .delete) := by
  unfold clientLife at h
  dsimp only at h
  split at h
  · cases h
  · next hup =>
    refine ⟨Bool.eq_false_of_not_eq_true hup, ?_⟩
    cases act with
    | turn a woken known =>
      obtain ⟨harmed, heq⟩ := Option.ite_none_right_eq_some.mp h
      cases heq
      exact .inl ⟨a, woken, known, rfl, harmed, rfl⟩
    | look rest =>
      obtain ⟨-, heq⟩ := Option.ite_none_left_eq_some.mp h
      cases heq
      exact .inr (.inl ⟨rest, rfl, rfl⟩)
    | hangup =>
      obtain ⟨harmed, heq⟩ := Option.ite_none_right_eq_some.mp h
      cases heq
      exact .inr (.inr ⟨rfl, harmed, rfl⟩)

/-- In every run: a client work is not used once its response has been handed over, and whenever it
is rescheduled it is there and its socket registered, if and only if its response is complete at
the end of no turn from which the worker gets back to it. -/
theorem neverUsedAgain_iff (max : Limit) (reqhdrs : Hdrs) (reqBody : Str) (granted : Bool)
    (acts : List LifeAct) :
    let M := clientLife max (.new reqhdrs reqBody granted)
    M.AllStates (fun l ↦ NeverUsedAgain l.log) M.init acts ↔
      M.AllSteps (LifeAct.Spares max) M.init acts := by
  intro M
  refine Machine.allStates_iff_allSteps M (J := fun l ↦ l.terminated = false → l.Unsettled)
    (fun l act l' hlog hl hstep ↦ ?_) (fun l act l' hlog hl hspares hstep ↦ ?_) ?_ ?_ acts
  · obtain ⟨hup, hcase⟩ := clientLife_step hstep
    rcases hcase with ⟨a, woken, known, rfl, harmed, rfl⟩ | ⟨rest, rfl, rfl⟩ | ⟨rfl, harmed, rfl⟩
    · dsimp only [LifeAct.Spares]
      rw [← ClientWork.delivers_iff_completes (hl hup).size]
      by_cases hdel : l.work.Delivers max a
      · rw [(turn_of_delivers (hl hup) hlog hup hdel).1, forall_prop_of_true hdel]
      · exact iff_of_true (turn_of_not_delivers (hl hup) hlog harmed hdel).1 (absurd · hdel)
    · exact iff_of_true (look_of_unsettled (hl hup) hlog rest).1 trivial
    · exact iff_of_true (hlog.concat (hl hup).settle nofun) trivial
  · obtain ⟨hup, hcase⟩ := clientLife_step hstep
    rcases hcase with ⟨a, woken, known, rfl, harmed, rfl⟩ | ⟨rest, rfl, rfl⟩ | ⟨rfl, harmed, rfl⟩
    · dsimp only [LifeAct.Spares] at hspares
      rw [← ClientWork.delivers_iff_completes (hl hup).size] at hspares
      by_cases hdel : l.work.Delivers max a
      · intro hup'
        have hdown : woken = false → (l.turn max a woken known).terminated = true :=
          (turn_of_delivers (hl hup) hlog hup hdel).2
        cases (hdown (hspares hdel)).symm.trans hup'
      · exact (turn_of_not_delivers (hl hup) hlog harmed hdel).2
    · exact fun _ ↦ (look_of_unsettled (hl hup) hlog rest).2
    · exact fun _ ↦ (hl hup).delete
  · exact ⟨.nil, .nil, List.not_mem_nil⟩
  · exact fun _ ↦ ⟨(by decide : 0 < sizeBound), List.not_mem_nil, fun _ ↦ ⟨rfl, List.not_mem_nil⟩⟩

/-- A turn in which the socket takes everything and the response arrives. -/
def responded : Chances Unit :=
  { sizes := [cbufsz], writeStop := .clear, chunks := ["HTTP/1.1 200 OK\r\n\r\n".toList]
    readStop := .blocked, bodyChunks := [], bodyStop := .clear, resetWorld := (), world := () }

/-- A work that has delivered a response without a body. -/
theorem not_neverUsedAgain_responded :
    let M := clientLife none (.new .empty [] true)
    ¬ M.AllStates (fun l ↦ NeverUsedAgain l.log) M.init
      (List.replicate 3 (.turn responded true false)) := by
  intro M h
  obtain ⟨l, hrun, hlog⟩ : ∃ l, M.run M.init (List.replicate 3 (.turn responded true false)) =
      some l ∧ l.log = [.call, .reschedule true, .call, .reschedule true, .call, .settle, .wake,
        .reschedule false] := ⟨_, rfl, by decide⟩
  have hlast := Machine.AllStates.last M h hrun
  exact absurd hlast.registered (by simp [hlog])

/-! ### In the whole server -/

namespace Sched

variable {T : Type} [Fintype T] [DecidableEq T] {s s' : Sys T} {t : T}

/-- Right after a response has been handed over, the worker has a work that is deleted, with a
socket that is closed, and its next step, which is to reschedule the work, throws. -/
theorem resume_of_deliver (h : s.step (.deliver t) = some s') :
    (∃ a w, s'.at? t .delivered = some a ∧ s'.works[a]? = some w ∧ w.deleted = true ∧
      s'.fds w.fd = .closed) ∧ s'.step (.resume t) = none := by
  cases Sys.step_moves h with
  | crew hcrew => cases hcrew
  | deliver ha hw hclient hs =>
    next a w b s₁ =>
    obtain ⟨v, -, hopen, -, rfl⟩ := Sys.reschedule_eq_some hs
    obtain ⟨-, hjob⟩ := Sys.at?_eq_some.mp ha
    have hfds : (s.delivered a w.fd b).fds = Function.update s.fds w.fd .closed :=
      Sys.fds_delete (s := s.unregister w.fd) hw
    have hcrew : (s.delivered a w.fd b).crew = s.crew := crew_delete (s.unregister w.fd) a
    obtain ⟨w', hw', hdeleted, hfd⟩ : ∃ w', (s.delivered a w.fd b).works[a]? = some w' ∧
        w'.deleted = true ∧ w'.fd = w.fd := by
      unfold Sys.delivered Sys.modify Sys.delete
      dsimp only [Sys.unregister]
      rw [hw]
      dsimp only
      rw [List.getElem?_modify, List.getElem?_modify, hw]
      split <;> simp [Sys.deleted_setNosch, Sys.fd_setNosch]
    have hother : w.fd ≠ v.fd := by
      intro heq
      rw [hfds, ← heq, Function.update_self] at hopen
      exact hopen rfl
    have hclosed : Function.update (s.delivered a w.fd b).fds v.fd (.armed v.m) w.fd = .closed := by
      rw [Function.update_of_ne hother, hfds, Function.update_self]
    have hat : Sys.at? (Sys.goto { s.delivered a w.fd b with
        fds := Function.update (s.delivered a w.fd b).fds v.fd (.armed v.m) } t .delivered) t
        .delivered = some a := by
      refine Sys.at?_eq_some.mpr ⟨Function.update_self _ _ _, ?_⟩
      change (s.delivered a w.fd b).crew.job t = some a
      rwa [hcrew]
    refine ⟨⟨a, w', hat, hw', hdeleted, by rw [hfd]; exact hclosed⟩, ?_⟩
    simp only [Sys.step, hat, Option.bind_eq_bind, Option.bind_some, Option.bind_eq_none_iff]
    intro s₂ hs₂
    obtain ⟨w'', hw'', hopen', -, -⟩ := Sys.reschedule_eq_some hs₂
    cases hw'.symm.trans hw''
    exact absurd (hfd ▸ hclosed) hopen'

end Sched
end Filth
