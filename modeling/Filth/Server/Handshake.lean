import Filth.Server.Relay

/-!
# Going to sleep and being woken up

A server work that has its request answered by a domain socket, in any order of steps: what its
worker does, `src/HTTP_2616_Server_Work.cpp:187–195` and `src/HTTP_Server_Work.cpp:86–94`, which
goes on after the client work has been scheduled; the quanta of the client work, the last of which
calls `async_setresponse`, `src/HTTP_Server_Work.cpp:257–281` and
`src/HTTP_2616_Server_Work.cpp:520–530`; and the write quanta of the server work. A quantum is one
step. No other request arrives in the meantime.
-/

namespace Filth

open Base

/-- `get` of at most `n` characters before a NUL. -/
def Base.IStream.get (i : IStream) (n : Nat) : Str × IStream :=
  if i.good then
    let got := (cstr i.rest).take n
    (got, { i with
      pos := i.pos + got.length, eof := got.length = i.rest.length, fail := got.isEmpty })
  else ([], { i with fail := true })

/-- What the worker that handles the request does next. -/
inductive Handoff where
  /-- `nosch = true`. -/
  | setNosch
  /-- The client work is scheduled. -/
  | schedule
  /-- `prepare_response` returns. -/
  | leave
  /-- `cbuf`, `out` and `outsz` are filled from `outbuf`. -/
  | refill
  /-- `m = write`. -/
  | setMode
  /-- The work is rescheduled. -/
  | reschedule
  /-- The worker looks at `deleteme`. -/
  | test
  | gone
  deriving DecidableEq, Repr

namespace Handoff

/-- The client work has been scheduled. -/
def started : Handoff → Bool
  | setNosch | schedule => false
  | _ => true

/-- The work has been rescheduled. -/
def rescheduled : Handoff → Bool
  | test | gone => true
  | _ => false

end Handoff

/-- The server work, what epoll and the job queue know of it, and what has been sent. `failed`,
`delivered`, `ended` and `sent` are no members of the source. -/
structure Handshake where
  stage : Handoff
  m : Mode
  nosch : Bool
  outhdrsDone : Bool
  outbuf : IStream
  out : Str
  outbody : Str
  /-- epoll watches the connection. -/
  armed : Bool
  /-- How often the work is in the job queue. -/
  queued : Nat
  deleted : Bool
  /-- A write has failed. -/
  failed : Bool
  /-- `async_setresponse` has been called. -/
  delivered : Bool
  /-- The work has been reset. -/
  ended : Bool
  sent : Str
  deriving DecidableEq, Repr

/-- What may happen next. -/
inductive ShakeAct where
  /-- The worker that handles the request goes on. -/
  | handle
  /-- A quantum of the client work, which leaves the server work alone. -/
  | fetch
  /-- The last one. Memory for the body may be denied. -/
  | deliver (granted : Bool)
  /-- epoll reports the connection. -/
  | report
  /-- A worker executes the work; how much each `write` takes, and why writing stops. -/
  | quantum (sizes : List Nat) (stop : Stop)
  deriving DecidableEq, Repr

namespace Handshake

/-- A request has been read, and its path is that of a domain socket. -/
def new : Handshake :=
  { stage := .setNosch, m := .read, nosch := false, outhdrsDone := false, outbuf := .new []
    out := [], outbody := [], armed := false, queued := 0, deleted := false, failed := false
    delivered := false, ended := false, sent := [] }

/-- The next step of the worker that handles the request, `src/HTTP_2616_Server_Work.cpp:187–195`.
-/
def handle (deleteme : Bool) (s : Handshake) : Option Handshake :=
  match s.stage with
  | .setNosch => some { s with stage := .schedule, nosch := true }
  | .schedule => some { s with stage := .leave }
  | .leave => some { s with stage := .refill }
  | .refill =>
    let got := s.outbuf.get (cbufsz - 1)
    some { s with stage := .setMode, out := got.1, outbuf := got.2 }
  | .setMode => some { s with stage := .reschedule, m := .write }
  | .reschedule => some { s with stage := .test, armed := true }
  | .test => some { s with stage := .gone, deleted := deleteme }
  | .gone => none

/-- `async_setresponse`, `src/HTTP_Server_Work.cpp:257–281`. -/
def deliver (resphdrs : Hdrs) (respbody : Str) (granted : Bool) (s : Handshake) : Handshake :=
  let got := ((IStream.new []).insert resphdrs.print).get (cbufsz - 1)
  { s with
    outhdrsDone := false, outbuf := got.2, out := got.1
    outbody := if granted then strncpy respbody respbody.length else []
    nosch := false, m := .write, armed := true, delivered := true }

/-- Write, `src/HTTP_Server_Work.cpp:97–154`. -/
def writeOut (deleteme : Bool) (sizes : List Nat) (stop : Stop) (s : Handshake) : Handshake :=
  let (sent, out) := wruntil s.out sizes
  let s := { s with out, sent := s.sent ++ sent }
  if out ≠ [] then if stop = .blocked then { s with armed := true }
    else { s with deleted := true, failed := true }
  else if !s.outhdrsDone then { s with outhdrsDone := true, out := s.outbody, armed := true }
  else if s.nosch then s
  else if !deleteme then
    { s with
      m := .read, outhdrsDone := false, outbuf := .new [], out := [], outbody := [], armed := true
      ended := true }
  else s

/-- `operator()`, and the worker's look at `deleteme`. Nothing can be read. -/
def quantum (deleteme : Bool) (sizes : List Nat) (stop : Stop) (s : Handshake) : Handshake :=
  let s := { s with queued := s.queued - 1 }
  let s := match s.m with
    | .read => { s with armed := true }
    | .write => s.writeOut deleteme sizes stop
  { s with deleted := s.deleted || deleteme }

end Handshake

/-- A server work and the client work it has scheduled, which gets this response. -/
def handshake (resphdrs : Hdrs) (respbody : Str) (deleteme : Bool) :
    Machine Handshake ShakeAct where
  init := .new
  step s act :=
    if s.deleted then none
    else match act with
      | .handle => s.handle deleteme
      | .fetch => if s.stage.started ∧ s.delivered = false then some s else none
      | .deliver granted =>
        if s.stage.started ∧ s.delivered = false then some (s.deliver resphdrs respbody granted)
        else none
      | .report =>
        if s.armed then some { s with armed := false, queued := s.queued + 1 } else none
      | .quantum sizes stop => if s.queued = 0 then none else some (s.quantum deleteme sizes stop)

/-- The client is sent the headers of the response and then its body, once and nothing else: never
anything but a beginning of that, all of it when the work is reset, and until then the work is
watched or in the job queue once the response is there. The work is not deleted before that unless
a write fails. -/
structure Handshake.Answered (resphdrs : Hdrs) (respbody : Str) (s : Handshake) : Prop where
  inOrder : s.sent <+: resphdrs.print ++ respbody
  whole : s.ended = true → s.sent = resphdrs.print ++ respbody
  awake : s.delivered = true → s.ended = false → s.deleted = false → s.armed = true ∨ 0 < s.queued
  kept : s.deleted = true → s.failed = true

/-- The client does not want the connection to be closed. The headers of the response fit into the
buffer, neither part is cut off at a NUL, and there is memory for the body. When the buffer is
filled from `outbuf` after the response has come, nothing of it is waiting there. -/
def ShakeAct.Timely (resphdrs : Hdrs) (respbody : Str) (deleteme : Bool) (s : Handshake) :
    ShakeAct → Prop
  | .handle => (s.stage = .refill → s.delivered = true → s.out = []) ∧
      (s.stage = .test → deleteme = false)
  | .deliver granted => resphdrs.print.length < cbufsz ∧ '\x00' ∉ resphdrs.print ∧
      if granted then strncpy respbody respbody.length = respbody else respbody = []
  | .quantum .. => deleteme = false
  | _ => True

instance (resphdrs : Hdrs) (respbody : Str) (deleteme : Bool) (s : Handshake) :
    (act : ShakeAct) → Decidable (act.Timely resphdrs respbody deleteme s)
  | .handle => inferInstanceAs (Decidable (_ ∧ _))
  | .deliver granted => inferInstanceAs (Decidable (_ ∧ _ ∧
      if granted then strncpy respbody respbody.length = respbody else respbody = []))
  | .quantum .. => inferInstanceAs (Decidable (deleteme = false))
  | .fetch | .report => inferInstanceAs (Decidable True)

/-- Before the response has been handed over there is nothing to write. -/
structure Handshake.Before (s : Handshake) : Prop where
  out : s.out = []
  outbody : s.outbody = []
  outbuf : s.outbuf.rest = []
  sent : s.sent = []
  ended : s.ended = false
  nosch : s.stage ≠ .setNosch → s.nosch = true
  still : s.stage.rescheduled = false → s.armed = false ∧ s.queued = 0
  kept : s.deleted = true → s.failed = true

/-- Afterwards, what has been sent and what is left make up the response. -/
structure Handshake.After (text : Str) (s : Handshake) : Prop where
  started : s.stage.started = true
  outbuf : s.outbuf.rest = []
  nosch : s.nosch = false
  writing : s.ended = false → s.m = .write ∧
    s.sent ++ s.out ++ (if s.outhdrsDone then [] else s.outbody) = text ∧
      (s.deleted = false → s.armed = true ∨ 0 < s.queued)
  finished : s.ended = true → s.sent = text ∧ s.out = [] ∧ s.outbody = []
  kept : s.deleted = true → s.failed = true

/-- One or the other. -/
def Handshake.Sound (text : Str) (s : Handshake) : Prop :=
  if s.delivered then s.After text else s.Before

namespace Handshake

variable {resphdrs : Hdrs} {respbody text : Str} {deleteme : Bool} {s s' : Handshake}

theorem Before.sound (hs : s.Before) (hdelivered : s.delivered = false) : s.Sound text := by
  unfold Sound
  rw [hdelivered]
  exact hs

theorem After.sound (hs : s.After text) (hdelivered : s.delivered = true) : s.Sound text := by
  unfold Sound
  rw [hdelivered]
  exact hs

theorem Sound.answered (hs : s.Sound (resphdrs.print ++ respbody)) :
    Answered resphdrs respbody s := by
  unfold Sound at hs
  split at hs
  · next hdelivered =>
    cases hended : s.ended with
    | false =>
      obtain ⟨-, htext, hawake⟩ := hs.writing hended
      rw [List.append_assoc] at htext
      exact ⟨⟨_, htext⟩, fun h ↦ (nomatch hended.symm.trans h), fun _ _ ↦ hawake, hs.kept⟩
    | true =>
      have hsent := (hs.finished hended).1
      exact ⟨hsent ▸ List.prefix_rfl, fun _ ↦ hsent, fun _ h ↦ (nomatch hended.symm.trans h),
        hs.kept⟩
  · next hdelivered =>
    refine ⟨hs.sent ▸ List.nil_prefix, fun h ↦ (nomatch hs.ended.symm.trans h), fun h ↦ ?_, hs.kept⟩
    exact absurd h hdelivered

/-- `get` from a stream that has only just been filled. -/
private theorem get_insert {text : Str} (hlen : text.length < cbufsz) (hnul : '\x00' ∉ text) :
    (((IStream.new []).insert text).get (cbufsz - 1)).1 = text ∧
      (((IStream.new []).insert text).get (cbufsz - 1)).2.rest = [] := by
  have hgot : (cstr text).take (cbufsz - 1) = text := by
    rw [cstr_eq_self hnul, List.take_of_length_le (Nat.le_sub_one_of_lt hlen)]
  refine ⟨hgot, ?_⟩
  change text.drop (0 + ((cstr text).take (cbufsz - 1)).length) = []
  rw [hgot, Nat.zero_add]
  exact List.drop_length

/-- `get` finds nothing where nothing is left. -/
theorem get_of_rest {i : IStream} (h : i.rest = []) (n : Nat) :
    (i.get n).1 = [] ∧ (i.get n).2.rest = [] := by
  have hgot : (cstr i.rest).take n = [] := by rw [h]; exact List.take_nil
  unfold IStream.get
  split
  · refine ⟨hgot, ?_⟩
    change i.text.drop (i.pos + ((cstr i.rest).take n).length) = []
    rw [hgot]
    exact h
  · exact ⟨rfl, h⟩

/-- The worker goes on while there is no response. -/
theorem Before.handle (hs : s.Before) (hdeleteme : s.stage = .test → deleteme = false)
    (h : s.handle deleteme = some s') : s'.delivered = s.delivered ∧ s'.Before := by
  obtain ⟨stage⟩ := s
  obtain ⟨hout, hbody, hbuf, hsent, hended, hnosch, hstill, hkept⟩ := hs
  cases stage with
  | setNosch =>
    cases h
    exact ⟨rfl, hout, hbody, hbuf, hsent, hended, fun _ ↦ rfl, fun _ ↦ hstill rfl, hkept⟩
  | refill =>
    cases h
    obtain ⟨hgot, hrest⟩ := get_of_rest hbuf (cbufsz - 1)
    exact ⟨rfl, hgot, hbody, hrest, hsent, hended, fun _ ↦ hnosch nofun, fun _ ↦ hstill rfl, hkept⟩
  | schedule | leave | setMode =>
    cases h
    exact ⟨rfl, hout, hbody, hbuf, hsent, hended, fun _ ↦ hnosch nofun, fun _ ↦ hstill rfl, hkept⟩
  | reschedule =>
    cases h
    exact ⟨rfl, hout, hbody, hbuf, hsent, hended, fun _ ↦ hnosch nofun, nofun, hkept⟩
  | test =>
    cases h
    refine ⟨rfl, hout, hbody, hbuf, hsent, hended, fun _ ↦ hnosch nofun, nofun, fun h ↦ ?_⟩
    cases (hdeleteme rfl).symm.trans h
  | gone => cases h

/-- The response is handed over. -/
theorem Before.deliver {granted : Bool} (hs : s.Before) (hstarted : s.stage.started = true)
    (htimely : ShakeAct.Timely resphdrs respbody deleteme s (.deliver granted)) :
    (s.deliver resphdrs respbody granted).After (resphdrs.print ++ respbody) := by
  obtain ⟨hlen, hnul, hbody⟩ := htimely
  obtain ⟨hgot, hrest⟩ := get_insert hlen hnul
  refine ⟨hstarted, hrest, rfl, fun _ ↦ ⟨rfl, ?_, fun _ ↦ .inl rfl⟩, fun h ↦ ?_, hs.kept⟩
  · have hout : (s.deliver resphdrs respbody granted).out = resphdrs.print := hgot
    have hbody : (s.deliver resphdrs respbody granted).outbody = respbody := by
      change (if granted then strncpy respbody respbody.length else []) = respbody
      split at hbody
      · next hgranted => rwa [if_pos hgranted]
      · next hgranted => rw [if_neg hgranted, hbody]
    change s.sent ++ (s.deliver resphdrs respbody granted).out ++
      (s.deliver resphdrs respbody granted).outbody = _
    rw [hs.sent, hout, hbody]
    rfl
  · cases hs.ended.symm.trans h

/-- The worker goes on when the response is there. -/
theorem After.handle (hs : s.After text) (hout : s.stage = .refill → s.out = [])
    (hdeleteme : s.stage = .test → deleteme = false) (hup : s.deleted = false)
    (h : s.handle deleteme = some s') : s'.delivered = s.delivered ∧ s'.After text := by
  obtain ⟨stage⟩ := s
  obtain ⟨hstarted, houtbuf, hnosch, hwriting, hfinished, hkept⟩ := hs
  cases stage with
  | setNosch | schedule => cases hstarted
  | leave =>
    cases h
    exact ⟨rfl, rfl, houtbuf, hnosch, hwriting, hfinished, hkept⟩
  | refill =>
    -- Both before and after, there is nothing in the buffer.
    cases h
    obtain ⟨hgot, hrest⟩ := get_of_rest houtbuf (cbufsz - 1)
    have hsame := hgot.trans (hout rfl).symm
    refine ⟨rfl, rfl, hrest, hnosch, fun h ↦ ?_, fun h ↦ ⟨(hfinished h).1, hgot, (hfinished h).2.2⟩,
      hkept⟩
    dsimp only
    rw [hsame]
    exact hwriting h
  | setMode =>
    cases h
    exact ⟨rfl, rfl, houtbuf, hnosch, fun h ↦ ⟨rfl, (hwriting h).2⟩, hfinished, hkept⟩
  | reschedule =>
    cases h
    refine ⟨rfl, rfl, houtbuf, hnosch, fun h ↦ ?_, hfinished, hkept⟩
    exact ⟨(hwriting h).1, (hwriting h).2.1, fun _ ↦ .inl rfl⟩
  | test =>
    cases h
    refine ⟨rfl, rfl, houtbuf, hnosch, fun h ↦ ?_, hfinished, fun h ↦ ?_⟩
    · exact ⟨(hwriting h).1, (hwriting h).2.1, fun _ ↦ (hwriting h).2.2 hup⟩
    · cases (hdeleteme rfl).symm.trans h
  | gone => cases h

/-- A quantum while there is no response writes nothing. -/
theorem Before.quantum (hs : s.Before) (hqueued : s.queued ≠ 0) (sizes : List Nat) (stop : Stop) :
    (s.quantum false sizes stop).delivered = s.delivered ∧
      (s.quantum false sizes stop).Before := by
  have hrescheduled : s.stage.rescheduled = true :=
    Bool.eq_true_of_not_eq_false fun h ↦ hqueued (hs.still h).2
  have hstage : s.stage ≠ .setNosch := by
    intro h
    rw [h] at hrescheduled
    cases hrescheduled
  have hwrote : wruntil s.out sizes = ([], []) := by
    rw [hs.out]
    cases sizes with
    | nil => rfl
    | cons n ns => rfl
  have hkept : (s.deleted || false) = true → s.failed = true := by
    rw [Bool.or_false]
    exact hs.kept
  unfold Handshake.quantum Handshake.writeOut
  dsimp only
  rw [hwrote]
  cases hm : s.m with
  | read =>
    exact ⟨rfl, { hs with still := fun h ↦ (nomatch hrescheduled.symm.trans h), kept := hkept }⟩
  | write =>
    dsimp only
    rw [hs.sent, hs.nosch hstage]
    cases hdone : s.outhdrsDone with
    | false =>
      exact ⟨rfl, hs.outbody, hs.outbody, hs.outbuf, rfl, hs.ended, fun _ ↦ rfl,
        fun h ↦ (nomatch hrescheduled.symm.trans h), hkept⟩
    | true =>
      exact ⟨rfl, rfl, hs.outbody, hs.outbuf, rfl, hs.ended, fun _ ↦ rfl,
        fun h ↦ (nomatch hrescheduled.symm.trans h), hkept⟩

/-- A quantum when the response is there. -/
theorem After.quantum (hs : s.After text) (sizes : List Nat) (stop : Stop) :
    (s.quantum false sizes stop).delivered = s.delivered ∧
      (s.quantum false sizes stop).After text := by
  have hkept : (s.deleted || false) = true → s.failed = true := by
    rw [Bool.or_false]
    exact hs.kept
  have hout := wruntil_append s.out sizes
  have hsent (hended : s.ended = false) : s.sent ++ (wruntil s.out sizes).1 ++
      (wruntil s.out sizes).2 ++ (if s.outhdrsDone then [] else s.outbody) = text := by
    rw [List.append_assoc s.sent, hout]
    exact (hs.writing hended).2.1
  have hidle (hended : s.ended = true) :
      (wruntil s.out sizes).1 = [] ∧ (wruntil s.out sizes).2 = [] := by
    rw [(hs.finished hended).2.1] at hout ⊢
    exact List.append_eq_nil_iff.mp hout
  unfold Handshake.quantum Handshake.writeOut
  dsimp only
  cases hm : s.m with
  | read =>
    refine ⟨rfl, { hs with writing := fun hended ↦ ?_, kept := hkept }⟩
    cases (hs.writing hended).1.symm.trans hm
  | write =>
    dsimp only
    split
    · next hleft =>
      have hbusy : s.ended = false :=
        Bool.eq_false_of_not_eq_true fun hended ↦ hleft (hidle hended).2
      have hended {P : Prop} (h : s.ended = true) : P := nomatch hbusy.symm.trans h
      split
      · exact ⟨rfl, hs.started, hs.outbuf, hs.nosch, fun h ↦ ⟨rfl, hsent h, fun _ ↦ .inl rfl⟩,
          hended, hkept⟩
      · exact ⟨rfl, hs.started, hs.outbuf, hs.nosch, fun h ↦ ⟨rfl, hsent h, nofun⟩, hended,
          fun _ ↦ rfl⟩
    · next hleft =>
      have hleft : (wruntil s.out sizes).2 = [] := not_not.mp hleft
      rw [hleft] at hsent hidle ⊢
      rw [List.append_nil] at hsent
      rw [hs.nosch]
      cases hdone : s.outhdrsDone with
      | false =>
        rw [hdone] at hsent
        refine ⟨rfl, hs.started, hs.outbuf, rfl, fun h ↦ ⟨rfl, ?_, fun _ ↦ .inl rfl⟩, fun h ↦ ?_,
          hkept⟩
        · exact (List.append_nil _).trans (hsent h)
        · obtain ⟨hall, -, hbody⟩ := hs.finished h
          refine ⟨?_, hbody, hbody⟩
          change s.sent ++ (wruntil s.out sizes).1 = text
          rw [(hidle h).1, List.append_nil, hall]
      | true =>
        rw [hdone] at hsent
        refine ⟨rfl, hs.started, rfl, rfl, nofun, fun _ ↦ ⟨?_, rfl, rfl⟩, hkept⟩
        change s.sent ++ (wruntil s.out sizes).1 = text
        cases hended : s.ended with
        | false => exact (List.append_nil _).symm.trans (hsent hended)
        | true => rw [(hidle hended).1, List.append_nil, (hs.finished hended).1]

/-- A step that is timely keeps what is sent and what is left the response. -/
private theorem sound_of_step {act : ShakeAct} (hs : s.Sound (resphdrs.print ++ respbody))
    (htimely : act.Timely resphdrs respbody deleteme s)
    (hstep : (handshake resphdrs respbody deleteme).step s act = some s') :
    s'.Sound (resphdrs.print ++ respbody) := by
  obtain ⟨hup, hstep⟩ := Option.ite_none_left_eq_some.mp hstep
  have hup : s.deleted = false := Bool.eq_false_of_not_eq_true hup
  unfold Sound at hs
  cases act with
  | handle =>
    split at hs
    · next hdelivered =>
      obtain ⟨hsame, hs⟩ := hs.handle (htimely.1 · hdelivered) htimely.2 hup hstep
      exact hs.sound (hsame.trans hdelivered)
    · next hdelivered =>
      obtain ⟨hsame, hs⟩ := hs.handle htimely.2 hstep
      exact hs.sound (hsame.trans (Bool.eq_false_of_not_eq_true hdelivered))
  | fetch =>
    obtain ⟨-, heq⟩ := Option.ite_none_right_eq_some.mp hstep
    cases heq
    exact hs
  | deliver granted =>
    obtain ⟨⟨hstarted, hnew⟩, heq⟩ := Option.ite_none_right_eq_some.mp hstep
    cases heq
    rw [hnew] at hs
    exact (hs.deliver hstarted htimely).sound rfl
  | report =>
    obtain ⟨harmed, heq⟩ := Option.ite_none_right_eq_some.mp hstep
    cases heq
    split at hs
    · next hdelivered =>
      refine After.sound { hs with writing := fun h ↦ ?_ } hdelivered
      exact ⟨(hs.writing h).1, (hs.writing h).2.1, fun _ ↦ .inr (Nat.succ_pos _)⟩
    · next hdelivered =>
      refine Before.sound { hs with still := fun h ↦ ?_ } (Bool.eq_false_of_not_eq_true hdelivered)
      cases (hs.still h).1.symm.trans harmed
  | quantum sizes stop =>
    obtain ⟨hqueued, heq⟩ := Option.ite_none_left_eq_some.mp hstep
    cases heq
    have hdeleteme : deleteme = false := htimely
    rw [hdeleteme]
    split at hs
    · next hdelivered =>
      obtain ⟨hsame, hs⟩ := hs.quantum sizes stop
      exact hs.sound (hsame.trans hdelivered)
    · next hdelivered =>
      obtain ⟨hsame, hs⟩ := hs.quantum hqueued sizes stop
      exact hs.sound (hsame.trans (Bool.eq_false_of_not_eq_true hdelivered))

end Handshake

/-- In every run in which the response comes in time: its headers and then its body are sent, once
and nothing else, and the work is watched or in the job queue until they are. -/
theorem answered_of_timely {resphdrs : Hdrs} {respbody : Str} {deleteme : Bool}
    {acts : List ShakeAct}
    (htimely : (handshake resphdrs respbody deleteme).AllSteps
      (fun s act ↦ act.Timely resphdrs respbody deleteme s) .new acts) :
    (handshake resphdrs respbody deleteme).AllStates (Handshake.Answered resphdrs respbody) .new
      acts := by
  have hnew : Handshake.new.Sound (resphdrs.print ++ respbody) :=
    ⟨rfl, rfl, rfl, rfl, rfl, absurd rfl, fun _ ↦ ⟨rfl, rfl⟩, nofun⟩
  have hsound := Machine.AllSteps.allStates (handshake resphdrs respbody deleteme)
    (fun _ _ _ hs ht hstep ↦ Handshake.sound_of_step hs ht hstep) hnew htimely
  exact hsound.imp (handshake resphdrs respbody deleteme) fun _ hs ↦ hs.answered

/-- The headers of a response with five characters in its body. -/
def Hdrs.five : Hdrs :=
  { Hdrs.ofReqln "HTTP/1.1 200 OK" with
    hdr := Function.update (fun _ ↦ []) .contentLength "Content-Length: 5".toList }

/-- The worker is done with the request before the resource has an answer, and nothing watches the
connection when the answer comes. -/
def patient : List ShakeAct :=
  List.replicate 7 .handle ++
    [.fetch, .report, .quantum [] .clear, .report, .quantum [] .clear, .fetch, .deliver true,
      .report, .quantum [20, 18] .clear, .report, .quantum [3] .blocked, .report,
      .quantum [2] .clear]

/-- The resource answers before the worker gets to the buffer. -/
def hasty : List ShakeAct :=
  [.handle, .handle, .deliver true] ++ List.replicate 4 .handle ++
    [.report, .quantum [] .clear, .report, .quantum [5] .clear]

/-- A work that is asleep when the response comes. -/
theorem answered_of_timely_patient :
    (handshake .five "hello".toList false).AllSteps
      (fun s act ↦ act.Timely .five "hello".toList false s) .new patient ∧
    ((handshake .five "hello".toList false).run .new patient).map (fun s ↦ (s.ended, s.sent)) =
      some (true, "HTTP/1.1 200 OK\r\nContent-Length: 5\r\n\r\nhello".toList) ∧
    (handshake .five "hello".toList false).AllStates (Handshake.Answered .five "hello".toList) .new
      patient :=
  ⟨by decide +kernel, by decide +kernel, answered_of_timely (by decide +kernel)⟩

/-- A response that comes before the buffer is filled from `outbuf`: its headers are lost. -/
theorem not_answered_hasty : ¬ (handshake .five "hello".toList false).AllStates
    (Handshake.Answered .five "hello".toList) .new hasty := by
  intro h
  obtain ⟨s, hrun, hs⟩ : ∃ s, (handshake .five "hello".toList false).run .new hasty = some s ∧
      (s.ended, s.sent) = (true, "hello".toList) :=
    Option.map_eq_some_iff.mp (by decide +kernel)
  obtain ⟨hended, hsent⟩ := Prod.mk.inj hs
  have hwhole := (Machine.AllStates.last _ h hrun).whole hended
  rw [hsent] at hwhole
  exact absurd hwhole (by decide +kernel)

/-! ### Inside the whole work -/

/-- What the log says has been put on the socket. -/
def wrote (log : List Deed) : Str :=
  log.flatMap fun
    | .write bytes => bytes
    | _ => []

/-- `s` is what concerns the handshake of the work `w`, whose log was `log` when its request was
handed on. -/
structure Handshake.Mirrors {ω Ref : Type} (log : List Deed) (s : Handshake)
    (w : ServerWork ω Ref) : Prop where
  m : s.m = w.m
  nosch : s.nosch = w.scene.nosch
  outhdrsDone : s.outhdrsDone = w.outhdrsDone
  out : s.out = w.out
  outbody : s.outbody = w.outbody
  sent : ∃ new, w.log = log ++ new ∧ s.sent = wrote new

namespace Handshake

variable {ω Ref : Type} {s : Handshake} {w : ServerWork ω Ref} {log : List Deed}

private theorem wrote_concat (log : List Deed) (d : Deed) :
    wrote (log ++ [d]) = wrote log ++ wrote [d] :=
  List.flatMap_append

/-- A deed that puts `bytes` on the socket is added to the log. -/
theorem logged {now : List Deed} {sent bytes : Str}
    (h : ∃ new, now = log ++ new ∧ sent = wrote new) {d : Deed} (hd : wrote [d] = bytes) :
    ∃ new, now ++ [d] = log ++ new ∧ sent ++ bytes = wrote new := by
  obtain ⟨new, hlog, hsent⟩ := h
  refine ⟨new ++ [d], ?_, ?_⟩
  · rw [hlog, List.append_assoc]
  · rw [wrote_concat, hd, hsent]

/-- `async_setresponse` is what it is for the whole work. -/
theorem Mirrors.deliver (hs : s.Mirrors log w) (resphdrs : Hdrs) (respbody : Str) (granted : Bool) :
    (s.deliver resphdrs respbody granted).Mirrors log
      (w.asyncSetresponse resphdrs respbody granted) := by
  have hcopy : strncpy respbody respbody.length =
      cstr respbody ++ List.replicate (respbody.length - (cstr respbody).length) '\x00' := by
    have hle : (cstr respbody).length ≤ respbody.length := (List.takeWhile_sublist _).length_le
    rw [strncpy, List.take_of_length_le hle]
  obtain ⟨new, hlog, hsent⟩ := logged hs.sent rfl
  exact
    { m := rfl, nosch := rfl, outhdrsDone := rfl, out := rfl
      outbody := by
        change (if granted then strncpy respbody respbody.length else []) = _
        rw [hcopy]
        rfl
      sent := ⟨new, hlog, (List.append_nil _).symm.trans hsent⟩ }

/-- So is writing, when the client has sent nothing more. -/
theorem Mirrors.writeOut (W : World ω Ref) (cfg : Settings) (hs : s.Mirrors log w)
    (hin : w.inbuf.ignore.good = false) (a : Chances ω) :
    (s.writeOut w.deleteme a.sizes a.writeStop).Mirrors log (w.writeOut W cfg a).1 := by
  have hbytes : wrote [.write (wruntil w.out a.sizes).1] = (wruntil w.out a.sizes).1 :=
    List.append_nil _
  obtain ⟨new, hlog, hsent⟩ := logged hs.sent hbytes
  unfold Handshake.writeOut ServerWork.writeOut
  dsimp only
  rw [hs.out, hs.outhdrsDone, hs.nosch]
  split
  · split <;> exact ⟨hs.m, rfl, rfl, rfl, hs.outbody, new, hlog, hsent⟩
  · split
    · exact ⟨hs.m, rfl, rfl, hs.outbody, hs.outbody, new, hlog, hsent⟩
    · split
      · exact ⟨hs.m, rfl, rfl, rfl, hs.outbody, new, hlog, hsent⟩
      · change Mirrors log (if !w.deleteme then _ else _) (if !w.deleteme then _ else _ : _ × _).1
        have hnone : wrote [.finish w.inbuf] = [] := rfl
        obtain ⟨new, hlog, hsent⟩ := logged (logged hs.sent hbytes) hnone
        rw [List.append_nil] at hsent
        split
        · unfold ServerWork.keepAlive
          dsimp only [ServerWork.reset, ServerWork.report]
          rw [hin]
          exact ⟨rfl, rfl, rfl, rfl, rfl, new, hlog, hsent⟩
        · exact ⟨hs.m, rfl, rfl, rfl, hs.outbody, new, hlog, hsent⟩

end Handshake

end Filth
