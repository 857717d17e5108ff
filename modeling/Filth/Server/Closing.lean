import Filth.Server.Turns

/-!
# Closing a connection

`Connection: close` sets `deleteme` while the request is being read
(`src/HTTP_2616_Server_Work.cpp:420–426`), and a worker tests it after every turn
(`src/Worker.cpp:33–34`), so the connection is closed before anything has been written. Without
such a line no worker closes a connection that is not broken.
-/

namespace Filth

open Base

namespace Client

variable {w : Client}

/-- Two works are one that does not ask to be closed, and what it has to say about it is `b`. -/
def Unasked (b : Bool × Str) (w v : Client) : Prop :=
  w = v ∧ (w.deleteme, w.line .connection) = b ∧ asksClose b.2 = false

private theorem unasked_lockstep {b : Bool × Str} {α : Type} {x : ClientM α}
    (h : ∀ w, (w.deleteme, w.line .connection) = b → asksClose b.2 = false →
      ((x w).2.deleteme, (x w).2.line .connection) = b) : x.Lockstep (Unasked b) := by
  rintro w v ⟨rfl, hb, hask⟩
  exact ⟨rfl, rfl, h w hb hask, hask⟩

private theorem browseReqln_unasked (cfg : Config) (b : Bool × Str) :
    (browseReqln cfg).Lockstep (Unasked b) := by
  apply unasked_lockstep
  intro w hb _
  unfold browseReqln
  split
  · exact hb
  · exact hb

private theorem browseCoding_unasked (b : Bool × Str) {hd : Header} (hne : Header.connection ≠ hd)
    {assign : Client → ContentCoding → Client} (refuse : Status)
    (hassign : ∀ w enc, (assign w enc).deleteme = w.deleteme ∧
      (assign w enc).line .connection = w.line .connection) :
    (browseCoding hd assign refuse).Lockstep (Unasked b) := by
  refine .bind (Eff.Calm.gets fun w v h ↦ by rw [h.1]).lockstep fun _ ↦
    .ite (fun _ ↦ ?_) fun _ ↦ .pure _
  refine .bind (unasked_lockstep fun w hb _ ↦ ?_) fun _ ↦ ?_
  · change (w.deleteme, (w.setLine hd (lower (w.line hd))).line .connection) = b
    rw [line_setLine, if_neg hne]
    exact hb
  · refine .bind (Eff.Calm.gets fun w v h ↦ by rw [h.1]).lockstep fun enc ↦ ?_
    cases enc with
    | none => exact .throw _
    | some enc =>
      apply unasked_lockstep
      intro w hb _
      change ((assign w enc).deleteme, (assign w enc).line .connection) = b
      rw [(hassign w enc).1, (hassign w enc).2]
      exact hb

private theorem browseConnection_unasked (b : Bool × Str) :
    browseConnection.Lockstep (Unasked b) := by
  apply unasked_lockstep
  intro w hb hask
  have hline : asksClose (w.line .connection) = false := by
    rw [← hb] at hask
    exact hask
  rw [browseConnection, Eff.gets_bind, hline]
  exact hb

/-- Reading headers that do not ask for the connection to be closed leaves `deleteme` alone. -/
theorem browseReq_unasked (cfg : Config) (hask : asksClose (w.line .connection) = false) :
    (browseReq cfg w).2.deleteme = w.deleteme ∧
      (browseReq cfg w).2.line .connection = w.line .connection := by
  have hcc (b : Bool × Str) : browseCacheControl.Lockstep (Unasked b) := by
    apply unasked_lockstep
    intro w hb _
    change (w.deleteme, (w.setLine .cacheControl _).line .connection) = b
    rw [line_setLine, if_neg (by decide)]
    exact hb
  have hexpect (b : Bool × Str) : browseExpect.Lockstep (Unasked b) :=
    .bind (Eff.Calm.gets fun w v h ↦ by rw [h.1]).lockstep fun _ ↦
      .ite (fun _ ↦ .ite (fun _ ↦ .throw _) fun _ ↦ .throw _) fun _ ↦ .pure _
  have hmax (b : Bool × Str) : browseMaxForwards.Lockstep (Unasked b) :=
    .bind (Eff.Calm.gets fun w v h ↦ by rw [h.1]).lockstep fun _ ↦
      .ite (fun _ ↦ unasked_lockstep fun _ hb _ ↦ hb) fun _ ↦ .pure _
  have hall : (browseReq cfg).Lockstep (Unasked (w.deleteme, w.line .connection)) :=
    .bind (browseReqln_unasked cfg _) fun _ ↦
    .bind (browseCoding_unasked _ (by decide) _ fun _ _ ↦ ⟨rfl, rfl⟩) fun _ ↦
    .bind (hcc _) fun _ ↦ .bind (browseConnection_unasked _) fun _ ↦
    .bind (browseCoding_unasked _ (by decide) _ fun _ _ ↦ ⟨rfl, rfl⟩) fun _ ↦
    .bind (hexpect _) fun _ ↦ hmax _
  obtain ⟨-, -, hb, -⟩ := hall w w ⟨rfl, rfl, hask⟩
  exact Prod.mk.inj hb

end Client

/-- What has been set up for writing and has not been written. -/
def unwritten (log : List Deed) : Str :=
  log.foldl (fun left d ↦ match d with
    | .setup hdrs body => hdrs ++ body
    | .write bytes => left.drop bytes.length
    | _ => left) []

/-- A worker that closes a connection for no error does it when the response has been written
and a dynamic resource is not waited for, and it does so at the end of a response to a request
that has asked for it. -/
def Act.ClosesInTime {ω Ref : Type} (W : World ω Ref) (cfg : Settings) :
    Conn ω Ref → Act ω → Prop
  | .live w _, .turn a =>
    ((w.operator W cfg a).2 ≠ .socketErr → (w.operator W cfg a).1.deleteme = true →
      unwritten (w.operator W cfg a).1.log = [] ∧ (w.operator W cfg a).1.scene.nosch = false) ∧
    (w.finishes a = true → Client.asksClose (w.inhdrs.hdr .connection) = true →
      (w.operator W cfg a).1.deleteme = true)
  | _, _ => True

namespace ServerWork

variable {ω Ref : Type} (W : World ω Ref) (cfg : Settings) {w : ServerWork ω Ref} {a : Chances ω}

/-- The body gets complete in the turn in which the headers do: what has arrived with them is in
the stream, the rest is read, `src/HTTP_Server_Work.cpp:48–75`. -/
def bodyComplete (inbuf : IStream) (hdrs : Hdrs) (inbody : Str) (inbodySz : Nat) (a : Chances ω) :
    Bool :=
  match announcedSize (hdrs.hdr .contentLength) inbodySz with
  | .error _ => false
  | .ok 0 => true
  | .ok (n + 1) =>
    let got := (inbuf.read (n + 1)).1
    !cfg.maxReqBody.exceeded (n + 1) &&
      decide ((rduntilBody (inbody ++ cstr got) (sizeSub (n + 1) got.length) a.bodyChunks).2 = 0)

/-- The headers of a request that gets complete, with its body, when what has arrived is added to
a stream. -/
def completed (inbuf : IStream) (hdrs : Hdrs) (inbody : Str) (inbodySz : Nat) (a : Chances ω) :
    Option Hdrs :=
  if a.readStop = .failed then none
  else match parse cfg.maxLineLen (rduntil inbuf a.chunks) hdrs with
    | .ok (true, inbuf, hdrs) =>
      if bodyComplete cfg inbuf hdrs inbody inbodySz a then some hdrs else none
    | _ => none

/-- The headers of the request that is answered in this turn, if one is: it gets complete, on its
own or behind a response that ends in this turn. -/
def answered (w : ServerWork ω Ref) (a : Chances ω) : Option Hdrs :=
  if w.m = .read then
    if w.inhdrsDone then
      if (rduntilBody w.inbody w.inbodySz a.bodyChunks).2 = 0 then some w.inhdrs else none
    else completed cfg w.inbuf w.inhdrs w.inbody w.inbodySz a
  else if w.finishes a ∧ w.deleteme = false ∧ w.inbuf.ignore.good then
    completed cfg w.inbuf .empty [] 0 a
  else none

/-! ### The request that is answered -/

/-- The headers of the requests that have been handed on. -/
def handedOn (log : List Deed) : List Hdrs :=
  log.filterMap fun
    | .prepare hdrs _ => some hdrs
    | _ => none

private theorem handedOn_append (log more : List Deed) :
    handedOn (log ++ more) = handedOn log ++ handedOn more :=
  List.filterMap_append

private theorem handedOn_dropdown :
    handedOn (w.dropdown W cfg a).1.log = handedOn w.log ++ [w.inhdrs] := by
  obtain ⟨scene, hdrs, body, heq, -⟩ := dropdown_eq W cfg w a
  rw [heq]
  change handedOn (w.log ++ [Deed.prepare w.inhdrs w.inbody] ++ [Deed.setup _ _]) = _
  rw [handedOn_append, handedOn_append]
  exact List.append_nil _

private theorem handedOn_readBody : handedOn (w.readBody W cfg a).1.log = handedOn w.log ++
    if (rduntilBody w.inbody w.inbodySz a.bodyChunks).2 = 0 then [w.inhdrs] else [] := by
  unfold readBody
  dsimp only
  split
  · exact handedOn_dropdown W cfg
  · rw [List.append_nil]
    split <;> rfl

private theorem handedOn_readInbuf : handedOn (w.readInbuf W cfg a).1.log = handedOn w.log ++
    if bodyComplete cfg w.inbuf w.inhdrs w.inbody w.inbodySz a then [w.inhdrs] else [] := by
  unfold readInbuf bodyComplete
  cases announcedSize (w.inhdrs.hdr .contentLength) w.inbodySz with
  | error e => exact (List.append_nil _).symm
  | ok n =>
    cases n with
    | zero => exact handedOn_dropdown W cfg
    | succ n =>
      dsimp only
      split
      · next hmax =>
        rw [if_neg (by simp [hmax])]
        exact (List.append_nil _).symm
      · next hmax =>
        split
        · next hzero =>
          rw [if_pos (by simp [hmax, hzero, rduntilBody_zero])]
          exact handedOn_dropdown W cfg
        · refine (handedOn_readBody W cfg).trans ?_
          simp [hmax, inhdrs]

private theorem handedOn_readHdrs : handedOn (w.readHdrs W cfg a).1.log = handedOn w.log ++
    (completed cfg w.inbuf w.inhdrs w.inbody w.inbodySz a).toList := by
  have hparse : handedOn (w.log ++ [Deed.parse]) = handedOn w.log := by
    rw [handedOn_append]
    exact List.append_nil _
  unfold readHdrs completed
  dsimp only
  split
  · exact (List.append_nil _).symm
  · dsimp only [inhdrs]
    cases hp : parse cfg.maxLineLen (rduntil w.inbuf a.chunks) w.scene.client.reqHdrs with
    | error e => exact hparse.trans (List.append_nil _).symm
    | ok o =>
      obtain ⟨done, inbuf, hdrs⟩ := o
      rw [afterParse]
      cases done with
      | false => exact hparse.trans (List.append_nil _).symm
      | true =>
        refine (handedOn_readInbuf W cfg).trans ?_
        change handedOn (w.log ++ [Deed.parse]) ++
          (if bodyComplete cfg inbuf hdrs w.inbody w.inbodySz a then [hdrs] else []) = _
        rw [hparse]
        dsimp only
        split <;> rfl

/-- A turn hands on the request that is answered in it, and no other. -/
theorem handedOn_operator : handedOn (w.operator W cfg a).1.log =
    handedOn w.log ++ (w.answered cfg a).toList := by
  unfold answered
  cases hm : w.m with
  | read =>
    rw [if_pos rfl]
    unfold operator
    rw [hm]
    dsimp only
    split
    · rw [handedOn_readBody]
      split <;> rfl
    · exact handedOn_readHdrs W cfg
  | write =>
    have hop : w.operator W cfg a = w.writeOut W cfg a := by
      unfold operator
      rw [hm]
    rw [if_neg (by decide), hop]
    cases hf : w.finishes a with
    | false =>
      obtain ⟨out, done, bytes, e, -, heq⟩ := writeOut_of_not_finishes W cfg hm hf
      rw [heq, if_neg (by simp)]
      change handedOn (w.log ++ [Deed.write bytes]) = _
      rw [handedOn_append]
      rfl
    | true =>
      have hlog : handedOn (w.finished a).log = handedOn w.log := by
        change handedOn (w.log ++ [Deed.write _, Deed.finish _]) = _
        rw [handedOn_append]
        exact List.append_nil _
      rw [writeOut_of_finishes W cfg hf]
      cases hdel : w.deleteme with
      | true =>
        rw [if_neg (by simp), if_neg (by simp), hlog]
        exact (List.append_nil _).symm
      | false =>
        have hsame : (w.finished a).inbuf = w.inbuf := rfl
        rw [if_pos (by rfl), keepAlive_eq, hsame]
        by_cases hg : w.inbuf.ignore.good = true
        · rw [if_pos hg, if_pos ⟨rfl, rfl, hg⟩]
          refine (handedOn_readHdrs W cfg).trans ?_
          change handedOn (w.finished a).log ++ _ = _
          rw [hlog]
          rfl
        · rw [if_neg hg, if_neg fun h ↦ hg h.2.2]
          change handedOn (w.finished a).log = _
          rw [hlog]
          exact (List.append_nil _).symm

/-! ### Works that have not been asked -/

/-- The headers do not ask for the connection to be closed. -/
def Quiet (hdrs : Hdrs) : Prop := Client.asksClose (hdrs.hdr .connection) = false

/-- The work has not been asked to close its connection. -/
structure Lasting (w : ServerWork ω Ref) : Prop where
  deleteme : w.deleteme = false
  quiet : w.m = .write → Quiet w.inhdrs
  awake : w.m = .read → w.scene.nosch = false

private theorem lasting_of_write (hm : w.m = .write) (hdel : w.deleteme = false)
    (hq : Quiet w.inhdrs) :
    w.Lasting :=
  ⟨hdel, fun _ ↦ hq, fun h ↦ absurd (hm.symm.trans h) (by decide)⟩

private theorem lasting_dropdown (hdel : w.deleteme = false) (hq : Quiet w.inhdrs) :
    (w.dropdown W cfg a).1.Lasting := by
  obtain ⟨scene, hdrs, body, heq, hclient⟩ := dropdown_eq W cfg w a
  obtain ⟨hdel', hline⟩ := Client.browseReq_unasked (w := w.scene.client) cfg.toConfig hq
  rw [← hclient] at hdel' hline
  rw [heq]
  refine lasting_of_write rfl (hdel'.trans hdel) ?_
  change Client.asksClose (scene.client.line .connection) = false
  rw [hline]
  exact hq

private theorem lasting_of_read (hm : w.m = .read) (hdel : w.deleteme = false)
    (hsch : w.scene.nosch = false) : w.Lasting :=
  ⟨hdel, fun h ↦ absurd (hm.symm.trans h) (by decide), fun _ ↦ hsch⟩

private theorem lasting_readBody (hm : w.m = .read) (hdel : w.deleteme = false)
    (hsch : w.scene.nosch = false)
    (hq : (rduntilBody w.inbody w.inbodySz a.bodyChunks).2 = 0 → Quiet w.inhdrs) :
    (w.readBody W cfg a).1.Lasting := by
  unfold readBody
  dsimp only
  split
  · next hzero => exact lasting_dropdown W cfg hdel (hq hzero)
  · split
    · exact lasting_of_read hm hdel hsch
    · exact lasting_of_read hm hdel hsch

private theorem lasting_readInbuf (hm : w.m = .read) (hdel : w.deleteme = false)
    (hsch : w.scene.nosch = false)
    (hq : bodyComplete cfg w.inbuf w.inhdrs w.inbody w.inbodySz a = true → Quiet w.inhdrs) :
    (w.readInbuf W cfg a).1.Lasting := by
  unfold bodyComplete at hq
  unfold readInbuf
  split
  · exact lasting_of_read hm hdel hsch
  · next hn =>
    rw [hn] at hq
    exact lasting_dropdown W cfg hdel (hq rfl)
  · next n hn =>
    rw [hn] at hq
    split
    · exact lasting_of_read hm hdel hsch
    · next hmax =>
      simp only [hmax, Bool.not_false, Bool.true_and, decide_eq_true_eq] at hq
      dsimp only
      split
      · next hzero =>
        refine lasting_dropdown W cfg hdel (hq ?_)
        rw [hzero, rduntilBody_zero]
      · exact lasting_readBody W cfg hm hdel hsch hq

private theorem lasting_readHdrs (hm : w.m = .read) (hdel : w.deleteme = false)
    (hsch : w.scene.nosch = false)
    (hq : ∀ h, completed cfg w.inbuf w.inhdrs w.inbody w.inbodySz a = some h → Quiet h) :
    (w.readHdrs W cfg a).1.Lasting := by
  unfold readHdrs
  dsimp only
  split
  · exact lasting_of_read hm hdel hsch
  · next hstop =>
    unfold completed at hq
    rw [if_neg hstop] at hq
    dsimp only [inhdrs] at hq ⊢
    cases hp : parse cfg.maxLineLen (rduntil w.inbuf a.chunks) w.scene.client.reqHdrs with
    | error e => exact lasting_of_read hm hdel hsch
    | ok o =>
      obtain ⟨done, inbuf, hdrs⟩ := o
      rw [hp] at hq
      rw [afterParse]
      cases done with
      | false => exact lasting_of_read hm hdel hsch
      | true =>
        exact lasting_readInbuf W cfg hm hdel hsch fun hbody ↦ hq hdrs (if_pos hbody)

/-- Unless the request that is answered asks for it, the work goes on unasked. -/
theorem lasting_operator (hw : w.Lasting) (hq : ∀ h, w.answered cfg a = some h → Quiet h) :
    (w.operator W cfg a).1.Lasting := by
  cases hm : w.m with
  | read =>
    unfold operator answered at *
    rw [if_pos hm] at hq
    rw [hm]
    dsimp only
    split
    · next hd =>
      rw [if_pos hd] at hq
      exact lasting_readBody W cfg hm hw.deleteme (hw.awake hm) fun hzero ↦
        hq w.inhdrs (if_pos hzero)
    · next hd =>
      rw [if_neg hd] at hq
      exact lasting_readHdrs W cfg hm hw.deleteme (hw.awake hm) hq
  | write =>
    have hop : w.operator W cfg a = w.writeOut W cfg a := by
      unfold operator
      rw [hm]
    rw [hop]
    cases hf : w.finishes a with
    | false =>
      obtain ⟨out, done, log, e, -, heq⟩ := writeOut_of_not_finishes W cfg hm hf
      rw [heq]
      exact ⟨hw.deleteme, hw.quiet, hw.awake⟩
    | true =>
      have hsch : w.scene.nosch = false := by
        simp only [finishes, Bool.decide_and, Bool.and_eq_true, decide_eq_true_eq,
          Bool.not_eq_true'] at hf
        exact hf.2.2.2
      rw [writeOut_of_finishes W cfg hf, hw.deleteme, if_pos (by rfl), keepAlive_eq]
      have hsame : (w.finished a).inbuf = w.inbuf := rfl
      rw [hsame]
      split
      · next hg =>
        have hans : w.answered cfg a = completed cfg w.inbuf .empty [] 0 a := by
          rw [answered, if_neg (by rw [hm]; decide), if_pos ⟨hf, hw.deleteme, hg⟩]
        rw [hans] at hq
        exact lasting_readHdrs W cfg (w := (w.finished a).refreshed W a) rfl hw.deleteme
          hsch hq
      · exact lasting_of_read rfl hw.deleteme hsch

end ServerWork

variable {ω Ref : Type} (W : World ω Ref) (cfg : Settings)

/-- In a turn, no request is answered that asks for the connection to be closed. -/
def Act.Unasked (cfg : Settings) : Conn ω Ref → Act ω → Prop
  | .live w _, .turn a => ∀ h, w.answered cfg a = some h → ServerWork.Quiet h
  | _, _ => True

instance Act.decidableUnasked (cfg : Settings) :
    ∀ (s : Conn ω Ref) (act : Act ω), Decidable (act.Unasked cfg s)
  | .live w _, .turn a =>
    inferInstanceAs (Decidable (∀ h ∈ w.answered cfg a, Client.asksClose (h.hdr .connection) = false))
  | .live _ _, .wake _ _ _ => isTrue trivial
  | .deleted _, _ => isTrue trivial
  | .crashed _ _, _ => isTrue trivial

/-- The work has not been asked, if it is there. -/
def Conn.Lasting : Conn ω Ref → Prop
  | .live w _ => w.Lasting
  | _ => True

private theorem lasting_settle {w : ServerWork ω Ref} (hw : w.Lasting) (e : Ending) :
    (e.settle w).Lasting := by
  cases e with
  | oops e => trivial
  | socketErr => trivial
  | rescheduled =>
    rw [Ending.settle, hw.deleteme]
    exact hw
  | silent =>
    rw [Ending.settle, hw.deleteme]
    exact hw

/-- For every world, every settings and every run of a connection: as long as no request that
is answered asks for the connection to be closed, it is closed in time. -/
theorem closesInTime_of_unasked (world : ω) (as : List (Act ω))
    (h : (assemblyLine W cfg (.new world)).AllSteps (Act.Unasked cfg)
      (.live (.new world) true) as) :
    (assemblyLine W cfg (.new world)).AllSteps (Act.ClosesInTime W cfg)
      (.live (.new world) true) as := by
  have hnew : Conn.Lasting (.live (.new world : ServerWork ω Ref) true) :=
    ServerWork.lasting_of_read rfl rfl rfl
  refine Machine.AllSteps.imp _ ?_ ?_ hnew h
  · intro s act s' hs hstep hask
    rcases assemblyLine_step W cfg hstep with ⟨w, a, rfl, rfl, -⟩ | ⟨w, b, hd, bd, g, rfl, rfl, -, -⟩
    · have hdel := (ServerWork.lasting_operator W cfg hs hask).deleteme
      constructor
      · intro _ hdel'
        rw [hdel] at hdel'
        cases hdel'
      · intro hf hclose
        have hm : w.m = .write := by
          simp only [ServerWork.finishes, Bool.decide_and, Bool.and_eq_true,
            decide_eq_true_eq] at hf
          exact hf.1
        rw [hs.quiet hm] at hclose
        cases hclose
    · trivial
  · intro s act s' hs hstep hask
    rcases assemblyLine_step W cfg hstep with
      ⟨w, a, rfl, rfl, rfl⟩ | ⟨w, b, hd, bd, g, rfl, rfl, hnosch, rfl⟩
    · exact lasting_settle (ServerWork.lasting_operator W cfg hs hask) _
    · have hm : w.m = .write := by
        cases hm : w.m with
        | read =>
          rw [hs.awake hm] at hnosch
          cases hnosch
        | write => rfl
      exact ServerWork.lasting_of_write rfl hs.deleteme (hs.quiet hm)

/-- A turn in which some text arrives. -/
def Chances.arrival (text : String) : Chances Unit :=
  { sizes := [], writeStop := .clear, chunks := [text.toList], readStop := .blocked
    bodyChunks := [], bodyStop := .clear, resetWorld := (), world := () }

/-- A request that does not ask for anything, and its response; and then a request that does, the
body of which does not come. -/
theorem closesInTime_of_unasked_get :
    (assemblyLine (World.inert .blank) .lax (.new ())).AllSteps
      (Act.ClosesInTime (World.inert .blank) .lax) (.live (.new ()) true)
      [.turn (.arrival "GET /a HTTP/1.1\r\n\r\n"),
       .turn { Chances.arrival "" with sizes := [7], writeStop := .blocked },
       .turn { Chances.arrival "" with sizes := [4096] },
       .turn { Chances.arrival "" with sizes := [4096] },
       .turn { Chances.arrival
          "PUT /a HTTP/1.1\r\nConnection: close\r\nContent-Length: 3\r\n\r\n" with
         bodyStop := .blocked }] := by
  apply closesInTime_of_unasked
  decide +kernel

/-- A request that asks for the connection to be closed: it is closed before the response has
been written. -/
theorem not_closesInTime_of_close : ¬ ∀ (ω Ref : Type) (W : World ω Ref) (cfg : Settings)
    (world : ω) (as : List (Act ω)),
    (assemblyLine W cfg (.new world)).AllSteps (Act.ClosesInTime W cfg)
      (.live (.new world) true) as := by
  intro h
  have hrun := h Unit Unit (World.inert .blank) .lax ()
    [.turn (.arrival "GET /a HTTP/1.1\r\nConnection: close\r\n\r\n")]
  have hstep := (hrun _ rfl).1.1 (by decide +kernel) (by decide +kernel)
  exact absurd hstep.1 (by decide +kernel)

end Filth
