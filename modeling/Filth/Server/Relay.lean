import Filth.Http.Printing
import Filth.Server.Turns

/-!
# Requests that are relayed

`HTTP_Client_Work`, `src/HTTP_Client_Work.cpp:13–104`: a request is written to a domain socket
and the response is read from it. The constructor adds an empty line to headers that end with one
already.
-/

namespace Filth

open Base

/-- `strncpy` into a buffer of `n` bytes, `src/HTTP_Client_Work.cpp:13–38`. -/
def strncpy (s : Str) (n : Nat) : Str :=
  (cstr s).take n ++ List.replicate (n - (cstr s).length) '\x00'

/-- `HTTP_Client_Work`, `src/HTTP_Work.hpp:30–58`. `sent` is no member of the source. -/
structure ClientWork where
  m : Mode
  inbuf : IStream
  inhdrs : Hdrs
  inhdrsDone : Bool
  inbody : Str
  inbodySz : Nat
  outhdrsDone : Bool
  /-- What is left of the buffer that is being written. -/
  out : Str
  outbody : Str
  /-- What has been put on the socket. -/
  sent : Str

/-- How a call of `operator()` ends: it returns with the work rescheduled, it gets as far as
`browse_resp`, or it throws. -/
inductive ClientEnding where
  | rescheduled
  | delivered (resphdrs : Hdrs) (respbody : Str)
  | socketErr
  | oops (e : Status)

namespace ClientWork

variable {ω : Type} (max : Limit)

/-- The constructor, `src/HTTP_Client_Work.cpp:13–38`. Memory for the body may be denied. -/
def new (reqhdrs : Hdrs) (reqBody : Str) (granted : Bool) : ClientWork :=
  { m := .write, inbuf := .new [], inhdrs := .empty, inhdrsDone := false, inbody := []
    inbodySz := 0, outhdrsDone := false
    out := (cstr (reqhdrs.print ++ crlf)).take (cbufsz - 1)
    outbody := if granted then strncpy reqBody reqBody.length else []
    sent := [] }

/-- Write, `src/HTTP_Client_Work.cpp:49–69`. -/
def writeOut (w : ClientWork) (a : Chances ω) : ClientWork × ClientEnding :=
  let (sent, out) := wruntil w.out a.sizes
  let w := { w with out, sent := w.sent ++ sent }
  if out ≠ [] then (w, if a.writeStop = .blocked then .rescheduled else .socketErr)
  else if !w.outhdrsDone then ({ w with outhdrsDone := true, out := w.outbody }, .rescheduled)
  else ({ w with m := .read }, .rescheduled)

/-- The response headers are complete, `src/HTTP_Client_Work.cpp:79–94`. -/
def readInbuf (w : ClientWork) : ClientWork × ClientEnding :=
  match announcedSize (w.inhdrs.hdr .contentLength) w.inbodySz with
  | .error e => (w, .oops e)
  | .ok 0 => ({ w with inbodySz := 0 }, .delivered w.inhdrs w.inbody)
  | .ok (n + 1) =>
    let (got, inbuf) := w.inbuf.read (n + 1)
    let w := { w with
      inbuf, inbodySz := sizeSub (n + 1) got.length, inbody := w.inbody ++ cstr got }
    (w, if w.inbodySz = 0 then .delivered w.inhdrs w.inbody else .rescheduled)

/-- Read more of the response headers, `src/HTTP_Client_Work.cpp:70–95`. -/
def readHdrs (w : ClientWork) (a : Chances ω) : ClientWork × ClientEnding :=
  let w := { w with inbuf := rduntil w.inbuf a.chunks }
  if a.readStop = .failed then (w, .socketErr)
  else match parse max w.inbuf w.inhdrs with
    | .error e => (w, .oops e)
    | .ok (done, inbuf, inhdrs) =>
      let w := { w with inbuf, inhdrsDone := done, inhdrs }
      if done then w.readInbuf else (w, .rescheduled)

/-- Read more of the response body, `src/HTTP_Client_Work.cpp:96–100`. -/
def readBody (w : ClientWork) (a : Chances ω) : ClientWork × ClientEnding :=
  let (inbody, inbodySz) := rduntilBody w.inbody w.inbodySz a.bodyChunks
  let w := { w with inbody, inbodySz }
  if inbodySz = 0 then (w, .delivered w.inhdrs w.inbody)
  else if a.bodyStop = .failed then (w, .socketErr)
  else (w, .rescheduled)

/-- `operator()`, `src/HTTP_Client_Work.cpp:45–104`. -/
def operator (w : ClientWork) (a : Chances ω) : ClientWork × ClientEnding :=
  match w.m with
  | .write => w.writeOut a
  | .read => if w.inhdrsDone then w.readBody a else w.readHdrs max a

end ClientWork

/-- A client work, as long as it is rescheduled. -/
def relay (max : Limit) (w : ClientWork) : Machine ClientWork (Chances Unit) where
  init := w
  step w a := match w.operator max a with
    | (w, .rescheduled) => some w
    | _ => none

/-- Headers that the parser produces from what can arrive in a stream. -/
def Produced (max : Limit) (h : Hdrs) : Prop :=
  ∃ text i, '\x00' ∉ text ∧ parse max (.sound text 0) .empty = .ok (true, i, h)

/-! ### What is written -/

/-- What is still to be written after what has been written, as long as a work writes. -/
structure ClientWork.Sends (total : Str) (w : ClientWork) : Prop where
  writing : w.m = .write → w.sent ++ w.out ++ (if w.outhdrsDone then [] else w.outbody) = total
  reading : w.m = .read → w.sent = total

theorem ClientWork.Sends.operator (max : Limit) {total : Str} {w : ClientWork}
    (hw : w.Sends total) (a : Chances Unit) : (w.operator max a).1.Sends total := by
  have hkept {w' : ClientWork} (hm : w.m = .read) (hm' : w'.m = w.m) (hsent : w'.sent = w.sent) :
      w'.Sends total :=
    ⟨fun h ↦ absurd (hm.symm.trans (hm'.symm.trans h)) (by decide),
      fun _ ↦ hsent.trans (hw.reading hm)⟩
  cases hm : w.m with
  | write =>
    have htotal := hw.writing hm
    have hout := wruntil_append w.out a.sizes
    unfold ClientWork.operator writeOut
    rw [hm]
    dsimp only
    split
    · refine ⟨fun _ ↦ ?_, nofun⟩
      calc w.sent ++ (wruntil w.out a.sizes).1 ++ (wruntil w.out a.sizes).2 ++ _
        _ = w.sent ++ ((wruntil w.out a.sizes).1 ++ (wruntil w.out a.sizes).2) ++ _ := by
          rw [List.append_assoc w.sent]
        _ = total := by rw [hout, htotal]
    · next hleft =>
      have hleft : (wruntil w.out a.sizes).2 = [] := by simpa using hleft
      rw [hleft, List.append_nil] at hout
      split
      · next hdone =>
        refine ⟨fun _ ↦ ?_, nofun⟩
        rw [Bool.not_eq_true'] at hdone
        rw [← htotal, hout, hdone]
        simp
      · next hdone =>
        refine ⟨nofun, fun _ ↦ ?_⟩
        have hdone : w.outhdrsDone = true := by simpa using hdone
        rw [← htotal, hout, hdone]
        simp
  | read =>
    unfold ClientWork.operator
    rw [hm]
    dsimp only
    split
    · unfold readBody
      dsimp only
      split
      · exact hkept hm rfl rfl
      · split <;> exact hkept hm rfl rfl
    · unfold readHdrs
      dsimp only
      split
      · exact hkept hm rfl rfl
      · split
        · exact hkept hm rfl rfl
        · split
          · unfold readInbuf
            split
            · exact hkept hm rfl rfl
            · exact hkept hm rfl rfl
            · exact hkept hm rfl rfl
          · exact hkept hm rfl rfl

/-- When a client work gets to reading, it has written the headers and the body it was made
with. -/
theorem ClientWork.sent_of_run {max : Limit} {w w' : ClientWork} (hm : w.m = .write)
    (hsent : w.sent = []) (hdone : w.outhdrsDone = false) {as : List (Chances Unit)}
    (hrun : (relay max w).run w as = some w') (hm' : w'.m = .read) : w'.sent = w.out ++ w.outbody := by
  have hw : w.Sends (w.out ++ w.outbody) := by
    refine ⟨fun _ ↦ ?_, fun h ↦ absurd (hm.symm.trans h) (by decide)⟩
    rw [hsent, hdone]
    rfl
  have hstep (v : ClientWork) (a : Chances Unit) (v' : ClientWork)
      (hv : v.Sends (w.out ++ w.outbody)) (h : (relay max w).step v a = some v') :
      v'.Sends (w.out ++ w.outbody) := by
    have hop := hv.operator max a
    change (match v.operator max a with | (w, .rescheduled) => some w | _ => none) = _ at h
    split at h
    · next heq =>
      cases h
      rw [heq] at hop
      exact hop
    · cases h
  exact (Machine.AllStates.last _ ((relay max w).allStates_of_step hstep hw as) hrun).reading hm'

/-! ### What has been parsed -/

/-- What the parser produces, line by line. -/
theorem Produced.slotted {max : Limit} {h : Hdrs} (hH : Produced max h) :
    h.Slotted fun l ↦ '\r' ∉ l ∧ '\x00' ∉ l ∧ max.exceeded l.length = false := by
  obtain ⟨text, i, hnul, hparse⟩ := hH
  obtain ⟨hshort, p, -, hscan⟩ := scan_of_accepted hparse
  rw [List.drop_zero] at hshort hscan
  obtain ⟨lines, hlines, htext, rfl⟩ := scan_eq_done hscan
  rw [htext] at hnul hshort
  refine Hdrs.slotted_empty.foldl fun l hl ↦ ⟨(hlines l hl).2, fun hmem ↦ hnul ?_, ?_⟩
  · simp only [block, List.mem_append, List.mem_flatMap]
    exact .inl (.inl ⟨l, hl, .inl hmem⟩)
  · exact exceeded_of_not_overlong hlines hshort l hl

/-! ### What becomes of a request -/

/-- What is added to the headers, as far as the buffer has room for it. -/
def surplus (hdrs : Hdrs) : Str := crlf.take (cbufsz - 1 - hdrs.print.length)

section New

variable {max : Limit} {hdrs : Hdrs} {body : Str} {granted : Bool}

theorem strncpy_eq_self (h : '\x00' ∉ body) : strncpy body body.length = body := by
  simp [strncpy, cstr_eq_self h]

/-- Printed headers have no NUL in them. -/
theorem Produced.nul_not_mem_print (hH : Produced max hdrs) : '\x00' ∉ hdrs.print := by
  simp only [Hdrs.print_eq_block, block, List.mem_append, List.mem_flatMap, not_or, not_exists,
    not_and]
  exact ⟨fun l hl ↦ ⟨(hH.slotted.forall_lines l hl).2.2.1, by decide⟩, by decide⟩

/-- What the buffer for the headers holds. -/
theorem ClientWork.out_new (hH : Produced max hdrs) :
    (new hdrs body granted).out = (hdrs.print ++ crlf).take (cbufsz - 1) := by
  have hnul : '\x00' ∉ hdrs.print ++ crlf := by
    simp only [List.mem_append, not_or]
    exact ⟨hH.nul_not_mem_print, by decide⟩
  rw [new, cstr_eq_self hnul]

theorem out_eq_surplus (hlen : hdrs.print.length ≤ cbufsz - 1) :
    (hdrs.print ++ crlf).take (cbufsz - 1) = hdrs.print ++ surplus hdrs := by
  rw [List.take_append, List.take_of_length_le hlen]
  rfl

/-- There is a run in which everything is written. -/
theorem exists_run_new (max : Limit) (hdrs : Hdrs) (body : Str) (granted : Bool) :
    ∃ as w', (relay max (.new hdrs body granted)).run (.new hdrs body granted) as = some w' ∧
      w'.m = .read := by
  have hall (out : Str) : wruntil out [out.length] = (out, []) := by
    by_cases h : out = [] <;> simp [wruntil, h]
  obtain ⟨w, hw⟩ : ∃ w, w = ClientWork.new hdrs body granted := ⟨_, rfl⟩
  have hm : w.m = .write := by rw [hw]; rfl
  have hdone : w.outhdrsDone = false := by rw [hw]; rfl
  have hheaders (a : Chances Unit) (ha : a.sizes = [w.out.length]) : w.operator max a =
      ({ w with out := w.outbody, outhdrsDone := true, sent := w.sent ++ w.out }, .rescheduled) := by
    simp [ClientWork.operator, ClientWork.writeOut, hm, ha, hall, hdone]
  have hbody (a : Chances Unit) (ha : a.sizes = [w.outbody.length]) :
      ({ w with out := w.outbody, outhdrsDone := true, sent := w.sent ++ w.out } : ClientWork).operator
        max a = ({ w with
          m := .read, out := [], outhdrsDone := true
          sent := w.sent ++ w.out ++ w.outbody }, .rescheduled) := by
    simp [ClientWork.operator, ClientWork.writeOut, hm, ha, hall]
  obtain ⟨a, ha⟩ : ∃ a : Chances Unit, a.sizes = [w.out.length] :=
    ⟨⟨[w.out.length], .clear, [], .clear, [], .clear, (), ()⟩, rfl⟩
  obtain ⟨b, hb⟩ : ∃ b : Chances Unit, b.sizes = [w.outbody.length] :=
    ⟨⟨[w.outbody.length], .clear, [], .clear, [], .clear, (), ()⟩, rfl⟩
  have hrun : (relay max w).run w [a, b] = some { w with
      m := .read, out := [], outhdrsDone := true
      sent := w.sent ++ w.out ++ w.outbody } := by
    simp only [Machine.run, relay, hheaders a ha, hbody b hb, Option.bind_some]
  rw [← hw]
  exact ⟨[a, b], _, hrun, rfl⟩

end New
end Filth
