import Filth.Server.Reading

/-!
# Writing a response

`Work::wruntil`, `src/Work.cpp:65–79`, one `write` after the other, and the quanta of
`HTTP_Server_Work::operator()` that it is called in, `src/HTTP_Server_Work.cpp:97–154`. The pointer
and the size that it is called with are those of the headers first and of the body later, and they
are changed only at the beginning of a quantum. So there is always a quantum for the body, even if
there is nothing in it.
-/

namespace Filth

open Base

/-- What a call of `write` gives: some bytes have been taken, an interruption, no room at the
moment, or another error. -/
inductive WriteResult where
  | took (n : Nat)
  | intr
  | again
  | failed (n : Nat)
  deriving DecidableEq, Repr

/-- A call of `wruntil` under way: what is still to be written, all that has been put on the
socket, `errno`, and whether the loop has been left. -/
structure Sending where
  out : Str
  sent : Str
  errno : ReadErrno
  stopped : Bool
  deriving DecidableEq, Repr

/-- What is returned, if the loop is over; `src/Work.cpp:78`. -/
def Sending.value (c : Sending) : Option ReadErrno :=
  if c.out = [] then some .zero else if c.stopped then some c.errno else none

/-- The loop goes on after one `write`, which takes no more than it is given; `src/Work.cpp:65–79`.
-/
def Sending.step (c : Sending) (r : WriteResult) : Option Sending :=
  if c.out = [] ∨ c.stopped = true then none
  else match r with
    | .took n =>
      if 0 < n ∧ n ≤ c.out.length then
        some { c with out := c.out.drop n, sent := c.sent ++ c.out.take n }
      else none
    | .intr => some { c with errno := .eintr }
    | .again => some { c with errno := .again, stopped := true }
    | .failed n => some { c with errno := .other n, stopped := true }

/-- Where the writing of a response stands: between two quanta, in a call of `wruntil`, or at its
end, where the work has been reset, is dormant, or waits to be deleted, since its owner wants that
or since there was an error. -/
inductive SendStage where
  | waiting
  | calling (c : Sending)
  | reset
  | dormant
  | spent
  | failed
  deriving DecidableEq, Repr

/-- The members of a work that writing a response changes. `sent`, all that has been put on the
socket before the quantum, and `bodyTurns`, the number of quanta that began with the headers done,
are no members of the source. -/
structure Sender where
  outhdrsDone : Bool
  out : Str
  stage : SendStage
  sent : Str
  bodyTurns : Nat
  deriving DecidableEq, Repr

/-- All that has been put on the socket. -/
def Sender.onSocket (s : Sender) : Str :=
  match s.stage with
  | .calling c => c.sent
  | _ => s.sent

/-- A worker executes the work, with whatever `errno` holds; a `write` returns; or `wruntil` does. -/
inductive SendAct where
  | turn (errno : ReadErrno)
  | write (r : WriteResult)
  | ret
  deriving DecidableEq, Repr

/-- What a work does with what `wruntil` returns and leaves, `src/HTTP_Server_Work.cpp:100–154`. -/
def Sender.afterWruntil (outbody : Str) (nosch deleteme : Bool) (s : Sender) (v : ReadErrno) : Sender :=
  if v = .again then { s with stage := .waiting }
  else if v = .zero ∧ s.out = [] then
    if !s.outhdrsDone then { s with outhdrsDone := true, out := outbody, stage := .waiting }
    else if nosch then { s with stage := .dormant }
    else if !deleteme then { s with stage := .reset }
    else { s with stage := .spent }
  else { s with stage := .failed }

/-- Writing the headers `h` and the body `b`. -/
def sendPhase (h b : Str) (nosch deleteme : Bool) : Machine Sender SendAct where
  init := { outhdrsDone := false, out := h, stage := .waiting, sent := [], bodyTurns := 0 }
  step s act :=
    match s.stage, act with
    | .waiting, .turn errno =>
      some { s with
        stage := .calling { out := s.out, sent := s.sent, errno, stopped := false }
        bodyTurns := if s.outhdrsDone then s.bodyTurns + 1 else s.bodyTurns }
    | .calling c, .write r => (c.step r).map fun c ↦ { s with stage := .calling c }
    | .calling c, .ret =>
      c.value.map fun v ↦ { s with out := c.out, sent := c.sent }.afterWruntil b nosch deleteme v
    | _, _ => none

/-! ### A call of `wruntil` -/

/-- The bytes that a sequence of results takes. -/
def tooks : List WriteResult → List Nat
  | [] => []
  | .took n :: rs => n :: tooks rs
  | _ :: rs => tooks rs

namespace Sending

variable {c c' : Sending} {r : WriteResult}

/-- Nothing is lost, and a loop that has been left has left an error behind. -/
structure Keeps (total : Str) (c : Sending) : Prop where
  total : c.sent ++ c.out = total
  errno (h : c.stopped = true) : c.errno ≠ .zero

theorem Keeps.step {total : Str} (hc : c.Keeps total) (h : c.step r = some c') :
    c'.Keeps total := by
  unfold Sending.step at h
  split at h
  · cases h
  · cases r with
    | took n =>
      dsimp only at h
      split at h
      · cases h
        refine ⟨?_, hc.errno⟩
        rw [← hc.total, List.append_assoc, List.take_append_drop]
      · cases h
    | intr =>
      cases h
      exact ⟨hc.total, fun _ ↦ nofun⟩
    | again =>
      cases h
      exact ⟨hc.total, fun _ ↦ nofun⟩
    | failed n =>
      cases h
      exact ⟨hc.total, fun _ ↦ nofun⟩

/-- Zero is returned just when nothing remains. -/
theorem Keeps.value_iff {total : Str} (hc : c.Keeps total) {v : ReadErrno}
    (hv : c.value = some v) : v = .zero ↔ c.out = [] := by
  unfold value at hv
  split at hv
  · next hout =>
    cases hv
    exact iff_of_true rfl hout
  · next hout =>
    split at hv
    · next hstopped =>
      cases hv
      exact iff_of_false (hc.errno hstopped) hout
    · cases hv

/-- The loop with interruptions and errors left out is `wruntil`. -/
private theorem wruntil_step (h : c.step r = some c') (ns : List Nat) :
    (wruntil c.out (tooks [r] ++ ns)).2 = (wruntil c'.out ns).2 ∧
      c.sent ++ (wruntil c.out (tooks [r] ++ ns)).1 = c'.sent ++ (wruntil c'.out ns).1 := by
  unfold Sending.step at h
  split at h
  · cases h
  · next hgo =>
    rw [not_or] at hgo
    cases r with
    | took n =>
      dsimp only at h
      split at h
      · cases h
        simp only [tooks, List.singleton_append, wruntil, if_neg hgo.1, List.append_assoc,
          and_self]
      · cases h
    | _ =>
      cases h
      exact ⟨rfl, rfl⟩

/-- A `write` that ends the loop leaves its reason. -/
private theorem errno_step (h : c.step r = some c') (hgo : c.stopped = false)
    (hstop : c'.stopped = true) :
    c'.errno = .again ↔ r = .again := by
  unfold Sending.step at h
  split at h
  · cases h
  · cases r with
    | took n =>
      dsimp only at h
      split at h
      · cases h
        rw [hgo] at hstop
        cases hstop
      · cases h
    | intr =>
      cases h
      rw [hgo] at hstop
      cases hstop
    | again =>
      cases h
      exact iff_of_true rfl rfl
    | failed n =>
      cases h
      exact iff_of_false nofun nofun

end Sending

/-! ### A response -/

/-- Where the writing of a response ends. -/
def SendStage.ended (nosch deleteme : Bool) : SendStage :=
  if nosch then .dormant else if !deleteme then .reset else .spent

private theorem SendStage.ended_cases (nosch deleteme : Bool) :
    ended nosch deleteme = .dormant ∨ ended nosch deleteme = .reset ∨
      ended nosch deleteme = .spent := by
  cases nosch <;> cases deleteme <;> simp [ended]

/-- What has been put on the socket is at all times a prefix of the headers and the body; `wruntil`
returns zero just when nothing remains; and between quanta the response is over just when
everything has been written and there has been a quantum for the body, which is so as soon as
everything has been written unless the body is empty. -/
structure SendsExactly (h b : Str) (nosch deleteme : Bool) (s : Sender) : Prop where
  inOrder : s.onSocket <+: h ++ b
  value (c : Sending) (hc : s.stage = .calling c) (v : ReadErrno) (hv : c.value = some v) :
    v = .zero ↔ c.out = []
  ended (hret : ∀ c, s.stage ≠ .calling c) :
    s.stage = .ended nosch deleteme ↔ s.onSocket = h ++ b ∧ 0 < s.bodyTurns
  body (hb : b ≠ []) (hall : s.onSocket = h ++ b) : 0 < s.bodyTurns

section Sound

variable {h b : Str} {nosch deleteme : Bool} {s s' : Sender}

/-- What is to be written altogether in a phase. -/
def Sender.total (h b : Str) (s : Sender) : Str := if s.outhdrsDone then h ++ b else h

/-- What there is between what has been written and what is left, at every stage. -/
def Sender.Sound (h b : Str) (nosch deleteme : Bool) (s : Sender) : Prop :=
  match s.stage with
  | .waiting => s.sent ++ s.out = s.total h b ∧
      (s.outhdrsDone = false → s.bodyTurns = 0) ∧
      (s.outhdrsDone = true → if s.bodyTurns = 0 then s.out = b else s.out ≠ [])
  | .calling c => c.Keeps (s.total h b) ∧ (0 < s.bodyTurns ↔ s.outhdrsDone = true)
  | .failed => s.sent ++ s.out = s.total h b ∧ s.out ≠ []
  | stage => stage = .ended nosch deleteme ∧ s.sent = h ++ b ∧ 0 < s.bodyTurns

theorem sound_init : (sendPhase h b nosch deleteme).init.Sound h b nosch deleteme :=
  ⟨rfl, fun _ ↦ rfl, nofun⟩

/-- What a work does when `wruntil` has returned. -/
private theorem sound_afterWruntil {v : ReadErrno} (htotal : s.sent ++ s.out = s.total h b)
    (hturns : 0 < s.bodyTurns ↔ s.outhdrsDone = true) (hzero : v = .zero ↔ s.out = []) :
    (s.afterWruntil b nosch deleteme v).Sound h b nosch deleteme := by
  have hno : s.outhdrsDone = false → s.bodyTurns = 0 := by
    intro hdone
    rw [hdone] at hturns
    simpa using hturns
  unfold Sender.afterWruntil
  split
  · next hagain =>
    -- the socket is full, so there is something left
    have hout : s.out ≠ [] := by
      intro hnil
      rw [hzero.mpr hnil] at hagain
      cases hagain
    refine ⟨htotal, hno, fun hdone ↦ ?_⟩
    rw [if_neg (Nat.pos_iff_ne_zero.mp (hturns.mpr hdone))]
    exact hout
  · split
    · next hall =>
      rw [hall.2, List.append_nil] at htotal
      split
      · next hdone =>
        -- the headers are done, and the body is what is to be written next
        rw [Bool.not_eq_true'] at hdone
        rw [Sender.total, hdone] at htotal
        refine ⟨congrArg (· ++ b) htotal, nofun, fun _ ↦ ?_⟩
        rw [if_pos (hno hdone)]
      · next hdone =>
        rw [Bool.not_eq_true', Bool.not_eq_false] at hdone
        rw [Sender.total, if_pos hdone] at htotal
        have hpos := hturns.mpr hdone
        split
        · next hnosch => exact ⟨(if_pos hnosch).symm, htotal, hpos⟩
        · next hnosch =>
          split
          · next hdel => exact ⟨((if_neg hnosch).trans (if_pos hdel)).symm, htotal, hpos⟩
          · next hdel => exact ⟨((if_neg hnosch).trans (if_neg hdel)).symm, htotal, hpos⟩
    · next hleft => exact ⟨htotal, fun hnil ↦ hleft ⟨hzero.mpr hnil, hnil⟩⟩

theorem Sender.Sound.step (hs : s.Sound h b nosch deleteme) {act : SendAct}
    (hstep : (sendPhase h b nosch deleteme).step s act = some s') :
    s'.Sound h b nosch deleteme := by
  obtain ⟨outhdrsDone, out, stage, sent, bodyTurns⟩ := s
  unfold sendPhase at hstep
  dsimp only at hstep
  split at hstep
  · next errno =>
    cases hstep
    obtain ⟨htotal, hno, -⟩ := hs
    refine ⟨⟨htotal, nofun⟩, ?_⟩
    cases outhdrsDone with
    | false => simpa using hno rfl
    | true => simp
  · next c r =>
    obtain ⟨c', hc', heq⟩ := Option.map_eq_some_iff.mp hstep
    cases heq
    exact ⟨hs.1.step hc', hs.2⟩
  · next c =>
    obtain ⟨v, hv, heq⟩ := Option.map_eq_some_iff.mp hstep
    cases heq
    exact sound_afterWruntil hs.1.total hs.2 (hs.1.value_iff hv)
  · cases hstep

/-- What has been written is a prefix, if it and something else make up a phase. -/
theorem Sender.prefix_of_total {sent out : Str} (htotal : sent ++ out = s.total h b) :
    sent <+: h ++ b := by
  have hphase : s.total h b <+: h ++ b := by
    unfold total
    split
    · exact List.prefix_refl _
    · exact List.prefix_append h b
  exact ((List.prefix_append sent out).trans (htotal ▸ List.prefix_refl _)).trans hphase

/-- Everything has been written only if nothing is left and nothing follows. -/
theorem Sender.nothing_left {out : Str} (htotal : h ++ b ++ out = s.total h b) :
    out = [] ∧ (s.outhdrsDone = false → b = []) := by
  unfold total at htotal
  have hlen := congrArg List.length htotal
  cases hdone : s.outhdrsDone with
  | true =>
    simp only [hdone, if_true, List.length_append] at hlen
    exact ⟨List.eq_nil_of_length_eq_zero (by omega), nofun⟩
  | false =>
    simp only [hdone, Bool.false_eq_true, if_false, List.length_append] at hlen
    exact ⟨List.eq_nil_of_length_eq_zero (by omega),
      fun _ ↦ List.eq_nil_of_length_eq_zero (by omega)⟩

/-- Between quanta there is no call under way. -/
private theorem Sender.onSocket_eq (hret : ∀ c, s.stage ≠ .calling c) : s.onSocket = s.sent := by
  unfold onSocket
  split
  · next c hc => exact absurd hc (hret c)
  · rfl

/-- At its end a response has been written exactly. -/
theorem sendsExactly_of_ended (hstage : s.stage = .ended nosch deleteme) (hsent : s.sent = h ++ b)
    (hpos : 0 < s.bodyTurns) : SendsExactly h b nosch deleteme s := by
  have hret (c : Sending) : s.stage ≠ .calling c := by
    rw [hstage]
    rcases SendStage.ended_cases nosch deleteme with h | h | h <;> rw [h] <;> nofun
  have hall : s.onSocket = h ++ b := (Sender.onSocket_eq hret).trans hsent
  exact ⟨hall ▸ List.prefix_refl _, fun c hc ↦ absurd hc (hret c),
    fun _ ↦ iff_of_true hstage ⟨hall, hpos⟩, fun _ _ ↦ hpos⟩

theorem Sender.Sound.exact (hs : s.Sound h b nosch deleteme) :
    SendsExactly h b nosch deleteme s := by
  have hended (stage : SendStage) (hstage : stage = .waiting ∨ stage = .failed) :
      stage ≠ .ended nosch deleteme := by
    rcases hstage with rfl | rfl <;>
      rcases SendStage.ended_cases nosch deleteme with h | h | h <;> rw [h] <;> nofun
  obtain ⟨outhdrsDone, out, stage, sent, bodyTurns⟩ := s
  cases stage with
  | waiting =>
    obtain ⟨htotal, hno, hbody⟩ := hs
    refine ⟨Sender.prefix_of_total htotal, nofun, fun _ ↦ ?_, fun hb hall ↦ ?_⟩
    · refine iff_of_false (hended _ (.inl rfl)) fun ⟨hall, hpos⟩ ↦ ?_
      have hsent : sent = h ++ b := hall
      subst hsent
      -- a quantum for the body that has ended has left something
      have hdone : outhdrsDone = true := by
        rw [← Bool.not_eq_false]
        exact fun hdone ↦ absurd (hno hdone) (Nat.pos_iff_ne_zero.mp hpos)
      have hleft := hbody hdone
      rw [if_neg (Nat.pos_iff_ne_zero.mp hpos)] at hleft
      exact hleft (Sender.nothing_left htotal).1
    · have hsent : sent = h ++ b := hall
      subst hsent
      obtain ⟨hout, hnobody⟩ := Sender.nothing_left htotal
      refine Nat.pos_of_ne_zero fun hzero ↦ hb ?_
      cases outhdrsDone with
      | false => exact hnobody rfl
      | true => rw [← hout, ← (if_pos hzero).mp (hbody rfl)]
  | calling c =>
    obtain ⟨hc, hturns⟩ := hs
    refine ⟨Sender.prefix_of_total hc.total, fun c' hc' v hv ↦ ?_, fun hret ↦ absurd rfl (hret c),
      fun hb hall ↦ hturns.mpr ?_⟩
    · cases hc'
      exact hc.value_iff hv
    · have htotal := hc.total
      rw [show c.sent = h ++ b from hall] at htotal
      rw [← Bool.not_eq_false]
      exact fun hdone ↦ hb ((Sender.nothing_left htotal).2 hdone)
  | failed =>
    obtain ⟨htotal, hleft⟩ := hs
    have hnot : sent ≠ h ++ b := by
      rintro rfl
      exact hleft (Sender.nothing_left htotal).1
    exact ⟨Sender.prefix_of_total htotal, nofun,
      fun _ ↦ iff_of_false (hended _ (.inr rfl)) fun hall ↦ hnot hall.1,
      fun _ hall ↦ absurd hall hnot⟩
  | reset => exact sendsExactly_of_ended hs.1 hs.2.1 hs.2.2
  | dormant => exact sendsExactly_of_ended hs.1 hs.2.1 hs.2.2
  | spent => exact sendsExactly_of_ended hs.1 hs.2.1 hs.2.2

end Sound

/-! ### The quanta of the assembly line -/

section Quanta

variable {h b : Str} {nosch deleteme : Bool} {s s' : Sender}

/-- What a number of `write`s makes of a call, and why the call is over when it has been left. -/
private theorem run_writes {c : Sending} (hstage : s.stage = .calling c) (hgo : c.stopped = false)
    {rs : List WriteResult} (hrun : (sendPhase h b nosch deleteme).run s (rs.map .write) = some s') :
    ∃ c', s' = { s with stage := .calling c' } ∧ c'.out = (wruntil c.out (tooks rs)).2 ∧
      c'.sent = c.sent ++ (wruntil c.out (tooks rs)).1 ∧
      (∀ total, c.Keeps total → c'.Keeps total) ∧
      (c'.stopped = true → (c'.errno = .again ↔ rs.getLast? = some .again)) := by
  induction rs generalizing s c with
  | nil =>
    cases hrun
    refine ⟨c, by rw [← hstage], rfl, (List.append_nil _).symm, fun _ hc ↦ hc, fun hstop ↦ ?_⟩
    rw [hgo] at hstop
    cases hstop
  | cons r rs ih =>
    rw [List.map_cons, Machine.run_cons] at hrun
    obtain ⟨s₁, hstep, hrest⟩ := Option.bind_eq_some_iff.mp hrun
    obtain ⟨outhdrsDone, out, stage, sent, bodyTurns⟩ := s
    cases hstage
    obtain ⟨c₁, hc₁, heq⟩ := Option.map_eq_some_iff.mp hstep
    cases heq
    obtain ⟨hleft, hsent⟩ := Sending.wruntil_step hc₁ (tooks rs)
    have htooks : tooks (r :: rs) = tooks [r] ++ tooks rs := by cases r <;> rfl
    rw [htooks]
    cases rs with
    | nil =>
      cases hrest
      refine ⟨c₁, rfl, hleft.symm, (List.append_nil _).symm.trans hsent.symm,
        fun _ hc ↦ hc.step hc₁, fun hstop ↦ ?_⟩
      rw [List.getLast?_singleton, Option.some.injEq]
      exact Sending.errno_step hc₁ hgo hstop
    | cons r' rs =>
      have hgo₁ : c₁.stopped = false := by
        -- there is another `write`, so the loop has not been left
        rw [← Bool.not_eq_true]
        intro hstop
        rw [List.map_cons, Machine.run_cons] at hrest
        obtain ⟨s₂, hstep₂, -⟩ := Option.bind_eq_some_iff.mp hrest
        obtain ⟨c₂, hc₂, -⟩ := Option.map_eq_some_iff.mp hstep₂
        unfold Sending.step at hc₂
        rw [if_pos (.inr hstop)] at hc₂
        cases hc₂
      obtain ⟨c', rfl, hout', hsent', hkeeps, hwhy⟩ := ih rfl hgo₁ hrest
      refine ⟨c', rfl, hout'.trans hleft.symm, hsent'.trans hsent.symm,
        fun total hc ↦ hkeeps total (hc.step hc₁), fun hstop ↦ ?_⟩
      rw [hwhy hstop, List.getLast?_cons_cons]

variable {ω Ref : Type} (W : World ω Ref) (cfg : Settings) {w : ServerWork ω Ref} {a : Chances ω}

private theorem Sender.sent_afterWruntil (s : Sender) (outbody : Str) (nosch deleteme : Bool)
    (v : ReadErrno) : (s.afterWruntil outbody nosch deleteme v).sent = s.sent := by
  unfold afterWruntil
  repeat' split
  all_goals rfl

/-- What the assembly line does where the writing of a response has got to. -/
def Reaches (w : ServerWork ω Ref) (a : Chances ω) (s : Sender) : Prop :=
  match s.stage with
  | .waiting => w.writeOut W cfg a = ({ w with
      out := s.out, outhdrsDone := s.outhdrsDone
      log := w.log ++ [.write (wruntil w.out a.sizes).1] }, .rescheduled)
  | .calling _ => False
  | .reset => w.writeOut W cfg a = (w.finished a).keepAlive W cfg a
  | .dormant => (w.writeOut W cfg a).2 = .silent
  | .spent => w.writeOut W cfg a = (w.finished a, .silent)
  | .failed => (w.writeOut W cfg a).2 = .socketErr

/-- The end of a quantum, after `wruntil` has returned. -/
private theorem reaches_afterWruntil {v : ReadErrno} (hm : w.m = .write)
    (hdone : s.outhdrsDone = w.outhdrsDone) (hout : s.out = (wruntil w.out a.sizes).2)
    (hzero : v = .zero ↔ s.out = [])
    (hagain : s.out ≠ [] → (v = .again ↔ a.writeStop = .blocked)) :
    Reaches W cfg w a (s.afterWruntil w.outbody w.scene.nosch w.deleteme v) := by
  by_cases hnil : s.out = []
  · -- all of the buffer has been written
    obtain rfl := hzero.mpr hnil
    have hall : (wruntil w.out a.sizes).2 = [] := hout.symm.trans hnil
    unfold Sender.afterWruntil
    rw [if_neg nofun, if_pos ⟨rfl, hnil⟩, hdone]
    cases hhdrs : w.outhdrsDone with
    | false => simp [Reaches, ServerWork.writeOut, hall, hhdrs]
    | true =>
      cases hnosch : w.scene.nosch with
      | true => simp [Reaches, ServerWork.writeOut, hall, hhdrs, hnosch]
      | false =>
        have hf : w.finishes a = true := by simp [ServerWork.finishes, hm, hall, hhdrs, hnosch]
        have heq := ServerWork.writeOut_of_finishes W cfg hf
        cases hdel : w.deleteme with
        | false => simpa [Reaches, hdel] using heq
        | true => simpa [Reaches, hdel] using heq
  · have hleft : (wruntil w.out a.sizes).2 ≠ [] := hout ▸ hnil
    unfold Sender.afterWruntil
    split
    · next hv =>
      simp [Reaches, ServerWork.writeOut, (hagain hnil).mp hv, hout, hdone, hleft]
    · next hv =>
      rw [if_neg fun h ↦ hnil h.2]
      simp [Reaches, ServerWork.writeOut, mt (hagain hnil).mpr hv, hleft]

/-- A quantum, `write` by `write`, is the quantum of the assembly line in which `write` takes as
much, and stops for the same reason. -/
theorem reaches_of_quantum (hm : w.m = .write) (hstage : s.stage = .waiting)
    (hdone : s.outhdrsDone = w.outhdrsDone) (hout : s.out = w.out) {errno : ReadErrno}
    {rs : List WriteResult}
    (hrun : (sendPhase h w.outbody w.scene.nosch w.deleteme).run s
      (.turn errno :: (rs.map .write ++ [.ret])) = some s')
    (hsizes : a.sizes = tooks rs) (hstop : a.writeStop = .blocked ↔ rs.getLast? = some .again) :
    s'.sent = s.sent ++ (wruntil w.out a.sizes).1 ∧ Reaches W cfg w a s' := by
  rw [Machine.run_cons] at hrun
  obtain ⟨s₁, hturn, hrun⟩ := Option.bind_eq_some_iff.mp hrun
  rw [Machine.run_append] at hrun
  obtain ⟨s₂, hwrites, hrun⟩ := Option.bind_eq_some_iff.mp hrun
  obtain ⟨s₃, hret, hrun⟩ := Option.bind_eq_some_iff.mp hrun
  cases hrun
  obtain ⟨outhdrsDone, out, stage, sent, bodyTurns⟩ := s
  cases hstage
  cases hturn
  obtain ⟨c, rfl, hleft, hsent, hkeeps, hwhy⟩ := run_writes rfl rfl hwrites
  obtain ⟨v, hv, rfl⟩ := Option.map_eq_some_iff.mp hret
  dsimp only at hout hleft hsent
  rw [hout, ← hsizes] at hleft hsent
  refine ⟨(Sender.sent_afterWruntil _ _ _ _ _).trans hsent, ?_⟩
  refine reaches_afterWruntil W cfg hm hdone hleft ?_ fun hnil ↦ ?_
  · exact (hkeeps _ ⟨rfl, nofun⟩).value_iff hv
  · unfold Sending.value at hv
    rw [if_neg hnil] at hv
    split at hv
    · next hstopped =>
      cases hv
      exact (hwhy hstopped).trans hstop.symm
    · cases hv

end Quanta

/-- In every run the books on a response are right. -/
theorem Sender.sound_of_run (h b : Str) (nosch deleteme : Bool) (acts : List SendAct) :
    (sendPhase h b nosch deleteme).AllStates (Sender.Sound h b nosch deleteme)
      (sendPhase h b nosch deleteme).init acts :=
  Machine.allStates_of_step _ (fun _ _ _ hs hstep ↦ hs.step hstep) sound_init acts

/-- In every run: what is on the socket is a prefix of the response, `wruntil` returns zero just
when nothing remains, and the response is over at the end of the first quantum for the body that
leaves nothing, never before. -/
theorem sendsExactly (h b : Str) (nosch deleteme : Bool) (acts : List SendAct) :
    (sendPhase h b nosch deleteme).AllStates (SendsExactly h b nosch deleteme)
      (sendPhase h b nosch deleteme).init acts :=
  (Sender.sound_of_run h b nosch deleteme acts).imp _ fun _ hs ↦ hs.exact

/-- The end of a response without a body does not coincide with its last byte. -/
theorem not_reset_with_last_byte : ¬ ∀ (h b : Str) (acts : List SendAct),
    (sendPhase h b false false).AllStates (fun s ↦ (∀ c, s.stage ≠ .calling c) →
      (s.stage = .reset ↔ s.onSocket = h ++ b)) (sendPhase h b false false).init acts := by
  intro hall
  have hrun : (sendPhase ['h'] [] false false).run (sendPhase ['h'] [] false false).init
      [.turn .zero, .write (.took 1), .ret] =
        some { outhdrsDone := true, out := [], stage := .waiting, sent := ['h'], bodyTurns := 0 } := by
    decide
  have hlast := Machine.AllStates.last _ (hall ['h'] [] _) hrun nofun
  exact absurd (hlast.mpr rfl) nofun

end Filth
