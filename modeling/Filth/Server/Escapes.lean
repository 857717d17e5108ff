import Filth.Server.Turns

/-!
# Errors that no one catches

The handler in `operator()` surrounds `prepare_response` only. The parser and the comparison
with the largest body are outside of it, and a worker catches nothing but a `SocketErr`
(`src/Worker.cpp:25–35`), so an `HTTP_oops` from there ends the process.
-/

namespace Filth

open Base

/-- Text that can be read after the headers `h`: no line is overlong, and if the headers get
complete, the body they announce is not too large. -/
structure Acceptable (cfg : Settings) (h : Hdrs) (t : Str) : Prop where
  line : ¬ Overlong cfg.maxLineLen t
  body : (scan h t).isDone = true → cfg.maxReqBody.exceeded (scan h t).state.bodySize = false

namespace ServerWork

variable {ω Ref : Type} (W : World ω Ref) (cfg : Settings) {w : ServerWork ω Ref} {a : Chances ω}

/-- Nothing that is thrown while a response is prepared escapes. -/
theorem dropdown_escapes : (w.dropdown W cfg a).2.escapes = false := by
  obtain ⟨scene, hdrs, body, heq, -⟩ := dropdown_eq W cfg w a
  rw [heq]
  rfl

private theorem readBody_escapes : (w.readBody W cfg a).2.escapes = false := by
  unfold readBody
  dsimp only
  split
  · exact dropdown_escapes W cfg
  · split <;> rfl

/-- Complete headers throw if and only if the body is too large. -/
private theorem readInbuf_escapes (hs : w.inhdrs.Stored) (hsz : w.inbodySz = 0) :
    (w.readInbuf W cfg a).2.escapes = cfg.maxReqBody.exceeded w.inhdrs.bodySize := by
  obtain ⟨n, hn⟩ := hs.announcedSize 0
  have hsize : w.inhdrs.bodySize = n := by rw [Hdrs.bodySize, hn]; rfl
  unfold readInbuf
  rw [hsz, hn, hsize]
  cases n with
  | zero => rw [dropdown_escapes, Limit.exceeded_zero]
  | succ n =>
    dsimp only
    by_cases he : cfg.maxReqBody.exceeded (n + 1) = true
    · rw [if_pos he, he]
      rfl
    · rw [if_neg he]
      split
      · rw [dropdown_escapes, Bool.eq_false_of_not_eq_true he]
      · rw [readBody_escapes, Bool.eq_false_of_not_eq_true he]

/-- Reading headers throws if and only if the text is not acceptable. -/
theorem readHdrs_escapes {s : Str} {p : Nat} (hw : w.inbuf = .sound s p) (hp : p ≤ s.length)
    (hs : w.inhdrs.Stored) (hsz : w.inbodySz = 0) : (w.readHdrs W cfg a).2.escapes = false ↔
      (a.readStop ≠ .failed → Acceptable cfg w.inhdrs (s.drop p ++ received a.chunks)) := by
  by_cases hstop : a.readStop = .failed
  · refine iff_of_true ?_ fun h ↦ absurd hstop h
    unfold readHdrs
    dsimp only
    rw [if_pos hstop]
    rfl
  · rw [forall_prop_of_true hstop]
    by_cases ho : Overlong cfg.maxLineLen (s.drop p ++ received a.chunks)
    · rw [readHdrs_of_overlong W cfg hw hp hstop ho]
      exact iff_of_false nofun fun h ↦ h.line ho
    · obtain ⟨q, -, -, heq⟩ := readHdrs_eq W cfg hw hp hstop ho
      rw [heq]
      split
      · next hdone =>
        have hthrow (done : Bool) (i : IStream) : ((w.parsed done i
            (scan w.inhdrs (s.drop p ++ received a.chunks)).state).readInbuf W cfg a).2.escapes =
              cfg.maxReqBody.exceeded (scan w.inhdrs (s.drop p ++ received a.chunks)).state.bodySize :=
          readInbuf_escapes W cfg (hs.scan _) hsz
        rw [hthrow]
        exact ⟨fun h ↦ ⟨ho, fun _ ↦ h⟩, fun h ↦ h.body hdone⟩
      · next hdone => exact iff_of_true rfl ⟨ho, fun h ↦ absurd h hdone⟩

/-- A work that is about to read headers has a stream in a good state, lines stored under their
headers, and no body. -/
def Ready (w : ServerWork ω Ref) : Prop := w.m = .read → w.inhdrsDone = false →
  w.inbuf = .sound w.inbuf.text w.inbuf.pos ∧ w.inbuf.pos ≤ w.inbuf.text.length ∧
    w.inhdrs.Stored ∧ w.inbodySz = 0

/-- The text and the earlier headers that the parser gets to see in this turn, if it is called. -/
def toParse (w : ServerWork ω Ref) (a : Chances ω) : Option (Hdrs × Str) :=
  if a.readStop = .failed then none
  else if w.m = .read ∧ w.inhdrsDone = false then
    some (w.inhdrs, w.inbuf.rest ++ received a.chunks)
  else if w.finishes a ∧ !w.deleteme ∧ w.inbuf.ignore.good then
    some (.empty, w.inbuf.rest ++ received a.chunks)
  else none

/-- A turn throws an `HTTP_oops` if and only if the parser gets to see unacceptable text. -/
theorem operator_escapes (hw : w.Ready) : (w.operator W cfg a).2.escapes = false ↔
    ∀ h t, w.toParse a = some (h, t) → Acceptable cfg h t := by
  cases hm : w.m with
  | read =>
    unfold operator
    rw [hm]
    dsimp only
    cases hd : w.inhdrsDone with
    | true =>
      rw [if_pos rfl, readBody_escapes]
      refine iff_of_true rfl ?_
      intro h t ht
      simp [toParse, finishes, hm, hd] at ht
    | false =>
      obtain ⟨hin, hpos, hstored, hsz⟩ := hw hm hd
      rw [if_neg Bool.false_ne_true, readHdrs_escapes W cfg hin hpos hstored hsz]
      by_cases hstop : a.readStop = .failed
      · simp [toParse, hstop]
      · simp [toParse, hstop, hm, hd, IStream.rest]
  | write =>
    have hop : w.operator W cfg a = w.writeOut W cfg a := by
      unfold operator
      rw [hm]
    rw [hop]
    cases hf : w.finishes a with
    | false =>
      obtain ⟨out, done, log, e, he, heq⟩ := writeOut_of_not_finishes W cfg hm hf
      rw [heq]
      refine iff_of_true he ?_
      intro h t ht
      simp [toParse, hm, hf] at ht
    | true =>
      rw [writeOut_of_finishes W cfg hf]
      by_cases hdel : w.deleteme = true
      · refine iff_of_true (by simp [hdel, Ending.escapes]) ?_
        intro h t ht
        simp [toParse, hm, hdel] at ht
      · rw [if_pos (by simpa using hdel), keepAlive_eq]
        have hsame : (w.finished a).inbuf = w.inbuf := rfl
        rw [hsame]
        by_cases hg : w.inbuf.ignore.good = true
        · rw [if_pos hg]
          obtain ⟨hin, hne, -⟩ := unget_ignore hg
          have hpos : w.inbuf.pos ≤ w.inbuf.text.length := by
            by_contra hlt
            exact hne (List.drop_eq_nil_of_le (by omega))
          rw [readHdrs_escapes W cfg (w := (w.finished a).refreshed W a) hin hpos
            Hdrs.stored_empty rfl]
          have hempty : ((w.finished a).refreshed W a).inhdrs = .empty := rfl
          rw [hempty]
          by_cases hstop : a.readStop = .failed
          · simp [toParse, hstop]
          · simp [toParse, hstop, hm, hf, hdel, hg, IStream.rest]
        · rw [if_neg hg]
          refine iff_of_true rfl ?_
          intro h t ht
          simp [toParse, hm, hg] at ht

private theorem ready_of_write (h : w.m = .write) : w.Ready := by
  intro hm
  rw [h] at hm
  cases hm

private theorem ready_of_done (h : w.inhdrsDone = true) : w.Ready := by
  intro _ hd
  rw [h] at hd
  cases hd

private theorem ready_dropdown : (w.dropdown W cfg a).1.Ready := by
  obtain ⟨scene, hdrs, body, heq, -⟩ := dropdown_eq W cfg w a
  rw [heq]
  exact ready_of_write rfl

private theorem ready_readBody (hd : w.inhdrsDone = true) : (w.readBody W cfg a).1.Ready := by
  unfold readBody
  dsimp only
  split
  · exact ready_dropdown W cfg
  · split
    · exact ready_of_done hd
    · exact ready_of_done hd

private theorem ready_readInbuf (hd : w.inhdrsDone = true) : (w.readInbuf W cfg a).1.Ready := by
  unfold readInbuf
  split
  · exact ready_of_done hd
  · exact ready_dropdown W cfg
  · split
    · exact ready_of_done hd
    · dsimp only
      split
      · exact ready_dropdown W cfg
      · exact ready_readBody W cfg hd

private theorem ready_readHdrs (hw : w.Ready) (hm : w.m = .read) (hd : w.inhdrsDone = false) :
    (w.readHdrs W cfg a).2.escapes = false → (w.readHdrs W cfg a).1.Ready := by
  obtain ⟨hin, hpos, hstored, hsz⟩ := hw hm hd
  by_cases hstop : a.readStop = .failed
  · unfold readHdrs
    dsimp only
    rw [if_pos hstop, hin, rduntil_sound]
    intro _ _ _
    exact ⟨rfl, by simp [IStream.sound]; omega, hstored, hsz⟩
  · by_cases ho : Overlong cfg.maxLineLen (w.inbuf.text.drop w.inbuf.pos ++ received a.chunks)
    · intro h
      rw [readHdrs_of_overlong W cfg hin hpos hstop ho] at h
      cases h
    · intro _
      obtain ⟨q, hq, -, heq⟩ := readHdrs_eq W cfg hin hpos hstop ho
      rw [heq]
      split
      · next hdone => exact ready_readInbuf W cfg hdone
      · intro _ _
        exact ⟨rfl, hq, hstored.scan _, hsz⟩

/-- A turn that does not throw an `HTTP_oops` leaves the work ready. -/
private theorem ready_operator (hw : w.Ready) (he : (w.operator W cfg a).2.escapes = false) :
    (w.operator W cfg a).1.Ready := by
  cases hm : w.m with
  | read =>
    unfold operator at he ⊢
    rw [hm] at he ⊢
    dsimp only at he ⊢
    cases hd : w.inhdrsDone with
    | true => exact ready_readBody W cfg hd
    | false =>
      rw [hd, if_neg Bool.false_ne_true] at he
      exact ready_readHdrs W cfg hw hm hd he
  | write =>
    have hop : w.operator W cfg a = w.writeOut W cfg a := by
      unfold operator
      rw [hm]
    rw [hop] at he ⊢
    cases hf : w.finishes a with
    | false =>
      obtain ⟨out, done, log, e, -, heq⟩ := writeOut_of_not_finishes W cfg hm hf
      rw [heq]
      exact ready_of_write hm
    | true =>
      rw [writeOut_of_finishes W cfg hf] at he ⊢
      by_cases hdel : w.deleteme = true
      · rw [hdel]
        exact ready_of_write hm
      · have hgo : (!w.deleteme) = true := by simpa using hdel
        rw [if_pos hgo, keepAlive_eq] at he ⊢
        split
        · next hg =>
          obtain ⟨hin, hne, -⟩ := unget_ignore hg
          rw [if_pos hg] at he
          refine ready_readHdrs W cfg ?_ rfl rfl he
          intro _ _
          refine ⟨hin, ?_, Hdrs.stored_empty, rfl⟩
          by_contra hlt
          exact hne (List.drop_eq_nil_of_le (Nat.le_of_lt (Nat.lt_of_not_le hlt)))
        · intro _ _
          exact ⟨rfl, Nat.le_refl 0, Hdrs.stored_empty, rfl⟩

end ServerWork

variable {ω Ref : Type} (W : World ω Ref) (cfg : Settings)

/-- The process is running. -/
def Conn.Running : Conn ω Ref → Prop
  | .crashed _ _ => False
  | _ => True

/-- The work is ready, if it is there. -/
def Conn.Ready : Conn ω Ref → Prop
  | .live w _ => w.Ready
  | _ => True

/-- In a turn, the parser gets to see acceptable text only. -/
def Act.Acceptable (cfg : Settings) : Conn ω Ref → Act ω → Prop
  | .live w _, .turn a => ∀ h t, w.toParse a = some (h, t) → Filth.Acceptable cfg h t
  | _, _ => True

/-- A turn that ends well leaves the process running. -/
private theorem running_settle (w : ServerWork ω Ref) (e : Ending) :
    (e.settle w).Running ↔ e.escapes = false := by
  cases e with
  | oops e => exact iff_of_false id Bool.noConfusion
  | socketErr => exact iff_of_true trivial rfl
  | rescheduled =>
    rw [Ending.settle]
    split <;> exact iff_of_true trivial rfl
  | silent =>
    rw [Ending.settle]
    split <;> exact iff_of_true trivial rfl

private theorem ready_settle {w : ServerWork ω Ref} (hw : w.Ready) (e : Ending) :
    (e.settle w).Ready := by
  cases e with
  | oops e => trivial
  | socketErr => trivial
  | rescheduled =>
    rw [Ending.settle]
    split
    · trivial
    · exact hw
  | silent =>
    rw [Ending.settle]
    split
    · trivial
    · exact hw

/-- For every world, every settings and every run of a connection: no `HTTP_oops` gets past the
worker if and only if in every turn the text that the parser gets to see is acceptable. -/
theorem running_iff_acceptable (world : ω) (as : List (Act ω)) :
    (assemblyLine W cfg (.new world)).AllStates Conn.Running (.live (.new world) true) as ↔
      (assemblyLine W cfg (.new world)).AllSteps (Act.Acceptable cfg)
        (.live (.new world) true) as := by
  have hnew : Conn.Ready (.live (.new world : ServerWork ω Ref) true) :=
    fun _ _ ↦ ⟨rfl, Nat.le_refl 0, Hdrs.stored_empty, rfl⟩
  apply Machine.allStates_iff_allSteps _ _ _ trivial hnew
  · intro s act s' _ hready hstep
    rcases assemblyLine_step W cfg hstep with
      ⟨w, a, rfl, rfl, rfl⟩ | ⟨w, armed, h, b, g, rfl, rfl, -, rfl⟩
    · rw [running_settle, ServerWork.operator_escapes W cfg hready]
      rfl
    · exact iff_of_true trivial trivial
  · intro s act s' _ hready hC hstep
    rcases assemblyLine_step W cfg hstep with
      ⟨w, a, rfl, rfl, rfl⟩ | ⟨w, armed, h, b, g, rfl, rfl, -, rfl⟩
    · have he := (ServerWork.operator_escapes W cfg hready).mpr hC
      exact ready_settle (ServerWork.ready_operator W cfg hready he) _
    · exact ServerWork.ready_of_write rfl

/-- A line beyond the limit ends the process. -/
theorem not_running_of_long_line : ¬ ∀ (ω Ref : Type) (W : World ω Ref) (cfg : Settings)
    (world : ω) (as : List (Act ω)),
    (assemblyLine W cfg (.new world)).AllStates Conn.Running (.live (.new world) true) as := by
  intro h
  have hrun := h Unit Unit (World.inert .blank) { Settings.lax with maxLineLen := some 3 } ()
    [.turn { sizes := [], writeStop := .clear, chunks := ["GET ".toList], readStop := .blocked
             bodyChunks := [], bodyStop := .clear, resetWorld := (), world := () }]
  exact hrun.2 (.crashed _ .badRequest) rfl

end Filth
