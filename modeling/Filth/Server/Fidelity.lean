import Filth.Http.Losses
import Filth.Server.Pipelining
import Filth.Server.Relay
import Filth.Server.Transparency

/-!
# Requests that are read back

What an `HTTP_Client_Work` has put on its socket comes to an `HTTP_Server_Work`: in turns that bring
the header block, one of which may bring the beginning of the body with it, and in reads of the rest
of the body, `src/HTTP_Server_Work.cpp:37–96`. The constructor of the client work adds an empty line
to headers that end with one already, `src/HTTP_Client_Work.cpp:18`, so what follows is read two
bytes too early.
-/

namespace Filth

open Base

/-! ### The first request that is handed on -/

/-- The request that `prepare_response` is called for. -/
def Deed.request : Deed → Option (Hdrs × Str)
  | .prepare hdrs body => some (hdrs, body)
  | _ => none

/-- The first request that has been handed on. -/
def firstRequest (log : List Deed) : Option (Hdrs × Str) := log.findSome? Deed.request

private theorem firstRequest_mono {log log' : List Deed} {r : Hdrs × Str} (h : log <+: log')
    (hr : firstRequest log = some r) : firstRequest log' = some r := by
  obtain ⟨more, rfl⟩ := h
  rw [firstRequest, List.findSome?_append, ← firstRequest, hr]
  rfl

private theorem firstRequest_concat {log : List Deed} {d : Deed} (h : firstRequest log = none) :
    firstRequest (log ++ [d]) = d.request := by
  rw [firstRequest, List.findSome?_append, ← firstRequest, h]
  cases hd : d.request <;> simp [hd]

section Line

variable {ω Ref : Type} {W : World ω Ref} {cfg : Settings} {w v : ServerWork ω Ref}
  {a : Chances ω} {turns : List (Chances ω)} {r q : Hdrs × Str}

/-- In one of the turns the work hands on its first request, which is this one. -/
def HandsFirst (W : World ω Ref) (cfg : Settings) (w : ServerWork ω Ref) (turns : List (Chances ω))
    (r : Hdrs × Str) : Prop :=
  ∃ pre c, pre <+: turns ∧
    (assemblyLine W cfg w).run (.live w true) (pre.map .turn) = some c ∧ firstRequest c.log = some r

private theorem step_turn (W : World ω Ref) (cfg : Settings) (w₀ w : ServerWork ω Ref)
    (a : Chances ω) :
    (assemblyLine W cfg w₀).step (.live w true) (.turn a) =
      some ((w.operator W cfg a).2.settle (w.operator W cfg a).1) := rfl

/-- Turns only add to the log. -/
private theorem log_run {w₀ : ServerWork ω Ref} {c c' : Conn ω Ref}
    (h : (assemblyLine W cfg w₀).run c (turns.map .turn) = some c') : c.log <+: c'.log := by
  induction turns generalizing c with
  | nil =>
    cases h
    exact List.prefix_rfl
  | cons a turns ih =>
    obtain ⟨c₁, hstep, hrest⟩ := Option.bind_eq_some_iff.mp h
    exact (log_step hstep).trans (ih hrest)

/-- A work that has handed on nothing does not have a first request without a turn. -/
theorem handsFirst_cons (hw : firstRequest w.log = none) : HandsFirst W cfg w (a :: turns) r ↔
    ∃ pre c, pre <+: turns ∧ (assemblyLine W cfg w).run
      ((w.operator W cfg a).2.settle (w.operator W cfg a).1) (pre.map .turn) = some c ∧
        firstRequest c.log = some r := by
  constructor
  · rintro ⟨pre, c, hpre, hrun, hr⟩
    cases pre with
    | nil =>
      cases hrun
      cases hw.symm.trans hr
    | cons b pre =>
      obtain ⟨rfl, hpre'⟩ := List.cons_prefix_cons.mp hpre
      rw [List.map_cons, Machine.run_cons, step_turn] at hrun
      exact ⟨pre, c, hpre', hrun, hr⟩
  · rintro ⟨pre, c, hpre, hrun, hr⟩
    refine ⟨a :: pre, c, List.cons_prefix_cons.mpr ⟨rfl, hpre⟩, ?_, hr⟩
    rw [List.map_cons, Machine.run_cons, step_turn]
    exact hrun

/-- Works that do the same in the turn have the same first request. -/
private theorem handsFirst_congr (hw : firstRequest w.log = none) (hv : firstRequest v.log = none)
    (hop : w.operator W cfg a = v.operator W cfg a) :
    HandsFirst W cfg w (a :: turns) r ↔ HandsFirst W cfg v (a :: turns) r := by
  rw [handsFirst_cons hw, handsFirst_cons hv, hop]
  simp only [run_assemblyLine W cfg w v]

/-- A turn that hands on nothing and is not the last. -/
theorem handsFirst_of_rescheduled (hw : firstRequest w.log = none)
    (hop : w.operator W cfg a = (v, .rescheduled)) (hdel : v.deleteme = false) :
    HandsFirst W cfg w (a :: turns) r ↔ HandsFirst W cfg v turns r := by
  have hlive : Ending.rescheduled.settle v = .live v true := by
    rw [Ending.settle, hdel]
    rfl
  rw [handsFirst_cons hw, hop]
  simp only [run_assemblyLine W cfg w v]
  rw [hlive]
  rfl

/-- A turn that hands on a request. -/
theorem handsFirst_of_firstRequest (hw : firstRequest w.log = none)
    (hq : firstRequest (w.operator W cfg a).1.log = some q) :
    HandsFirst W cfg w (a :: turns) r ↔ r = q := by
  rw [handsFirst_cons hw]
  have hlog : firstRequest ((w.operator W cfg a).2.settle (w.operator W cfg a).1).log = some q := by
    rwa [Ending.log_settle]
  constructor
  · rintro ⟨pre, c, -, hrun, hr⟩
    cases (firstRequest_mono (log_run hrun) hlog).symm.trans hr
    rfl
  · rintro rfl
    exact ⟨[], _, List.nil_prefix, rfl, hlog⟩

/-- A turn that ends in an exception and hands on nothing. -/
theorem not_handsFirst_of_oops (hw : firstRequest w.log = none) {e : Status}
    (hend : (w.operator W cfg a).2 = .oops e)
    (hq : firstRequest (w.operator W cfg a).1.log = none) :
    ¬ HandsFirst W cfg w (a :: turns) r := by
  rw [handsFirst_cons hw, hend]
  rintro ⟨pre, c, -, hrun, hr⟩
  cases pre with
  | nil =>
    cases hrun
    cases hq.symm.trans hr
  | cons b pre => cases hrun

/-! ### Reading the body -/

/-- Reads may be divided among calls. -/
theorem rduntilBody_append (s : Str) (tord : Nat) (chunks more : List Str) :
    rduntilBody s tord (chunks ++ more) =
      rduntilBody (rduntilBody s tord chunks).1 (rduntilBody s tord chunks).2 more := by
  induction chunks generalizing s tord with
  | nil => rfl
  | cons c chunks ih =>
    rw [List.cons_append, rduntilBody, rduntilBody]
    split
    · next hzero => rw [hzero, rduntilBody_zero]
    · exact ih _ _

private theorem length_rduntilBody_le (s : Str) (tord : Nat) (chunks : List Str) :
    (rduntilBody s tord chunks).1.length ≤ s.length + chunks.flatten.length := by
  induction chunks generalizing s tord with
  | nil => exact Nat.le_add_right _ _
  | cons c chunks ih =>
    rw [rduntilBody, List.flatten_cons, List.length_append]
    split
    · exact Nat.le_add_right _ _
    · have hcut : (cstr c).length ≤ c.length := (List.takeWhile_prefix _).length_le
      have := ih (s ++ cstr c) (sizeSub tord c.length)
      rw [List.length_append] at this
      omega

/-- What is read of a body is what comes up to the read that ends with its last byte, if there is
such a read. -/
theorem rduntilBody_of_exact {s : Str} {tord : Nat} {got chunks : List Str}
    (hnul : '\x00' ∉ chunks.flatten) (hgot : got <+: chunks) (hlen : got.flatten.length = tord)
    (hlt : tord < sizeBound) : rduntilBody s tord chunks = (s ++ got.flatten, 0) := by
  obtain ⟨more, rfl⟩ := hgot
  rw [List.flatten_append, List.mem_append, not_or] at hnul
  rw [rduntilBody_append, rduntilBody_of_nulFree hnul.1 s hlen.le hlt, hlen, Nat.sub_self,
    rduntilBody_zero]

private theorem firstRequest_dropdown (W : World ω Ref) (cfg : Settings) (a : Chances ω)
    (hw : firstRequest w.log = none) :
    firstRequest (w.dropdown W cfg a).1.log = some (w.inhdrs, w.inbody) := by
  obtain ⟨scene, hdrs, body, heq, -⟩ := ServerWork.dropdown_eq W cfg w a
  rw [heq]
  exact firstRequest_mono (List.prefix_append _ _) (firstRequest_concat hw)

/-- The first request of a work that receives a body is that with the body it reads, if it gets to
the end of it. -/
theorem Receiving.handsFirst_iff {hdrs : Hdrs} {sofar : Str} {left : Nat}
    (h : Receiving hdrs sofar left w) (hleft : left ≠ 0) (hw : firstRequest w.log = none)
    (hstop : ∀ a ∈ turns, a.bodyStop ≠ .failed) : HandsFirst W cfg w turns r ↔
      ∃ body, rduntilBody sofar left (turns.flatMap Chances.bodyChunks) = (body, 0) ∧
        r = (hdrs, body) := by
  induction turns generalizing w sofar left with
  | nil =>
    constructor
    · rintro ⟨pre, c, hpre, hrun, hr⟩
      rw [List.prefix_nil.mp hpre] at hrun
      cases hrun
      cases hw.symm.trans hr
    · rintro ⟨body, hbody, -⟩
      exact absurd (congrArg Prod.snd hbody) hleft
  | cons a turns ih =>
    have hop : w.operator W cfg a = w.readBody W cfg a := by
      rw [ServerWork.operator, h.m]
      exact if_pos h.inhdrsDone
    obtain ⟨s, hs⟩ : ∃ s, s = (rduntilBody sofar left a.bodyChunks).1 := ⟨_, rfl⟩
    obtain ⟨t, ht⟩ : ∃ t, t = (rduntilBody sofar left a.bodyChunks).2 := ⟨_, rfl⟩
    obtain ⟨w', hw'⟩ : ∃ w' : ServerWork ω Ref, w' = { w with inbody := s, inbodySz := t } :=
      ⟨_, rfl⟩
    have hread : w.readBody W cfg a = if t = 0 then w'.dropdown W cfg a else
        if a.bodyStop = .failed then (w', .socketErr) else (w', .rescheduled) := by
      unfold ServerWork.readBody
      rw [h.inbody, h.inbodySz, hw', hs, ht]
    rw [List.flatMap_cons, rduntilBody_append, ← hs, ← ht]
    by_cases hzero : t = 0
    · rw [hzero, rduntilBody_zero]
      have hfirst : firstRequest (w.operator W cfg a).1.log = some (hdrs, s) := by
        rw [hop, hread, if_pos hzero, firstRequest_dropdown W cfg a (by rw [hw']; exact hw), hw',
          ← h.inhdrs]
        rfl
      rw [handsFirst_of_firstRequest hw hfirst]
      simp
    · have hrecv : Receiving hdrs s t w' := by
        rw [hw']
        exact ⟨h.m, h.inhdrsDone, h.inhdrs, rfl, rfl, h.deleteme⟩
      rw [if_neg hzero, if_neg (hstop a List.mem_cons_self)] at hread
      rw [handsFirst_of_rescheduled hw (hop.trans hread) hrecv.deleteme]
      exact ih hrecv hzero (by rw [hw']; exact hw) fun b hb ↦ hstop b (List.mem_cons_of_mem a hb)

/-- What a server work makes of complete headers, of what has arrived behind them and of the reads
that follow: the request that it hands on, if the body gets complete. -/
def framed (cfg : Settings) (hdrs : Hdrs) (early : Str) (reads : List Str) : Option (Hdrs × Str) :=
  match announcedSize (hdrs.hdr .contentLength) 0 with
  | .error _ => none
  | .ok n =>
    if n ≠ 0 ∧ cfg.maxReqBody.exceeded n = true then none
    else match rduntilBody (cstr (taken n early)) (sizeSub n (taken n early).length) reads with
      | (body, 0) => some (hdrs, body)
      | _ => none

private theorem framed_eq_some {hdrs : Hdrs} {early : Str} {reads : List Str} :
    framed cfg hdrs early reads = some r ↔ ∃ n body,
      announcedSize (hdrs.hdr .contentLength) 0 = .ok n ∧
        (n = 0 ∨ cfg.maxReqBody.exceeded n = false) ∧
        rduntilBody (cstr (taken n early)) (sizeSub n (taken n early).length) reads = (body, 0) ∧
        r = (hdrs, body) := by
  unfold framed
  cases hn : announcedSize (hdrs.hdr .contentLength) 0 with
  | error e => simp
  | ok n =>
    dsimp only
    split
    · next hmax =>
      refine iff_of_false nofun ?_
      rintro ⟨n', body, hn', hmax', -⟩
      cases hn'
      rcases hmax' with hzero | hmax'
      · exact hmax.1 hzero
      · rw [hmax.2] at hmax'
        cases hmax'
    · next hmax =>
      have hmax' : n = 0 ∨ cfg.maxReqBody.exceeded n = false := by
        rw [not_and_or, not_not, Bool.not_eq_true] at hmax
        exact hmax
      split
      · next body hbody =>
        constructor
        · intro h
          cases h
          exact ⟨n, body, rfl, hmax', hbody, rfl⟩
        · rintro ⟨n', body', hn', -, hbody', rfl⟩
          cases hn'
          cases hbody.symm.trans hbody'
          rfl
      · next hmore =>
        refine iff_of_false nofun ?_
        rintro ⟨n', body', hn', -, hbody', -⟩
        cases hn'
        exact hmore body' hbody'

/-! ### Reading the headers -/

/-- What each of the turns brings for the headers. -/
def pieces (turns : List (Chances ω)) : List Str := turns.map fun a ↦ received a.chunks

/-- The work has read pieces of a header block, which is not complete. -/
structure Heading (max : Limit) (cs : List Str) (w : ServerWork ω Ref) : Prop where
  bearable : Bearable max cs
  m : w.m = .read
  inhdrsDone : w.inhdrsDone = false
  inbody : w.inbody = []
  inbodySz : w.inbodySz = 0
  deleteme : w.deleteme = false
  unasked : firstRequest w.log = none
  text : ∃ s p, w.inbuf = .sound s p ∧ p ≤ s.length ∧
    feed scan .empty [] cs = .more w.inhdrs (s.drop p)

/-- A work for a new connection has read nothing. -/
theorem heading_new (max : Limit) (world : ω) :
    Heading max [] (ServerWork.new world : ServerWork ω Ref) :=
  ⟨fun pre c hpre ↦ absurd (List.prefix_nil.mp hpre) (by simp), rfl, rfl, rfl, rfl, rfl, rfl,
    [], 0, rfl, le_rfl, rfl⟩

variable {cs : List Str}

private theorem Heading.operator_eq (h : Heading cfg.maxLineLen cs w) :
    w.operator W cfg a = w.readHdrs W cfg a := by
  unfold ServerWork.operator
  rw [h.m, h.inhdrsDone]
  rfl

/-- A turn that brings an overlong line hands on nothing. -/
theorem Heading.not_handsFirst (h : Heading cfg.maxLineLen cs w) (hstop : a.readStop ≠ .failed)
    {s : Str} {p : Nat} (hin : w.inbuf = .sound s p) (hp : p ≤ s.length)
    (ho : Overlong cfg.maxLineLen (s.drop p ++ received a.chunks)) :
    ¬ HandsFirst W cfg w (a :: turns) r := by
  have hend := ServerWork.readHdrs_of_overlong W cfg hin hp hstop ho
  rw [← h.operator_eq] at hend
  refine not_handsFirst_of_oops h.unasked hend ?_
  rw [← List.drop_append_of_le_length hp] at ho
  have hp' : p ≤ (s ++ received a.chunks).length := by
    rw [List.length_append]
    omega
  rw [h.operator_eq, ServerWork.readHdrs]
  dsimp only
  rw [if_neg hstop, hin, rduntil_sound, parse_of_overlong hp' _ ho]
  exact firstRequest_concat h.unasked

/-- A turn that does not complete the block: either it hands on nothing, or the work has read one
more piece. -/
theorem Heading.turn (h : Heading cfg.maxLineLen cs w) (hstop : a.readStop ≠ .failed)
    (hmore : (feed scan .empty [] (cs ++ [received a.chunks])).isDone = false) :
    ¬ Bearable cfg.maxLineLen (cs ++ [received a.chunks]) ∧
      (∀ turns r, ¬ HandsFirst W cfg w (a :: turns) r) ∨
    ∃ w', w.operator W cfg a = (w', .rescheduled) ∧
      Heading cfg.maxLineLen (cs ++ [received a.chunks]) w' := by
  obtain ⟨s, p, hin, hp, hfeed⟩ := h.text
  by_cases ho : Overlong cfg.maxLineLen (s.drop p ++ received a.chunks)
  · exact .inl ⟨fun hb ↦ hb cs _ List.prefix_rfl _ _ hfeed ho,
      fun _ _ ↦ h.not_handsFirst hstop hin hp ho⟩
  · right
    obtain ⟨p', hp', hrest, hread⟩ := ServerWork.readHdrs_eq W cfg hin hp hstop ho
    rw [feed_append_of_more scan hfeed, feed_singleton] at hmore
    cases hscan : scan w.inhdrs (s.drop p ++ received a.chunks) with
    | done h' rest =>
      rw [hscan] at hmore
      cases hmore
    | more h' rest =>
      rw [hscan] at hrest hread
      rw [h.operator_eq, hread]
      refine ⟨_, rfl, h.bearable.concat hfeed ho, h.m, rfl, h.inbody, h.inbodySz, h.deleteme,
        firstRequest_concat h.unasked, _, p', rfl, hp', ?_⟩
      rw [feed_append_of_more scan hfeed, feed_singleton, hscan, hrest]
      rfl

/-- A block that is not complete was not before. -/
private theorem feed_of_not_isDone {cs more : List Str}
    (h : (feed scan .empty [] (cs ++ more)).isDone = false) :
    (feed scan .empty [] cs).isDone = false := by
  cases hcs : feed scan .empty [] cs with
  | done h' rest =>
    rw [feed_append_of_done scan hcs] at h
    cases h
  | more h' rest => rfl

/-- Turns that do not complete the block, one after the other. -/
theorem Heading.run (h : Heading cfg.maxLineLen cs w) {before : List (Chances ω)}
    (rest : List (Chances ω)) (hstop : ∀ a ∈ before, a.readStop ≠ .failed)
    (hmore : (feed scan .empty [] (cs ++ pieces before)).isDone = false) :
    ¬ Bearable cfg.maxLineLen (cs ++ pieces before) ∧
      (∀ r, ¬ HandsFirst W cfg w (before ++ rest) r) ∨
    ∃ w', (assemblyLine W cfg w).run (.live w true) (before.map .turn) = some (.live w' true) ∧
      Heading cfg.maxLineLen (cs ++ pieces before) w' ∧
      ∀ r, HandsFirst W cfg w (before ++ rest) r ↔ HandsFirst W cfg w' rest r := by
  induction before generalizing w cs with
  | nil =>
    refine .inr ⟨w, rfl, ?_, fun _ ↦ Iff.rfl⟩
    rw [pieces, List.map_nil, List.append_nil]
    exact h
  | cons a before ih =>
    have hcut : cs ++ pieces (a :: before) = cs ++ [received a.chunks] ++ pieces before := by
      simp [pieces]
    rw [hcut] at hmore ⊢
    rcases h.turn (W := W) (hstop a List.mem_cons_self) (feed_of_not_isDone hmore) with
      ⟨hb, hnot⟩ | ⟨w₁, hop, h₁⟩
    · exact .inl ⟨fun hall ↦ hb fun pre c hpre ↦ hall pre c (hpre.trans (List.prefix_append _ _)),
        fun r ↦ hnot _ r⟩
    · have hgo (r : Hdrs × Str) : HandsFirst W cfg w (a :: before ++ rest) r ↔
          HandsFirst W cfg w₁ (before ++ rest) r :=
        handsFirst_of_rescheduled h.unasked hop h₁.deleteme
      rcases ih h₁ (fun b hb ↦ hstop b (List.mem_cons_of_mem a hb)) hmore with
        ⟨hb, hnot⟩ | ⟨w', hrun, h', hiff⟩
      · exact .inl ⟨hb, fun r hr ↦ hnot r ((hgo r).mp hr)⟩
      · refine .inr ⟨w', ?_, h', fun r ↦ (hgo r).trans (hiff r)⟩
        rw [List.map_cons, Machine.run_cons, step_of_rescheduled hop h₁.deleteme,
          Option.bind_some, run_assemblyLine W cfg w w₁]
        exact hrun

/-- The turn that completes the block, and the reads after it: the first request is the one that the
headers frame. -/
theorem Heading.handsFirst_iff (h : Heading cfg.maxLineLen cs w) {later : List (Chances ω)}
    {hdrs : Hdrs} {early : Str} (hstop : a.readStop ≠ .failed)
    (hbody : ∀ b ∈ a :: later, b.bodyStop ≠ .failed)
    {s : Str} {p : Nat} (hin : w.inbuf = .sound s p) (hp : p ≤ s.length)
    (hscan : scan w.inhdrs (s.drop p ++ received a.chunks) = .done hdrs early)
    (ho : ¬ Overlong cfg.maxLineLen (s.drop p ++ received a.chunks)) :
    HandsFirst W cfg w (a :: later) r ↔
      framed cfg hdrs early ((a :: later).flatMap Chances.bodyChunks) = some r := by
  obtain ⟨p', -, hrest, hread⟩ := ServerWork.readHdrs_eq W cfg hin hp hstop ho
  rw [hscan] at hrest hread
  rw [← h.operator_eq] at hread
  change (s ++ received a.chunks).drop p' = early at hrest
  change w.operator W cfg a = (w.parsed true (.sound (s ++ received a.chunks) p') hdrs).readInbuf W
    cfg a at hread
  obtain ⟨v, hv⟩ : ∃ v, v = w.parsed true (.sound (s ++ received a.chunks) p') hdrs := ⟨_, rfl⟩
  rw [← hv] at hread
  have hlog : firstRequest v.log = none := by
    rw [hv]
    exact firstRequest_concat h.unasked
  have hhdrs : v.inhdrs = hdrs := by rw [hv]; rfl
  have hsz : v.inbodySz = 0 := by
    rw [hv]
    exact h.inbodySz
  rw [framed_eq_some]
  cases hn : announcedSize (hdrs.hdr .contentLength) 0 with
  | error e =>
    refine iff_of_false ?_ (by simp)
    have hoops : v.readInbuf W cfg a = (v, .oops e) := by
      unfold ServerWork.readInbuf
      rw [hhdrs, hsz, hn]
    rw [hoops] at hread
    exact not_handsFirst_of_oops h.unasked (by rw [hread]) (by rw [hread]; exact hlog)
  | ok n =>
    by_cases hmax : n = 0 ∨ cfg.maxReqBody.exceeded n = false
    · have hvm : v.m = .read := by rw [hv]; exact h.m
      have hvbody : v.inbody = [] := by rw [hv]; exact h.inbody
      have hvdel : v.deleteme = false := by rw [hv]; exact h.deleteme
      have hvbuf : v.inbuf = .sound (s ++ received a.chunks) p' := by rw [hv]; rfl
      have hvn : announcedSize (v.inhdrs.hdr .contentLength) v.inbodySz = .ok n := by
        rw [hhdrs, hsz, hn]
      obtain ⟨v', hrecv, hlog', hgo⟩ := ServerWork.readInbuf_eq W (a := a) hvm (by rw [hv]; rfl)
        hvbody hvdel hvbuf hrest hvn hmax
      rw [hhdrs] at hrecv
      rw [hgo] at hread
      have hlog'' : firstRequest v'.log = none := by rw [hlog', hlog]
      by_cases hzero : sizeSub n (taken n early).length = 0
      · rw [if_pos hzero] at hread
        have hfirst :
            firstRequest (w.operator W cfg a).1.log = some (hdrs, cstr (taken n early)) := by
          rw [hread, firstRequest_dropdown W cfg a hlog'', hrecv.inhdrs, hrecv.inbody]
        rw [handsFirst_of_firstRequest h.unasked hfirst]
        simp [hmax, hzero, rduntilBody_zero]
      · have hop : w.operator W cfg a = v'.operator W cfg a := by
          rw [hread, if_neg hzero, ServerWork.operator, hrecv.m]
          exact (if_pos hrecv.inhdrsDone).symm
        rw [handsFirst_congr h.unasked hlog'' hop, hrecv.handsFirst_iff hzero hlog'' hbody]
        simp [hmax]
    · have hnot := not_or.mp hmax
      refine iff_of_false ?_ ?_
      · have hoops : v.readInbuf W cfg a = (v, .oops .requestEntityTooLarge) := by
          unfold ServerWork.readInbuf
          rw [hhdrs, hsz, hn]
          cases n with
          | zero => exact absurd rfl hnot.1
          | succ n => exact if_pos (by simpa using hnot.2)
        rw [hoops] at hread
        exact not_handsFirst_of_oops h.unasked (by rw [hread]) (by rw [hread]; exact hlog)
      · rintro ⟨n', body, hn', hmax', -⟩
        cases hn'
        exact hmax hmax'

/-- The first request of a connection: the block is not complete before the turn `a`, and either
it is in that turn or that turn is the last. -/
theorem handsFirst_new_iff (world : ω) {before later : List (Chances ω)}
    (hstop : ∀ b ∈ before ++ [a], b.readStop ≠ .failed)
    (hbody : ∀ b ∈ a :: later, b.bodyStop ≠ .failed)
    (hmore : (feed scan .empty [] (pieces before)).isDone = false)
    (hend : (feed scan .empty [] (pieces (before ++ [a]))).isDone = true ∨ later = []) :
    HandsFirst W cfg (.new world) (before ++ a :: later) r ↔
      Bearable cfg.maxLineLen (pieces (before ++ [a])) ∧ ∃ hdrs early,
        feed scan .empty [] (pieces (before ++ [a])) = .done hdrs early ∧
          framed cfg hdrs early ((a :: later).flatMap Chances.bodyChunks) = some r := by
  have hcut : pieces (before ++ [a]) = pieces before ++ [received a.chunks] := by simp [pieces]
  have hstop' := hstop a (by simp)
  rw [hcut] at hend ⊢
  rcases (heading_new cfg.maxLineLen world).run (W := W) (a :: later)
      (fun b hb ↦ hstop b (List.mem_append_left _ hb)) hmore with ⟨hb, hnot⟩ | ⟨w, -, hw, hiff⟩
  · exact iff_of_false (hnot r) fun hall ↦
      hb fun pre c hpre ↦ hall.1 pre c (hpre.trans (List.prefix_append _ _))
  · rw [hiff r]
    rw [List.nil_append] at hw
    obtain ⟨s, p, hin, hp, hfeed⟩ := hw.text
    rw [feed_append_of_more scan hfeed, feed_singleton] at hend ⊢
    by_cases ho : Overlong cfg.maxLineLen (s.drop p ++ received a.chunks)
    · exact iff_of_false (hw.not_handsFirst hstop' hin hp ho) fun hall ↦
        hall.1 (pieces before) _ List.prefix_rfl _ _ hfeed ho
    · have hb := hw.bearable.concat hfeed ho
      cases hscan : scan w.inhdrs (s.drop p ++ received a.chunks) with
      | done hdrs early =>
        rw [hw.handsFirst_iff hstop' hbody hin hp hscan ho]
        simp [hb]
      | more hdrs t =>
        rw [hscan] at hend
        obtain rfl := hend.resolve_left (by simp [Outcome.isDone])
        refine iff_of_false ?_ (by simp)
        have hone : (feed scan .empty [] (pieces before ++ [received a.chunks])).isDone =
            false := by
          rw [feed_append_of_more scan hfeed, feed_singleton, hscan]
          rfl
        rcases hw.turn (W := W) hstop' hone with ⟨-, hnot⟩ | ⟨w', hop, hw'⟩
        · exact hnot [] r
        · rw [handsFirst_of_rescheduled hw.unasked hop hw'.deleteme]
          rintro ⟨pre, c, hpre, hrun, hr⟩
          rw [List.prefix_nil.mp hpre] at hrun
          cases hrun
          cases hw'.unasked.symm.trans hr

/-! ### What is read back -/

/-- The bytes come in these turns: those before `first` do not complete the header block, and in
that turn, if it does, the reads of a body begin. -/
structure Brings (wire : Str) (before : List (Chances ω)) (first : Chances ω)
    (later : List (Chances ω)) : Prop where
  wire : ((before ++ [first]).flatMap Chances.chunks).flatten ++
    ((first :: later).flatMap Chances.bodyChunks).flatten = wire
  heads : (feed scan .empty [] (pieces before)).isDone = false
  ends : (feed scan .empty [] (pieces (before ++ [first]))).isDone = true ∨
    first.bodyChunks = [] ∧ later = []
  readStop : ∀ a ∈ before ++ [first], a.readStop ≠ .failed
  bodyStop : ∀ a ∈ first :: later, a.bodyStop ≠ .failed

/-- A work for a new connection gets the request, and the copy of what has arrived with the headers
stays within the buffer. -/
def ReadsBack (W : World ω Ref) (cfg : Settings) (world : ω) (before : List (Chances ω))
    (first : Chances ω) (later : List (Chances ω)) (hdrs : Hdrs) (body : Str) : Prop :=
  (∀ w, (assemblyLine W cfg (.new world)).run (.live (.new world) true) (before.map .turn) =
      some (.live w true) → InBounds (w.leftover cfg first)) ∧
    HandsFirst W cfg (.new world) (before ++ first :: later) (hdrs, body)

/-- What follows the headers on the socket, without what the parser loses. -/
def following (hdrs : Hdrs) (body : Str) (granted : Bool) (lost : Str) : Str :=
  (surplus hdrs).drop lost.length ++ if granted then body else []

/-- The headers fit into the buffer and get through the parser; the body is no less as a C string,
not too large, and it begins what follows the headers; what has arrived of it with the headers fits
into the buffer, and one of the reads ends with the last byte. A body of 2 ^ 63 bytes or more has to
begin behind what has arrived with the headers. -/
structure UndisturbedBy (cfg : Settings) (hdrs : Hdrs) (body : Str) (granted : Bool)
    (cs chunks : List Str) (lost early : Str) : Prop where
  fits : hdrs.print.length ≤ cbufsz - 1
  clean : '\x00' ∉ body
  admitted : body = [] ∨ cfg.maxReqBody.exceeded body.length = false
  passes : Passes cfg.maxLineLen hdrs cs lost
  arrived : cs.flatten = hdrs.print ++ (lost ++ early)
  room : (taken body.length early).length < cbufsz
  ends : ∃ got, got <+: chunks ∧
    (taken body.length early).length + got.flatten.length = body.length
  follows : body <+: (following hdrs body granted lost).drop
    (if body.length < 2 ^ 63 then 0 else early.length)

/-- The request is not disturbed on its way in these pieces and reads. -/
def Undisturbed (cfg : Settings) (hdrs : Hdrs) (body : Str) (granted : Bool)
    (cs chunks : List Str) : Prop :=
  ∃ lost early, UndisturbedBy cfg hdrs body granted cs chunks lost early

/-- What has arrived with the headers is copied into the buffer, if that has room for it. -/
theorem inBounds_new_iff (world : ω) {before : List (Chances ω)} {hdrs : Hdrs} {early : Str}
    {n : Nat} (hstop : ∀ b ∈ before, b.readStop ≠ .failed)
    (hmore : (feed scan .empty [] (pieces before)).isDone = false)
    (hb : Bearable cfg.maxLineLen (pieces (before ++ [a])))
    (hfeed : feed scan .empty [] (pieces (before ++ [a])) = .done hdrs early)
    (hn : announcedSize (hdrs.hdr .contentLength) 0 = .ok n) :
    (∀ w, (assemblyLine W cfg (.new world)).run (.live (.new world) true) (before.map .turn) =
      some (.live w true) → InBounds (w.leftover cfg a)) ↔
        n = 0 ∨ cfg.maxReqBody.exceeded n = true ∨ (taken n early).length < cbufsz := by
  have hcut : pieces (before ++ [a]) = pieces before ++ [received a.chunks] := by simp [pieces]
  rw [hcut] at hb hfeed
  rcases (heading_new cfg.maxLineLen world).run (W := W) [] hstop hmore with
    ⟨hnot, -⟩ | ⟨v, hrun, hv, -⟩
  · exact absurd (hb.mono (List.prefix_append _ _)) hnot
  · rw [List.nil_append] at hv
    obtain ⟨s, p, hin, hp, hfeed'⟩ := hv.text
    have hshort := hb (pieces before) _ List.prefix_rfl _ _ hfeed'
    rw [feed_append_of_more scan hfeed', feed_singleton] at hfeed
    rw [← List.drop_append_of_le_length hp] at hfeed hshort
    have hp' : p ≤ (s ++ received a.chunks).length := by
      rw [List.length_append]
      omega
    have hiff : InBounds (v.leftover cfg a) ↔
        n = 0 ∨ cfg.maxReqBody.exceeded n = true ∨ (taken n early).length < cbufsz := by
      unfold ServerWork.leftover
      rw [hin, rduntil_sound, inBounds_leftover_iff hp' hshort hfeed (by rw [hv.inbodySz, hn])]
      by_cases hlt : n < 2 ^ 63
      · rw [taken, if_pos hlt, List.length_take]
        have := Nat.not_le_of_lt hlt
        tauto
      · have hnone : (taken n early).length < cbufsz := by
          rw [taken, if_neg hlt]
          decide
        exact iff_of_true (.inr (.inr (.inl (Nat.le_of_not_lt hlt)))) (.inr (.inr hnone))
    rw [← hiff]
    constructor
    · exact fun hall ↦ hall v hrun
    · intro hin w hw
      rw [hrun] at hw
      cases hw
      exact hin

/-- Without a NUL in them, the pieces are what has been sent. -/
theorem flatten_pieces {before : List (Chances ω)}
    (hnul : '\x00' ∉ (before.flatMap Chances.chunks).flatten) :
    (pieces before).flatten = (before.flatMap Chances.chunks).flatten := by
  induction before with
  | nil => rfl
  | cons b before ih =>
    rw [List.flatMap_cons, List.flatten_append, List.mem_append, not_or] at hnul
    rw [List.flatMap_cons, List.flatten_append, ← ih hnul.2, ← received_of_nulFree hnul.1]
    rfl

/-! ### What is relayed -/

section Relayed

variable {max : Limit} {hdrs : Hdrs} {body early : Str} {granted : Bool} {world : ω}
  {before later : List (Chances ω)} {cs chunks : List Str}

theorem Produced.announced (hH : Produced max hdrs) (hsize : hdrs.bodySize = body.length) :
    announcedSize (hdrs.hdr .contentLength) 0 = .ok body.length := by
  obtain ⟨n, hn⟩ : ∃ n, announcedSize (hdrs.hdr .contentLength) 0 = .ok n := by
    unfold announcedSize
    split
    · exact ⟨0, rfl⟩
    · next hne =>
      obtain ⟨-, -, value, hvalue⟩ := (hH.slotted.hdr .contentLength).resolve_left hne
      rw [hvalue]
      exact ⟨_, rfl⟩
  rw [Hdrs.bodySize, hn] at hsize
  rw [hn, ← hsize]
  rfl

/-- What a client work has put on the socket, when it reads. -/
theorem ClientWork.sent_eq (hH : Produced max hdrs) (hlen : hdrs.print.length ≤ cbufsz - 1)
    (hnul : '\x00' ∉ body) {as : List (Chances Unit)} {w : ClientWork}
    (hrun : (relay max (.new hdrs body granted)).run (.new hdrs body granted) as = some w)
    (hm : w.m = .read) : w.sent = hdrs.print ++ (surplus hdrs ++ if granted then body else []) := by
  rw [sent_of_run rfl rfl rfl hrun hm, out_new hH, out_eq_surplus hlen, List.append_assoc, new,
    strncpy_eq_self hnul]

private theorem surplus_le (hdrs : Hdrs) : surplus hdrs <+: crlf := List.take_prefix _ _

/-- Without a NUL in the body there is none on the socket. -/
private theorem ClientWork.nul_not_mem_sent (hH : Produced max hdrs) (hnul : '\x00' ∉ body)
    {as : List (Chances Unit)} {w : ClientWork}
    (hrun : (relay max (.new hdrs body granted)).run (.new hdrs body granted) as = some w)
    (hm : w.m = .read) : '\x00' ∉ w.sent := by
  rw [sent_of_run rfl rfl rfl hrun hm, out_new hH, new, strncpy_eq_self hnul, List.mem_append]
  rintro (hmem | hmem)
  · rcases List.mem_append.mp (List.mem_of_mem_take hmem) with hmem | hmem
    · exact hH.nul_not_mem_print hmem
    · exact absurd hmem (by decide)
  · cases granted
    · cases hmem
    · exact hnul hmem

/-- There are at most as many bytes on it as the buffer has room for, and those of the body; and at
most the headers, two bytes more, and the body. -/
private theorem ClientWork.length_sent_le (hH : Produced max hdrs) (hnul : '\x00' ∉ body)
    {as : List (Chances Unit)} {w : ClientWork}
    (hrun : (relay max (.new hdrs body granted)).run (.new hdrs body granted) as = some w)
    (hm : w.m = .read) :
    w.sent.length ≤ min (cbufsz - 1) (hdrs.print.length + 2) + body.length := by
  have hcopy : (if granted then body else []).length ≤ body.length := by
    cases granted <;> simp
  have hcrlf : crlf.length = 2 := rfl
  rw [sent_of_run rfl rfl rfl hrun hm, out_new hH, new, strncpy_eq_self hnul, List.length_append,
    List.length_take, List.length_append, hcrlf]
  exact Nat.add_le_add_left hcopy _

/-- If the headers get complete, and the body does, then the headers fit into the buffer, and at
most two bytes more than the body follow them. -/
private theorem fits_of_feed
    (hlen : cs.flatten.length + chunks.flatten.length ≤
      min (cbufsz - 1) (hdrs.print.length + 2) + body.length)
    (hfeed : feed scan .empty [] cs = .done hdrs early)
    (hlong : body.length ≤ early.length + chunks.flatten.length) :
    hdrs.print.length ≤ cbufsz - 1 ∧ early.length + chunks.flatten.length ≤ body.length + 2 := by
  have hkept := feed_weight none hfeed
  rw [Hdrs.weight_empty, List.length_nil] at hkept
  have hprint := hdrs.length_print
  omega

/-- What is read of the body is a beginning of what follows the headers. -/
theorem taken_append_le (early : Str) {n : Nat} {got : List Str} (hgot : got <+: chunks)
    (hlen : (taken n early).length + got.flatten.length = n) :
    taken n early ++ got.flatten <+:
      (early ++ chunks.flatten).drop (if n < 2 ^ 63 then 0 else early.length) := by
  have hflat : got.flatten <+: chunks.flatten := by
    obtain ⟨more, rfl⟩ := hgot
    rw [List.flatten_append]
    exact List.prefix_append _ _
  by_cases hlt : n < 2 ^ 63
  · rw [taken, if_pos hlt] at hlen ⊢
    rw [if_pos hlt, List.drop_zero]
    by_cases hshort : early.length ≤ n
    · rw [List.take_of_length_le hshort]
      exact (List.prefix_append_right_inj early).mpr hflat
    · have hnone : got.flatten = [] := by
        rw [List.length_take] at hlen
        exact List.eq_nil_of_length_eq_zero (by omega)
      rw [hnone, List.append_nil]
      exact (List.take_prefix n early).trans (List.prefix_append _ _)
  · rw [taken, if_neg hlt, if_neg hlt, List.nil_append, List.drop_left]
    exact hflat

private theorem nul_not_mem_taken {t front lost : Str} (h : t = front ++ (lost ++ early))
    (hnul : '\x00' ∉ t) (n : Nat) : '\x00' ∉ taken n early := by
  intro hmem
  rw [h] at hnul
  exact hnul (List.mem_append_right _ (List.mem_append_right _ ((taken_le n early).subset hmem)))

/-- What is read of the body, if one of the reads ends with its last byte. -/
private theorem rduntilBody_taken {n : Nat} {got : List Str} (hbound : n < sizeBound)
    (hclean : '\x00' ∉ taken n early) (hnul : '\x00' ∉ chunks.flatten) (hgot : got <+: chunks)
    (hlen : (taken n early).length + got.flatten.length = n) :
    rduntilBody (cstr (taken n early)) (sizeSub n (taken n early).length) chunks =
      (taken n early ++ got.flatten, 0) := by
  have hsub : sizeSub n (taken n early).length = got.flatten.length :=
    sizeSub_of_add (by omega) hbound
  rw [cstr_eq_self hclean, hsub, rduntilBody_of_exact hnul hgot rfl (by omega)]

/-- A body that gets complete does so with a read that ends with its last byte, if there is too
little to be read for the counter to wrap. -/
private theorem exists_got {n : Nat} {s : Str} (hbound : n < sizeBound)
    (hzero : (rduntilBody s (sizeSub n (taken n early).length) chunks).2 = 0)
    (hfew : chunks.flatten.length < n - (taken n early).length + sizeBound) :
    ∃ got, got <+: chunks ∧ (taken n early).length + got.flatten.length = n := by
  have hle := length_taken_le n early
  have hsub : sizeSub n (taken n early).length = n - (taken n early).length :=
    sizeSub_of_add (by omega) hbound
  obtain ⟨got, hgot, hmod⟩ := (rduntilBody_eq_zero_iff (sizeSub_lt _ _) _ _).mp hzero
  rw [hsub] at hmod
  have hpart : got.flatten.length ≤ chunks.flatten.length := by
    obtain ⟨more, rfl⟩ := hgot
    rw [List.flatten_append, List.length_append]
    exact Nat.le_add_right _ _
  refine ⟨got, hgot, ?_⟩
  rw [show sizeBound = 2 ^ 64 from rfl] at hbound hmod hfew
  omega

/-- The first `lost` of the bytes behind the headers are lost; they are not of the body. -/
theorem following_eq {lost rest : Str}
    (h : lost ++ rest = surplus hdrs ++ if granted then body else [])
    (hlen : body.length ≤ rest.length) : following hdrs body granted lost = rest := by
  have hle : lost.length ≤ (surplus hdrs).length := by
    have hbody : (if granted then body else []).length ≤ body.length := by
      cases granted <;> simp
    have := congrArg List.length h
    simp only [List.length_append] at this
    omega
  rw [following, ← List.drop_append_of_le_length hle, ← h, List.drop_left]

section Turns

variable (hH : Produced cfg.maxLineLen hdrs) (hsize : hdrs.bodySize = body.length)
  {as : List (Chances Unit)} {v : ClientWork}
  (hrun : (relay cfg.maxLineLen (.new hdrs body granted)).run (.new hdrs body granted) as = some v)
  (hm : v.m = .read) (hB : Brings v.sent before a later)

include hH hsize hrun hm hB

/-- A request that is not disturbed is read back. -/
private theorem readsBack_of_undisturbed (W : World ω Ref)
    (h : Undisturbed cfg hdrs body granted (pieces (before ++ [a]))
      ((a :: later).flatMap Chances.bodyChunks)) :
    ReadsBack W cfg world before a later hdrs body := by
  obtain ⟨lost, early, h⟩ := h
  obtain ⟨got, hgot, hlen⟩ := h.ends
  have hn := hH.announced hsize
  have hwire := hB.wire
  -- no byte is a NUL, so what is sent arrives
  have hnul := ClientWork.nul_not_mem_sent hH h.clean hrun hm
  rw [← hwire, List.mem_append, not_or] at hnul
  have hcs := flatten_pieces hnul.1
  rw [ClientWork.sent_eq hH h.fits h.clean hrun hm, ← hcs, h.arrived, List.append_assoc,
    List.append_cancel_left_eq, List.append_assoc] at hwire
  have hfeed := h.passes.feed_eq hH.slotted (fun l hl ↦ hl.1) h.arrived
  have hb := h.passes.bearable hH.slotted (fun l hl ↦ ⟨hl.1, hl.2.2⟩) h.arrived
  have hadmitted : body.length = 0 ∨ cfg.maxReqBody.exceeded body.length = false :=
    h.admitted.imp_left fun hnil ↦ by rw [hnil]; rfl
  refine ⟨?_, ?_⟩
  · rw [inBounds_new_iff world (fun b hb ↦ hB.readStop b (List.mem_append_left _ hb)) hB.heads hb
      hfeed hn]
    exact .inr (.inr h.room)
  · rw [handsFirst_new_iff world hB.readStop hB.bodyStop hB.heads (hB.ends.imp_right And.right)]
    refine ⟨hb, hdrs, early, hfeed, ?_⟩
    rw [framed_eq_some]
    refine ⟨body.length, body, hn, hadmitted, ?_, rfl⟩
    have hclean := nul_not_mem_taken (hcs.symm.trans h.arrived) hnul.1 body.length
    rw [rduntilBody_taken (announcedSize_lt (by decide) hn) hclean hnul.2 hgot hlen]
    have hread := taken_append_le early hgot hlen
    have hrest : following hdrs body granted lost =
        early ++ ((a :: later).flatMap Chances.bodyChunks).flatten := by
      refine following_eq hwire ?_
      have hle := (taken_le body.length early).length_le
      have hgot' : got.flatten.length ≤
          ((a :: later).flatMap Chances.bodyChunks).flatten.length := by
        obtain ⟨more, hmore⟩ := hgot
        rw [← hmore, List.flatten_append, List.length_append]
        exact Nat.le_add_right _ _
      rw [List.length_append]
      omega
    have hbody := h.follows
    rw [hrest] at hbody
    have hsame : (taken body.length early ++ got.flatten).length = body.length := by
      rw [List.length_append, hlen]
    rw [(List.prefix_of_prefix_length_le hread hbody hsame.le).eq_of_length hsame]

/-- A request that is read back was not disturbed. -/
theorem undisturbed_of_readsBack {W : World ω Ref}
    (h : ReadsBack W cfg world before a later hdrs body) :
    Undisturbed cfg hdrs body granted (pieces (before ++ [a]))
      ((a :: later).flatMap Chances.bodyChunks) := by
  obtain ⟨hin, hfirst⟩ := h
  rw [handsFirst_new_iff world hB.readStop hB.bodyStop hB.heads (hB.ends.imp_right And.right)]
    at hfirst
  obtain ⟨hb, hdrs', early, hfeed, hframed⟩ := hfirst
  obtain ⟨n, body', hn, hmax, hread, heq⟩ := framed_eq_some.mp hframed
  cases heq
  obtain rfl : n = body.length := by
    rw [hH.announced hsize] at hn
    cases hn
    rfl
  have hbound := announcedSize_lt (by decide) hn
  have hwire := hB.wire
  generalize (a :: later).flatMap Chances.bodyChunks = chunks at hread hwire ⊢
  have hbody : (rduntilBody (cstr (taken body.length early))
      (sizeSub body.length (taken body.length early).length) chunks).1 = body :=
    congrArg Prod.fst hread
  have hclean : '\x00' ∉ body := by
    rw [← hbody]
    exact nul_not_mem_rduntilBody (nul_not_mem_cstr _) _ _
  -- what is sent has no NUL either
  have hnul := ClientWork.nul_not_mem_sent hH hclean hrun hm
  rw [← hwire, List.mem_append, not_or] at hnul
  have hpieces := flatten_pieces hnul.1
  rw [← hpieces] at hwire
  -- the headers that have been read are there to be read
  have hlong : body.length ≤ early.length + chunks.flatten.length := by
    have hle := length_rduntilBody_le (cstr (taken body.length early))
      (sizeSub body.length (taken body.length early).length) chunks
    have hcut : (cstr (taken body.length early)).length ≤ (taken body.length early).length :=
      (List.takeWhile_prefix _).length_le
    have htaken := (taken_le body.length early).length_le
    rw [hbody] at hle
    omega
  have hsent := ClientWork.length_sent_le hH hclean hrun hm
  rw [← hwire, List.length_append] at hsent
  obtain ⟨hfits, hfew⟩ := fits_of_feed hsent hfeed hlong
  rw [ClientWork.sent_eq hH hfits hclean hrun hm] at hwire
  have hcut : pieces (before ++ [a]) = pieces before ++ [received a.chunks] := by simp [pieces]
  have hcopy : (if granted then body else []).length ≤ body.length := by
    cases granted <;> simp
  have hlens := congrArg List.length hwire
  simp only [List.length_append] at hlens
  obtain ⟨lost, hpasses, -, harrived⟩ := passes_of_feed hH.slotted (fun l hl ↦ hl.1) hB.heads
    (hcut ▸ hwire) (surplus_le hdrs) (hcut ▸ by omega) (hcut ▸ hfeed) (hcut ▸ hb)
  rw [← hcut] at hpasses harrived
  have hrest : following hdrs body granted lost = early ++ chunks.flatten := by
    refine following_eq ?_ (by
      rw [List.length_append]
      exact hlong)
    rw [harrived, List.append_assoc, List.append_cancel_left_eq, List.append_assoc] at hwire
    exact hwire
  have hroom : (taken body.length early).length < cbufsz := by
    have hstop : ∀ b ∈ before, b.readStop ≠ .failed :=
      fun b hb ↦ hB.readStop b (List.mem_append_left _ hb)
    rcases (inBounds_new_iff world hstop hB.heads hb hfeed hn).mp hin with hzero | hlarge | hroom
    · rw [hzero, taken_zero]
      decide
    · rcases hmax with hzero | hmax
      · rw [hzero, taken_zero]
        decide
      · rw [hmax] at hlarge
        cases hlarge
    · exact hroom
  have hzero : (rduntilBody (cstr (taken body.length early))
      (sizeSub body.length (taken body.length early).length) chunks).2 = 0 :=
    congrArg Prod.snd hread
  obtain ⟨got, hgot, hlen⟩ := exists_got hbound hzero (by
    have htaken := (taken_le body.length early).length_le
    have hpos : sizeBound = 2 ^ 64 := rfl
    omega)
  refine ⟨lost, early, hfits, hclean, ?_, hpasses, harrived, hroom, ⟨got, hgot, hlen⟩, ?_⟩
  · exact hmax.imp_left List.eq_nil_of_length_eq_zero
  · have hearly := nul_not_mem_taken (hpieces.symm.trans harrived) hnul.1 body.length
    rw [rduntilBody_taken hbound hearly hnul.2 hgot hlen] at hread
    have hprefix := taken_append_le early hgot hlen
    rw [(Prod.mk.inj hread).1] at hprefix
    rw [hrest]
    exact hprefix

end Turns
end Relayed
/-- For all headers that the parser produces and every body of the length they announce, and in
whatever turns the bytes come that a client work has put on its socket: a server work gets the same
request if and only if it is not disturbed. -/
theorem relayedAs_iff_undisturbed (W : World ω Ref) (cfg : Settings) (world : ω) {hdrs : Hdrs}
    {body : Str} (hH : Produced cfg.maxLineLen hdrs) (hsize : hdrs.bodySize = body.length)
    {granted : Bool} {as : List (Chances Unit)} {v : ClientWork}
    (hrun : (relay cfg.maxLineLen (.new hdrs body granted)).run (.new hdrs body granted) as =
      some v)
    (hm : v.m = .read) {before later : List (Chances ω)} {first : Chances ω}
    (hB : Brings v.sent before first later) :
    ReadsBack W cfg world before first later hdrs body ↔
      Undisturbed cfg hdrs body granted (pieces (before ++ [first]))
        ((first :: later).flatMap Chances.bodyChunks) :=
  ⟨undisturbed_of_readsBack hH hsize hrun hm hB, readsBack_of_undisturbed hH hsize hrun hm hB W⟩

end Line

/-- The headers of a request with a body of five bytes. -/
def postOfFive : Hdrs := hdrsOf ["POST /s HTTP/1.1".toList, "Content-Length: 5".toList]

/-- The text of these headers is parsed. -/
theorem produced_postOfFive : Produced none postOfFive :=
  ⟨"POST /s HTTP/1.1\r\nContent-Length: 5\r\n\r\n".toList, .sound _ 39, by decide, rfl⟩

/-- A turn that brings a chunk for the headers, and chunks for the body. -/
def bringingBoth (chunk : Str) (chunks : List Str) : Chances Unit :=
  { Chances.bringing [chunk] with bodyChunks := chunks }

/-- What is on the socket, with a body of five bytes. -/
theorem sent_postOfFive (body : Str) (hnul : '\x00' ∉ body) :
    ∃ as v, (relay none (.new postOfFive body true)).run (.new postOfFive body true) as = some v ∧
      v.m = .read ∧ v.sent = postOfFive.print ++ (crlf ++ body) := by
  obtain ⟨as, v, hrun, hm⟩ := exists_run_new none postOfFive body true
  have hshort : surplus postOfFive = crlf := by decide +kernel
  refine ⟨as, v, hrun, hm, ?_⟩
  rw [ClientWork.sent_eq produced_postOfFive (by decide +kernel) hnul hrun hm, hshort]
  rfl

/-- What is printed of these headers, up to its last character. -/
def postText : Str := "POST /s HTTP/1.1\r\nContent-Length: 5\r\n\r".toList

private theorem print_postOfFive : postOfFive.print = postText ++ ['\n'] := by decide +kernel

private theorem whole_postText {t : Str} (ht : '\r' ∉ t) :
    Whole ("POST /s HTTP/1.1".toList ++ '\r' :: '\n' :: t) :=
  .line _ _ (by decide) (by decide) (.piece t ht)

/-- The headers come in two turns, the first of which ends within a line, and the body in reads, one
of which ends with its last byte. It looks like what has been added. -/
theorem undisturbed_crlf : Undisturbed .lax postOfFive "\r\n\r\n\r".toList true
    ["POST /s HTTP/1.1\r\nConte".toList, "nt-Length: 5\r\n\r\n".toList]
    ["\r\n".toList, "\r\n\r".toList, "\n\r".toList] := by
  refine ⟨[], [], ?_, by decide, .inr rfl, .whole fun p hp ↦ ?_, ?_, by decide,
    ⟨["\r\n".toList, "\r\n\r".toList], ⟨[_], rfl⟩, by decide⟩, ?_⟩
  · rw [print_postOfFive]
    decide
  · have htwo : Whole ("POST /s HTTP/1.1".toList ++ '\r' :: '\n' ::
        ("Content-Length: 5".toList ++ '\r' :: '\n' :: '\r' :: '\n' :: [])) :=
      .line _ _ (by decide) (by decide) (.line _ _ (by decide) (by decide) (.empty []))
    simp only [List.prefix_cons_iff, List.prefix_nil] at hp
    rcases hp with rfl | ⟨_, rfl, rfl | ⟨_, rfl, rfl⟩⟩
    · exact .piece [] List.not_mem_nil
    · exact whole_postText (t := "Conte".toList) (by decide)
    · exact htwo
  · rw [print_postOfFive]
    rfl
  · rw [following, show surplus postOfFive = crlf by decide +kernel]
    decide

private theorem cut_postText : Cut postOfFive [postText] ["\n\r".toList] where
  empty := by
    rw [print_postOfFive]
    simp
  whole := by
    intro p hp hne
    simp only [List.prefix_cons_iff, List.prefix_nil] at hp
    rcases hp with rfl | ⟨_, rfl, rfl⟩
    · exact .piece [] List.not_mem_nil
    · exact absurd rfl hne
  next := rfl
  late := by
    intro p hp hne
    simp only [List.prefix_cons_iff, List.prefix_nil] at hp
    rcases hp with rfl | ⟨_, rfl, rfl⟩
    · exact List.not_mem_nil
    · exact absurd rfl hne

/-- The headers are cut within the empty line and behind the next carriage return. -/
theorem undisturbed_cut : Undisturbed .lax postOfFive "hello".toList true
    [postText, "\n\r".toList, "\nhe".toList] ["llo".toList] := by
  refine ⟨crlf, "he".toList, ?_, by decide, .inr rfl, ?_, ?_, by decide,
    ⟨["llo".toList], List.prefix_rfl, by decide⟩, ?_⟩
  · rw [print_postOfFive]
    decide
  · exact .cut cut_postText rfl "he".toList
  · rw [print_postOfFive]
    rfl
  · rw [following, show surplus postOfFive = crlf by decide +kernel]
    decide

/-- Turns that bring a request as it was sent. -/
theorem brings_of_undisturbed {body : Str} {v : ClientWork}
    (hv : v.sent = postOfFive.print ++ (crlf ++ body)) {before later : List (Chances Unit)}
    {first : Chances Unit}
    (hsent : ((before ++ [first]).flatMap Chances.chunks).flatten ++
      ((first :: later).flatMap Chances.bodyChunks).flatten = postText ++ '\n' :: (crlf ++ body))
    (hheads : (feed scan .empty [] (pieces before)).isDone = false)
    (hund : Undisturbed .lax postOfFive body true (pieces (before ++ [first]))
      ((first :: later).flatMap Chances.bodyChunks))
    (hstop : ∀ a ∈ before ++ first :: later, a.readStop ≠ .failed ∧ a.bodyStop ≠ .failed) :
    Brings v.sent before first later := by
  obtain ⟨lost, early, h⟩ := hund
  refine ⟨?_, hheads, .inl ?_, ?_, ?_⟩
  · rw [hsent, hv, print_postOfFive]
    simp
  · rw [h.passes.feed_eq produced_postOfFive.slotted (fun l hl ↦ hl.1) h.arrived]
    rfl
  · exact fun a ha ↦ (hstop a (by
      rw [List.mem_append] at ha ⊢
      exact ha.imp_right fun hfirst ↦ List.mem_cons.mpr (.inl (List.mem_singleton.mp hfirst)))).1
  · exact fun a ha ↦ (hstop a (List.mem_append_right _ ha)).2

/-- Two requests that are read back. -/
theorem relayedAs_iff_undisturbed_crlf :
    ReadsBack (World.inert .blank) .lax () [bringingBoth "POST /s HTTP/1.1\r\nConte".toList []]
      (bringingBoth "nt-Length: 5\r\n\r\n".toList ["\r\n".toList])
      [bringingBoth [] ["\r\n\r".toList, "\n\r".toList]] postOfFive "\r\n\r\n\r".toList ∧
    ReadsBack (World.inert .blank) .lax () [bringingBoth postText [], bringingBoth "\n\r".toList []]
      (bringingBoth "\nhe".toList ["llo".toList]) [] postOfFive "hello".toList := by
  constructor
  · obtain ⟨as, v, hrun, hm, hv⟩ := sent_postOfFive "\r\n\r\n\r".toList (by decide)
    have hsize : postOfFive.bodySize = "\r\n\r\n\r".toList.length := by decide +kernel
    have hB : Brings v.sent [bringingBoth "POST /s HTTP/1.1\r\nConte".toList []]
        (bringingBoth "nt-Length: 5\r\n\r\n".toList ["\r\n".toList])
        [bringingBoth [] ["\r\n\r".toList, "\n\r".toList]] := by
      refine brings_of_undisturbed hv rfl ?_ undisturbed_crlf ?_
      · have hone : feed scan .empty [] ["POST /s HTTP/1.1\r\nConte".toList] =
            scan .empty ("POST /s HTTP/1.1".toList ++ '\r' :: '\n' :: "Conte".toList) := by
          rw [feed_singleton]
          rfl
        change (feed scan .empty [] ["POST /s HTTP/1.1\r\nConte".toList]).isDone = false
        rw [hone, scan_line _ (by decide) (by decide), scan_piece _ (by decide)]
        rfl
      · simp [bringingBoth, Chances.bringing]
    exact (relayedAs_iff_undisturbed (World.inert .blank) .lax () produced_postOfFive hsize hrun hm
      hB).mpr undisturbed_crlf
  · obtain ⟨as, v, hrun, hm, hv⟩ := sent_postOfFive "hello".toList (by decide)
    have hsize : postOfFive.bodySize = "hello".toList.length := by decide +kernel
    have hB : Brings v.sent [bringingBoth postText [], bringingBoth "\n\r".toList []]
        (bringingBoth "\nhe".toList ["llo".toList]) [] := by
      refine brings_of_undisturbed hv rfl ?_ undisturbed_cut ?_
      · change (feed scan .empty [] ([postText] ++ ["\n\r".toList])).isDone = false
        rw [feed_append_of_more scan (cut_postText.feed_empty produced_postOfFive.slotted
          fun l hl ↦ hl.1), cut_postText.feed_next]
        rfl
      · simp [bringingBoth, Chances.bringing]
    exact (relayedAs_iff_undisturbed (World.inert .blank) .lax () produced_postOfFive hsize hrun hm
      hB).mpr undisturbed_cut

/-- Five bytes are relayed and arrive at once, and the first two that are read back are not among
them. -/
theorem not_relayedAs_hello : ¬ ∀ (cfg : Settings) (hdrs : Hdrs) (body : Str) (granted : Bool)
    (as : List (Chances Unit)) (v : ClientWork) (before later : List (Chances Unit))
    (first : Chances Unit), Produced cfg.maxLineLen hdrs → hdrs.bodySize = body.length →
      (relay cfg.maxLineLen (.new hdrs body granted)).run (.new hdrs body granted) as = some v →
        v.m = .read → Brings v.sent before first later →
          ReadsBack (World.inert .blank) cfg () before first later hdrs body := by
  intro h
  obtain ⟨as, v, hrun, hm, hv⟩ := sent_postOfFive "hello".toList (by decide)
  have hsize : postOfFive.bodySize = 5 := by decide +kernel
  have hrecv : pieces [bringingBoth (postText ++ "\n\r\nhello".toList) []] =
      [postText ++ "\n\r\nhello".toList] := by decide
  have hdone : (feed scan .empty [] [postText ++ "\n\r\nhello".toList]).isDone = true := by
    have hprint : postText ++ "\n\r\nhello".toList = postOfFive.print ++ "\r\nhello".toList := by
      rw [print_postOfFive]
      rfl
    rw [feed_singleton, List.nil_append, hprint,
      produced_postOfFive.slotted.scan_print fun l hl ↦ hl.1]
    rfl
  have hB : Brings v.sent [] (bringingBoth (postText ++ "\n\r\nhello".toList) []) [] := by
    refine ⟨?_, rfl, .inl ?_, ?_, ?_⟩
    · rw [hv, print_postOfFive]
      rfl
    · rw [List.nil_append, hrecv]
      exact hdone
    · simp [bringingBoth, Chances.bringing]
    · simp [bringingBoth, Chances.bringing]
  obtain ⟨lost, early, hund⟩ := undisturbed_of_readsBack produced_postOfFive hsize hrun hm hB
    (h .lax postOfFive "hello".toList true as v [] [] _ produced_postOfFive hsize hrun hm hB)
  have hfollows := hund.follows
  have hpasses := hund.passes
  rw [List.nil_append, hrecv] at hpasses
  rw [following, show surplus postOfFive = crlf by decide +kernel, if_pos (by decide)] at hfollows
  generalize hcs : [postText ++ "\n\r\nhello".toList] = cs at hpasses
  cases hpasses with
  | whole => exact absurd hfollows (by decide)
  | @cut pre mid hcut =>
    -- there is only one piece
    have hlen := congrArg List.length hcs
    simp only [List.length_append, List.length_singleton] at hlen
    have hmid : mid = [] := List.eq_nil_of_length_eq_zero (by omega)
    have hnext := hcut.next
    rw [hmid] at hnext
    cases hnext

end Filth
