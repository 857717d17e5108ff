import Filth.Http.Segmentation
import Filth.Server.Reading

/-!
# The way of a body

A body gets to `prepare_response` in pieces: what has arrived with the headers is copied from the
stream, what is read afterwards is appended to a string. All copies are made of C strings.
-/

namespace Filth

open Base

/-- A number that is extracted as a `size_t` is one. -/
private theorem extractSize_lt {s : Str} {old : Nat} (hold : old < sizeBound) :
    extractSize s old < sizeBound := by
  unfold extractSize
  have hbound : sizeBound = 2 ^ 64 := rfl
  split
  · exact hold
  · dsimp only
    split
    · omega
    · split
      · exact Nat.mod_lt _ (by decide)
      · omega

theorem announcedSize_lt {line : Str} {old n : Nat} (hold : old < sizeBound)
    (h : announcedSize line old = .ok n) : n < sizeBound := by
  unfold announcedSize at h
  split at h
  · cases h
    exact hold
  · split at h
    · cases h
      exact extractSize_lt hold
    · cases h

/-- If the block is complete, overlong lines of what follows do not count. -/
private theorem not_overlong_append {max : Limit} {h h' : Hdrs} {t rest : Str}
    (hdone : scan h t = .done h' rest) (ho : ¬ Overlong max t) (d : Str) :
    ¬ Overlong max (t ++ d) := by
  induction t using text_induction generalizing h with
  | piece l hl =>
    rw [scan_piece h hl] at hdone
    cases hdone
  | empty rest =>
    intro hd
    exact ((overlong_line max (l := []) List.not_mem_nil).mp hd).1 rfl
  | line l rest hl hne ih =>
    rw [scan_line h hl hne] at hdone
    rw [overlong_line max hl] at ho
    rw [List.append_assoc, List.cons_append, List.cons_append, overlong_line max hl]
    rintro ⟨-, hlong | hd⟩
    · exact ho ⟨hne, .inl hlong⟩
    · exact ih hdone (fun hrest ↦ ho ⟨hne, .inr hrest⟩) hd
  | broken l after hl ha =>
    rw [scan_broken h hl ha] at hdone
    cases hdone

/-- Chunks without NUL arrive as they were sent. -/
theorem received_of_nulFree {chunks : List Str} (h : '\x00' ∉ chunks.flatten) :
    received chunks = chunks.flatten := by
  have hself : ∀ c ∈ chunks, cstr c = c :=
    fun c hc ↦ cstr_eq_self fun hnul ↦ h (List.mem_flatten.mpr ⟨c, hc, hnul⟩)
  rw [received, List.map_congr_left hself, List.map_id']

/-- What is read of a body without NUL, and no more than is left of it, is appended. -/
theorem rduntilBody_of_nulFree {chunks : List Str} (hnul : '\x00' ∉ chunks.flatten) (s : Str)
    {tord : Nat} (hle : chunks.flatten.length ≤ tord) (htord : tord < sizeBound) :
    rduntilBody s tord chunks = (s ++ chunks.flatten, tord - chunks.flatten.length) := by
  induction chunks generalizing s tord with
  | nil => simp [rduntilBody]
  | cons c cs ih =>
    rw [List.flatten_cons, List.length_append] at hle
    rw [List.flatten_cons, List.mem_append, not_or] at hnul
    rw [rduntilBody]
    split
    · next hzero =>
      have hc : c = [] := List.eq_nil_of_length_eq_zero (by omega)
      have hcs : cs.flatten = [] := List.eq_nil_of_length_eq_zero (by omega)
      simp [hc, hcs]
    · rw [cstr_eq_self hnul.1, sizeSub_of_add (b := tord - c.length) (by omega) htord,
        ih hnul.2 _ (by omega) (by omega)]
      simp [Nat.sub_sub]

/-- Nothing with a NUL is appended. -/
theorem nul_not_mem_rduntilBody {s : Str} (hs : '\x00' ∉ s) (tord : Nat) (chunks : List Str) :
    '\x00' ∉ (rduntilBody s tord chunks).1 := by
  induction chunks generalizing s tord with
  | nil => exact hs
  | cons c cs ih =>
    rw [rduntilBody]
    split
    · exact hs
    · apply ih
      rw [List.mem_append, not_or]
      exact ⟨hs, nul_not_mem_cstr c⟩

namespace ServerWork

variable {ω Ref : Type} (W : World ω Ref) (cfg : Settings) {w : ServerWork ω Ref} {a : Chances ω}

/-! ### A NUL is not handed on -/

/-- Apart from what is in the log `L`, every body that has been handed on has no NUL, and so has
the one that is being read. -/
structure NulFree (L : List Deed) (w : ServerWork ω Ref) : Prop where
  inbody : '\x00' ∉ w.inbody
  log : ∀ hdrs body, .prepare hdrs body ∈ w.log → .prepare hdrs body ∈ L ∨ '\x00' ∉ body

variable {L : List Deed}

theorem NulFree.report (h : w.NulFree L) {d : Deed} (hd : ∀ hdrs body, d ≠ .prepare hdrs body) :
    (w.report d).NulFree L := by
  refine ⟨h.inbody, fun hdrs body hmem ↦ ?_⟩
  rcases List.mem_append.mp hmem with hmem | hmem
  · exact h.log hdrs body hmem
  · exact absurd (List.mem_singleton.mp hmem).symm (hd hdrs body)

private theorem nulFree_dropdown (h : w.NulFree L) : (w.dropdown W cfg a).1.NulFree L := by
  obtain ⟨scene, hdrs, body, heq, -⟩ := dropdown_eq W cfg w a
  rw [heq]
  refine ⟨h.inbody, fun hdrs' body' hmem ↦ ?_⟩
  simp only [setOut, ServerWork.report, List.mem_append, List.mem_singleton, reduceCtorEq,
    or_false, Deed.prepare.injEq] at hmem
  rcases hmem with hmem | ⟨-, rfl⟩
  · exact h.log hdrs' body' hmem
  · exact .inr h.inbody

private theorem nulFree_readBody (h : w.NulFree L) : (w.readBody W cfg a).1.NulFree L := by
  have hread : NulFree L { w with
      inbody := (rduntilBody w.inbody w.inbodySz a.bodyChunks).1
      inbodySz := (rduntilBody w.inbody w.inbodySz a.bodyChunks).2 } :=
    ⟨nul_not_mem_rduntilBody h.inbody _ _, h.log⟩
  unfold readBody
  dsimp only
  split
  · exact nulFree_dropdown W cfg hread
  · split <;> exact hread

private theorem nulFree_readInbuf (h : w.NulFree L) : (w.readInbuf W cfg a).1.NulFree L := by
  unfold readInbuf
  split
  · exact h
  · exact nulFree_dropdown W cfg ⟨h.inbody, h.log⟩
  · next n _ =>
    split
    · exact h
    · have hcopied : '\x00' ∉ w.inbody ++ cstr (w.inbuf.read (n + 1)).1 := by
        rw [List.mem_append, not_or]
        exact ⟨h.inbody, nul_not_mem_cstr _⟩
      dsimp only
      split
      · exact nulFree_dropdown W cfg ⟨hcopied, h.log⟩
      · exact nulFree_readBody W cfg ⟨hcopied, h.log⟩

private theorem nulFree_readHdrs (h : w.NulFree L) : (w.readHdrs W cfg a).1.NulFree L := by
  have hread : NulFree L { w with inbuf := rduntil w.inbuf a.chunks } := ⟨h.inbody, h.log⟩
  unfold readHdrs
  dsimp only
  split
  · exact hread
  · generalize parse cfg.maxLineLen _ _ = o
    cases o with
    | error e => exact hread.report nofun
    | ok o =>
      obtain ⟨done, inbuf, hdrs⟩ := o
      have hparsed : NulFree L
          (ServerWork.parsed { w with inbuf := rduntil w.inbuf a.chunks } done inbuf hdrs) :=
        ⟨h.inbody, (hread.report (d := .parse) nofun).log⟩
      rw [afterParse]
      split
      · exact nulFree_readInbuf W cfg hparsed
      · exact hparsed

private theorem nulFree_writeOut (h : w.NulFree L) (hm : w.m = .write) :
    (w.writeOut W cfg a).1.NulFree L := by
  cases hf : w.finishes a with
  | false =>
    obtain ⟨out, done, bytes, e, -, heq⟩ := writeOut_of_not_finishes W cfg hm hf
    rw [heq]
    exact ⟨h.inbody, (h.report (d := .write bytes) nofun).log⟩
  | true =>
    have hfinished : (w.finished a).NulFree L := by
      have hlog := ((h.report (d := .write (wruntil w.out a.sizes).1) nofun).report
        (d := .finish w.inbuf) nofun).log
      refine ⟨h.inbody, fun hdrs body hmem ↦ hlog hdrs body ?_⟩
      simpa [finished, ServerWork.report] using hmem
    rw [writeOut_of_finishes W cfg hf]
    split
    · rw [keepAlive_eq]
      split
      · exact nulFree_readHdrs W cfg ⟨List.not_mem_nil, hfinished.log⟩
      · exact ⟨List.not_mem_nil, hfinished.log⟩
    · exact hfinished

/-- Whatever a turn does. -/
private theorem nulFree_operator (h : w.NulFree L) : (w.operator W cfg a).1.NulFree L := by
  unfold operator
  split
  · split
    · exact nulFree_readBody W cfg h
    · exact nulFree_readHdrs W cfg h
  · next hm => exact nulFree_writeOut W cfg h hm

end ServerWork

/-- The same for a connection. -/
def Conn.NulFree {ω Ref : Type} (L : List Deed) : Conn ω Ref → Prop
  | .live w _ | .deleted w | .crashed w _ => w.NulFree L

private theorem Ending.nulFree_settle {ω Ref : Type} {L : List Deed} {w : ServerWork ω Ref}
    (h : w.NulFree L) (e : Ending) : (e.settle w).NulFree L := by
  unfold settle
  split
  · exact h
  · exact h
  · split <;> exact h
  · split <;> exact h

section Line

variable {ω Ref : Type} {W : World ω Ref} {cfg : Settings} {w : ServerWork ω Ref}

/-- What is handed on in a run of turns has no NUL. -/
private theorem nulFree_run {L : List Deed} {turns : List (Chances ω)} {c c' : Conn ω Ref}
    (hc : c.NulFree L) (h : (assemblyLine W cfg w).run c (turns.map .turn) = some c') :
    c'.NulFree L := by
  induction turns generalizing c with
  | nil =>
    cases h
    exact hc
  | cons a turns ih =>
    rw [List.map_cons, Machine.run_cons] at h
    obtain ⟨c₁, hstep, hrest⟩ := Option.bind_eq_some_iff.mp h
    refine ih ?_ hrest
    rcases assemblyLine_step W cfg hstep with ⟨v, b, rfl, hact, rfl⟩ |
      ⟨v, armed, hdrs, body, granted, -, hact, -⟩
    · exact Ending.nulFree_settle (ServerWork.nulFree_operator W cfg hc) _
    · cases hact

/-! ### A body without NUL -/

/-- The work has the headers and the beginning of a body, and waits for more. -/
structure Receiving (hdrs : Hdrs) (sofar : Str) (left : Nat) (w : ServerWork ω Ref) : Prop where
  m : w.m = .read
  inhdrsDone : w.inhdrsDone = true
  inhdrs : w.inhdrs = hdrs
  inbody : w.inbody = sofar
  inbodySz : w.inbodySz = left
  deleteme : w.deleteme = false

variable {hdrs : Hdrs} {sofar : Str} {left : Nat}

private theorem prepare_mem_dropdown (W : World ω Ref) (cfg : Settings) (w : ServerWork ω Ref)
    (a : Chances ω) : .prepare w.inhdrs w.inbody ∈ (w.dropdown W cfg a).1.log := by
  obtain ⟨scene, hdrs, body, heq, -⟩ := ServerWork.dropdown_eq W cfg w a
  rw [heq]
  simp [ServerWork.setOut, ServerWork.report]

/-- What a reading turn makes of a part of the body: it is handed on if it is the last one, and
waited for the rest otherwise. -/
theorem Receiving.readBody (W : World ω Ref) (cfg : Settings) (h : Receiving hdrs sofar left w)
    {a : Chances ω} (hstop : a.bodyStop ≠ .failed) (hleft : left < sizeBound)
    (hnul : '\x00' ∉ a.bodyChunks.flatten) (hle : a.bodyChunks.flatten.length ≤ left) :
    (a.bodyChunks.flatten.length = left ∧
      .prepare hdrs (sofar ++ a.bodyChunks.flatten) ∈ (w.readBody W cfg a).1.log) ∨
    (a.bodyChunks.flatten.length < left ∧ (w.readBody W cfg a).2 = .rescheduled ∧
      Receiving hdrs (sofar ++ a.bodyChunks.flatten) (left - a.bodyChunks.flatten.length)
        (w.readBody W cfg a).1) := by
  unfold ServerWork.readBody
  rw [h.inbody, h.inbodySz, rduntilBody_of_nulFree hnul sofar hle hleft]
  dsimp only
  split
  · next hzero =>
    refine .inl ⟨by omega, ?_⟩
    rw [← h.inhdrs]
    exact prepare_mem_dropdown W cfg _ a
  · next hmore =>
    refine .inr ⟨by omega, ?_⟩
    exact ⟨rfl, h.m, h.inhdrsDone, h.inhdrs, rfl, rfl, h.deleteme⟩

/-- A turn of such a work reads on. -/
theorem Receiving.step (h : Receiving hdrs sofar left w) {w₀ : ServerWork ω Ref} {a : Chances ω} :
    (assemblyLine W cfg w₀).step (.live w true) (.turn a) =
      some ((w.readBody W cfg a).2.settle (w.readBody W cfg a).1) := by
  have hop : w.operator W cfg a = w.readBody W cfg a := by
    rw [ServerWork.operator, h.m]
    exact if_pos h.inhdrsDone
  rw [← hop]
  rfl

/-- The body is handed on in one of the turns that bring the rest of it. -/
theorem Receiving.run (h : Receiving hdrs sofar left w) (hpos : left ≠ 0)
    (hleft : left < sizeBound) {turns : List (Chances ω)}
    (hstop : ∀ a ∈ turns, a.bodyStop ≠ .failed)
    (hnul : '\x00' ∉ (turns.flatMap Chances.bodyChunks).flatten)
    (hlen : (turns.flatMap Chances.bodyChunks).flatten.length = left) (w₀ : ServerWork ω Ref) :
    ∃ pre c, pre <+: turns ∧
      (assemblyLine W cfg w₀).run (.live w true) (pre.map .turn) = some c ∧
      .prepare hdrs (sofar ++ (turns.flatMap Chances.bodyChunks).flatten) ∈ c.log := by
  induction turns generalizing w sofar left with
  | nil => exact absurd hlen.symm hpos
  | cons a turns ih =>
    rw [List.flatMap_cons, List.flatten_append] at hnul hlen ⊢
    rw [List.mem_append, not_or] at hnul
    rw [List.length_append] at hlen
    have hstep : (assemblyLine W cfg w₀).step (.live w true) (.turn a) = _ := h.step
    rcases h.readBody W cfg (hstop a List.mem_cons_self) hleft hnul.1 (by omega)
      with ⟨hall, hmem⟩ | ⟨hsome, hend, hrest⟩
    · have hnone : (turns.flatMap Chances.bodyChunks).flatten = [] :=
        List.eq_nil_of_length_eq_zero (by omega)
      refine ⟨[a], (w.readBody W cfg a).2.settle (w.readBody W cfg a).1,
        List.cons_prefix_cons.mpr ⟨rfl, List.nil_prefix⟩, ?_, ?_⟩
      · rw [List.map_singleton, Machine.run_cons, hstep]
        rfl
      · rw [hnone, List.append_nil, Ending.log_settle]
        exact hmem
    · obtain ⟨pre, c, hpre, hrun, hmem⟩ := ih hrest (by omega) (by omega)
        (fun b hb ↦ hstop b (List.mem_cons_of_mem a hb)) hnul.2 (by omega)
      refine ⟨a :: pre, c, List.cons_prefix_cons.mpr ⟨rfl, hpre⟩, ?_, ?_⟩
      · rw [List.map_cons, Machine.run_cons, hstep, hend]
        have hlive : Ending.rescheduled.settle (w.readBody W cfg a).1 =
            .live (w.readBody W cfg a).1 true := if_neg (by rw [hrest.deleteme]; nofun)
        rw [hlive]
        exact hrun
      · rwa [← List.append_assoc]

/-- As long as less arrives than the rest of the body, nothing is handed on. -/
private theorem Receiving.log_of_run (h : Receiving hdrs sofar left w) (hleft : left < sizeBound)
    {turns : List (Chances ω)} (hstop : ∀ a ∈ turns, a.bodyStop ≠ .failed)
    (hnul : '\x00' ∉ (turns.flatMap Chances.bodyChunks).flatten)
    (hlt : (turns.flatMap Chances.bodyChunks).flatten.length < left) {w₀ : ServerWork ω Ref}
    {c : Conn ω Ref}
    (hrun : (assemblyLine W cfg w₀).run (.live w true) (turns.map .turn) = some c) :
    c.log = w.log := by
  induction turns generalizing w sofar left with
  | nil =>
    cases hrun
    rfl
  | cons a turns ih =>
    rw [List.flatMap_cons, List.flatten_append] at hnul hlt
    rw [List.mem_append, not_or] at hnul
    rw [List.length_append] at hlt
    rcases h.readBody W cfg (hstop a List.mem_cons_self) hleft hnul.1 (by omega)
      with ⟨hall, -⟩ | ⟨-, hend, hrest⟩
    · omega
    · have hlog : (w.readBody W cfg a).1.log = w.log := by
        unfold ServerWork.readBody
        rw [h.inbody, h.inbodySz, rduntilBody_of_nulFree hnul.1 sofar (by omega) hleft]
        dsimp only
        rw [if_neg (by omega), if_neg (hstop a List.mem_cons_self)]
      have hstep : (assemblyLine W cfg w₀).step (.live w true) (.turn a) =
          some (.live (w.readBody W cfg a).1 true) := by
        rw [h.step, hend, Ending.settle, hrest.deleteme]
        rfl
      rw [List.map_cons, Machine.run_cons, hstep] at hrun
      rw [ih hrest (by omega) (fun b hb ↦ hstop b (List.mem_cons_of_mem a hb)) hnul.2 (by omega)
        hrun, hlog]

/-- When the headers are complete the work receives the body, of which it has got what has been
copied. -/
theorem ServerWork.readInbuf_eq (W : World ω Ref) {v : ServerWork ω Ref} {a : Chances ω} {n : Nat}
    {s early : Str} {p : Nat} (hm : v.m = .read) (hdone : v.inhdrsDone = true)
    (hinbody : v.inbody = []) (hdel : v.deleteme = false) (hin : v.inbuf = .sound s p)
    (hearly : s.drop p = early)
    (hn : announcedSize (v.inhdrs.hdr .contentLength) v.inbodySz = .ok n)
    (hmax : n = 0 ∨ cfg.maxReqBody.exceeded n = false) : ∃ v' : ServerWork ω Ref,
      Receiving v.inhdrs (cstr (taken n early)) (sizeSub n (taken n early).length) v' ∧
      v'.log = v.log ∧ v.readInbuf W cfg a =
        if sizeSub n (taken n early).length = 0 then v'.dropdown W cfg a
        else v'.readBody W cfg a := by
  cases n with
  | zero =>
    have hzero : sizeSub 0 (taken 0 early).length = 0 := by
      rw [taken_zero]
      rfl
    refine ⟨{ v with inbodySz := 0 }, ⟨hm, hdone, rfl, ?_, hzero.symm, hdel⟩, rfl, ?_⟩
    · rw [taken_zero]
      exact hinbody
    · rw [if_pos hzero, ServerWork.readInbuf_of_zero W cfg hn]
  | succ n =>
    have hread : (v.inbuf.read (n + 1)).1 = taken (n + 1) early := by
      rw [hin, IStream.read_sound_fst, hearly]
    refine ⟨{ v with
      inbuf := (v.inbuf.read (n + 1)).2
      inbodySz := sizeSub (n + 1) (taken (n + 1) early).length
      inbody := cstr (taken (n + 1) early) }, ⟨hm, hdone, rfl, rfl, rfl, hdel⟩, rfl, ?_⟩
    have hmax : cfg.maxReqBody.exceeded (n + 1) = false := hmax.resolve_left (Nat.succ_ne_zero n)
    unfold ServerWork.readInbuf
    rw [hn]
    dsimp only
    rw [if_neg (by rw [hmax]; exact Bool.false_ne_true), hread, hinbody]
    rfl

/-- A request with a body is sent to a work that reads headers, and nothing after it: the turn
`first` brings what is missing of the header block and the bytes `early` of the body, and what it
and the turns `later` read of the body are the bytes `late`. -/
structure Uploads (cfg : Settings) (w : ServerWork ω Ref) (first : Chances ω)
    (later : List (Chances ω)) (hdrs : Hdrs) (early late : Str) : Prop where
  m : w.m = .read
  inhdrsDone : w.inhdrsDone = false
  inbody : w.inbody = []
  inbodySz : w.inbodySz = 0
  deleteme : w.deleteme = false
  text : ∃ s p block, w.inbuf = .sound s p ∧ p ≤ s.length ∧ '\x00' ∉ block ∧
    first.chunks.flatten = block ++ early ∧ scan w.inhdrs (s.drop p ++ block) = .done hdrs [] ∧
    ¬ Overlong cfg.maxLineLen (s.drop p ++ block)
  announced : announcedSize (hdrs.hdr .contentLength) 0 = .ok (early ++ late).length
  admitted : cfg.maxReqBody.exceeded (early ++ late).length = false
  bodyChunks : ((first :: later).flatMap Chances.bodyChunks).flatten = late
  readStop : first.readStop ≠ .failed
  bodyStop : ∀ a ∈ first :: later, a.bodyStop ≠ .failed
  unheard : .prepare hdrs (early ++ late) ∉ w.log

/-- In one of the turns the headers and this body are handed on. -/
def HandsOn (W : World ω Ref) (cfg : Settings) (w : ServerWork ω Ref)
    (turns : List (Chances ω)) (hdrs : Hdrs) (body : Str) : Prop :=
  ∃ pre c, pre <+: turns ∧
    (assemblyLine W cfg w).run (.live w true) (pre.map .turn) = some c ∧
    .prepare hdrs body ∈ c.log

variable {first : Chances ω} {later : List (Chances ω)} {early late : Str}

/-- The first turn brings the end of the header block. -/
theorem Uploads.arrives (h : Uploads cfg w first later hdrs early late) (hnul : '\x00' ∉ early) :
    ∃ s p, w.inbuf = .sound s p ∧ p ≤ s.length ∧
      scan w.inhdrs (s.drop p ++ received first.chunks) = .done hdrs early ∧
      ¬ Overlong cfg.maxLineLen (s.drop p ++ received first.chunks) := by
  obtain ⟨s, p, block, hin, hp, hblock, hchunks, hscan, hshort⟩ := h.text
  have hboth : '\x00' ∉ first.chunks.flatten := by
    rw [hchunks, List.mem_append, not_or]
    exact ⟨hblock, hnul⟩
  have hrec : received first.chunks = block ++ early := by
    rw [received_of_nulFree hboth, hchunks]
  refine ⟨s, p, hin, hp, ?_, ?_⟩
  · rw [hrec, ← List.append_assoc]
    exact scan_stable w.inhdrs _ hdrs [] hscan early
  · rw [hrec, ← List.append_assoc]
    exact not_overlong_append hscan hshort early

/-- That completes the headers, and it goes on with the early part of the body. -/
theorem Uploads.readHdrs (h : Uploads cfg w first later hdrs early late)
    (hnul : '\x00' ∉ early) (W : World ω Ref) : ∃ v : ServerWork ω Ref,
      w.operator W cfg first = v.readInbuf W cfg first ∧ v.m = .read ∧ v.inhdrsDone = true ∧
      v.inhdrs = hdrs ∧ v.inbody = [] ∧ v.inbodySz = 0 ∧ v.deleteme = false ∧
      v.log = w.log ++ [Deed.parse] ∧ ∃ s p, v.inbuf = .sound s p ∧ s.drop p = early := by
  obtain ⟨s, p, hin, hp, hdone, ho⟩ := h.arrives hnul
  obtain ⟨p', -, hrest, hread⟩ := ServerWork.readHdrs_eq W cfg hin hp h.readStop ho
  rw [hdone] at hrest hread
  refine ⟨w.parsed true (.sound (s ++ received first.chunks) p') hdrs, ?_, h.m, rfl, rfl, h.inbody,
    h.inbodySz, h.deleteme, rfl, _, p', rfl, hrest⟩
  rw [ServerWork.operator, h.m]
  dsimp only
  rw [h.inhdrsDone]
  exact hread

/-- So the body is received, from the first turn on. -/
theorem Uploads.receives (h : Uploads cfg w first later hdrs early late)
    (hnul : '\x00' ∉ early) (W : World ω Ref) : ∃ v : ServerWork ω Ref,
      Receiving hdrs (taken (early ++ late).length early)
        (sizeSub (early ++ late).length (taken (early ++ late).length early).length) v ∧
      v.log = w.log ++ [Deed.parse] ∧ w.operator W cfg first =
        if sizeSub (early ++ late).length (taken (early ++ late).length early).length = 0 then
          v.dropdown W cfg first
        else v.readBody W cfg first := by
  obtain ⟨v, hop, hm, hdone, hhdrs, hinbody, hsz, hdel, hlog, s, p, hin, hearly⟩ :=
    h.readHdrs hnul W
  have hannounced : announcedSize (v.inhdrs.hdr .contentLength) v.inbodySz =
      .ok (early ++ late).length := by rw [hhdrs, hsz, h.announced]
  obtain ⟨v', hrecv, hlog', hgo⟩ := ServerWork.readInbuf_eq W (a := first) hm hdone hinbody hdel hin
    hearly hannounced (.inr h.admitted)
  have hclean : '\x00' ∉ taken (early ++ late).length early :=
    fun hmem ↦ hnul ((taken_le _ _).subset hmem)
  rw [hhdrs, cstr_eq_self hclean] at hrecv
  exact ⟨v', hrecv, hlog'.trans hlog, hop.trans hgo⟩

/-- Without a NUL the body is handed on as it was sent, if what has arrived with the headers is
copied. -/
theorem Uploads.handsOn (h : Uploads cfg w first later hdrs early late)
    (hnul : '\x00' ∉ early ++ late) (hcopied : taken (early ++ late).length early = early)
    (W : World ω Ref) : HandsOn W cfg w (first :: later) hdrs (early ++ late) := by
  rw [List.mem_append, not_or] at hnul
  obtain ⟨v, hrecv, hlog, hop⟩ := h.receives hnul.1 W
  have hlt := announcedSize_lt (by decide) h.announced
  have hsub : sizeSub (early ++ late).length early.length = late.length :=
    sizeSub_of_add (by rw [List.length_append, Nat.add_comm]) hlt
  rw [hcopied, hsub] at hrecv hop
  have hfirst : (assemblyLine W cfg w).step (.live w true) (.turn first) =
      some ((w.operator W cfg first).2.settle (w.operator W cfg first).1) := rfl
  by_cases hlate : late.length = 0
  · refine ⟨[first], (w.operator W cfg first).2.settle (w.operator W cfg first).1,
      List.cons_prefix_cons.mpr ⟨rfl, List.nil_prefix⟩, ?_, ?_⟩
    · rw [List.map_singleton, Machine.run_cons, hfirst]
      rfl
    · have hmem := prepare_mem_dropdown W cfg v first
      rw [hrecv.inhdrs, hrecv.inbody] at hmem
      rw [Ending.log_settle, hop, if_pos hlate, List.eq_nil_of_length_eq_zero hlate,
        List.append_nil]
      exact hmem
  · obtain ⟨pre, c, hpre, hrun, hmem⟩ := hrecv.run hlate
      (by rw [List.length_append] at hlt; omega) h.bodyStop (by rw [h.bodyChunks]; exact hnul.2)
      (by rw [h.bodyChunks]) w
    rw [h.bodyChunks] at hmem
    cases pre with
    | nil =>
      cases hrun
      simp only [Conn.log, hlog, List.mem_append, List.mem_singleton, reduceCtorEq, or_false] at hmem
      exact absurd hmem h.unheard
    | cons a pre =>
      obtain ⟨ha, hpre'⟩ := List.cons_prefix_cons.mp hpre
      refine ⟨a :: pre, c, hpre, ?_, hmem⟩
      rw [ha, List.map_cons, Machine.run_cons, hrecv.step] at hrun
      rw [ha, List.map_cons, Machine.run_cons, hfirst, hop, if_neg hlate]
      exact hrun

/-- If nothing of what has arrived with the headers is copied, the rest is less than what is waited
for. -/
theorem Uploads.not_handsOn_of_lost (h : Uploads cfg w first later hdrs early late)
    (hnul : '\x00' ∉ early ++ late) (hlost : taken (early ++ late).length early = [])
    (hne : early ≠ []) (W : World ω Ref) :
    ¬ HandsOn W cfg w (first :: later) hdrs (early ++ late) := by
  rw [List.mem_append, not_or] at hnul
  obtain ⟨v, hrecv, hlog, hop⟩ := h.receives hnul.1 W
  have hlt := announcedSize_lt (by decide) h.announced
  have hpos := List.length_pos_of_ne_nil hne
  have hall : sizeSub (early ++ late).length ([] : Str).length = (early ++ late).length :=
    sizeSub_of_add rfl hlt
  rw [hlost, hall] at hrecv hop
  rw [List.length_append] at hrecv hop hlt
  rintro ⟨pre, c, hpre, hrun, hmem⟩
  cases pre with
  | nil =>
    cases hrun
    exact h.unheard hmem
  | cons a pre =>
    obtain ⟨rfl, hpre'⟩ := List.cons_prefix_cons.mp hpre
    have hsome : ((a :: pre).flatMap Chances.bodyChunks).flatten <+: late := by
      rw [← h.bodyChunks]
      obtain ⟨post, hpost⟩ := hpre
      rw [← hpost, List.flatMap_append, List.flatten_append]
      exact List.prefix_append _ _
    have hrun' : (assemblyLine W cfg w).run (.live v true) ((a :: pre).map .turn) = some c := by
      rw [List.map_cons, Machine.run_cons, hrecv.step]
      rw [List.map_cons, Machine.run_cons] at hrun
      change ((some ((w.operator W cfg a).2.settle (w.operator W cfg a).1)).bind _) = _ at hrun
      rwa [hop, if_neg (by omega)] at hrun
    have hlog' := hrecv.log_of_run hlt
      (fun b hb ↦ h.bodyStop b (hpre.subset hb)) (fun hn ↦ hnul.2 (hsome.subset hn))
      (by have := hsome.length_le; omega) hrun'
    rw [hlog', hlog, List.mem_append] at hmem
    rcases hmem with hmem | hmem
    · exact h.unheard hmem
    · cases List.mem_singleton.mp hmem

/-- With a NUL it is not. -/
theorem Uploads.not_handsOn (h : Uploads cfg w first later hdrs early late)
    (hnul : '\x00' ∈ early ++ late) (W : World ω Ref) :
    ¬ HandsOn W cfg w (first :: later) hdrs (early ++ late) := by
  rintro ⟨pre, c, -, hrun, hmem⟩
  have hstart : w.NulFree w.log := by
    refine ⟨?_, fun _ _ hlog ↦ .inl hlog⟩
    rw [h.inbody]
    exact List.not_mem_nil
  have hend : c.NulFree w.log := nulFree_run (c := .live w true) hstart hrun
  have hbody : .prepare hdrs (early ++ late) ∈ w.log ∨ '\x00' ∉ early ++ late := by
    cases c <;> exact ServerWork.NulFree.log hend hdrs (early ++ late) hmem
  rcases hbody with hlog | hfree
  · exact h.unheard hlog
  · exact hfree hnul

/-- The copy of the early part stays within the buffer if that part is shorter, or not copied. -/
theorem Uploads.inBounds_iff (h : Uploads cfg w first later hdrs early late)
    (hnul : '\x00' ∉ early) : InBounds (w.leftover cfg first) ↔
      2 ^ 63 ≤ (early ++ late).length ∨ early.length < cbufsz := by
  obtain ⟨s, p, hin, hp, hscan, ho⟩ := h.arrives hnul
  unfold ServerWork.leftover
  rw [hin, rduntil_sound]
  rw [← List.drop_append_of_le_length hp] at hscan ho
  have hlen : p ≤ (s ++ received first.chunks).length := by
    rw [List.length_append]
    omega
  rw [inBounds_leftover_iff hlen ho hscan (by rw [h.inbodySz]; exact h.announced), h.admitted,
    List.length_append, Nat.min_eq_right (Nat.le_add_right _ _)]
  have hcbuf : cbufsz = 4096 := rfl
  constructor
  · rintro (hzero | hmax | hlong | hlt)
    · exact .inr (by omega)
    · cases hmax
    · exact .inl hlong
    · exact .inr hlt
  · rintro (hlong | hlt)
    · exact .inr (.inr (.inl hlong))
    · exact .inr (.inr (.inr hlt))

private theorem Uploads.inBounds_and_handsOn_iff (h : Uploads cfg w first later hdrs early late)
    (W : World ω Ref) :
    (InBounds (w.leftover cfg first) ∧ HandsOn W cfg w (first :: later) hdrs (early ++ late)) ↔
      '\x00' ∉ early ++ late ∧ early.length < cbufsz ∧
        ((early ++ late).length < 2 ^ 63 ∨ early = []) := by
  by_cases hnul : '\x00' ∈ early ++ late
  · have hnot := h.not_handsOn hnul W
    exact iff_of_false (fun hboth ↦ hnot hboth.2) (fun hboth ↦ hboth.1 hnul)
  · have hearly : '\x00' ∉ early := fun hmem ↦ hnul (List.mem_append_left late hmem)
    rw [h.inBounds_iff hearly]
    by_cases hlong : (early ++ late).length < 2 ^ 63
    · have hcopied : taken (early ++ late).length early = early := by
        rw [taken, if_pos hlong]
        exact List.take_of_length_le (by rw [List.length_append]; omega)
      refine ⟨fun hboth ↦ ⟨hnul, hboth.1.resolve_left (Nat.not_le_of_lt hlong), .inl hlong⟩,
        fun hboth ↦ ⟨.inr hboth.2.1, h.handsOn hnul hcopied W⟩⟩
    · have hlost : taken (early ++ late).length early = [] := if_neg hlong
      by_cases hnone : early = []
      · subst hnone
        exact iff_of_true ⟨.inl (Nat.le_of_not_lt hlong), h.handsOn hnul hlost W⟩
          ⟨hnul, by decide, .inr rfl⟩
      · have hnot := h.not_handsOn_of_lost hnul hlost hnone W
        refine iff_of_false (fun hboth ↦ hnot hboth.2) fun hboth ↦ ?_
        exact hboth.2.2.elim hlong hnone

/-- The work that reads in a turn: the one that has the turn, or what that becomes when it ends a
response in this turn and some of the next request is there. -/
inductive ReadsAs (W : World ω Ref) (a : Chances ω) : ServerWork ω Ref → ServerWork ω Ref → Prop
  | itself (w : ServerWork ω Ref) : ReadsAs W a w w
  | pipelined (w : ServerWork ω Ref) (hf : w.finishes a = true) (hdel : w.deleteme = false)
    (hmore : w.inbuf.ignore.good = true) : ReadsAs W a w ((w.finished a).refreshed W a)

/-- The turn of the one is the turn of the other, and nothing is handed on before it. -/
private theorem ReadsAs.handsOn_iff {v : ServerWork ω Ref} (hw : ReadsAs W first w v)
    (h : Uploads cfg v first later hdrs early late) {body : Str} :
    (.prepare hdrs body ∉ v.log) → (HandsOn W cfg w (first :: later) hdrs body ↔
      HandsOn W cfg v (first :: later) hdrs body) := by
  intro hunheard
  cases hw with
  | itself => exact Iff.rfl
  | pipelined hf hdel hmore =>
    have hop : w.operator W cfg first =
        ((w.finished first).refreshed W first).operator W cfg first := by
      have hm : w.m = .write := by
        simp only [ServerWork.finishes, Bool.decide_and, Bool.and_eq_true, decide_eq_true_eq] at hf
        exact hf.1
      have hwrite : w.operator W cfg first = w.writeOut W cfg first := by
        unfold ServerWork.operator
        rw [hm]
      have hread : ((w.finished first).refreshed W first).operator W cfg first =
          ((w.finished first).refreshed W first).readHdrs W cfg first := by
        unfold ServerWork.operator
        rw [h.m, h.inhdrsDone]
        rfl
      rw [hwrite, hread, ServerWork.writeOut_of_finishes W cfg hf, hdel, ServerWork.keepAlive_eq]
      exact if_pos hmore
    have hstep {w₀ w₁ : ServerWork ω Ref} : (assemblyLine W cfg w₀).step (.live w true)
        (.turn first) = (assemblyLine W cfg w₁).step
          (.live ((w.finished first).refreshed W first) true) (.turn first) := by
      change some ((w.operator W cfg first).2.settle (w.operator W cfg first).1) = _
      rw [hop]
      rfl
    have hbefore : .prepare hdrs body ∉ w.log := fun hmem ↦
      hunheard (List.mem_append_left _ hmem)
    constructor
    · rintro ⟨pre, c, hpre, hrun, hmem⟩
      cases pre with
      | nil =>
        cases hrun
        exact absurd hmem hbefore
      | cons a pre =>
        obtain ⟨rfl, -⟩ := List.cons_prefix_cons.mp hpre
        refine ⟨a :: pre, c, hpre, ?_, hmem⟩
        rw [run_assemblyLine W cfg _ w, List.map_cons, Machine.run_cons]
        rwa [List.map_cons, Machine.run_cons, @hstep _ w] at hrun
    · rintro ⟨pre, c, hpre, hrun, hmem⟩
      cases pre with
      | nil =>
        cases hrun
        exact absurd hmem hunheard
      | cons a pre =>
        obtain ⟨rfl, -⟩ := List.cons_prefix_cons.mp hpre
        refine ⟨a :: pre, c, hpre, ?_, hmem⟩
        rw [run_assemblyLine W cfg _ w, List.map_cons, Machine.run_cons] at hrun
        rwa [List.map_cons, Machine.run_cons, @hstep _ w]

/-- Of a request that is read by a work at its turn, pipelined behind another one or not: the body
that is handed on is the body that was sent, and no copy of it leaves the buffer, if and only if it
has no NUL, less than a buffer full of it arrives with the headers, and a `streamsize` can tell its
length or nothing of it does. -/
theorem transparent_iff (W : World ω Ref) {v : ServerWork ω Ref} (hw : ReadsAs W first w v)
    (h : Uploads cfg v first later hdrs early late) :
    (InBounds (v.leftover cfg first) ∧ HandsOn W cfg w (first :: later) hdrs (early ++ late)) ↔
      '\x00' ∉ early ++ late ∧ early.length < cbufsz ∧
        ((early ++ late).length < 2 ^ 63 ∨ early = []) := by
  rw [hw.handsOn_iff h h.unheard]
  exact h.inBounds_and_handsOn_iff W

/-- A request block with a body of one byte. -/
def putOne : Str := "PUT /a HTTP/1.1\r\nContent-Length: 1\r\n\r\n".toList

/-- The one byte is read after the block. -/
def thenReads (byte : Char) : Chances Unit :=
  { Chances.bringing [putOne] with bodyChunks := [[byte]] }

private theorem uploads_putOne (byte : Char) :
    Uploads .lax (ServerWork.new () : ServerWork Unit Unit) (thenReads byte) []
      ((Hdrs.empty.store "PUT /a HTTP/1.1".toList).store "Content-Length: 1".toList) [] [byte] where
  m := rfl
  inhdrsDone := rfl
  inbody := rfl
  inbodySz := rfl
  deleteme := rfl
  text := by
    have hsplit : putOne = "PUT /a HTTP/1.1".toList ++ '\r' :: '\n' ::
        ("Content-Length: 1".toList ++ '\r' :: '\n' :: '\r' :: '\n' :: []) := rfl
    refine ⟨[], 0, putOne, rfl, Nat.zero_le _, by decide, rfl, ?_, not_overlong_none _⟩
    change scan .empty putOne = _
    rw [hsplit, scan_line _ (by decide) (by decide), scan_line _ (by decide) (by decide), scan_empty]
  announced := by
    rw [List.nil_append, List.length_singleton]
    decide +kernel
  admitted := rfl
  bodyChunks := rfl
  readStop := nofun
  bodyStop := fun a ha ↦ by
    cases List.mem_singleton.mp ha
    nofun
  unheard := List.not_mem_nil

theorem transparent_iff_letter :
    (InBounds ((ServerWork.new () : ServerWork Unit Unit).leftover .lax (thenReads 'a')) ∧
      HandsOn (World.inert .blank) .lax (ServerWork.new ()) [thenReads 'a']
        ((Hdrs.empty.store "PUT /a HTTP/1.1".toList).store "Content-Length: 1".toList) ['a']) ↔
      '\x00' ∉ ([] ++ ['a'] : Str) ∧ ([] : Str).length < cbufsz ∧
        (([] ++ ['a'] : Str).length < 2 ^ 63 ∨ ([] : Str) = []) :=
  transparent_iff (World.inert .blank) (.itself _) (uploads_putOne 'a')

/-- The one byte is a NUL. -/
theorem not_transparent_nul :
    Uploads .lax (ServerWork.new () : ServerWork Unit Unit) (thenReads '\x00') []
      ((Hdrs.empty.store "PUT /a HTTP/1.1".toList).store "Content-Length: 1".toList) []
      ['\x00'] ∧
    ¬ HandsOn (World.inert .blank) .lax (ServerWork.new ()) [thenReads '\x00']
      ((Hdrs.empty.store "PUT /a HTTP/1.1".toList).store "Content-Length: 1".toList) ['\x00'] := by
  have hup := uploads_putOne '\x00'
  exact ⟨hup, hup.not_handsOn (List.mem_singleton_self _) (World.inert .blank)⟩

end Line
end Filth
