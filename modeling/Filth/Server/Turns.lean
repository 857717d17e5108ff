import Filth.Server.Quantum

/-!
# What a turn does

What `HTTP_Server_Work::operator()` makes of a work, by the state that it finds the work in:
whether the headers get complete, whether a response has been written to its end, and whether
the client has sent more.
-/

namespace Filth

open Base

/-- What a list of chunks adds to a stream. -/
def received (chunks : List Str) : Str := (chunks.map cstr).flatten

/-- Chunks are added at the end. -/
theorem rduntil_sound (s : Str) (p : Nat) (chunks : List Str) :
    rduntil (.sound s p) chunks = .sound (s ++ received chunks) p := by
  induction chunks generalizing s with
  | nil => simp [rduntil, received]
  | cons c cs ih =>
    have hstep : rduntil (.sound s p) (c :: cs) = rduntil (.sound (s ++ cstr c) p) cs := rfl
    rw [hstep, ih]
    simp [received]

/-- If the probe for a pipelined request finds a character, giving it back restores the stream. -/
theorem unget_ignore {i : IStream} (h : i.ignore.good = true) :
    i = .sound i.text i.pos ∧ i.rest ≠ [] ∧ i.ignore.unget = i := by
  by_cases hg : i.good = true
  · have hi := IStream.eq_sound_of_good hg
    generalize i.text = s at hi ⊢
    generalize i.pos = p at hi ⊢
    subst hi
    cases hs : s.drop p with
    | nil =>
      exfalso
      simp only [IStream.ignore, IStream.good_sound, IStream.rest_sound, hs, if_true] at h
      cases h
    | cons c rest =>
      refine ⟨rfl, by simp [hs], ?_⟩
      rw [IStream.ignore_sound hs]
      rfl
  · exfalso
    simp only [IStream.ignore, hg, Bool.false_eq_true, if_false] at h
    simp [IStream.good] at h

/-- Every line is stored under the header that it names. -/
def Hdrs.Stored (h : Hdrs) : Prop :=
  ∀ hd, h.hdr hd ≠ [] → ∃ value, Header.extract (h.hdr hd) = some (hd, value)

theorem Hdrs.stored_empty : Hdrs.empty.Stored := fun _ h ↦ absurd rfl h

theorem Hdrs.Stored.store {h : Hdrs} (hs : h.Stored) (line : Str) : (h.store line).Stored := by
  unfold Hdrs.store
  split
  · exact hs
  · split
    · next hd value hline =>
      intro hd' hne
      by_cases heq : hd' = hd
      · subst heq
        simp only [Function.update_self]
        exact ⟨value, hline⟩
      · simp only [Function.update_of_ne heq] at hne ⊢
        exact hs hd' hne
    · exact hs

theorem Hdrs.Stored.scan {h : Hdrs} (hs : h.Stored) (t : Str) : (Filth.scan h t).state.Stored := by
  induction t using text_induction generalizing h with
  | piece l hl => rwa [scan_piece h hl]
  | empty rest => rwa [scan_empty]
  | line l rest hl hne ih =>
    rw [scan_line h hl hne]
    exact ih (hs.store l)
  | broken l after hl ha => rwa [scan_broken h hl ha]

/-- The length that a stored line announces. -/
theorem Hdrs.Stored.announcedSize {h : Hdrs} (hs : h.Stored) (old : Nat) :
    ∃ n, announcedSize (h.hdr .contentLength) old = .ok n := by
  unfold Filth.announcedSize
  split
  · exact ⟨old, rfl⟩
  · next hne =>
    obtain ⟨value, hv⟩ := hs .contentLength hne
    rw [hv]
    exact ⟨_, rfl⟩

/-- The size of the body that a header block announces. -/
def Hdrs.bodySize (h : Hdrs) : Nat := ((announcedSize (h.hdr .contentLength) 0).toOption).getD 0

/-- Nothing gets lost between what is written and what is left. -/
theorem wruntil_append (out : Str) (sizes : List Nat) :
    (wruntil out sizes).1 ++ (wruntil out sizes).2 = out := by
  induction sizes generalizing out with
  | nil => rfl
  | cons n ns ih =>
    rw [wruntil]
    split
    · rfl
    · rw [List.append_assoc, ih, List.take_append_drop]

namespace ServerWork

variable {ω Ref : Type} (W : World ω Ref) (cfg : Settings) {w : ServerWork ω Ref} {a : Chances ω}

/-- Headers that announce no body are all there is of a request. -/
theorem readInbuf_of_zero (h : announcedSize (w.inhdrs.hdr .contentLength) w.inbodySz = .ok 0) :
    w.readInbuf W cfg a = { w with inbodySz := 0 }.dropdown W cfg a := by
  unfold readInbuf
  rw [h]

/-- A body that has arrived with the headers completes a request. -/
theorem readInbuf_of_arrived {n : Nat} (h : announcedSize (w.inhdrs.hdr .contentLength) w.inbodySz =
    .ok (n + 1)) (hmax : cfg.maxReqBody.exceeded (n + 1) = false)
    (hall : (w.inbuf.read (n + 1)).1.length = n + 1) : w.readInbuf W cfg a =
      { w with
        inbuf := (w.inbuf.read (n + 1)).2, inbodySz := 0
        inbody := w.inbody ++ cstr (w.inbuf.read (n + 1)).1 }.dropdown W cfg a := by
  unfold readInbuf
  rw [h]
  dsimp only
  rw [if_neg (by rw [hmax]; decide), hall, sizeSub_self, if_pos rfl]

/-- An overlong line ends the turn. -/
theorem readHdrs_of_overlong {s : Str} {p : Nat} (hw : w.inbuf = .sound s p) (hp : p ≤ s.length)
    (hstop : a.readStop ≠ .failed) (ho : Overlong cfg.maxLineLen (s.drop p ++ received a.chunks)) :
    (w.readHdrs W cfg a).2 = .oops .badRequest := by
  rw [← List.drop_append_of_le_length hp] at ho
  have hp' : p ≤ (s ++ received a.chunks).length := by
    rw [List.length_append]
    omega
  unfold readHdrs
  dsimp only
  rw [if_neg hstop, hw, rduntil_sound, parse_of_overlong hp' _ ho]
  rfl

/-- What the parser does with the text at hand, unless a line is overlong. -/
theorem readHdrs_eq {s : Str} {p : Nat} (hw : w.inbuf = .sound s p) (hp : p ≤ s.length)
    (hstop : a.readStop ≠ .failed) (ho : ¬ Overlong cfg.maxLineLen (s.drop p ++ received a.chunks)) :
    ∃ p' ≤ (s ++ received a.chunks).length, (s ++ received a.chunks).drop p' =
        (scan w.inhdrs (s.drop p ++ received a.chunks)).rest ∧
      w.readHdrs W cfg a =
        if (scan w.inhdrs (s.drop p ++ received a.chunks)).isDone then
          (w.parsed (scan w.inhdrs (s.drop p ++ received a.chunks)).isDone
            (.sound (s ++ received a.chunks) p')
            (scan w.inhdrs (s.drop p ++ received a.chunks)).state).readInbuf W cfg a
        else (w.parsed (scan w.inhdrs (s.drop p ++ received a.chunks)).isDone
            (.sound (s ++ received a.chunks) p')
            (scan w.inhdrs (s.drop p ++ received a.chunks)).state, .rescheduled) := by
  have hdrop : (s ++ received a.chunks).drop p = s.drop p ++ received a.chunks :=
    List.drop_append_of_le_length hp
  rw [← hdrop] at ho ⊢
  have hp' : p ≤ (s ++ received a.chunks).length := by
    rw [List.length_append]
    omega
  obtain ⟨q, hq, hrest, hparse⟩ := parse_eq_scan hp' w.inhdrs ho
  refine ⟨q, hq, hrest, ?_⟩
  rw [← rduntil_sound, ← hw] at hparse
  unfold readHdrs
  dsimp only [inhdrs] at hparse ⊢
  rw [if_neg hstop, hparse]
  rfl

/-- The response to a request will be written to its end in this turn. -/
def finishes (w : ServerWork ω Ref) (a : Chances ω) : Bool :=
  w.m = .write ∧ (wruntil w.out a.sizes).2 = [] ∧ w.outhdrsDone ∧ !w.scene.nosch

/-- The work when the response has been written. -/
def finished (w : ServerWork ω Ref) (a : Chances ω) : ServerWork ω Ref :=
  { w with out := [], log := w.log ++ [.write (wruntil w.out a.sizes).1, .finish w.inbuf] }

/-- The work after a reset, about to read what is left of the stream. -/
def refreshed (w : ServerWork ω Ref) (a : Chances ω) : ServerWork ω Ref :=
  { { w with scene := { w.scene with world := a.resetWorld } }.reset W with m := .read }

/-- The next request is read at once if there is a character left. -/
theorem keepAlive_eq (w : ServerWork ω Ref) (a : Chances ω) : w.keepAlive W cfg a =
    if w.inbuf.ignore.good then (w.refreshed W a).readHdrs W cfg a
    else ({ w.refreshed W a with inbuf := .new [] }, .rescheduled) := by
  unfold keepAlive
  dsimp only
  change (if w.inbuf.ignore.good then
    readHdrs W cfg { w.refreshed W a with inbuf := w.inbuf.ignore.unget } a else _) = _
  by_cases hg : w.inbuf.ignore.good = true
  · rw [if_pos hg, if_pos hg, (unget_ignore hg).2.2]
    rfl
  · rw [if_neg hg, if_neg hg]
    rfl

/-- A turn that writes and leaves something to be done goes no further. -/
theorem writeOut_of_not_finishes (hm : w.m = .write) (hf : w.finishes a = false) :
    ∃ out outhdrsDone bytes e, e.escapes = false ∧ w.writeOut W cfg a =
      ({ w with out, outhdrsDone, log := w.log ++ [.write bytes] }, e) := by
  unfold writeOut
  dsimp only
  split
  · exact ⟨_, w.outhdrsDone, _, _, by split <;> rfl, rfl⟩
  · next hout =>
    split
    · exact ⟨_, true, _, _, rfl, rfl⟩
    · next hdone =>
      split
      · exact ⟨_, w.outhdrsDone, _, _, rfl, rfl⟩
      · next hnosch =>
        simp_all [finishes]

/-- A turn that writes the end of a response. -/
theorem writeOut_of_finishes (hf : w.finishes a = true) : w.writeOut W cfg a =
    if !w.deleteme then (w.finished a).keepAlive W cfg a else (w.finished a, .silent) := by
  simp only [finishes, Bool.decide_and, Bool.and_eq_true, decide_eq_true_eq,
    Bool.not_eq_true'] at hf
  obtain ⟨-, hout, hdone, hnosch⟩ := hf
  unfold writeOut
  simp [hout, hdone, hnosch, report, deleteme, finished]

/-! ### A turn, step by step -/

/-- What happens in a turn, one thing after the other. -/
inductive Step (a : Chances ω) : ServerWork ω Ref → ServerWork ω Ref → Prop
  | fill (w : ServerWork ω Ref) (inbuf inbody inbodySz) :
    Step a w { w with inbuf, inbody, inbodySz }
  | parse (w : ServerWork ω Ref) (done inbuf hdrs) : Step a w (w.parsed done inbuf hdrs)
  | refuse (w : ServerWork ω Ref) : Step a w (w.report .parse)
  | respond (w : ServerWork ω Ref) : Step a w (w.dropdown W cfg a).1
  | write (w : ServerWork ω Ref) (out outhdrsDone bytes) :
    Step a w { w with out, outhdrsDone, log := w.log ++ [.write bytes] }
  | finish (w : ServerWork ω Ref) : Step a w (w.finished a)
  | forget (w : ServerWork ω Ref) (inbuf) : Step a w { w.refreshed W a with inbuf }

open Relation

private theorem steps_readBody : ReflTransGen (Step W cfg a) w (w.readBody W cfg a).1 := by
  have hfill : ReflTransGen (Step W cfg a) w { w with
      inbody := (rduntilBody w.inbody w.inbodySz a.bodyChunks).1
      inbodySz := (rduntilBody w.inbody w.inbodySz a.bodyChunks).2 } :=
    .single (.fill w w.inbuf _ _)
  unfold readBody
  dsimp only
  split
  · exact hfill.tail (.respond _)
  · split <;> exact hfill

private theorem steps_readInbuf : ReflTransGen (Step W cfg a) w (w.readInbuf W cfg a).1 := by
  unfold readInbuf
  split
  · exact .refl
  · exact .tail (.single (.fill w w.inbuf w.inbody 0)) (.respond _)
  · next n _ =>
    split
    · exact .refl
    · have hfill : ReflTransGen (Step W cfg a) w { w with
          inbuf := (w.inbuf.read (n + 1)).2
          inbodySz := sizeSub (n + 1) (w.inbuf.read (n + 1)).1.length
          inbody := w.inbody ++ cstr (w.inbuf.read (n + 1)).1 } := .single (.fill w _ _ _)
      dsimp only
      split
      · exact hfill.tail (.respond _)
      · exact hfill.trans (steps_readBody W cfg)

private theorem steps_readHdrs : ReflTransGen (Step W cfg a) w (w.readHdrs W cfg a).1 := by
  have hfill : ReflTransGen (Step W cfg a) w { w with inbuf := rduntil w.inbuf a.chunks } :=
    .single (.fill w _ w.inbody w.inbodySz)
  unfold readHdrs
  dsimp only
  split
  · exact hfill
  · generalize parse cfg.maxLineLen _ _ = o
    cases o with
    | error e => exact hfill.tail (.refuse _)
    | ok o =>
      obtain ⟨done, inbuf, hdrs⟩ := o
      rw [afterParse]
      split
      · exact (hfill.tail (.parse _ done inbuf hdrs)).trans (steps_readInbuf W cfg)
      · exact hfill.tail (.parse _ done inbuf hdrs)

theorem steps_keepAlive : ReflTransGen (Step W cfg a) w (w.keepAlive W cfg a).1 := by
  rw [keepAlive_eq]
  split
  · exact .trans (.single (.forget w w.inbuf)) (steps_readHdrs W cfg (w := w.refreshed W a))
  · exact .single (.forget w (.new []))

/-- A turn is a sequence of such steps. -/
theorem steps_operator : ReflTransGen (Step W cfg a) w (w.operator W cfg a).1 := by
  unfold operator
  split
  · split
    · exact steps_readBody W cfg
    · exact steps_readHdrs W cfg
  · next hm =>
    cases hf : w.finishes a with
    | false =>
      obtain ⟨out, done, bytes, e, -, heq⟩ := writeOut_of_not_finishes W cfg hm hf
      rw [heq]
      exact .single (.write w out done bytes)
    | true =>
      rw [writeOut_of_finishes W cfg hf]
      split
      · exact .trans (.single (.finish w)) (steps_keepAlive W cfg)
      · exact .single (.finish w)

/-- What all steps of a turn keep, the turn keeps. -/
theorem keeps_of_steps {I : ServerWork ω Ref → Prop}
    (h : ∀ w w', Step W cfg a w w' → I w → I w') {w w' : ServerWork ω Ref}
    (hsteps : ReflTransGen (Step W cfg a) w w') (hw : I w) : I w' := by
  induction hsteps with
  | refl => exact hw
  | tail _ hstep ih => exact h _ _ hstep ih

/-- A step only adds to the log. -/
theorem Step.log {w' : ServerWork ω Ref} (h : Step W cfg a w w') : w.log <+: w'.log := by
  cases h with
  | fill | forget => exact List.prefix_refl _
  | parse | refuse | write | finish => exact List.prefix_append _ _
  | respond =>
    obtain ⟨scene, hdrs, body, heq, -⟩ := dropdown_eq W cfg w a
    rw [heq]
    exact (List.prefix_append _ _).trans (List.prefix_append _ _)

theorem log_of_steps {w' : ServerWork ω Ref} (h : ReflTransGen (Step W cfg a) w w') :
    w.log <+: w'.log :=
  keeps_of_steps W cfg (I := fun w' ↦ w.log <+: w'.log) (fun _ _ hm hw ↦ hw.trans (Step.log W cfg hm))
    h (List.prefix_refl _)

end ServerWork
end Filth
