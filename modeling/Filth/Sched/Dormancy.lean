import Filth.Sched.System

/-!
# Dormant works

A server work that has `nosch` set and for which no reschedule is outstanding runs again only if
the client work that refers to it delivers its response.
-/

namespace Filth.Sched

open Base

/-- A server work that has not been deleted and has `nosch` set. -/
def Work.Awaits (w : Work) : Prop := w.deleted = false ∧ w.nosch = true

/-- A client work that has not been deleted, and so not delivered its response, and that refers to
the work at the address. -/
def Work.Fetches (w : Work) (a : Addr) : Prop := w.deleted = false ∧ w.kind = .client a

instance (w : Work) : Decidable w.Awaits := inferInstanceAs (Decidable (_ ∧ _))

instance (w : Work) (a : Addr) : Decidable (w.Fetches a) := inferInstanceAs (Decidable (_ ∧ _))

/-- Clients have no `nosch`. -/
theorem Work.Fetches.setNosch {w : Work} {a : Addr} (h : w.Fetches a) (nosch : Bool) :
    (w.setNosch nosch).Fetches a := by
  unfold Work.setNosch
  rw [h.2]
  exact h

private theorem Work.nosch_setNosch (w : Work) : (w.setNosch false).nosch = false := by
  cases hkind : w.kind <;> simp [Work.setNosch, Work.nosch, hkind]

namespace Sys

variable {T : Type}

/-- The server work at the address waits. -/
def Awaiting (s : Sys T) (a : Addr) : Prop := ∃ w, s.works[a]? = some w ∧ w.Awaits

/-- The work at the first address is a client of that at the second. -/
def Fetching (s : Sys T) (b a : Addr) : Prop := ∃ w, s.works[b]? = some w ∧ w.Fetches a

instance (s : Sys T) (a : Addr) : Decidable (s.Awaiting a) :=
  inferInstanceAs (Decidable (∃ w ∈ s.works[a]?, w.Awaits))

instance (s : Sys T) (b a : Addr) : Decidable (s.Fetching b a) :=
  inferInstanceAs (Decidable (∃ w ∈ s.works[b]?, w.Fetches a))

private theorem Awaiting.lt {s : Sys T} {a : Addr} (h : s.Awaiting a) : a < s.works.length := by
  obtain ⟨w, hw, -⟩ := h
  exact (List.getElem?_eq_some_iff.mp hw).1

private theorem Fetching.lt {s : Sys T} {b a : Addr} (h : s.Fetching b a) : b < s.works.length := by
  obtain ⟨w, hw, -⟩ := h
  exact (List.getElem?_eq_some_iff.mp hw).1

/-- Nothing that is under way leads to the execution of the work: its descriptor is not armed, no
event of it is left to be handled, and neither the job queue nor a worker has it. -/
structure Idle (s : Sys T) (a : Addr) (fd : Fd) : Prop where
  armed : ∀ m, s.fds fd ≠ .armed m
  batch : fd ∉ s.crew.batch.filterMap Event.conn
  jobq : ∀ n, (n, some a) ∉ s.crew.jobq
  hands : ∀ t, s.crew.job t ≠ some a

/-- Every dormant work can be woken up. -/
def Wakeable (s : Sys T) : Prop :=
  ∀ a w, s.works[a]? = some w → w.Awaits → s.Idle a w.fd → ∃ b, s.Fetching b a

/-- So can every work that waits, dormant or not. -/
def AllHeard (s : Sys T) : Prop := ∀ a, s.Awaiting a → ∃ b, s.Fetching b a

private theorem AllHeard.wakeable {s : Sys T} (h : s.AllHeard) : s.Wakeable :=
  fun a w hw hawaits _ ↦ h a ⟨w, hw, hawaits⟩

/-- If the work is the client of one that waits, it is not the only one. -/
def Spared (s : Sys T) (b : Addr) : Prop :=
  ∀ a, s.Fetching b a → s.Awaiting a → ∃ c, c ≠ b ∧ s.Fetching c a

instance (s : Sys T) (b : Addr) : Decidable (s.Spared b) :=
  decidable_of_iff (∀ a < s.works.length, s.Fetching b a → s.Awaiting a →
      ∃ c < s.works.length, c ≠ b ∧ s.Fetching c a) <| by
    constructor
    · intro h a hb ha
      obtain ⟨c, -, hc⟩ := h a ha.lt hb ha
      exact ⟨c, hc⟩
    · intro h a _ hb ha
      obtain ⟨c, hcb, hc⟩ := h a hb ha
      exact ⟨c, hc.lt, hcb, hc⟩

variable {s s' : Sys T} {a b c : Addr} {w : Work}

/-! ### What single operations keep -/

/-- No more works wait, and no clients go. -/
theorem AllHeard.of_le (h : s.AllHeard) (hawait : ∀ a, s'.Awaiting a → s.Awaiting a)
    (hfetch : ∀ a b, s.Fetching b a → s'.Fetching b a) : s'.AllHeard := by
  intro a ha
  obtain ⟨b, hb⟩ := h a (hawait a ha)
  exact ⟨b, hfetch a b hb⟩

theorem Fetching.append (h : s.Fetching b a) (hs : s'.works = s.works ++ [w]) :
    s'.Fetching b a := by
  obtain ⟨v, hv, hfetch⟩ := h
  exact ⟨v, Sys.works_concat hs hv, hfetch⟩

/-- A new work waits for nothing if it has no `nosch` set. -/
theorem Awaiting.of_append (h : s'.Awaiting a) (hs : s'.works = s.works ++ [w])
    (hw : w.nosch = false) : s.Awaiting a := by
  obtain ⟨v, hv, hawaits⟩ := h
  rcases Sys.works_of_concat hs hv with hold | ⟨-, rfl⟩
  · exact ⟨v, hold, hawaits⟩
  · cases hw.symm.trans hawaits.2

theorem AllHeard.findWork (h : s.AllHeard) (fd : Fd) : (s.findWork fd).2.AllHeard := by
  unfold Sys.findWork
  split
  · exact h
  · exact h.of_le (fun a ha ↦ ha.of_append rfl rfl) (fun a b hb ↦ hb.append rfl)

/-- Clients stay clients when a work is changed in other respects. -/
theorem Fetching.modify (h : s.Fetching c a) {f : Work → Work}
    (hf : ∀ w, w.Fetches a → (f w).Fetches a) : (s.modify b f).Fetching c a := by
  obtain ⟨w, hw, hfetch⟩ := h
  by_cases hbc : b = c
  · refine ⟨f w, ?_, hf w hfetch⟩
    simp [Sys.modify, hbc, hw]
  · refine ⟨w, ?_, hfetch⟩
    simp [Sys.modify, hbc, hw]

/-- What waits after a change has waited before, or is what has been changed. -/
theorem Awaiting.of_modify {f : Work → Work} (h : (s.modify b f).Awaiting a) :
    s.Awaiting a ∧ b ≠ a ∨ b = a ∧ ∃ w, s.works[a]? = some w ∧ (f w).Awaits := by
  obtain ⟨v, hv, hawaits⟩ := h
  rw [Sys.modify, List.getElem?_modify] at hv
  obtain ⟨w, hw, rfl⟩ := Option.map_eq_some_iff.mp hv
  by_cases hba : b = a
  · rw [if_pos hba] at hawaits
    exact .inr ⟨hba, w, hw, hawaits⟩
  · rw [if_neg hba] at hawaits
    exact .inl ⟨⟨w, hw, hawaits⟩, hba⟩

theorem AllHeard.modify (h : s.AllHeard) {f : Work → Work}
    (hdel : ∀ w, (f w).deleted = w.deleted) (hkind : ∀ w, (f w).kind = w.kind) :
    (s.modify b f).AllHeard := by
  refine h.of_le (fun a ha ↦ ?_) fun a c hc ↦ hc.modify fun w hw ↦ ?_
  · rcases ha.of_modify with ⟨hold, -⟩ | ⟨-, w, hw, hawaits⟩
    · exact hold
    · refine ⟨w, hw, (hdel w).symm.trans hawaits.1, ?_⟩
      have hnosch := hawaits.2
      unfold Work.nosch at hnosch ⊢
      rwa [hkind] at hnosch
  · exact ⟨(hdel w).trans hw.1, (hkind w).trans hw.2⟩

/-- Deletion concerns the one work. -/
theorem Fetching.delete (h : s.Fetching b c) (hab : a ≠ b) : (s.delete a).Fetching b c := by
  obtain ⟨w, hw, hfetch⟩ := h
  exact ⟨w, (Sys.works_delete_of_ne hab).trans hw, hfetch⟩

theorem Awaiting.of_delete (h : (s.delete a).Awaiting b) : s.Awaiting b ∧ a ≠ b := by
  obtain ⟨w, hw, hawaits⟩ := h
  obtain ⟨hold, hab⟩ := Sys.works_of_delete hw hawaits.1
  exact ⟨⟨w, hold, hawaits⟩, hab⟩

/-- A work may be deleted if it is not the only one that another waits for. -/
theorem AllHeard.delete (h : s.AllHeard) (hspared : s.Spared b) : (s.delete b).AllHeard := by
  intro a ha
  obtain ⟨hold, -⟩ := ha.of_delete
  obtain ⟨c, hc⟩ := h a hold
  by_cases hbc : b = c
  · subst hbc
    obtain ⟨d, hne, hd⟩ := hspared a hc hold
    exact ⟨d, hd.delete (Ne.symm hne)⟩
  · exact ⟨c, hc.delete hbc⟩

/-- The new client work is that of the work that relays, which is going to wait. -/
theorem AllHeard.relayed (h : s.AllHeard) (a : Addr) (fd : Fd) : (s.relayed a fd).AllHeard := by
  obtain ⟨s₁, hs₁⟩ : ∃ s₁, s₁ = ({ s with
    works := s.works ++ [Work.new fd .write (.client a)]
    fds := Function.update s.fds fd .unwatched } : Sys T).registerAlien fd s.works.length :=
    ⟨_, rfl⟩
  have hworks : s₁.works = s.works ++ [Work.new fd .write (.client a)] := by
    rw [hs₁]
    unfold Sys.registerAlien
    split <;> rfl
  have hnew : s₁.Fetching s.works.length a := by
    refine ⟨Work.new fd .write (.client a), ?_, rfl, rfl⟩
    rw [hworks]
    exact List.getElem?_concat_length
  intro c hc
  have heq : s.relayed a fd = s₁.modify a (Work.setNosch · true) := by rw [hs₁]; rfl
  rw [heq] at hc ⊢
  by_cases hac : a = c
  · subst hac
    exact ⟨s.works.length, hnew.modify fun w hw ↦ hw.setNosch true⟩
  · rcases hc.of_modify with ⟨hold, -⟩ | ⟨hsame, -⟩
    · obtain ⟨b, hb⟩ := h c (hold.of_append hworks rfl)
      exact ⟨b, (hb.append hworks).modify fun w hw ↦ hw.setNosch true⟩
    · exact absurd hsame hac

/-- The client work is deleted, and the work that waited for it waits no longer. -/
theorem AllHeard.delivered (h : s.AllHeard) (hw : s.works[a]? = some w) (hkind : w.kind = .client b)
    (fd : Fd) : (s.delivered a fd b).AllHeard := by
  have h₁ : (s.unregister fd).AllHeard := h
  intro c hc
  rcases Awaiting.of_modify (s := (s.unregister fd).delete a) hc with ⟨hold, hbc⟩ | ⟨rfl, v, -, hv⟩
  · obtain ⟨hold, -⟩ := hold.of_delete
    obtain ⟨d, hd⟩ := h₁ c hold
    have had : a ≠ d := by
      rintro rfl
      obtain ⟨v, hv, hfetch⟩ := hd
      cases hw.symm.trans hv
      cases hkind.symm.trans hfetch.2
      exact hbc rfl
    exact ⟨d, (hd.delete had).modify fun w hw ↦ hw.setNosch false⟩
  · cases (Work.nosch_setNosch v).symm.trans hv.2

/-! ### The works of the map are deleted -/

/-- Every dormant work is in the map. -/
def AllMapped (s : Sys T) : Prop :=
  ∀ a, s.Awaiting a → a ∈ s.wmap.entries.map Sigma.snd

instance (s : Sys T) : Decidable s.AllMapped :=
  decidable_of_iff (∀ a < s.works.length, s.Awaiting a → a ∈ s.wmap.entries.map Sigma.snd)
    ⟨fun h a ha ↦ h a ha.lt ha, fun h a _ ↦ h a⟩

/-- Whatever is deleted waits no longer. -/
theorem Awaiting.of_foldl {as : List Addr} (h : (as.foldl Sys.delete s).Awaiting a) :
    s.Awaiting a ∧ a ∉ as := by
  obtain ⟨w, hw, hawaits⟩ := h
  obtain ⟨hold, hnot⟩ := Sys.works_of_foldl_delete hw hawaits.1
  exact ⟨⟨w, hold, hawaits⟩, hnot⟩

private theorem AllMapped.allHeard_clear (h : s.AllMapped) : s.clear.AllHeard := by
  intro a ha
  have ha' : ((s.wmap.entries.map Sigma.snd).foldl Sys.delete s).Awaiting a := ha
  obtain ⟨hold, hnot⟩ := ha'.of_foldl
  exact absurd (h a hold) hnot

end Sys

/-- The step deletes no client work that another work waits for, and the map is destroyed with all
works that wait in it. -/
def SysAct.Spares {T : Type} (s : Sys T) : SysAct T → Prop
  | .handle => ∀ fd, s.crew.batch.head? = some (.hangup fd) →
    (s.findWork fd).2.Spared (s.findWork fd).1
  | .delete t => ∀ a, s.at? t .doomed = some a → s.Spared a
  | .clear => s.AllMapped
  | _ => True

instance {T : Type} (s : Sys T) (a : SysAct T) : Decidable (a.Spares s) :=
  match a with
  | .handle =>
    match h : s.crew.batch.head? with
    | some (.hangup fd) => decidable_of_iff ((s.findWork fd).2.Spared (s.findWork fd).1)
        ⟨fun hspared fd' hfd' ↦ by cases h.symm.trans hfd'; exact hspared, fun hall ↦ hall fd h⟩
    | some (.ready _) | some .callback | none => isTrue fun fd' hfd' ↦ by cases h.symm.trans hfd'
  | .delete t => inferInstanceAs (Decidable (∀ a ∈ s.at? t .doomed, s.Spared a))
  | .clear => inferInstanceAs (Decidable s.AllMapped)
  | .report _ | .callback _ | .check | .next | .leave | .halt | .pill | .take _ | .putBack _
  | .call _ | .relay .. | .leak .. | .reschedule .. | .sleep _ | .fail _ | .deliver _ | .resume _
  | .ret _ | .test _ => isTrue trivial

section Step

variable {T : Type} {s s' : Sys T} {a : SysAct T}

private theorem allHeard_of_schedule {b : Addr} (h : s.AllHeard) (hs : s.schedule b = some s') :
    s'.AllHeard := by
  obtain ⟨w, -, -, rfl⟩ := Sys.schedule_eq_some hs
  exact h

private theorem allHeard_of_reschedule {b : Addr} (h : s.AllHeard) (hs : s.reschedule b = some s') :
    s'.AllHeard := by
  obtain ⟨w, -, -, -, rfl⟩ := Sys.reschedule_eq_some hs
  exact h

variable [DecidableEq T]

/-- One step that spares the clients. -/
private theorem allHeard_step (h : s.AllHeard) (hspares : a.Spares s) (hm : Sys.Moves s a s') :
    s'.AllHeard := by
  cases hm with
  | crew | report | callback | call | leak | sleep | ret | doom | keep => exact h
  | @accept fd crew _ hb hfd hcrew hs =>
    have hopen : ({ s with crew, fds := Function.update s.fds fd .unwatched } : Sys T).AllHeard := h
    exact allHeard_of_schedule (hopen.findWork fd) hs
  | @hangup fd crew hb hcrew =>
    have h' : ({ s with crew } : Sys T).AllHeard := h
    apply (h'.findWork fd).delete
    have hone := hspares fd hb
    unfold Sys.findWork at hone ⊢
    dsimp only
    split at hone <;> exact hone
  | @ready fd crew hb hcrew => exact h.findWork fd
  | relay ha hw hserver hfd hs => exact allHeard_of_schedule (h.relayed _ _) hs
  | @reschedule t m deleteme b w _ ha hw hserver hs =>
    have hleft : (s.leaving b m deleteme).AllHeard := h.modify (fun _ ↦ rfl) fun _ ↦ rfl
    have h₁ := allHeard_of_reschedule hleft hs
    exact h₁
  | @fail t b ha => exact h.modify (b := b) (fun _ ↦ rfl) fun _ ↦ rfl
  | deliver ha hw hclient hs =>
    have h₁ := allHeard_of_reschedule (h.delivered hw hclient _) hs
    exact h₁
  | resume ha hs =>
    have h₁ := allHeard_of_reschedule h hs
    exact h₁
  | @delete t b crew ha hcrew => exact h.delete (hspares b ha)
  | clear => exact hspares.allHeard_clear

end Step

/-- In a run whose steps spare the clients every dormant work can be woken up, at any time. -/
theorem wakeable_of_spares {T : Type} [Fintype T] [DecidableEq T] {acts : List (SysAct T)}
    (h : (system T).AllSteps (fun s a ↦ a.Spares s) .new acts) :
    (system T).AllStates Sys.Wakeable .new acts := by
  have hstart : (Sys.new : Sys T).AllHeard := by
    rintro a ⟨w, hw, -⟩
    cases hw
  have hall : (system T).AllStates Sys.AllHeard .new acts := by
    refine Machine.AllSteps.allStates _ ?_ hstart h
    exact fun s a s' hs hspares hstep ↦ allHeard_step hs hspares (Sys.step_moves hstep)
  exact hall.imp _ fun s ↦ Sys.AllHeard.wakeable

/-- A request is handed on to a resource, and its work goes to sleep; another connection comes and
hangs up; the resource delivers. -/
def awakened : List (SysAct Unit) :=
  [.report [.callback], .callback (some 5), .check, .next, .report [.ready 5], .handle, .check,
    .next, .take (), .call (), .relay () 6, .reschedule () .write false, .ret (), .test (),
    .report [.ready 5], .handle, .check, .next, .take (), .call (), .sleep (), .test (),
    .report [.callback], .callback (some 7), .check, .next, .report [.hangup 7], .handle, .check,
    .next, .report [.ready 6], .handle, .check, .next, .take (), .call (), .deliver ()]

theorem wakeable_of_spares_awakened : ((system Unit).run .new awakened).isSome = true ∧
    (system Unit).AllStates Sys.Wakeable .new awakened :=
  ⟨by decide +kernel, wakeable_of_spares (by decide +kernel)⟩

/-- The resource has hung up when the work goes to sleep. -/
def forsaken : List (SysAct Unit) :=
  [.report [.callback], .callback (some 5), .check, .next, .report [.ready 5], .handle, .check,
    .next, .take (), .call (), .relay () 6, .reschedule () .write false, .ret (), .test (),
    .report [.hangup 6, .ready 5], .handle, .check, .handle, .check, .take (), .call (),
    .reschedule () .write false, .ret (), .test (), .next, .report [.ready 5], .handle, .take (),
    .call (), .sleep (), .test ()]

/-- The resource hangs up before it has sent anything: the server work goes to sleep for ever. -/
theorem not_wakeable_forsaken : ¬ (system Unit).AllStates Sys.Wakeable .new forsaken := by
  intro h
  obtain ⟨s, hs, hworks, hfd, hbatch, hjobq, hjob⟩ : ∃ s, (system Unit).run .new forsaken = some s ∧
      s.works = [⟨5, .write, false, .server true, false⟩, ⟨6, .write, false, .client 0, true⟩] ∧
      s.fds 5 = .disarmed ∧ s.crew.batch = [] ∧ s.crew.jobq = [] ∧ s.crew.job () = none := by
    refine ⟨_, rfl, ?_⟩
    decide
  have hlast : s.Wakeable := Machine.AllStates.last _ h hs
  have hw : s.works[0]? = some ⟨5, .write, false, .server true, false⟩ := by rw [hworks]; rfl
  have hidle : s.Idle 0 5 := by
    refine ⟨?_, ?_, ?_, ?_⟩
    · simp [hfd]
    · simp [hbatch]
    · simp [hjobq]
    · intro t
      rw [hjob]
      nofun
  obtain ⟨b, v, hv, halive, hclient⟩ := hlast 0 _ hw ⟨rfl, rfl⟩ hidle
  rw [hworks] at hv
  match b with
  | 0 =>
    cases hv
    cases hclient
  | 1 =>
    cases hv
    cases halive
  | b + 2 => cases hv

end Filth.Sched
