import Filth.Sched.Places

/-!
# Which descriptors are lost

Works race with each other and with the scheduler, and some are deleted twice or not at all. Their
descriptors are nevertheless accounted for: an open one always has its pair in the work map, so that
`FindWork_prealloc::clear`, `src/FindWork_prealloc.hpp:76–92`, closes whatever is still open. Only a
socket that could not be connected, `src/HTTP_2616_Server_Work.cpp:173–195`, gets no pair.
-/

namespace Filth.Sched

open Base

variable {T : Type}

namespace Sys

variable {s s' : Sys T} {a b : Addr} {fd fd' : Fd} {w : Work}

/-- There is a work at the address, deleted or not, with the descriptor. -/
def Has (s : Sys T) (a : Addr) (fd : Fd) : Prop := ∃ w, s.works[a]? = some w ∧ w.fd = fd

theorem Has.append (h : s.Has a fd) (hs : s'.works = s.works ++ [w]) : s'.Has a fd := by
  obtain ⟨v, hv, hfd⟩ := h
  exact ⟨v, works_concat hs hv, hfd⟩

/-- A work has one descriptor for life. -/
theorem Has.modify (h : s.Has a fd) {f : Work → Work} (hf : ∀ w, (f w).fd = w.fd) :
    (s.modify b f).Has a fd := by
  obtain ⟨v, hv, hfd⟩ := h
  rw [Has, Sys.modify, List.getElem?_modify, hv]
  refine ⟨_, rfl, ?_⟩
  split
  · exact (hf v).trans hfd
  · exact hfd

/-- A deleted one keeps it, as the memory is not used again. -/
theorem Has.delete (h : s.Has a fd) : (s.delete b).Has a fd := by
  unfold Sys.delete
  split
  · exact h
  · have hmod : (s.modify b fun w ↦ { w with deleted := true }).Has a fd := h.modify fun _ ↦ rfl
    exact hmod

/-- Pairs are of works that have the descriptor, and each open descriptor has a pair. -/
structure Mapped (s : Sys T) : Prop where
  pairs : ∀ fd a, s.wmap.lookup fd = some a → s.Has a fd
  opened : ∀ fd, s.fds fd ≠ .closed → (s.wmap.lookup fd).isSome = true

/-- The work for a descriptor. -/
theorem Mapped.has (h : s.Mapped) (hfd : s.fds fd ≠ .closed) :
    ∃ a, s.wmap.lookup fd = some a ∧ s.Has a fd := by
  obtain ⟨a, ha⟩ := Option.isSome_iff_exists.mp (h.opened fd hfd)
  exact ⟨a, ha, h.pairs fd a ha⟩

/-! ### Operations -/

theorem Mapped.modify (h : s.Mapped) {f : Work → Work} (hf : ∀ w, (f w).fd = w.fd) :
    (s.modify b f).Mapped :=
  ⟨fun fd a ha ↦ (h.pairs fd a ha).modify hf, h.opened⟩

/-- What is no longer watched is still open. -/
theorem Mapped.disarm (h : s.Mapped) (events : List Event)
    (hopen : ∀ fd ∈ events.filterMap Event.conn, s.fds fd ≠ .closed) :
    (s.disarm events).Mapped := by
  refine ⟨h.pairs, fun fd hfd ↦ h.opened fd ?_⟩
  dsimp only [Sys.disarm] at hfd
  split at hfd
  · next hmem => exact hopen fd hmem
  · exact hfd

/-- A new work has its pair, unless another has one already. -/
theorem Mapped.add (h : s.Mapped) (hworks : s'.works = s.works ++ [w])
    (hlook : ∀ fd, s'.wmap.lookup fd = s.wmap.lookup fd ∨
      fd = w.fd ∧ s'.wmap.lookup fd = some s.works.length)
    (hfds : ∀ fd, s'.fds fd ≠ .closed → s.fds fd ≠ .closed ∨
      (s'.wmap.lookup fd).isSome = true) : s'.Mapped := by
  refine ⟨fun fd a ha ↦ ?_, fun fd hfd ↦ ?_⟩
  · rcases hlook fd with hold | ⟨rfl, hnew⟩
    · rw [hold] at ha
      exact (h.pairs fd a ha).append hworks
    · cases ha.symm.trans hnew
      refine ⟨w, ?_, rfl⟩
      rw [hworks]
      exact List.getElem?_concat_length
  · rcases hfds fd hfd with hold | hnew
    · rcases hlook fd with hsame | ⟨-, hnew⟩
      · rw [hsame]
        exact h.opened fd hold
      · rw [hnew]
        rfl
    · exact hnew

/-- The scheduler looks up a work, or makes one. -/
theorem Mapped.findWork (h : s.Mapped) (fd : Fd) : (s.findWork fd).2.Mapped := by
  unfold Sys.findWork
  split
  · exact h
  · refine h.add rfl (fun fd' ↦ ?_) fun fd' hfd' ↦ .inl hfd'
    by_cases hsame : fd' = fd
    · subst hsame
      exact .inr ⟨rfl, AList.lookup_insert _⟩
    · exact .inl (AList.lookup_insert_ne hsame)

/-- The pair of a new connection is there before its descriptor is watched. -/
theorem Mapped.accept (h : s.Mapped) (crew : Crew T Addr Event) (fd : Fd) :
    (s.accept crew fd).2.Mapped := by
  unfold Sys.accept Sys.findWork
  split
  · next a ha =>
    refine ⟨h.pairs, fun fd' hfd' ↦ ?_⟩
    by_cases hsame : fd' = fd
    · subst hsame
      rw [ha]
      rfl
    · exact h.opened fd' fun hclosed ↦ hfd' ((Function.update_of_ne hsame _ _).trans hclosed)
  · refine h.add (w := Work.new fd .read (.server false)) rfl (fun fd' ↦ ?_) fun fd' hfd' ↦ ?_
    · by_cases hsame : fd' = fd
      · subst hsame
        exact .inr ⟨rfl, AList.lookup_insert _⟩
      · exact .inl (AList.lookup_insert_ne hsame)
    · by_cases hsame : fd' = fd
      · subst hsame
        rw [AList.lookup_insert]
        exact .inr rfl
      · exact .inl fun hclosed ↦ hfd' ((Function.update_of_ne hsame _ _).trans hclosed)

/-- `register_alien` leaves a pair that is there, and that one will do. -/
theorem Mapped.relayed (h : s.Mapped) (a : Addr) (fd : Fd) : (s.relayed a fd).Mapped := by
  refine Mapped.modify ?_ (fd_setNosch · true)
  unfold Sys.registerAlien
  split
  · refine h.add (w := Work.new fd .write (.client a)) rfl (fun fd' ↦ ?_) fun fd' hfd' ↦ ?_
    · by_cases hsame : fd' = fd
      · subst hsame
        exact .inr ⟨rfl, AList.lookup_insert _⟩
      · exact .inl (AList.lookup_insert_ne hsame)
    · by_cases hsame : fd' = fd
      · subst hsame
        dsimp only
        rw [AList.lookup_insert]
        exact .inr rfl
      · exact .inl fun hclosed ↦ hfd' ((Function.update_of_ne hsame _ _).trans hclosed)
  · next hsome =>
    refine h.add (w := Work.new fd .write (.client a)) rfl (fun fd' ↦ .inl rfl) fun fd' hfd' ↦ ?_
    by_cases hsame : fd' = fd
    · subst hsame
      rw [Bool.not_eq_true, Option.isNone_eq_false_iff] at hsome
      exact .inr hsome
    · exact .inl fun hclosed ↦ hfd' ((Function.update_of_ne hsame _ _).trans hclosed)

/-- A deleted work takes at most its own pair along, and its descriptor is closed. -/
theorem Mapped.delete (h : s.Mapped) (b : Addr) : (s.delete b).Mapped := by
  cases hw : s.works[b]? with
  | none =>
    have hsame : s.delete b = s := by
      unfold Sys.delete
      rw [hw]
    rw [hsame]
    exact h
  | some w =>
    refine ⟨fun fd a ha ↦ ?_, fun fd hfd ↦ ?_⟩
    · rw [lookup_delete hw] at ha
      split at ha
      · cases ha
      · exact (h.pairs fd a ha).delete
    · rw [fds_delete hw] at hfd
      by_cases hsame : fd = w.fd
      · subst hsame
        exact absurd (Function.update_self _ _ _) hfd
      · rw [lookup_delete hw, if_neg (fun hboth ↦ hsame hboth.2)]
        exact h.opened fd fun hclosed ↦ hfd ((Function.update_of_ne hsame _ _).trans hclosed)

/-- A client work is unregistered just before it is deleted, which closes what was unregistered. -/
theorem Mapped.delivered (h : s.Mapped) (hw : s.works[a]? = some w) (b : Addr) :
    (s.delivered a w.fd b).Mapped := by
  refine Mapped.modify (f := fun w ↦ { w.setNosch false with m := .write }) ?_ (fd_setNosch · false)
  have hw' : (s.unregister w.fd).works[a]? = some w := hw
  refine ⟨fun fd c hc ↦ ?_, fun fd hfd ↦ ?_⟩
  · rw [lookup_delete hw'] at hc
    split at hc
    · cases hc
    · by_cases hsame : fd = w.fd
      · subst hsame
        rw [Sys.unregister, AList.lookup_erase] at hc
        cases hc
      · rw [Sys.unregister, AList.lookup_erase_ne hsame] at hc
        have hhas : (s.unregister w.fd).Has c fd := h.pairs fd c hc
        exact hhas.delete
  · rw [fds_delete hw'] at hfd
    by_cases hsame : fd = w.fd
    · subst hsame
      exact absurd (Function.update_self _ _ _) hfd
    · rw [lookup_delete hw', if_neg (fun hboth ↦ hsame hboth.2), Sys.unregister,
        AList.lookup_erase_ne hsame]
      exact h.opened fd fun hclosed ↦ hfd ((Function.update_of_ne hsame _ _).trans hclosed)

/-- Watching a descriptor again does not open it. -/
theorem Mapped.reschedule (h : s.Mapped) (hs : s.reschedule a = some s') : s'.Mapped := by
  obtain ⟨w, -, hopen, -, rfl⟩ := reschedule_eq_some hs
  refine ⟨h.pairs, fun fd hfd ↦ h.opened fd ?_⟩
  by_cases hsame : fd = w.fd
  · subst hsame
    exact hopen
  · exact fun hclosed ↦ hfd ((Function.update_of_ne hsame _ _).trans hclosed)

theorem Mapped.schedule (h : s.Mapped) (hs : s.schedule a = some s') : s'.Mapped := by
  obtain ⟨w, -, hopen, rfl⟩ := schedule_eq_some hs
  refine ⟨h.pairs, fun fd hfd ↦ h.opened fd ?_⟩
  by_cases hsame : fd = w.fd
  · subst hsame
    rw [hopen]
    exact Desc.noConfusion
  · exact fun hclosed ↦ hfd ((Function.update_of_ne hsame _ _).trans hclosed)

/-! ### The end of the map -/

/-- What has been closed stays closed, and each work closes its own. -/
private theorem closed_of_has {as : List Addr} (hfd : s.fds fd = .closed ∨ ∃ a ∈ as, s.Has a fd) :
    (as.foldl delete s).fds fd = .closed := by
  induction as generalizing s with
  | nil =>
    rcases hfd with hclosed | ⟨a, ha, -⟩
    · exact hclosed
    · cases ha
  | cons b as ih =>
    apply ih
    rcases hfd with hclosed | ⟨a, ha, hhas⟩
    · left
      unfold Sys.delete
      split
      · exact hclosed
      · next w hw =>
        by_cases hsame : fd = w.fd
        · subst hsame
          exact Function.update_self _ _ _
        · exact (Function.update_of_ne hsame _ _).trans hclosed
    · rcases List.mem_cons.mp ha with rfl | hrest
      · obtain ⟨w, hw, rfl⟩ := hhas
        left
        rw [fds_delete hw]
        exact Function.update_self _ _ _
      · exact .inr ⟨a, hrest, hhas.delete⟩

private theorem Mapped.closed_clear (h : s.Mapped) (fd : Fd) : s.clear.fds fd = .closed := by
  apply closed_of_has
  by_cases hfd : s.fds fd = .closed
  · exact .inl hfd
  · obtain ⟨a, ha, hhas⟩ := h.has hfd
    have hmem : (⟨fd, a⟩ : Sigma fun _ : Fd ↦ Addr) ∈ s.wmap.entries :=
      AList.mem_lookup_iff.mp ha
    exact .inr ⟨a, List.mem_map.mpr ⟨_, hmem, rfl⟩, hhas⟩

theorem Mapped.clear (h : s.Mapped) : s.clear.Mapped := by
  refine ⟨fun fd a ha ↦ ?_, fun fd hfd ↦ absurd (h.closed_clear fd) hfd⟩
  rw [Sys.clear, AList.lookup_empty] at ha
  cases ha

end Sys

/-! ### Runs -/

section Step

variable [DecidableEq T] {s s' : Sys T} {a : SysAct T}

end Step

/-- The resource that a client waits for hangs up, and only the map knows of that client. -/
example : ((system Unit).run .new [.report [.callback], .callback (some 5), .check, .next,
    .report [.ready 5], .handle, .check, .next, .take (), .call (), .relay () 6,
    .report [.hangup 6], .handle]).map (fun s ↦ (s.fds 5, s.clear.fds 5)) =
      some (.disarmed, .closed) := rfl

/-- The resource cannot be reached, and its socket stays open. -/
example : ((system Unit).run .new [.report [.callback], .callback (some 5), .check, .next,
    .report [.ready 5], .handle, .check, .next, .take (), .call (), .leak () 6]).map
      (fun s ↦ (s.wmap.lookup 6, s.clear.fds 6)) = some (none, .unwatched) := rfl

end Filth.Sched
