import Filth.Sched.System

/-!
# The work map

When the pairs of the work map are of use: the descriptor of each is that of a work which has not
been deleted.
-/

namespace Filth.Sched

open Base

namespace Sys

variable {T : Type}

/-- There is a work at the address, it has not been deleted, and it is for the descriptor. -/
def Serves (s : Sys T) (a : Addr) (fd : Fd) : Prop :=
  ∃ w, s.works[a]? = some w ∧ w.deleted = false ∧ w.fd = fd

/-- So it is for every pair of the map. -/
def Pairs (s : Sys T) : Prop := ∀ fd a, s.wmap.lookup fd = some a → s.Serves a fd

/-- And so it is for whatever `operator()` returns. -/
structure MapConsistent (s : Sys T) : Prop where
  pairs : s.Pairs
  found : ∀ fd, (s.findWork fd).2.Serves (s.findWork fd).1 fd

variable {s s' : Sys T} {a b : Addr} {fd : Fd} {w : Work}

/-- A new work does not disturb the others. -/
theorem Serves.append (h : s.Serves a fd) (hs : ∃ w, s'.works = s.works ++ [w]) :
    s'.Serves a fd := by
  obtain ⟨v, hv, hrest⟩ := h
  obtain ⟨w, hw⟩ := hs
  exact ⟨v, Sys.works_concat hw hv, hrest⟩

/-- Nor do changes other than deletion. -/
theorem Serves.modify (h : s.Serves a fd) {f : Work → Work} (hdel : ∀ w, (f w).deleted = w.deleted)
    (hfd : ∀ w, (f w).fd = w.fd) : (s.modify b f).Serves a fd := by
  obtain ⟨w, hw, halive, hserves⟩ := h
  by_cases hab : b = a
  · refine ⟨f w, ?_, (hdel w).trans halive, (hfd w).trans hserves⟩
    simp [Sys.modify, hab, hw]
  · refine ⟨w, ?_, halive, hserves⟩
    simp [Sys.modify, hab, hw]

theorem Pairs.modify (h : s.Pairs) {f : Work → Work} (hdel : ∀ w, (f w).deleted = w.deleted)
    (hfd : ∀ w, (f w).fd = w.fd) : (s.modify b f).Pairs :=
  fun fd a hpair ↦ (h fd a hpair).modify hdel hfd

/-- A new work does not disturb the pairs either, if the new ones are its own. -/
theorem Pairs.append (h : s.Pairs) (hs : s'.works = s.works ++ [w]) (halive : w.deleted = false)
    (hmap : ∀ fd b, s'.wmap.lookup fd = some b →
      fd = w.fd ∧ b = s.works.length ∨ s.wmap.lookup fd = some b) : s'.Pairs := by
  intro fd b hb
  rcases hmap fd b hb with ⟨rfl, rfl⟩ | hold
  · refine ⟨w, ?_, halive, rfl⟩
    rw [hs]
    exact List.getElem?_concat_length
  · exact (h fd b hold).append ⟨w, hs⟩

theorem Pairs.findWork (h : s.Pairs) (fd : Fd) : (s.findWork fd).2.Pairs := by
  unfold Sys.findWork
  split
  · exact h
  · exact h.append (w := Work.new fd .read (.server false)) rfl rfl fun _ _ hb ↦
      (lookup_insert_eq_some hb).imp_right And.right

/-- What `operator()` finds is of use. -/
private theorem Pairs.serves_findWork (h : s.Pairs) (fd : Fd) :
    (s.findWork fd).2.Serves (s.findWork fd).1 fd := by
  unfold Sys.findWork
  split
  · next a ha => exact h fd a ha
  · exact ⟨Work.new fd .read (.server false), List.getElem?_concat_length, rfl, rfl⟩

/-- The pairs are all that matters. -/
theorem mapConsistent_iff : s.MapConsistent ↔ s.Pairs :=
  ⟨MapConsistent.pairs, fun h ↦ ⟨h, h.serves_findWork⟩⟩

theorem Pairs.unregister (h : s.Pairs) (fd : Fd) : (s.unregister fd).Pairs := by
  intro fd' a ha
  by_cases hfd : fd' = fd
  · subst hfd
    simp [Sys.unregister] at ha
  · rw [Sys.unregister, AList.lookup_erase_ne hfd] at ha
    exact h fd' a ha

/-- Deletion leaves the other works alone. -/
theorem Serves.delete (h : s.Serves b fd) (hab : a ≠ b) : (s.delete a).Serves b fd := by
  obtain ⟨v, hv, hrest⟩ := h
  exact ⟨v, (Sys.works_delete_of_ne hab).trans hv, hrest⟩

private theorem not_serves_delete : ¬ (s.delete a).Serves a fd := by
  rintro ⟨v, hv, halive, -⟩
  exact (Sys.works_of_delete hv halive).2 rfl

theorem lookup_delete (hw : s.works[a]? = some w) {fd : Fd} :
    (s.delete a).wmap.lookup fd =
      if w.isServer = true ∧ fd = w.fd then none else s.wmap.lookup fd := by
  unfold Sys.delete
  rw [hw]
  dsimp only
  by_cases hserver : w.isServer = true
  · by_cases hfd : fd = w.fd
    · subst hfd
      rw [if_pos hserver, if_pos ⟨hserver, rfl⟩]
      exact AList.lookup_erase _ _
    · rw [if_pos hserver, if_neg (fun hboth ↦ hfd hboth.2)]
      exact AList.lookup_erase_ne hfd
  · rw [if_neg hserver, if_neg (fun hboth ↦ hserver hboth.1)]

/-- Either the work takes its pair along, or it has none. -/
def Alone (s : Sys T) (a : Addr) : Prop :=
  ∀ w, s.works[a]? = some w → w.isServer = true ∨ s.wmap.lookup w.fd ≠ some a

/-- Deletion keeps the pairs if and only if the deleted work leaves none behind. -/
theorem pairs_delete_iff (h : s.Pairs) : (s.delete a).Pairs ↔ s.Alone a := by
  constructor
  · intro h' w hw
    by_contra hboth
    rw [not_or, not_not] at hboth
    have hpair : (s.delete a).wmap.lookup w.fd = some a := by
      rw [lookup_delete hw, if_neg (fun hserver ↦ hboth.1 hserver.1)]
      exact hboth.2
    exact not_serves_delete (h' w.fd a hpair)
  · intro halone fd b hb
    cases hw : s.works[a]? with
    | none =>
      have hsame : s.delete a = s := by
        unfold Sys.delete
        rw [hw]
      rw [hsame] at hb ⊢
      exact h fd b hb
    | some w =>
      rw [lookup_delete hw] at hb
      split at hb
      · cases hb
      · next hother =>
        have hserves := h fd b hb
        apply hserves.delete
        rintro rfl
        obtain ⟨v, hv, -, rfl⟩ := hserves
        rw [hw] at hv
        cases hv
        rcases halone w hw with hserver | hne
        · exact hother ⟨hserver, rfl⟩
        · exact hne hb

private theorem pairs_clear (s : Sys T) : s.clear.Pairs := by
  intro fd a ha
  simp [Sys.clear] at ha

/-- `nosch` is no part of what matters here. -/
theorem deleted_setNosch (w : Work) (nosch : Bool) : (w.setNosch nosch).deleted = w.deleted := by
  unfold Work.setNosch
  split <;> rfl

theorem fd_setNosch (w : Work) (nosch : Bool) : (w.setNosch nosch).fd = w.fd := by
  unfold Work.setNosch
  split <;> rfl

theorem Pairs.relayed (h : s.Pairs) (a : Addr) (fd : Fd) : (s.relayed a fd).Pairs := by
  apply Pairs.modify _ (deleted_setNosch · true) (fd_setNosch · true)
  unfold Sys.registerAlien
  split
  · exact h.append (w := Work.new fd .write (.client a)) rfl rfl fun _ _ hb ↦
      (lookup_insert_eq_some hb).imp_right And.right
  · exact h.append (w := Work.new fd .write (.client a)) rfl rfl fun _ _ ↦ .inr

theorem Pairs.leaving (h : s.Pairs) (a : Addr) (m : Mode) (deleteme : Bool) :
    (s.leaving a m deleteme).Pairs := h.modify (fun _ ↦ rfl) fun _ ↦ rfl

/-- The client work is out of the map when it is deleted. -/
theorem Pairs.delivered (h : s.Pairs) (hw : s.works[a]? = some w) (b : Addr) :
    (s.delivered a w.fd b).Pairs := by
  have halone : (s.unregister w.fd).Alone a := by
    intro v hv
    cases hw.symm.trans hv
    right
    simp [Sys.unregister]
  exact ((pairs_delete_iff (h.unregister w.fd)).mpr halone).modify (deleted_setNosch · false)
    (fd_setNosch · false)

end Sys

/-- A deleted work leaves no pair behind: not the one that the scheduler deletes on a hangup, nor
the one that a worker deletes. -/
def SysAct.Tidies {T : Type} (s : Sys T) : SysAct T → Prop
  | .handle => ∀ fd a, s.crew.batch.head? = some (.hangup fd) → s.wmap.lookup fd = some a → s.Alone a
  | .delete t => ∀ a, s.at? t .doomed = some a → s.Alone a
  | _ => True

section Step

variable {T : Type} {s s' : Sys T} {a : SysAct T}

private theorem pairs_of_schedule {b : Addr} (h : s.Pairs) (hs : s.schedule b = some s') :
    s'.Pairs := by
  obtain ⟨w, -, -, rfl⟩ := Sys.schedule_eq_some hs
  exact h

private theorem pairs_of_reschedule {b : Addr} (h : s.Pairs) (hs : s.reschedule b = some s') :
    s'.Pairs := by
  obtain ⟨w, -, -, -, rfl⟩ := Sys.reschedule_eq_some hs
  exact h

/-- The work that a hangup deletes. -/
private theorem alone_findWork_iff (s : Sys T) (fd : Fd) :
    (s.findWork fd).2.Alone (s.findWork fd).1 ↔ ∀ a, s.wmap.lookup fd = some a → s.Alone a := by
  unfold Sys.findWork
  split
  · next b hb =>
    constructor
    · intro halone a ha
      cases hb.symm.trans ha
      exact halone
    · intro halone
      exact halone b hb
  · next hb =>
    refine iff_of_true (fun w hw ↦ .inl ?_) fun a ha ↦ ?_
    · dsimp only at hw
      rw [List.getElem?_concat_length] at hw
      cases hw
      rfl
    · rw [hb] at ha
      cases ha

variable [DecidableEq T]

/-- One step keeps the pairs if and only if it tidies up. -/
private theorem pairs_step_iff (h : s.Pairs) (hm : Sys.Moves s a s') : s'.Pairs ↔ a.Tidies s := by
  cases hm with
  | crew ha =>
    refine iff_of_true h ?_
    cases a <;> trivial
  | report | callback | call | leak | sleep | ret | doom | keep => exact iff_of_true h trivial
  | @accept fd crew _ hb hfd hcrew hs =>
    have hopen : ({ s with crew, fds := Function.update s.fds fd .unwatched } : Sys T).Pairs := h
    exact iff_of_true (pairs_of_schedule (hopen.findWork fd) hs) trivial
  | @hangup fd crew hb hcrew =>
    have h' : ({ s with crew } : Sys T).Pairs := h
    rw [Sys.pairs_delete_iff (h'.findWork fd), alone_findWork_iff]
    constructor
    · intro halone fd' a hb' ha
      cases hb.symm.trans hb'
      exact halone a ha
    · intro htidy a ha
      exact htidy fd a hb ha
  | @ready fd crew hb hcrew =>
    refine iff_of_true (h.findWork fd) ?_
    intro fd' a hb'
    cases hb.symm.trans hb'
  | relay ha hw hserver hfd hs => exact iff_of_true (pairs_of_schedule (h.relayed _ _) hs) trivial
  | reschedule ha hw hserver hs =>
    have h₁ := pairs_of_reschedule (h.leaving _ _ _) hs
    exact iff_of_true h₁ trivial
  | fail ha => exact iff_of_true (h.modify (fun _ ↦ rfl) fun _ ↦ rfl) trivial
  | deliver ha hw hclient hs =>
    have h₁ := pairs_of_reschedule (h.delivered hw _) hs
    exact iff_of_true h₁ trivial
  | resume ha hs =>
    have h₁ := pairs_of_reschedule h hs
    exact iff_of_true h₁ trivial
  | @delete t b crew ha hcrew =>
    change (s.delete b).Pairs ↔ _
    rw [Sys.pairs_delete_iff h]
    constructor
    · intro halone b' hb'
      cases ha.symm.trans hb'
      exact halone
    · intro htidy
      exact htidy b ha
  | clear => exact iff_of_true (Sys.pairs_clear s) trivial

end Step

/-- The work map is consistent in all states of a run if and only if every step tidies up. -/
theorem mapConsistent_iff_tidies {T : Type} [Fintype T] [DecidableEq T] (acts : List (SysAct T)) :
    (system T).AllStates Sys.MapConsistent .new acts ↔
      (system T).AllSteps (fun s a ↦ a.Tidies s) .new acts := by
  refine Machine.allStates_iff_allSteps _ (J := fun _ ↦ True) ?_ (fun _ _ _ _ _ _ _ ↦ trivial) ?_
    trivial acts
  · intro s a s' hs _ hstep
    rw [Sys.mapConsistent_iff] at hs ⊢
    exact pairs_step_iff hs (Sys.step_moves hstep)
  · rw [Sys.mapConsistent_iff]
    intro fd a ha
    simp [Sys.new] at ha

/-- A resource hangs up, and its descriptor is still in the map. -/
theorem not_mapConsistent_hangup : ¬ (system Unit).AllStates Sys.MapConsistent .new
    [.report [.callback], .callback (some 5), .check, .next, .report [.ready 5], .handle, .check,
      .next, .take (), .call (), .relay () 6, .report [.hangup 6], .handle] := by
  intro h
  obtain ⟨s, hs, hpair⟩ : ∃ s, (system Unit).run .new
      [.report [.callback], .callback (some 5), .check, .next, .report [.ready 5], .handle, .check,
        .next, .take (), .call (), .relay () 6, .report [.hangup 6], .handle] = some s ∧
      s.wmap.lookup 6 = some 1 ∧ (s.works[1]?).map Work.deleted = some true := by
    refine ⟨_, rfl, ?_⟩
    decide
  have hlast : s.MapConsistent := Machine.AllStates.last _ h hs
  obtain ⟨w, hw, halive, -⟩ := hlast.pairs 6 1 hpair.1
  rw [hw] at hpair
  cases halive.symm.trans (Option.some.inj hpair.2)

end Filth.Sched
