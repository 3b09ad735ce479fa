/-
# What one call of `poll` executes

The loops of `poll` go over a snapshot of the masks, while the callbacks change the live
maps.  `Progress` says what one call has executed so far: nothing that is left, at most one
callback for each event, and every callback that was registered at the start for an event
that the kernel reported, unless it is left.  At the end nothing is left.
-/
import Ringmaster.Dispatch

namespace Ringmaster

namespace Poller

variable {κ : Type} {s s' : Dispatcher κ} {es : List (Event κ)}

/-! ## The loops come to an end -/

/-- The loop over the callbacks of a descriptor comes to its end, when each of them returns. -/
theorem exists_steps_scanning {p : Poller κ} {it : PollFd} {order : List (Flag × κ)}
    {rest : List PollFd} (h : Inv ⟨p, .dispatching it order rest⟩) :
    ∃ es, Run.Steps Step ⟨p, .dispatching it order rest⟩ es ⟨p, .scanning rest⟩ ∧
      ∀ e ∈ es, ∃ fd flag callback, e = Event.ran fd flag callback := by
  induction order with
  | nil => exact ⟨[], Run.Steps.single (Step.done rfl), by simp⟩
  | cons e order ih =>
    obtain ⟨flag, callback⟩ := e
    by_cases hready : EventMask.has it.revents flag
    · have hrun : Step ⟨p, .dispatching it ((flag, callback) :: order) rest⟩
          [.ran it.fd flag callback] ⟨p, .inside it order rest⟩ :=
        Step.run rfl hready ((h.current_conforms it rfl).has_events hready)
      have hret : Step ⟨p, .inside it order rest⟩ [] ⟨p, .dispatching it order rest⟩ :=
        Step.callbackReturns rfl
      obtain ⟨es, hsteps, hes⟩ := ih ((h.step hrun).step hret)
      refine ⟨_, Run.Steps.head hrun (Run.Steps.head hret hsteps), ?_⟩
      exact List.forall_mem_cons.mpr ⟨⟨_, _, _, rfl⟩, hes⟩
    · have hskip : Step ⟨p, .dispatching it ((flag, callback) :: order) rest⟩
          [] ⟨p, .dispatching it order rest⟩ := Step.skip rfl hready
      obtain ⟨es, hsteps, hes⟩ := ih (h.step hskip)
      exact ⟨_, Run.Steps.head hskip hsteps, hes⟩

/-- The loop over the results comes to its end, when each callback returns. -/
theorem exists_steps_scanning_nil {p : Poller κ} {rest : List PollFd}
    (h : Inv ⟨p, .scanning rest⟩) :
    ∃ es, Run.Steps Step ⟨p, .scanning rest⟩ es ⟨p, .scanning []⟩ ∧
      ∀ e ∈ es, ∃ fd flag callback, e = Event.ran fd flag callback := by
  induction rest with
  | nil => exact ⟨[], Run.Steps.refl _, by simp⟩
  | cons it rest ih =>
    obtain ⟨callbacks, hfind⟩ :=
      Option.isSome_iff_exists.mp (h.pending_known it List.mem_cons_self).1
    have hnext : Step ⟨p, .scanning (it :: rest)⟩ []
        ⟨p, .dispatching it callbacks.entries rest⟩ := Step.next rfl hfind (List.Perm.refl _)
    obtain ⟨es₁, hsteps₁, hes₁⟩ := exists_steps_scanning (h.step hnext)
    obtain ⟨es₂, hsteps₂, hes₂⟩ := ih ((h.step hnext).of_steps hsteps₁)
    refine ⟨_, (Run.Steps.head hnext hsteps₁).trans hsteps₂, ?_⟩
    exact List.forall_mem_append.mpr ⟨hes₁, hes₂⟩

/-- A call of `poll` in progress returns, when each callback does. -/
theorem exists_return (h : Inv s) (hpolling : s.phase.isPolling) :
    ∃ es, Run.Steps Step s es ⟨s.poller, .scanning []⟩ ∧
      ∀ e ∈ es, ∃ fd flag callback, e = Event.ran fd flag callback := by
  obtain ⟨p, ph⟩ := s
  have hdispatching : ∀ it order rest, Inv ⟨p, .dispatching it order rest⟩ →
      ∃ es, Run.Steps Step ⟨p, .dispatching it order rest⟩ es ⟨p, .scanning []⟩ ∧
        ∀ e ∈ es, ∃ fd flag callback, e = Event.ran fd flag callback := by
    intro it order rest h
    obtain ⟨es₁, hsteps₁, hes₁⟩ := exists_steps_scanning h
    obtain ⟨es₂, hsteps₂, hes₂⟩ := exists_steps_scanning_nil (h.of_steps hsteps₁)
    exact ⟨_, hsteps₁.trans hsteps₂, List.forall_mem_append.mpr ⟨hes₁, hes₂⟩⟩
  cases ph with
  | idle => simp [Phase.isPolling] at hpolling
  | aborted => simp [Phase.isPolling] at hpolling
  | scanning rest => exact exists_steps_scanning_nil h
  | dispatching it order rest => exact hdispatching it order rest h
  | inside it order rest =>
    have hret : Step ⟨p, .inside it order rest⟩ [] ⟨p, .dispatching it order rest⟩ :=
      Step.callbackReturns rfl
    obtain ⟨es, hsteps, hes⟩ := hdispatching it order rest (h.step hret)
    exact ⟨_, Run.Steps.head hret hsteps, hes⟩

/-! ## What one call of `poll` executes -/

/-- The callback executed for an event on a descriptor. -/
def Event.ranAt? (fd : ℤ) (flag : Flag) : Event κ → Option κ
  | .ran fd' flag' callback => if fd' = fd ∧ flag' = flag then some callback else none
  | _ => none

/-- The callbacks executed for an event on a descriptor, in order. -/
def ranAt (es : List (Event κ)) (fd : ℤ) (flag : Flag) : List κ :=
  es.filterMap (Event.ranAt? fd flag)

@[simp] theorem ranAt_append (es es' : List (Event κ)) (fd : ℤ) (flag : Flag) :
    ranAt (es ++ es') fd flag = ranAt es fd flag ++ ranAt es' fd flag :=
  List.filterMap_append

/-- Whether `poll` is called. -/
def Event.isAsked : Event κ → Bool
  | .asked _ => true
  | _ => false

/-- The kernel reported an event on a descriptor. -/
def Reported (results : List PollFd) (fd : ℤ) (flag : Flag) : Prop :=
  ∃ it ∈ results, it.fd = fd ∧ EventMask.has it.revents flag

section Left

variable {it : PollFd} {order : List (Flag × κ)} {rest : List PollFd} {fd : ℤ} {flag : Flag}

theorem left_scanning : (Phase.scanning rest : Phase PollFd κ).Left fd flag ↔
    fd ∈ rest.map PollFd.fd := by
  simp [Phase.Left, Phase.pending, Phase.current]

theorem left_dispatching : (Phase.dispatching it order rest).Left fd flag ↔
    fd ∈ rest.map PollFd.fd ∨ (it.fd = fd ∧ flag ∈ order.map Prod.fst) := by
  simp [Phase.Left, Phase.pending, Phase.current, Phase.order]

theorem left_inside : (Phase.inside it order rest).Left fd flag ↔
    fd ∈ rest.map PollFd.fd ∨ (it.fd = fd ∧ flag ∈ order.map Prod.fst) := by
  simp [Phase.Left, Phase.pending, Phase.current, Phase.order]

theorem not_left_idle : ¬ (Phase.idle : Phase PollFd κ).Left fd flag := by
  simp [Phase.Left, Phase.pending, Phase.current]

end Left

/-- What a call of `poll` has executed when its events so far are `es`: it started with the
poller `p₀` and the kernel reported `results`. -/
structure Progress (p₀ : Poller κ) (results : List PollFd) (es : List (Event κ))
    (s : Dispatcher κ) : Prop where
  pending_mem : ∀ it ∈ s.phase.pending, it ∈ results
  current_mem : ∀ it ∈ s.phase.current, it ∈ results
  registered : ∀ fd flag callback, p₀.callback? fd flag = some callback →
    s.poller.callback? fd flag = some callback
  ran_sound : ∀ fd flag, ∀ callback ∈ ranAt es fd flag,
    s.poller.callback? fd flag = some callback ∧ ¬ s.phase.Left fd flag ∧
      Reported results fd flag
  ran_once : ∀ fd flag, (ranAt es fd flag).length ≤ 1
  ran_complete : s.phase.isPolling → ∀ fd flag callback,
    p₀.callback? fd flag = some callback → Reported results fd flag →
      s.phase.Left fd flag ∨ callback ∈ ranAt es fd flag

/-- A step that executes no callback only has to account for what is left. -/
theorem Progress.quiet {p₀ : Poller κ} {results : List PollFd} {es' : List (Event κ)}
    (h : Progress p₀ results es s) (hran : ∀ fd flag, ranAt es' fd flag = [])
    (hcallback : ∀ fd flag callback, s.poller.callback? fd flag = some callback →
      s'.poller.callback? fd flag = some callback)
    (hpending : ∀ it ∈ s'.phase.pending, it ∈ results)
    (hcurrent : ∀ it ∈ s'.phase.current, it ∈ results)
    (hnew : ∀ fd flag, s'.phase.Left fd flag →
      s.phase.Left fd flag ∨ s.poller.callback? fd flag = none)
    (hstay : s'.phase.isPolling → s.phase.isPolling ∧ ∀ fd flag callback,
      s.poller.callback? fd flag = some callback → Reported results fd flag →
        s.phase.Left fd flag → s'.phase.Left fd flag) :
    Progress p₀ results (es ++ es') s' := by
  refine ⟨hpending, hcurrent, fun fd flag callback h₀ => ?_, ?_, ?_, ?_⟩
  · exact hcallback fd flag callback (h.registered fd flag callback h₀)
  · intro fd flag callback hmem
    rw [ranAt_append, hran, List.append_nil] at hmem
    obtain ⟨hsome, hleft, hreported⟩ := h.ran_sound fd flag callback hmem
    refine ⟨hcallback fd flag callback hsome, fun hleft' => ?_, hreported⟩
    rcases hnew fd flag hleft' with hold | hnone
    · exact hleft hold
    · rw [hsome] at hnone
      exact absurd hnone (by simp)
  · intro fd flag
    rw [ranAt_append, hran, List.append_nil]
    exact h.ran_once fd flag
  · intro hpolling fd flag callback h₀ hreported
    obtain ⟨hbefore, hkeep⟩ := hstay hpolling
    rw [ranAt_append, hran, List.append_nil]
    rcases h.ran_complete hbefore fd flag callback h₀ hreported with hleft | hmem
    · exact Or.inl (hkeep fd flag callback (h.registered fd flag callback h₀) hreported hleft)
    · exact Or.inr hmem

/-- A step that leaves the call of `poll`, or is made outside of it, has nothing to account
for. -/
theorem Progress.quiet_idle {p₀ p : Poller κ} {results : List PollFd} {es' : List (Event κ)}
    (h : Progress p₀ results es s) (hran : ∀ fd flag, ranAt es' fd flag = [])
    (hcallback : ∀ fd flag callback, s.poller.callback? fd flag = some callback →
      p.callback? fd flag = some callback) :
    Progress p₀ results (es ++ es') ⟨p, .idle⟩ :=
  h.quiet hran hcallback (by simp [Phase.pending]) (by simp [Phase.current])
    (fun _ _ hl => absurd hl not_left_idle) (by simp [Phase.isPolling])

/-- The execution of a callback accounts for it. -/
theorem Progress.run {p₀ p : Poller κ} {results : List PollFd} {it : PollFd} {flag : Flag}
    {callback : κ} {order : List (Flag × κ)} {rest : List PollFd}
    (hinv : Inv ⟨p, .dispatching it ((flag, callback) :: order) rest⟩)
    (h : Progress p₀ results es ⟨p, .dispatching it ((flag, callback) :: order) rest⟩)
    (hready : EventMask.has it.revents flag) :
    Progress p₀ results (es ++ [Event.ran it.fd flag callback]) ⟨p, .inside it order rest⟩ := by
  have hregistered : p.callback? it.fd flag = some callback :=
    hinv.order_registered it rfl _ List.mem_cons_self
  have hmem : it ∈ results := h.current_mem it rfl
  have hleft : (Phase.dispatching it ((flag, callback) :: order) rest).Left it.fd flag :=
    left_dispatching.mpr (Or.inr ⟨rfl, List.mem_cons_self⟩)
  -- the event was left until now, so nothing was executed for it
  have hnone : ranAt es it.fd flag = [] := by
    rw [List.eq_nil_iff_forall_not_mem]
    exact fun callback' hmem' => (h.ran_sound it.fd flag callback' hmem').2.1 hleft
  have hgone : ¬ (Phase.inside it order rest).Left it.fd flag := by
    rw [left_inside]
    rintro (hrest | ⟨-, horder⟩)
    · exact hinv.current_notMem it rfl hrest
    · exact (List.nodup_cons.mp hinv.order_nodup).1 horder
  have hmono : ∀ fd' flag', (Phase.inside it order rest).Left fd' flag' →
      (Phase.dispatching it ((flag, callback) :: order) rest).Left fd' flag' := by
    intro fd' flag' hl
    rw [left_inside] at hl
    rw [left_dispatching]
    exact hl.imp id (fun ho => ⟨ho.1, List.mem_cons_of_mem _ ho.2⟩)
  have hevent : ∀ fd' flag', ranAt [Event.ran it.fd flag callback] fd' flag'
      = if it.fd = fd' ∧ flag = flag' then [callback] else [] := by
    intro fd' flag'
    unfold ranAt Event.ranAt?
    split_ifs with heq
    · simp [heq]
    · simp [heq]
  refine ⟨h.pending_mem, h.current_mem, h.registered, ?_, ?_, ?_⟩
  · intro fd' flag' callback' hmem'
    rw [ranAt_append, hevent] at hmem'
    split_ifs at hmem' with heq
    · obtain ⟨rfl, rfl⟩ := heq
      rw [hnone, List.nil_append, List.mem_singleton] at hmem'
      rw [hmem']
      exact ⟨hregistered, hgone, it, hmem, rfl, hready⟩
    · rw [List.append_nil] at hmem'
      obtain ⟨hsome, hleft', hreported⟩ := h.ran_sound fd' flag' callback' hmem'
      exact ⟨hsome, fun hl => hleft' (hmono fd' flag' hl), hreported⟩
  · intro fd' flag'
    rw [ranAt_append, hevent]
    split_ifs with heq
    · obtain ⟨rfl, rfl⟩ := heq
      rw [hnone]
      exact le_rfl
    · rw [List.append_nil]
      exact h.ran_once fd' flag'
  · intro _ fd' flag' callback' h₀ hreported
    rw [ranAt_append, hevent]
    split_ifs with heq
    · obtain ⟨rfl, rfl⟩ := heq
      have hsame : p.callback? it.fd flag = some callback' :=
        h.registered it.fd flag callback' h₀
      rw [hregistered, Option.some_inj] at hsame
      rw [hsame]
      exact Or.inr (List.mem_append_right _ List.mem_cons_self)
    · rw [List.append_nil]
      refine (h.ran_complete rfl fd' flag' callback' h₀ hreported).imp (fun hl => ?_) id
      rw [left_dispatching] at hl
      rw [left_inside]
      refine hl.imp id (fun ho => ⟨ho.1, ?_⟩)
      rcases List.mem_cons.mp ho.2 with hflag | hmem'
      · exact absurd ⟨ho.1, hflag.symm⟩ heq
      · exact hmem'

/-- What a call adds to the loop over the callbacks: the flags stay, and a new one was not
registered. -/
theorem flags_of_joins {p : Poller κ} {fd : ℤ} {c : Call κ} {order order' : List (Flag × κ)}
    (hjoins : Joins fd c (c.result p) order order') :
    (∀ flag ∈ order.map Prod.fst, flag ∈ order'.map Prod.fst) ∧
      ∀ flag ∈ order'.map Prod.fst, flag ∈ order.map Prod.fst ∨ p.callback? fd flag = none := by
  have heff := effect_call p c
  rcases hjoins.cases with rfl | ⟨flag₀, callback₀, before, behind, rfl, hok, rfl, rfl⟩
  · exact ⟨fun flag hflag => hflag, fun flag hflag => Or.inl hflag⟩
  · have hmem : ∀ flag, flag ∈ (before ++ (flag₀, callback₀) :: behind).map Prod.fst ↔
        flag = flag₀ ∨ flag ∈ (before ++ behind).map Prod.fst := by
      intro flag
      rw [(List.perm_middle.map Prod.fst).mem_iff, List.map_cons, List.mem_cons]
    refine ⟨fun flag hflag => (hmem flag).mpr (Or.inr hflag), ?_⟩
    intro flag hflag
    have hok' : Call.result p (.registerEvent fd flag₀ callback₀) = .ok () := hok
    rw [hok'] at heff
    rcases (hmem flag).mp hflag with rfl | hold
    · exact Or.inr heff.of_registered.1
    · exact Or.inl hold

section Transitions

variable {p₀ p : Poller κ} {results rest : List PollFd} {it : PollFd}
  {order order' : List (Flag × κ)}

/-- A call inside a callback leaves what was left, and may add an event that was not
registered. -/
theorem Progress.callInside {c : Call κ}
    (h : Progress p₀ results es ⟨p, .inside it order rest⟩)
    (hjoins : Joins it.fd c (c.result p) order order') :
    Progress p₀ results (es ++ [Event.called c (c.result p)])
      ⟨c.after p, .inside it order' rest⟩ := by
  obtain ⟨hsub, hnew⟩ := flags_of_joins hjoins
  refine h.quiet (fun _ _ => rfl) (fun fd flag callback => (effect_call p c).callback?_eq_some)
    h.pending_mem h.current_mem ?_ ?_
  · intro fd flag hl
    rw [left_inside] at hl
    rcases hl with hrest | ⟨rfl, hflag⟩
    · exact Or.inl (left_inside.mpr (Or.inl hrest))
    · exact (hnew flag hflag).imp (fun ho => left_inside.mpr (Or.inr ⟨rfl, ho⟩)) id
  · refine fun _ => ⟨rfl, fun fd flag _ _ _ hl => ?_⟩
    rw [left_inside] at hl ⊢
    exact hl.imp id (fun ho => ⟨ho.1, hsub flag ho.2⟩)

/-- Turning to the next descriptor leaves the callbacks that are registered for it now. -/
theorem Progress.next {callbacks : OrderedMap Flag κ}
    (h : Progress p₀ results es ⟨p, .scanning (it :: rest)⟩)
    (hfind : p.roster.find? it.fd = some callbacks) (hperm : order.Perm callbacks.entries) :
    Progress p₀ results (es ++ []) ⟨p, .dispatching it order rest⟩ := by
  refine h.quiet (fun _ _ => rfl) (fun _ _ _ => id)
    (fun it' hit' => h.pending_mem it' (List.mem_cons_of_mem it hit')) ?_ ?_ ?_
  · rintro it' ⟨⟩
    exact h.pending_mem it List.mem_cons_self
  · intro fd flag hl
    rw [left_dispatching] at hl
    refine Or.inl (left_scanning.mpr ?_)
    rw [List.map_cons]
    rcases hl with hrest | ⟨rfl, -⟩
    · exact List.mem_cons_of_mem _ hrest
    · exact List.mem_cons_self
  · refine fun _ => ⟨rfl, fun fd flag callback hsome _ hl => ?_⟩
    rw [left_scanning, List.map_cons] at hl
    rw [left_dispatching]
    rcases List.mem_cons.mp hl with rfl | hrest
    · have hcallback : callbacks.find? flag = some callback := by
        unfold callback? at hsome
        rwa [hfind, Option.bind_some] at hsome
      have hmem := hperm.mem_iff.mpr (OrderedMap.find?_eq_some_iff.mp hcallback)
      exact Or.inr ⟨rfl, List.mem_map.mpr ⟨_, hmem, rfl⟩⟩
    · exact Or.inl hrest

/-- Skipping a callback leaves every event that the kernel reported. -/
theorem Progress.skip {flag₀ : Flag} {callback₀ : κ}
    (hnodup : (results.map PollFd.fd).Nodup)
    (h : Progress p₀ results es ⟨p, .dispatching it ((flag₀, callback₀) :: order) rest⟩)
    (hnot : ¬ EventMask.has it.revents flag₀) :
    Progress p₀ results (es ++ []) ⟨p, .dispatching it order rest⟩ := by
  refine h.quiet (fun _ _ => rfl) (fun _ _ _ => id) h.pending_mem h.current_mem ?_ ?_
  · intro fd flag hl
    rw [left_dispatching] at hl
    refine Or.inl (left_dispatching.mpr ?_)
    exact hl.imp id (fun ho => ⟨ho.1, List.mem_cons_of_mem _ ho.2⟩)
  · refine fun _ => ⟨rfl, fun fd flag callback _ hreported hl => ?_⟩
    rw [left_dispatching] at hl ⊢
    refine hl.imp id (fun ho => ⟨ho.1, ?_⟩)
    obtain ⟨hfd, hflag⟩ := ho
    rcases List.mem_cons.mp hflag with rfl | hmem
    · -- the one result of the descriptor does not have the flag
      obtain ⟨it', hit', hfd', hready⟩ := hreported
      have heq : it' = it :=
        List.inj_on_of_nodup_map hnodup hit' (h.current_mem it rfl) (hfd'.trans hfd.symm)
      rw [heq] at hready
      exact absurd hready hnot
    · exact hmem

/-- At the end of the callbacks of a descriptor only the other descriptors are left. -/
theorem Progress.done (h : Progress p₀ results es ⟨p, .dispatching it [] rest⟩) :
    Progress p₀ results (es ++ []) ⟨p, .scanning rest⟩ := by
  refine h.quiet (fun _ _ => rfl) (fun _ _ _ => id) h.pending_mem
    (by simp [Phase.current]) ?_ ?_
  · intro fd flag hl
    exact Or.inl (left_dispatching.mpr (Or.inl (left_scanning.mp hl)))
  · refine fun _ => ⟨rfl, fun fd flag _ _ _ hl => left_scanning.mpr ?_⟩
    rcases left_dispatching.mp hl with hrest | ⟨-, hnil⟩
    · exact hrest
    · exact absurd hnil List.not_mem_nil

end Transitions

/-- A step inside a call of `poll` keeps account. -/
theorem Progress.step {p₀ : Poller κ} {results : List PollFd} {es' : List (Event κ)}
    (hnodup : (results.map PollFd.fd).Nodup) (hinv : Inv s) (h : Progress p₀ results es s)
    (hstep : Step s es' s') (hasked : ∀ e ∈ es', ¬ e.isAsked) :
    Progress p₀ results (es ++ es') s' := by
  obtain ⟨p, ph⟩ := s
  cases hstep with
  | @call c hphase =>
    exact h.quiet_idle (fun _ _ => rfl)
      (fun fd flag callback => (effect_call p c).callback?_eq_some)
  | callInside hphase hjoins =>
    cases hphase
    exact h.callInside hjoins
  | pollFails hphase hperm => exact absurd rfl (hasked _ List.mem_cons_self)
  | poll hphase hperm hresults hconforms => exact absurd rfl (hasked _ List.mem_cons_self)
  | next hphase hfind hperm =>
    cases hphase
    exact h.next hfind hperm
  | unknown hphase hfind =>
    exact h.quiet_idle (fun _ _ => rfl) (fun _ _ _ => id)
  | skip hphase hnot =>
    cases hphase
    exact h.skip hnodup hnot
  | run hphase hready hasked' =>
    cases hphase
    exact h.run hinv hready
  | assertion hphase hready hnot =>
    exact h.quiet (fun _ _ => rfl) (fun _ _ _ => id) (by simp [Phase.pending])
      (by simp [Phase.current])
      (fun _ _ hl => by simp [Phase.Left, Phase.pending, Phase.current] at hl)
      (by simp [Phase.isPolling])
  | callbackReturns hphase =>
    cases hphase
    exact h.quiet (fun _ _ => rfl) (fun _ _ _ => id) h.pending_mem h.current_mem
      (fun _ _ hl => Or.inl hl) (fun _ => ⟨rfl, fun _ _ _ _ _ hl => hl⟩)
  | callbackRaises hphase =>
    exact h.quiet_idle (fun _ _ => rfl) (fun _ _ _ => id)
  | done hphase =>
    cases hphase
    exact h.done
  | finish hphase =>
    exact h.quiet_idle (fun _ _ => rfl) (fun _ _ _ => id)

/-- The start of a call of `poll`. -/
theorem progress_start {results : List PollFd} (h : s.phase = .scanning results) :
    Progress s.poller results [] s := by
  obtain ⟨p, ph⟩ := s
  cases h
  refine ⟨fun _ hit => hit, by simp [Phase.current], fun _ _ _ => id, ?_, ?_, ?_⟩
  · exact fun _ _ _ hmem => absurd hmem List.not_mem_nil
  · exact fun _ _ => Nat.zero_le 1
  · rintro - fd flag callback - ⟨it, hit, rfl, -⟩
    exact Or.inl (left_scanning.mpr (List.mem_map.mpr ⟨it, hit, rfl⟩))

/-- What a call of `poll` executes from the report of the kernel to its return. -/
theorem ranAt_of_poll {asked : List (ℤ × EventMask)} {results : List PollFd}
    {es₁ : List (Event κ)} {s₁ s₂ s₃ : Dispatcher κ} (hinv : Inv s)
    (hpoll : Step s [.asked asked, .reported results] s₁) (hrun : Run.Steps Step s₁ es₁ s₂)
    (hasked : ∀ e ∈ es₁, ¬ e.isAsked) (hret : Step s₂ [.returned] s₃) (fd : ℤ) (flag : Flag) :
    (∀ callback, s₁.poller.callback? fd flag = some callback → Reported results fd flag →
      ranAt es₁ fd flag = [callback]) ∧
    (¬ Reported results fd flag → ranAt es₁ fd flag = []) ∧
    (ranAt es₁ fd flag).length ≤ 1 := by
  have hinv₁ := hinv.step hpoll
  have hphase : s₁.phase = .scanning results := by
    cases hpoll
    rfl
  have hnodup : (results.map PollFd.fd).Nodup := by
    have := hinv₁.pending_nodup
    rwa [hphase] at this
  have key : Inv s₂ ∧ Progress s₁.poller results es₁ s₂ := by
    refine hrun.invariant_of_forall (fun e => ¬ e.isAsked)
      (fun es s => Inv s ∧ Progress s₁.poller results es s) ⟨hinv₁, progress_start hphase⟩
      ?_ hasked
    rintro es t es' u hG ⟨hI, hP⟩ hstep
    exact ⟨hI.step hstep, hP.step hnodup hI hstep hG⟩
  obtain ⟨-, hprogress⟩ := key
  have hend : s₂.phase = .scanning [] := by
    cases hret
    assumption
  have hleft : ¬ s₂.phase.Left fd flag := by
    rw [hend, left_scanning]
    exact List.not_mem_nil
  refine ⟨fun callback hsome hreported => ?_, fun hnot => ?_, hprogress.ran_once fd flag⟩
  · rcases hprogress.ran_complete (by rw [hend]; rfl) fd flag callback hsome hreported with
      hl | hmem
    · exact absurd hl hleft
    · obtain ⟨callback', hone⟩ : ∃ callback', ranAt es₁ fd flag = [callback'] := by
        rw [← List.length_eq_one_iff]
        exact le_antisymm (hprogress.ran_once fd flag) (List.length_pos_of_mem hmem)
      rw [hone, List.mem_singleton] at hmem
      rw [hone, hmem]
  · rw [List.eq_nil_iff_forall_not_mem]
    exact fun callback hmem => hnot (hprogress.ran_sound fd flag callback hmem).2.2

/-! ## Safety of the dispatch -/

/-- Dispatch is safe under callbacks that change registrations.  In every run the two maps
have the same descriptors after each operation, `roster_.at` raises no exception and the
assertion does not fail; a call of `poll` always gets to its end when the callbacks return;
and when it returns, every callback that was registered when the kernel reported its event
was executed exactly once, and nothing was executed for an event that was not reported, nor
twice for one that was. -/
theorem dispatch_safe (hrun : Run.Steps Step Dispatcher.initial es s) :
    s.poller.SameFds ∧ (∀ fd, .rosterAtRaised fd ∉ es) ∧
    (∀ fd flag, .assertionFailed fd flag ∉ es) ∧
    (s.phase.isPolling → ∃ es' s', Run.Steps Step s es' s' ∧
      (∀ e ∈ es', ∃ fd flag callback, e = Event.ran fd flag callback) ∧
      Step s' [.returned] ⟨s.poller, .idle⟩) ∧
    ∀ asked results es₁ s₁ s₂ s₃, Step s [.asked asked, .reported results] s₁ →
      Run.Steps Step s₁ es₁ s₂ → (∀ e ∈ es₁, ¬ e.isAsked) → Step s₂ [.returned] s₃ →
        ∀ fd flag,
          (∀ callback, s₁.poller.callback? fd flag = some callback →
            Reported results fd flag → ranAt es₁ fd flag = [callback]) ∧
          (¬ Reported results fd flag → ranAt es₁ fd flag = []) ∧
          (ranAt es₁ fd flag).length ≤ 1 := by
  have hinv := inv_of_steps hrun
  have hevents : (∀ fd, .rosterAtRaised fd ∉ es) ∧ ∀ fd flag, .assertionFailed fd flag ∉ es := by
    have key : Inv s ∧ (∀ fd, .rosterAtRaised fd ∉ es) ∧
        ∀ fd flag, .assertionFailed fd flag ∉ es := by
      refine hrun.invariant (fun es s => Inv s ∧ (∀ fd, .rosterAtRaised fd ∉ es) ∧
        ∀ fd flag, .assertionFailed fd flag ∉ es) ⟨inv_initial, by simp, by simp⟩ ?_
      rintro es t es' u ⟨hI, hat, hassert⟩ hstep
      obtain ⟨hat', hassert'⟩ := hI.event_cases hstep
      refine ⟨hI.step hstep, fun fd hmem => ?_, fun fd flag hmem => ?_⟩
      · exact (List.mem_append.mp hmem).elim (hat fd) (hat' fd)
      · exact (List.mem_append.mp hmem).elim (hassert fd flag) (hassert' fd flag)
    exact key.2
  refine ⟨hinv.sameFds, hevents.1, hevents.2, fun hpolling => ?_, ?_⟩
  · obtain ⟨es', hsteps, hes'⟩ := exists_return hinv hpolling
    exact ⟨es', _, hsteps, hes', Step.finish rfl⟩
  · intro asked results es₁ s₁ s₂ s₃ hpoll hsteps hasked hret fd flag
    exact ranAt_of_poll hinv hpoll hsteps hasked hret fd flag

/-- A poller with a callback for each of two descriptors. -/
def twoFds : Poller ℕ :=
  (Call.registerEvent 4 .pollIn 1).after ((Call.registerEvent 3 .pollIn 0).after initial)

/-- Two descriptors are ready, and the callback of the first one deregisters the second one:
both callbacks are executed once in this call of `poll`. -/
theorem dispatch_safe_twoFds : ∃ es s asked results es₁ s₁ s₂ s₃,
    Run.Steps Step (Dispatcher.initial : Dispatcher ℕ) es s ∧
      Step s [.asked asked, .reported results] s₁ ∧ Run.Steps Step s₁ es₁ s₂ ∧
      Step s₂ [.returned] s₃ ∧ .called (.deregister 4) (.ok ()) ∈ es₁ ∧
      ranAt es₁ 3 .pollIn = [0] ∧ ranAt es₁ 4 .pollIn = [1] := by
  have h₁ : Step (Dispatcher.initial : Dispatcher ℕ) _ _ :=
    Step.call (c := .registerEvent 3 .pollIn 0) rfl
  have hrun := (Run.Steps.single h₁).tail (Step.call (c := .registerEvent 4 .pollIn 1) rfl)
  have hpoll := @Step.poll ℕ ⟨twoFds, .idle⟩ [(3, 1), (4, 1)] (fun _ => 1)
    [⟨3, 1, 1⟩, ⟨4, 1, 1⟩] rfl (List.Perm.refl _) rfl (by unfold PollFd.Conforms; decide)
  have hloop : Run.Steps Step ⟨twoFds.doDeregister, .scanning [⟨3, 1, 1⟩, ⟨4, 1, 1⟩]⟩
      [.ran 3 .pollIn 0, .called (.deregister 4) (.ok ()), .ran 4 .pollIn 1]
      ⟨twoFds.doDeregister.deregister 4, .scanning []⟩ := by
    have h₃ := @Step.next ℕ ⟨twoFds.doDeregister, .scanning [⟨3, 1, 1⟩, ⟨4, 1, 1⟩]⟩ _ _ _ _
      rfl rfl (List.Perm.refl _)
    have h₄ := (Run.Steps.single h₃).tail (Step.run rfl rfl rfl)
    have h₅ := h₄.tail (Step.callInside (c := .deregister 4) rfl (Joins.same _ _ _))
    have h₆ := (h₅.tail (Step.callbackReturns rfl)).tail (Step.done rfl)
    have h₇ := h₆.tail (Step.next rfl rfl (List.Perm.refl _))
    have h₈ := (h₇.tail (Step.run rfl rfl rfl)).tail (Step.callbackReturns rfl)
    exact h₈.tail (Step.done rfl)
  have hret := @Step.finish ℕ ⟨twoFds.doDeregister.deregister 4, .scanning []⟩ rfl
  obtain ⟨-, -, -, -, hexact⟩ := dispatch_safe hrun
  have hboth := hexact _ _ _ _ _ _ hpoll hloop (by simp [Event.isAsked]) hret
  refine ⟨_, _, _, _, _, _, _, _, hrun, hpoll, hloop, hret, by simp, ?_, ?_⟩
  · exact (hboth 3 .pollIn).1 0 rfl ⟨⟨3, 1, 1⟩, by simp, rfl, rfl⟩
  · exact (hboth 4 .pollIn).1 1 rfl ⟨⟨4, 1, 1⟩, by simp, rfl, rfl⟩

end Poller

end Ringmaster
