/-
# Registrations after a deregistration

The method `deregister` only notes the number of the descriptor, and the start of the next
`poll` erases whatever the maps hold for that number.  A registration that comes in between
is rejected when the old one was of the same event, and erased together with it otherwise.
A registration that comes after the erasure is in effect (`InEffect`).
-/
import Ringmaster.DispatchSafety

namespace Ringmaster

namespace Poller

variable {κ : Type} {s s' : Dispatcher κ} {es es' : List (Event κ)} {fd : ℤ} {flag : Flag}
  {callback : κ}

/-! ## Since the latest deregistration -/

/-- The event was registered after the latest deregistration of its descriptor. -/
def RegisteredSince (es : List (Event κ)) (fd : ℤ) (flag : Flag) : Prop :=
  ∃ es₁ callback es₂, es = es₁ ++ .called (.registerEvent fd flag callback) (.ok ()) :: es₂ ∧
    .called (.deregister fd) (.ok ()) ∉ es₂

/-- Such a registration is still in the roster: no `poll` has erased it. -/
def StillRegistered (es : List (Event κ)) (p : Poller κ) (fd : ℤ) (flag : Flag) : Prop :=
  RegisteredSince es fd flag ∧ (p.callback? fd flag).isSome

/-- The last event decides, unless it has nothing to do with the descriptor. -/
theorem registeredSince_concat (es : List (Event κ)) (e : Event κ) :
    RegisteredSince (es ++ [e]) fd flag ↔
      (∃ callback, e = .called (.registerEvent fd flag callback) (.ok ())) ∨
        (e ≠ .called (.deregister fd) (.ok ()) ∧ RegisteredSince es fd flag) := by
  constructor
  · rintro ⟨es₁, callback, es₂, heq, hnot⟩
    rcases List.eq_nil_or_concat es₂ with rfl | ⟨es₃, e', rfl⟩
    · obtain ⟨-, hlast⟩ := List.append_inj' heq rfl
      exact Or.inl ⟨callback, List.singleton_inj.mp hlast⟩
    · rw [List.concat_eq_append] at heq hnot
      rw [← List.cons_append, ← List.append_assoc] at heq
      obtain ⟨hinit, hlast⟩ := List.append_inj' heq rfl
      rw [List.singleton_inj] at hlast
      rw [List.mem_append, not_or] at hnot
      refine Or.inr ⟨?_, es₁, callback, es₃, hinit, hnot.1⟩
      rintro rfl
      exact hnot.2 (List.mem_singleton.mpr hlast)
  · rintro (⟨callback, rfl⟩ | ⟨hne, es₁, callback, es₂, rfl, hnot⟩)
    · exact ⟨es, callback, [], rfl, List.not_mem_nil⟩
    · refine ⟨es₁, callback, es₂ ++ [e], by simp, ?_⟩
      rw [List.mem_append, not_or]
      exact ⟨hnot, fun hmem => hne (List.mem_singleton.mp hmem).symm⟩

/-- Later events other than a deregistration of the descriptor do not matter. -/
theorem RegisteredSince.append (h : RegisteredSince es fd flag)
    (hnot : .called (.deregister fd) (.ok ()) ∉ es') : RegisteredSince (es ++ es') fd flag := by
  obtain ⟨es₁, callback, es₂, rfl, hnot₂⟩ := h
  refine ⟨es₁, callback, es₂ ++ es', by simp, ?_⟩
  rw [List.mem_append, not_or]
  exact ⟨hnot₂, hnot⟩

/-- After a deregistration only a later registration counts. -/
theorem not_registeredSince_of_deregister (es : List (Event κ)) {es' : List (Event κ)}
    (hnot : ∀ callback, .called (.registerEvent fd flag callback) (.ok ()) ∉ es') :
    ¬ RegisteredSince (es ++ .called (.deregister fd) (.ok ()) :: es') fd flag := by
  induction es' using List.reverseRecOn with
  | nil =>
    rw [registeredSince_concat]
    simp
  | append_singleton es' e ih =>
    rw [← List.cons_append, ← List.append_assoc, registeredSince_concat]
    rintro (⟨callback, rfl⟩ | ⟨-, hsince⟩)
    · exact hnot callback (List.mem_append_right _ List.mem_cons_self)
    · exact ih (fun callback hmem => hnot callback (List.mem_append_left _ hmem)) hsince

/-- Every registered event was registered since the latest deregistration of its descriptor,
unless the descriptor is scheduled. -/
def Accounted (es : List (Event κ)) (s : Dispatcher κ) : Prop :=
  ∀ fd flag callback, s.poller.callback? fd flag = some callback →
    fd ∈ s.poller.fdsToDeregister ∨ RegisteredSince es fd flag

/-- A step keeps account of the registered events. -/
theorem Accounted.step (h : Accounted es s) (hstep : Step s es' s') :
    Accounted (es ++ es') s' := by
  intro fd flag callback hsome
  have heff := hstep.effect
  generalize s'.poller = p' at heff hsome ⊢
  cases heff with
  | called c =>
    have hcall := effect_call s.poller c
    have hkeep : s.poller.callback? fd flag = some callback →
        c.result s.poller ≠ .ok () ∨ c ≠ .deregister fd →
          fd ∈ s.poller.fdsToDeregister ∨
            RegisteredSince (es ++ [.called c (c.result s.poller)]) fd flag := by
      intro hold hne
      refine (h fd flag callback hold).imp id (fun hsince => hsince.append ?_)
      rw [List.mem_singleton, Event.called.injEq]
      rintro ⟨rfl, hok⟩
      exact hne.elim (fun hok' => hok' hok.symm) (fun hc => hc rfl)
    generalize c.result s.poller = result at hcall hkeep ⊢
    generalize c.after s.poller = p' at hcall hsome ⊢
    cases hcall with
    | registered fd₀ flag₀ callback₀ hnone hcallback hroster hactive hnew hold hfds =>
      rw [hcallback] at hsome
      rw [hfds]
      split_ifs at hsome with heq
      · obtain ⟨rfl, rfl⟩ := heq
        exact Or.inr ((registeredSince_concat es _).mpr (Or.inl ⟨callback₀, rfl⟩))
      · exact hkeep hsome (Or.inr (by simp))
    | raised _ e heq =>
      rw [heq] at hsome ⊢
      exact hkeep hsome (Or.inl (by simp))
    | activated fd₀ flag₀ hroster hcontains hactive hfds =>
      rw [callback?, hroster] at hsome
      rw [hfds]
      exact hkeep hsome (Or.inr (by simp))
    | deactivated fd₀ flag₀ hroster hcontains hactive hfds =>
      rw [callback?, hroster] at hsome
      rw [hfds]
      exact hkeep hsome (Or.inr (by simp))
    | deregistered fd₀ hroster hactive hfds =>
      rw [callback?, hroster] at hsome
      rw [hfds, List.mem_insert_iff]
      by_cases hfd : fd = fd₀
      · exact Or.inl (Or.inl hfd)
      · refine (hkeep hsome (Or.inr ?_)).imp Or.inr id
        rw [ne_eq, Call.deregister.injEq]
        exact Ne.symm hfd
  | polled asked es'' hperm hcalled =>
    rw [callback?_doDeregister] at hsome
    split_ifs at hsome with hfd
    refine Or.inr (((h fd flag callback hsome).resolve_left hfd).append ?_)
    rw [List.mem_cons, not_or]
    exact ⟨by simp, hcalled _ _⟩
  | unchanged es'' hcalled hasked =>
    exact (h fd flag callback hsome).imp id (fun hsince => hsince.append (hcalled _ _))

/-- Every run keeps account of the registered events. -/
theorem accounted_of_steps (h : Run.Steps Step Dispatcher.initial es s) : Accounted es s :=
  h.invariant Accounted
    (fun _ _ _ hsome => by simp [Dispatcher.initial, initial, callback?] at hsome)
    (fun _ _ _ _ hI hstep => hI.step hstep)

/-! ## In effect at the next `poll` -/

/-- The registration holds, is active, and is not scheduled to end. -/
structure Kept (fd : ℤ) (flag : Flag) (callback : κ) (p : Poller κ) : Prop where
  registered : p.callback? fd flag = some callback
  active : p.isActive fd flag
  not_scheduled : fd ∉ p.fdsToDeregister

/-- A call keeps a registration, unless it deregisters the descriptor or deactivates the
event. -/
theorem Kept.call {p p' : Poller κ} {c : Call κ} {result : Except Exn Unit}
    (h : Kept fd flag callback p) (heff : CallEffect p p' c result)
    (hderegister : c = .deregister fd → result ≠ .ok ())
    (hdeactivate : c = .deactivate fd flag → result ≠ .ok ()) : Kept fd flag callback p' := by
  have hsome := heff.callback?_eq_some h.registered
  cases heff with
  | registered fd₀ flag₀ callback₀ hnone hcallback hroster hactive hnew hold hfds =>
    have hc : p.roster.contains fd := by
      obtain ⟨callbacks, hfind, -⟩ := Option.bind_eq_some_iff.mp h.registered
      rw [OrderedMap.contains, hfind]
      rfl
    exact ⟨hsome, hold fd flag hc h.active, hfds ▸ h.not_scheduled⟩
  | raised _ e heq =>
    rw [heq]
    exact h
  | activated fd₀ flag₀ hroster hcontains hactive hfds =>
    refine ⟨hsome, ?_, hfds ▸ h.not_scheduled⟩
    rw [hactive, h.active, Bool.true_or]
  | deactivated fd₀ flag₀ hroster hcontains hactive hfds =>
    refine ⟨hsome, ?_, hfds ▸ h.not_scheduled⟩
    rw [hactive, h.active, Bool.true_and, decide_eq_true_eq]
    rintro ⟨rfl, rfl⟩
    exact hdeactivate rfl rfl
  | deregistered fd₀ hroster hactive hfds =>
    refine ⟨hsome, ?_, ?_⟩
    · rw [isActive, hactive]
      exact h.active
    · rw [hfds, List.mem_insert_iff, not_or]
      exact ⟨fun hfd => hderegister (by rw [hfd]) rfl, h.not_scheduled⟩

/-- A run up to the next `poll` keeps a registration, if it neither deregisters the
descriptor nor deactivates the event. -/
theorem Kept.of_steps (h : Kept fd flag callback s.poller) (hrun : Run.Steps Step s es s')
    (hasked : ∀ e ∈ es, ¬ e.isAsked) (hderegister : .called (.deregister fd) (.ok ()) ∉ es)
    (hdeactivate : .called (.deactivate fd flag) (.ok ()) ∉ es) :
    Kept fd flag callback s'.poller := by
  refine hrun.invariant_of_forall
    (fun e => ¬ e.isAsked ∧ e ≠ .called (.deregister fd) (.ok ()) ∧
      e ≠ .called (.deactivate fd flag) (.ok ()))
    (fun _ s => Kept fd flag callback s.poller) h ?_ ?_
  · intro es₁ t es₂ u hG hI hstep
    have heff := hstep.effect
    generalize u.poller = p' at heff ⊢
    cases heff with
    | called c =>
      obtain ⟨-, hG₂, hG₃⟩ := hG _ List.mem_cons_self
      refine hI.call (effect_call t.poller c) ?_ ?_
      · intro hc hok
        exact hG₂ (by rw [hok, hc])
      · intro hc hok
        exact hG₃ (by rw [hok, hc])
    | polled asked es₃ hperm hcalled => exact absurd rfl (hG _ List.mem_cons_self).1
    | unchanged _ hcalled hasked' => exact hI
  · intro e he
    exact ⟨hasked e he, ne_of_mem_of_not_mem he hderegister,
      ne_of_mem_of_not_mem he hdeactivate⟩

/-- A registration is in effect at the next `poll`, unless the descriptor is deregistered or
the event deactivated before: the kernel is asked for the event, and if it reports it,
exactly the callback is executed for it. -/
def InEffect (s : Dispatcher κ) (fd : ℤ) (flag : Flag) (callback : κ) : Prop :=
  ∀ es₁ s₁ asked es₂ s₂, Run.Steps Step s es₁ s₁ → (∀ e ∈ es₁, ¬ e.isAsked) →
    .called (.deregister fd) (.ok ()) ∉ es₁ → .called (.deactivate fd flag) (.ok ()) ∉ es₁ →
    Step s₁ (.asked asked :: es₂) s₂ →
      (∃ events, (fd, events) ∈ asked ∧ EventMask.has events flag) ∧
      ∀ results es₃ s₃ s₄, es₂ = [.reported results] → Run.Steps Step s₂ es₃ s₃ →
        (∀ e ∈ es₃, ¬ e.isAsked) → Step s₃ [.returned] s₄ → Reported results fd flag →
          ranAt es₃ fd flag = [callback]

/-- The step that calls `poll` asks for what is active after the deregistrations. -/
theorem asked_cases {asked : List (ℤ × EventMask)}
    (h : Step s (.asked asked :: es) s') :
    asked.Perm s.poller.doDeregister.fdsToPoll ∧ s'.poller = s.poller.doDeregister := by
  have heff := h.effect
  generalize s'.poller = p' at heff ⊢
  cases heff with
  | polled _ _ hperm hcalled => exact ⟨hperm, rfl⟩
  | unchanged _ hcalled hasked => exact absurd List.mem_cons_self (hasked asked)

/-- A registration that is not scheduled to end is in effect. -/
theorem Kept.inEffect (h : Kept fd flag callback s.poller) (hinv : Inv s) :
    InEffect s fd flag callback := by
  intro es₁ s₁ asked es₂ s₂ hrun hasked hderegister hdeactivate hpoll
  have hkept := h.of_steps hrun hasked hderegister hdeactivate
  have hinv₁ := hinv.of_steps hrun
  obtain ⟨hperm, hpoller⟩ := asked_cases hpoll
  constructor
  · have hactive : s₁.poller.doDeregister.isActive fd flag := by
      rw [isActive, find?_activeEvents_doDeregister, if_neg hkept.not_scheduled]
      exact hkept.active
    obtain ⟨events, hmem, hhas⟩ := exists_mem_fdsToPoll hactive
    exact ⟨events, hperm.mem_iff.mpr hmem, hhas⟩
  · rintro results es₃ s₃ s₄ rfl hrun₃ hasked₃ hret hreported
    refine (ranAt_of_poll hinv₁ hpoll hrun₃ hasked₃ hret fd flag).1 callback ?_ hreported
    rw [hpoller, callback?_doDeregister, if_neg hkept.not_scheduled]
    exact hkept.registered

/-- A registration on a scheduled descriptor is not in effect: it can be erased by the next
`poll` before anything else happens. -/
theorem not_inEffect_of_mem (hinv : Inv s) (hfd : fd ∈ s.poller.fdsToDeregister) :
    ¬ InEffect s fd flag callback := by
  intro heff
  obtain ⟨es₁, hrun, hes₁⟩ : ∃ es, Run.Steps Step s es ⟨s.poller, .idle⟩ ∧
      ∀ e ∈ es, (∃ fd flag callback, e = Event.ran fd flag callback) ∨ e = .returned := by
    by_cases hpolling : s.phase.isPolling
    · obtain ⟨es, hsteps, hes⟩ := exists_return hinv hpolling
      refine ⟨_, hsteps.tail (Step.finish rfl), fun e he => ?_⟩
      rcases List.mem_append.mp he with hmem | hmem
      · exact Or.inl (hes e hmem)
      · exact Or.inr (List.mem_singleton.mp hmem)
    · obtain ⟨p, ph⟩ := s
      cases ph with
      | idle => exact ⟨[], Run.Steps.refl _, by simp⟩
      | aborted => exact absurd rfl hinv.not_aborted
      | _ => exact absurd rfl hpolling
  have hpoll : Step (⟨s.poller, .idle⟩ : Dispatcher κ)
      [.asked s.poller.doDeregister.fdsToPoll, .reported
        (s.poller.doDeregister.fdsToPoll.map fun e => ⟨e.1, e.2, 0⟩)] _ :=
    @Step.poll κ ⟨s.poller, .idle⟩ _ (fun _ => 0) _ rfl (List.Perm.refl _) rfl (by
      intro it hit
      obtain ⟨e, he, rfl⟩ := List.mem_map.mp hit
      exact BitVec.zero_and)
  have hasked : ∀ e ∈ es₁, ¬ e.isAsked := by
    intro e he
    rcases hes₁ e he with ⟨fd', flag', callback', rfl⟩ | rfl
    · simp [Event.isAsked]
    · simp [Event.isAsked]
  have hcalled : ∀ c result, .called c result ∉ es₁ := by
    intro c result he
    simpa using hes₁ _ he
  obtain ⟨⟨events, hmem, -⟩, -⟩ :=
    heff es₁ _ _ _ _ hrun hasked (hcalled _ _) (hcalled _ _) hpoll
  -- the descriptor was erased
  have hfind : s.poller.doDeregister.activeEvents.find? fd = some events :=
    OrderedMap.find?_eq_some_iff.mpr (List.mem_of_mem_filter hmem)
  rw [find?_activeEvents_doDeregister, if_pos hfd] at hfind
  exact absurd hfind (by simp)

/-- The step that makes a call has its result and its effect. -/
theorem called_cases {c : Call κ} {result : Except Exn Unit}
    (h : Step s [.called c result] s') :
    result = c.result s.poller ∧ s'.poller = c.after s.poller := by
  have heff := h.effect
  generalize s'.poller = p' at heff ⊢
  cases heff with
  | called _ => exact ⟨rfl, rfl⟩
  | unchanged _ hcalled _ => exact absurd List.mem_cons_self (hcalled _ _)

/-- Re-registration.  In every run, a registration of an event of which no registration since the
latest deregistration of its descriptor is still in the roster succeeds and is in effect at the next
`poll` if and only if the descriptor is not scheduled for its deregistration when the call is
made. -/
theorem reregistration_honoured_iff {result : Except Exn Unit}
    (hrun : Run.Steps Step Dispatcher.initial es s)
    (hcall : Step s [.called (.registerEvent fd flag callback) result] s')
    (hnew : ¬ StillRegistered es s.poller fd flag) :
    (result = .ok () ∧ InEffect s' fd flag callback) ↔ fd ∉ s.poller.fdsToDeregister := by
  have hinv' := (inv_of_steps hrun).step hcall
  obtain ⟨hresult, hafter⟩ := called_cases hcall
  have heff : CallEffect s.poller s'.poller (.registerEvent fd flag callback) result := by
    rw [hresult, hafter]
    exact effect_call s.poller _
  constructor
  · rintro ⟨rfl, hineffect⟩ hfd
    refine not_inEffect_of_mem hinv' ?_ hineffect
    cases heff with
    | registered _ _ _ hnone hcallback hroster hactive hnew' hold hfds => rwa [hfds]
  · intro hfd
    have hnone : s.poller.callback? fd flag = none := by
      rw [Option.eq_none_iff_forall_ne_some]
      intro callback' hsome
      rcases accounted_of_steps hrun fd flag callback' hsome with hmem | hsince
      · exact hfd hmem
      · exact hnew ⟨hsince, Option.isSome_iff_exists.mpr ⟨callback', hsome⟩⟩
    have hok : result = .ok () := by
      obtain ⟨p', hreg, -⟩ := effect_registerEvent hnone callback
      rw [hresult, Call.result, Call.run, hreg]
      rfl
    subst hok
    refine ⟨rfl, Kept.inEffect ?_ hinv'⟩
    cases heff with
    | registered _ _ _ hnone' hcallback hroster hactive hnew' hold hfds =>
      refine ⟨?_, hnew', hfds ▸ hfd⟩
      rw [hcallback, if_pos ⟨rfl, rfl⟩]

/-- A poller with one descriptor, which is scheduled for its deregistration. -/
def scheduledFd : Poller ℕ :=
  (Call.deregister 3).after ((Call.registerEvent 3 .pollIn 0).after initial)

/-- The two calls that lead to it. -/
theorem steps_scheduledFd : Run.Steps Step (Dispatcher.initial : Dispatcher ℕ)
    [.called (.registerEvent 3 .pollIn 0) (.ok ()), .called (.deregister 3) (.ok ())]
    ⟨scheduledFd, .idle⟩ :=
  (Run.Steps.single (Step.call (c := .registerEvent 3 .pollIn 0) rfl)).tail
    (Step.call (c := .deregister 3) rfl)

/-- After the deregistration was carried out, the number of the descriptor can be used
again. -/
theorem reregistration_honoured_iff_afterPoll : ∃ es s s',
    Run.Steps Step (Dispatcher.initial : Dispatcher ℕ) es s ∧
      .called (.registerEvent 3 .pollIn 0) (.ok ()) ∈ es ∧
      Step s [.called (.registerEvent 3 .pollIn 1) (.ok ())] s' ∧ InEffect s' 3 .pollIn 1 := by
  have hasked : scheduledFd.doDeregister.fdsToPoll = [] := rfl
  have hpoll : Step ⟨scheduledFd, .idle⟩ [.asked [], .reported []]
      ⟨scheduledFd.doDeregister, .scanning []⟩ :=
    @Step.poll ℕ ⟨scheduledFd, .idle⟩ [] (fun _ => 0) [] rfl (by rw [hasked]) rfl (by simp)
  have hrun : Run.Steps Step (Dispatcher.initial : Dispatcher ℕ)
      [.called (.registerEvent 3 .pollIn 0) (.ok ()), .called (.deregister 3) (.ok ()),
        .asked [], .reported [], .returned] ⟨scheduledFd.doDeregister, .idle⟩ :=
    (steps_scheduledFd.tail hpoll).tail (Step.finish rfl)
  have hcall : Step (⟨scheduledFd.doDeregister, .idle⟩ : Dispatcher ℕ)
      [.called (.registerEvent 3 .pollIn 1) (.ok ())]
      ⟨(Call.registerEvent 3 .pollIn 1).after scheduledFd.doDeregister, .idle⟩ :=
    Step.call (c := .registerEvent 3 .pollIn 1) rfl
  have hiff := reregistration_honoured_iff hrun hcall
    (fun hstill => not_registeredSince_of_deregister [_] (by simp) hstill.1)
  exact ⟨_, _, _, hrun, by simp, hcall, (hiff.mpr List.not_mem_nil).2⟩

/-- Between the deregistration and the next `poll`, a registration of the same event raises
an exception, and one of another event is lost. -/
theorem exists_reregistration_lost : ∃ es s s₁ s₂,
    Run.Steps Step (Dispatcher.initial : Dispatcher ℕ) es s ∧
      ¬ RegisteredSince es 3 .pollIn ∧ ¬ RegisteredSince es 3 .pollOut ∧
      Step s [.called (.registerEvent 3 .pollIn 1)
        (.error (.runtimeError "attempted to register the same event"))] s₁ ∧
      Step s [.called (.registerEvent 3 .pollOut 1) (.ok ())] s₂ ∧
      ¬ InEffect s₂ 3 .pollOut 1 := by
  have hsame : Step (⟨scheduledFd, .idle⟩ : Dispatcher ℕ) [.called (.registerEvent 3 .pollIn 1)
      (.error (.runtimeError "attempted to register the same event"))] ⟨scheduledFd, .idle⟩ :=
    Step.call (c := .registerEvent 3 .pollIn 1) rfl
  have hother : Step (⟨scheduledFd, .idle⟩ : Dispatcher ℕ)
      [.called (.registerEvent 3 .pollOut 1) (.ok ())]
      ⟨(Call.registerEvent 3 .pollOut 1).after scheduledFd, .idle⟩ :=
    Step.call (c := .registerEvent 3 .pollOut 1) rfl
  refine ⟨_, _, _, _, steps_scheduledFd, not_registeredSince_of_deregister [_] (by simp),
    not_registeredSince_of_deregister [_] (by simp), hsame, hother, ?_⟩
  exact not_inEffect_of_mem ((inv_of_steps steps_scheduledFd).step hother) List.mem_cons_self

end Poller

end Ringmaster
