/-
# The two programs over the network

The sender as a program: its main loop calls `poll`, and the poller calls the callbacks that were
registered.  The receiver as a program: each round of its main loop receives a datagram.  Between
them the network of `Delivery.lean`.

A run of the two programs is a run of the composed system there (`delivery_of_steps`), so what
holds of all its runs holds of the programs.  Two results that also need the poller: when the
sender no longer asks for a writable socket and has nothing unacked, the receiver is up to date
(`idle_caught_up`); and no callback raises an exception unless a system call, the video input or
the codec fails (`callbacks_return`).
-/
import Ringmaster.Coherence
import Ringmaster.VideoSender

open Unsigned

namespace Ringmaster

open Packetization Encoder

/-! ## The main loop of the sender -/

/-- A step of the main loop executes a callback, or leaves the program alone and at most carries
out the deregistrations that are due. -/
theorem Poller.LoopStep.cases {κ α τ : Type}
    {run : κ → Poller κ × α → List τ → Poller κ × α → Prop} {l l' : MainLoop κ α} {es : List τ}
    (h : LoopStep run l es l') :
    (es = [] ∧ l'.app = l.app ∧ (l'.poller = l.poller ∨ l'.poller = l.poller.doDeregister)) ∨
    ∃ callback, run callback (l.poller, l.app) es (l'.poller, l'.app) := by
  cases h with
  | poll => exact Or.inl ⟨rfl, rfl, Or.inr rfl⟩
  | next => exact Or.inl ⟨rfl, rfl, Or.inl rfl⟩
  | skip => exact Or.inl ⟨rfl, rfl, Or.inl rfl⟩
  | call _ _ _ hrun => exact Or.inr ⟨_, hrun⟩
  | done => exact Or.inl ⟨rfl, rfl, Or.inl rfl⟩

namespace VideoSender

variable {E : Type} {fds : Descriptors} {maxPayload : ℕ}

/-- What holds before the loop over `send_buf_`, and is kept by every attempt to send the datagram
at its front, holds when the loop ends. -/
theorem sendLoop_induction (I : List SenderEvent → Encoder E → Prop)
    (hsend : ∀ es (enc : Encoder E) d rest t outcome es' more enc', I es enc →
      enc.sendBuf = d :: rest → enc.sendFront d rest t outcome = .ok (es', more, enc') →
      I (es ++ es') enc')
    {attempt : ℕ → UInt64 × SendOutcome} {i : ℕ} {buf : List Datagram}
    {encoder encoder' : Encoder E} {es₀ es : List SenderEvent} (init : I es₀ encoder)
    (hbuf : encoder.sendBuf = buf) (h : sendLoop attempt i buf encoder = .ok (es, encoder')) :
    I (es₀ ++ es) encoder' := by
  induction buf generalizing i encoder es₀ es with
  | nil =>
    rw [sendLoop, Except.ok.injEq, Prod.mk.injEq] at h
    obtain ⟨rfl, rfl⟩ := h
    rw [List.append_nil]
    exact init
  | cons d rest ih =>
    unfold sendLoop at h
    cases hfront : encoder.sendFront d rest (attempt i).1 (attempt i).2 with
    | error e => simp [hfront] at h
    | ok result =>
      obtain ⟨es₁, more, encoder₁⟩ := result
      have hI := hsend es₀ encoder d rest _ _ es₁ more encoder₁ init hbuf hfront
      cases more with
      | false =>
        simp only [hfront, Except.ok.injEq, Prod.mk.injEq] at h
        obtain ⟨rfl, rfl⟩ := h
        exact hI
      | true =>
        cases hloop : sendLoop attempt (i + 1) rest encoder₁ with
        | error e => simp [hfront, hloop] at h
        | ok result' =>
          obtain ⟨es₂, encoder₂⟩ := result'
          simp only [hfront, hloop, Except.ok.injEq, Prod.mk.injEq] at h
          obtain ⟨rfl, rfl⟩ := h
          rw [← List.append_assoc]
          exact ih hI (sendBuf_of_sendFront hfront) hloop

/-- The socket is registered with the poller. -/
def Registered (fds : Descriptors) (poller : Poller Callback) : Prop :=
  poller.activeEvents.contains fds.udpSock = true

/-- A registration, when it succeeds, adds its descriptor. -/
theorem contains_registerEvent {p p' : Poller Callback} {fd : ℤ} {flag : Flag}
    {callback : Callback} (h : p.registerEvent fd flag callback = .ok p') (fd' : ℤ) :
    p'.activeEvents.contains fd' = (decide (fd' = fd) || p.activeEvents.contains fd') := by
  unfold Poller.registerEvent at h
  cases hfind : p.roster.find? fd with
  | none =>
    simp only [hfind, Except.ok.injEq] at h
    rw [← h]
    exact OrderedMap.contains_assign _ _ _ fd'
  | some callbacks =>
    simp only [hfind] at h
    split_ifs at h
    rw [Except.ok.injEq] at h
    rw [← h]
    exact OrderedMap.contains_assign _ _ _ fd'

/-- The socket is registered before the main loop. -/
theorem registered_start {displayWidth displayHeight : UInt16} {hasOutput : Bool}
    {l : Poller.MainLoop Callback (Encoder E)}
    (h : start fds displayWidth displayHeight hasOutput = .ok l) : Registered fds l.poller := by
  unfold start registerCallbacks at h
  cases h₁ : Poller.initial.registerEvent fds.fpsTimer .pollIn Callback.fpsTimer with
  | error e => simp [h₁] at h
  | ok p₁ =>
    cases h₂ : p₁.registerEvent fds.udpSock .pollOut .writable with
    | error e => simp [h₁, h₂] at h
    | ok p₂ =>
      cases h₃ : p₂.registerEvent fds.udpSock .pollIn .readable with
      | error e => simp [h₁, h₂, h₃] at h
      | ok p₃ =>
        cases h₄ : p₃.registerEvent fds.statsTimer .pollIn .statsTimer with
        | error e => simp [h₁, h₂, h₃, h₄] at h
        | ok p₄ =>
          simp only [h₁, h₂, h₃, h₄, Except.ok.injEq] at h
          rw [← h]
          show p₄.activeEvents.contains fds.udpSock = true
          rw [contains_registerEvent h₄, contains_registerEvent h₃]
          simp

/-- The activation raises nothing, and keeps the registration. -/
theorem Registered.exists_activateIfQueued {poller : Poller Callback}
    (h : Registered fds poller) (encoder : Encoder E) :
    ∃ poller', activateIfQueued fds poller encoder = .ok poller' ∧ Registered fds poller' := by
  obtain ⟨events, hfind⟩ := Option.isSome_iff_exists.mp h
  obtain ⟨poller', hactivate⟩ : ∃ poller', poller.activate fds.udpSock .pollOut = .ok poller' := by
    unfold Poller.activate
    rw [hfind]
    exact ⟨_, rfl⟩
  unfold activateIfQueued
  split_ifs
  · exact ⟨poller', hactivate, ((Poller.contains_activate hactivate).2 _).trans h⟩
  · exact ⟨poller, rfl, h⟩

/-- The deactivation raises nothing. -/
theorem Registered.exists_deactivate {poller : Poller Callback} (h : Registered fds poller) :
    ∃ poller', poller.deactivate fds.udpSock .pollOut = .ok poller' := by
  obtain ⟨events, hfind⟩ := Option.isSome_iff_exists.mp h
  unfold Poller.deactivate
  rw [hfind]
  exact ⟨_, rfl⟩

/-- What an activation leaves is registered. -/
theorem Registered.activateIfQueued {poller poller' : Poller Callback} {encoder : Encoder E}
    (h : Registered fds poller) (hactivate : activateIfQueued fds poller encoder = .ok poller') :
    Registered fds poller' := by
  obtain ⟨poller'', heq, hregistered⟩ := h.exists_activateIfQueued encoder
  rw [hactivate, Except.ok.injEq] at heq
  rw [heq]
  exact hregistered

section Steps

variable [RttArith E]

/-- The callback for a readable socket returns at a message that is no acknowledgement, and
otherwise handles it and goes on. -/
theorem readableCallback_cases {rawData : Bytes} {t : UInt64}
    {rest : List (Except Exn Bytes × UInt64)} {poller poller' : Poller Callback}
    {encoder encoder' : Encoder E} {es : List SenderEvent}
    (h : readableCallback fds ((.ok rawData, t) :: rest) poller encoder
      = .ok (es, poller', encoder')) :
    (es = [] ∧ poller' = poller ∧ encoder' = encoder) ∨
    ∃ ack es₁ encoder₁ poller₁ es₂, Msg.parseFromString rawData = .ok (some (.ack ack)) ∧
      encoder.handleAck ack t = .ok (es₁, encoder₁) ∧
      activateIfQueued fds poller encoder₁ = .ok poller₁ ∧
      readableCallback fds rest poller₁ encoder₁ = .ok (es₂, poller', encoder') ∧
      es = es₁ ++ es₂ := by
  unfold readableCallback at h
  cases hparse : Msg.parseFromString rawData with
  | error e => simp [hparse] at h
  | ok msg =>
    rcases msg with _ | ack | msg
    · simp only [hparse, Except.ok.injEq, Prod.mk.injEq] at h
      exact Or.inl ⟨h.1.symm, h.2.1.symm, h.2.2.symm⟩
    · cases hhandle : encoder.handleAck ack t with
      | error e => simp [hparse, hhandle] at h
      | ok result =>
        obtain ⟨es₁, encoder₁⟩ := result
        cases hactivate : activateIfQueued fds poller encoder₁ with
        | error e => simp [hparse, hhandle, hactivate] at h
        | ok poller₁ =>
          cases hrest : readableCallback fds rest poller₁ encoder₁ with
          | error e => simp [hparse, hhandle, hactivate, hrest] at h
          | ok result' =>
            obtain ⟨es₂, poller₂, encoder₂⟩ := result'
            simp only [hparse, hhandle, hactivate, hrest, Except.ok.injEq, Prod.mk.injEq] at h
            obtain ⟨rfl, rfl, rfl⟩ := h
            exact Or.inr ⟨ack, es₁, encoder₁, poller₁, es₂, rfl, hhandle, hactivate, hrest, rfl⟩
    · simp only [hparse, Except.ok.injEq, Prod.mk.injEq] at h
      exact Or.inl ⟨h.1.symm, h.2.1.symm, h.2.2.symm⟩

/-- Every callback keeps the registration. -/
theorem Registered.runs {callback : Callback} {s s' : Poller Callback × Encoder E}
    {es : List SenderEvent} (h : Registered fds s.1) (hrun : Runs fds maxPayload callback s es s') :
    Registered fds s'.1 := by
  cases hrun with
  | fpsTimer hcall => exact h.activateIfQueued (fpsTimerCallback_cases hcall).2
  | writable hcall =>
    obtain ⟨-, ⟨-, hdeactivate⟩ | ⟨-, heq⟩⟩ := writableCallback_cases hcall
    · exact ((Poller.contains_deactivate hdeactivate).2 _).trans h
    · rw [heq]
      exact h
  | readable hcall =>
    refine @readableCallback_induction E _ fds (fun _ poller _ => Registered fds poller) ?_ _ []
      _ _ _ _ _ h hcall
    exact fun es poller enc ack t es' enc' poller' hI _ hactivate => hI.activateIfQueued hactivate
  | statsTimer => exact h

end Steps

end VideoSender

/-! ## The programs -/

open VideoSender Delivery

namespace Programs

/-- The sender in its main loop, the receiver between two rounds, and the network. -/
structure System (E : Type) where
  mainLoop : Poller.MainLoop Callback (Encoder E)
  decoder : Decoder
  toReceiver : List Bytes
  toSender : List Bytes

variable {E : Type} {fds : Descriptors} {maxPayload : ℕ}

/-- The composed system without the poller. -/
def System.delivery (s : System E) : Delivery.System E :=
  ⟨s.mainLoop.app, s.decoder, s.toReceiver, s.toSender⟩

/-- The programs at the start, with the main loop of the sender in `mainLoop`. -/
def initial (mainLoop : Poller.MainLoop Callback (Encoder E)) (lazyLevel : LazyLevel) : System E :=
  ⟨mainLoop, Decoder.initial lazyLevel, [], []⟩

/-- The callbacks, when libvpx returns one frame for each image and the socket receives what the
receiver sent. -/
inductive Serves [RttArith E] (fds : Descriptors) (maxPayload : ℕ) (toSender : List Bytes) :
    Callback → Poller Callback × Encoder E → List SenderEvent → Poller Callback × Encoder E → Prop
  | fpsTimer {poller poller' : Poller Callback} {encoder encoder' : Encoder E}
      {read : Except Exn (ℕ × UInt64)} {frames : ℕ → Except Exn Bool} {inp : CompressInput}
      {es : List SenderEvent} :
      ReturnsOneFrame inp →
      fpsTimerCallback fds maxPayload read frames inp poller encoder = .ok (es, poller', encoder') →
      Serves fds maxPayload toSender .fpsTimer (poller, encoder) es (poller', encoder')
  | writable {poller poller' : Poller Callback} {encoder encoder' : Encoder E}
      {attempt : ℕ → UInt64 × SendOutcome} {es : List SenderEvent} :
      writableCallback fds attempt poller encoder = .ok (es, poller', encoder') →
      Serves fds maxPayload toSender .writable (poller, encoder) es (poller', encoder')
  | readable {poller poller' : Poller Callback} {encoder encoder' : Encoder E}
      {received : List (Except Exn Bytes × UInt64)} {es : List SenderEvent} :
      (∀ r ∈ received, ∃ binary ∈ toSender, r.1 = .ok binary) →
      readableCallback fds received poller encoder = .ok (es, poller', encoder') →
      Serves fds maxPayload toSender .readable (poller, encoder) es (poller', encoder')
  | statsTimer {poller : Poller Callback} {encoder : Encoder E} {read : Except Exn (ℕ × UInt64)}
      {numExp : ℕ} :
      readExpirations read = .ok numExp →
      Serves fds maxPayload toSender .statsTimer (poller, encoder) [] (poller, encoder)

/-- The steps of the programs: one of the sender's main loop, or a round of the receiver's.  The
states are those between the callbacks of the one and between the rounds of the other. -/
inductive Step [RttArith E] (fds : Descriptors) (maxPayload : ℕ) :
    System E → List Event → System E → Prop
  | sender {s : System E} {mainLoop : Poller.MainLoop Callback (Encoder E)}
      {es : List SenderEvent} :
      Poller.LoopStep (Serves fds maxPayload s.toSender) s.mainLoop es mainLoop →
      Step fds maxPayload s (es.map .sender) { s with
        mainLoop := mainLoop
        toReceiver := s.toReceiver ++ (sentDatagrams es).map Datagram.serializeToString }
  | receiver {s : System E} {binary : Bytes} {d : Datagram} {decoder decoder' : Decoder}
      {frames : List Frame} :
      binary ∈ s.toReceiver → Datagram.parseFromString {} binary = .ok (true, d) →
      s.decoder.addDatagram d = (.ok (), decoder) → Receiver.DrainEnds decoder frames decoder' →
      Step fds maxPayload s [.received d] { s with
        decoder := decoder'
        toSender := s.toSender ++ [(AckMsg.ofDatagram d).serializeToString] }

variable [RttArith E]

/-- Such a callback is one of the main loop's. -/
theorem Serves.runs {toSender : List Bytes} {callback : Callback}
    {s s' : Poller Callback × Encoder E} {es : List SenderEvent}
    (h : Serves fds maxPayload toSender callback s es s') :
    Runs fds maxPayload callback s es s' := by
  cases h with
  | fpsTimer _ hcall => exact Runs.fpsTimer hcall
  | writable hcall => exact Runs.writable hcall
  | readable _ hcall => exact Runs.readable hcall
  | statsTimer hread => exact Runs.statsTimer hread

omit [RttArith E] in
/-- Two steps of the sender, one after the other. -/
theorem sends_sends (s : Delivery.System E) (encoder encoder' : Encoder E)
    (es es' : List SenderEvent) :
    (s.sends encoder es).sends encoder' es' = s.sends encoder' (es ++ es') := by
  unfold Delivery.System.sends
  rw [sentDatagrams_append, List.map_append, List.append_assoc]

omit [RttArith E] in
theorem sends_nil (s : Delivery.System E) : s.sends s.encoder [] = s := by
  unfold Delivery.System.sends
  show Delivery.System.mk _ _ (s.toReceiver ++ []) _ = _
  rw [List.append_nil]

/-- A step of the sender, after some others. -/
theorem steps_sends {s : Delivery.System E} {encoder encoder' : Encoder E}
    {es es' : List SenderEvent}
    (h : Run.Steps (Delivery.Step maxPayload) s (es.map .sender) (s.sends encoder es))
    (hstep : Delivery.Step maxPayload (s.sends encoder es) (es'.map .sender)
      ((s.sends encoder es).sends encoder' es')) :
    Run.Steps (Delivery.Step maxPayload) s ((es ++ es').map .sender) (s.sends encoder' (es ++ es'))
    := by
  rw [List.map_append, ← sends_sends s encoder]
  exact h.tail hstep

/-- The callback for a readable socket, after some other steps of the sender. -/
theorem steps_readable {s : Delivery.System E} {received : List (Except Exn Bytes × UInt64)}
    (hreceived : ∀ r ∈ received, ∃ binary ∈ s.toSender, r.1 = .ok binary)
    {poller poller' : Poller Callback} {encoder encoder' : Encoder E} {es₀ es : List SenderEvent}
    (init : Run.Steps (Delivery.Step maxPayload) s (es₀.map .sender) (s.sends encoder es₀))
    (h : readableCallback fds received poller encoder = .ok (es, poller', encoder')) :
    Run.Steps (Delivery.Step maxPayload) s ((es₀ ++ es).map .sender)
      (s.sends encoder' (es₀ ++ es)) := by
  induction received generalizing poller encoder es₀ es with
  | nil =>
    rw [readableCallback, Except.ok.injEq, Prod.mk.injEq, Prod.mk.injEq] at h
    obtain ⟨rfl, -, rfl⟩ := h
    rw [List.append_nil]
    exact init
  | cons message rest ih =>
    obtain ⟨rawData, t⟩ := message
    obtain ⟨binary, hb, hraw⟩ := hreceived _ List.mem_cons_self
    have hraw' : rawData = .ok binary := hraw
    subst hraw'
    rcases readableCallback_cases h with ⟨rfl, -, rfl⟩ |
      ⟨ack, es₁, encoder₁, poller₁, es₂, hparse, hack, -, hrest, rfl⟩
    · rw [List.append_nil]
      exact init
    · rw [← List.append_assoc]
      exact ih (fun r hr => hreceived r (List.mem_cons_of_mem _ hr))
        (steps_sends init (Delivery.Step.ack hb hparse hack)) hrest

/-- A callback is a sequence of steps of the composed system. -/
theorem Serves.steps {s : Delivery.System E} {callback : Callback} {poller : Poller Callback}
    {s' : Poller Callback × Encoder E} {es : List SenderEvent}
    (h : Serves fds maxPayload s.toSender callback (poller, s.encoder) es s') :
    Run.Steps (Delivery.Step maxPayload) s (es.map .sender) (s.sends s'.2 es) := by
  have init : Run.Steps (Delivery.Step maxPayload) s (([] : List SenderEvent).map .sender)
      (s.sends s.encoder []) := by
    rw [sends_nil]
    exact Run.Steps.refl s
  cases h with
  | fpsTimer hvpx hcall =>
    exact Run.Steps.single (Delivery.Step.compress hvpx (fpsTimerCallback_cases hcall).1)
  | writable hcall =>
    refine sendLoop_induction (fun es enc =>
      Run.Steps (Delivery.Step maxPayload) s (es.map .sender) (s.sends enc es)) ?_ init rfl
      (writableCallback_cases hcall).1
    intro es enc d rest t outcome es' more enc' hI hbuf hsend
    exact steps_sends hI (Delivery.Step.send hbuf hsend)
  | readable hreceived hcall => exact steps_readable hreceived init hcall
  | statsTimer => exact init

/-! ## Runs -/

/-- What holds between two steps of the programs: they are in a state of the composed system, the
poller asks for a writable socket as long as there is something to send, and the socket is
registered. -/
structure Attuned (fds : Descriptors) (maxPayload : ℕ) (s₀ s : System E) (es : List Event) :
    Prop where
  steps : Run.Steps (Delivery.Step maxPayload) s₀.delivery es s.delivery
  awake : Awake fds s.mainLoop.poller s.mainLoop.app
  registered : Registered fds s.mainLoop.poller

/-- Every step keeps the poller attuned to the composed system. -/
theorem Attuned.step {s₀ s s' : System E} {es es' : List Event}
    (h : Attuned fds maxPayload s₀ s es) (hstep : Step fds maxPayload s es' s') :
    Attuned fds maxPayload s₀ s' (es ++ es') := by
  cases hstep with
  | @sender mainLoop ses hloop =>
    rcases hloop.cases with ⟨rfl, happ, hpoller⟩ | ⟨callback, hserves⟩
    · have hsame : mainLoop.poller = s.mainLoop.poller := by
        rcases hpoller with heq | heq
        · exact heq
        · rw [heq, Poller.doDeregister_of_nil h.awake.registered]
      refine ⟨?_, ?_, ?_⟩
      · show Run.Steps _ s₀.delivery (es ++ []) ⟨mainLoop.app, s.decoder, s.toReceiver ++ [], _⟩
        rw [List.append_nil, List.append_nil, happ]
        exact h.steps
      · rw [happ, hsame]
        exact h.awake
      · rw [hsame]
        exact h.registered
    · have hrun := @Serves.steps E fds maxPayload _ s.delivery callback s.mainLoop.poller
        (mainLoop.poller, mainLoop.app) ses hserves
      refine ⟨h.steps.trans hrun, ?_, ?_⟩
      · exact h.awake.runs hserves.runs
      · exact Registered.runs h.registered hserves.runs
  | receiver hb hparse hadd hends =>
    exact ⟨h.steps.tail (Delivery.Step.receive hb hparse hadd hends), h.awake, h.registered⟩

/-- A run of the programs is a run of the composed system. -/
theorem attuned_of_steps {displayWidth displayHeight : UInt16} {hasOutput : Bool}
    {lazyLevel : LazyLevel} {l₀ : Poller.MainLoop Callback (Encoder E)} {es : List Event}
    {s : System E} (hstart : start fds displayWidth displayHeight hasOutput = .ok l₀)
    (h : Run.Steps (Step fds maxPayload) (initial l₀ lazyLevel) es s) :
    Attuned fds maxPayload (initial l₀ lazyLevel) s es ∧ (initial l₀ lazyLevel).delivery
      = Delivery.initial displayWidth displayHeight hasOutput lazyLevel := by
  have hregistered := registered_start hstart
  obtain ⟨poller, encoder, rfl, hawake⟩ := awake_start hstart
  refine ⟨?_, ?_⟩
  · exact h.invariant (fun es s => Attuned fds maxPayload (initial _ lazyLevel) s es)
      ⟨Run.Steps.refl _, hawake, hregistered⟩ fun es s es' s' hI hstep => hI.step hstep
  · unfold start at hstart
    cases hcallbacks : registerCallbacks fds with
    | error e => simp [hcallbacks] at hstart
    | ok poller₁ =>
      rw [hcallbacks, Except.ok.injEq] at hstart
      rw [← hstart]
      rfl

/-! ## An idle sender -/

/-- An idle sender has brought the receiver up to date.  In every run of the two programs over
fewer than `2 ^ 32 - 1` frames, whatever the network and the kernel do: when the poller of the
sender does not ask for a writable socket and nothing is unacked, the receiver waits for the frame
that the encoder will encode next, and its buffer is empty. -/
theorem idle_caught_up {displayWidth displayHeight : UInt16} {hasOutput : Bool}
    {lazyLevel : LazyLevel} {l₀ : Poller.MainLoop Callback (Encoder E)} {es : List Event}
    {s : System E} (hstart : start fds displayWidth displayHeight hasOutput = .ok l₀)
    (h : Run.Steps (Step fds maxPayload) (initial l₀ lazyLevel) es s)
    (hcount : encodedCount (senderEvents es) < 2 ^ 32 - 1)
    (hidle : ¬ s.mainLoop.poller.isActive fds.udpSock .pollOut)
    (hunacked : s.mainLoop.app.unacked.entries = []) :
    s.decoder.nextFrame = s.mainLoop.app.frameId ∧ ∀ k, s.decoder.frameBuf.find? k = none := by
  obtain ⟨hattuned, heq⟩ := attuned_of_steps hstart h
  have hrun := hattuned.steps
  rw [heq] at hrun
  obtain ⟨frames, hcoherent⟩ := coherent_of_steps hrun (by omega)
  have hfresh : s.mainLoop.app.freshKeys = [] := by
    have hnil : s.mainLoop.app.sendBuf = [] := by
      by_contra hne
      exact hidle (hattuned.awake.active hne)
    unfold freshKeys
    rw [hnil]
    rfl
  exact hcoherent.caughtUp (hcoherent.count ▸ hcount) ⟨hfresh, hunacked⟩

/-- A frame is compressed, sent, received and acknowledged, in two calls of `poll`. -/
theorem steps_smallFrame : ∃ (l₀ : Poller.MainLoop Callback (Encoder ℚ)) (es : List Event)
    (s : System ℚ), start smallDescriptors 2 2 false = .ok l₀ ∧
      Run.Steps (Step smallDescriptors 2000) (initial l₀ .decodeOnly) es s ∧
      encodedCount (senderEvents es) = 1 ∧ s.mainLoop.app.frameId = 1 ∧
      ¬ s.mainLoop.poller.isActive smallDescriptors.udpSock .pollOut ∧
      s.mainLoop.app.unacked.entries = [] := by
  have hstart : start smallDescriptors 2 2 false
      = .ok (Poller.MainLoop.start smallPoller (Encoder.initial 2 2 false : Encoder ℚ)) := rfl
  have h₁ : Step smallDescriptors 2000 (initial (Poller.MainLoop.start smallPoller
      (Encoder.initial 2 2 false : Encoder ℚ)) .decodeOnly) _ _ :=
    Step.sender (@Poller.LoopStep.poll _ _ _ _ _ [(4, 1), (3, 5), (5, 1)]
      (fun fd => if fd = 4 then 1 else if fd = 3 then 4 else 0) rfl rfl (by decide))
  have h₂ := (Run.Steps.single h₁).tail (Step.sender (@Poller.LoopStep.next _ _ _ _ _ _ _ _
    [(.pollIn, .fpsTimer)] rfl rfl rfl (by decide)))
  have h₃ := h₂.tail (Step.sender (Poller.LoopStep.call rfl (by decide) (by decide)
    (@Serves.fpsTimer _ _ _ _ _ _ _ _ _ (.ok (8, 1)) (fun _ => .ok true) (Encoder.smallFrame 5) _
      (returnsOneFrame_smallFrame 5) rfl)))
  have h₄ := h₃.tail (Step.sender (Poller.LoopStep.done rfl))
  have h₅ := h₄.tail (Step.sender (@Poller.LoopStep.next _ _ _ _ _ _ _ _
    [(.pollOut, .writable), (.pollIn, .readable)] rfl rfl rfl (by decide)))
  have h₆ := h₅.tail (Step.sender (Poller.LoopStep.call rfl (by decide) (by decide)
    (@Serves.writable _ _ _ _ _ _ _ _ _ (fun _ => (10, .accepted)) _ rfl)))
  have h₇ := h₆.tail (Step.sender (Poller.LoopStep.skip rfl (by decide)))
  have h₈ := h₇.tail (Step.sender (Poller.LoopStep.done rfl))
  have h₉ := h₈.tail (Step.receiver (List.mem_singleton_self _) rfl rfl
    (Loop.ends_of_again rfl (Loop.ends_of_leave rfl)))
  have h₁₀ := h₉.tail (Step.sender (@Poller.LoopStep.next _ _ _ _ _ _ _ _
    [(.pollIn, .statsTimer)] rfl rfl rfl (by decide)))
  have h₁₁ := h₁₀.tail (Step.sender (Poller.LoopStep.skip rfl (by decide)))
  have h₁₂ := h₁₁.tail (Step.sender (Poller.LoopStep.done rfl))
  have h₁₃ := h₁₂.tail (Step.sender (@Poller.LoopStep.poll _ _ _ _ _ [(3, 1), (4, 1), (5, 1)]
      (fun fd => if fd = 3 then 1 else 0) rfl rfl (by decide)))
  have h₁₄ := h₁₃.tail (Step.sender (@Poller.LoopStep.next _ _ _ _ _ _ _ _
    [(.pollIn, .readable), (.pollOut, .writable)] rfl rfl rfl (by decide)))
  have h₁₅ := h₁₄.tail (Step.sender (Poller.LoopStep.call rfl (by decide) (by decide)
    (@Serves.readable _ _ _ _ _ _ _ _ _ [(.ok (AckMsg.serializeToString ⟨0, 0, 10⟩), 30)] _
      (by
        intro r hr
        rw [List.mem_singleton.mp hr]
        exact ⟨_, List.mem_singleton_self _, rfl⟩) rfl)))
  exact ⟨_, _, _, hstart, h₁₅, rfl, rfl, by decide, rfl⟩

/-- The sender is idle after this run. -/
theorem idle_caught_up_smallFrame : ∃ (l₀ : Poller.MainLoop Callback (Encoder ℚ))
    (es : List Event) (s : System ℚ), start smallDescriptors 2 2 false = .ok l₀ ∧
      Run.Steps (Step smallDescriptors 2000) (initial l₀ .decodeOnly) es s ∧
      s.decoder.nextFrame = 1 ∧ ∀ k, s.decoder.frameBuf.find? k = none := by
  obtain ⟨l₀, es, s, hstart, hrun, hcount, hid, hidle, hunacked⟩ := steps_smallFrame
  obtain ⟨hnext, hnone⟩ := idle_caught_up hstart hrun (by rw [hcount]; decide) hidle hunacked
  exact ⟨l₀, es, s, hstart, hrun, hnext.trans hid, hnone⟩

/-! ## No exceptions -/

/-- The loop over `send_buf_` raises nothing when the socket does not. -/
theorem exists_sendLoop {ses : List SenderEvent} {attempt : ℕ → UInt64 × SendOutcome}
    (hraised : ∀ i e, (attempt i).2 ≠ .raised e) {i : ℕ} {buf : List Datagram} {encoder : Encoder E}
    (hord : Ordered ses encoder) (hcount : encodedCount ses < 2 ^ 32)
    (hbuf : encoder.sendBuf = buf) : ∃ result, sendLoop attempt i buf encoder = .ok result := by
  induction buf generalizing i encoder ses with
  | nil => exact ⟨_, rfl⟩
  | cons d rest ih =>
    obtain ⟨ses', more, encoder', hsend⟩ :=
      exists_sendFront hord hbuf (attempt i).1 (hraised i)
    have hnone : encodedCount (ses ++ ses') = encodedCount ses := by
      rcases events_sendFront hsend with rfl | rfl
      · simp [encodedCount, SenderEvent.isEncoded]
      · simp [encodedCount, SenderEvent.isEncoded]
    have hord' := hord.step (effect_sendFront hbuf hsend) (by rw [hnone]; exact hcount)
    unfold sendLoop
    rw [hsend]
    cases more with
    | false => exact ⟨_, rfl⟩
    | true =>
      obtain ⟨⟨ses₂, encoder₂⟩, hrest⟩ :=
        ih hord' (by rw [hnone]; exact hcount) (sendBuf_of_sendFront hsend)
      dsimp only
      rw [hrest]
      exact ⟨_, rfl⟩

/-- The callback for a readable socket raises nothing when all messages are acknowledgements. -/
theorem exists_readableCallback {received : List (Except Exn Bytes × UInt64)}
    (hacks : ∀ r ∈ received, ∃ binary msg, r.1 = .ok binary ∧
      Msg.parseFromString binary = .ok (some (.ack msg)))
    {poller : Poller Callback} (hregistered : Registered fds poller) (encoder : Encoder E) :
    ∃ result, readableCallback fds received poller encoder = .ok result := by
  induction received generalizing poller encoder with
  | nil => exact ⟨_, rfl⟩
  | cons message rest ih =>
    obtain ⟨rawData, t⟩ := message
    obtain ⟨binary, msg, hraw, hparse⟩ := hacks _ List.mem_cons_self
    have hraw' : rawData = .ok binary := hraw
    subst hraw'
    obtain ⟨ses, encoder', hhandle, -⟩ := handleAck_cases encoder msg t
    obtain ⟨poller', hactivate, hregistered'⟩ := hregistered.exists_activateIfQueued encoder'
    obtain ⟨⟨ses', poller'', encoder''⟩, hrest⟩ :=
      ih (fun r hr => hacks r (List.mem_cons_of_mem _ hr)) hregistered' encoder'
    unfold readableCallback
    simp only [hparse, hhandle, hactivate, hrest]
    exact ⟨_, rfl⟩

/-- No callback raises an exception of its own.  In every run of the two programs over fewer than
`2 ^ 32 - 1` frames, the next callback returns: the one of the frame timer, when the timer and the
video input can be read, and the image has the right size and becomes one frame that can be split,
and the line about it can be written; the one for a writable socket, when the socket accepts a
datagram or would block; and the one for a readable socket, whatever of the network it receives. -/
theorem callbacks_return {displayWidth displayHeight : UInt16} {hasOutput : Bool}
    {lazyLevel : LazyLevel} {l₀ : Poller.MainLoop Callback (Encoder E)} {es : List Event}
    {s : System E} (hstart : start fds displayWidth displayHeight hasOutput = .ok l₀)
    (h : Run.Steps (Step fds maxPayload) (initial l₀ lazyLevel) es s)
    (hcount : encodedCount (senderEvents es) < 2 ^ 32 - 1) :
    (∀ read numExp frames inp pkts buf isKey, readExpirations read = .ok numExp →
      readFrames frames 0 numExp = .ok () →
      inp.imgWidth = s.mainLoop.app.displayWidth ∧ inp.imgHeight = s.mainLoop.app.displayHeight →
      inp.vpx (s.mainLoop.app.givesUp inp.encodeTs) = .ok pkts → framesOf pkts = [(buf, isKey)] →
      Enqueues maxPayload buf → s.mainLoop.app.OutputSucceeds inp →
      ∃ result, fpsTimerCallback fds maxPayload read frames inp s.mainLoop.poller s.mainLoop.app
        = .ok result) ∧
    (∀ attempt : ℕ → UInt64 × SendOutcome, (∀ i e, (attempt i).2 ≠ .raised e) →
      ∃ result, writableCallback fds attempt s.mainLoop.poller s.mainLoop.app = .ok result) ∧
    ∀ received, (∀ r ∈ received, ∃ binary ∈ s.toSender, r.1 = .ok binary) →
      ∃ result, readableCallback fds received s.mainLoop.poller s.mainLoop.app = .ok result := by
  obtain ⟨hattuned, heq⟩ := attuned_of_steps hstart h
  have hrun := hattuned.steps
  rw [heq] at hrun
  obtain ⟨frames, hcoherent⟩ := coherent_of_steps hrun (by omega)
  have hord : Ordered (senderEvents es) s.mainLoop.app := hcoherent.kept.ordered
  refine ⟨?_, ?_, ?_⟩
  · intro read numExp frames inp pkts buf isKey hread hframes hdim hvpx hone henq hout
    obtain ⟨ses, encoder', hcompress⟩ := exists_compressFrame hdim hvpx hone henq hout
    obtain ⟨poller', hactivate, -⟩ := hattuned.registered.exists_activateIfQueued encoder'
    unfold fpsTimerCallback
    simp only [hread, hframes, hcompress, hactivate]
    exact ⟨_, rfl⟩
  · intro attempt hraised
    obtain ⟨⟨ses, encoder'⟩, hloop⟩ := @exists_sendLoop _ _ _ _ hraised 0 _ _ hord (by omega) rfl
    unfold writableCallback
    rw [hloop]
    dsimp only
    split_ifs
    · obtain ⟨poller', hdeactivate⟩ := hattuned.registered.exists_deactivate
      rw [hdeactivate]
      exact ⟨_, rfl⟩
    · exact ⟨_, rfl⟩
  · intro received hreceived
    apply exists_readableCallback _ hattuned.registered
    intro r hr
    obtain ⟨binary, hb, hraw⟩ := hreceived r hr
    obtain ⟨d, -, rfl⟩ := hcoherent.kept.acked binary hb
    exact ⟨_, _, hraw, Msg.parseFromString_ack _⟩

/-- After the run of a small frame, nothing raises an exception when the socket is writable. -/
theorem callbacks_return_smallFrame : ∃ (l₀ : Poller.MainLoop Callback (Encoder ℚ))
    (es : List Event) (s : System ℚ), start smallDescriptors 2 2 false = .ok l₀ ∧
      Run.Steps (Step smallDescriptors 2000) (initial l₀ .decodeOnly) es s ∧
      ∃ result, writableCallback smallDescriptors (fun _ => (40, .accepted)) s.mainLoop.poller
        s.mainLoop.app = .ok result := by
  obtain ⟨l₀, es, s, hstart, hrun, hcount, -⟩ := steps_smallFrame
  obtain ⟨-, hwritable, -⟩ := callbacks_return hstart hrun (by rw [hcount]; decide)
  exact ⟨l₀, es, s, hstart, hrun, hwritable _ fun i e => by simp⟩

end Programs

end Ringmaster
