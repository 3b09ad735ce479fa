/-
# The event loop of the sender

The callbacks of `src/app/video_sender.cc` over the encoder and the poller.  What the system
calls return is an argument of each callback; a callback that throws ends the program, so
only those that return are steps of the main loop.

Every callback is a sequence of the steps of `SenderSteps`, hence so is every run of the main
loop (`steps_of_mainLoop`).  Between any two callbacks a non-empty `send_buf_` means that the
poller asks for a writable socket (`no_lost_wakeup`).
-/
import Ringmaster.Poller
import Ringmaster.SenderSteps

namespace Ringmaster

namespace VideoSender

/-! ## The callbacks -/

/-- The callbacks that the sender registers. -/
inductive Callback where
  | fpsTimer
  | writable
  | readable
  | statsTimer
  deriving DecidableEq, Repr

/-- The descriptors of the sender.  All three are open, so they are different. -/
structure Descriptors where
  fpsTimer : ℤ
  udpSock : ℤ
  statsTimer : ℤ
  fpsTimer_ne_udpSock : fpsTimer ≠ udpSock
  fpsTimer_ne_statsTimer : fpsTimer ≠ statsTimer
  udpSock_ne_statsTimer : udpSock ≠ statsTimer

/-- The registrations before the main loop. -/
def registerCallbacks (fds : Descriptors) : Except Exn (Poller Callback) :=
  match Poller.initial.registerEvent fds.fpsTimer .pollIn .fpsTimer with
  | .error e => .error e
  | .ok poller =>
    match poller.registerEvent fds.udpSock .pollOut .writable with
    | .error e => .error e
    | .ok poller =>
      match poller.registerEvent fds.udpSock .pollIn .readable with
      | .error e => .error e
      | .ok poller => poller.registerEvent fds.statsTimer .pollIn .statsTimer

/-- The method `Timerfd::read_expirations`, given the number of bytes that `read` returns and
what it reads. -/
def readExpirations (read : Except Exn (ℕ × UInt64)) : Except Exn ℕ :=
  match read with
  | .error e => .error e
  | .ok (bytesRead, numExp) =>
    if bytesRead ≠ 8 then
      .error (.runtimeError "read error in timerfd")
    else
      match narrowCast .uint32 .uint64 numExp.toNat with
      | .error e => .error e
      | .ok n => .ok n.toNat

/-- The loop that reads `n` raw frames, of which `frames i` is the `i`-th. -/
def readFrames (frames : ℕ → Except Exn Bool) (i : ℕ) : ℕ → Except Exn Unit
  | 0 => .ok ()
  | n + 1 =>
    match frames i with
    | .error e => .error e
    | .ok false => .error (.runtimeError "Reached the end of video input")
    | .ok true => readFrames frames (i + 1) n

variable {E : Type}

/-- The main loop after the registrations, with a new encoder. -/
def start (fds : Descriptors) (displayWidth displayHeight : UInt16) (hasOutput : Bool) :
    Except Exn (Poller.MainLoop Callback (Encoder E)) :=
  match registerCallbacks fds with
  | .error e => .error e
  | .ok poller => .ok (Poller.MainLoop.start poller
      (Encoder.initial displayWidth displayHeight hasOutput))

/-- The poller becomes interested in a writable socket if there are datagrams to send. -/
def activateIfQueued (fds : Descriptors) (poller : Poller Callback) (encoder : Encoder E) :
    Except Exn (Poller Callback) :=
  if encoder.sendBuf ≠ [] then poller.activate fds.udpSock .pollOut else .ok poller

/-- The callback of the frame timer. -/
def fpsTimerCallback (fds : Descriptors) (maxPayload : ℕ) (read : Except Exn (ℕ × UInt64))
    (frames : ℕ → Except Exn Bool) (inp : CompressInput) (poller : Poller Callback)
    (encoder : Encoder E) : Except Exn (List SenderEvent × Poller Callback × Encoder E) :=
  match readExpirations read with
  | .error e => .error e
  | .ok numExp =>
    match readFrames frames 0 numExp with
    | .error e => .error e
    | .ok () =>
      -- compress the raw image into frame 'frame_id' and packetize it
      match encoder.compressFrame maxPayload inp with
      | (.error e, _, _) => .error e
      | (.ok (), es, encoder) =>
        match activateIfQueued fds poller encoder with
        | .error e => .error e
        | .ok poller => .ok (es, poller, encoder)

/-- The loop of the callback for a writable socket.  The list is `send_buf_`, and `attempt i`
is the clock and the answer of the socket at the `i`-th attempt. -/
def sendLoop (attempt : ℕ → UInt64 × SendOutcome) (i : ℕ) :
    List Datagram → Encoder E → Except Exn (List SenderEvent × Encoder E)
  | [], encoder => .ok ([], encoder)
  | d :: rest, encoder =>
    match encoder.sendFront d rest (attempt i).1 (attempt i).2 with
    | .error e => .error e
    | .ok (es, false, encoder) => .ok (es, encoder)
    | .ok (es, true, encoder) =>
      match sendLoop attempt (i + 1) rest encoder with
      | .error e => .error e
      | .ok (es', encoder) => .ok (es ++ es', encoder)

/-- The callback for a writable socket. -/
def writableCallback (fds : Descriptors) (attempt : ℕ → UInt64 × SendOutcome)
    (poller : Poller Callback) (encoder : Encoder E) :
    Except Exn (List SenderEvent × Poller Callback × Encoder E) :=
  match sendLoop attempt 0 encoder.sendBuf encoder with
  | .error e => .error e
  | .ok (es, encoder) =>
    -- not interested in socket being writable if no datagrams to send
    if encoder.sendBuf = [] then
      match poller.deactivate fds.udpSock .pollOut with
      | .error e => .error e
      | .ok poller => .ok (es, poller, encoder)
    else
      .ok (es, poller, encoder)

section Steps

variable [RttArith E]

/-- The callback for a readable socket.  The list has what `recv` returns up to the time it
would block, each with the clock when the message is handled. -/
def readableCallback (fds : Descriptors) :
    List (Except Exn Bytes × UInt64) → Poller Callback → Encoder E →
      Except Exn (List SenderEvent × Poller Callback × Encoder E)
  | [], poller, encoder => .ok ([], poller, encoder)
  | (.error e, _) :: _, _, _ => .error e
  | (.ok rawData, t) :: rest, poller, encoder =>
    match Msg.parseFromString rawData with
    | .error e => .error e
    -- ignore invalid or non-ACK messages
    | .ok none => .ok ([], poller, encoder)
    | .ok (some (.config _)) => .ok ([], poller, encoder)
    | .ok (some (.ack ack)) =>
      match encoder.handleAck ack t with
      | .error e => .error e
      | .ok (es, encoder) =>
        -- send_buf might contain datagrams to be retransmitted now
        match activateIfQueued fds poller encoder with
        | .error e => .error e
        | .ok poller =>
          match readableCallback fds rest poller encoder with
          | .error e => .error e
          | .ok (es', poller, encoder) => .ok (es ++ es', poller, encoder)

/-- The callbacks that return, as a relation between the states before and after them. -/
inductive Runs (fds : Descriptors) (maxPayload : ℕ) :
    Callback → Poller Callback × Encoder E → List SenderEvent → Poller Callback × Encoder E → Prop
  /-- The frame timer fired. -/
  | fpsTimer {poller poller' : Poller Callback} {encoder encoder' : Encoder E}
      {read : Except Exn (ℕ × UInt64)} {frames : ℕ → Except Exn Bool} {inp : CompressInput}
      {es : List SenderEvent} :
      fpsTimerCallback fds maxPayload read frames inp poller encoder = .ok (es, poller', encoder') →
      Runs fds maxPayload .fpsTimer (poller, encoder) es (poller', encoder')
  /-- The socket is writable. -/
  | writable {poller poller' : Poller Callback} {encoder encoder' : Encoder E}
      {attempt : ℕ → UInt64 × SendOutcome} {es : List SenderEvent} :
      writableCallback fds attempt poller encoder = .ok (es, poller', encoder') →
      Runs fds maxPayload .writable (poller, encoder) es (poller', encoder')
  /-- The socket is readable. -/
  | readable {poller poller' : Poller Callback} {encoder encoder' : Encoder E}
      {received : List (Except Exn Bytes × UInt64)} {es : List SenderEvent} :
      readableCallback fds received poller encoder = .ok (es, poller', encoder') →
      Runs fds maxPayload .readable (poller, encoder) es (poller', encoder')
  /-- The timer of the statistics fired; printing them does not touch the queues. -/
  | statsTimer {poller : Poller Callback} {encoder : Encoder E} {read : Except Exn (ℕ × UInt64)}
      {numExp : ℕ} :
      readExpirations read = .ok numExp →
      Runs fds maxPayload .statsTimer (poller, encoder) [] (poller, encoder)

end Steps

/-! ## Callbacks as sequences of steps -/

/-- The callback of the frame timer compresses one frame, and then activates. -/
theorem fpsTimerCallback_cases {fds : Descriptors} {maxPayload : ℕ}
    {read : Except Exn (ℕ × UInt64)} {frames : ℕ → Except Exn Bool} {inp : CompressInput}
    {poller poller' : Poller Callback} {encoder encoder' : Encoder E} {es : List SenderEvent}
    (h : fpsTimerCallback fds maxPayload read frames inp poller encoder
      = .ok (es, poller', encoder')) :
    encoder.compressFrame maxPayload inp = (.ok (), es, encoder') ∧
      activateIfQueued fds poller encoder' = .ok poller' := by
  unfold fpsTimerCallback at h
  cases hread : readExpirations read with
  | error e => simp [hread] at h
  | ok numExp =>
    cases hframes : readFrames frames 0 numExp with
    | error e => simp [hread, hframes] at h
    | ok u =>
      cases hcompress : encoder.compressFrame maxPayload inp with
      | mk result rest =>
        obtain ⟨es₁, encoder₁⟩ := rest
        cases result with
        | error e => simp [hread, hframes, hcompress] at h
        | ok u =>
          cases hactivate : activateIfQueued fds poller encoder₁ with
          | error e => simp [hread, hframes, hcompress, hactivate] at h
          | ok poller₁ =>
            simp only [hread, hframes, hcompress, hactivate, Except.ok.injEq, Prod.mk.injEq] at h
            obtain ⟨rfl, rfl, rfl⟩ := h
            exact ⟨rfl, hactivate⟩

/-- The callback for a writable socket runs the loop, and then deactivates if nothing is left. -/
theorem writableCallback_cases {fds : Descriptors} {attempt : ℕ → UInt64 × SendOutcome}
    {poller poller' : Poller Callback} {encoder encoder' : Encoder E} {es : List SenderEvent}
    (h : writableCallback fds attempt poller encoder = .ok (es, poller', encoder')) :
    sendLoop attempt 0 encoder.sendBuf encoder = .ok (es, encoder') ∧
      ((encoder'.sendBuf = [] ∧ poller.deactivate fds.udpSock .pollOut = .ok poller') ∨
        (encoder'.sendBuf ≠ [] ∧ poller' = poller)) := by
  unfold writableCallback at h
  cases hloop : sendLoop attempt 0 encoder.sendBuf encoder with
  | error e => simp [hloop] at h
  | ok result =>
    obtain ⟨es₁, encoder₁⟩ := result
    simp only [hloop] at h
    split_ifs at h with hnil
    · cases hdeactivate : poller.deactivate fds.udpSock .pollOut with
      | error e => simp [hdeactivate] at h
      | ok poller₁ =>
        simp only [hdeactivate, Except.ok.injEq, Prod.mk.injEq] at h
        obtain ⟨rfl, rfl, rfl⟩ := h
        exact ⟨rfl, Or.inl ⟨hnil, rfl⟩⟩
    · simp only [Except.ok.injEq, Prod.mk.injEq] at h
      obtain ⟨rfl, rfl, rfl⟩ := h
      exact ⟨rfl, Or.inr ⟨hnil, rfl⟩⟩

/-- The loop of the callback for a writable socket does not fill an empty queue. -/
theorem ne_nil_of_sendLoop {attempt : ℕ → UInt64 × SendOutcome} {encoder encoder' : Encoder E}
    {es : List SenderEvent} (h : sendLoop attempt 0 encoder.sendBuf encoder = .ok (es, encoder'))
    (hne : encoder'.sendBuf ≠ []) : encoder.sendBuf ≠ [] := by
  intro hnil
  rw [hnil, sendLoop, Except.ok.injEq, Prod.mk.injEq] at h
  rw [← h.2] at hne
  exact hne hnil

section Steps

variable [RttArith E]

/-- The loop of the callback for a writable socket is a sequence of attempts to send. -/
theorem steps_of_sendLoop {maxPayload : ℕ} {attempt : ℕ → UInt64 × SendOutcome} {i : ℕ}
    {buf : List Datagram} {encoder encoder' : Encoder E} {es : List SenderEvent}
    (hbuf : encoder.sendBuf = buf) (h : sendLoop attempt i buf encoder = .ok (es, encoder')) :
    Run.Steps (Encoder.Step maxPayload) encoder es encoder' := by
  induction buf generalizing i encoder es with
  | nil =>
    rw [sendLoop, Except.ok.injEq, Prod.mk.injEq] at h
    obtain ⟨rfl, rfl⟩ := h
    exact Run.Steps.refl encoder
  | cons d rest ih =>
    unfold sendLoop at h
    cases hsend : encoder.sendFront d rest (attempt i).1 (attempt i).2 with
    | error e => simp [hsend] at h
    | ok result =>
      obtain ⟨es₁, more, encoder₁⟩ := result
      have hstep : Encoder.Step maxPayload encoder es₁ encoder₁ := Encoder.Step.send hbuf hsend
      cases more with
      | false =>
        simp only [hsend, Except.ok.injEq, Prod.mk.injEq] at h
        obtain ⟨rfl, rfl⟩ := h
        exact Run.Steps.single hstep
      | true =>
        -- the loop goes on only after the front was popped
        have hrest : encoder₁.sendBuf = rest := Encoder.sendBuf_of_sendFront hsend
        cases hloop : sendLoop attempt (i + 1) rest encoder₁ with
        | error e => simp [hsend, hloop] at h
        | ok result' =>
          obtain ⟨es₂, encoder₂⟩ := result'
          simp only [hsend, hloop, Except.ok.injEq, Prod.mk.injEq] at h
          obtain ⟨rfl, rfl⟩ := h
          exact Run.Steps.head hstep (ih hrest hloop)

/-- What holds before the callback for a readable socket, and is kept when an acknowledgement
is handled and the poller is activated afterwards, holds when it returns. -/
theorem readableCallback_induction {fds : Descriptors}
    (I : List SenderEvent → Poller Callback → Encoder E → Prop)
    (hack : ∀ es poller encoder ack t es' encoder' poller', I es poller encoder →
      encoder.handleAck ack t = .ok (es', encoder') →
      activateIfQueued fds poller encoder' = .ok poller' → I (es ++ es') poller' encoder')
    {received : List (Except Exn Bytes × UInt64)} {es₀ es : List SenderEvent}
    {poller poller' : Poller Callback} {encoder encoder' : Encoder E}
    (init : I es₀ poller encoder)
    (h : readableCallback fds received poller encoder = .ok (es, poller', encoder')) :
    I (es₀ ++ es) poller' encoder' := by
  induction received generalizing es₀ es poller encoder with
  | nil =>
    rw [readableCallback, Except.ok.injEq, Prod.mk.injEq, Prod.mk.injEq] at h
    obtain ⟨rfl, rfl, rfl⟩ := h
    rw [List.append_nil]
    exact init
  | cons message rest ih =>
    obtain ⟨rawData, t⟩ := message
    cases rawData with
    | error e => simp [readableCallback] at h
    | ok rawData =>
      unfold readableCallback at h
      cases hparse : Msg.parseFromString rawData with
      | error e => simp [hparse] at h
      | ok msg =>
        cases msg with
        | none =>
          simp only [hparse, Except.ok.injEq, Prod.mk.injEq] at h
          obtain ⟨rfl, rfl, rfl⟩ := h
          rw [List.append_nil]
          exact init
        | some msg =>
          cases msg with
          | config msg =>
            simp only [hparse, Except.ok.injEq, Prod.mk.injEq] at h
            obtain ⟨rfl, rfl, rfl⟩ := h
            rw [List.append_nil]
            exact init
          | ack ack =>
            cases hhandle : encoder.handleAck ack t with
            | error e => simp [hparse, hhandle] at h
            | ok result =>
              obtain ⟨es₁, encoder₁⟩ := result
              cases hactivate : activateIfQueued fds poller encoder₁ with
              | error e => simp [hparse, hhandle, hactivate] at h
              | ok poller₁ =>
                have hI := hack es₀ poller encoder ack t es₁ encoder₁ poller₁ init hhandle hactivate
                cases hrest : readableCallback fds rest poller₁ encoder₁ with
                | error e => simp [hparse, hhandle, hactivate, hrest] at h
                | ok result' =>
                  obtain ⟨es₂, poller₂, encoder₂⟩ := result'
                  simp only [hparse, hhandle, hactivate, hrest, Except.ok.injEq,
                    Prod.mk.injEq] at h
                  obtain ⟨rfl, rfl, rfl⟩ := h
                  rw [← List.append_assoc]
                  exact ih hI hrest

/-- A callback is a sequence of steps of the sender. -/
theorem Runs.steps {fds : Descriptors} {maxPayload : ℕ} {callback : Callback}
    {s s' : Poller Callback × Encoder E} {es : List SenderEvent}
    (h : Runs fds maxPayload callback s es s') :
    Run.Steps (Encoder.Step maxPayload) s.2 es s'.2 := by
  cases h with
  | fpsTimer h => exact Run.Steps.single (Encoder.Step.compress (fpsTimerCallback_cases h).1)
  | writable h => exact steps_of_sendLoop rfl (writableCallback_cases h).1
  | @readable poller poller' encoder encoder' received es h =>
    refine readableCallback_induction
      (fun es _ enc => Run.Steps (Encoder.Step maxPayload) encoder es enc) ?_
      (Run.Steps.refl encoder) h
    exact fun es poller enc ack t es' enc' poller' hI hack _ => hI.tail (Encoder.Step.ack hack)
  | statsTimer h => exact Run.Steps.refl _

/-- A run of the main loop is a run of the sender: what holds of every sequence of its steps
holds whatever `poll` reports and in whatever order the callbacks are executed. -/
theorem steps_of_mainLoop {fds : Descriptors} {maxPayload : ℕ} {poller : Poller Callback}
    {encoder : Encoder E} {es : List SenderEvent} {l : Poller.MainLoop Callback (Encoder E)}
    (h : Run.Steps (Poller.LoopStep (Runs fds maxPayload)) (Poller.MainLoop.start poller encoder)
      es l) : Run.Steps (Encoder.Step maxPayload) encoder es l.app := by
  refine Poller.MainLoop.invariant
    (fun es s => Run.Steps (Encoder.Step maxPayload) encoder es s.2) (Run.Steps.refl encoder) ?_
    (fun _ _ hI => hI) h
  exact fun es s callback es' s' hI hrun => hI.trans hrun.steps

end Steps

/-! ## No lost wake-up -/

/-- Nothing is scheduled to deregister, and the poller asks for a writable socket as long as
there are datagrams to send. -/
structure Awake (fds : Descriptors) (poller : Poller Callback) (encoder : Encoder E) : Prop where
  registered : poller.fdsToDeregister = []
  active : encoder.sendBuf ≠ [] → poller.isActive fds.udpSock .pollOut

/-- Whatever was queued, the poller is awake after the activation. -/
theorem Awake.activateIfQueued {fds : Descriptors} {poller poller' : Poller Callback}
    {encoder encoder' : Encoder E} (h : Awake fds poller encoder)
    (hactivate : activateIfQueued fds poller encoder' = .ok poller') :
    Awake fds poller' encoder' := by
  unfold VideoSender.activateIfQueued at hactivate
  split_ifs at hactivate with hne
  · obtain ⟨hdereg, hactive⟩ := Poller.isActive_activate hactivate
    refine ⟨hdereg.trans h.registered, fun _ => ?_⟩
    rw [hactive]
    simp
  · rw [Except.ok.injEq] at hactivate
    rw [← hactivate]
    exact ⟨h.registered, fun hne' => absurd hne' hne⟩

/-- The registrations succeed, and schedule nothing to deregister. -/
theorem exists_registerCallbacks (fds : Descriptors) :
    ∃ poller, registerCallbacks fds = .ok poller ∧ poller.fdsToDeregister = [] := by
  have hempty : ∀ fd, (Poller.initial : Poller Callback).roster.find? fd = none := fun _ => rfl
  obtain ⟨p₁, h₁, hdereg₁, hroster₁⟩ := Poller.exists_registerEvent Poller.initial fds.fpsTimer
    .pollIn Callback.fpsTimer (fun _ h => by simp [hempty] at h)
  obtain ⟨p₂, h₂, hdereg₂, hroster₂⟩ := Poller.exists_registerEvent p₁ fds.udpSock .pollOut
    Callback.writable (fun _ h => by
      rw [hroster₁, if_neg fds.fpsTimer_ne_udpSock.symm, hempty] at h
      cases h)
  obtain ⟨p₃, h₃, hdereg₃, hroster₃⟩ := Poller.exists_registerEvent p₂ fds.udpSock .pollIn
    Callback.readable (fun callbacks h => by
      -- only the other event of the socket is registered
      rw [hroster₂, if_pos rfl, Option.some_inj] at h
      rw [← h, hroster₁, if_neg fds.fpsTimer_ne_udpSock.symm, hempty, Option.getD_none,
        OrderedMap.find?_assign, if_neg (by decide), OrderedMap.find?_empty])
  obtain ⟨p₄, h₄, hdereg₄, -⟩ := Poller.exists_registerEvent p₃ fds.statsTimer .pollIn
    Callback.statsTimer (fun _ h => by
      rw [hroster₃, if_neg fds.udpSock_ne_statsTimer.symm, hroster₂,
        if_neg fds.udpSock_ne_statsTimer.symm, hroster₁, if_neg fds.fpsTimer_ne_statsTimer.symm,
        hempty] at h
      cases h)
  refine ⟨p₄, ?_, ?_⟩
  · unfold registerCallbacks
    simp only [h₁, h₂, h₃, h₄]
  · rw [hdereg₄, hdereg₃, hdereg₂, hdereg₁]
    rfl

/-- The poller is awake at the start. -/
theorem awake_start {fds : Descriptors} {displayWidth displayHeight : UInt16} {hasOutput : Bool}
    {l : Poller.MainLoop Callback (Encoder E)}
    (h : start fds displayWidth displayHeight hasOutput = .ok l) :
    ∃ poller encoder, l = Poller.MainLoop.start poller encoder ∧ Awake fds poller encoder := by
  obtain ⟨poller, hregister, hdereg⟩ := exists_registerCallbacks fds
  unfold start at h
  rw [hregister, Except.ok.injEq] at h
  exact ⟨poller, _, h.symm, hdereg, fun hne => absurd rfl hne⟩

section Steps

variable [RttArith E]

/-- A callback keeps the poller awake. -/
theorem Awake.runs {fds : Descriptors} {maxPayload : ℕ} {callback : Callback}
    {s s' : Poller Callback × Encoder E} {es : List SenderEvent} (hawake : Awake fds s.1 s.2)
    (h : Runs fds maxPayload callback s es s') : Awake fds s'.1 s'.2 := by
  cases h with
  | fpsTimer h => exact hawake.activateIfQueued (fpsTimerCallback_cases h).2
  | writable h =>
    obtain ⟨hloop, ⟨hnil, hdeactivate⟩ | ⟨hne, heq⟩⟩ := writableCallback_cases h
    · have hdereg := (Poller.isActive_deactivate hdeactivate).1
      exact ⟨hdereg.trans hawake.registered, fun hne => absurd hnil hne⟩
    · rw [heq]
      exact ⟨hawake.registered, fun _ => hawake.active (ne_nil_of_sendLoop hloop hne)⟩
  | readable h =>
    refine @readableCallback_induction E _ fds (fun _ poller enc => Awake fds poller enc) ?_ _ []
      _ _ _ _ _ hawake h
    exact fun es poller enc ack t es' enc' poller' hI _ hactivate => hI.activateIfQueued hactivate
  | statsTimer h => exact hawake

/-- The poller is awake between any two callbacks. -/
theorem awake_of_mainLoop {fds : Descriptors} {maxPayload : ℕ} {displayWidth displayHeight : UInt16}
    {hasOutput : Bool} {es : List SenderEvent} {l₀ l : Poller.MainLoop Callback (Encoder E)}
    (hstart : start fds displayWidth displayHeight hasOutput = .ok l₀)
    (h : Run.Steps (Poller.LoopStep (Runs fds maxPayload)) l₀ es l) :
    Awake fds l.poller l.app := by
  obtain ⟨poller, encoder, rfl, hawake⟩ := awake_start hstart
  refine Poller.MainLoop.invariant (fun _ s => Awake fds s.1 s.2) hawake ?_ ?_ h
  · exact fun es s callback es' s' hI hrun => hI.runs hrun
  · intro es s hI
    rw [Poller.doDeregister_of_nil hI.registered]
    exact hI

/-- No lost wake-up.  Between any two callbacks of the main loop, in every run of it, the
poller asks for a writable socket if there are datagrams to send, so that the next call of
`poll` does.  The callback for a writable socket ceases to ask only when nothing is left. -/
theorem no_lost_wakeup {fds : Descriptors} {maxPayload : ℕ} {displayWidth displayHeight : UInt16}
    {hasOutput : Bool} {es : List SenderEvent} {l₀ l : Poller.MainLoop Callback (Encoder E)}
    (hstart : start fds displayWidth displayHeight hasOutput = .ok l₀)
    (h : Run.Steps (Poller.LoopStep (Runs fds maxPayload)) l₀ es l) :
    (l.app.sendBuf ≠ [] → l.poller.isActive fds.udpSock .pollOut) ∧
    (l.app.sendBuf ≠ [] → l.fdsToPoll = [] → l.current = none →
      ∀ es' l', Poller.LoopStep (Runs fds maxPayload) l es' l' →
        ∃ it ∈ l'.fdsToPoll, it.fd = fds.udpSock ∧ EventMask.has it.events .pollOut) ∧
    (∀ attempt es' poller' encoder',
      writableCallback fds attempt l.poller l.app = .ok (es', poller', encoder') →
        l.poller.isActive fds.udpSock .pollOut → ¬ poller'.isActive fds.udpSock .pollOut →
          encoder'.sendBuf = []) := by
  have hawake := awake_of_mainLoop hstart h
  refine ⟨hawake.active, ?_, ?_⟩
  · intro hne hnil hnone es' l' hstep
    cases hstep with
    | poll _ _ hperm =>
      rw [Poller.doDeregister_of_nil hawake.registered] at hperm
      obtain ⟨events, hmem, hhas⟩ := Poller.exists_mem_fdsToPoll (hawake.active hne)
      exact ⟨_, List.mem_map_of_mem (hperm.mem_iff.mpr hmem), rfl, hhas⟩
    | next hcons => rw [hnil] at hcons; cases hcons
    | skip hcurrent => rw [hnone] at hcurrent; cases hcurrent
    | call hcurrent => rw [hnone] at hcurrent; cases hcurrent
    | done hcurrent => rw [hnone] at hcurrent; cases hcurrent
  · intro attempt es' poller' encoder' hwritable hbefore hafter
    obtain ⟨-, ⟨hnil, -⟩ | ⟨-, heq⟩⟩ := writableCallback_cases hwritable
    · exact hnil
    · rw [heq] at hafter
      exact absurd hbefore hafter

/-- Descriptors as a process gets them after the standard streams. -/
def smallDescriptors : Descriptors where
  fpsTimer := 4
  udpSock := 3
  statsTimer := 5
  fpsTimer_ne_udpSock := by decide
  fpsTimer_ne_statsTimer := by decide
  udpSock_ne_statsTimer := by decide

/-- The poller that has them registered. -/
def smallPoller : Poller Callback where
  roster := ⟨[(3, ⟨[(.pollIn, .readable), (.pollOut, .writable)], by decide⟩),
    (4, ⟨[(.pollIn, .fpsTimer)], by decide⟩), (5, ⟨[(.pollIn, .statsTimer)], by decide⟩)], by simp⟩
  activeEvents := ⟨[(3, 5), (4, 1), (5, 1)], by decide⟩
  fdsToDeregister := []

/-- The first call of `poll` reports the frame timer only.  A frame is compressed, and the poller
asks for a writable socket. -/
theorem no_lost_wakeup_smallFrame : ∃ (l₀ l : Poller.MainLoop Callback (Encoder ℚ))
    (es : List SenderEvent), start smallDescriptors 2 2 false = .ok l₀ ∧
      Run.Steps (Poller.LoopStep (Runs smallDescriptors 2000)) l₀ es l ∧ l.app.sendBuf ≠ [] ∧
      l.poller.isActive smallDescriptors.udpSock .pollOut := by
  have hstart : start smallDescriptors 2 2 false
      = .ok (Poller.MainLoop.start smallPoller (Encoder.initial 2 2 false : Encoder ℚ)) := rfl
  have h₁ : Poller.LoopStep (Runs smallDescriptors 2000)
      (Poller.MainLoop.start smallPoller (Encoder.initial 2 2 false : Encoder ℚ)) _ _ :=
    @Poller.LoopStep.poll _ _ _ _ _ [(4, 1), (3, 5), (5, 1)] (fun fd => if fd = 4 then 1 else 0)
      rfl rfl (by decide)
  have h₂ := (Run.Steps.single h₁).tail
    (@Poller.LoopStep.next _ _ _ _ _ _ _ _ [(.pollIn, .fpsTimer)] rfl rfl rfl (by decide))
  have h₃ := h₂.tail (Poller.LoopStep.call rfl (by decide) (by decide)
    (@Runs.fpsTimer _ _ _ _ _ _ _ _ (.ok (8, 1)) (fun _ => .ok true) (Encoder.smallFrame 5) _
      rfl))
  exact ⟨_, _, _, hstart, h₃, by decide, (no_lost_wakeup hstart h₃).1 (by decide)⟩

end Steps

end VideoSender

end Ringmaster
