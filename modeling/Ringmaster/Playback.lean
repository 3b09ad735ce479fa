/-
# From the raw images to the window

The whole program: the sender with its codec, the network, the two threads of the receiver in
their small steps, and the worker with its codec and its window.  The network loses,
duplicates and reorders what was sent, and acknowledgements may say anything.  The VP9 codec
is a parameter, with what it promises as a hypothesis (`Predictive.Codec.Resyncs`).

The two ends have in common what `Kept` says, in every run (`kept_of_steps`): all that is
queued, unacked or on the network are fragments of the packets of the codec, and the threads
of the receiver run on copies of these.
-/
import Ringmaster.Library.Predictive
import Ringmaster.Genuine
import Ringmaster.Threads
import Ringmaster.Tracking
import Ringmaster.Worker

open Unsigned

namespace Ringmaster

open Packetization Encoder HandOff

namespace Playback

/-! ## The composed system -/

/-- The VP9 codec: raw images in, packets of bytes between, images of libvpx out. -/
abbrev VpxCodec (σ δ ι : Type) := Predictive.Codec σ δ ι Bytes (List VpxImage)

/-- The state of all parts: the sender's encoder and codec, what was ever sent, the threads of
the receiver, and what the worker keeps. -/
structure System (E σ δ : Type) where
  encoder : Encoder E
  context : σ
  network : List Bytes
  threads : Threads
  worker : Worker δ

/-- What an observer sees: a raw image is encoded, with the flag that forces a key frame, and
the events of the parts. -/
inductive Event (ι : Type) where
  | compressed (rawImg : ι) (force : Bool)
  | sender (e : SenderEvent)
  | receiver (e : HandOff.Event)
  | worker (e : WorkerEvent)

variable {E σ δ ι : Type}

/-- The system at the start. -/
def initial (codec : VpxCodec σ δ ι) (displayWidth displayHeight : UInt16) (hasOutput : Bool)
    (lazyLevel : LazyLevel) (worker : Worker δ) : System E σ δ where
  encoder := Encoder.initial displayWidth displayHeight hasOutput
  context := codec.start
  network := []
  threads := Threads.initial lazyLevel
  worker := worker

/-- The steps of the system. -/
inductive Step [RttArith E] (codec : VpxCodec σ δ ι) (maxPayload : ℕ) :
    System E σ δ → List (Event ι) → System E σ δ → Prop
  /-- The sender compresses a raw image; libvpx returns the packet of its codec. -/
  | compress {s : System E σ δ} {rawImg : ι} {inp : CompressInput} {es : List SenderEvent}
      {encoder : Encoder E} :
      (∀ force, inp.vpx force = .ok [.frame (codec.encode s.context rawImg force).2.1
        (codec.encode s.context rawImg force).2.2]) →
      s.encoder.compressFrame maxPayload inp = (.ok (), es, encoder) →
      Step codec maxPayload s
        (.compressed rawImg (s.encoder.givesUp inp.encodeTs) :: es.map .sender) { s with
          encoder := encoder
          context := (codec.encode s.context rawImg (s.encoder.givesUp inp.encodeTs)).1 }
  /-- The sender gives the datagram at the front to the socket. -/
  | send {s : System E σ δ} {d : Datagram} {rest : List Datagram} {t : UInt64}
      {outcome : SendOutcome} {es : List SenderEvent} {more : Bool} {encoder : Encoder E} :
      s.encoder.sendBuf = d :: rest →
      s.encoder.sendFront d rest t outcome = .ok (es, more, encoder) →
      Step codec maxPayload s (es.map .sender) { s with
        encoder := encoder
        network := s.network ++ (sentDatagrams es).map Datagram.serializeToString }
  /-- The sender handles an acknowledgement, wherever it comes from. -/
  | ack {s : System E σ δ} {msg : AckMsg} {t : UInt64} {es : List SenderEvent}
      {encoder : Encoder E} :
      s.encoder.handleAck msg t = .ok (es, encoder) →
      Step codec maxPayload s (es.map .sender) { s with encoder := encoder }
  /-- The main thread of the receiver gets something that was sent. -/
  | arrival {s : System E σ δ} {binary : Bytes} {d : Datagram} {threads : Threads} :
      binary ∈ s.network → Datagram.parseFromString {} binary = .ok (true, d) →
      Threads.OutsideStep s.threads [.received d] threads →
      Step codec maxPayload s [.receiver (.received d)] { s with threads := threads }
  /-- The worker is woken without a notification. -/
  | spurious {s : System E σ δ} {threads : Threads} :
      Threads.OutsideStep s.threads [] threads →
      Step codec maxPayload s [] { s with threads := threads }
  /-- A thread takes a small step in which no frame is decoded. -/
  | thread {s : System E σ δ} {es : List HandOff.Event} {threads : Threads} :
      Threads.ThreadStep s.threads es threads → takenFrames es = [] →
      Step codec maxPayload s (es.map .receiver) { s with threads := threads }
  /-- The worker takes a frame up, decodes, logs and shows it. -/
  | take {s : System E σ δ} {frame : Frame} {threads : Threads} {inp : WorkerInput}
      {es : List WorkerEvent} {worker : Worker δ} :
      Threads.WorkerStep s.threads [.taken frame] threads →
      s.worker.processFrame codec.decode inp frame = some (.ok (), es, worker) →
      Step codec maxPayload s (.receiver (.taken frame) :: es.map .worker)
        { s with threads := threads, worker := worker }
  /-- The window is told to quit. -/
  | quit {s : System E σ δ} :
      s.threads.worker = .lock →
      Step codec maxPayload s [] { s with worker := s.worker.checkDisplay true }

/-! ## Traces -/

/-- The raw images that were encoded, with the flag of each. -/
def inputs (es : List (Event ι)) : List (ι × Bool) :=
  es.filterMap fun e => match e with
    | .compressed rawImg force => some (rawImg, force)
    | _ => none

/-- The events of the sender. -/
def senderEvents (es : List (Event ι)) : List SenderEvent :=
  es.filterMap fun e => match e with
    | .sender e => some e
    | _ => none

/-- The events of the two threads of the receiver. -/
def receiverEvents (es : List (Event ι)) : List HandOff.Event :=
  es.filterMap fun e => match e with
    | .receiver e => some e
    | _ => none

/-- The events of the worker. -/
def workerEvents (es : List (Event ι)) : List WorkerEvent :=
  es.filterMap fun e => match e with
    | .worker e => some e
    | _ => none

/-- The images in the window, in order. -/
def shownImages (es : List WorkerEvent) : List VpxImage :=
  es.filterMap fun e => match e with
    | .shown rawImg => some rawImg
    | _ => none

/-- What the frames were decoded to, in order. -/
def decodedImages (es : List WorkerEvent) : List (UInt32 × List VpxImage) :=
  es.filterMap fun e => match e with
    | .decoded frameId images => some (frameId, images)
    | _ => none

section Traces

variable (es es' : List (Event ι)) (ses : List SenderEvent) (res : List HandOff.Event)
  (wes wes' : List WorkerEvent) (rawImg : ι) (force : Bool) (frame : Frame)

@[simp] theorem inputs_append : inputs (es ++ es') = inputs es ++ inputs es' :=
  List.filterMap_append

@[simp] theorem senderEvents_append :
    senderEvents (es ++ es') = senderEvents es ++ senderEvents es' := List.filterMap_append

@[simp] theorem receiverEvents_append :
    receiverEvents (es ++ es') = receiverEvents es ++ receiverEvents es' := List.filterMap_append

@[simp] theorem workerEvents_append :
    workerEvents (es ++ es') = workerEvents es ++ workerEvents es' := List.filterMap_append

@[simp] theorem shownImages_append :
    shownImages (wes ++ wes') = shownImages wes ++ shownImages wes' := List.filterMap_append

@[simp] theorem decodedImages_append :
    decodedImages (wes ++ wes') = decodedImages wes ++ decodedImages wes' :=
  List.filterMap_append

@[simp] theorem inputs_map_sender : inputs (ses.map (@Event.sender ι)) = [] := by
  simp [inputs]

@[simp] theorem inputs_map_receiver : inputs (res.map (@Event.receiver ι)) = [] := by
  simp [inputs]

@[simp] theorem inputs_map_worker : inputs (wes.map (@Event.worker ι)) = [] := by
  simp [inputs]

@[simp] theorem senderEvents_map_sender :
    senderEvents (ses.map (@Event.sender ι)) = ses := by
  unfold senderEvents
  rw [List.filterMap_map]
  exact List.filterMap_some

@[simp] theorem senderEvents_map_receiver :
    senderEvents (res.map (@Event.receiver ι)) = [] := by simp [senderEvents]

@[simp] theorem senderEvents_map_worker :
    senderEvents (wes.map (@Event.worker ι)) = [] := by simp [senderEvents]

@[simp] theorem receiverEvents_map_sender :
    receiverEvents (ses.map (@Event.sender ι)) = [] := by simp [receiverEvents]

@[simp] theorem receiverEvents_map_receiver :
    receiverEvents (res.map (@Event.receiver ι)) = res := by
  unfold receiverEvents
  rw [List.filterMap_map]
  exact List.filterMap_some

@[simp] theorem receiverEvents_map_worker :
    receiverEvents (wes.map (@Event.worker ι)) = [] := by simp [receiverEvents]

@[simp] theorem workerEvents_map_sender :
    workerEvents (ses.map (@Event.sender ι)) = [] := by simp [workerEvents]

@[simp] theorem workerEvents_map_receiver :
    workerEvents (res.map (@Event.receiver ι)) = [] := by simp [workerEvents]

@[simp] theorem workerEvents_map_worker :
    workerEvents (wes.map (@Event.worker ι)) = wes := by
  unfold workerEvents
  rw [List.filterMap_map]
  exact List.filterMap_some

end Traces

/-! ## What the two ends have in common -/

/-- The sender's codec follows the raw images; all that is queued, unacked or on the network
are fragments of its packets; and the receiver got its datagrams from the network. -/
structure Kept (codec : VpxCodec σ δ ι) (maxPayload : ℕ) (lazyLevel : LazyLevel)
    (es : List (Event ι)) (s : System E σ δ) : Prop where
  context : s.context = codec.stateAfter (inputs es)
  sourced : Sourced maxPayload (codec.packets (inputs es)) (senderEvents es) s.encoder s.network
  run : Run.Steps Threads.Step (Threads.initial lazyLevel) (receiverEvents es) s.threads
  received : ∀ d, .received d ∈ receiverEvents es →
    ∃ binary ∈ s.network, Datagram.parseFromString {} binary = .ok (true, d)

variable {codec : VpxCodec σ δ ι} {maxPayload : ℕ} {lazyLevel : LazyLevel}
  {es : List (Event ι)} {s : System E σ δ}

theorem kept_initial (displayWidth displayHeight : UInt16) (hasOutput : Bool)
    (worker : Worker δ) : Kept codec maxPayload lazyLevel []
      (initial codec displayWidth displayHeight hasOutput lazyLevel worker : System E σ δ) where
  context := rfl
  sourced := sourced_initial maxPayload displayWidth displayHeight hasOutput
  run := Run.Steps.refl _
  received := fun _ h => absurd h List.not_mem_nil

/-- A step of the receiver's threads. -/
theorem Kept.receive (h : Kept codec maxPayload lazyLevel es s) {es' : List (Event ι)}
    {threads : Threads} {worker : Worker δ} (hinputs : inputs es' = [])
    (hsender : senderEvents es' = [])
    (hstep : Threads.Step s.threads (receiverEvents es') threads)
    (hreceived : ∀ d, .received d ∈ receiverEvents es' →
      ∃ binary ∈ s.network, Datagram.parseFromString {} binary = .ok (true, d)) :
    Kept codec maxPayload lazyLevel (es ++ es')
      { s with threads := threads, worker := worker } := by
  have hin : inputs (es ++ es') = inputs es := by rw [inputs_append, hinputs, List.append_nil]
  have hse : senderEvents (es ++ es') = senderEvents es := by
    rw [senderEvents_append, hsender, List.append_nil]
  refine ⟨hin ▸ h.context, ?_, ?_, ?_⟩
  · rw [hin, hse]
    exact h.sourced
  · rw [receiverEvents_append]
    exact h.run.tail hstep
  · rw [receiverEvents_append]
    intro d hd
    rcases List.mem_append.mp hd with hmem | hmem
    · exact h.received d hmem
    · exact hreceived d hmem

/-- Another window, and nothing else. -/
theorem Kept.withWorker (h : Kept codec maxPayload lazyLevel es s) (worker : Worker δ) :
    Kept codec maxPayload lazyLevel es { s with worker := worker } :=
  ⟨h.context, h.sourced, h.run, h.received⟩

/-- A step of the sender that encodes nothing. -/
theorem Kept.send (h : Kept codec maxPayload lazyLevel es s) {ses : List SenderEvent}
    {encoder : Encoder E} {network : List Bytes}
    (hsourced : Sourced maxPayload (codec.packets (inputs es)) (senderEvents es ++ ses) encoder
      (s.network ++ network)) :
    Kept codec maxPayload lazyLevel (es ++ ses.map .sender)
      { s with encoder := encoder, network := s.network ++ network } := by
  have hin : inputs (es ++ ses.map .sender) = inputs es := by simp
  have hse : senderEvents (es ++ ses.map .sender) = senderEvents es ++ ses := by simp
  have hre : receiverEvents (es ++ ses.map .sender) = receiverEvents es := by simp
  refine ⟨hin ▸ h.context, ?_, hre ▸ h.run, ?_⟩
  · rw [hin, hse]
    exact hsourced
  · rw [hre]
    intro d hd
    obtain ⟨binary, hb, hparse⟩ := h.received d hd
    exact ⟨binary, List.mem_append_left _ hb, hparse⟩

variable [RttArith E]

/-- A raw image is compressed, and becomes the next packet. -/
theorem Kept.compress (h : Kept codec maxPayload lazyLevel es s) {rawImg : ι}
    {inp : CompressInput} {ses : List SenderEvent} {encoder : Encoder E}
    (hvpx : ∀ force, inp.vpx force = .ok [.frame (codec.encode s.context rawImg force).2.1
      (codec.encode s.context rawImg force).2.2])
    (hcompress : s.encoder.compressFrame maxPayload inp = (.ok (), ses, encoder)) :
    Kept codec maxPayload lazyLevel
      (es ++ .compressed rawImg (s.encoder.givesUp inp.encodeTs) :: ses.map .sender)
      { s with
        encoder := encoder
        context := (codec.encode s.context rawImg (s.encoder.givesUp inp.encodeTs)).1 } := by
  let force := s.encoder.givesUp inp.encodeTs
  have hin : inputs (es ++ Event.compressed rawImg force :: ses.map .sender)
      = inputs es ++ [(rawImg, force)] := by
    rw [inputs_append]
    show inputs es ++ (rawImg, force) :: inputs (List.map Event.sender ses) = _
    rw [inputs_map_sender]
  have hse : senderEvents (es ++ Event.compressed rawImg force :: ses.map .sender)
      = senderEvents es ++ ses := by
    rw [senderEvents_append]
    show senderEvents es ++ senderEvents (List.map Event.sender ses) = _
    rw [senderEvents_map_sender]
  have hre : receiverEvents (es ++ Event.compressed rawImg force :: ses.map .sender)
      = receiverEvents es := by
    rw [receiverEvents_append]
    show receiverEvents es ++ receiverEvents (List.map Event.sender ses) = _
    rw [receiverEvents_map_sender, List.append_nil]
  obtain ⟨hsourced, -⟩ := h.sourced.compressFrame (fun pkts hpkts => by
    rw [hvpx, Except.ok.injEq] at hpkts
    rw [← hpkts]
    rfl) hcompress
  refine ⟨?_, ?_, hre ▸ h.run, hre ▸ h.received⟩
  · rw [hin, Predictive.Codec.stateAfter_concat, ← h.context]
  · rw [hin, hse, Predictive.Codec.packets_concat, ← h.context]
    exact hsourced

/-- Every step keeps all of this. -/
theorem Kept.step (h : Kept codec maxPayload lazyLevel es s) {es' : List (Event ι)}
    {s' : System E σ δ} (hstep : Step codec maxPayload s es' s') :
    Kept codec maxPayload lazyLevel (es ++ es') s' := by
  cases hstep with
  | compress hvpx hcompress => exact h.compress hvpx hcompress
  | send hbuf hsend => exact h.send (h.sourced.sendFront hbuf hsend)
  | @ack msg t ses encoder hack =>
    have hsourced : Sourced maxPayload (codec.packets (inputs es)) (senderEvents es ++ ses)
        encoder (s.network ++ []) := by
      rw [List.append_nil]
      exact (h.sourced.handleAck hack).1
    have hkept := h.send hsourced
    rw [List.append_nil] at hkept
    exact hkept
  | @arrival binary d threads hb hparse hstep =>
    refine h.receive rfl rfl (Or.inr hstep) ?_
    intro d' hd'
    have heq : d' = d := by simpa [receiverEvents] using hd'
    exact ⟨binary, hb, heq ▸ hparse⟩
  | spurious hstep =>
    exact h.receive rfl rfl (Or.inr hstep) (fun _ hd => absurd hd List.not_mem_nil)
  | @thread res threads hstep _ =>
    refine h.receive (inputs_map_receiver res) (senderEvents_map_receiver res) ?_ ?_
    · rw [receiverEvents_map_receiver]
      exact Or.inl hstep
    · rw [receiverEvents_map_receiver]
      intro d hd
      exact absurd hd (Threads.received_notMem_of_threadStep hstep d)
  | @take frame threads inp wes worker hstep _ =>
    refine h.receive ?_ ?_ ?_ ?_
    · show inputs (List.map Event.worker wes) = []
      exact inputs_map_worker wes
    · show senderEvents (List.map Event.worker wes) = []
      exact senderEvents_map_worker wes
    · show Threads.Step _ (.taken frame :: receiverEvents (List.map Event.worker wes)) _
      rw [receiverEvents_map_worker]
      exact Or.inl (Or.inr hstep)
    · show ∀ d, .received d ∈ .taken frame :: receiverEvents (List.map Event.worker wes) → _
      rw [receiverEvents_map_worker]
      intro d hd
      simp at hd
  | quit _ =>
    rw [List.append_nil]
    exact h.withWorker _

/-- It holds in every run. -/
theorem kept_of_steps {displayWidth displayHeight : UInt16} {hasOutput : Bool}
    {worker : Worker δ}
    (h : Run.Steps (Step codec maxPayload)
      (initial codec displayWidth displayHeight hasOutput lazyLevel worker) es s) :
    Kept codec maxPayload lazyLevel es s :=
  h.invariant (Kept codec maxPayload lazyLevel)
    (kept_initial displayWidth displayHeight hasOutput worker)
    (fun _ _ _ _ hI hstep => hI.step hstep)

end Playback

end Ringmaster
