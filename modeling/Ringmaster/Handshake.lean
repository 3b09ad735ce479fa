/-
# What the sender makes of malformed messages

The two places of `src/app/video_sender.cc` that parse what arrives at the socket: the function
`recv_config_msg`, which waits for a configuration before the main loop, and the callback for a
readable socket.  Both are written to ignore invalid messages, and rely on a null pointer from
`Msg::parse_from_string` for that.

They get one unless the message is cut off: then the parser throws, and so do its callers
(`handlesInput_iff`).
-/
import Ringmaster.Messages
import Ringmaster.VideoSender

namespace Ringmaster

namespace VideoSender

/-! ## Waiting for a configuration -/

/-- The function `recv_config_msg`.  The list has the results of `recvfrom`, in order: an
exception, or the address of the peer and the data.  The function returns the first valid
configuration; with `none` it is still waiting for one. -/
def recvConfigMsg {A : Type} :
    List (Except Exn (A × Option Bytes)) → Except Exn (Option (A × ConfigMsg))
  | [] => .ok none
  | .error e :: _ => .error e
  | .ok (_, none) :: _ => .error .badOptionalAccess
  | .ok (peerAddr, some rawData) :: rest =>
    match Msg.parseFromString rawData with
    | .error e => .error e
    | .ok (some (.config configMsg)) => .ok (some (peerAddr, configMsg))
    -- ignore invalid or non-config messages
    | .ok none => recvConfigMsg rest
    | .ok (some (.ack _)) => recvConfigMsg rest

/-! ## Malformed messages -/

/-- The program copes with a byte string from the network: the parser returns a message if
there is a complete one, and a null pointer otherwise, in which case `recv_config_msg` goes on
waiting and the callback for a readable socket returns without a change. -/
structure HandlesInput (b : Bytes) : Prop where
  parses : ∃ msg, Msg.parseFromString b = .ok msg ∧ (msg.isSome ↔ Msg.Complete b)
  waits : ¬ Msg.Complete b → ∀ (A : Type) (peerAddr : A)
    (rest : List (Except Exn (A × Option Bytes))),
    recvConfigMsg (.ok (peerAddr, some b) :: rest) = recvConfigMsg rest
  returns : ¬ Msg.Complete b → ∀ (E : Type) [RttArith E] (fds : Descriptors) (t : UInt64)
    (rest : List (Except Exn Bytes × UInt64)) (poller : Poller Callback) (encoder : Encoder E),
    readableCallback fds ((.ok b, t) :: rest) poller encoder = .ok ([], poller, encoder)

/-- Without a declared message there is no complete one. -/
theorem not_complete_of_declaredSize_eq_none {b : Bytes} (h : Msg.declaredSize b = none) :
    ¬ Msg.Complete b := by
  rintro ⟨n, hn, -⟩
  rw [h] at hn
  simp at hn

/-- The program copes with exactly those byte strings that are not a message cut off. -/
theorem handlesInput_iff (b : Bytes) : HandlesInput b ↔ ¬ Msg.Truncated b := by
  rcases Msg.parseFromString_cases b with ⟨hnone, hparse⟩ | ⟨htrunc, hparse⟩ |
    ⟨m, trailing, hb, hparse⟩
  · -- no message is declared
    have hnot := not_complete_of_declaredSize_eq_none hnone
    refine iff_of_true ⟨⟨none, hparse, by simp [hnot]⟩, ?_, ?_⟩ ?_
    · intro _ A peerAddr rest
      rw [recvConfigMsg, hparse]
    · intro _ E _ fds t rest poller encoder
      rw [readableCallback, hparse]
    · rintro ⟨n, hn, -⟩
      rw [hnone] at hn
      simp at hn
  · refine iff_of_false ?_ (not_not_intro htrunc)
    rintro ⟨⟨msg, hmsg, -⟩, -, -⟩
    rw [hparse] at hmsg
    simp at hmsg
  · -- the message is there
    have hsize : Msg.declaredSize b = some m.serializedSize :=
      hb ▸ Msg.declaredSize_serializeToString_append m trailing
    have hle : m.serializedSize ≤ b.length := by
      rw [hb, List.length_append, Msg.length_serializeToString]
      omega
    have hcomplete : Msg.Complete b := ⟨m.serializedSize, hsize, hle⟩
    refine iff_of_true ⟨⟨some m, hparse, by simp [hcomplete]⟩, ?_, ?_⟩ ?_
    · exact fun hnot => absurd hcomplete hnot
    · exact fun hnot => absurd hcomplete hnot
    · rintro ⟨n, hn, hlt⟩
      rw [hsize, Option.some_inj] at hn
      omega

/-- The parser throws on an acknowledgement of which only the type arrives, and so do its
callers. -/
theorem not_handlesInput_singleByte :
    ¬ HandlesInput [1] ∧
      (∃ e, Msg.parseFromString [1] = .error e) ∧
      (∃ e, recvConfigMsg (A := ℕ) [.ok (0, some [1])] = .error e) ∧
      ∀ (fds : Descriptors) (poller : Poller Callback) (encoder : Encoder ℚ),
        ∃ e, readableCallback fds [(.ok [1], 0)] poller encoder = .error e := by
  have hparse : Msg.parseFromString [1]
      = .error (.outOfRange "WireParser::read(): read past end") := rfl
  refine ⟨?_, ⟨_, hparse⟩, ⟨_, rfl⟩, fun fds poller encoder => ⟨_, rfl⟩⟩
  rintro ⟨⟨msg, hmsg, -⟩, -, -⟩
  rw [hparse] at hmsg
  simp at hmsg

end VideoSender

end Ringmaster
