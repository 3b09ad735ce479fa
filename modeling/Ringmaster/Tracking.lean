/-
# What the two threads consume

The reassembly of `Reassembly.lean` was proved for the main loop as a whole.  Here it is
carried over to the interleaved steps of `HandOff.lean`: at any time the buffer agrees with
the datagrams that were received, and each consumed frame agreed with what had been received
when it was consumed (`tracked_of_steps`).
-/
import Ringmaster.HandOff
import Ringmaster.Reassembly

open Unsigned

namespace Ringmaster

namespace HandOff

/-- The datagrams that the main thread received, in order. -/
def receivedDatagrams (es : List Event) : List Datagram :=
  es.filterMap fun e => match e with
    | .received d => some d
    | _ => none

@[simp] theorem receivedDatagrams_append (es es' : List Event) :
    receivedDatagrams (es ++ es') = receivedDatagrams es ++ receivedDatagrams es' :=
  List.filterMap_append

theorem mem_receivedDatagrams {es : List Event} {d : Datagram} :
    d ∈ receivedDatagrams es ↔ .received d ∈ es := by
  unfold receivedDatagrams
  rw [List.mem_filterMap]
  constructor
  · rintro ⟨e, he, heq⟩
    cases e with
    | received d' =>
      rw [Option.some_inj] at heq
      exact heq ▸ he
    | consumed frame => simp at heq
    | taken frame => simp at heq
  · exact fun h => ⟨_, h, rfl⟩

/-- The buffer agrees with what was received, and so did each consumed frame. -/
structure Tracked (es : List Event) (p : Pipeline) : Prop where
  agrees : Receiver.Agrees (receivedDatagrams es) p.decoder
  consumed : ∀ frame ∈ consumedFrames es, frame.complete ∧
    ∃ ds, ds <+: receivedDatagrams es ∧ Receiver.Tracks ds frame.id frame

theorem tracked_initial (lazyLevel : LazyLevel) : Tracked [] (initial lazyLevel) where
  agrees := Receiver.agrees_initial lazyLevel
  consumed := fun _ h => absurd h List.not_mem_nil

variable {es : List Event} {p : Pipeline}

/-- A test for a complete next frame keeps the buffer in agreement. -/
theorem agrees_nextFrameComplete {ds : List Datagram} {s s' : Decoder} {answer : Bool}
    (h : Receiver.Agrees ds s) (hcheck : s.nextFrameComplete = .ok (answer, s')) :
    Receiver.Agrees ds s' := by
  rcases Decoder.nextFrameComplete_cases h.inv with ⟨-, hcase⟩ | ⟨-, k, hlt, -, -, hcase⟩ |
    ⟨-, -, hcase⟩
  · rw [hcheck, Except.ok.injEq, Prod.mk.injEq] at hcase
    exact hcase.2 ▸ h
  · rw [hcheck, Except.ok.injEq, Prod.mk.injEq] at hcase
    rw [hcase.2]
    refine ⟨h.inv.eraseBelow k, fun k' hk' => ?_⟩
    dsimp only at hk' ⊢
    rw [OrderedMap.find?_eraseBelow, if_neg (not_lt.mpr hk')]
    exact h.tracksAt k' (le_trans (le_of_lt hlt) hk')
  · rw [hcheck, Except.ok.injEq, Prod.mk.injEq] at hcase
    exact hcase.2 ▸ h

/-- Consuming the next frame keeps the rest of the buffer in agreement; the frame agreed. -/
theorem agrees_consumeNextFrame {ds : List Datagram} {s s' : Decoder} {frame : Frame}
    {write : Except Exn Unit}
    (h : Receiver.Agrees ds s) (hids : ∀ d ∈ ds, d.frameId < maxUInt32)
    (hcons : s.consumeNextFrame write = .ok (frame, s')) :
    Receiver.Agrees ds s' ∧ frame.complete ∧ Receiver.Tracks ds frame.id frame := by
  obtain ⟨hfind, hc, hnext, -⟩ := Decoder.consumeNextFrame_cases hcons
  have ht := h.tracksAt s.nextFrame le_rfl
  rw [hfind] at ht
  obtain ⟨⟨d, hd, hid⟩, ht⟩ := ht
  have hlt : s.nextFrame < maxUInt32 := hid ▸ hids d hd
  refine ⟨⟨h.inv.consumeNextFrame hcons, fun k hk => ?_⟩, hc, ht.id_eq.symm ▸ ht⟩
  rw [hnext, ← lt_iff_add_one_le hlt] at hk
  rw [Decoder.find?_consumeNextFrame h.inv hcons hlt, if_neg (ne_of_gt hk)]
  exact h.tracksAt k (le_of_lt hk)

/-- Every step keeps this, when the received datagrams have ids below the last one. -/
theorem Tracked.step (h : Tracked es p) {es' : List Event} {p' : Pipeline}
    (hstep : Step p es' p') (hids : ∀ d ∈ receivedDatagrams (es ++ es'), d.frameId < maxUInt32) :
    Tracked (es ++ es') p' := by
  rw [receivedDatagrams_append] at hids
  cases hstep with
  | @receive d s _ hadd =>
    have hconsumed : consumedFrames (es ++ [Event.received d]) = consumedFrames es := by
      rw [consumedFrames_append]
      exact List.append_nil _
    refine ⟨?_, ?_⟩
    · rw [receivedDatagrams_append]
      exact h.agrees.addDatagram hadd
    · rw [hconsumed, receivedDatagrams_append]
      intro frame hframe
      obtain ⟨hc, ds, hpre, ht⟩ := h.consumed frame hframe
      exact ⟨hc, ds, hpre.trans (List.prefix_append _ _), ht⟩
  | check _ hcheck =>
    rw [List.append_nil]
    exact ⟨agrees_nextFrameComplete h.agrees hcheck, h.consumed⟩
  | @consume frame s write _ hcons =>
    have hreceived : receivedDatagrams (es ++ [Event.consumed frame]) = receivedDatagrams es := by
      rw [receivedDatagrams_append]
      exact List.append_nil _
    have hconsumed :
        consumedFrames (es ++ [Event.consumed frame]) = consumedFrames es ++ [frame] :=
      consumedFrames_append _ _
    obtain ⟨hagrees, hc, ht⟩ := agrees_consumeNextFrame h.agrees
      (fun d hd => hids d (List.mem_append_left _ hd)) hcons
    refine ⟨hreceived ▸ hagrees, ?_⟩
    rw [hreceived, hconsumed]
    intro fr hfr
    rcases List.mem_append.mp hfr with hmem | hmem
    · exact h.consumed fr hmem
    · rw [List.mem_singleton.mp hmem]
      exact ⟨hc, _, List.prefix_rfl, ht⟩
  | workerFetch =>
    rw [List.append_nil]
    exact ⟨⟨⟨h.agrees.inv.id_eq, h.agrees.inv.nextFrame_le⟩, h.agrees.tracksAt⟩, h.consumed⟩
  | @workerTake frame rest _ =>
    have hreceived : receivedDatagrams (es ++ [Event.taken frame]) = receivedDatagrams es := by
      rw [receivedDatagrams_append]
      exact List.append_nil _
    have hconsumed : consumedFrames (es ++ [Event.taken frame]) = consumedFrames es := by
      rw [consumedFrames_append]
      exact List.append_nil _
    exact ⟨hreceived ▸ h.agrees, by rw [hreceived, hconsumed]; exact h.consumed⟩

/-- It holds in every run over datagrams with ids below the last one. -/
theorem tracked_of_steps {lazyLevel : LazyLevel}
    (h : Run.Steps Step (initial lazyLevel) es p)
    (hids : ∀ d ∈ receivedDatagrams es, d.frameId < maxUInt32) : Tracked es p := by
  refine h.invariant_of_guard (fun es => ∀ d ∈ receivedDatagrams es, d.frameId < maxUInt32)
    Tracked ?_ (tracked_initial lazyLevel) (fun _ _ _ _ hG hI hstep => hI.step hstep hG) hids
  intro es es' hG d hd
  rw [receivedDatagrams_append] at hG
  exact hG d (List.mem_append_left _ hd)

end HandOff

end Ringmaster
