/-
# Predictive codecs

An encoder turns pictures into packets, one after another, and a decoder turns packets back
into pictures.  Both keep a state.  A key packet can be decoded in any state; any other one
only by a decoder that is in step with the encoder, which it is after the packet before.

`Resyncs` is what such a codec promises.  From it follows which sequences of packets can be
decoded to the pictures that the encoder meant (`Resyncs.decode_next`): those in which each
packet is a key packet or comes right after the one decoded before.
-/
import Mathlib

namespace Predictive

/-! ## Codecs -/

/-- An encoder with states `σ` and a decoder with states `δ`.  The encoder may be asked for a
key packet, and says whether it made one; the decoder may fail. -/
structure Codec (σ δ ι π ρ : Type*) where
  start : σ
  encode : σ → ι → Bool → σ × π × Bool
  decode : δ → π → Option (δ × ρ)

variable {σ δ ι π ρ α : Type*}

/-- The first packet is a key packet, and so is each one that is asked for.  A key packet, or
any packet given to a decoder that is in step, is decoded to the picture that the encoder
has after making it, and leaves the decoder in step. -/
structure Codec.Resyncs (c : Codec σ δ ι π ρ) (InStep : σ → δ → Prop) (shown : σ → ρ) :
    Prop where
  first : ∀ i force, (c.encode c.start i force).2.2
  forced : ∀ s i, (c.encode s i true).2.2
  decode : ∀ s d i force, (c.encode s i force).2.2 ∨ InStep s d →
    ∃ d', c.decode d (c.encode s i force).2.1 = some (d', shown (c.encode s i force).1) ∧
      InStep (c.encode s i force).1 d'

namespace Codec

variable (c : Codec σ δ ι π ρ)

/-! ## Encoding a sequence -/

/-- The state of the encoder after a sequence of pictures. -/
def stateAfter (inputs : List (ι × Bool)) : σ :=
  inputs.foldl (fun s i => (c.encode s i.1 i.2).1) c.start

/-- The packets of a sequence of pictures, encoded from a state on. -/
def packetsFrom (s : σ) : List (ι × Bool) → List (π × Bool)
  | [] => []
  | i :: inputs => (c.encode s i.1 i.2).2 :: packetsFrom (c.encode s i.1 i.2).1 inputs

/-- The packets of a sequence of pictures. -/
def packets (inputs : List (ι × Bool)) : List (π × Bool) := c.packetsFrom c.start inputs

/-- What an encoder's state shows after the picture `k` of a sequence. -/
def pictureAt (shown : σ → α) (inputs : List (ι × Bool)) (k : ℕ) : α :=
  shown (c.stateAfter (inputs.take (k + 1)))

@[simp] theorem stateAfter_concat (inputs : List (ι × Bool)) (i : ι × Bool) :
    c.stateAfter (inputs ++ [i]) = (c.encode (c.stateAfter inputs) i.1 i.2).1 := by
  unfold stateAfter
  rw [List.foldl_concat]

theorem packetsFrom_append (s : σ) (inputs inputs' : List (ι × Bool)) :
    c.packetsFrom s (inputs ++ inputs') = c.packetsFrom s inputs ++
      c.packetsFrom (inputs.foldl (fun s i => (c.encode s i.1 i.2).1) s) inputs' := by
  induction inputs generalizing s with
  | nil => rfl
  | cons i inputs ih =>
    rw [List.cons_append, packetsFrom, packetsFrom, ih, List.cons_append, List.foldl_cons]

@[simp] theorem packets_concat (inputs : List (ι × Bool)) (i : ι × Bool) :
    c.packets (inputs ++ [i])
      = c.packets inputs ++ [(c.encode (c.stateAfter inputs) i.1 i.2).2] := by
  unfold packets
  rw [packetsFrom_append]
  rfl

@[simp] theorem length_packets (inputs : List (ι × Bool)) :
    (c.packets inputs).length = inputs.length := by
  induction inputs using List.reverseRecOn with
  | nil => rfl
  | append_singleton inputs i ih => rw [packets_concat, List.length_append, ih, List.length_append,
      List.length_singleton, List.length_singleton]

/-- Each packet is made in the state after the pictures before it. -/
theorem getElem?_packets {inputs : List (ι × Bool)} {k : ℕ} {p : π × Bool}
    (h : (c.packets inputs)[k]? = some p) :
    ∃ i, inputs[k]? = some i ∧ p = (c.encode (c.stateAfter (inputs.take k)) i.1 i.2).2 ∧
      c.stateAfter (inputs.take (k + 1)) = (c.encode (c.stateAfter (inputs.take k)) i.1 i.2).1 := by
  have hk : k < inputs.length := by
    have := (List.getElem?_eq_some_iff.mp h).1
    rwa [length_packets] at this
  have hsplit : inputs.take (k + 1) = inputs.take k ++ [inputs[k]] :=
    (List.take_concat_get' inputs k hk).symm
  refine ⟨inputs[k], List.getElem?_eq_getElem hk, ?_, ?_⟩
  · -- the packets of the first pictures are the first packets
    have hpre : c.packets inputs = c.packets (inputs.take (k + 1)) ++
        c.packetsFrom (c.stateAfter (inputs.take (k + 1))) (inputs.drop (k + 1)) := by
      conv_lhs => rw [← List.take_append_drop (k + 1) inputs]
      exact packetsFrom_append c c.start _ _
    have hlen : (c.packets (inputs.take k)).length = k := by
      rw [length_packets, List.length_take, min_eq_left (le_of_lt hk)]
    rw [hpre, hsplit, packets_concat, List.append_assoc, List.getElem?_append_right (le_of_eq hlen),
      hlen, Nat.sub_self, List.singleton_append, List.getElem?_cons_zero, Option.some_inj] at h
    exact h.symm
  · rw [hsplit, stateAfter_concat]

/-- A later picture does not change an earlier one. -/
theorem pictureAt_append (shown : σ → α) {inputs : List (ι × Bool)} (inputs' : List (ι × Bool))
    {k : ℕ} (h : k < inputs.length) :
    c.pictureAt shown (inputs ++ inputs') k = c.pictureAt shown inputs k := by
  unfold pictureAt
  rw [List.take_append_of_le_length h]

/-! ## Decoding some of the packets -/

variable {c} {InStep : σ → δ → Prop} {shown : σ → ρ}

/-- A packet that is a key packet, or the first one, or comes right after the one that the
decoder is in step with, is decoded to its picture. -/
theorem Resyncs.decode_next (h : c.Resyncs InStep shown) {inputs : List (ι × Bool)} {k : ℕ}
    {p : π} {isKey : Bool} (hp : (c.packets inputs)[k]? = some (p, isKey)) {d : δ}
    (hready : isKey = true ∨ k = 0 ∨ InStep (c.stateAfter (inputs.take k)) d) :
    ∃ d', c.decode d p = some (d', c.pictureAt shown inputs k) ∧
      InStep (c.stateAfter (inputs.take (k + 1))) d' := by
  obtain ⟨i, -, hpacket, hstate⟩ := c.getElem?_packets hp
  have hkey : (c.encode (c.stateAfter (inputs.take k)) i.1 i.2).2.2 ∨
      InStep (c.stateAfter (inputs.take k)) d := by
    rcases hready with hkey | rfl | hstep
    · rw [← hpacket]
      exact Or.inl hkey
    · exact Or.inl (h.first i.1 i.2)
    · exact Or.inr hstep
  obtain ⟨d', hdecode, hstep⟩ := h.decode _ d i.1 i.2 hkey
  refine ⟨d', ?_, hstate ▸ hstep⟩
  unfold pictureAt
  rw [hstate, ← hdecode, ← hpacket]

/-! ## Other pictures -/

/-- A codec for other pictures, which are turned into those of a codec first. -/
def comap {ι' : Type*} (c : Codec σ δ ι π ρ) (f : ι' → ι) : Codec σ δ ι' π ρ where
  start := c.start
  encode := fun s i => c.encode s (f i)
  decode := c.decode

theorem Resyncs.comap {ι' : Type*} (h : c.Resyncs InStep shown) (f : ι' → ι) :
    (c.comap f).Resyncs InStep shown where
  first := fun i => h.first (f i)
  forced := fun s i => h.forced s (f i)
  decode := fun s d i => h.decode s d (f i)

end Codec

end Predictive
