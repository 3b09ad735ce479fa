/-
# The decoder's view of a video frame

The class `Frame` of `src/app/decoder.hh` and `decoder.cc`: one slot for each fragment of a
frame, a counter of the empty slots and the size of the filled ones.

The counter and the size are redundant.  `Frame.Valid` says that they agree with the slots
and that each filled slot holds a fragment of this frame at its place; every frame that is
constructed and then filled through `insert_frag` is valid.
-/
import Ringmaster.Protocol

namespace Ringmaster

/-! ## The class -/

/-- The class `Frame`. -/
structure Frame where
  id : UInt32
  type : FrameType
  frags : List (Option Datagram)
  nullFrags : UInt32
  frameSize : ℕ
  deriving DecidableEq, Repr

namespace Datagram

/-- The object that `std::move` constructs from a datagram, and what is left of it. -/
def move (d : Datagram) : Datagram × Datagram := (d, { d with payload := [] })

end Datagram

namespace Frame

/-- The constructor of `Frame`. -/
def new (frameId : UInt32) (frameType : FrameType) (fragCnt : UInt16) : Except Exn Frame :=
  if fragCnt = 0 then
    .error (.runtimeError "frame cannot have zero fragments")
  else
    .ok { id := frameId, type := frameType, frags := List.replicate fragCnt.toNat none,
          nullFrags := fragCnt.toUInt32, frameSize := 0 }

/-- The method `has_frag`. -/
def hasFrag (frame : Frame) (fragId : UInt16) : Except Exn Bool :=
  match frame.frags[fragId.toNat]? with
  | none => .error (.outOfRange "vector::at")
  | some slot => .ok slot.isSome

/-- The method `complete`. -/
def complete (frame : Frame) : Bool := frame.nullFrags == 0

/-- The method `frame_size`: the size of a complete frame. -/
def frameSize? (frame : Frame) : Option ℕ :=
  if frame.complete then some frame.frameSize else none

/-- The method `validate_datagram`. -/
def validateDatagram (frame : Frame) (d : Datagram) : Except Exn Unit :=
  if d.frameId ≠ frame.id ∨ d.frameType ≠ frame.type ∨ d.fragId.toNat ≥ frame.frags.length ∨
      d.fragCnt.toNat ≠ frame.frags.length then
    .error (.runtimeError "unable to insert an incompatible datagram")
  else
    .ok ()

/-- The method `insert_frag` that copies the datagram. -/
def insertFrag (frame : Frame) (d : Datagram) : Except Exn Frame :=
  match frame.validateDatagram d with
  | .error e => .error e
  | .ok () =>
    -- insert only if the datagram does not exist yet
    match frame.frags[d.fragId.toNat]? with
    | some none =>
      .ok { frame with
        frameSize := frame.frameSize + d.payload.length
        nullFrags := frame.nullFrags - 1
        frags := frame.frags.set d.fragId.toNat (some d) }
    | _ => .ok frame

/-- The method `insert_frag` that moves the datagram, with what it leaves of its argument. -/
def insertFragMove (frame : Frame) (d : Datagram) : Except Exn (Frame × Datagram) :=
  match frame.validateDatagram d with
  | .error e => .error e
  | .ok () =>
    match frame.frags[d.fragId.toNat]? with
    | some none =>
      -- the size is read before the datagram is moved into its slot
      let frameSize := frame.frameSize + d.payload.length
      let nullFrags := frame.nullFrags - 1
      let (stored, left) := d.move
      .ok ({ frame with
        frameSize := frameSize
        nullFrags := nullFrags
        frags := frame.frags.set left.fragId.toNat (some stored) }, left)
    | _ => .ok (frame, d)

/-- A frame that has been moved from: its vector of fragments is gone, the rest stays. -/
def movedFrom (frame : Frame) : Frame := { frame with frags := [] }

/-- The payloads of the filled slots, in fragment order. -/
def content (frame : Frame) : Bytes :=
  frame.frags.flatMap (fun slot => slot.elim [] Datagram.payload)

/-! ## Validity -/

/-- The size of what a slot holds. -/
def slotSize (slot : Option Datagram) : ℕ := slot.elim 0 (fun d => d.payload.length)

/-- The counters of the frame agree with its slots, and what a slot holds is the fragment of
this frame with the number of the slot. -/
structure Valid (frame : Frame) : Prop where
  length_lt : frame.frags.length < 2 ^ 16
  nullFrags_eq : frame.nullFrags.toNat = frame.frags.countP Option.isNone
  frameSize_eq : frame.frameSize = (frame.frags.map slotSize).sum
  slot : ∀ (k : ℕ) (d : Datagram), frame.frags[k]? = some (some d) →
    d.frameId = frame.id ∧ d.frameType = frame.type ∧ d.fragId.toNat = k ∧
      d.fragCnt.toNat = frame.frags.length

/-- The size of a valid frame is the size of its content. -/
theorem Valid.frameSize_eq_length {frame : Frame} (h : frame.Valid) :
    frame.frameSize = frame.content.length := by
  have hslot : slotSize = fun slot => (slot.elim [] Datagram.payload).length := by
    funext slot
    cases slot with
    | none => rfl
    | some d => rfl
  rw [h.frameSize_eq, hslot, content, List.length_flatMap]

/-- What the constructor builds. -/
theorem new_eq_ok_iff {frameId : UInt32} {frameType : FrameType} {fragCnt : UInt16}
    {frame : Frame} : new frameId frameType fragCnt = .ok frame ↔
      fragCnt ≠ 0 ∧ frame = ⟨frameId, frameType, List.replicate fragCnt.toNat none,
        fragCnt.toUInt32, 0⟩ := by
  rw [new]
  split_ifs with h
  · simp [h]
  · simp [h, eq_comm]

/-- A new frame is valid. -/
theorem valid_of_new {frameId : UInt32} {frameType : FrameType} {fragCnt : UInt16}
    {frame : Frame} (h : new frameId frameType fragCnt = .ok frame) : frame.Valid := by
  obtain ⟨-, rfl⟩ := new_eq_ok_iff.mp h
  refine ⟨?_, ?_, ?_, ?_⟩
  · simpa using fragCnt.toNat_lt
  · simp [List.countP_replicate]
  · simp [slotSize]
  · intro k d hk
    rw [List.getElem?_replicate] at hk
    split_ifs at hk
    simp at hk

/-- A datagram passes the validation exactly when it belongs to the frame. -/
theorem validateDatagram_eq_ok_iff {frame : Frame} {d : Datagram} :
    frame.validateDatagram d = .ok () ↔ d.frameId = frame.id ∧ d.frameType = frame.type ∧
      d.fragId.toNat < frame.frags.length ∧ d.fragCnt.toNat = frame.frags.length := by
  rw [validateDatagram]
  split_ifs with h
  · simp only [false_iff]
    intro ⟨h₁, h₂, h₃, h₄⟩
    rcases h with h | h | h | h
    · exact h h₁
    · exact h h₂
    · omega
    · exact h h₄
  · push Not at h
    simpa using h

/-- A complete valid frame has no empty slot. -/
theorem Valid.complete_iff {frame : Frame} (h : frame.Valid) :
    frame.complete ↔ ∀ k, k < frame.frags.length → ∃ d, frame.frags[k]? = some (some d) := by
  have hzero : frame.complete ↔ frame.frags.countP Option.isNone = 0 := by
    rw [← h.nullFrags_eq, complete, beq_iff_eq, ← UInt32.toNat_inj, UInt32.toNat_zero]
  rw [hzero, List.countP_eq_zero]
  constructor
  · intro hall k hk
    have hsome := hall _ (List.getElem_mem hk)
    obtain ⟨d, hd⟩ := Option.ne_none_iff_exists'.mp (by simpa using hsome)
    exact ⟨d, by rw [List.getElem?_eq_getElem hk, hd]⟩
  · intro hall slot hslot
    obtain ⟨k, hk, rfl⟩ := List.getElem_of_mem hslot
    obtain ⟨d, hd⟩ := hall k hk
    rw [List.getElem?_eq_getElem hk, Option.some_inj] at hd
    simp [hd]

/-! ## Insertion -/

/-- A valid datagram in an empty slot: the frame that the insertion makes of it. -/
def withFrag (frame : Frame) (d : Datagram) : Frame :=
  { frame with
    frameSize := frame.frameSize + d.payload.length
    nullFrags := frame.nullFrags - 1
    frags := frame.frags.set d.fragId.toNat (some d) }

/-- The two insertions have the same effect on the frame. -/
theorem insertFrag_eq (frame : Frame) (d : Datagram) :
    frame.insertFrag d = (frame.insertFragMove d).map Prod.fst := by
  unfold insertFrag insertFragMove
  cases frame.validateDatagram d with
  | error e => rfl
  | ok u =>
    dsimp only
    split
    · rfl
    · rfl

/-- What an insertion by move does: it refuses a datagram that does not belong to the
frame, fills an empty slot, and leaves a filled one alone. -/
theorem insertFragMove_cases {frame frame' : Frame} {d left : Datagram}
    (h : frame.insertFragMove d = .ok (frame', left)) :
    frame.validateDatagram d = .ok () ∧
      ((frame.frags[d.fragId.toNat]? = some none ∧ frame' = frame.withFrag d) ∨
        (∃ e, frame.frags[d.fragId.toNat]? = some (some e) ∧ frame' = frame)) := by
  rw [insertFragMove] at h
  cases hv : frame.validateDatagram d with
  | error e => simp [hv] at h
  | ok u =>
    obtain ⟨-, -, hlt, -⟩ := validateDatagram_eq_ok_iff.mp hv
    refine ⟨rfl, ?_⟩
    simp only [hv, List.getElem?_eq_getElem hlt] at h ⊢
    cases hslot : frame.frags[d.fragId.toNat] with
    | none =>
      simp only [hslot, Datagram.move, Except.ok.injEq, Prod.mk.injEq] at h
      exact Or.inl ⟨rfl, h.1.symm⟩
    | some e =>
      simp only [hslot, Except.ok.injEq, Prod.mk.injEq] at h
      exact Or.inr ⟨e, rfl, h.1.symm⟩

/-- An insertion succeeds when the datagram belongs to the frame. -/
theorem exists_insertFragMove {frame : Frame} {d : Datagram}
    (h : frame.validateDatagram d = .ok ()) :
    ∃ frame' left, frame.insertFragMove d = .ok (frame', left) := by
  rw [insertFragMove, h]
  dsimp only
  split
  · exact ⟨_, _, rfl⟩
  · exact ⟨_, _, rfl⟩

/-- The sum of a list after one of its elements was replaced. -/
theorem sum_map_set {α : Type*} (f : α → ℕ) (l : List α) (i : ℕ) (a : α) (hi : i < l.length) :
    ((l.set i a).map f).sum + f l[i] = (l.map f).sum + f a := by
  induction l generalizing i with
  | nil => simp at hi
  | cons b l ih =>
    cases i with
    | zero =>
      simp only [List.set_cons_zero, List.map_cons, List.sum_cons, List.getElem_cons_zero]
      omega
    | succ i =>
      have := ih i (by simpa using hi)
      simp only [List.set_cons_succ, List.map_cons, List.sum_cons, List.getElem_cons_succ]
      omega

/-- Filling an empty slot keeps a frame valid. -/
theorem Valid.withFrag {frame : Frame} {d : Datagram} (h : frame.Valid)
    (hv : frame.validateDatagram d = .ok ()) (hnone : frame.frags[d.fragId.toNat]? = some none) :
    (frame.withFrag d).Valid := by
  obtain ⟨hid, htype, hlt, hcnt⟩ := validateDatagram_eq_ok_iff.mp hv
  have hslot : frame.frags[d.fragId.toNat] = none := by
    rw [List.getElem?_eq_getElem hlt] at hnone
    exact Option.some.inj hnone
  have hpos : 0 < frame.frags.countP Option.isNone := by
    rw [List.countP_pos_iff]
    exact ⟨none, hslot ▸ List.getElem_mem hlt, rfl⟩
  refine ⟨?_, ?_, ?_, ?_⟩
  · simpa [Frame.withFrag] using h.length_lt
  · have hsub : (1 : UInt32) ≤ frame.nullFrags := by
      rw [UInt32.le_iff_toNat_le, h.nullFrags_eq]
      simpa using hpos
    simp only [Frame.withFrag]
    rw [UInt32.toNat_sub_of_le _ _ hsub, h.nullFrags_eq, List.countP_set hlt, hslot]
    simp
  · have hsum := sum_map_set slotSize frame.frags d.fragId.toNat (some d) hlt
    simp only [Frame.withFrag, h.frameSize_eq]
    rw [hslot] at hsum
    simp only [slotSize, Option.elim_none, Option.elim_some] at hsum ⊢
    omega
  · intro k e hk
    simp only [Frame.withFrag, List.length_set] at hk ⊢
    rw [List.getElem?_set] at hk
    split_ifs at hk with hki
    · simp only [Option.some.injEq] at hk
      subst hk
      exact ⟨hid, htype, hki, hcnt⟩
    · exact h.slot k e hk

/-- An insertion keeps a frame valid, with its identity. -/
theorem Valid.insertFragMove {frame frame' : Frame} {d left : Datagram} (h : frame.Valid)
    (hins : frame.insertFragMove d = .ok (frame', left)) : frame'.Valid := by
  obtain ⟨hv, ⟨hnone, rfl⟩ | ⟨e, -, rfl⟩⟩ := insertFragMove_cases hins
  · exact h.withFrag hv hnone
  · exact h

/-- An insertion keeps the identity of the frame and the number of its slots. -/
theorem insertFragMove_eq {frame frame' : Frame} {d left : Datagram}
    (hins : frame.insertFragMove d = .ok (frame', left)) :
    frame'.id = frame.id ∧ frame'.type = frame.type ∧
      frame'.frags.length = frame.frags.length := by
  obtain ⟨-, ⟨-, rfl⟩ | ⟨e, -, rfl⟩⟩ := insertFragMove_cases hins
  · simp [Frame.withFrag]
  · exact ⟨rfl, rfl, rfl⟩

/-- The slots after an insertion: the slot of the fragment keeps what it had or receives the
datagram, and the other slots are as before. -/
theorem getElem?_insertFragMove {frame frame' : Frame} {d left : Datagram}
    (hins : frame.insertFragMove d = .ok (frame', left)) (k : ℕ) :
    frame'.frags[k]? = if k = d.fragId.toNat ∧ frame.frags[k]? = some none
      then some (some d) else frame.frags[k]? := by
  obtain ⟨hv, ⟨hnone, rfl⟩ | ⟨e, he, rfl⟩⟩ := insertFragMove_cases hins
  · obtain ⟨-, -, hlt, -⟩ := validateDatagram_eq_ok_iff.mp hv
    simp only [Frame.withFrag, List.getElem?_set]
    by_cases hk : k = d.fragId.toNat
    · subst hk
      rw [if_pos rfl, if_pos hlt, if_pos ⟨rfl, hnone⟩]
    · rw [if_neg (Ne.symm hk), if_neg (fun h => hk h.1)]
  · rw [if_neg]
    rintro ⟨rfl, hnone⟩
    rw [he] at hnone
    simp at hnone

/-- After an insertion the slot of the fragment is filled. -/
theorem isSome_insertFragMove {frame frame' : Frame} {d left : Datagram}
    (hins : frame.insertFragMove d = .ok (frame', left)) :
    ∃ e, frame'.frags[d.fragId.toNat]? = some (some e) := by
  obtain ⟨-, ⟨hnone, -⟩ | ⟨e, he, -⟩⟩ := insertFragMove_cases hins
  · exact ⟨d, by rw [getElem?_insertFragMove hins, if_pos ⟨rfl, hnone⟩]⟩
  · refine ⟨e, ?_⟩
    rw [getElem?_insertFragMove hins, if_neg (by rw [he]; simp), he]

end Frame

end Ringmaster
