/-
# Sequences of insertions into a frame

The two methods `insert_frag` of the class `Frame`, statement by statement: what they leave of
the frame, and of the datagram they are called with, also when they throw.  Both run the same
statements up to the last one, which copies the datagram or moves it away, so that they differ
only in what is left of the datagram (`perform_eq`).

A sequence of calls is read off by the datagrams it is given: each slot holds the first one that
was accepted for it (`getElem?_insertAll`), and the counters agree with the slots after every
call (`Valid.insertAll`), whichever of the two methods is called and whether it throws or not.
-/
import Ringmaster.Frame

namespace Ringmaster

namespace Frame

/-! ## The methods, statement by statement -/

/-- The body of a method of the frame whose argument is a datagram: the statements change the
frame and the datagram, and what they have changed when one of them throws stays changed. -/
abbrev Method := ExceptT Exn (StateM (Frame × Datagram)) Unit

/-- The call of `validate_datagram`. -/
def checkDatagram : Method := do
  let (frame, d) ← get
  match frame.validateDatagram d with
  | .error e => throw e
  | .ok () => pure ()

/-- The statement `frame_size_ += datagram.payload.size()`. -/
def addSize : Method :=
  modify fun (frame, d) => ({ frame with frameSize := frame.frameSize + d.payload.length }, d)

/-- The statement `null_frags_--`. -/
def decrementNullFrags : Method :=
  modify fun (frame, d) => ({ frame with nullFrags := frame.nullFrags - 1 }, d)

/-- The statement `frags_[datagram.frag_id] = datagram`. -/
def copyDatagram : Method :=
  modify fun (frame, d) => ({ frame with frags := frame.frags.set d.fragId.toNat (some d) }, d)

/-- The statement `frags_[datagram.frag_id] = move(datagram)`. -/
def moveDatagram : Method :=
  modify fun (frame, d) =>
    let (stored, left) := d.move
    ({ frame with frags := frame.frags.set d.fragId.toNat (some stored) }, left)

/-- The body of `insert_frag`, which stores the datagram with its last statement. -/
def insertBody (store : Method) : Method := do
  checkDatagram
  let (frame, d) ← get
  -- insert only if the datagram does not exist yet
  if frame.frags[d.fragId.toNat]? = some none then
    addSize
    decrementNullFrags
    store

/-- A call of one of the two methods `insert_frag`. -/
inductive Insertion where
  | copy (d : Datagram)
  | move (d : Datagram)
  deriving DecidableEq, Repr

namespace Insertion

/-- The datagram of the call. -/
def datagram : Insertion → Datagram
  | copy d => d
  | move d => d

/-- The body of the method that is called. -/
def body : Insertion → Method
  | copy _ => insertBody copyDatagram
  | move _ => insertBody moveDatagram

end Insertion

/-- A call: what it throws, if it does, and what it leaves of the frame and of the datagram. -/
def perform (frame : Frame) (call : Insertion) : Except Exn Unit × Frame × Datagram :=
  call.body (frame, call.datagram)

/-- The frame after a sequence of calls. -/
def insertAll (frame : Frame) (calls : List Insertion) : Frame :=
  calls.foldl (fun frame call => (frame.perform call).2.1) frame

/-! ## What a call does -/

/-- Two statements, one after the other: the second one runs only when the first one does not
throw. -/
theorem seq_apply (first next : Method) (s : Frame × Datagram) :
    (first >>= fun _ => next : Method) s =
      match first s with
      | (.error e, s') => (.error e, s')
      | (.ok (), s') => next s' := by
  have hbind : (first >>= fun _ => next : Method) s =
      ExceptT.bindCont (fun _ => next) (first s).1 (first s).2 := rfl
  rw [hbind]
  rcases first s with ⟨e | u, s'⟩
  · rfl
  · rfl

/-- The validation throws or does not, and changes nothing. -/
theorem checkDatagram_apply (frame : Frame) (d : Datagram) :
    checkDatagram (frame, d) = (frame.validateDatagram d, frame, d) := by
  change (match frame.validateDatagram d with
    | .error e => throw e
    | .ok () => pure () : Method) (frame, d) = _
  rcases frame.validateDatagram d with e | u
  · rfl
  · rfl

/-- The body throws what the validation throws and then changes nothing; the rest of it runs
when the slot of the datagram is empty. -/
theorem insertBody_apply (store : Method) (frame : Frame) (d : Datagram) :
    insertBody store (frame, d) =
      match frame.validateDatagram d with
      | .error e => (.error e, frame, d)
      | .ok () =>
        if frame.frags[d.fragId.toNat]? = some none then
          store ({ frame with
            frameSize := frame.frameSize + d.payload.length
            nullFrags := frame.nullFrags - 1 }, d)
        else
          (.ok (), frame, d) := by
  unfold insertBody
  rw [seq_apply, checkDatagram_apply]
  cases frame.validateDatagram d with
  | error e => rfl
  | ok u =>
    change (if frame.frags[d.fragId.toNat]? = some none then (do
      addSize
      decrementNullFrags
      store) else pure () : Method) (frame, d) = (if _ then _ else _)
    split_ifs
    · rfl
    · rfl

/-- What a call that stores its datagram leaves of it. -/
def Insertion.left : Insertion → Datagram
  | copy d => d
  | move d => d.move.2

/-- A call throws what the validation throws, or fills an empty slot, or leaves a filled one
alone. -/
theorem perform_eq (frame : Frame) (call : Insertion) :
    frame.perform call =
      match frame.validateDatagram call.datagram with
      | .error e => (.error e, frame, call.datagram)
      | .ok () =>
        if frame.frags[call.datagram.fragId.toNat]? = some none then
          (.ok (), frame.withFrag call.datagram, call.left)
        else
          (.ok (), frame, call.datagram) := by
  cases call with
  | copy d => exact insertBody_apply copyDatagram frame d
  | move d => exact insertBody_apply moveDatagram frame d

/-- Both methods compute what `insertFrag` computes. -/
theorem perform_eq_insertFrag (frame : Frame) (call : Insertion) :
    frame.insertFrag call.datagram =
      (frame.perform call).1.map fun _ => (frame.perform call).2.1 := by
  rw [perform_eq]
  unfold insertFrag
  cases frame.validateDatagram call.datagram with
  | error e => rfl
  | ok u =>
    dsimp only
    split
    · rename_i hnone
      rw [if_pos hnone]
      rfl
    · rename_i hnot
      rw [if_neg hnot]
      rfl

/-! ## The datagrams that are accepted -/

/-- The datagram belongs to a frame with the given identity and number of fragments. -/
def Accepts (frameId : UInt32) (frameType : FrameType) (fragCnt : ℕ) (d : Datagram) : Prop :=
  d.frameId = frameId ∧ d.frameType = frameType ∧ d.fragId.toNat < fragCnt ∧
    d.fragCnt.toNat = fragCnt

instance (frameId : UInt32) (frameType : FrameType) (fragCnt : ℕ) (d : Datagram) :
    Decidable (Accepts frameId frameType fragCnt d) :=
  inferInstanceAs (Decidable (_ ∧ _ ∧ _ ∧ _))

/-- The first datagram of the calls that is accepted for a slot. -/
def firstAccepted (frameId : UInt32) (frameType : FrameType) (fragCnt : ℕ)
    (calls : List Insertion) (k : ℕ) : Option Datagram :=
  (calls.map Insertion.datagram).find? fun d =>
    decide (Accepts frameId frameType fragCnt d ∧ d.fragId.toNat = k)

/-- The first datagram of two sequences of calls is that of the first one, if it has any. -/
theorem firstAccepted_append (frameId : UInt32) (frameType : FrameType) (fragCnt : ℕ)
    (calls calls' : List Insertion) (k : ℕ) :
    firstAccepted frameId frameType fragCnt (calls ++ calls') k =
      (firstAccepted frameId frameType fragCnt calls k).or
        (firstAccepted frameId frameType fragCnt calls' k) := by
  unfold firstAccepted
  rw [List.map_append, List.find?_append]

section Calls

variable {frame : Frame} {call : Insertion} {calls : List Insertion}

/-- A call of a datagram that belongs to the frame does not throw. -/
theorem perform_ok_iff : (frame.perform call).1 = .ok () ↔
    Accepts frame.id frame.type frame.frags.length call.datagram := by
  rw [perform_eq]
  cases hv : frame.validateDatagram call.datagram with
  | error e =>
    refine iff_of_false (fun h => by cases h) ?_
    intro haccepts
    rw [validateDatagram_eq_ok_iff.mpr haccepts] at hv
    cases hv
  | ok u =>
    refine iff_of_true ?_ (validateDatagram_eq_ok_iff.mp hv)
    dsimp only
    split_ifs
    · rfl
    · rfl

/-- A call that throws changes neither the frame nor the datagram. -/
theorem perform_of_error {e : Exn} (h : (frame.perform call).1 = .error e) :
    (frame.perform call).2 = (frame, call.datagram) := by
  rw [perform_eq] at h ⊢
  cases hv : frame.validateDatagram call.datagram with
  | error e => rfl
  | ok u =>
    rw [hv] at h
    dsimp only at h
    split_ifs at h

/-- A call either changes nothing or fills the slot of its datagram, which was empty. -/
theorem perform_cases (frame : Frame) (call : Insertion) :
    ((frame.perform call).2.1 = frame ∧
      (Accepts frame.id frame.type frame.frags.length call.datagram →
        frame.frags[call.datagram.fragId.toNat]? ≠ some none)) ∨
      (frame.validateDatagram call.datagram = .ok () ∧
        frame.frags[call.datagram.fragId.toNat]? = some none ∧
          (frame.perform call).2.1 = frame.withFrag call.datagram) := by
  rw [perform_eq]
  cases hv : frame.validateDatagram call.datagram with
  | error e =>
    refine Or.inl ⟨rfl, ?_⟩
    intro haccepts
    rw [validateDatagram_eq_ok_iff.mpr haccepts] at hv
    cases hv
  | ok u =>
    dsimp only
    split_ifs with hnone
    · exact Or.inr ⟨rfl, hnone, rfl⟩
    · exact Or.inl ⟨rfl, fun _ => hnone⟩

/-- A call keeps the identity of the frame and the number of its slots. -/
theorem perform_identity (frame : Frame) (call : Insertion) :
    (frame.perform call).2.1.id = frame.id ∧ (frame.perform call).2.1.type = frame.type ∧
      (frame.perform call).2.1.frags.length = frame.frags.length := by
  rcases perform_cases frame call with ⟨hsame, -⟩ | ⟨-, -, hfilled⟩
  · rw [hsame]
    exact ⟨rfl, rfl, rfl⟩
  · rw [hfilled]
    exact ⟨rfl, rfl, List.length_set⟩

/-- A call keeps a frame valid. -/
theorem Valid.perform (h : frame.Valid) (call : Insertion) : (frame.perform call).2.1.Valid := by
  rcases perform_cases frame call with ⟨hsame, -⟩ | ⟨hv, hnone, hfilled⟩
  · rw [hsame]
    exact h
  · rw [hfilled]
    exact h.withFrag hv hnone

/-- The slots after a call: an empty slot takes the datagram that is accepted for it, and every
other slot stays as it is. -/
theorem getElem?_perform (frame : Frame) (call : Insertion) (k : ℕ) :
    (frame.perform call).2.1.frags[k]? = (frame.frags[k]?).map fun slot =>
      slot.or (firstAccepted frame.id frame.type frame.frags.length [call] k) := by
  have hfirst : firstAccepted frame.id frame.type frame.frags.length [call] k =
      if Accepts frame.id frame.type frame.frags.length call.datagram ∧
        call.datagram.fragId.toNat = k then some call.datagram else none := by
    unfold firstAccepted
    rw [List.map_singleton, List.find?_singleton]
    simp only [decide_eq_true_eq]
  rw [hfirst]
  rcases perform_cases frame call with ⟨hsame, hfull⟩ | ⟨hv, hnone, hfilled⟩
  · rw [hsame]
    split_ifs with haccepts
    · obtain ⟨hbelongs, rfl⟩ := haccepts
      have hnot := hfull hbelongs
      rcases hslot : frame.frags[call.datagram.fragId.toNat]? with _ | _ | d
      · rfl
      · exact absurd hslot hnot
      · rfl
    · simp only [Option.or_none, Option.map_id']
  · have hbelongs := validateDatagram_eq_ok_iff.mp hv
    rw [hfilled]
    by_cases hk : call.datagram.fragId.toNat = k
    · subst hk
      rw [if_pos ⟨hbelongs, rfl⟩, hnone]
      exact List.getElem?_set_self hbelongs.2.2.1
    · rw [if_neg (fun h => hk h.2)]
      simp only [Option.or_none, Option.map_id']
      exact List.getElem?_set_ne hk

/-! ## Sequences of calls -/

/-- A sequence of calls keeps the identity of the frame and the number of its slots. -/
theorem insertAll_identity (frame : Frame) (calls : List Insertion) :
    (frame.insertAll calls).id = frame.id ∧ (frame.insertAll calls).type = frame.type ∧
      (frame.insertAll calls).frags.length = frame.frags.length := by
  induction calls generalizing frame with
  | nil => exact ⟨rfl, rfl, rfl⟩
  | cons call calls ih =>
    obtain ⟨hid, htype, hlength⟩ := perform_identity frame call
    obtain ⟨hid', htype', hlength'⟩ := ih (frame.perform call).2.1
    exact ⟨hid'.trans hid, htype'.trans htype, hlength'.trans hlength⟩

/-- A sequence of calls keeps a frame valid. -/
theorem Valid.insertAll (h : frame.Valid) (calls : List Insertion) :
    (frame.insertAll calls).Valid := by
  induction calls generalizing frame with
  | nil => exact h
  | cons call calls ih => exact ih (h.perform call)

/-- The slots after a sequence of calls: an empty slot takes the first datagram that is accepted
for it, and every other slot stays as it is. -/
theorem getElem?_insertAll (frame : Frame) (calls : List Insertion) (k : ℕ) :
    (frame.insertAll calls).frags[k]? = (frame.frags[k]?).map fun slot =>
      slot.or (firstAccepted frame.id frame.type frame.frags.length calls k) := by
  induction calls generalizing frame with
  | nil =>
    show frame.frags[k]? = (frame.frags[k]?).map fun slot => slot.or none
    simp only [Option.or_none, Option.map_id']
  | cons call calls ih =>
    obtain ⟨hid, htype, hlength⟩ := perform_identity frame call
    have happend := firstAccepted_append frame.id frame.type frame.frags.length [call] calls k
    rw [List.singleton_append] at happend
    show ((frame.perform call).2.1.insertAll calls).frags[k]? = _
    rw [ih, getElem?_perform, hid, htype, hlength, Option.map_map, happend]
    simp only [Function.comp_def, Option.or_assoc]

/-- The calls of the two methods with the same datagrams give the same frame. -/
theorem insertAll_congr (frame : Frame) {calls calls' : List Insertion}
    (h : calls.map Insertion.datagram = calls'.map Insertion.datagram) :
    frame.insertAll calls = frame.insertAll calls' := by
  induction calls generalizing frame calls' with
  | nil =>
    rw [List.map_nil, eq_comm, List.map_eq_nil_iff] at h
    rw [h]
  | cons call calls ih =>
    obtain ⟨call', rest, rfl, hcall, hrest⟩ := List.map_eq_cons_iff.mp h.symm
    have hsame : (frame.perform call').2.1 = (frame.perform call).2.1 := by
      rw [perform_eq, perform_eq, hcall]
      cases frame.validateDatagram call.datagram with
      | error e => rfl
      | ok u =>
        dsimp only
        split_ifs
        · rfl
        · rfl
    show (frame.perform call).2.1.insertAll calls = (frame.perform call').2.1.insertAll rest
    rw [hsame, ih _ hrest.symm]

end Calls

/-! ## The invariant of the representation -/

/-- The frame is what a sequence of calls makes of a new frame: its slots hold the first
datagrams that were accepted for them, and its counters agree with the slots. -/
structure Reflects (frameId : UInt32) (frameType : FrameType) (fragCnt : UInt16)
    (calls : List Insertion) (frame : Frame) : Prop where
  id_eq : frame.id = frameId
  type_eq : frame.type = frameType
  length_eq : frame.frags.length = fragCnt.toNat
  nullFrags_eq : frame.nullFrags.toNat = frame.frags.countP Option.isNone
  frameSize_eq : frame.frameSize = (frame.frags.map slotSize).sum
  slot_eq : ∀ k, k < fragCnt.toNat →
    frame.frags[k]? = some (firstAccepted frameId frameType fragCnt.toNat calls k)
  slot_fields : ∀ (k : ℕ) (d : Datagram), frame.frags[k]? = some (some d) →
    d.frameId = frameId ∧ d.frameType = frameType ∧ d.fragCnt = fragCnt ∧ d.fragId.toNat = k
  complete_iff : frame.complete ↔
    ∀ k, k < fragCnt.toNat → ∃ d, frame.frags[k]? = some (some d)

section New

variable {frameId : UInt32} {frameType : FrameType} {fragCnt : UInt16} {frame₀ : Frame}

/-- Every sequence of calls on a new frame is reflected by what it makes of it. -/
theorem reflects_insertAll (hnew : new frameId frameType fragCnt = .ok frame₀)
    (calls : List Insertion) :
    Reflects frameId frameType fragCnt calls (frame₀.insertAll calls) := by
  have hvalid := (valid_of_new hnew).insertAll calls
  obtain ⟨-, rfl⟩ := new_eq_ok_iff.mp hnew
  obtain ⟨hid, htype, hlength⟩ := insertAll_identity
    ⟨frameId, frameType, List.replicate fragCnt.toNat none, fragCnt.toUInt32, 0⟩ calls
  rw [List.length_replicate] at hlength
  refine ⟨hid, htype, hlength, hvalid.nullFrags_eq, hvalid.frameSize_eq, ?_, ?_, ?_⟩
  · intro k hk
    rw [getElem?_insertAll, List.getElem?_replicate_of_lt hk, List.length_replicate]
    rfl
  · intro k d hslot
    obtain ⟨hid', htype', hfragId, hfragCnt⟩ := hvalid.slot k d hslot
    rw [hlength] at hfragCnt
    exact ⟨hid'.trans hid, htype'.trans htype, UInt16.toNat_inj.mp hfragCnt, hfragId⟩
  · rw [hvalid.complete_iff, hlength]

/-- A call that fills an empty slot finds a counter that is not zero. -/
theorem Reflects.one_le_nullFrags {frame : Frame} {calls : List Insertion} {k : ℕ}
    (h : Reflects frameId frameType fragCnt calls frame) (hslot : frame.frags[k]? = some none) :
    1 ≤ frame.nullFrags := by
  have hpos : 0 < frame.frags.countP Option.isNone := by
    rw [List.countP_pos_iff]
    exact ⟨none, List.mem_of_getElem? hslot, rfl⟩
  rw [UInt32.le_iff_toNat_le, h.nullFrags_eq]
  exact hpos

/-- After every sequence of calls on a new frame, by copy or by move: the frame reflects the
calls; a further call throws unless its datagram belongs to the frame, changes nothing when it
throws, and decrements the counter only when it is positive; and the calls of the two methods
can be exchanged. -/
theorem insertAll_invariant (hnew : new frameId frameType fragCnt = .ok frame₀)
    (calls : List Insertion) :
    Reflects frameId frameType fragCnt calls (frame₀.insertAll calls) ∧
      (∀ call : Insertion,
        (((frame₀.insertAll calls).perform call).1 = .ok () ↔
          Accepts frameId frameType fragCnt.toNat call.datagram) ∧
        (∀ e, ((frame₀.insertAll calls).perform call).1 = .error e →
          ((frame₀.insertAll calls).perform call).2 =
            (frame₀.insertAll calls, call.datagram)) ∧
        (((frame₀.insertAll calls).perform call).2.1 ≠ frame₀.insertAll calls →
          1 ≤ (frame₀.insertAll calls).nullFrags)) ∧
      ∀ calls' : List Insertion,
        calls'.map Insertion.datagram = calls.map Insertion.datagram →
          frame₀.insertAll calls' = frame₀.insertAll calls := by
  have hreflects := reflects_insertAll hnew calls
  refine ⟨hreflects, ?_, ?_⟩
  · intro call
    refine ⟨?_, ?_, ?_⟩
    · rw [perform_ok_iff, hreflects.id_eq, hreflects.type_eq, hreflects.length_eq]
    · intro e herror
      exact perform_of_error herror
    · intro hchanged
      rcases perform_cases (frame₀.insertAll calls) call with ⟨hsame, -⟩ | ⟨-, hnone, -⟩
      · exact absurd hsame hchanged
      · exact hreflects.one_le_nullFrags hnone
  · intro calls' hdatagrams
    exact insertAll_congr frame₀ hdatagrams

/-- A frame of two fragments that receives its second one twice, and a datagram of another
frame. -/
theorem insertAll_invariant_two :
    Reflects 7 .key 2
      [.copy ⟨7, .key, 1, 2, 0, [5], 0, 0⟩, .move ⟨7, .key, 1, 2, 0, [6, 6], 0, 0⟩,
        .move ⟨8, .key, 0, 2, 0, [], 0, 0⟩]
      ⟨7, .key, [none, some ⟨7, .key, 1, 2, 0, [5], 0, 0⟩], 1, 1⟩ :=
  (@insertAll_invariant 7 .key 2 ⟨7, .key, [none, none], 2, 0⟩ rfl
    [.copy ⟨7, .key, 1, 2, 0, [5], 0, 0⟩, .move ⟨7, .key, 1, 2, 0, [6, 6], 0, 0⟩,
      .move ⟨8, .key, 0, 2, 0, [], 0, 0⟩]).1

end New

end Frame

end Ringmaster
