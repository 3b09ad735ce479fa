/-
# Who owns a descriptor

The classes `FileDescriptor` of `src/util/file_descriptor.cc` and `MMap` of `src/util/mmap.cc`
as owners of a descriptor and of a mapping: their constructors, destructors and moves, and the
method `close`.  An object that owns nothing is marked, by a negative number or by a null
pointer.

Every member function hands on what it finds, or closes it, except the move assignments.  They
overwrite what this object held without closing it, and they mark the other object last, even
if it is this one.  So there is exactly one owner in every run that assigns only to objects
that own nothing, and any other assignment loses a descriptor or a mapping (`ownership_iff`).
-/
import Ringmaster.FileDescriptor
import Ringmaster.Library.Ownership

namespace Ringmaster

open Ownership (HandleClass State)

/-! ## Descriptors -/

/-- The members of a `FileDescriptor`. -/
structure Descriptor where
  fd : ℤ
  eof : Bool
  deriving DecidableEq

namespace Descriptor

/-- The constructor, with the result of the call of `fcntl` that sets `FD_CLOEXEC`. -/
def construct (fd : ℤ) (result : Int32) : Except SysExn Descriptor :=
  match checkSyscall result with
  | .error e => .error e
  | .ok _ => .ok ⟨fd, false⟩

/-- The destructor: the number that it passes to `::close`. -/
def destruct (this : Descriptor) : Option ℤ :=
  if this.fd ≥ 0 then some this.fd else none

/-- How the moves mark the other file descriptor as inactive. -/
def deactivate (other : Descriptor) : Descriptor := { other with fd := -1 }

/-- The move constructor: the new object, and the other one. -/
def moveConstruct (other : Descriptor) : Descriptor × Descriptor :=
  (⟨other.fd, other.eof⟩, other.deactivate)

/-- What the move assignment does with this object, before it marks the other one. -/
def copyMembers (this other : Descriptor) : Descriptor :=
  { this with fd := other.fd, eof := other.eof }

/-- The method `close`, with the result of the system call: what becomes of the object, and
the number that is passed to `::close`. -/
def close (this : Descriptor) (result : Int32) : Except SysExn Unit × Descriptor × Option ℤ :=
  if this.fd < 0 then
    -- has already been moved away or closed
    (.ok (), this, none)
  else
    match checkSyscall result with
    | .error e => (.error e, this, some this.fd)
    | .ok _ => (.ok (), { this with fd := -1 }, some this.fd)

/-- The class, when all system calls succeed.  The kernel hands out a number that is not in
use. -/
def handles : HandleClass Descriptor ℤ where
  fresh active fd := decide (0 ≤ fd ∧ fd ∉ active)
  construct fd := (construct fd 0).toOption
  moveConstruct := moveConstruct
  copyMembers := copyMembers
  deactivate := deactivate
  close := some fun this => (this.close 0).2
  destruct := destruct

/-- An inactive object owns nothing. -/
theorem destruct_deactivate (other : Descriptor) : other.deactivate.destruct = none := by
  have hnegative : ¬ (-1 : ℤ) ≥ 0 := by omega
  exact if_neg hnegative

/-- The method `close` closes what the destructor would close, and leaves nothing to close. -/
theorem close_eq (this : Descriptor) :
    (this.close 0).2.2 = this.destruct ∧ (this.close 0).2.1.destruct = none := by
  by_cases hfd : this.fd < 0
  · have hnone : this.destruct = none := if_neg (by omega)
    rw [close, if_pos hfd]
    exact ⟨hnone.symm, hnone⟩
  · have hsome : this.destruct = some this.fd := if_pos (by omega)
    rw [close, if_neg hfd, hsome]
    exact ⟨rfl, this.destruct_deactivate⟩

/-- The member functions hand on what they find. -/
theorem lawful_handles : handles.Lawful where
  notMem_of_fresh h := (of_decide_eq_true h).2
  destruct_construct := by
    intro active fd object hfresh hobject
    have hnonneg : 0 ≤ fd := (of_decide_eq_true hfresh).1
    rw [← Option.some_inj.mp hobject]
    exact if_pos hnonneg
  destruct_moveConstruct other := ⟨rfl, other.destruct_deactivate⟩
  destruct_copyMembers _ _ := rfl
  destruct_deactivate := destruct_deactivate
  close_eq := by
    intro f object hclose
    rw [← Option.some_inj.mp hclose]
    exact object.close_eq

end Descriptor

/-! ## Mappings -/

/-- A mapping of the kernel. -/
structure Mapping where
  addr : ℕ
  length : ℕ
  deriving DecidableEq

/-- The members of an `MMap`; the address of the null pointer is zero. -/
structure MMap where
  addr : ℕ
  length : ℕ
  deriving DecidableEq

namespace MMap

/-- The address `MAP_FAILED`. -/
def mapFailed : ℕ := 2 ^ 64 - 1

/-- The constructor, with the result of the call of `mmap`. -/
def construct (result length : ℕ) : Except Exn MMap :=
  if result = mapFailed then .error (.runtimeError "mmap failed") else .ok ⟨result, length⟩

/-- The destructor: what it passes to `munmap`. -/
def destruct (this : MMap) : Option Mapping :=
  if this.addr ≠ 0 ∧ this.length > 0 then some ⟨this.addr, this.length⟩ else none

/-- How the moves mark the other object. -/
def deactivate (_other : MMap) : MMap := ⟨0, 0⟩

/-- The move constructor: the new object, and the other one. -/
def moveConstruct (other : MMap) : MMap × MMap :=
  (⟨other.addr, other.length⟩, other.deactivate)

/-- What the move assignment does with this object, before it marks the other one. -/
def copyMembers (_this other : MMap) : MMap := ⟨other.addr, other.length⟩

/-- The class, when all system calls succeed.  The kernel maps at least one byte, at an
address that is not null, where nothing is mapped. -/
def handles : HandleClass MMap Mapping where
  fresh active mapping :=
    decide (mapping.addr ≠ 0 ∧ mapping.addr ≠ mapFailed ∧ 0 < mapping.length ∧
      ∀ other ∈ active, mapping.addr + mapping.length ≤ other.addr ∨
        other.addr + other.length ≤ mapping.addr)
  construct mapping := (construct mapping.addr mapping.length).toOption
  moveConstruct := moveConstruct
  copyMembers := copyMembers
  deactivate := deactivate
  close := none
  destruct := destruct

/-- The member functions hand on what they find. -/
theorem lawful_handles : handles.Lawful where
  notMem_of_fresh := by
    intro active mapping hfresh hmem
    obtain ⟨-, -, hlength, hdisjoint⟩ := of_decide_eq_true hfresh
    rcases hdisjoint mapping hmem with hbefore | hafter
    · omega
    · omega
  destruct_construct := by
    intro active mapping object hfresh hobject
    obtain ⟨hnull, hfailed, hlength, -⟩ := of_decide_eq_true hfresh
    have hconstruct : construct mapping.addr mapping.length = .ok ⟨mapping.addr, mapping.length⟩ :=
      if_neg hfailed
    change (construct mapping.addr mapping.length).toOption = some object at hobject
    rw [hconstruct] at hobject
    rw [← Option.some_inj.mp hobject]
    exact if_pos ⟨hnull, hlength⟩
  destruct_moveConstruct _ := ⟨rfl, rfl⟩
  destruct_copyMembers _ _ := rfl
  destruct_deactivate _ := rfl
  close_eq _ hclose := absurd hclose (Option.some_ne_none _).symm

end MMap

/-! ## The law of ownership -/

/-- Descriptors and mappings have one owner and are closed once.  In every run of operations on
objects of one of the classes that assigns only to objects that own nothing, in every state
every open descriptor is owned by exactly one object, and once no object is left each
descriptor was closed exactly once for each time it was opened.  After such a run, the next
operation keeps this if and only if it is not an assignment to an object that owns
something. -/
theorem ownership_iff {ι : Type*} [DecidableEq ι] :
    (∀ es (s : State ι Descriptor ℤ),
      Run.Steps Descriptor.handles.VacantStep (State.initial ι Descriptor ℤ) es s →
        Descriptor.handles.Law s es ∧
        ∀ op s' es', Descriptor.handles.step s op = some (s', es') →
          (Descriptor.handles.Law s' (es ++ es') ↔ Descriptor.handles.Vacant s op)) ∧
    (∀ es (s : State ι MMap Mapping),
      Run.Steps MMap.handles.VacantStep (State.initial ι MMap Mapping) es s →
        MMap.handles.Law s es ∧
        ∀ op s' es', MMap.handles.step s op = some (s', es') →
          (MMap.handles.Law s' (es ++ es') ↔ MMap.handles.Vacant s op)) := by
  constructor
  · intro es s hsteps
    exact Descriptor.lawful_handles.law_of_steps hsteps
  · intro es s hsteps
    exact MMap.lawful_handles.law_of_steps hsteps

/-- Two objects that own the descriptors 3 and 4. -/
def twoDescriptors : State ℕ Descriptor ℤ where
  objects := Function.update (Function.update (fun _ => none) 0 (some ⟨3, false⟩)) 1
    (some ⟨4, false⟩)
  active := {4, 3}

/-- Two objects that own mappings of a page. -/
def twoMappings : State ℕ MMap Mapping where
  objects := Function.update (Function.update (fun _ => none) 0 (some ⟨4096, 4096⟩)) 1
    (some ⟨8192, 4096⟩)
  active := {⟨8192, 4096⟩, ⟨4096, 4096⟩}

/-- The objects are constructed one after the other. -/
theorem steps_twoDescriptors : Run.Steps Descriptor.handles.VacantStep
    (State.initial ℕ Descriptor ℤ) [.opened 3, .opened 4] twoDescriptors := by
  have hfirst : Descriptor.handles.VacantStep (State.initial ℕ Descriptor ℤ) [.opened 3]
      ⟨Function.update (fun _ => none) 0 (some ⟨3, false⟩), {3}⟩ := ⟨.construct 0 3, trivial, rfl⟩
  exact (Run.Steps.single hfirst).tail ⟨.construct 1 4, trivial, rfl⟩

/-- The objects are constructed one after the other. -/
theorem steps_twoMappings : Run.Steps MMap.handles.VacantStep
    (State.initial ℕ MMap Mapping) [.opened ⟨4096, 4096⟩, .opened ⟨8192, 4096⟩]
    twoMappings := by
  have hfirst : MMap.handles.VacantStep (State.initial ℕ MMap Mapping) [.opened ⟨4096, 4096⟩]
      ⟨Function.update (fun _ => none) 0 (some ⟨4096, 4096⟩), {⟨4096, 4096⟩}⟩ :=
    ⟨.construct 0 ⟨4096, 4096⟩, trivial, rfl⟩
  exact (Run.Steps.single hfirst).tail ⟨.construct 1 ⟨8192, 4096⟩, trivial, rfl⟩

/-- The law for two objects that own a descriptor or a mapping each. -/
theorem ownership_iff_two :
    Descriptor.handles.Law twoDescriptors [.opened 3, .opened 4] ∧
    MMap.handles.Law twoMappings [.opened ⟨4096, 4096⟩, .opened ⟨8192, 4096⟩] :=
  ⟨(ownership_iff.1 _ _ steps_twoDescriptors).1, (ownership_iff.2 _ _ steps_twoMappings).1⟩

/-- Two objects are constructed that own the descriptors 3 and 4.  An assignment to the first one
then loses the descriptor 3, also if the object is assigned to itself; the same holds for
mappings. -/
theorem exists_not_law :
    (Run.Steps Descriptor.handles.Step (State.initial ℕ Descriptor ℤ) [.opened 3, .opened 4]
        twoDescriptors ∧
      (∃ s es, Descriptor.handles.step twoDescriptors (.moveAssign 0 1) = some (s, es) ∧
        3 ∈ s.active ∧ (∀ i, Descriptor.handles.held s i ≠ some 3) ∧
        ¬ Descriptor.handles.Law s (.opened 3 :: .opened 4 :: es)) ∧
      ∃ s es, Descriptor.handles.step twoDescriptors (.moveAssign 0 0) = some (s, es) ∧
        ¬ Descriptor.handles.Law s (.opened 3 :: .opened 4 :: es)) ∧
    (Run.Steps MMap.handles.Step (State.initial ℕ MMap Mapping)
        [.opened ⟨4096, 4096⟩, .opened ⟨8192, 4096⟩] twoMappings ∧
      ∃ s es, MMap.handles.step twoMappings (.moveAssign 0 1) = some (s, es) ∧
        ¬ MMap.handles.Law s (.opened ⟨4096, 4096⟩ :: .opened ⟨8192, 4096⟩ :: es)) := by
  have hrun := HandleClass.steps_of_vacant steps_twoDescriptors
  have hdescriptors := (Descriptor.lawful_handles.law_of_steps steps_twoDescriptors).2
  have hmappings := (MMap.lawful_handles.law_of_steps steps_twoMappings).2
  have hsound := (Descriptor.lawful_handles.sound_of_steps hrun).1
  have hheld : (Descriptor.handles.ledger twoDescriptors).held 0 = some 3 := rfl
  have hassign : Descriptor.handles.step twoDescriptors (.moveAssign 0 1) = some (⟨_, _⟩, []) :=
    rfl
  have hledger := (Descriptor.lawful_handles.ledger_moveAssign hassign).1
  refine ⟨⟨hrun, ⟨_, _, hassign, by decide, fun i hi => ?_, fun hlaw => ?_⟩,
    ⟨_, _, rfl, fun hlaw => ?_⟩⟩,
    ⟨HandleClass.steps_of_vacant steps_twoMappings, ⟨_, _, rfl, fun hlaw => ?_⟩⟩⟩
  · have hmoved := congrFun (congrArg Ownership.Ledger.held hledger) i
    exact hsound.held_move_ne hheld 1 i (hmoved.symm.trans hi)
  · have hvacant := (hdescriptors (.moveAssign 0 1) _ _ rfl).mp hlaw
    exact absurd hvacant (Option.some_ne_none 3)
  · have hvacant := (hdescriptors (.moveAssign 0 0) _ _ rfl).mp hlaw
    exact absurd hvacant (Option.some_ne_none 3)
  · have hvacant := (hmappings (.moveAssign 0 1) _ _ rfl).mp hlaw
    exact absurd hvacant (Option.some_ne_none (⟨4096, 4096⟩ : Mapping))

end Ringmaster
