/-
# Reading lines

Whether `FileDescriptor::getline` loses data, over every history of the descriptor.

`getline` stops when the flag of `eof()` is set after it has read a byte, and the flag may be
set from earlier.  It is the next line that is read if and only if the flag is not set before
the end of the file (`getlineExact_iff`).  Only two calls bring this about: a `read` of no
bytes, which looks like the end of the file, and a `seek` back from the end, which unlike
`reset_offset` does not clear the flag.  Without them no line is lost
(`getlineExact_of_steps`).
-/
import Ringmaster.Library.Run
import Ringmaster.FileDescriptor

namespace Ringmaster

namespace FileDescriptor

open OpenFile (Ready newline)

/-! ## Histories -/

/-- The calls that read the file or move the offset, with what the kernel decides. -/
inductive Call where
  | read (limit : ℕ) (ready : Ready)
  | readn (n : ℕ) (allowPartialRead : Bool) (ready : ℕ → Ready)
  | getline
  | seek (offset : Int64) (whence : Whence)
  | resetOffset

/-- The calls that do not throw. -/
inductive Step : FileDescriptor → List Call → FileDescriptor → Prop
  | read {fd fd' : FileDescriptor} {limit : ℕ} {ready : Ready} {data : Bytes} :
      fd.read limit ready = (.ok data, fd') → Step fd [.read limit ready] fd'
  | readn {fd fd' : FileDescriptor} {n : ℕ} {allowPartialRead : Bool} {ready : ℕ → Ready}
      {data : Bytes} :
      fd.readn n allowPartialRead ready = (.ok data, fd') →
      Step fd [.readn n allowPartialRead ready] fd'
  | getline {fd fd' : FileDescriptor} {ret : Bytes} :
      fd.getline = (.ok ret, fd') → Step fd [.getline] fd'
  | seek {fd fd' : FileDescriptor} {offset : Int64} {whence : Whence} {ret : ℕ} :
      fd.seek offset whence = (.ok ret, fd') → Step fd [.seek offset whence] fd'
  | resetOffset {fd fd' : FileDescriptor} :
      fd.resetOffset = (.ok (), fd') → Step fd [.resetOffset] fd'

/-- The calls that do not make the flag wrong: before the end of the file no empty read, and
while the flag is set no `seek` to before the end. -/
def Careful (fd : FileDescriptor) : Call → Prop
  | .read limit _ => limit ≠ 0 ∨ fd.file.ahead = []
  | .seek offset whence => fd.eof →
      (fd.file.content.length : ℤ) ≤ fd.file.target offset whence
  | _ => True

/-- The calls that do not throw and are careful. -/
def CarefulStep (fd : FileDescriptor) (calls : List Call) (fd' : FileDescriptor) : Prop :=
  Step fd calls fd' ∧ ∀ call ∈ calls, fd.Careful call

/-- The flag is set at the end of the file only. -/
def EofAtEnd (fd : FileDescriptor) : Prop := fd.eof → fd.file.ahead = []

/-! ## A single line -/

/-- What `getline` should do: return the line, move the offset behind the line and its end, and
say that the end of the file was reached only if it was, because the line has no end. -/
structure GetlineExact (fd : FileDescriptor) : Prop where
  ret : fd.getline.1 = .ok fd.file.line
  file : fd.getline.2.file = fd.file.advance fd.file.lineSize
  eof : fd.getline.2.eof → newline ∉ fd.file.ahead

/-- A line is lost if and only if the flag is set before the end of the file. -/
theorem getlineExact_iff {fd : FileDescriptor} : GetlineExact fd ↔ EofAtEnd fd := by
  constructor
  · intro h heof
    have hret := h.ret
    have hmem := h.eof
    rw [getline_of_eof heof] at hret hmem
    have hline : fd.file.line = [] := (Except.ok.inj hret).symm
    by_contra hne
    obtain ⟨b, rest, hahead⟩ := List.exists_cons_of_ne_nil hne
    have hb : b ≠ newline := by
      rintro rfl
      exact hmem rfl (by rw [hahead]; exact List.mem_cons_self)
    simp [OpenFile.line, hahead, hb] at hline
  · intro h
    cases heof : fd.eof with
    | false =>
      refine ⟨?_, ?_, ?_⟩
      · rw [getline_of_eof_eq_false heof]
      · rw [getline_of_eof_eq_false heof]
      · rw [getline_of_eof_eq_false heof]
        exact of_decide_eq_true
    | true =>
      have hahead : fd.file.ahead = [] := h heof
      have hline : fd.file.line = [] := by rw [OpenFile.line, hahead]; rfl
      have hsize : fd.file.lineSize = 0 := by rw [OpenFile.lineSize, hline, hahead]; rfl
      refine ⟨?_, ?_, ?_⟩
      · rw [getline_of_eof heof, hline]
      · rw [getline_of_eof heof, hsize, hahead]
        rfl
      · rw [hahead]
        exact fun _ => List.not_mem_nil

/-! ## What the calls do to the flag -/

/-- There is nothing ahead when the offset is at or behind the end. -/
theorem ahead_eq_nil_iff {file : OpenFile} :
    file.ahead = [] ↔ file.content.length ≤ file.offset := by
  unfold OpenFile.ahead
  exact List.drop_eq_nil_iff

/-- Moving forward from the end stays at the end. -/
theorem ahead_advance_eq_nil {file : OpenFile} (h : file.ahead = []) (n : ℕ) :
    (file.advance n).ahead = [] := by
  rw [OpenFile.ahead_advance, h, List.drop_nil]

/-- A call of `lseek` that succeeds moves the offset to where it is asked to. -/
theorem file_of_seek {fd fd' : FileDescriptor} {offset : Int64} {whence : Whence} {ret : ℕ}
    (h : fd.seek offset whence = (.ok ret, fd')) :
    ∃ n : ℕ, fd.file.target offset whence = n ∧
      fd' = { fd with file := { fd.file with offset := n } } := by
  unfold seek OpenFile.lseek at h
  dsimp only at h
  split_ifs at h with hrange
  · rw [Prod.mk.injEq] at h
    exact ⟨_, (Int.toNat_of_nonneg hrange.1).symm, h.2.symm⟩
  · have hfail : checked (-1) = .error .unixError := by decide
    rw [hfail, Prod.mk.injEq] at h
    exact absurd h.1 (by simp)

section Flag

variable {fd fd' : FileDescriptor}

/-- A `read` leaves the flag right if and only if bytes are asked for, or there are none. -/
theorem EofAtEnd.read_iff (h : EofAtEnd fd) {limit : ℕ} {ready : Ready} {data : Bytes}
    (hread : fd.read limit ready = (.ok data, fd')) :
    EofAtEnd fd' ↔ limit ≠ 0 ∨ fd.file.ahead = [] := by
  obtain ⟨n, -, -, hzero, heq⟩ := fd.read_cases limit ready
  rw [hread, Prod.mk.injEq] at heq
  obtain ⟨-, rfl⟩ := heq
  rw [List.length_eq_zero_iff] at hzero
  unfold EofAtEnd
  simp only [Bool.or_eq_true, decide_eq_true_eq, OpenFile.ahead_advance]
  constructor
  · intro hend
    by_cases hlimit : limit = 0
    · have hn : n = 0 := hzero.mpr (Or.inl hlimit)
      have hnil := hend (Or.inr hn)
      rw [hn, List.drop_zero] at hnil
      exact Or.inr hnil
    · exact Or.inl hlimit
  · rintro hcareful (heof | hn)
    · rw [h heof, List.drop_nil]
    · have hnil : fd.file.ahead = [] := by
        rcases hzero.mp hn with hlimit | hnil
        · exact hcareful.resolve_left (fun hne => hne hlimit)
        · exact hnil
      rw [hnil, List.drop_nil]

/-- A `readn` that succeeds leaves the flag right. -/
theorem EofAtEnd.readn (h : EofAtEnd fd) {n : ℕ} {allowPartialRead : Bool} {ready : ℕ → Ready}
    {data : Bytes} (hread : fd.readn n allowPartialRead ready = (.ok data, fd')) :
    EofAtEnd fd' := by
  by_cases hn : n = 0
  · rw [FileDescriptor.readn, if_pos hn] at hread
    simp at hread
  rw [readn_eq fd hn] at hread
  split_ifs at hread
  · rw [Prod.mk.injEq] at hread
    rw [← hread.2]
    exact fun heof => ahead_advance_eq_nil (h heof) n
  · rw [Prod.mk.injEq] at hread
    rw [← hread.2]
    intro _
    rw [OpenFile.ahead_advance]
    exact List.drop_length
  · simp at hread

/-- A `getline` leaves the flag right. -/
theorem EofAtEnd.getline (h : EofAtEnd fd) {ret : Bytes} (hget : fd.getline = (.ok ret, fd')) :
    EofAtEnd fd' := by
  cases heof : fd.eof with
  | false =>
    rw [getline_of_eof_eq_false heof, Prod.mk.injEq] at hget
    rw [← hget.2]
    intro hnotin
    have hnotin' : newline ∉ fd.file.ahead := of_decide_eq_true hnotin
    have hline : fd.file.line = fd.file.ahead := by
      rw [OpenFile.line, List.takeWhile_eq_self_iff]
      intro b hb
      exact decide_eq_true (fun heq => hnotin' (heq ▸ hb))
    show (fd.file.advance _).ahead = []
    rw [OpenFile.ahead_advance, OpenFile.lineSize, hline, if_neg hnotin', Nat.add_zero]
    exact List.drop_length
  | true =>
    rw [getline_of_eof heof, Prod.mk.injEq] at hget
    rw [← hget.2]
    exact fun _ => ahead_advance_eq_nil (h heof) _

/-- A call leaves the flag right if and only if it is careful. -/
theorem EofAtEnd.step_iff {call : Call} (h : EofAtEnd fd) (hstep : Step fd [call] fd') :
    EofAtEnd fd' ↔ fd.Careful call := by
  cases hstep with
  | read hread => exact h.read_iff hread
  | readn hread => exact iff_of_true (h.readn hread) trivial
  | getline hget => exact iff_of_true (h.getline hget) trivial
  | @seek _ offset whence ret hseek =>
    obtain ⟨n, htarget, rfl⟩ := file_of_seek hseek
    show (fd.eof → ({ fd.file with offset := n } : OpenFile).ahead = []) ↔
      (fd.eof → (fd.file.content.length : ℤ) ≤ fd.file.target offset whence)
    rw [htarget, ahead_eq_nil_iff, Nat.cast_le]
  | resetOffset hreset =>
    rw [resetOffset_eq, Prod.mk.injEq] at hreset
    rw [← hreset.2]
    exact iff_of_true (fun heof => by simp at heof) trivial

end Flag

/-! ## Lines over histories -/

/-- Careful calls leave the flag right. -/
theorem eofAtEnd_of_steps {file : OpenFile} {calls : List Call} {fd : FileDescriptor}
    (h : Run.Steps CarefulStep (ofFile file) calls fd) : EofAtEnd fd := by
  refine h.invariant (fun _ fd => EofAtEnd fd) (fun heof => by simp [ofFile] at heof) ?_
  rintro es t es' u hI ⟨hstep, hcareful⟩
  have hone : ∃ call, es' = [call] := by
    cases hstep
    all_goals exact ⟨_, rfl⟩
  obtain ⟨call, rfl⟩ := hone
  exact (hI.step_iff hstep).mpr (hcareful call List.mem_cons_self)

/-- No line is lost.  After any history of careful calls on any file, `getline` returns the
line from the offset on, leaves the offset behind it, and does not wrongly report the end of
the file.  After one more call the same holds if and only if that call is careful. -/
theorem getlineExact_of_steps {file : OpenFile} {calls : List Call} {fd : FileDescriptor}
    (h : Run.Steps CarefulStep (ofFile file) calls fd) :
    GetlineExact fd ∧
      ∀ call fd', Step fd [call] fd' → (GetlineExact fd' ↔ fd.Careful call) := by
  have hend := eofAtEnd_of_steps h
  refine ⟨getlineExact_iff.mpr hend, fun call fd' hstep => ?_⟩
  rw [getlineExact_iff]
  exact hend.step_iff hstep

/-- Two lines, of which the second one has no end. -/
def twoLines : OpenFile := ⟨[97, 98, newline, 99, 100], 0⟩

/-- The second line is read after the first one. -/
theorem getlineExact_of_steps_twoLines :
    GetlineExact ⟨twoLines.advance 3, false⟩ := by
  have hstep : Step (ofFile twoLines) [.getline] ⟨twoLines.advance 3, false⟩ :=
    Step.getline (getline_of_eof_eq_false rfl)
  have hcareful : CarefulStep (ofFile twoLines) [.getline] ⟨twoLines.advance 3, false⟩ :=
    ⟨hstep, by simp [Careful]⟩
  exact (getlineExact_of_steps (Run.Steps.single hcareful)).1

/-- After the end of the file was read, a `seek` to the beginning does not help: `getline`
drops the first byte, and returns nothing of the first line. -/
theorem exists_getline_lossy :
    ∃ fd, Run.Steps Step (ofFile twoLines)
        [.readn 6 true (fun _ => .one), .seek 0 .seekSet] fd ∧
      fd.getline = (.ok [], ⟨twoLines.advance 1, true⟩) ∧ twoLines.line = [97, 98] ∧
      ¬ GetlineExact fd := by
  have hreadn : Step (ofFile twoLines) [.readn 6 true (fun _ => .one)]
      ⟨twoLines.advance 5, true⟩ := Step.readn (readn_eq _ (by decide) _ _)
  have hseek : Step ⟨twoLines.advance 5, true⟩ [.seek 0 .seekSet] ⟨twoLines, true⟩ := by
    have htarget : (twoLines.advance 5).target 0 .seekSet = (0 : ℕ) := rfl
    refine @Step.seek _ _ _ _ 0 ?_
    rw [seek_of_target htarget (by decide), checked_of_lt (by decide)]
    rfl
  refine ⟨_, (Run.Steps.single hreadn).tail hseek, getline_of_eof rfl, rfl, ?_⟩
  rw [getlineExact_iff]
  intro h
  exact absurd (h rfl) (by decide)

end FileDescriptor

end Ringmaster
