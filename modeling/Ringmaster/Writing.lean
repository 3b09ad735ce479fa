/-
# Writing files

The methods `write`, `writen` and `write_all` of the class `FileDescriptor`.  As with reading, the
kernel decides how many bytes a successful call of `write` transfers; it transfers at least one.

What was written in pieces is read back whole, and a log of lines line by line, no matter in which
portions the kernel takes and gives the bytes (`reads_back`).
-/
import Ringmaster.FileDescriptor
import Ringmaster.Library.Run

namespace Ringmaster

namespace OpenFile

/-! ## The system call -/

/-- What the kernel answers to a call of `write`: it is ready to transfer some bytes, the call
would block, or it fails in another way. -/
inductive WriteAnswer where
  | transfers (ready : Ready)
  | wouldBlock
  | fails
  deriving DecidableEq

/-- The file after `data` was written at the offset; a gap in front of it is filled with zeros. -/
def put (file : OpenFile) (data : Bytes) : OpenFile where
  content := file.content.take file.offset
    ++ List.replicate (file.offset - file.content.length) 0 ++ data
    ++ file.content.drop (file.offset + data.length)
  offset := file.offset + data.length

/-- The system call `write`. -/
def write (file : OpenFile) (data : Bytes) : WriteAnswer → ℤ × OpenFile
  | .transfers ready =>
    let written := data.take (ready.val + 1)
    (written.length, file.put written)
  | .wouldBlock => (-1, file)
  | .fails => (-1, file)

@[simp] theorem put_offset (file : OpenFile) (data : Bytes) :
    (file.put data).offset = file.offset + data.length := rfl

/-- At the end of the file, writing appends. -/
theorem put_of_atEnd {file : OpenFile} (h : file.offset = file.content.length) (data : Bytes) :
    file.put data = ⟨file.content ++ data, file.content.length + data.length⟩ := by
  unfold put
  rw [h, List.take_length, Nat.sub_self, List.replicate_zero, List.append_nil,
    List.drop_of_length_le (Nat.le_add_right _ _), List.append_nil]

/-- Writing two pieces one after the other is writing both at once. -/
theorem put_append (file : OpenFile) (data data' : Bytes) :
    (file.put data).put data' = file.put (data ++ data') := by
  have hfront : (file.content.take file.offset
      ++ List.replicate (file.offset - file.content.length) 0).length = file.offset := by
    rw [List.length_append, List.length_take, List.length_replicate]
    omega
  have hlen : file.offset + data.length ≤ (file.put data).content.length := by
    show _ ≤ (file.content.take file.offset
      ++ List.replicate (file.offset - file.content.length) 0 ++ data ++ _).length
    rw [List.length_append, List.length_append, hfront]
    exact Nat.le_add_right _ _
  have hfront' : (file.content.take file.offset
      ++ List.replicate (file.offset - file.content.length) 0 ++ data).length
        = file.offset + data.length := by
    rw [List.length_append, hfront]
  have htake : (file.put data).content.take (file.offset + data.length)
      = file.content.take file.offset
        ++ List.replicate (file.offset - file.content.length) 0 ++ data := by
    unfold put
    dsimp only
    rw [← hfront', List.take_left]
  have hdrop : (file.put data).content.drop (file.offset + data.length + data'.length)
      = file.content.drop (file.offset + (data ++ data').length) := by
    unfold put
    dsimp only
    rw [← List.drop_drop, ← hfront', List.drop_left, List.drop_drop, hfront', Nat.add_assoc,
      ← List.length_append]
  show OpenFile.mk _ _ = OpenFile.mk _ _
  rw [OpenFile.mk.injEq]
  refine ⟨?_, ?_⟩
  · rw [put_offset, htake, hdrop, Nat.sub_eq_zero_of_le hlen, List.replicate_zero, List.append_nil,
      List.append_assoc _ data data']
  · rw [put_offset, List.length_append, Nat.add_assoc]

/-- What `write` does: it fails, or it writes the first bytes. -/
theorem write_cases (file : OpenFile) {data : Bytes} (hne : data ≠ []) (answer : WriteAnswer) :
    (∃ ready n, answer = .transfers ready ∧ 0 < n ∧ n ≤ data.length ∧
      file.write data answer = ((n : ℤ), file.put (data.take n))) ∨
    (∀ ready, answer ≠ .transfers ready) ∧ file.write data answer = ((-1 : ℤ), file) := by
  cases answer with
  | transfers ready =>
    have hpos : 0 < data.length := List.length_pos_of_ne_nil hne
    refine Or.inl ⟨ready, min (ready.val + 1) data.length, rfl, by omega, by omega, ?_⟩
    unfold write
    dsimp only
    rw [List.length_take, List.take_eq_take_min]
  | wouldBlock => exact Or.inr ⟨fun _ h => (nomatch h), rfl⟩
  | fails => exact Or.inr ⟨fun _ h => (nomatch h), rfl⟩

end OpenFile

namespace FileDescriptor

open OpenFile (WriteAnswer Ready newline)

/-! ## The methods -/

/-- The method `write`. -/
def write (fd : FileDescriptor) (data : Bytes) (answer : WriteAnswer) :
    Except SysExn ℕ × FileDescriptor :=
  if data = [] then
    (.error (.exn (.runtimeError "attempted to write empty data")), fd)
  else
    match fd.file.write data answer with
    | (bytesWritten, file) =>
      if bytesWritten ≤ 0 then
        if bytesWritten = -1 ∧ answer = .wouldBlock then
          (.ok 0, { fd with file := file })
        else
          (.error .unixError, { fd with file := file })
      else
        (.ok bytesWritten.toNat, { fd with file := file })

/-- The loop of `writen`, with what is left to write. -/
def writenLoop (fd : FileDescriptor) (data : Bytes) (answers : ℕ → WriteAnswer) :
    Except SysExn Unit × FileDescriptor :=
  if data = [] then
    (.ok (), fd)
  else
    match fd.file.write data (answers 0) with
    | (bytesWritten, file) =>
      if _hwritten : bytesWritten ≤ 0 then
        (.error .unixError, { fd with file := file })
      else
        writenLoop { fd with file := file } (data.drop bytesWritten.toNat)
          (fun i => answers (i + 1))
termination_by data.length
decreasing_by
  have hpos : 0 < data.length := List.length_pos_of_ne_nil ‹_›
  rw [List.length_drop]
  omega

/-- The method `writen`. -/
def writen (fd : FileDescriptor) (data : Bytes) (n : ℕ) (answers : ℕ → WriteAnswer) :
    Except SysExn Unit × FileDescriptor :=
  if data = [] ∨ n = 0 then
    (.error (.exn (.runtimeError "attempted to write empty data")), fd)
  else if data.length < n then
    (.error (.exn (.runtimeError "data size is smaller than n")), fd)
  else
    fd.writenLoop (data.take n) answers

/-- The method `write_all`. -/
def writeAll (fd : FileDescriptor) (data : Bytes) (answers : ℕ → WriteAnswer) :
    Except SysExn Unit × FileDescriptor :=
  fd.writen data data.length answers

variable {fd fd' : FileDescriptor}

/-- The loop of `writen` writes everything, no matter in which pieces, unless a call fails. -/
theorem writenLoop_cases (fd : FileDescriptor) (data : Bytes) (answers : ℕ → WriteAnswer) :
    ((∃ file, fd.writenLoop data answers = (.ok (), { fd with file := file }) ∧
      (data ≠ [] → file = fd.file.put data) ∧ (data = [] → file = fd.file))) ∨
    (∃ i, ∀ ready, answers i ≠ .transfers ready) ∧
      ∃ fd', fd.writenLoop data answers = (.error .unixError, fd') := by
  induction hm : data.length using Nat.strong_induction_on generalizing fd data answers with
  | _ m ih =>
    subst hm
    unfold writenLoop
    by_cases hdone : data = []
    · rw [if_pos hdone]
      exact Or.inl ⟨fd.file, rfl, fun hne => absurd hdone hne, fun _ => rfl⟩
    · rw [if_neg hdone]
      rcases fd.file.write_cases hdone (answers 0) with ⟨ready, n, -, hpos, hle, hwrite⟩ |
        ⟨hanswer, hwrite⟩
      · rw [hwrite]
        dsimp only
        rw [dif_neg (by omega), Int.toNat_natCast]
        have hlen : (data.drop n).length < data.length := by
          rw [List.length_drop]
          omega
        rcases ih _ hlen { fd with file := fd.file.put (data.take n) } (data.drop n)
            (fun i => answers (i + 1)) rfl with ⟨file, hloop, hmore, hnone⟩ | ⟨⟨i, hi⟩, hfail⟩
        · refine Or.inl ⟨file, hloop, fun _ => ?_, fun hnil => absurd hnil hdone⟩
          by_cases hrest : data.drop n = []
          · have hall : data.take n = data := by
              rw [← List.append_nil (data.take n), ← hrest, List.take_append_drop]
            rw [hnone hrest, hall]
          · rw [hmore hrest]
            show (fd.file.put (data.take n)).put (data.drop n) = _
            rw [OpenFile.put_append, List.take_append_drop]
        · exact Or.inr ⟨⟨i + 1, hi⟩, hfail⟩
      · rw [hwrite]
        dsimp only
        rw [dif_pos (by omega)]
        exact Or.inr ⟨⟨0, hanswer⟩, _, rfl⟩

/-- A call of `write_all` that returns has written everything. -/
theorem writeAll_eq_ok {data : Bytes} {answers : ℕ → WriteAnswer}
    (h : fd.writeAll data answers = (.ok (), fd')) :
    data ≠ [] ∧ fd' = { fd with file := fd.file.put data } := by
  unfold writeAll writen at h
  split_ifs at h with hempty hsize
  · simp at h
  · simp at h
  · have hne : data ≠ [] := fun hnil => hempty (Or.inl hnil)
    rw [List.take_length] at h
    rcases writenLoop_cases fd data answers with ⟨file, hloop, hmore, -⟩ | ⟨-, fd'', hloop⟩
    · rw [hloop, Prod.mk.injEq] at h
      rw [← hmore hne]
      exact ⟨hne, h.2.symm⟩
    · rw [hloop] at h
      simp at h

/-- A call of `write_all` returns when no call of the kernel fails. -/
theorem writeAll_of_transfers (fd : FileDescriptor) {data : Bytes} (hne : data ≠ [])
    {answers : ℕ → WriteAnswer} (hanswers : ∀ i, ∃ ready, answers i = .transfers ready) :
    fd.writeAll data answers = (.ok (), { fd with file := fd.file.put data }) := by
  have hnonempty : ¬ (data = [] ∨ data.length = 0) := by
    rintro (hnil | hzero)
    · exact hne hnil
    · exact hne (List.eq_nil_of_length_eq_zero hzero)
  unfold writeAll writen
  rw [if_neg hnonempty, if_neg (lt_irrefl _), List.take_length]
  rcases writenLoop_cases fd data answers with ⟨file, hloop, hmore, -⟩ | ⟨⟨i, hi⟩, -⟩
  · rw [hloop, hmore hne]
  · obtain ⟨ready, hready⟩ := hanswers i
    exact absurd hready (hi ready)

/-- A call of `write` that returns the size of its argument has written all of it. -/
theorem write_eq_ok {data : Bytes} {answer : WriteAnswer}
    (h : fd.write data answer = (.ok data.length, fd')) :
    data ≠ [] ∧ fd' = { fd with file := fd.file.put data } := by
  unfold write at h
  split_ifs at h with hempty
  · simp at h
  · refine ⟨hempty, ?_⟩
    have hpos : 0 < data.length := List.length_pos_of_ne_nil hempty
    rcases fd.file.write_cases hempty answer with ⟨ready, n, -, hn, -, hwrite⟩ | ⟨-, hwrite⟩
    · rw [hwrite] at h
      dsimp only at h
      rw [if_neg (by omega), Int.toNat_natCast, Prod.mk.injEq, Except.ok.injEq] at h
      rw [← h.2, h.1, List.take_length]
    · rw [hwrite] at h
      dsimp only at h
      rw [if_pos (by omega)] at h
      split_ifs at h
      · rw [Prod.mk.injEq, Except.ok.injEq] at h
        omega
      · simp at h

/-! ## Reading back -/

/-- A piece is written whole, by a call of `write_all` or of `write`. -/
inductive Writes : FileDescriptor → List Bytes → FileDescriptor → Prop
  | writeAll {fd fd' : FileDescriptor} {data : Bytes} {answers : ℕ → WriteAnswer} :
      fd.writeAll data answers = (.ok (), fd') → Writes fd [data] fd'
  | write {fd fd' : FileDescriptor} {data : Bytes} {answer : WriteAnswer} :
      fd.write data answer = (.ok data.length, fd') → Writes fd [data] fd'

/-- A line is read. -/
inductive ReadsLine : FileDescriptor → List Bytes → FileDescriptor → Prop
  | getline {fd fd' : FileDescriptor} {line : Bytes} :
      fd.getline = (.ok line, fd') → ReadsLine fd [line] fd'

variable {pieces lines : List Bytes}

theorem Writes.eq_put {data : Bytes} (h : Writes fd [data] fd') :
    fd' = { fd with file := fd.file.put data } := by
  cases h with
  | writeAll hwrite => exact (writeAll_eq_ok hwrite).2
  | write hwrite => exact (write_eq_ok hwrite).2

/-- A new file holds the pieces that were written to it, one after the other. -/
theorem file_of_writes (h : Run.Steps Writes (ofFile ⟨[], 0⟩) pieces fd) :
    fd.file = ⟨pieces.flatten, pieces.flatten.length⟩ := by
  refine h.invariant (fun pieces fd => fd.file = ⟨pieces.flatten, pieces.flatten.length⟩) rfl ?_
  intro pieces fd pieces' fd' hfile hstep
  obtain ⟨data, rfl⟩ : ∃ data, pieces' = [data] := by
    cases hstep with
    | writeAll _ => exact ⟨_, rfl⟩
    | write _ => exact ⟨_, rfl⟩
  have hend : fd.file.offset = fd.file.content.length := by rw [hfile]
  rw [hstep.eq_put]
  show fd.file.put data = _
  rw [OpenFile.put_of_atEnd hend, hfile, List.flatten_append, List.length_append,
    List.flatten_singleton]

/-- Lines are read in order. -/
theorem readsLine_eq (hlines : ∀ line ∈ lines, newline ∉ line) (heof : fd.eof = false)
    (hahead : fd.file.ahead = (lines.map (· ++ [newline])).flatten) {read : List Bytes}
    (h : Run.Steps ReadsLine fd read fd') (hle : read.length ≤ lines.length) :
    read = lines.take read.length ∧ fd'.eof = false ∧
      fd'.file.ahead = ((lines.drop read.length).map (· ++ [newline])).flatten := by
  refine h.invariant_of_guard (fun read => read.length ≤ lines.length)
    (fun read fd' => read = lines.take read.length ∧ fd'.eof = false ∧
      fd'.file.ahead = ((lines.drop read.length).map (· ++ [newline])).flatten) ?_
    ⟨rfl, heof, hahead⟩ ?_ hle
  · intro read read' hle
    rw [List.length_append] at hle
    omega
  · rintro read fd₁ read' fd₂ hle ⟨hread, heof₁, hahead₁⟩ hstep
    cases hstep with
    | getline hget =>
      rw [List.length_append, List.length_singleton] at hle
      have hnext : lines.drop read.length = lines[read.length] :: lines.drop (read.length + 1) :=
        List.drop_eq_getElem_cons hle
      have hahead₂ : fd₁.file.ahead = lines[read.length]
          ++ newline :: ((lines.drop (read.length + 1)).map (· ++ [newline])).flatten := by
        rw [hahead₁, hnext, List.map_cons, List.flatten_cons, List.append_assoc]
        rfl
      rw [getline_of_line heof₁ hahead₂ (hlines _ (List.getElem_mem hle)), Prod.mk.injEq,
        Except.ok.injEq] at hget
      obtain ⟨rfl, rfl⟩ := hget
      refine ⟨?_, heof₁, ?_⟩
      · rw [List.length_append, List.length_singleton, List.take_succ_eq_append_getElem hle,
          ← hread]
      · show (fd₁.file.advance _).ahead = _
        rw [OpenFile.ahead_advance, hahead₂, OpenFile.drop_line, List.length_append,
          List.length_singleton]

/-- As many calls as there are lines return, one line each. -/
theorem exists_readsLines (hlines : ∀ line ∈ lines, newline ∉ line) (heof : fd.eof = false)
    (hahead : fd.file.ahead = (lines.map (· ++ [newline])).flatten) :
    ∃ fd', Run.Steps ReadsLine fd lines fd' := by
  induction lines generalizing fd with
  | nil => exact ⟨fd, Run.Steps.refl fd⟩
  | cons line lines ih =>
    rw [List.forall_mem_cons] at hlines
    have hfirst : fd.file.ahead = line ++ newline :: (lines.map (· ++ [newline])).flatten := by
      rw [hahead, List.map_cons, List.flatten_cons, List.append_assoc]
      rfl
    have hget := getline_of_line heof hfirst hlines.1
    have hrest : (fd.file.advance (line.length + 1)).ahead
        = (lines.map (· ++ [newline])).flatten := by
      rw [OpenFile.ahead_advance, hfirst, OpenFile.drop_line]
    obtain ⟨fd', hread⟩ := @ih { fd with file := fd.file.advance (line.length + 1) } hlines.2
      heof hrest
    exact ⟨fd', Run.Steps.head (ReadsLine.getline hget) hread⟩

/-- What was written is read back.  For every sequence of pieces that were written to a new file,
with `write_all` or with calls of `write` that were not short, and however the kernel divided the
bytes: after `reset_offset`, one call of `readn` returns all of it, and if the pieces are lines, as
many calls of `getline` as there are lines return, and they return the lines in order. -/
theorem reads_back (h : Run.Steps Writes (ofFile ⟨[], 0⟩) pieces fd)
    (hreset : fd.resetOffset = (.ok (), fd')) :
    (∀ allowPartialRead ready, pieces.flatten ≠ [] →
      (fd'.readn pieces.flatten.length allowPartialRead ready).1 = .ok pieces.flatten) ∧
    ∀ lines : List Bytes, (∀ line ∈ lines, newline ∉ line) → pieces = lines.map (· ++ [newline]) →
      (∃ fd'', Run.Steps ReadsLine fd' lines fd'') ∧
      ∀ read fd'', Run.Steps ReadsLine fd' read fd'' → read.length ≤ lines.length →
        read = lines.take read.length := by
  have hfile := file_of_writes h
  rw [resetOffset_eq, Prod.mk.injEq] at hreset
  obtain ⟨-, rfl⟩ := hreset
  have hahead : ({ fd.file with offset := 0 } : OpenFile).ahead = pieces.flatten := by
    unfold OpenFile.ahead
    rw [hfile]
    rfl
  refine ⟨?_, ?_⟩
  · intro allowPartialRead ready hne
    rw [readn_eq _ (fun hzero => hne (List.eq_nil_of_length_eq_zero hzero))]
    dsimp only
    rw [hahead, if_pos (le_refl _), List.take_length]
  · intro lines hlines hpieces
    rw [hpieces] at hahead
    exact ⟨exists_readsLines hlines rfl hahead,
      fun read fd'' hread hle => (readsLine_eq hlines rfl hahead hread hle).1⟩

/-- Two lines, the first one written byte by byte. -/
theorem reads_back_twoLines : ∃ fd fd' read fd'',
    Run.Steps Writes (ofFile ⟨[], 0⟩) [[97, newline], [98, 99, newline]] fd ∧
    fd.resetOffset = (.ok (), fd') ∧
    (fd'.readn 5 false fun _ => .one).1 = .ok [97, newline, 98, 99, newline] ∧
    Run.Steps ReadsLine fd' read fd'' ∧ read.length = 2 ∧ read = [[97], [98, 99]] := by
  have hfirst := writeAll_of_transfers (ofFile ⟨[], 0⟩) (List.cons_ne_nil 97 [newline])
    (fun _ => ⟨.one, rfl⟩ : ∀ _ : ℕ, ∃ ready, WriteAnswer.transfers .one = .transfers ready)
  have hsteps := (Run.Steps.single (Writes.writeAll hfirst)).tail
    (@Writes.write _ _ [98, 99, newline] (.transfers ⟨9, by decide⟩) rfl)
  obtain ⟨hall, hlines⟩ := reads_back hsteps (resetOffset_eq _)
  have hnot : ∀ line ∈ [[97], [98, 99]], newline ∉ line := by decide
  obtain ⟨⟨fd'', hread⟩, hprefix⟩ := hlines [[97], [98, 99]] hnot rfl
  exact ⟨_, _, _, fd'', hsteps, resetOffset_eq _, hall false _ (by decide), hread, rfl,
    hprefix _ fd'' hread (le_refl _)⟩

end FileDescriptor

end Ringmaster
