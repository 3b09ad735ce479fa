/-
# Reading files

The part of the class `FileDescriptor` of `src/util/file_descriptor.hh` and
`file_descriptor.cc` that reads a regular file and moves its offset, with the check of system
calls of `src/util/exception.hh`.

The other side of the descriptor is the file of the kernel: its content and the offset.  How
many bytes a successful `read` transfers is up to the kernel; it transfers at least one if
any are asked for and there are any.  What the reading methods do in the end does not depend
on it (`readn_eq`, `getline_eq`).
-/
import Ringmaster.Serialization
import Ringmaster.Util

namespace Ringmaster

/-! ## System calls -/

/-- What the classes around the operating system throw: the exceptions of the other modules,
the error of a system call, or a failed conversion of a string. -/
inductive SysExn where
  | exn (e : Exn)
  | unixError
  | invalidArgument (what : String)
  deriving DecidableEq

/-- The function `check_syscall`; an `int` comes in, and an `int` goes out. -/
def checkSyscall (returnValue : Int32) : Except SysExn Int32 :=
  if returnValue ≥ 0 then .ok returnValue else .error .unixError

/-- The result of a system call that goes through `check_syscall` and into a variable of an
unsigned type. -/
def checked (returnValue : ℤ) : Except SysExn ℕ :=
  match checkSyscall (Int32.ofInt returnValue) with
  | .error e => .error e
  | .ok r => .ok r.toInt.toNat

/-- A value that an `int` can hold goes through the check unchanged. -/
theorem checked_of_lt {n : ℕ} (h : n < 2 ^ 31) : checked n = .ok n := by
  have hint : (Int32.ofInt n).toInt = n := by
    apply Int32.toInt_ofInt_of_le
    · omega
    · omega
  have hnonneg : Int32.ofInt n ≥ 0 := by
    rw [ge_iff_le, Int32.le_iff_toInt_le, hint]
    exact Int.natCast_nonneg n
  unfold checked checkSyscall
  rw [if_pos hnonneg]
  dsimp only
  rw [hint, Int.toNat_natCast]

/-- What comes out of the check fits into an `int`. -/
theorem lt_of_checked {z : ℤ} {n : ℕ} (h : checked z = .ok n) : n < 2 ^ 31 := by
  have hlt : (Int32.ofInt z).toInt < 2 ^ 31 := Int32.toInt_lt _
  unfold checked checkSyscall at h
  split_ifs at h
  dsimp only at h
  rw [Except.ok.injEq] at h
  omega

/-- The check passes a value on if and only if an `int` can hold it. -/
theorem checked_eq_ok_iff {n : ℕ} : checked n = .ok n ↔ n < 2 ^ 31 :=
  ⟨lt_of_checked, checked_of_lt⟩

/-- An open regular file: its content, and the offset. -/
structure OpenFile where
  content : Bytes
  offset : ℕ
  deriving DecidableEq

/-- The last argument of `lseek`. -/
inductive Whence where
  | seekSet
  | seekCur
  | seekEnd
  deriving DecidableEq

namespace OpenFile

/-- The most that one system call transfers. -/
def maxRwCount : ℕ := 0x7ffff000

/-- What the kernel decides when it reads: the number of bytes, less one, that it is ready to
transfer in this call. -/
abbrev Ready := Fin maxRwCount

/-- The kernel is ready to transfer one byte. -/
def Ready.one : Ready := ⟨0, by decide⟩

/-- The bytes from the offset on. -/
def ahead (file : OpenFile) : Bytes := file.content.drop file.offset

/-- The file with the offset moved forward. -/
def advance (file : OpenFile) (n : ℕ) : OpenFile := { file with offset := file.offset + n }

/-- The system call `read` for `count` bytes. -/
def read (file : OpenFile) (count : ℕ) (ready : Ready) : Bytes × OpenFile :=
  let data := file.ahead.take (min count (ready.val + 1))
  (data, file.advance data.length)

/-- The offset that a call of `lseek` asks for. -/
def target (file : OpenFile) (offset : Int64) : Whence → ℤ
  | .seekSet => offset.toInt
  | .seekCur => file.offset + offset.toInt
  | .seekEnd => file.content.length + offset.toInt

/-- The largest value of the type `off_t`. -/
def maxOffset : ℤ := 2 ^ 63 - 1

/-- The system call `lseek`. -/
def lseek (file : OpenFile) (offset : Int64) (whence : Whence) : ℤ × OpenFile :=
  let result := file.target offset whence
  if 0 ≤ result ∧ result ≤ maxOffset then
    (result, { file with offset := result.toNat })
  else
    (-1, file)

/-- The byte `'\n'`. -/
def newline : UInt8 := 10

/-- The line from the offset on, without its end. -/
def line (file : OpenFile) : Bytes := file.ahead.takeWhile fun b => decide (b ≠ newline)

/-- The number of bytes up to the next line. -/
def lineSize (file : OpenFile) : ℕ :=
  file.line.length + if newline ∈ file.ahead then 1 else 0

@[simp] theorem advance_content (file : OpenFile) (n : ℕ) :
    (file.advance n).content = file.content := rfl

@[simp] theorem advance_offset (file : OpenFile) (n : ℕ) :
    (file.advance n).offset = file.offset + n := rfl

@[simp] theorem advance_zero (file : OpenFile) : file.advance 0 = file := rfl

@[simp] theorem advance_advance (file : OpenFile) (m n : ℕ) :
    (file.advance m).advance n = file.advance (m + n) := by
  simp [advance, Nat.add_assoc]

@[simp] theorem ahead_advance (file : OpenFile) (n : ℕ) :
    (file.advance n).ahead = file.ahead.drop n := by
  simp [ahead, advance]

/-- What is behind a line and its end. -/
theorem drop_line (line rest : Bytes) :
    (line ++ newline :: rest).drop (line.length + 1) = rest := by
  rw [← List.drop_drop, List.drop_left]
  rfl

/-- What `read` does: it transfers some of the next bytes, and none at all only if none are
asked for or there are none. -/
theorem read_cases (file : OpenFile) (count : ℕ) (ready : Ready) :
    ∃ n, n ≤ count ∧ n ≤ file.ahead.length ∧ n < 2 ^ 31 ∧
      (n = 0 ↔ count = 0 ∨ file.ahead.length = 0) ∧ (file.ahead.take n).length = n ∧
      file.read count ready = (file.ahead.take n, file.advance n) := by
  have hready : ready.val < 2147479552 := ready.isLt
  refine ⟨min (min count (ready.val + 1)) file.ahead.length, ?_, ?_, ?_, ?_, ?_, ?_⟩
  · omega
  · omega
  · omega
  · omega
  · rw [List.length_take]
    omega
  · unfold read
    dsimp only
    rw [List.length_take]
    congr 1
    rw [List.take_eq_take_iff]
    omega

end OpenFile

/-! ## The class -/

/-- The class `FileDescriptor`, with the file behind the descriptor. -/
structure FileDescriptor where
  file : OpenFile
  eof : Bool
  deriving DecidableEq

namespace FileDescriptor

open OpenFile (Ready newline)

/-- The constant `MAX_BUF_SIZE`. -/
def maxBufSize : ℕ := 1024 * 1024

/-- The state that the constructor sets up. -/
def ofFile (file : OpenFile) : FileDescriptor := ⟨file, false⟩

/-- The method `read`. -/
def read (fd : FileDescriptor) (limit : ℕ) (ready : Ready) :
    Except SysExn Bytes × FileDescriptor :=
  match fd.file.read (min limit maxBufSize) ready with
  | (buf, file) =>
    match checked buf.length with
    | .error e => (.error e, { fd with file := file })
    | .ok bytesRead =>
      if bytesRead = 0 then
        (.ok (buf.take bytesRead), { file := file, eof := true })
      else
        (.ok (buf.take bytesRead), { fd with file := file })

/-- What `read` does. -/
theorem read_cases (fd : FileDescriptor) (limit : ℕ) (ready : Ready) :
    ∃ n, n ≤ limit ∧ n ≤ fd.file.ahead.length ∧
      (n = 0 ↔ limit = 0 ∨ fd.file.ahead.length = 0) ∧
      fd.read limit ready = (.ok (fd.file.ahead.take n),
        { file := fd.file.advance n, eof := fd.eof || decide (n = 0) }) := by
  obtain ⟨n, hcount, hle, hlt, hzero, hlen, hread⟩ :=
    fd.file.read_cases (min limit maxBufSize) ready
  refine ⟨n, by omega, hle, ?_, ?_⟩
  · rw [hzero]
    have hbuf : maxBufSize ≠ 0 := by simp [maxBufSize]
    omega
  · unfold read
    simp only [hread, hlen, checked_of_lt hlt, List.take_take, min_self]
    split_ifs with h0
    · simp only [h0, decide_true, Bool.or_true]
    · simp only [h0, decide_false, Bool.or_false]

/-- What is put out by a checked system call `read`. -/
theorem checked_read {file file' : OpenFile} {count : ℕ} {ready : Ready} {data : Bytes}
    (h : file.read count ready = (data, file')) :
    ∃ n, n ≤ count ∧ n ≤ file.ahead.length ∧ (n = 0 ↔ count = 0 ∨ file.ahead.length = 0) ∧
      data = file.ahead.take n ∧ file' = file.advance n ∧ checked data.length = .ok n ∧
      data.take n = data ∧ data.length = n := by
  obtain ⟨n, hcount, hle, hlt, hzero, hlen, hread⟩ := file.read_cases count ready
  rw [h, Prod.mk.injEq] at hread
  obtain ⟨rfl, rfl⟩ := hread
  refine ⟨n, hcount, hle, hzero, rfl, rfl, ?_, ?_, hlen⟩
  · rw [hlen]
    exact checked_of_lt hlt
  · rw [List.take_take, min_self]

/-- The loop of `readn`, with what it has read so far, and what the kernel decides in each
call. -/
def readnLoop (fd : FileDescriptor) (n : ℕ) (allowPartialRead : Bool) (ready : ℕ → Ready)
    (buf : Bytes) : Except SysExn Bytes × FileDescriptor :=
  if buf.length = n then
    (.ok buf, fd)
  else
    match _hread : fd.file.read (n - buf.length) (ready 0) with
    | (data, file) =>
      match _hcheck : checked data.length with
      | .error e => (.error e, { fd with file := file })
      | .ok bytesRead =>
        if _hzero : bytesRead = 0 then
          if allowPartialRead then
            (.ok buf, { file := file, eof := true })
          else
            (.error (.exn (.runtimeError "FileDescriptor::readn(): unexpected EOF")),
              { file := file, eof := true })
        else
          readnLoop { fd with file := file } n allowPartialRead (fun i => ready (i + 1))
            (buf ++ data.take bytesRead)
termination_by n - buf.length
decreasing_by
  obtain ⟨k, hcount, -, -, -, -, hcheck, htake, hlen⟩ := checked_read _hread
  rw [_hcheck, Except.ok.injEq] at hcheck
  subst hcheck
  rw [htake, List.length_append]
  omega

/-- The method `readn`. -/
def readn (fd : FileDescriptor) (n : ℕ) (allowPartialRead : Bool) (ready : ℕ → Ready) :
    Except SysExn Bytes × FileDescriptor :=
  if n = 0 then
    (.error (.exn (.runtimeError "attempted to read 0 bytes")), fd)
  else
    fd.readnLoop n allowPartialRead ready []

/-- The loop of `readn` reads what is missing, or what there is before the end of the file, no
matter in which pieces. -/
theorem readnLoop_eq (fd : FileDescriptor) (n : ℕ) (allowPartialRead : Bool)
    (ready : ℕ → Ready) (buf : Bytes) (hle : buf.length ≤ n) :
    fd.readnLoop n allowPartialRead ready buf =
      if n - buf.length ≤ fd.file.ahead.length then
        (.ok (buf ++ fd.file.ahead.take (n - buf.length)),
          { fd with file := fd.file.advance (n - buf.length) })
      else if allowPartialRead then
        (.ok (buf ++ fd.file.ahead),
          { file := fd.file.advance fd.file.ahead.length, eof := true })
      else
        (.error (.exn (.runtimeError "FileDescriptor::readn(): unexpected EOF")),
          { file := fd.file.advance fd.file.ahead.length, eof := true }) := by
  induction hm : n - buf.length using Nat.strong_induction_on generalizing fd ready buf with
  | _ m ih =>
    subst hm
    unfold readnLoop
    by_cases hdone : buf.length = n
    · have hzero : n - buf.length = 0 := by omega
      rw [if_pos hdone, hzero, if_pos (Nat.zero_le _), List.take_zero, List.append_nil,
        OpenFile.advance_zero]
    · rw [if_neg hdone]
      split
      next data file hread =>
        obtain ⟨k, hcount, hahead, hzero, rfl, rfl, hcheck, htake, hlen⟩ := checked_read hread
        split
        next e herror =>
          rw [hcheck] at herror
          simp at herror
        next bytesRead hok =>
          rw [hcheck, Except.ok.injEq] at hok
          subst hok
          by_cases hk : k = 0
          · -- nothing is left before the end of the file
            have hnil : fd.file.ahead.length = 0 := (hzero.mp hk).resolve_left (by omega)
            have hmore : ¬ n - buf.length ≤ fd.file.ahead.length := by omega
            rw [dif_pos hk, if_neg hmore, hnil, hk, List.eq_nil_of_length_eq_zero hnil,
              List.append_nil]
          · have hbuf : (buf ++ fd.file.ahead.take k).length = buf.length + k := by
              rw [List.length_append, hlen]
            have hleft : n - (buf ++ fd.file.ahead.take k).length = n - buf.length - k := by
              omega
            rw [dif_neg hk, htake, ih _ (by omega) _ _ _ (by omega) rfl, hleft]
            simp only [OpenFile.ahead_advance, OpenFile.advance_advance, List.length_drop,
              List.append_assoc, List.take_append_drop]
            by_cases henough : n - buf.length ≤ fd.file.ahead.length
            · have hsum : k + (n - buf.length - k) = n - buf.length := by omega
              rw [if_pos henough, if_pos (by omega), ← List.take_add, hsum]
            · have hsum : k + (fd.file.ahead.length - k) = fd.file.ahead.length := by omega
              rw [if_neg henough, if_neg (by omega), hsum]

/-- The method `readn`, no matter what the kernel decides. -/
theorem readn_eq (fd : FileDescriptor) {n : ℕ} (hn : n ≠ 0) (allowPartialRead : Bool)
    (ready : ℕ → Ready) :
    fd.readn n allowPartialRead ready =
      if n ≤ fd.file.ahead.length then
        (.ok (fd.file.ahead.take n), { fd with file := fd.file.advance n })
      else if allowPartialRead then
        (.ok fd.file.ahead, { file := fd.file.advance fd.file.ahead.length, eof := true })
      else
        (.error (.exn (.runtimeError "FileDescriptor::readn(): unexpected EOF")),
          { file := fd.file.advance fd.file.ahead.length, eof := true }) := by
  unfold readn
  rw [if_neg hn, readnLoop_eq _ _ _ _ _ (Nat.zero_le _)]
  rfl

/-! ## Lines -/

/-- A read of one byte leaves the kernel no choice. -/
theorem read_one (fd : FileDescriptor) (ready : Ready) :
    fd.read 1 ready =
      match fd.file.ahead with
      | [] => (.ok [], { fd with eof := true })
      | b :: _ => (.ok [b], { fd with file := fd.file.advance 1 }) := by
  obtain ⟨n, hlimit, hahead, hzero, hread⟩ := fd.read_cases 1 ready
  rw [hread]
  cases h : fd.file.ahead with
  | nil =>
    rw [h] at hahead
    have hn : n = 0 := Nat.le_zero.mp hahead
    simp [hn]
  | cons b rest =>
    rw [h, List.length_cons] at hzero
    have hn : n = 1 := by omega
    simp [hn]

/-- The loop of `getline`, with the part of the line that it has read. -/
def getlineLoop (fd : FileDescriptor) (ret : Bytes) : Except SysExn Bytes × FileDescriptor :=
  match _hread : fd.read 1 .one with
  | (.error e, fd') => (.error e, fd')
  | (.ok charRead, fd') =>
    if _hstop : fd'.eof ∨ charRead = [newline] then
      (.ok ret, fd')
    else
      getlineLoop fd' (ret ++ charRead)
termination_by fd.file.ahead.length
decreasing_by
  rw [read_one] at _hread
  split at _hread
  next hnil =>
    rw [Prod.mk.injEq] at _hread
    rw [← _hread.2] at _hstop
    exact absurd (Or.inl rfl) _hstop
  next b rest hcons =>
    rw [Prod.mk.injEq] at _hread
    rw [← _hread.2, OpenFile.ahead_advance, hcons]
    simp

/-- The method `getline`. -/
def getline (fd : FileDescriptor) : Except SysExn Bytes × FileDescriptor :=
  fd.getlineLoop []

/-- While the flag is not set, the loop of `getline` reads the rest of the line. -/
theorem getlineLoop_of_eof_eq_false {fd : FileDescriptor} (heof : fd.eof = false) (ret : Bytes) :
    fd.getlineLoop ret = (.ok (ret ++ fd.file.line),
      { file := fd.file.advance fd.file.lineSize, eof := decide (newline ∉ fd.file.ahead) }) := by
  induction h : fd.file.ahead generalizing fd ret with
  | nil =>
    have hline : fd.file.line = [] := by rw [OpenFile.line, h]; rfl
    have hsize : fd.file.lineSize = 0 := by rw [OpenFile.lineSize, hline, h]; rfl
    rw [getlineLoop]
    split
    next e fd' hread =>
      rw [read_one, h] at hread
      simp at hread
    next charRead fd' hread =>
      rw [read_one, h, Prod.mk.injEq] at hread
      rw [← hread.2, dif_pos (Or.inl rfl), hline, hsize]
      simp
  | cons b rest ih =>
    rw [getlineLoop]
    split
    next e fd' hread =>
      rw [read_one, h] at hread
      simp at hread
    next charRead fd' hread =>
      rw [read_one, h, Prod.mk.injEq, Except.ok.injEq] at hread
      obtain ⟨rfl, rfl⟩ := hread
      simp only [heof, Bool.false_eq_true, false_or, List.cons.injEq, and_true]
      by_cases hb : b = newline
      · -- the line ends here
        have hline : fd.file.line = [] := by simp [OpenFile.line, h, hb]
        have hsize : fd.file.lineSize = 1 := by simp [OpenFile.lineSize, hline, h, hb]
        rw [dif_pos hb, hline, hsize, hb]
        simp
      · have hahead : (fd.file.advance 1).ahead = rest := by
          rw [OpenFile.ahead_advance, h]
          rfl
        have hline : fd.file.line = b :: (fd.file.advance 1).line := by
          simp [OpenFile.line, h, hb]
        have hsize : fd.file.lineSize = 1 + (fd.file.advance 1).lineSize := by
          have hne : newline ≠ b := Ne.symm hb
          simp only [OpenFile.lineSize, hline, hahead, h, List.length_cons, List.mem_cons, hne,
            false_or]
          omega
        rw [dif_neg hb, ih rfl _ hahead, hline, hsize]
        simp [Ne.symm hb]

/-- When the flag is not set, `getline` reads the line, and sets the flag if the line has no
end. -/
theorem getline_of_eof_eq_false {fd : FileDescriptor} (heof : fd.eof = false) :
    fd.getline = (.ok fd.file.line,
      { file := fd.file.advance fd.file.lineSize, eof := decide (newline ∉ fd.file.ahead) }) := by
  unfold getline
  rw [getlineLoop_of_eof_eq_false heof, List.nil_append]

/-- When the flag is set, `getline` stops after one byte, which it drops. -/
theorem getline_of_eof {fd : FileDescriptor} (heof : fd.eof = true) :
    fd.getline = (.ok [],
      { file := fd.file.advance (min 1 fd.file.ahead.length), eof := true }) := by
  unfold getline
  rw [getlineLoop]
  split
  next e fd' hread =>
    rw [read_one] at hread
    split at hread
    · simp at hread
    · simp at hread
  next charRead fd' hread =>
    rw [read_one] at hread
    split at hread
    next h =>
      rw [Prod.mk.injEq] at hread
      rw [← hread.2, dif_pos (Or.inl rfl), h]
      rfl
    next b rest h =>
      rw [Prod.mk.injEq] at hread
      rw [← hread.2, dif_pos (Or.inl heof), h, List.length_cons, min_eq_left (by omega), ← heof]

/-- A line that has an end is read with its end, when the flag is not set. -/
theorem getline_of_line {fd : FileDescriptor} (heof : fd.eof = false) {line rest : Bytes}
    (hahead : fd.file.ahead = line ++ newline :: rest) (hline : newline ∉ line) :
    fd.getline = (.ok line, { fd with file := fd.file.advance (line.length + 1) }) := by
  have hinside : ∀ b ∈ line, decide (b ≠ newline) = true := by
    intro b hb
    exact decide_eq_true (fun heq => hline (heq ▸ hb))
  have hret : fd.file.line = line := by
    rw [OpenFile.line, hahead, List.takeWhile_append_of_pos hinside]
    simp
  have hmem : newline ∈ fd.file.ahead := by
    rw [hahead]
    exact List.mem_append_right line List.mem_cons_self
  have hsize : fd.file.lineSize = line.length + 1 := by
    rw [OpenFile.lineSize, hret, if_pos hmem]
  rw [getline_of_eof_eq_false heof, hret, hsize, decide_eq_false (not_not.mpr hmem), heof]

/-- At the end of the file nothing is read, and the flag is set. -/
theorem getline_at_end {fd : FileDescriptor} (hahead : fd.file.ahead = []) :
    fd.getline = (.ok [], { fd with eof := true }) := by
  cases heof : fd.eof with
  | false =>
    have hline : fd.file.line = [] := by rw [OpenFile.line, hahead]; rfl
    have hsize : fd.file.lineSize = 0 := by rw [OpenFile.lineSize, hline, hahead]; rfl
    rw [getline_of_eof_eq_false heof, hline, hsize, hahead]
    rfl
  | true =>
    rw [getline_of_eof heof, hahead]
    rfl

/-! ## The offset -/

/-- The method `seek`. -/
def seek (fd : FileDescriptor) (offset : Int64) (whence : Whence) :
    Except SysExn ℕ × FileDescriptor :=
  match fd.file.lseek offset whence with
  | (result, file) => (checked result, { fd with file := file })

/-- The method `reset_offset`. -/
def resetOffset (fd : FileDescriptor) : Except SysExn Unit × FileDescriptor :=
  match fd.seek 0 .seekSet with
  | (.error e, fd) => (.error e, fd)
  | (.ok _, fd) => (.ok (), { fd with eof := false })

/-- The method `file_size`. -/
def fileSize (fd : FileDescriptor) : Except SysExn ℕ × FileDescriptor :=
  -- save the current offset
  match fd.seek 0 .seekCur with
  | (.error e, fd) => (.error e, fd)
  | (.ok savedOffset, fd) =>
    -- seek to the end of file to get file size
    match fd.seek 0 .seekEnd with
    | (.error e, fd) => (.error e, fd)
    | (.ok ret, fd) =>
      -- seek back to the original offset
      match fd.seek (Int64.ofNat savedOffset) .seekSet with
      | (.error e, fd) => (.error e, fd)
      | (.ok _, fd) => (.ok ret, fd)

/-- A call of `lseek` that succeeds. -/
theorem seek_of_target {fd : FileDescriptor} {offset : Int64} {whence : Whence} {n : ℕ}
    (h : fd.file.target offset whence = n) (hlt : n < 2 ^ 63) :
    fd.seek offset whence = (checked n, { fd with file := { fd.file with offset := n } }) := by
  unfold seek OpenFile.lseek
  have hrange : 0 ≤ (n : ℤ) ∧ (n : ℤ) ≤ OpenFile.maxOffset := by
    unfold OpenFile.maxOffset
    omega
  rw [h, if_pos hrange, Int.toNat_natCast]

/-- Resetting the offset always succeeds, and clears the flag. -/
theorem resetOffset_eq (fd : FileDescriptor) :
    fd.resetOffset = (.ok (), { file := { fd.file with offset := 0 }, eof := false }) := by
  have htarget : fd.file.target 0 .seekSet = (0 : ℕ) := rfl
  unfold resetOffset
  rw [seek_of_target htarget (by decide), checked_of_lt (by decide)]

end FileDescriptor

end Ringmaster
