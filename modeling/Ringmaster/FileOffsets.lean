/-
# Offsets and file sizes

`FileDescriptor::seek` and `file_size` are declared with 64-bit types, but the result of
`lseek` goes through `check_syscall`, which takes and returns an `int`.  Hence `seek` returns
the offset if and only if it is less than `2 ^ 31`, and `file_size` works if and only if the
size and the current offset are (`offsets_exact_iff`).  Above this, `seek` throws or returns
another offset, after it has moved the offset of the file.
-/
import Ringmaster.FileDescriptor

namespace Ringmaster

namespace FileDescriptor

/-- What `seek` should do when it is asked for the offset `n`: go there, and return it. -/
def SeekExact (fd : FileDescriptor) (offset : Int64) (whence : Whence) (n : ℕ) : Prop :=
  fd.seek offset whence = (.ok n, { fd with file := { fd.file with offset := n } })

/-- What `file_size` should do: return the size, and leave the offset where it was. -/
def FileSizeExact (fd : FileDescriptor) : Prop :=
  fd.fileSize = (.ok fd.file.content.length, fd)

/-! ## One call of `seek` -/

/-- `seek` works if and only if an `int` can hold the offset. -/
theorem seekExact_iff {fd : FileDescriptor} {offset : Int64} {whence : Whence} {n : ℕ}
    (h : fd.file.target offset whence = n) (hlt : n < 2 ^ 63) :
    SeekExact fd offset whence n ↔ n < 2 ^ 31 := by
  unfold SeekExact
  rw [seek_of_target h hlt, Prod.mk.injEq, and_iff_left rfl, checked_eq_ok_iff]

/-- What `seek` returns fits into an `int`. -/
theorem lt_of_seek {fd fd' : FileDescriptor} {offset : Int64} {whence : Whence} {n : ℕ}
    (h : fd.seek offset whence = (.ok n, fd')) : n < 2 ^ 31 := by
  unfold seek at h
  rw [Prod.mk.injEq] at h
  exact lt_of_checked h.1

/-- Moving the offset by nothing stays at it. -/
theorem target_seekCur_zero (file : OpenFile) : file.target 0 .seekCur = file.offset := by
  show (file.offset : ℤ) + Int64.toInt 0 = file.offset
  rw [Int64.toInt_zero, add_zero]

/-- Moving the offset to the end stops at the size. -/
theorem target_seekEnd_zero (file : OpenFile) :
    file.target 0 .seekEnd = file.content.length := by
  show (file.content.length : ℤ) + Int64.toInt 0 = file.content.length
  rw [Int64.toInt_zero, add_zero]

/-- An offset that fits into an `int` can be restored. -/
theorem target_seekSet_ofNat (file : OpenFile) {n : ℕ} (h : n < 2 ^ 31) :
    file.target (Int64.ofNat n) .seekSet = n := by
  show (Int64.ofNat n).toInt = n
  apply Int64.toInt_ofNat_of_lt
  omega

/-! ## The three calls of `file_size` -/

section FileSize

variable {fd : FileDescriptor} (hoffset : fd.file.offset < 2 ^ 63)
  (hsize : fd.file.content.length < 2 ^ 63)

include hoffset hsize

/-- What `file_size` returns, and the offset that it leaves, both went through an `int`. -/
theorem lt_of_fileSize {n : ℕ} {fd' : FileDescriptor} (h : fd.fileSize = (.ok n, fd')) :
    n < 2 ^ 31 ∧ fd'.file.offset < 2 ^ 31 := by
  unfold fileSize at h
  rw [seek_of_target (target_seekCur_zero fd.file) hoffset] at h
  cases hsaved : checked fd.file.offset with
  | error e =>
    rw [hsaved] at h
    simp at h
  | ok savedOffset =>
    have hlt : savedOffset < 2 ^ 31 := lt_of_checked hsaved
    rw [hsaved] at h
    dsimp only at h
    rw [seek_of_target (target_seekEnd_zero _) hsize] at h
    cases hret : checked fd.file.content.length with
    | error e =>
      rw [hret] at h
      simp at h
    | ok ret =>
      rw [hret] at h
      dsimp only at h
      rw [seek_of_target (target_seekSet_ofNat _ hlt) (by omega), checked_of_lt hlt] at h
      dsimp only at h
      rw [Prod.mk.injEq, Except.ok.injEq] at h
      obtain ⟨rfl, rfl⟩ := h
      exact ⟨lt_of_checked hret, hlt⟩

/-- `file_size` works for sizes and offsets that fit into an `int`. -/
theorem fileSizeExact_of_lt (hoffset' : fd.file.offset < 2 ^ 31)
    (hsize' : fd.file.content.length < 2 ^ 31) : FileSizeExact fd := by
  unfold FileSizeExact fileSize
  rw [seek_of_target (target_seekCur_zero fd.file) hoffset, checked_of_lt hoffset']
  dsimp only
  rw [seek_of_target (target_seekEnd_zero _) hsize, checked_of_lt hsize']
  dsimp only
  rw [seek_of_target (target_seekSet_ofNat _ hoffset') hoffset, checked_of_lt hoffset']

/-- Offsets and sizes are exact below `2 ^ 31`, and nowhere else.  For every file and every
offset that the type `off_t` can represent, a call of `seek` that `lseek` does not refuse goes
to the resulting offset and returns it if and only if the offset is below `2 ^ 31`; and
`file_size` returns the size and leaves the offset alone if and only if both are. -/
theorem offsets_exact_iff :
    (∀ (offset : Int64) (whence : Whence) (n : ℕ), fd.file.target offset whence = n →
      n < 2 ^ 63 → (SeekExact fd offset whence n ↔ n < 2 ^ 31)) ∧
    (FileSizeExact fd ↔ fd.file.offset < 2 ^ 31 ∧ fd.file.content.length < 2 ^ 31) := by
  refine ⟨fun offset whence n htarget hlt => seekExact_iff htarget hlt, ?_, ?_⟩
  · intro h
    have hlt := lt_of_fileSize hoffset hsize h
    exact ⟨hlt.2, hlt.1⟩
  · rintro ⟨hoffset', hsize'⟩
    exact fileSizeExact_of_lt hoffset hsize hoffset' hsize'

end FileSize

/-- A small file. -/
theorem offsets_exact_iff_threeBytes : FileSizeExact (ofFile ⟨[1, 2, 3], 1⟩) :=
  (@offsets_exact_iff (ofFile ⟨[1, 2, 3], 1⟩) (by decide) (by decide)).2.mpr
    ⟨by decide, by decide⟩

/-- At the beginning of a file, `file_size` returns what is left of its size. -/
theorem fst_fileSize {fd : FileDescriptor} (hoffset : fd.file.offset = 0)
    (hsize : fd.file.content.length < 2 ^ 63) :
    fd.fileSize.1 = checked fd.file.content.length := by
  unfold fileSize
  rw [seek_of_target (target_seekCur_zero fd.file) (by omega), hoffset,
    checked_of_lt (by decide)]
  dsimp only
  rw [seek_of_target (target_seekEnd_zero _) (by exact hsize)]
  cases checked fd.file.content.length with
  | error e => rfl
  | ok ret =>
    dsimp only
    rw [seek_of_target (target_seekSet_ofNat _ (by decide)) (by decide),
      checked_of_lt (by decide)]

/-- There are files of every size. -/
theorem exists_file (size : ℕ) :
    ∃ fd : FileDescriptor, fd.file.content.length = size ∧ fd.file.offset = 0 :=
  ⟨ofFile ⟨List.replicate size 0, 0⟩, List.length_replicate, rfl⟩

/-- The size of a file of 2 GiB cannot be measured, and a file of 4 GiB and five bytes seems
to have a size of five bytes. -/
theorem exists_not_fileSizeExact :
    (∃ fd : FileDescriptor, fd.file.content.length = 2 ^ 31 ∧ fd.file.offset = 0 ∧
      fd.fileSize.1 = .error .unixError) ∧
    ∃ fd : FileDescriptor, fd.file.content.length = 2 ^ 32 + 5 ∧ fd.file.offset = 0 ∧
      fd.fileSize.1 = .ok 5 := by
  constructor
  · obtain ⟨fd, hlen, hoffset⟩ := exists_file (2 ^ 31)
    refine ⟨fd, hlen, hoffset, ?_⟩
    rw [fst_fileSize hoffset (by omega), hlen]
    decide
  · obtain ⟨fd, hlen, hoffset⟩ := exists_file (2 ^ 32 + 5)
    refine ⟨fd, hlen, hoffset, ?_⟩
    rw [fst_fileSize hoffset (by omega), hlen]
    decide

end FileDescriptor

end Ringmaster
