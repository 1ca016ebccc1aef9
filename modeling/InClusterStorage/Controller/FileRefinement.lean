import InClusterStorage.Controller.FilePunches
import InClusterStorage.Controller.FileTruncates

/- One regular file, used by one call at a time, is an array of bytes.

   A file can hold a position inline, in a blob, staged, or not at all, and each call
   has its own cases for these. `Represents` says what the file holds, however it
   holds it; every call keeps it in step with the array. -/
namespace InClusterStorage.Controller

open Bytes

inductive FileCall where
  | writeFile (w : Write) (nonempty : w.data ≠ [])
  | truncateFile (size : Nat)
  | punchHole (p : Punch)
  | fsync

namespace FileCall

def run (limits : Limits) (f : File) : FileCall → File
  | writeFile w _ => f.writeFile limits w
  | truncateFile size => f.truncateFile limits size
  | punchHole p => f.punchHole limits p
  | fsync => f.fsync limits

/-- What the call does to an array of bytes. -/
def apply (content : List UInt8) : FileCall → List UInt8
  | writeFile w _ => splice content w.offset w.data
  | truncateFile size => resize size content
  | punchHole p =>
    if p.length = 0 then content
    else zeroRange (resize (p.sizeAfter content.length) content) p.offset p.stop
  | fsync => content

end FileCall

/-- The file holds the bytes, whether staged or not. -/
structure Represents (limits : Limits) (cs : Nat) (f : File) (content : List UInt8) : Prop where
  wellFormed : WellFormed limits cs f
  size : content.length = f.size
  bytes : ∀ p, byteAt content p = f.currentByte cs p

section Steps

variable {limits : Limits} {cs : Nat} {f : File} {content : List UInt8} (h : Represents limits cs f content)
include h

theorem Represents.writeFile {w : Write} (hw : w.data ≠ []) :
    Represents limits cs (f.writeFile limits w) (splice content w.offset w.data) := by
  obtain ⟨node, baseChunks, hfresh, heq⟩ := fresh_writeFile (w := w) h.wellFormed.rows
  rw [heq]
  refine ⟨hfresh.stageWrite_wellFormed h.wellFormed hw, ?_, ?_⟩
  · rw [length_splice, h.size, hfresh.size_stageWrite h.wellFormed]
    rfl
  · intro p
    rw [byteAt_splice, hfresh.currentByte_stageWrite h.wellFormed hw, h.bytes]
    rfl

theorem Represents.truncateFile {size : Nat} (hcuts : Cuts cs size f (f.truncateStaged limits size)) :
    Represents limits cs (f.truncateFile limits size) (resize size content) := by
  obtain ⟨hwf, hsize, hbytes⟩ := h.wellFormed.truncateFile hcuts
  refine ⟨hwf, ?_, ?_⟩
  · rw [length_resize, hsize]
  · intro p
    rw [byteAt_resize, hbytes, h.bytes]

theorem Represents.punchHole {p : Punch} (hpos : 0 < p.length) :
    Represents limits cs (f.punchHole limits p)
      (zeroRange (resize (p.sizeAfter content.length) content) p.offset p.stop) := by
  obtain ⟨hwf, hsize, hbytes⟩ := h.wellFormed.punchHole hpos
  refine ⟨hwf, ?_, ?_⟩
  · rw [length_zeroRange, length_resize, hsize, h.size]
  · intro q
    have hle : content.length ≤ p.sizeAfter content.length := Punch.le_sizeAfter
    rw [byteAt_zeroRange, byteAt_resize, hbytes, ← h.bytes]
    split_ifs
    · rfl
    · rfl
    · rw [byteAt_of_length_le (by omega)]

theorem Represents.fsync : Represents limits cs (f.fsync limits) content := by
  obtain ⟨hwf, hsame, _⟩ := h.wellFormed.fsync
  refine ⟨hwf, h.size.trans hsame.size.symm, ?_⟩
  intro p
  rw [h.bytes, hsame.currentByte]

theorem Represents.run (hcs : limits.volumeChunkSize = cs) (call : FileCall) :
    Represents limits cs (call.run limits f) (call.apply content) := by
  cases call with
  | writeFile w hw => exact h.writeFile hw
  | truncateFile size => exact h.truncateFile (File.cuts_truncateStaged h.wellFormed.staged fun _ _ _ => by rw [hcs])
  | punchHole p =>
    show Represents limits cs (f.punchHole limits p)
      (if p.length = 0 then content else zeroRange (resize (p.sizeAfter content.length) content) p.offset p.stop)
    by_cases hpos : p.length = 0
    · rwa [if_pos hpos, File.punchHole, if_pos hpos]
    · rw [if_neg hpos]
      exact h.punchHole (Nat.pos_of_ne_zero hpos)
  | fsync => exact h.fsync

theorem Represents.run_all (hcs : limits.volumeChunkSize = cs) (calls : List FileCall) :
    Represents limits cs (calls.foldl (FileCall.run limits) f) (calls.foldl FileCall.apply content) := by
  induction calls generalizing f content with
  | nil => exact h
  | cons call calls ih => exact ih (h.run hcs call)

theorem Represents.synced :
    (f.fsync limits).row.size = content.length ∧
      ∀ offset length, (f.fsync limits).readFile limits offset length =
        slice content offset (if length = 0 then content.length else offset + length) := by
  obtain ⟨hwf, hsame, hnone⟩ := h.wellFormed.fsync
  have hsize : (f.fsync limits).row.size = content.length := by
    rw [h.size, ← hsame.size, File.size, hwf.stagedSize_eq_none hnone]
    rfl
  refine ⟨hsize, hwf.rows.readFile_eq hsize.symm ?_⟩
  intro p _
  rw [h.bytes, ← currentByte_eq_committedByte hnone, hsame.currentByte]

end Steps

theorem represents_emptyFile (limits : Limits) (h : limits.maxInlineLen ≤ limits.volumeChunkSize) :
    Represents limits limits.volumeChunkSize limits.emptyFile [] := by
  have hrows : RowsOk limits limits.volumeChunkSize limits.emptyFile := by
    refine RowsOk.of_blobs limits.volumeChunkSize_pos h rfl rfl (.inl rfl) rfl fun i d hd => ?_
    simp [File.blob, Limits.emptyFile] at hd
  refine ⟨WellFormed.of_rows hrows (fun _ => rfl) rfl, rfl, ?_⟩
  intro p
  exact (hrows.committedByte_eq_zero (Nat.zero_le p)).symm

/-- A file that is created empty and used by any calls, one at a time, has after a
sync the size and the bytes of the array. -/
theorem file_refines_bytes (limits : Limits) (hinline : limits.maxInlineLen ≤ limits.volumeChunkSize)
    (calls : List FileCall) :
    ((calls.foldl (FileCall.run limits) limits.emptyFile).fsync limits).row.size =
        (calls.foldl FileCall.apply []).length ∧
      ∀ offset length, 0 < length →
        ((calls.foldl (FileCall.run limits) limits.emptyFile).fsync limits).readFile limits offset length =
          slice (calls.foldl FileCall.apply []) offset (offset + length) := by
  have hsynced := ((represents_emptyFile limits hinline).run_all rfl calls).synced
  refine ⟨hsynced.1, fun offset length hpos => ?_⟩
  rw [hsynced.2, if_neg (by omega)]

/-- With chunks of four bytes and two bytes inline at most: two writes that leave a
gap, a punch over the gap, and a truncate in the middle of a chunk. -/
theorem file_refines_bytes_mixed :
    (2 : Nat) ≤ 4 ∧
      ((([.writeFile ⟨0, [1, 2]⟩ (by decide), .fsync, .writeFile ⟨6, [3, 4, 5]⟩ (by decide), .punchHole ⟨1, 6, true⟩,
        .truncateFile 8] : List FileCall).foldl (FileCall.run ⟨4, 2⟩) (Limits.mk 4 2).emptyFile).fsync
          ⟨4, 2⟩).readFile ⟨4, 2⟩ 0 8 = [1, 0, 0, 0, 0, 0, 0, 4] :=
  ⟨by decide, (file_refines_bytes ⟨4, 2⟩ (by decide) _).2 0 8 (by decide)⟩

end InClusterStorage.Controller
