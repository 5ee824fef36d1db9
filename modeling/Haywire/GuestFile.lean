import Haywire.MemoryStructures
import Haywire.Py.Float
import Mathlib.Data.List.DropRight

/-!
# Two probes of the guest RAM file

`test_unused_memory.check_unused_memory` maps the RAM file, reads its last
`sample_size` bytes, and prints how many are `0x00` and how many `0xff`, each with
its share `100*count/sample_size` in percent, how many are neither, then a hex dump
of the first 256 of them.
`test_memory_change` maps the file, takes the MD5 digest of 4 KiB at every 16 MiB of
the first GiB, and after a pause takes them again and prints the blocks whose digest
changed.

`mm.seek(pos)` raises `ValueError` for a position outside the map, and mapping an
empty file raises `ValueError` too; nothing catches either (`check_unused_memory`
only catches `FileNotFoundError`).  So `check_unused_memory` raises on a file
shorter than its sample; an empty sample makes the first percentage divide by zero,
and it raises `ZeroDivisionError`; otherwise its three counts split the last
`sample_size` bytes of the file: `other`, computed as `sample_size - zeros - ffs`, is
the number of the other bytes (`checkUnusedMemory_eq`).

The digest of `test_memory_change` is a parameter `hash`, as in `find_active_framebuffer`,
and the guest's writes during the pause are the two contents `before` and `after` of
the map, which keeps its length.  The script seeks up to offset 1008 MiB, so it raises
on a smaller file; otherwise it prints a line for exactly the blocks whose digests
differ, in address order (`testMemoryChange_eq`).
-/

namespace Haywire.GuestFile

open Py MemoryStructures

/-! ## The map -/

/-- `mm.seek(pos); mm.read(n)`: `ValueError` for a position outside the map; the read
stops at the end. -/
def seekRead (mm : List UInt8) (pos : Int) (n : Nat) : Except PyError (List UInt8) :=
  if 0 ≤ pos ∧ pos ≤ mm.length then .ok (readAt mm pos.toNat n) else .error .valueError

/-! ## `check_unused_memory` -/

/-- What `check_unused_memory` prints. -/
structure UnusedReport where
  /-- `end_offset`. -/
  endOffset : Int
  /-- `data.count(b'\x00')`. -/
  zeros : Nat
  /-- `100*zeros/sample_size`, a double `m / 2 ^ k` as `(m, k)`. -/
  zerosPercent : Nat × Nat
  /-- `data.count(b'\xff')`. -/
  ffs : Nat
  /-- `100*ffs/sample_size`. -/
  ffsPercent : Nat × Nat
  /-- `sample_size-zeros-ffs`. -/
  other : Int
  /-- The rows of the hex dump: the offset printed and the bytes of the row. -/
  rows : List (Int × List UInt8)
deriving DecidableEq, Repr

/-- `for i in range(0, min(256, len(data)), 16)`: the row at `end_offset + i` shows
`data[i:i+16]`, in hex and as text. -/
def hexRows (endOffset : Int) (data : List UInt8) : List (Int × List UInt8) :=
  (range 0 (min 256 data.length) 16).map fun (i : Nat) => (endOffset + i, getSlice data i (i + 16))

/-- `100*count/sample_size`: `ZeroDivisionError` for an empty sample. -/
def percentOf (count sampleSize : Nat) : Except PyError (Nat × Nat) :=
  if sampleSize = 0 then .error .zeroDivisionError else .ok (trueDiv (100 * count) sampleSize)

/-- `check_unused_memory(filepath, sample_size)` on the file's contents, `none` when
the file does not exist (the message and `sys.exit(1)`). -/
def checkUnusedMemory (file : Option (List UInt8)) (sampleSize : Nat) :
    Except PyError (Option UnusedReport) :=
  match file with
  | none => .ok none
  | some file => do
    let mm ← mmapFile file
    let endOffset : Int := mm.length - sampleSize
    let data ← seekRead mm endOffset sampleSize
    let zeros := data.count 0
    let ffs := data.count 0xff
    let zerosPercent ← percentOf zeros sampleSize
    let ffsPercent ← percentOf ffs sampleSize
    pure (some ⟨endOffset, zeros, zerosPercent, ffs, ffsPercent, sampleSize - zeros - ffs,
      hexRows endOffset data⟩)

/-- The bytes of a list are zeros, `0xff`s and the others. -/
theorem count_add_count_add_countP (data : List UInt8) :
    data.count 0 + data.count 0xff + data.countP (fun b => b != 0 && b != 0xff) = data.length := by
  induction data with
  | nil => rfl
  | cons b data ih =>
    rw [List.count_cons, List.count_cons, List.countP_cons, List.length_cons, ← ih]
    by_cases h0 : b = 0
    · subst h0; simp; omega
    · by_cases hf : b = 0xff
      · subst hf; simp; omega
      · simp [h0, hf]; omega

/-- `mm.seek(len(mm) - n); mm.read(n)`: the last `n` bytes, or `ValueError` when the
map is shorter than `n`. -/
theorem seekRead_tail (file : List UInt8) (n : Nat) :
    seekRead file ((file.length : Int) - n) n =
      if n ≤ file.length then .ok (file.rtake n) else .error .valueError := by
  split_ifs with hs
  · rw [seekRead, if_pos ⟨by omega, by omega⟩,
      show ((file.length : Int) - n).toNat = file.length - n by omega]
    simp only [readAt, getSlice, List.rtake, Nat.sub_add_cancel hs, Nat.add_sub_cancel_left]
    exact congrArg _ (List.take_of_length_le (by simp))
  · rw [seekRead, if_neg (by omega)]

/-- **The counts of `check_unused_memory`.**  On a file shorter than the sample, the
empty file included, it raises `ValueError`, and on an empty sample
`ZeroDivisionError`.  Otherwise it reports on the last `sample_size` bytes of the
file: its zeros, `0xff`s and others are their counts of each kind, and the shares it
prints are the doubles nearest `100*zeros/sample_size` and `100*ffs/sample_size`. -/
theorem checkUnusedMemory_eq (file : List UInt8) (sampleSize : Nat) :
    checkUnusedMemory (some file) sampleSize =
      if file ≠ [] ∧ sampleSize ≤ file.length then
        if sampleSize = 0 then .error .zeroDivisionError
        else
          .ok (some ⟨(file.length - sampleSize : Nat), (file.rtake sampleSize).count 0,
            trueDiv (100 * (file.rtake sampleSize).count 0) sampleSize,
            (file.rtake sampleSize).count 0xff,
            trueDiv (100 * (file.rtake sampleSize).count 0xff) sampleSize,
            ((file.rtake sampleSize).countP fun b => b != 0 && b != 0xff : Nat),
            hexRows (file.length - sampleSize : Nat) (file.rtake sampleSize)⟩)
      else .error .valueError := by
  by_cases hf : file = []
  · simp [checkUnusedMemory, mmapFile, hf, bind, Except.bind]
  by_cases hs : sampleSize ≤ file.length
  · by_cases h0 : sampleSize = 0
    · simp only [checkUnusedMemory, mmapFile, if_neg hf, seekRead_tail, if_pos hs, percentOf, if_pos h0,
        bind, Except.bind]
      rw [if_pos ⟨hf, hs⟩]
    have hsplit := count_add_count_add_countP (file.rtake sampleSize)
    have hlen : (file.rtake sampleSize).length = sampleSize := by simp [List.rtake]; omega
    simp only [checkUnusedMemory, mmapFile, if_neg hf, seekRead_tail, if_pos hs, percentOf, if_neg h0,
      bind, Except.bind, pure, Except.pure]
    rw [if_pos ⟨hf, hs⟩,
      show ((file.length : Int) - sampleSize) = ((file.length - sampleSize : Nat) : Int) by omega]
    congr 3
    omega
  · simp [checkUnusedMemory, mmapFile, hf, seekRead_tail, hs, bind, Except.bind]

/-! ## `test_memory_change` -/

/-- `range(0, 1024*1024*1024, 16*1024*1024)`. -/
def changeOffsets : List Nat := range 0 (1024 * 1024 * 1024) (16 * 1024 * 1024)

/-- A `CHANGED` line: the offset, the digest before and after, and the 32 bytes
printed under it, read again at the offset after the change. -/
structure ChangedLine (δ : Type) where
  /-- `offset`. -/
  offset : Nat
  /-- `checksums[offset]`. -/
  before : δ
  /-- `new_checksum`. -/
  after : δ
  /-- `old_data`: `mm.read(32)` at the offset, from the map as it is now. -/
  firstBytes : List UInt8

/-- The first loop's body: `mm.seek(offset); data = mm.read(4096)` and its digest. -/
def checksumAt {δ : Type} (hash : List UInt8 → δ) (mm : List UInt8) (offset : Nat) : Except PyError δ := do
  let data ← seekRead mm offset 4096
  pure (hash data)

/-- The second loop's body at an offset and the digest stored for it: the `CHANGED`
line when the digest differs, with the 32 bytes read again at the offset. -/
def compareStep {δ : Type} [DecidableEq δ] (hash : List UInt8 → δ) (mm : List UInt8)
    (lines : List (ChangedLine δ)) (entry : Nat × δ) : Except PyError (List (ChangedLine δ)) := do
  let data ← seekRead mm entry.1 4096
  if hash data ≠ entry.2 then
    let shown ← seekRead mm entry.1 32
    pure (lines ++ [⟨entry.1, entry.2, hash data, shown⟩])
  else pure lines

/-- `test_memory_change` with the file as it is while the checksums are taken,
`before`, and when they are compared, `after`: the `CHANGED` lines, whose number is
`changed_count`.  The dictionary `checksums` is filled and read over the same offsets,
in the same order, so it is the list of the first digests. -/
def testMemoryChange {δ : Type} [DecidableEq δ] (hash : List UInt8 → δ)
    (before after : List UInt8) : Except PyError (List (ChangedLine δ)) := do
  let _ ← mmapFile before
  let checksums ← changeOffsets.mapM (checksumAt hash before)
  (changeOffsets.zip checksums).foldlM (compareStep hash after) []

/-- A seek to a position the code computed as a natural number fails only past the
end. -/
theorem seekRead_ofNat (mm : List UInt8) (offset n : Nat) :
    seekRead mm offset n = if offset ≤ mm.length then .ok (readAt mm offset n) else .error .valueError := by
  by_cases h : offset ≤ mm.length <;> simp [seekRead, h, Int.ofNat_zero_le]

theorem le_of_mem_changeOffsets {offset : Nat} (h : offset ∈ changeOffsets) :
    offset ≤ 63 * (16 * 1024 * 1024) := by
  obtain ⟨i, hi, rfl⟩ := (mem_range (by decide)).mp h
  omega

theorem last_mem_changeOffsets : 63 * (16 * 1024 * 1024) ∈ changeOffsets :=
  (mem_range (by decide)).mpr ⟨63, by decide, by decide⟩

theorem zip_map_self {α β : Type} (f : α → β) (xs : List α) :
    xs.zip (xs.map f) = xs.map fun x => (x, f x) := by
  induction xs with
  | nil => rfl
  | cons x xs ih => simp [ih]

/-- The lines the second loop prints over blocks whose digests were taken from
`before`. -/
def changedLines {δ : Type} [DecidableEq δ] (hash : List UInt8 → δ) (before after : List UInt8)
    (offset : Nat) : Option (ChangedLine δ) :=
  if hash (readAt after offset 4096) ≠ hash (readAt before offset 4096) then
    some ⟨offset, hash (readAt before offset 4096), hash (readAt after offset 4096), readAt after offset 32⟩
  else none

/-- The first loop's body: a digest inside the map, `ValueError` past its end. -/
theorem checksumAt_eq {δ : Type} (hash : List UInt8 → δ) (mm : List UInt8) (offset : Nat) :
    checksumAt hash mm offset =
      if offset ≤ mm.length then .ok (hash (readAt mm offset 4096)) else .error .valueError := by
  rw [checksumAt, seekRead_ofNat]; split <;> rfl

/-- The second loop's body at an offset inside the map. -/
theorem compareStep_of_le {δ : Type} [DecidableEq δ] (hash : List UInt8 → δ) {mm : List UInt8}
    {offset : Nat} (h : offset ≤ mm.length) (lines : List (ChangedLine δ)) (d : δ) :
    compareStep hash mm lines (offset, d) =
      .ok (if hash (readAt mm offset 4096) ≠ d then
        lines ++ [⟨offset, d, hash (readAt mm offset 4096), readAt mm offset 32⟩] else lines) := by
  by_cases hd : hash (readAt mm offset 4096) = d <;>
    simp [compareStep, seekRead_ofNat, h, hd, bind, Except.bind, pure, Except.pure]

/-- The second loop's body past the end of the map. -/
theorem compareStep_of_lt {δ : Type} [DecidableEq δ] (hash : List UInt8 → δ) {mm : List UInt8}
    {offset : Nat} (h : ¬ offset ≤ mm.length) (lines : List (ChangedLine δ)) (d : δ) :
    compareStep hash mm lines (offset, d) = .error .valueError := by
  rw [compareStep, seekRead_ofNat, if_neg h]; rfl

theorem foldl_compareStep {δ : Type} [DecidableEq δ] (hash : List UInt8 → δ) (before after : List UInt8)
    (offsets : List Nat) (acc : List (ChangedLine δ)) :
    (offsets.map fun o => (o, hash (readAt before o 4096))).foldl
        (fun lines e => if hash (readAt after e.1 4096) ≠ e.2 then
          lines ++ [⟨e.1, e.2, hash (readAt after e.1 4096), readAt after e.1 32⟩] else lines) acc =
      acc ++ offsets.filterMap (changedLines hash before after) := by
  induction offsets generalizing acc with
  | nil => simp
  | cons o offsets ih =>
    rw [List.map_cons, List.foldl_cons, ih, List.filterMap_cons, changedLines]
    by_cases hd : hash (readAt after o 4096) = hash (readAt before o 4096) <;> simp [hd]

/-- The first loop: the digests of the blocks at every offset, or `ValueError` on a
map shorter than 1008 MiB. -/
theorem mapM_checksumAt {δ : Type} (hash : List UInt8 → δ) (mm : List UInt8) :
    changeOffsets.mapM (checksumAt hash mm) =
      if 63 * (16 * 1024 * 1024) ≤ mm.length then
        .ok (changeOffsets.map fun o => hash (readAt mm o 4096))
      else .error .valueError := by
  split_ifs with h
  · exact mapM_except_eq fun o ho => by
      rw [checksumAt_eq, if_pos ((le_of_mem_changeOffsets ho).trans h)]
  · exact mapM_except_error (fun o _ => by rw [checksumAt_eq]; split <;> simp)
      ⟨_, last_mem_changeOffsets, by rw [checksumAt_eq, if_neg h]⟩

/-- The second loop, over the digests taken from `before`: the lines of the changed
blocks, or `ValueError` on a map shorter than 1008 MiB. -/
theorem foldlM_compareStep {δ : Type} [DecidableEq δ] (hash : List UInt8 → δ)
    (before after : List UInt8) :
    (changeOffsets.map fun o => (o, hash (readAt before o 4096))).foldlM (compareStep hash after) [] =
      if 63 * (16 * 1024 * 1024) ≤ after.length then
        .ok (changeOffsets.filterMap (changedLines hash before after))
      else .error .valueError := by
  split_ifs with h
  · rw [foldlM_except_eq (g := fun lines e => if hash (readAt after e.1 4096) ≠ e.2 then
        lines ++ [⟨e.1, e.2, hash (readAt after e.1 4096), readAt after e.1 32⟩] else lines)
      (fun e he lines => by
        obtain ⟨o, ho, rfl⟩ := List.mem_map.mp he
        exact compareStep_of_le hash ((le_of_mem_changeOffsets ho).trans h) lines _),
      foldl_compareStep, List.nil_append]
  · refine foldlM_except_error (fun e he lines => ?_)
      ⟨_, List.mem_map_of_mem _ last_mem_changeOffsets, fun lines => compareStep_of_lt hash h lines _⟩ []
    obtain ⟨o, -, rfl⟩ := List.mem_map.mp he
    by_cases ho : o ≤ after.length
    · exact .inr ⟨_, compareStep_of_le hash ho lines _⟩
    · exact .inl (compareStep_of_lt hash ho lines _)

/-- **What `test_memory_change` reports.**  On a file shorter than 1008 MiB, the last
offset it seeks to, at either instant (the empty file included), it raises
`ValueError`.  Otherwise it prints, in order, a line for exactly the offsets whose
4096-byte blocks have different digests at the two instants, with both digests and
the first 32 bytes of the block as it is at the second. -/
theorem testMemoryChange_eq {δ : Type} [DecidableEq δ] (hash : List UInt8 → δ)
    (before after : List UInt8) :
    testMemoryChange hash before after =
      if 63 * (16 * 1024 * 1024) ≤ before.length ∧ 63 * (16 * 1024 * 1024) ≤ after.length then
        .ok (changeOffsets.filterMap (changedLines hash before after))
      else .error .valueError := by
  by_cases hne : before = []
  · simp [testMemoryChange, mmapFile, hne, bind, Except.bind]
  by_cases hb : 63 * (16 * 1024 * 1024) ≤ before.length
  · simp only [testMemoryChange, mmapFile, if_neg hne, mapM_checksumAt, hb, if_true, zip_map_self,
      foldlM_compareStep, true_and, bind, Except.bind]
  · simp only [testMemoryChange, mmapFile, if_neg hne, mapM_checksumAt, hb, false_and,
      if_false, bind, Except.bind]

end Haywire.GuestFile
