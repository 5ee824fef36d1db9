import Haywire.Py.Struct

/-!
# The program-header decoder of `find_elf_sections`

`parse_program_headers(base_addr, ph_offset)` reads 448 bytes at
`base_addr + ph_offset` and decodes them as up to eight 56-byte entries:

```
for i in range(0, min(len(ph_data), 56*8), 56):
    if i + 56 > len(ph_data):
        break
    p_type = struct.unpack('<I', ph_data[i:i+4])[0]
    ...
    if p_type in seg_types:
        print(...)
        if p_type == 1 and (p_flags & 2):
            print("      ^-- Writable data segment, ...")
```

It never reads `e_phnum` or `e_phentsize`: `parseProgramHeaders_eq` says it decodes
every whole 56-byte slot of what it read, so the number of records is fixed by the
length of the buffer, and bytes past the declared table are decoded like the rest.
The whole loop sits in a `try` that prints the exception; the model returns the
records decoded before it, and the exception.
-/

namespace Haywire.Elf

open Py

/-- The fields `parse_program_headers` decodes from one 56-byte entry. -/
structure Segment where
  /-- `p_type`, a `u32` at offset 0. -/
  pType : Nat
  /-- `p_flags`, a `u32` at offset 4. -/
  pFlags : Nat
  /-- `p_offset`, a `u64` at offset 8. -/
  pOffset : Nat
  /-- `p_vaddr`, a `u64` at offset 16. -/
  pVaddr : Nat
  /-- `p_filesz`, a `u64` at offset 32. -/
  pFilesz : Nat
  /-- `p_memsz`, a `u64` at offset 40. -/
  pMemsz : Nat
deriving DecidableEq, Repr

/-- The unpacking of the entry at offset `i`. -/
def decodeSegment (phData : List UInt8) (i : Nat) : Except PyError Segment := do
  let pType ← unpackLE 4 (getSlice phData i (i + 4))
  let pFlags ← unpackLE 4 (getSlice phData (i + 4) (i + 8))
  let pOffset ← unpackLE 8 (getSlice phData (i + 8) (i + 16))
  let pVaddr ← unpackLE 8 (getSlice phData (i + 16) (i + 24))
  let pFilesz ← unpackLE 8 (getSlice phData (i + 32) (i + 40))
  let pMemsz ← unpackLE 8 (getSlice phData (i + 40) (i + 48))
  pure ⟨pType, pFlags, pOffset, pVaddr, pFilesz, pMemsz⟩

/-- The `for i in ...` loop over the entry offsets, with its `break`: the records
decoded, and the exception that ended the loop, if one did. -/
def segmentLoop (phData : List UInt8) : List Nat → List Segment × Option PyError
  | [] => ([], none)
  | i :: is =>
    if phData.length < i + 56 then ([], none)
    else
      match decodeSegment phData i with
      | .error e => ([], some e)
      | .ok seg => ((segmentLoop phData is).1.cons seg, (segmentLoop phData is).2)

/-- The loop of `parse_program_headers` over the bytes read. -/
def parseProgramHeaders (phData : List UInt8) : List Segment × Option PyError :=
  segmentLoop phData (range 0 (min phData.length (56 * 8)) 56)

/-- `parse_program_headers(base_addr, ph_offset)`, reading through `read`. -/
def parseProgramHeadersAt (read : Nat → Nat → Except PyError (List UInt8)) (baseAddr phOffset : Nat) :
    List Segment × Option PyError :=
  match read (baseAddr + phOffset) (56 * 8) with
  | .ok phData => parseProgramHeaders phData
  | .error e => ([], some e)

/-! ## What is printed for a record -/

/-- `seg_types`. -/
def segTypes : Dict Nat (List Char) :=
  ⟨[(1, "LOAD".toList), (2, "DYNAMIC".toList), (3, "INTERP".toList), (4, "NOTE".toList),
    (6, "PHDR".toList)], by decide⟩

/-- The flag letters: `X`, `W`, `R` for the bits 1, 2, 4. -/
def flagLetters (pFlags : Nat) : List Char :=
  (if pFlags &&& 1 ≠ 0 then ['X'] else []) ++ (if pFlags &&& 2 ≠ 0 then ['W'] else []) ++
    (if pFlags &&& 4 ≠ 0 then ['R'] else [])

/-- The line printed for a record of a known type. -/
structure SegmentLine where
  /-- `seg_types[p_type]`. -/
  typeName : List Char
  /-- `p_vaddr`. -/
  vaddr : Nat
  /-- `p_memsz`. -/
  memsz : Nat
  /-- `''.join(flags)`. -/
  flags : List Char
  /-- Whether the `Writable data segment` line follows. -/
  writable : Bool
deriving DecidableEq, Repr

/-- What is printed for a record: nothing unless `p_type in seg_types`. -/
def segmentLine (seg : Segment) : Option SegmentLine :=
  (Dict.get segTypes seg.pType).map fun name =>
    ⟨name, seg.pVaddr, seg.pMemsz, flagLetters seg.pFlags, seg.pType = 1 ∧ seg.pFlags &&& 2 ≠ 0⟩

/-- A record is reported as a writable data segment exactly for a `LOAD` entry with
the write bit. -/
theorem segmentLine_writable (seg : Segment) :
    (∃ l, segmentLine seg = some l ∧ l.writable = true) ↔ seg.pType = 1 ∧ seg.pFlags &&& 2 ≠ 0 := by
  constructor
  · rintro ⟨l, hl, hw⟩
    simp only [segmentLine, Option.map_eq_some'] at hl
    obtain ⟨name, -, rfl⟩ := hl
    simpa using hw
  · rintro ⟨h1, h2⟩
    simp [segmentLine, h1, h2, segTypes, Dict.get, lookupItem]

/-! ## What the loop decodes -/

/-- The record a 56-byte entry holds, its fields read little-endian. -/
def slotSegment (slot : List UInt8) : Segment :=
  ⟨leValue (getSlice slot 0 4), leValue (getSlice slot 4 8), leValue (getSlice slot 8 16),
    leValue (getSlice slot 16 24), leValue (getSlice slot 32 40), leValue (getSlice slot 40 48)⟩

/-- A whole entry never raises. -/
theorem decodeSegment_eq (phData : List UInt8) {i : Nat} (h : i + 56 ≤ phData.length) :
    decodeSegment phData i = .ok (slotSegment (getSlice phData i (i + 56))) := by
  have hw : ∀ a w, a + w ≤ 56 → unpackLE w (getSlice phData (i + a) (i + a + w)) =
      .ok (leValue (getSlice (getSlice phData i (i + 56)) a (a + w))) := fun a w haw => by
    rw [unpackLE_of_length (by simp only [length_getSlice]; omega),
      getSlice_getSlice _ _ _ _ (by omega) haw, Nat.add_assoc]
  have h0 := hw 0 4 (by omega)
  simp only [Nat.add_zero, Nat.zero_add] at h0
  simp only [decodeSegment, h0, hw 4 4 (by omega), hw 8 8 (by omega), hw 16 8 (by omega),
    hw 32 8 (by omega), hw 40 8 (by omega)]
  rfl

/-- The loop over offsets `s, s + 56, …`: it decodes every whole entry and stops at
the first offset without one. -/
theorem segmentLoop_range' (phData : List UInt8) :
    ∀ n s, segmentLoop phData (List.range' s n 56) =
      ((List.range' s (min n ((phData.length - s) / 56)) 56).map
        (fun i => slotSegment (getSlice phData i (i + 56))), none) := by
  intro n
  induction n with
  | zero => intro s; simp [segmentLoop]
  | succ n ih =>
    intro s
    rw [List.range'_succ, segmentLoop]
    by_cases hs : phData.length < s + 56
    · rw [if_pos hs, show (phData.length - s) / 56 = 0 by omega]
      simp
    · rw [if_neg hs, decodeSegment_eq phData (by omega), ih,
        show min (n + 1) ((phData.length - s) / 56) =
          min n ((phData.length - (s + 56)) / 56) + 1 by omega, List.range'_succ]
      simp

/-- **What `parse_program_headers` decodes.**  For every buffer it reads, it returns
one record for each whole 56-byte slot of its first 448 bytes, the record of bytes
`[i, i + 56)` for each offset `i`, and never raises: the count is
`⌊min(len, 448) / 56⌋` whatever the header declares. -/
theorem parseProgramHeaders_eq (phData : List UInt8) :
    parseProgramHeaders phData =
      ((List.range' 0 (min phData.length 448 / 56) 56).map
        (fun i => slotSegment (getSlice phData i (i + 56))), none) := by
  rw [parseProgramHeaders, range, segmentLoop_range',
    show min ((min phData.length (56 * 8) - 0 + 56 - 1) / 56) ((phData.length - 0) / 56) =
      min phData.length 448 / 56 by omega]

/-! ## Encoding a table -/

/-- A 56-byte entry laid out by its specification, with the bytes of `p_paddr` and
`p_align`, which the decoder skips, given as they are. -/
def encodeSegment (seg : Segment) (paddr align : List UInt8) : List UInt8 :=
  packLE 4 seg.pType ++ (packLE 4 seg.pFlags ++ (packLE 8 seg.pOffset ++ (packLE 8 seg.pVaddr ++
    (paddr ++ (packLE 8 seg.pFilesz ++ (packLE 8 seg.pMemsz ++ align))))))

@[simp] theorem length_encodeSegment (seg : Segment) (paddr align : List UInt8) :
    (encodeSegment seg paddr align).length = 40 + paddr.length + align.length := by
  simp only [encodeSegment, List.length_append, length_packLE]
  omega

/-- An encoded entry decodes to its fields. -/
theorem slotSegment_encodeSegment (seg : Segment) {paddr : List UInt8} (hpaddr : paddr.length = 8)
    (align : List UInt8)
    (hs : seg.pType < 2 ^ 32 ∧ seg.pFlags < 2 ^ 32 ∧ seg.pOffset < 2 ^ 64 ∧ seg.pVaddr < 2 ^ 64 ∧
      seg.pFilesz < 2 ^ 64 ∧ seg.pMemsz < 2 ^ 64) :
    slotSegment (encodeSegment seg paddr align) = seg := by
  have p32 : (2 : Nat) ^ 32 = 256 ^ 4 := by decide
  have p64 : (2 : Nat) ^ 64 = 256 ^ 8 := by decide
  obtain ⟨h1, h2, h3, h4, h5, h6⟩ := hs
  rw [p32] at h1 h2
  rw [p64] at h3 h4 h5 h6
  simp [slotSegment, encodeSegment, getSlice, hpaddr, List.drop_append_eq_append_drop,
    List.take_append_eq_append_take, List.drop_eq_nil_of_le, leValue_packLE h1, leValue_packLE h2,
    leValue_packLE h3, leValue_packLE h4, leValue_packLE h5, leValue_packLE h6]

theorem length_flatten_entries {entries : List (List UInt8)} (h : ∀ e ∈ entries, e.length = 56) :
    entries.flatten.length = 56 * entries.length := by
  induction entries with
  | nil => rfl
  | cons e es ih =>
    rw [List.flatten_cons, List.length_append, h e (List.mem_cons_self _ _),
      ih (fun e' he' => h e' (List.mem_cons_of_mem _ he')), List.length_cons]
    omega

/-- The slots of a table of whole entries, followed by anything, are its entries. -/
theorem slots_flatten (entries : List (List UInt8)) (h : ∀ e ∈ entries, e.length = 56)
    (rest : List UInt8) :
    (List.range' 0 entries.length 56).map
        (fun i => slotSegment (getSlice (entries.flatten ++ rest) i (i + 56))) =
      entries.map slotSegment := by
  induction entries with
  | nil => rfl
  | cons e es ih =>
    have he : e.length = 56 := h e (List.mem_cons_self _ _)
    have hshift : ∀ i, getSlice (e ++ (es.flatten ++ rest)) (56 + i) (56 + i + 56) =
        getSlice (es.flatten ++ rest) i (i + 56) := fun i => by
      rw [getSlice, ← he, List.drop_append, getSlice]; congr 1; omega
    have hr : List.range' 56 es.length 56 = (List.range' 0 es.length 56).map (56 + ·) := by
      rw [List.map_add_range']
    have h0 : getSlice (e ++ (es.flatten ++ rest)) 0 (0 + 56) = e := by
      rw [getSlice, List.drop_zero, Nat.zero_add, Nat.sub_zero, List.take_left' he]
    rw [List.length_cons, List.range'_succ, Nat.zero_add, hr, List.map_cons, List.map_map,
      List.flatten_cons, List.append_assoc, List.map_cons]
    simp only [Function.comp_def, hshift, ih (fun e' he' => h e' (List.mem_cons_of_mem _ he'))]
    rw [← Nat.zero_add 56, h0]

end Haywire.Elf
