import Haywire.Elf.Header
import Haywire.Elf.Segments

/-!
# The ELF scan of `find_elf_sections`

`find_elf_headers` walks `range(start_addr, end_addr, step)`, reads 64 bytes at
each address, decodes a header where it finds one, passes `e_phoff` to
`parse_program_headers` when `0 < e_phoff < 0x10000`, and appends
`{'addr', 'type', 'entry', 'sections'}`; any exception skips the address.

Each `read_memory(addr, size)` opens a connection of its own, so the scan is
modelled over an arbitrary reader `read addr size`: the chunked reader of
`Monitor.Reader` on a fresh connection is one, `imageRead` (the exact bytes of a
memory image) another.  The printed lines are not modelled beyond `segmentLine`.

The scan records exactly the addresses of its range where the reader returns a
buffer the header decoder accepts (`findElfHeaders_addrs`).
-/

namespace Haywire.Elf

open Py

/-- The record `find_elf_headers` appends for a header found at `addr`. -/
structure FoundElf where
  /-- `'addr'`. -/
  addr : Nat
  /-- `'type'`, `e_type`. -/
  type : Nat
  /-- `'entry'`, `e_entry`. -/
  entry : Nat
  /-- `'sections'`, `e_shoff`. -/
  sections : Nat
deriving DecidableEq, Repr

/-- The body of the scan at one address: the record appended and, when the header's
`e_phoff` passes the gate, what `parse_program_headers` decoded; `none` when the
address is skipped. -/
def scanAddress (read : Nat → Nat → Except PyError (List UInt8)) (addr : Nat) :
    Option (FoundElf × Option (List Segment × Option PyError)) :=
  match read addr 64 >>= decodeElfHeader with
  | .ok (some h) =>
    some (⟨addr, h.eType, h.eEntry, h.eShoff⟩,
      if 0 < h.ePhoff ∧ h.ePhoff < 0x10000 then some (parseProgramHeadersAt read addr h.ePhoff)
      else none)
  | _ => none

/-- `find_elf_headers(start_addr, end_addr, step)` (by default `0x40000000`,
`0x140000000`, `0x1000000`): one entry per address where a header was decoded. -/
def findElfHeaders (read : Nat → Nat → Except PyError (List UInt8)) (startAddr endAddr step : Nat) :
    List (FoundElf × Option (List Segment × Option PyError)) :=
  (range startAddr endAddr step).filterMap (scanAddress read)

/-- A reader that returns exactly the bytes of a memory image. -/
def imageRead (image : List UInt8) (addr size : Nat) : Except PyError (List UInt8) :=
  .ok (getSlice image addr (addr + size))

/-- A program-header table: the encoded entries and what follows them. -/
def encodeTable (segs : List (Segment × List UInt8 × List UInt8)) (rest : List UInt8) :
    List UInt8 :=
  (segs.map fun e => encodeSegment e.1 e.2.1 e.2.2).flatten ++ rest

/-! ## One address -/

/-- Where a header is decoded, the scan records it, and parses the program headers
read at `addr + e_phoff` exactly when `e_phoff` passes the gate. -/
theorem scanAddress_of_header (read : Nat → Nat → Except PyError (List UInt8)) (addr : Nat)
    {data phData : List UInt8} {h : ElfHeader} (hread : read addr 64 = .ok data)
    (hdec : decodeElfHeader data = .ok (some h)) (hph : read (addr + h.ePhoff) 448 = .ok phData) :
    scanAddress read addr = some (⟨addr, h.eType, h.eEntry, h.eShoff⟩,
      if 0 < h.ePhoff ∧ h.ePhoff < 0x10000 then some (parseProgramHeaders phData) else none) := by
  simp only [scanAddress, hread, bind, Except.bind, hdec, parseProgramHeadersAt]
  simp [hph]

/-- Whether the scan records a header at `addr`: the reader returns there a buffer
with the magic, at least 52 bytes and class 2. -/
def recordsHeader (read : Nat → Nat → Except PyError (List UInt8)) (addr : Nat) : Bool :=
  match read addr 64 with
  | .ok data => data.take 4 = elfMagic ∧ 52 ≤ data.length ∧ data[4]? = some 2
  | .error _ => false

theorem scanAddress_addr (read : Nat → Nat → Except PyError (List UInt8)) (addr : Nat) :
    (scanAddress read addr).map (·.1.addr) = Option.guard (fun a => recordsHeader read a = true) addr := by
  unfold scanAddress recordsHeader Option.guard
  cases h : read addr 64 with
  | error e => simp [h, bind, Except.bind]
  | ok data =>
    simp only [h, bind, Except.bind, decodeElfHeader_eq]
    by_cases hc : data.take 4 = elfMagic ∧ 52 ≤ data.length ∧ data[4]? = some 2 <;> simp [hc]

/-- **The addresses the scan records.**  `find_elf_headers` records, in order, exactly
the addresses of its range where the reader returns a buffer with the magic, at
least 52 bytes and class 2. -/
theorem findElfHeaders_addrs (read : Nat → Nat → Except PyError (List UInt8))
    (startAddr endAddr step : Nat) :
    (findElfHeaders read startAddr endAddr step).map (·.1.addr) =
      (range startAddr endAddr step).filter (recordsHeader read) := by
  rw [findElfHeaders, List.map_filterMap, ← List.filterMap_eq_filter]
  exact List.filterMap_congr fun a _ => scanAddress_addr read a

theorem take_map_range' {β : Type} (f : Nat → β) {k K : Nat} (h : k ≤ K) (s step : Nat) :
    ((List.range' s K step).map f).take k = (List.range' s k step).map f := by
  obtain ⟨d, rfl⟩ := Nat.exists_eq_add_of_le h
  rw [Nat.add_comm, ← List.range'_append, List.map_append, List.take_left' (by simp)]

/-! ## Encoding and decoding -/

/-- **ELF decoding undoes ELF encoding.**  An encoded header of at least 52 bytes
decodes to its fields; at any address where the reader returns it, and returns an
encoded table of at most 448 bytes at `addr + e_phoff`, the scan records the header
and decodes the table exactly when `0 < e_phoff < 0x10000`; the first records decoded
from the table are the encoded entries, each reported as a writable data segment
exactly when it is a `LOAD` entry with the write bit. -/
theorem elf_decode_encode (h : ElfHeader)
    (hh : h.eType < 2 ^ 16 ∧ h.eMachine < 2 ^ 16 ∧ h.eEntry < 2 ^ 64 ∧ h.ePhoff < 2 ^ 64 ∧
      h.eShoff < 2 ^ 64)
    {ident version tail : List UInt8} (hident : ident.length = 10) (hversion : version.length = 4)
    (htail : 4 ≤ tail.length) (segs : List (Segment × List UInt8 × List UInt8))
    (hsegs : ∀ e ∈ segs, (e.1.pType < 2 ^ 32 ∧ e.1.pFlags < 2 ^ 32 ∧ e.1.pOffset < 2 ^ 64 ∧
      e.1.pVaddr < 2 ^ 64 ∧ e.1.pFilesz < 2 ^ 64 ∧ e.1.pMemsz < 2 ^ 64) ∧
      e.2.1.length = 8 ∧ e.2.2.length = 8)
    (rest : List UInt8) (hlen : (encodeTable segs rest).length ≤ 448) :
    decodeElfHeader (encodeHeader h ident version tail) = .ok (some h) ∧
    (∀ (read : Nat → Nat → Except PyError (List UInt8)) (addr : Nat),
      read addr 64 = .ok (encodeHeader h ident version tail) →
      read (addr + h.ePhoff) 448 = .ok (encodeTable segs rest) →
      scanAddress read addr = some (⟨addr, h.eType, h.eEntry, h.eShoff⟩,
        if 0 < h.ePhoff ∧ h.ePhoff < 0x10000 then some (parseProgramHeaders (encodeTable segs rest))
        else none)) ∧
    (parseProgramHeaders (encodeTable segs rest)).1.take segs.length = segs.map Prod.fst ∧
    (∀ e ∈ segs,
      (∃ l, segmentLine e.1 = some l ∧ l.writable = true) ↔ e.1.pType = 1 ∧ e.1.pFlags &&& 2 ≠ 0) := by
  have hdec := decodeElfHeader_encodeHeader h hident hversion htail hh
  have hentries : ∀ x ∈ segs.map (fun e => encodeSegment e.1 e.2.1 e.2.2), x.length = 56 := by
    simp only [List.mem_map]
    rintro _ ⟨e, he, rfl⟩
    simp [(hsegs e he).2.1, (hsegs e he).2.2]
  have hk : 56 * segs.length ≤ (encodeTable segs rest).length := by
    rw [encodeTable, List.length_append, length_flatten_entries hentries, List.length_map]
    omega
  refine ⟨hdec, fun read addr hr hp => scanAddress_of_header read addr hr hdec hp, ?_,
    fun e _ => segmentLine_writable e.1⟩
  have hslots := slots_flatten _ hentries rest
  rw [List.length_map, List.map_map] at hslots
  rw [parseProgramHeaders_eq, take_map_range' _ (by omega), encodeTable, hslots]
  exact List.map_congr_left fun e he =>
    slotSegment_encodeSegment e.1 (hsegs e he).2.1 e.2.2 (hsegs e he).1

/-- The writable `LOAD` entry of the examples. -/
def loadEntry : Segment × List UInt8 × List UInt8 :=
  (⟨1, 6, 0, 0x400000, 0x1000, 0x1000⟩, List.replicate 8 0, List.replicate 8 0)

/-- The read-only, executable `LOAD` entry of the examples. -/
def codeEntry : Segment × List UInt8 × List UInt8 :=
  (⟨1, 5, 0, 0x3ff000, 0x1000, 0x1000⟩, List.replicate 8 0, List.replicate 8 0)

/-- The header of the examples: an AArch64 executable with `e_phoff = 64` that
declares one program header (`e_phentsize = 56`, `e_phnum = 1`). -/
def phnumOneHeader : List UInt8 :=
  encodeHeader ⟨2, 183, 0x400000, 64, 0⟩ (List.replicate 10 0) [1, 0, 0, 0]
    [0, 0, 0, 0, 64, 0, 56, 0, 1, 0, 64, 0, 0, 0, 0, 0]

/-- `phnumOneHeader`, then its one declared entry, code, and after it a writable
`LOAD` entry that the header does not declare. -/
def phnumOneImage : List UInt8 := phnumOneHeader ++ encodeTable [codeEntry, loadEntry] []

/-- The hypotheses of `elf_decode_encode` hold for the header and entries of
`phnumOneImage`. -/
theorem elf_decode_encode_executable :
    ((2 < 2 ^ 16 ∧ 183 < 2 ^ 16 ∧ 0x400000 < 2 ^ 64 ∧ 64 < 2 ^ 64 ∧ 0 < 2 ^ 64) ∧
      (List.replicate 10 (0 : UInt8)).length = 10 ∧ [(1 : UInt8), 0, 0, 0].length = 4 ∧
      4 ≤ [(0 : UInt8), 0, 0, 0, 64, 0, 56, 0, 1, 0, 64, 0, 0, 0, 0, 0].length ∧
      (encodeTable [codeEntry, loadEntry] []).length ≤ 448) ∧
    (parseProgramHeaders (encodeTable [codeEntry, loadEntry] [])).1.take 2 =
      [codeEntry.1, loadEntry.1] :=
  ⟨⟨by decide, by decide, by decide, by decide, by decide⟩,
    (elf_decode_encode ⟨2, 183, 0x400000, 64, 0⟩ (by decide)
      (by decide : (List.replicate 10 (0 : UInt8)).length = 10)
      (by decide : [(1 : UInt8), 0, 0, 0].length = 4)
      (by decide : 4 ≤ [(0 : UInt8), 0, 0, 0, 64, 0, 56, 0, 1, 0, 64, 0, 0, 0, 0, 0].length)
      [codeEntry, loadEntry] (by decide) [] (by decide)).2.2.1⟩

/-! ## The table the header declares -/

/-- **The program headers decoded are the slots read, not the table declared.**
Wherever the scan decodes a header whose `e_phoff` passes the gate, it decodes one
record from every whole 56-byte slot of the first 448 bytes read at
`addr + e_phoff`, the record of bytes `[i, i + 56)`, and nothing raises: `e_phnum`
and `e_phentsize` play no part. -/
theorem scan_decodes_every_slot (read : Nat → Nat → Except PyError (List UInt8)) (addr : Nat)
    {data phData : List UInt8} {h : ElfHeader} (hread : read addr 64 = .ok data)
    (hdec : decodeElfHeader data = .ok (some h)) (hgate : 0 < h.ePhoff ∧ h.ePhoff < 0x10000)
    (hph : read (addr + h.ePhoff) 448 = .ok phData) :
    scanAddress read addr = some (⟨addr, h.eType, h.eEntry, h.eShoff⟩,
      some ((List.range' 0 (min phData.length 448 / 56) 56).map
        (fun i => slotSegment (getSlice phData i (i + 56))), none)) := by
  rw [scanAddress_of_header read addr hread hdec hph, if_pos hgate, parseProgramHeaders_eq]

/-- `phnumOneImage` at address 0 meets the hypotheses of `scan_decodes_every_slot`. -/
theorem scan_decodes_every_slot_image :
    imageRead phnumOneImage 0 64 = .ok (getSlice phnumOneImage 0 64) ∧
    decodeElfHeader (getSlice phnumOneImage 0 64) = .ok (some ⟨2, 183, 0x400000, 64, 0⟩) ∧
    (0 < 64 ∧ 64 < 0x10000) ∧
    imageRead phnumOneImage (0 + 64) 448 = .ok (getSlice phnumOneImage 64 512) ∧
    scanAddress (imageRead phnumOneImage) 0 = some (⟨0, 2, 0x400000, 0⟩,
      some ((List.range' 0 (min (getSlice phnumOneImage 64 512).length 448 / 56) 56).map
        (fun i => slotSegment (getSlice (getSlice phnumOneImage 64 512) i (i + 56))), none)) :=
  ⟨rfl, by decide, by decide, rfl,
    @scan_decodes_every_slot (imageRead phnumOneImage) 0 _ _ ⟨2, 183, 0x400000, 64, 0⟩ rfl
      (by decide) (by decide) rfl⟩

set_option maxRecDepth 2000 in
/-- The header of `phnumOneImage` declares one entry, yet the scan decodes a second
record from the bytes after its table and reports it as a writable data segment. -/
theorem undeclared_segment_decoded :
    leValue (getSlice phnumOneImage 54 56) = 56 ∧ leValue (getSlice phnumOneImage 56 58) = 1 ∧
    ((scanAddress (imageRead phnumOneImage) 0).bind (·.2)).map
      (fun r => (r.1.length, r.1.map fun seg => (segmentLine seg).map SegmentLine.writable)) =
      some (2, [some false, some true]) := by
  decide

end Haywire.Elf
