import Haywire.Elf.Header
import Haywire.Elf.Segments

/-!
# The structure scan of `find_memory_structures`

`find_structures` maps the guest RAM file, an empty one raising `ValueError`
(`mmapFile`), and makes four passes over the map (`structureScan`), printing what it
finds:

* every 1 MiB of the first 256 MiB, the count `ptr_count` of words of a 4096-byte
  chunk that look like ARM64 pointers, and when it exceeds 20 the words above `0x1000`
  among the first eight;
* every 4 MiB, the count of printable bytes, when it exceeds 70% of the chunk;
* every 2 MiB, the count `pte_count` of words that look like page-table entries, when
  it exceeds 100;
* every offset below `min(file_size, 512 MiB)` where `mm.find` finds the ELF magic,
  with the class, data encoding and machine of the 64 bytes read there.

The file is its list of bytes; `mm.seek(offset); mm.read(n)` is `readAt`.  The
printed lines are the findings the passes return, and `struct.error`, the only
exception the passes could raise, ends the function.

The word loops run over `range(0, len(chunk)-8, 8)`: they read the word at `i` only
when `i + 8 < len(chunk)`, so the last word of a chunk whose length is a multiple of 8
is never counted (`mem_wordOffsets`, `countWords_eq`).  Every slice they unpack is
whole, and the sample of pointers is only taken once the count has shown the chunk
to be longer than 168 bytes (`lt_of_countWords`): no pass raises, and the scan
returns on every file the map takes (`structureScan_elfHeaders`).

The magic search stops once `pos` reaches the limit, but `mm.find` is not bounded by
it: the reported offsets are all those below the limit, in order, and then at most
one past it (`elfScanFrom_offsets`), the first occurrence after the last one in range.

The string pass compares in doubles: it reports more than 70% printable, and exactly
70% only at some lengths (`findStructures_stringRegions`).
-/

namespace Haywire.MemoryStructures

open Py

/-! ## Reading the file -/

/-- `mmap.mmap(f.fileno(), 0, prot=mmap.PROT_READ)`: the whole file; an empty file
cannot be mapped. -/
def mmapFile (file : List UInt8) : Except PyError (List UInt8) :=
  if file = [] then .error .valueError else .ok file

@[simp] theorem mmapFile_nil : mmapFile [] = .error .valueError := rfl

theorem mmapFile_of_ne_nil {file : List UInt8} (h : file ≠ []) : mmapFile file = .ok file := if_neg h

/-- `mm.seek(offset); mm.read(size)`: the next `size` bytes, fewer at the end. -/
def readAt (mm : List UInt8) (offset size : Nat) : List UInt8 := getSlice mm offset (offset + size)

/-- `struct.unpack('<Q', chunk[i:i+8])[0]`. -/
def wordAt (chunk : List UInt8) (i : Nat) : Except PyError Nat := unpackLE 8 (getSlice chunk i (i + 8))

/-- `mm.find(sub, start)`: the first position from `start` where `sub` occurs, `none`
for `-1`. -/
def mmFind (mm sub : List UInt8) (start : Nat) : Option Nat :=
  (List.range' start (mm.length + 1 - start)).find? fun p => sub.isPrefixOf (mm.drop p)

theorem wordAt_of_le {chunk : List UInt8} {i : Nat} (h : i + 8 ≤ chunk.length) :
    wordAt chunk i = .ok (leValue (getSlice chunk i (i + 8))) :=
  unpackLE_of_length (by simp only [length_getSlice]; omega)

theorem mmFind_eq_some {mm sub : List UInt8} {start p : Nat} :
    mmFind mm sub start = some p ↔
      sub.isPrefixOf (mm.drop p) ∧ start ≤ p ∧ p ≤ mm.length ∧
        ∀ j, start ≤ j → j < p → sub.isPrefixOf (mm.drop j) = false := by
  simp only [mmFind, List.find?_range'_eq_some, List.mem_range'_1, Bool.not_eq_true']
  constructor
  · rintro ⟨hp, ⟨h₁, h₂⟩, hj⟩
    exact ⟨hp, h₁, by omega, hj⟩
  · rintro ⟨hp, h₁, h₂, hj⟩
    exact ⟨hp, ⟨h₁, by omega⟩, hj⟩

theorem le_of_mmFind {mm sub : List UInt8} {start p : Nat} (h : mmFind mm sub start = some p) :
    start ≤ p :=
  (mmFind_eq_some.mp h).2.1

/-! ## Counting words -/

/-- `count = 0; for i in range(0, len(chunk)-8, 8): val = …; if test(val): count += 1`.
Below 8 bytes `len(chunk)-8` is negative and the range empty, as it is for the
truncated difference. -/
def countWords (test : Nat → Bool) (chunk : List UInt8) : Except PyError Nat :=
  (range 0 (chunk.length - 8) 8).foldlM (fun count i => do
    let val ← wordAt chunk i
    pure (if test val then count + 1 else count)) 0

/-- ARM64 kernel space from `0xFFFF000000000000`, or user space from `0x400000`. -/
def isPointer (val : Nat) : Bool :=
  (0xFFFF000000000000 ≤ val ∧ val ≤ 0xFFFFFFFFFFFFFFFF) ∨
    (0x0000000000400000 ≤ val ∧ val ≤ 0x0000800000000000)

/-- The present bit set and the bits from 44 up clear. -/
def isPte (val : Nat) : Bool := val &&& 0x1 ≠ 0 ∧ val &&& 0xFFFFF00000000000 = 0

/-- `ptr_count` of a chunk. -/
def ptrCount (chunk : List UInt8) : Except PyError Nat := countWords isPointer chunk

/-- `pte_count` of a chunk. -/
def pteCount (chunk : List UInt8) : Except PyError Nat := countWords isPte chunk

/-- The loops read the word at `i` for the multiples of 8 with `i + 8 < len(chunk)`:
every whole word but the one ending exactly at the end. -/
theorem mem_wordOffsets {n i : Nat} : i ∈ range 0 (n - 8) 8 ↔ i % 8 = 0 ∧ i + 8 < n := by
  rw [mem_range (by decide)]
  constructor
  · rintro ⟨k, hk, rfl⟩
    omega
  · rintro ⟨h₁, h₂⟩
    exact ⟨i / 8, by omega, by omega⟩

theorem foldl_count {α : Type} (p : α → Bool) (xs : List α) (n : Nat) :
    xs.foldl (fun count x => if p x then count + 1 else count) n = n + xs.countP p := by
  induction xs generalizing n with
  | nil => rfl
  | cons x xs ih =>
    rw [List.foldl_cons, ih, List.countP_cons]
    by_cases hx : p x <;> simp only [hx, if_true, Bool.false_eq_true, if_false] <;> omega

/-- **What the word loops count.**  They never raise, and count the words at the
offsets of `mem_wordOffsets` that pass the test. -/
theorem countWords_eq (test : Nat → Bool) (chunk : List UInt8) :
    countWords test chunk =
      .ok ((range 0 (chunk.length - 8) 8).countP fun i => test (leValue (getSlice chunk i (i + 8)))) := by
  rw [countWords, foldlM_except_eq (g := fun count i =>
      if test (leValue (getSlice chunk i (i + 8))) then count + 1 else count), foldl_count,
    Nat.zero_add]
  intro i hi count
  rw [wordAt_of_le (Nat.le_of_lt (mem_wordOffsets.mp hi).2)]
  rfl

/-- A chunk of 16 bytes whose second word `0x400001` is both a pointer and a
page-table entry: both loops skip it and count nothing. -/
theorem last_word_never_counted :
    (getSlice (readAt (List.replicate 8 0 ++ packLE 8 0x400001) 0 4096) 8 16).length = 8 ∧
      isPointer (leValue (getSlice (readAt (List.replicate 8 0 ++ packLE 8 0x400001) 0 4096) 8 16)) ∧
      isPte (leValue (getSlice (readAt (List.replicate 8 0 ++ packLE 8 0x400001) 0 4096) 8 16)) ∧
      ptrCount (readAt (List.replicate 8 0 ++ packLE 8 0x400001) 0 4096) = .ok 0 ∧
      pteCount (readAt (List.replicate 8 0 ++ packLE 8 0x400001) 0 4096) = .ok 0 := by
  decide

/-! ## The passes -/

/-- A `for offset in offsets:` loop whose body prints at most one finding: the
findings in order, or the exception that ends the loop. -/
def scanLoop {β : Type} (body : Nat → Except PyError (Option β)) (offsets : List Nat) :
    Except PyError (List β) :=
  offsets.foldlM (fun found offset => do
    let finding ← body offset
    pure (found ++ finding.toList)) []

/-- What the stack pass prints at an offset. -/
structure StackRegion where
  offset : Nat
  ptrCount : Nat
  /-- The `(i, val)` lines of the sample. -/
  sample : List (Nat × Nat)
deriving DecidableEq, Repr

/-- The sample: `for i in range(0, min(64, len(chunk)), 8)`, the words above `0x1000`. -/
def pointerSample (chunk : List UInt8) : Except PyError (List (Nat × Nat)) :=
  scanLoop (fun i => do
    let val ← wordAt chunk i
    pure (if 0x1000 < val then some (i, val) else none)) (range 0 (min 64 chunk.length) 8)

/-- The body of the stack pass. -/
def stackStep (mm : List UInt8) (offset : Nat) : Except PyError (Option StackRegion) := do
  let chunk := readAt mm offset 4096
  let count ← ptrCount chunk
  if 20 < count then
    let sample ← pointerSample chunk
    pure (some ⟨offset, count, sample⟩)
  else pure none

/-- What the string pass prints at an offset. -/
structure StringRegion where
  offset : Nat
  printable : Nat
  length : Nat
  /-- `text[:80]`. -/
  preview : List Char
deriving DecidableEq, Repr

/-- `32 <= b <= 126`. -/
def isPrintable (b : UInt8) : Bool := 32 ≤ b.toNat ∧ b.toNat ≤ 126

/-- The number of low bits of `m` beyond its 53 leading ones, found within `fuel`
halvings. -/
def excessBits : Nat → Nat → Nat
  | 0, _ => 0
  | fuel + 1, m => if m < 2 ^ 53 then 0 else excessBits fuel (m / 2) + 1

/-- `m` rounded to 53 significant bits, ties to even: the double nearest `m`. -/
def roundSig53 (m : Nat) : Nat :=
  let k := excessBits m m
  let q := m / 2 ^ k
  let r := m % 2 ^ k
  (if 2 ^ k < 2 * r ∨ (2 * r = 2 ^ k ∧ q % 2 = 1) then q + 1 else q) * 2 ^ k

/-- `printable > len(chunk) * 0.7` in doubles.  The double `0.7` is
`0x16666666666666 / 2 ^ 53`, `len(chunk)` converts exactly, and the product is
rounded to the nearest double; the integer `printable` is compared with it exactly. -/
def mostlyPrintable (printable length : Nat) : Bool :=
  roundSig53 (length * 0x16666666666666) < printable * 2 ^ 53

/-- The body of the string pass. -/
def stringStep (mm : List UInt8) (offset : Nat) : Except PyError (Option StringRegion) :=
  let chunk := readAt mm offset 4096
  let printable := (chunk.filter isPrintable).length
  if mostlyPrintable printable chunk.length then
    let text := (chunk.take 128).map fun b => if isPrintable b then Char.ofNat b.toNat else '.'
    pure (some ⟨offset, printable, chunk.length, text.take 80⟩)
  else pure none

/-- The body of the page-table pass: the offset and `pte_count`, above 100. -/
def pageTableStep (mm : List UInt8) (offset : Nat) : Except PyError (Option (Nat × Nat)) :=
  if offset % (2 * 1024 * 1024) ≠ 0 then pure none
  else do
    let count ← pteCount (readAt mm offset 4096)
    pure (if 100 < count then some (offset, count) else none)

/-- What the ELF pass prints after an offset, from the header read there. -/
structure ElfPeek where
  eiClass : UInt8
  eiData : UInt8
  eMachine : Nat
deriving DecidableEq, Repr

/-- The parse of the 64 bytes read at a magic, when there are at least 20. -/
def elfPeek (header : List UInt8) : Except PyError (Option ElfPeek) :=
  if 20 ≤ header.length then do
    let eiClass ← getItem header 4
    let eiData ← getItem header 5
    let eMachine ← unpackLE 2 (getSlice header 18 20)
    pure (some ⟨eiClass, eiData, eMachine⟩)
  else pure none

/-- `while pos < limit: pos = mm.find(elf_magic, pos); …; pos += 1`: the offsets
reported from `pos` on, each with its peek. -/
def elfScanFrom (mm : List UInt8) (limit pos : Nat) :
    Except PyError (List (Nat × Option ElfPeek)) :=
  if pos < limit then
    match h : mmFind mm Elf.elfMagic pos with
    | none => pure []
    | some p => do
      let peek ← elfPeek (readAt mm p 64)
      let rest ← elfScanFrom mm limit (p + 1)
      pure ((p, peek) :: rest)
  else pure []
termination_by limit - pos
decreasing_by have := le_of_mmFind h; omega

/-- Everything `find_structures` prints, pass by pass. -/
structure Findings where
  stackRegions : List StackRegion
  stringRegions : List StringRegion
  pageTables : List (Nat × Nat)
  elfHeaders : List (Nat × Option ElfPeek)
deriving DecidableEq, Repr

/-- The four passes of `find_structures` over the map `mm`. -/
def structureScan (mm : List UInt8) : Except PyError Findings := do
  let fileSize := mm.length
  let stackRegions ←
    scanLoop (stackStep mm) (range 0 (min fileSize (256 * 1024 * 1024)) (1024 * 1024))
  let stringRegions ←
    scanLoop (stringStep mm) (range 0 (min fileSize (256 * 1024 * 1024)) (4 * 1024 * 1024))
  let pageTables ←
    scanLoop (pageTableStep mm) (range 0 (min fileSize (256 * 1024 * 1024)) (2 * 1024 * 1024))
  let elfHeaders ← elfScanFrom mm (min fileSize (512 * 1024 * 1024)) 0
  pure ⟨stackRegions, stringRegions, pageTables, elfHeaders⟩

/-- `find_structures()` on the contents of the file: the map, then the passes. -/
def findStructures (file : List UInt8) : Except PyError Findings := do
  let mm ← mmapFile file
  structureScan mm

@[simp] theorem findStructures_nil : findStructures [] = .error .valueError := rfl

theorem findStructures_of_ne_nil {file : List UInt8} (h : file ≠ []) :
    findStructures file = structureScan file := by
  rw [findStructures, mmapFile_of_ne_nil h]
  exact Except.bind.eq_2 _ _

/-! ## No pass raises -/

theorem scanLoop_ok {β : Type} {body : Nat → Except PyError (Option β)} {offsets : List Nat}
    (h : ∀ offset ∈ offsets, ∃ r, body offset = .ok r) : ∃ found, scanLoop body offsets = .ok found :=
  foldlM_except_ok (fun offset ho found => by
    obtain ⟨r, hr⟩ := h offset ho
    exact ⟨found ++ r.toList, by rw [hr]; rfl⟩) []

/-- A nonzero count is of words that lie inside the chunk: `8 * count < len(chunk)`. -/
theorem lt_of_countWords {test : Nat → Bool} {chunk : List UInt8} {count : Nat}
    (h : countWords test chunk = .ok count) (hpos : 0 < count) : 8 * count < chunk.length := by
  rw [countWords_eq, Except.ok.injEq] at h
  have hle : count ≤ (range 0 (chunk.length - 8) 8).length := h ▸ List.countP_le_length _
  simp only [range, List.length_range'] at hle
  omega

/-- The sample reads whole words on a chunk of 64 bytes or more. -/
theorem pointerSample_ok {chunk : List UInt8} (h : 64 ≤ chunk.length) :
    ∃ sample, pointerSample chunk = .ok sample :=
  scanLoop_ok fun i hi => by
    obtain ⟨k, hk, rfl⟩ := (mem_range (by decide)).mp hi
    rw [wordAt_of_le (by omega)]
    exact ⟨_, rfl⟩

theorem stackStep_ok (mm : List UInt8) (offset : Nat) : ∃ r, stackStep mm offset = .ok r := by
  have hcount := countWords_eq isPointer (readAt mm offset 4096)
  simp only [stackStep, ptrCount, hcount, bind, Except.bind]
  split
  · next hgt =>
    have hlen := lt_of_countWords hcount (by omega)
    have h64 : 64 ≤ (readAt mm offset 4096).length := by omega
    obtain ⟨sample, hs⟩ := pointerSample_ok h64
    rw [hs]
    exact ⟨_, rfl⟩
  · exact ⟨_, rfl⟩

theorem stringStep_ok (mm : List UInt8) (offset : Nat) : ∃ r, stringStep mm offset = .ok r := by
  dsimp only [stringStep]
  split <;> exact ⟨_, rfl⟩

theorem pageTableStep_ok (mm : List UInt8) (offset : Nat) : ∃ r, pageTableStep mm offset = .ok r := by
  unfold pageTableStep
  split
  · exact ⟨_, rfl⟩
  · rw [pteCount, countWords_eq]
    exact ⟨_, rfl⟩

theorem elfPeek_ok (header : List UInt8) : ∃ peek, elfPeek header = .ok peek := by
  unfold elfPeek
  split
  · rw [getItem_of_lt (by omega), getItem_of_lt (by omega),
      unpackLE_of_length (by simp only [length_getSlice]; omega)]
    exact ⟨_, rfl⟩
  · exact ⟨_, rfl⟩

theorem elfPeek_short {header : List UInt8} (h : header.length < 20) : elfPeek header = .ok none :=
  if_neg (Nat.not_le.mpr h)

/-! ## The magic search -/

/-- `mm[p:p+4] == b'\x7fELF'`. -/
def magicAt (mm : List UInt8) (p : Nat) : Bool := Elf.elfMagic.isPrefixOf (mm.drop p)

theorem add_le_of_magicAt {mm : List UInt8} {p : Nat} (h : magicAt mm p) : p + 4 ≤ mm.length := by
  have hle := (List.isPrefixOf_iff_prefix.mp h).length_le
  simp only [List.length_drop] at hle
  have : Elf.elfMagic.length = 4 := rfl
  omega

theorem mmFind_magic_eq_some {mm : List UInt8} {pos p : Nat} :
    mmFind mm Elf.elfMagic pos = some p ↔
      pos ≤ p ∧ magicAt mm p ∧ ∀ j, pos ≤ j → j < p → magicAt mm j = false := by
  rw [mmFind_eq_some]
  constructor
  · rintro ⟨hm, hp, -, hj⟩
    exact ⟨hp, hm, hj⟩
  · rintro ⟨hp, hm, hj⟩
    exact ⟨hm, hp, by have := add_le_of_magicAt hm; omega, hj⟩

theorem mmFind_magic_eq_none {mm : List UInt8} {pos : Nat} :
    mmFind mm Elf.elfMagic pos = none ↔ ∀ j, pos ≤ j → magicAt mm j = false := by
  simp only [mmFind, List.find?_eq_none, List.mem_range'_1, Bool.not_eq_true]
  constructor
  · intro h j hj
    by_cases hlen : j ≤ mm.length
    · exact h j ⟨hj, by omega⟩
    · exact Bool.eq_false_iff.mpr fun hm => by have := add_le_of_magicAt hm; omega
  · exact fun h j hj => h j hj.1

theorem elfScanFrom_of_le {mm : List UInt8} {limit pos : Nat} (h : limit ≤ pos) :
    elfScanFrom mm limit pos = .ok [] := by
  rw [elfScanFrom, if_neg (by omega)]
  rfl

theorem elfScanFrom_none {mm : List UInt8} {limit pos : Nat} (hpos : pos < limit)
    (h : mmFind mm Elf.elfMagic pos = none) : elfScanFrom mm limit pos = .ok [] := by
  rw [elfScanFrom, if_pos hpos]
  split
  · rfl
  · next p hp => rw [h] at hp; cases hp

theorem elfScanFrom_some {mm : List UInt8} {limit pos p : Nat} (hpos : pos < limit)
    (h : mmFind mm Elf.elfMagic pos = some p) :
    elfScanFrom mm limit pos = (do
      let peek ← elfPeek (readAt mm p 64)
      let rest ← elfScanFrom mm limit (p + 1)
      pure ((p, peek) :: rest)) := by
  rw [elfScanFrom, if_pos hpos]
  split
  · next hn => rw [h] at hn; cases hn
  · next q hq => rw [h] at hq; cases hq; rfl

/-- No magic in `[pos, limit)`: nothing to report there. -/
theorem filter_magicAt_nil {mm : List UInt8} {pos limit : Nat}
    (h : ∀ j, pos ≤ j → j < limit → magicAt mm j = false) :
    (List.range' pos (limit - pos)).filter (magicAt mm) = [] := by
  rw [List.filter_eq_nil_iff]
  intro j hj
  rw [List.mem_range'_1] at hj
  simp [h j hj.1 (by omega)]

/-- The first magic `p` of `[pos, limit)` heads the list of those there. -/
theorem filter_magicAt_first {mm : List UInt8} {pos p limit : Nat} (hp : pos ≤ p) (hpl : p < limit)
    (hm : magicAt mm p) (hj : ∀ j, pos ≤ j → j < p → magicAt mm j = false) :
    (List.range' pos (limit - pos)).filter (magicAt mm) =
      p :: (List.range' (p + 1) (limit - (p + 1))).filter (magicAt mm) := by
  have hsplit : List.range' pos (limit - pos) =
      List.range' pos (p - pos) ++ p :: List.range' (p + 1) (limit - (p + 1)) := by
    have h₁ : limit - pos = (limit - p) + (p - pos) := by omega
    have h₂ : limit - p = (limit - (p + 1)) + 1 := by omega
    rw [h₁, ← List.range'_append_1 pos (p - pos) (limit - p), Nat.add_sub_of_le hp, h₂,
      List.range'_succ]
  rw [hsplit, List.filter_append, List.filter_cons_of_pos hm, filter_magicAt_nil hj]
  rfl

/-- **What the magic search reports.**  From `pos`, the loop reports every offset of
`[pos, limit)` holding the magic, in increasing order, each once, and then at most
one more offset, at or past the limit, holding the magic too. -/
theorem elfScanFrom_offsets (mm : List UInt8) (limit pos : Nat) :
    ∃ reports extra, elfScanFrom mm limit pos = .ok reports ∧
      reports.map Prod.fst = (List.range' pos (limit - pos)).filter (magicAt mm) ++ extra ∧
      extra.length ≤ 1 ∧ ∀ q ∈ extra, limit ≤ q ∧ magicAt mm q := by
  induction pos using elfScanFrom.induct mm limit with
  | case1 pos hpos hnone =>
    refine ⟨[], [], elfScanFrom_none hpos hnone, ?_, by simp, by simp⟩
    rw [filter_magicAt_nil fun j hj _ => mmFind_magic_eq_none.mp hnone j hj]
    rfl
  | case2 pos hpos p hsome ih =>
    obtain ⟨hp, hm, hj⟩ := mmFind_magic_eq_some.mp hsome
    obtain ⟨peek, hpeek⟩ := elfPeek_ok (readAt mm p 64)
    by_cases hpl : p < limit
    · obtain ⟨reports, extra, hr, hmap, hlen, hq⟩ := ih
      refine ⟨(p, peek) :: reports, extra, ?_, ?_, hlen, hq⟩
      · rw [elfScanFrom_some hpos hsome, hpeek, hr]
        rfl
      · rw [List.map_cons, hmap, filter_magicAt_first hp hpl hm hj]
        rfl
    · refine ⟨[(p, peek)], [p], ?_, ?_, by simp, ?_⟩
      · rw [elfScanFrom_some hpos hsome, hpeek, elfScanFrom_of_le (by omega)]
        rfl
      · rw [filter_magicAt_nil fun j hj₁ hj₂ => hj j hj₁ (by omega)]
        rfl
      · simp only [List.mem_singleton]
        rintro q rfl
        exact ⟨by omega, hm⟩
  | case3 pos hpos =>
    refine ⟨[], [], elfScanFrom_of_le (by omega), ?_, by simp, by simp⟩
    rw [Nat.sub_eq_zero_of_le (by omega)]
    rfl

/-! ## The whole scan -/

/-- The passes return, and their ELF findings are those of the magic search below
`min(file_size, 512 MiB)`. -/
theorem structureScan_elfHeaders (mm : List UInt8) :
    ∃ r, structureScan mm = .ok r ∧
      elfScanFrom mm (min mm.length (512 * 1024 * 1024)) 0 = .ok r.elfHeaders := by
  obtain ⟨stackRegions, h₁⟩ := @scanLoop_ok _ (stackStep mm)
    (range 0 (min mm.length (256 * 1024 * 1024)) (1024 * 1024)) fun offset _ => stackStep_ok mm offset
  obtain ⟨stringRegions, h₂⟩ := @scanLoop_ok _ (stringStep mm)
    (range 0 (min mm.length (256 * 1024 * 1024)) (4 * 1024 * 1024)) fun offset _ => stringStep_ok mm offset
  obtain ⟨pageTables, h₃⟩ := @scanLoop_ok _ (pageTableStep mm)
    (range 0 (min mm.length (256 * 1024 * 1024)) (2 * 1024 * 1024))
    fun offset _ => pageTableStep_ok mm offset
  obtain ⟨reports, -, h₄, -⟩ := elfScanFrom_offsets mm (min mm.length (512 * 1024 * 1024)) 0
  refine ⟨⟨stackRegions, stringRegions, pageTables, reports⟩, ?_, h₄⟩
  simp only [structureScan, h₁, h₂, h₃, h₄]
  rfl

/-- **The decoders never raise on short buffers.**  The header decoder of
`find_elf_headers` and the segment loop of `parse_program_headers` return on every
buffer; in `find_structures` both word counts and the ELF peek return on every
chunk, a pointer count above 20 is only reached on a chunk of more than 168 bytes, on
which the sample reads whole words, and the whole scan returns on every file that can
be mapped; the one exception `find_structures` raises is the `ValueError` of mapping
an empty file. -/
theorem structure_decoders_never_raise :
    (∀ data, ∃ h, Elf.decodeElfHeader data = .ok h) ∧
      (∀ phData, (Elf.parseProgramHeaders phData).2 = none) ∧
      (∀ chunk, ∃ n, ptrCount chunk = .ok n) ∧ (∀ chunk, ∃ n, pteCount chunk = .ok n) ∧
      (∀ chunk n, ptrCount chunk = .ok n → 20 < n →
        168 < chunk.length ∧ ∃ sample, pointerSample chunk = .ok sample) ∧
      (∀ header, ∃ peek, elfPeek header = .ok peek) ∧
      (∀ file, file ≠ [] → ∃ r, findStructures file = .ok r) ∧
      findStructures [] = .error .valueError := by
  refine ⟨fun data => ⟨_, Elf.decodeElfHeader_eq data⟩, fun phData => by
    rw [Elf.parseProgramHeaders_eq], fun chunk => ⟨_, countWords_eq _ chunk⟩,
    fun chunk => ⟨_, countWords_eq _ chunk⟩, fun chunk n h hn => ?_, elfPeek_ok,
    fun file hf => (findStructures_of_ne_nil hf).symm ▸ (structureScan_elfHeaders file).imp fun _ h => h.1,
    rfl⟩
  have hlen : 8 * n < chunk.length := lt_of_countWords h (by omega)
  exact ⟨by omega, pointerSample_ok (by omega)⟩

/-- A file of `n` zero bytes and then the magic, searched below `n`: the magic at
`n` is reported. -/
theorem elfScanFrom_zeros_magic {n : Nat} (hn : 0 < n) :
    elfScanFrom (List.replicate n 0 ++ Elf.elfMagic) n 0 = .ok [(n, none)] := by
  have hdrop : ∀ j ≤ n, (List.replicate n 0 ++ Elf.elfMagic).drop j =
      List.replicate (n - j) 0 ++ Elf.elfMagic := fun j hj => by
    rw [List.drop_append_of_le_length (by simpa using hj), List.drop_replicate]
  have hfind : mmFind (List.replicate n 0 ++ Elf.elfMagic) Elf.elfMagic 0 = some n := by
    refine mmFind_magic_eq_some.mpr ⟨Nat.zero_le _, ?_, fun j _ hj => ?_⟩
    · rw [magicAt, hdrop n (le_refl n), Nat.sub_self]
      rfl
    · rw [magicAt, hdrop j hj.le, show n - j = (n - j - 1) + 1 by omega]
      rfl
  have hread : (readAt (List.replicate n 0 ++ Elf.elfMagic) n 64).length < 20 := by
    simp only [readAt, length_getSlice, List.length_append, List.length_replicate]
    have : Elf.elfMagic.length = 4 := rfl
    omega
  rw [elfScanFrom_some hn hfind, elfPeek_short hread, elfScanFrom_of_le (Nat.le_succ n)]
  rfl

/-- The 512 MiB of zeros and then the magic: the search starts below the limit and
reports the magic at 512 MiB, an offset at the limit. -/
theorem elf_magic_at_limit_reported :
    (findStructures (List.replicate (512 * 1024 * 1024) 0 ++ Elf.elfMagic)).map
      (fun r => r.elfHeaders.map Prod.fst) = .ok [512 * 1024 * 1024] := by
  obtain ⟨r, hr, he⟩ := structureScan_elfHeaders (List.replicate (512 * 1024 * 1024) 0 ++ Elf.elfMagic)
  rw [List.length_append, List.length_replicate, Nat.min_eq_right (Nat.le_add_right _ _),
    elfScanFrom_zeros_magic (by decide), Except.ok.injEq] at he
  rw [findStructures_of_ne_nil (List.append_ne_nil_of_right_ne_nil _ (by decide)), hr]
  show Except.ok (r.elfHeaders.map Prod.fst) = _
  rw [← he]
  rfl

/-! ## The 70% test in doubles

`printable > len(chunk) * 0.7` multiplies by the double nearest `0.7`, which is
`0.7 - 0.4 / 2 ^ 53`, and rounds the product to the nearest double.  Away from
exactly 70% the error is far too small to change the comparison; at exactly 70%,
`7 j` printable bytes of `10 j`, the product is `7 j - 4 j / 2 ^ 53`, which rounds
below `7 j`, so that the chunk is reported, exactly when the spacing of the doubles
there is below `8 j`: when a power of two lies in `[7 j, 8 j)`.  So 63 printable bytes
of 90 are reported and 7 of 10 are not (`mostlyPrintable_iff`,
`findStructures_stringRegions`).  The tie only arises on a chunk cut short by the end
of the file, since 4096 is not a multiple of 10. -/

/-- The shares of printable bytes the string pass reports: more than 70%, or exactly
70% with a power of two in `[printable, 8 * printable / 7)`. -/
def ReportedShare (printable length : Nat) : Prop :=
  7 * length < 10 * printable ∨
    10 * printable = 7 * length ∧ ∃ e, printable ≤ 2 ^ e ∧ 7 * 2 ^ e < 8 * printable


/-- The spacing `2 ^ k` of the doubles at `m`, as `excessBits` finds it within enough
fuel: `m` is below `2 ^ k * 2 ^ 53`, and unless `k = 0` at least `2 ^ k * 2 ^ 52`. -/
theorem excessBits_bounds : ∀ fuel m, m < 2 ^ (53 + fuel) →
    m < 2 ^ excessBits fuel m * 2 ^ 53 ∧
      (excessBits fuel m = 0 ∨ 2 ^ excessBits fuel m * 2 ^ 52 ≤ m)
  | 0, m, h => ⟨by rw [excessBits, Nat.pow_zero, Nat.one_mul]; exact h, .inl rfl⟩
  | fuel + 1, m, h => by
    rw [excessBits]
    split
    · exact ⟨by simpa, .inl rfl⟩
    · rename_i hm
      obtain ⟨h₁, h₂⟩ := excessBits_bounds fuel (m / 2)
        (by rw [Nat.div_lt_iff_lt_mul Nat.zero_lt_two, ← Nat.pow_succ]; exact h)
      have hsucc : 2 ^ (excessBits fuel (m / 2) + 1) = 2 ^ excessBits fuel (m / 2) * 2 :=
        Nat.pow_succ _ _
      rw [hsucc]
      refine ⟨by omega, .inr ?_⟩
      rcases h₂ with h₂ | h₂
      · rw [h₂]; omega
      · omega

theorem excessBits_self (m : Nat) :
    m < 2 ^ excessBits m m * 2 ^ 53 ∧ (excessBits m m = 0 ∨ 2 ^ excessBits m m * 2 ^ 52 ≤ m) :=
  excessBits_bounds m m ((Nat.lt_two_pow m).trans_le (Nat.pow_le_pow_right Nat.zero_lt_two (by omega)))

/-- `roundSig53 m` is at most half a spacing from `m`. -/
theorem roundSig53_near (m : Nat) :
    2 * m ≤ 2 * roundSig53 m + 2 ^ excessBits m m ∧
      2 * roundSig53 m ≤ 2 * m + 2 ^ excessBits m m := by
  have hdm := Nat.div_add_mod m (2 ^ excessBits m m)
  have hr := Nat.mod_lt m (Nat.two_pow_pos (excessBits m m))
  simp only [roundSig53]
  generalize 2 ^ excessBits m m = t at hdm hr ⊢
  generalize m / t = q at hdm ⊢
  generalize m % t = r at hdm hr ⊢
  rw [Nat.mul_comm] at hdm
  split
  · rw [Nat.add_mul, Nat.one_mul]; omega
  · omega

/-- Rounding just below a multiple `Q * 2 ^ k` of the spacing: up to it when `m` is
within half a spacing of it, the tie going to an even quotient. -/
theorem roundSig53_below {m d Q : Nat} (hm : m + d = Q * 2 ^ excessBits m m) (hd : 0 < d)
    (hdt : d ≤ 2 ^ excessBits m m) :
    roundSig53 m =
      if 2 * d < 2 ^ excessBits m m ∨ (2 * d = 2 ^ excessBits m m ∧ Q % 2 = 0) then
        Q * 2 ^ excessBits m m
      else (Q - 1) * 2 ^ excessBits m m := by
  simp only [roundSig53]
  generalize 2 ^ excessBits m m = t at hm hdt ⊢
  have hQ : 0 < Q := Nat.pos_of_ne_zero fun h => by simp [h] at hm; omega
  have hmul : t * (Q - 1) = Q * t - t := by rw [Nat.mul_sub_one, Nat.mul_comm]
  have hsplit : t - d + t * (Q - 1) = m := by have := Nat.le_mul_of_pos_left t hQ; omega
  obtain ⟨hq, hr⟩ := (@Nat.div_mod_unique m t (t - d) (Q - 1) (by omega)).mpr ⟨hsplit, by omega⟩
  have hc : (t < 2 * (t - d) ∨ 2 * (t - d) = t ∧ (Q - 1) % 2 = 1) ↔
      (2 * d < t ∨ 2 * d = t ∧ Q % 2 = 0) := by
    omega
  rw [hq, hr, Nat.sub_add_cancel hQ, ite_mul, if_congr hc rfl rfl]

/-- The product `length * 0.7` in doubles: the double `0.7` is `(7 * 2 ^ 53 - 4) / 10`
over `2 ^ 53`, and rounding moves the product by less than `1.4 * length / 2 ^ 53`. -/
theorem roundSig53_seven_tenths (length : Nat) :
    7 * length * 2 ^ 53 ≤ 10 * roundSig53 (length * 0x16666666666666) + 11 * length ∧
      10 * roundSig53 (length * 0x16666666666666) ≤ 7 * length * 2 ^ 53 + 3 * length := by
  obtain ⟨hlo, hhi⟩ := roundSig53_near (length * 0x16666666666666)
  rcases (excessBits_self (length * 0x16666666666666)).2 with hk | hk
  · simp only [hk, Nat.pow_zero] at hlo hhi; omega
  · generalize 2 ^ excessBits _ _ = t at hlo hhi hk; omega

/-- When `2 ^ k` lies in `[7 j, 14 j)`, it is below `8 j` exactly when some power of
two lies in `[7 j, 8 j)`. -/
theorem pow_lt_iff_exists_window {j k : Nat} (h₁ : 7 * j ≤ 2 ^ k) (h₂ : 2 ^ k < 14 * j) :
    2 ^ k < 8 * j ↔ ∃ e, 7 * j ≤ 2 ^ e ∧ 2 ^ e < 8 * j := by
  refine ⟨fun h => ⟨k, h₁, h⟩, fun ⟨e, he₁, he₂⟩ => ?_⟩
  rcases Nat.lt_trichotomy e k with hek | rfl | hek
  · have := Nat.pow_le_pow_right Nat.zero_lt_two hek
    rw [Nat.pow_succ] at this; omega
  · exact he₂
  · have := Nat.pow_le_pow_right Nat.zero_lt_two hek
    rw [Nat.pow_succ] at this; omega

/-- At exactly 70%, `7 j` printable bytes of `10 j`, the product is `7 j - 4 j / 2 ^ 53`,
rounded up to `7 j` unless the spacing of the doubles there is below `8 j`. -/
theorem mostlyPrintable_seventy {j : Nat} (h : 10 * j < 2 ^ 49) :
    mostlyPrintable (7 * j) (10 * j) = true ↔ ∃ e, 7 * j ≤ 2 ^ e ∧ 2 ^ e < 8 * j := by
  rw [mostlyPrintable, decide_eq_true_iff]
  generalize hm : 10 * j * 0x16666666666666 = m
  obtain ⟨hlo, hhi⟩ := excessBits_self m
  rcases Nat.eq_zero_or_pos j with rfl | hj
  · subst hm; simp [roundSig53, excessBits]
  have ht := hhi.resolve_left fun h0 => by rw [h0] at hlo; omega
  have h7 : 7 * j ≤ 2 ^ excessBits m m := by omega
  have h14 : 2 ^ excessBits m m < 14 * j := by omega
  have hk53 : excessBits m m ≤ 53 := Nat.le_of_not_lt fun hk => by
    have := Nat.pow_le_pow_right Nat.zero_lt_two hk; omega
  obtain ⟨Q, hQt⟩ : ∃ Q, Q * 2 ^ excessBits m m = 7 * j * 2 ^ 53 :=
    ⟨7 * j * 2 ^ (53 - excessBits m m), by rw [Nat.mul_assoc, ← Nat.pow_add, Nat.sub_add_cancel hk53]⟩
  rw [roundSig53_below (d := 4 * j) (Q := Q) (by omega) (by omega) (by omega),
    ← pow_lt_iff_exists_window h7 h14]
  generalize 2 ^ excessBits m m = t at hQt h7 h14 ⊢
  have hQeven : t = 8 * j → Q % 2 = 0 := fun h8 => by
    subst h8
    have h50 : Q * (8 * j) = 7 * 2 ^ 50 * (8 * j) := by rw [hQt]; omega
    have := Nat.eq_of_mul_eq_mul_right (by omega) h50
    omega
  split_ifs with hup
  · rw [hQt]; exact iff_of_false (lt_irrefl _) (by omega)
  · have hQ : 0 < Q := Nat.pos_of_ne_zero fun h0 => by simp [h0] at hQt; omega
    refine iff_of_true ?_ (by omega)
    calc (Q - 1) * t < Q * t := Nat.mul_lt_mul_of_pos_right (by omega) (by omega)
      _ = 7 * j * 2 ^ 53 := hQt

/-- The string pass's test `printable > len(chunk) * 0.7`, for any chunk shorter than
`2 ^ 49` bytes. -/
theorem mostlyPrintable_iff {printable length : Nat} (h : length < 2 ^ 49) :
    mostlyPrintable printable length = true ↔ ReportedShare printable length := by
  unfold ReportedShare
  have hround := roundSig53_seven_tenths length
  rcases Nat.lt_trichotomy (7 * length) (10 * printable) with hlt | heq | hgt
  · refine iff_of_true ?_ (.inl hlt)
    rw [mostlyPrintable, decide_eq_true_iff]
    omega
  · obtain ⟨j, rfl, rfl⟩ : ∃ j, printable = 7 * j ∧ length = 10 * j :=
      ⟨printable / 7, by omega, by omega⟩
    rw [mostlyPrintable_seventy h, or_iff_right (by omega), and_iff_right (by omega)]
    exact exists_congr fun e => by omega
  · refine iff_of_false ?_ (by omega)
    rw [mostlyPrintable, decide_eq_true_iff]
    omega

theorem toOption_join_eq_some {β : Type} {x : Except PyError (Option β)} {b : β} :
    x.toOption.join = some b ↔ x = .ok (some b) := by
  rcases x with e | _ | b' <;> simp [Except.toOption]

/-- A pass whose body never raises prints the findings of its offsets, in order. -/
theorem scanLoop_eq_filterMap {β : Type} {body : Nat → Except PyError (Option β)} {offsets : List Nat}
    (h : ∀ offset ∈ offsets, ∃ r, body offset = .ok r) :
    scanLoop body offsets = .ok (offsets.filterMap fun offset => (body offset).toOption.join) := by
  have hfold : ∀ (found : List β) (os : List Nat),
      os.foldl (fun found o => found ++ ((body o).toOption.join).toList) found =
        found ++ os.filterMap fun offset => (body offset).toOption.join := by
    intro found os
    induction os generalizing found with
    | nil => simp
    | cons o os ih => rw [List.foldl_cons, ih, List.filterMap_cons]; cases (body o).toOption.join <;> simp
  rw [scanLoop, foldlM_except_eq (g := fun found o => found ++ ((body o).toOption.join).toList)
    (fun o ho found => by
      obtain ⟨r, hr⟩ := h o ho
      show _ = .ok (found ++ ((body o).toOption.join).toList)
      rw [hr]; cases r <;> rfl), hfold, List.nil_append]

theorem offset_of_stringStep {mm : List UInt8} {offset : Nat} {s : StringRegion}
    (h : stringStep mm offset = .ok (some s)) : s.offset = offset := by
  rw [stringStep] at h
  split at h <;> cases h
  rfl

theorem stringStep_reports (mm : List UInt8) (offset : Nat) :
    (∃ s, stringStep mm offset = .ok (some s)) ↔
      ReportedShare ((readAt mm offset 4096).filter isPrintable).length (readAt mm offset 4096).length := by
  have hlen : (readAt mm offset 4096).length < 2 ^ 49 := by
    simp only [readAt, length_getSlice]; omega
  rw [← mostlyPrintable_iff hlen, stringStep]
  split <;> simp [pure, Except.pure, *]

/-- **The string regions `find_structures` prints.**  On every nonempty file, the
scan returns, and the string regions it prints are at exactly those offsets of its
4 MiB steps below `min(file_size, 256 MiB)` whose chunk of up to 4096 bytes has a
reported share of printable bytes: more than 70%, or exactly 70% where the rounded
product `len(chunk) * 0.7` falls below the count. -/
theorem findStructures_stringRegions (mm : List UInt8) (h : mm ≠ []) :
    ∃ r, findStructures mm = .ok r ∧ ∀ offset,
      offset ∈ r.stringRegions.map StringRegion.offset ↔
        offset ∈ range 0 (min mm.length (256 * 1024 * 1024)) (4 * 1024 * 1024) ∧
          ReportedShare ((readAt mm offset 4096).filter isPrintable).length
            (readAt mm offset 4096).length := by
  obtain ⟨stackRegions, h₁⟩ := @scanLoop_ok _ (stackStep mm)
    (range 0 (min mm.length (256 * 1024 * 1024)) (1024 * 1024)) fun offset _ => stackStep_ok mm offset
  have h₂ := @scanLoop_eq_filterMap _ (stringStep mm)
    (range 0 (min mm.length (256 * 1024 * 1024)) (4 * 1024 * 1024)) fun offset _ => stringStep_ok mm offset
  obtain ⟨pageTables, h₃⟩ := @scanLoop_ok _ (pageTableStep mm)
    (range 0 (min mm.length (256 * 1024 * 1024)) (2 * 1024 * 1024))
    fun offset _ => pageTableStep_ok mm offset
  obtain ⟨reports, -, h₄, -⟩ := elfScanFrom_offsets mm (min mm.length (512 * 1024 * 1024)) 0
  refine ⟨⟨stackRegions, _, pageTables, reports⟩,
    by simp only [findStructures_of_ne_nil h, structureScan, h₁, h₂, h₃, h₄]; rfl, fun offset => ?_⟩
  simp only [List.mem_map, List.mem_filterMap, toOption_join_eq_some, ← stringStep_reports]
  constructor
  · rintro ⟨s, ⟨o, ho, hs⟩, rfl⟩
    rw [offset_of_stringStep hs]
    exact ⟨ho, s, hs⟩
  · rintro ⟨ho, s, hs⟩
    exact ⟨s, ⟨offset, ho, hs⟩, offset_of_stringStep hs⟩

/-- Ten bytes of `A`: a nonempty file, whose one chunk the string pass reads. -/
theorem findStructures_stringRegions_text :
    List.replicate 10 (65 : UInt8) ≠ [] ∧
      ∃ r, findStructures (List.replicate 10 65) = .ok r ∧ ∀ offset,
        offset ∈ r.stringRegions.map StringRegion.offset ↔
          offset ∈ range 0 (min (List.replicate 10 (65 : UInt8)).length (256 * 1024 * 1024))
              (4 * 1024 * 1024) ∧
            ReportedShare ((readAt (List.replicate 10 65) offset 4096).filter isPrintable).length
              (readAt (List.replicate 10 65) offset 4096).length :=
  ⟨by decide, findStructures_stringRegions _ (by decide)⟩

end Haywire.MemoryStructures
