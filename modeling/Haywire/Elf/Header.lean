import Haywire.Py.Struct

/-!
# The ELF header decoder of `find_elf_sections`

For each address of its scan, `find_elf_headers` reads 64 bytes and decodes

```
if data[:4] == elf_magic:
    if len(data) >= 52:
        ei_class = data[4]  # 1=32-bit, 2=64-bit
        ei_data = data[5]   # 1=little, 2=big endian
        if ei_class == 2:  # 64-bit
            e_type = struct.unpack('<H', data[16:18])[0]
            ...
```

`decodeElfHeader` is that decision: the fields, or `none` for a buffer it does not
decode.  `ei_data` is read and never tested, so a big-endian header is decoded
with the little-endian formats (`decodeElfHeader_eq_some_iff`,
`big_endian_header_decoded`).
-/

namespace Haywire.Elf

open Py

/-- `b'\x7fELF'`. -/
def elfMagic : List UInt8 := [0x7f, 0x45, 0x4c, 0x46]

/-- The fields `find_elf_headers` decodes from a 64-bit header. -/
structure ElfHeader where
  /-- `e_type`, at offset 16. -/
  eType : Nat
  /-- `e_machine`, at offset 18. -/
  eMachine : Nat
  /-- `e_entry`, at offset 24. -/
  eEntry : Nat
  /-- `e_phoff`, at offset 32. -/
  ePhoff : Nat
  /-- `e_shoff`, at offset 40. -/
  eShoff : Nat
deriving DecidableEq, Repr

/-- The header decode of `find_elf_headers` on the bytes read at one address: the
fields of a 64-bit header, `none` when a test fails, or the exception raised. -/
def decodeElfHeader (data : List UInt8) : Except PyError (Option ElfHeader) :=
  if data.take 4 = elfMagic then
    if 52 ≤ data.length then do
      let eiClass ← getItem data 4
      let _eiData ← getItem data 5
      if eiClass = 2 then do
        let eType ← unpackLE 2 (getSlice data 16 18)
        let eMachine ← unpackLE 2 (getSlice data 18 20)
        let eEntry ← unpackLE 8 (getSlice data 24 32)
        let ePhoff ← unpackLE 8 (getSlice data 32 40)
        let eShoff ← unpackLE 8 (getSlice data 40 48)
        pure (some ⟨eType, eMachine, eEntry, ePhoff, eShoff⟩)
      else pure none
    else pure none
  else pure none

/-- The fields of a buffer long enough for the header, read little-endian. -/
def headerFields (data : List UInt8) : ElfHeader :=
  ⟨leValue (getSlice data 16 18), leValue (getSlice data 18 20), leValue (getSlice data 24 32),
    leValue (getSlice data 32 40), leValue (getSlice data 40 48)⟩

/-- **What the header decoder accepts.**  On every buffer it never raises, and it
decodes exactly the buffers with the magic, at least 52 bytes and class 2, whatever
their data-encoding byte, reading the fields little-endian. -/
theorem decodeElfHeader_eq (data : List UInt8) :
    decodeElfHeader data =
      .ok (if data.take 4 = elfMagic ∧ 52 ≤ data.length ∧ data[4]? = some 2 then
        some (headerFields data) else none) := by
  unfold decodeElfHeader
  by_cases hm : data.take 4 = elfMagic
  · by_cases hl : 52 ≤ data.length
    · have h4 : getItem data 4 = .ok data[4] := getItem_of_lt (by omega)
      have h5 : getItem data 5 = .ok data[5] := getItem_of_lt (by omega)
      have hw : ∀ a w, a + w ≤ 52 → (getSlice data a (a + w)).length = w := fun a w h => by
        simp only [length_getSlice]; omega
      rw [if_pos hm, if_pos hl, h4, h5, List.getElem?_eq_getElem (by omega)]
      by_cases hc : data[4] = 2
      · simp only [hc, headerFields, unpackLE_of_length (hw 16 2 (by omega)),
          unpackLE_of_length (hw 18 2 (by omega)), unpackLE_of_length (hw 24 8 (by omega)),
          unpackLE_of_length (hw 32 8 (by omega)), unpackLE_of_length (hw 40 8 (by omega))]
        simp only [hm, hl, true_and, if_true]
        rfl
      · simp only [bind, Except.bind, hc, if_false, Option.some.injEq, hm, hl, true_and]
        rfl
    · simp [hm, hl, pure, Except.pure]
  · simp [hm, pure, Except.pure]

/-- The decoder yields a header exactly for the magic, 52 bytes and class 2. -/
theorem decodeElfHeader_eq_some_iff (data : List UInt8) (h : ElfHeader) :
    decodeElfHeader data = .ok (some h) ↔
      (data.take 4 = elfMagic ∧ 52 ≤ data.length ∧ data[4]? = some 2) ∧ h = headerFields data := by
  rw [decodeElfHeader_eq]
  split <;> simp_all [eq_comm]

/-! ## Encoding a header -/

/-- A 64-bit little-endian header laid out by its specification: the magic, class 2,
data 1, ten more identification bytes, `e_type` and `e_machine` at 16 and 18, four
bytes of `e_version`, `e_entry`, `e_phoff` and `e_shoff` at 24, 32 and 40, and
anything after. -/
def encodeHeader (h : ElfHeader) (ident version tail : List UInt8) : List UInt8 :=
  elfMagic ++ 2 :: 1 :: (ident ++ (packLE 2 h.eType ++ (packLE 2 h.eMachine ++ (version ++
    (packLE 8 h.eEntry ++ (packLE 8 h.ePhoff ++ (packLE 8 h.eShoff ++ tail)))))))

@[simp] theorem length_encodeHeader (h : ElfHeader) (ident version tail : List UInt8) :
    (encodeHeader h ident version tail).length = 34 + ident.length + version.length + tail.length := by
  simp only [encodeHeader, elfMagic, List.length_append, List.length_cons, length_packLE,
    List.length_nil]
  omega

/-- Decoding reads back the fields that were encoded. -/
theorem headerFields_encodeHeader (h : ElfHeader) {ident version : List UInt8}
    (hident : ident.length = 10) (hversion : version.length = 4) (tail : List UInt8)
    (hh : h.eType < 2 ^ 16 ∧ h.eMachine < 2 ^ 16 ∧ h.eEntry < 2 ^ 64 ∧ h.ePhoff < 2 ^ 64 ∧
      h.eShoff < 2 ^ 64) :
    headerFields (encodeHeader h ident version tail) = h := by
  have p16 : (2 : Nat) ^ 16 = 256 ^ 2 := by decide
  have p64 : (2 : Nat) ^ 64 = 256 ^ 8 := by decide
  obtain ⟨h1, h2, h3, h4, h5⟩ := hh
  rw [p16] at h1 h2
  rw [p64] at h3 h4 h5
  simp [headerFields, encodeHeader, elfMagic, getSlice, hident, hversion,
    List.drop_append_eq_append_drop, List.take_append_eq_append_take, List.drop_eq_nil_of_le,
    leValue_packLE h1, leValue_packLE h2, leValue_packLE h3, leValue_packLE h4, leValue_packLE h5]

/-- An encoded header of at least 52 bytes decodes to its fields. -/
theorem decodeElfHeader_encodeHeader (h : ElfHeader) {ident version tail : List UInt8}
    (hident : ident.length = 10) (hversion : version.length = 4) (htail : 4 ≤ tail.length)
    (hh : h.eType < 2 ^ 16 ∧ h.eMachine < 2 ^ 16 ∧ h.eEntry < 2 ^ 64 ∧ h.ePhoff < 2 ^ 64 ∧
      h.eShoff < 2 ^ 64) :
    decodeElfHeader (encodeHeader h ident version tail) = .ok (some h) := by
  have hlen : 52 ≤ (encodeHeader h ident version tail).length := by
    rw [length_encodeHeader]; omega
  rw [decodeElfHeader_eq, if_pos ⟨by simp [encodeHeader, elfMagic], hlen, by simp [encodeHeader, elfMagic]⟩,
    headerFields_encodeHeader h hident hversion tail hh]

/-- The 64 bytes `7f 45 4c 46 02 02` and zeros, a big-endian 64-bit header: decoded
all the same, as a record read little-endian. -/
theorem big_endian_header_decoded :
    decodeElfHeader (elfMagic ++ [2, 2] ++ List.replicate 58 0) = .ok (some ⟨0, 0, 0, 0, 0⟩) := by
  decide

end Haywire.Elf
