import Haywire.Py.Str

/-!
# The monitor-reply tokenizer, in its four copies

Four scripts read memory through the text monitor and parse its reply with the
same nested loop:

```
for line in response.split('\n'):
    if '0x' in line and ':' in line:          # `':' in line` in find_elf_sections
        parts = line.split(':')
        if len(parts) > 1:
            hex_part = parts[1].strip()
            for hex_str in hex_part.split():
                if hex_str.startswith('0x'):
                    try: <append int(hex_str, 16)> except: pass
```

The copies differ in three places, which `Tokenizer` records: whether the line
test asks for `'0x'`, whether the values go into a `bytearray` (whose `append`
raises `ValueError` above 255, caught by the `except`), and whether the token
loop breaks once `bytes_read >= size` (the two chunked readers).  `replyValues`
is the loop without the break; `takeReply` is the loop with it.

`replyValues_eq` says which values a reply yields, through the grammar of
`int(tok, 16)` (`Py.intHex_hex`): every token `0x s` with `s` a `HexLiteral`, of
any length, with underscores, and with the decimal digits of any script read by
their value, not only the two-digit bytes a monitor prints.
-/

namespace Haywire.Monitor

open Py

/-- What the copies of the reply parser differ in. -/
structure Tokenizer where
  /-- The line test is `'0x' in line and ':' in line`, not only `':' in line`. -/
  needsHexMark : Bool
  /-- The values go into a `bytearray`, whose `append` rejects values above 255. -/
  intoBytes : Bool
deriving DecidableEq, Repr

namespace Tokenizer

/-- `display_memory.read_memory_region`: values into a list. -/
def displayMemory : Tokenizer := ⟨true, false⟩

/-- `find_elf_sections.read_memory`: only `':' in line`, values into a `bytearray`. -/
def findElfSections : Tokenizer := ⟨false, true⟩

/-- `find_video_memory.read_memory`. -/
def findVideoMemory : Tokenizer := ⟨true, false⟩

/-- `scan_for_video.read_memory_sample`. -/
def scanForVideo : Tokenizer := ⟨true, false⟩

end Tokenizer

variable (tz : Tokenizer)

/-- The tokens of one line: for a line that passes the copy's test, the words of
`parts[1].strip()` where `parts = line.split(':')`, so the text between the first
and the second colon. -/
def lineTokens (line : List Char) : List (List Char) :=
  if (tz.needsHexMark = true → contains ['0', 'x'] line = true) ∧ ':' ∈ line then
    match line.splitOn ':' with
    | _ :: part :: _ => words (strip part)
    | _ => []
  else []

/-- What becomes of one token: `startswith('0x')`, then `int(hex_str, 16)`, then for a
`bytearray` the range check of `append`.  `none` is a token skipped, by the `if` or
through the `except`. -/
def acceptToken (tok : List Char) : Option Nat :=
  if ['0', 'x'].isPrefixOf tok then
    match intHex tok with
    | some v => if tz.intoBytes = true ∧ 256 ≤ v then none else some v
    | none => none
  else none

/-- The values a reply yields, in order, when nothing breaks the loop: the whole
parse of `find_video_memory.read_memory` and `scan_for_video.read_memory_sample`. -/
def replyValues (response : List Char) : List Nat :=
  (response.splitOn '\n').flatMap fun line => (lineTokens tz line).filterMap (acceptToken tz)

/-- The token loop of one line in the chunked readers: `acc` is `all_bytes` (or
`data`), whose length is `bytes_read` (or `offset`), and the loop breaks after the
token that brings it to `size`. -/
def takeTokens (size : Nat) : List (List Char) → List Nat → List Nat
  | [], acc => acc
  | tok :: toks, acc =>
    match acceptToken tz tok with
    | none => takeTokens size toks acc
    | some v => if size ≤ acc.length + 1 then acc ++ [v] else takeTokens size toks (acc ++ [v])

/-- The line loop of the chunked readers over one reply.  The `break` leaves only
the token loop, so every later line is still read. -/
def takeReply (size : Nat) (response : List Char) (acc : List Nat) : List Nat :=
  (response.splitOn '\n').foldl (fun acc line => takeTokens tz size (lineTokens tz line) acc) acc

/-! ## The grammar the copies accept -/

/-- A token is kept exactly when it is `0x` and a hex literal, with its value, and
(into a `bytearray`) only below 256. -/
theorem acceptToken_eq (tok : List Char) :
    acceptToken tz tok = match tok with
      | '0' :: 'x' :: s =>
        if HexLiteral s ∧ (tz.intoBytes = true → hexValue s < 256) then some (hexValue s)
        else none
      | _ => none := by
  by_cases hp : ∃ s, tok = '0' :: 'x' :: s
  · obtain ⟨s, rfl⟩ := hp
    simp only [acceptToken, List.isPrefixOf, beq_self_eq_true, Bool.and_self, if_true, intHex_hex]
    by_cases h : HexLiteral s <;> by_cases hb : tz.intoBytes = true <;>
      by_cases hv : hexValue s < 256 <;> simp [h, hb, hv, Nat.not_le.mpr, Nat.le_of_not_lt]
  · have h1 : ['0', 'x'].isPrefixOf tok = false := by
      rw [Bool.eq_false_iff]
      intro h
      obtain ⟨t, ht⟩ := List.isPrefixOf_iff_prefix.mp h
      exact hp ⟨t, ht.symm⟩
    simp only [acceptToken, h1, Bool.false_eq_true, if_false]
    split
    · exact absurd ⟨_, rfl⟩ hp
    · rfl

/-- **What every copy of the tokenizer yields.**  For every reply, the values, in
order, are those of the tokens `0x s` of each line's value field (the text between
its first and second colon, for a line passing the copy's test) with `s` a hex
literal in the sense of `int(_, 16)`, underscores, leading zeros and the decimal
digits of every script allowed, and, for the `bytearray` of `find_elf_sections`, only
those below 256.  Nothing raises. -/
theorem replyValues_eq (response : List Char) :
    replyValues tz response = ((response.splitOn '\n').flatMap (lineTokens tz)).filterMap
      fun tok => match tok with
        | '0' :: 'x' :: s =>
          if HexLiteral s ∧ (tz.intoBytes = true → hexValue s < 256) then some (hexValue s)
          else none
        | _ => none := by
  simp only [replyValues, List.filterMap_flatMap]
  congr 1
  funext line
  congr 1
  funext tok
  exact acceptToken_eq tz tok

/-- Three tokens that are no hex byte are read as values, `0x1ff` as 511 by the
copies that keep a list, and the token after the second colon is never read. -/
theorem replyValues_wide_tokens :
    replyValues Tokenizer.displayMemory "0: 0x00f 0x_f 0x1ff: 0x02".toList = [15, 15, 511] ∧
      replyValues Tokenizer.findElfSections "0: 0x00f 0x_f 0x1ff: 0x02".toList = [15, 15] := by
  decide

/-! ## The break of the chunked readers -/

/-- Below the cap, the token loop keeps every accepted token. -/
theorem takeTokens_eq (size : Nat) (toks : List (List Char)) (acc : List Nat)
    (h : acc.length + (toks.filterMap (acceptToken tz)).length ≤ size) :
    takeTokens tz size toks acc = acc ++ toks.filterMap (acceptToken tz) := by
  induction toks generalizing acc with
  | nil => simp [takeTokens]
  | cons tok toks ih =>
    cases hv : acceptToken tz tok with
    | none =>
      simp only [List.filterMap_cons, hv, takeTokens] at h ⊢
      exact ih acc h
    | some v =>
      simp only [List.filterMap_cons, hv, List.length_cons] at h ⊢
      simp only [takeTokens, hv]
      split
      · have : (toks.filterMap (acceptToken tz)) = [] := List.eq_nil_of_length_eq_zero (by omega)
        simp [this]
      · rw [ih (acc ++ [v]) (by simp only [List.length_append, List.length_singleton]; omega)]
        simp

/-- Below the cap, the chunked readers keep every value of the reply. -/
theorem takeReply_eq (size : Nat) (response : List Char) (acc : List Nat)
    (h : acc.length + (replyValues tz response).length ≤ size) :
    takeReply tz size response acc = acc ++ replyValues tz response := by
  unfold takeReply replyValues at *
  generalize response.splitOn '\n' = lines at h ⊢
  induction lines generalizing acc with
  | nil => simp
  | cons line lines ih =>
    simp only [List.foldl_cons, List.flatMap_cons, List.length_append] at h ⊢
    rw [takeTokens_eq tz size _ acc (by omega), ih _ (by simp only [List.length_append]; omega),
      List.append_assoc]

end Haywire.Monitor
