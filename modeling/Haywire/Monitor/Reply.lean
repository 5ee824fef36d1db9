import Haywire.Monitor.Tokenizer
import Mathlib.Data.Nat.Digits

/-!
# What the monitor sends back

QEMU's human monitor answers `xp/<count>xb 0x<address>` with lines of text.  Some
carry no colon (the echoed command, the `(qemu) ` prompt); the others are rows
`<address>: 0x.. 0x..`, which list the requested bytes in order, as many to a
row as the monitor likes, and may end in whitespace: the monitor ends its lines
with `\r\n`, and the split on `\n` leaves the `\r` on the row.  `ListsBytes bytes
text` says that `text` is such a reply for `bytes`, and `replyValues_of_listsBytes`
is the round trip the readers depend on: every copy of the tokenizer reads exactly
`bytes` back from it.

The last section is a reference monitor, `qemuReply`, which parses the command the
readers send and dumps guest memory in rows of a fixed width, each line ended by
`\r\n`; it answers every such command with a reply in the sense of `ListsBytes`,
and at eight bytes to a row its answer to a request of up to 512 bytes fits one
`recv(8192)` (`length_qemuReply_le`).
-/

namespace Haywire.Monitor

open Py

/-- Guest-physical memory, byte by address. -/
abbrev Memory := Nat → UInt8

/-- `M[a..a+n)`. -/
def memSlice (M : Memory) (a n : Nat) : List UInt8 := (List.range n).map fun i => M (a + i)

@[simp] theorem length_memSlice (M : Memory) (a n : Nat) : (memSlice M a n).length = n := by
  simp [memSlice]

theorem memSlice_add (M : Memory) (a m n : Nat) :
    memSlice M a (m + n) = memSlice M a m ++ memSlice M (a + m) n := by
  simp [memSlice, List.range_add, Nat.add_assoc]

/-- The command the chunked readers send: `f"xp/{chunk_size}xb 0x{address:x}\n"`. -/
def xpCommand (count address : Nat) : List Char :=
  ['x', 'p', '/'] ++ Nat.toDigits 10 count ++ ['x', 'b', ' ', '0', 'x'] ++ Nat.toDigits 16 address ++
    ['\n']

/-- A byte as the monitor prints it, `0x%02x`. -/
def hexByte (b : UInt8) : List Char :=
  ['0', 'x', Nat.digitChar (b.toNat / 16), Nat.digitChar (b.toNat % 16)]

/-- A row of an `xp` reply: the address column, a colon, then ` 0x..` for each byte. -/
def row (addr : List Char) (bytes : List UInt8) : List Char :=
  addr ++ ':' :: bytes.flatMap fun b => ' ' :: hexByte b

/-- The lines of a reply listing `bytes`: lines without a colon, and rows whose
bytes, in order, make up `bytes`. -/
inductive ReplyLines : List (List Char) → List UInt8 → Prop
  | nil : ReplyLines [] []
  /-- A line with no colon: the echo, the prompt, a blank line. -/
  | plain {l : List Char} {ls : List (List Char)} {bs : List UInt8} :
      ':' ∉ l → '\n' ∉ l → ReplyLines ls bs → ReplyLines (l :: ls) bs
  /-- A row, whose address column holds no colon, and whitespace after it, such as
  the `\r` of a line end. -/
  | bytesRow {addr : List Char} {vals : List UInt8} {tail : List Char} {ls : List (List Char)}
      {bs : List UInt8} : ':' ∉ addr → '\n' ∉ addr → (∀ c ∈ tail, isSpace c ∧ c ≠ '\n') →
      ReplyLines ls bs → ReplyLines ((row addr vals ++ tail) :: ls) (vals ++ bs)

/-- `text` is a monitor reply that lists `bytes`. -/
def ListsBytes (bytes : List UInt8) (text : List Char) : Prop :=
  ∃ lines, text = ['\n'].intercalate lines ∧ ReplyLines lines bytes

/-! ## Reading a reply back -/

/-- The characters the monitor prints for a digit. -/
theorem digitChar_facts : ∀ d : Fin 16,
    hexDigitValue (Nat.digitChar d) = some d.val ∧ isSpace (Nat.digitChar d) = false ∧
      Nat.digitChar d ≠ ':' ∧ Nat.digitChar d ≠ '\n' ∧ Nat.digitChar d ≠ '_' := by
  decide

theorem intHex_hexByte (b : UInt8) : intHex (hexByte b) = some b.toNat := by
  have hb : b.toNat < 256 := b.toNat_lt_size
  obtain ⟨h1, -, -, -, u1⟩ := digitChar_facts ⟨b.toNat / 16, by omega⟩
  obtain ⟨h2, -, -, -, u2⟩ := digitChar_facts ⟨b.toNat % 16, by omega⟩
  simp only at h1 h2 u1 u2
  have ha : ∀ d : Fin 16, asciiDigit (Nat.digitChar d) = Nat.digitChar d := fun d =>
    asciiDigit_of_lt (Nat.lt_of_le_of_lt (toNat_of_hexDigitValue (digitChar_facts d).1).2 (by decide))
  have a1 := ha ⟨b.toNat / 16, by omega⟩
  have a2 := ha ⟨b.toNat % 16, by omega⟩
  simp only at a1 a2
  rw [hexByte, intHex, List.map_cons, List.map_cons, List.map_cons, List.map_cons, a1, a2,
    asciiDigit_of_lt (by decide : '0'.toNat < 128), asciiDigit_of_lt (by decide : 'x'.toNat < 128),
    List.map_nil, intHexAscii.eq_3 _ (by simp [u1]), hexBody, h1, Option.some_bind,
    hexTail.eq_3 _ _ _ (by simp [u2]), h2, Option.some_bind, hexTail]
  congr 1
  omega

theorem acceptToken_hexByte (tz : Tokenizer) (b : UInt8) :
    acceptToken tz (hexByte b) = some b.toNat := by
  have hb : b.toNat < 256 := b.toNat_lt_size
  simp only [acceptToken, hexByte, List.isPrefixOf, beq_self_eq_true, Bool.and_self, if_true]
  rw [← hexByte, intHex_hexByte]
  simp [show ¬ 256 ≤ b.toNat by omega]

theorem mem_hexByte {b : UInt8} {c : Char} (h : c ∈ hexByte b) :
    c ≠ ':' ∧ c ≠ '\n' ∧ isSpace c = false := by
  have hb : b.toNat < 256 := b.toNat_lt_size
  obtain ⟨-, s1, c1, n1, -⟩ := digitChar_facts ⟨b.toNat / 16, by omega⟩
  obtain ⟨-, s2, c2, n2, -⟩ := digitChar_facts ⟨b.toNat % 16, by omega⟩
  simp only [hexByte, List.mem_cons, List.not_mem_nil, or_false] at h
  rcases h with rfl | rfl | rfl | rfl
  · decide
  · decide
  · exact ⟨c1, n1, s1⟩
  · exact ⟨c2, n2, s2⟩

theorem not_mem_row_values {c : Char} (hc : c = ':' ∨ c = '\n') (bytes : List UInt8) :
    c ∉ bytes.flatMap fun b => ' ' :: hexByte b := by
  simp only [List.mem_flatMap, List.mem_cons, not_exists, not_and]
  intro b _ h
  rcases h with rfl | h
  · rcases hc with h | h <;> exact absurd h (by decide)
  · have := mem_hexByte h
    rcases hc with rfl | rfl <;> simp_all

/-- The tokens of a row are its bytes, printed, whatever whitespace ends it. -/
theorem lineTokens_row (tz : Tokenizer) {addr : List Char} (h : ':' ∉ addr)
    (bytes : List UInt8) {tail : List Char} (htail : ∀ c ∈ tail, isSpace c) :
    lineTokens tz (row addr bytes ++ tail) = bytes.map hexByte := by
  have hwords : words (strip ((bytes.flatMap fun b => ' ' :: hexByte b) ++ tail)) =
      bytes.map hexByte := by
    have : (bytes.flatMap fun b => ' ' :: hexByte b) = (bytes.map hexByte).flatMap (' ' :: ·) := by
      induction bytes <;> simp_all
    rw [words_strip, words, wordsFrom_append_spaces htail, ← words, this, words_flatMap_space]
    intro t ht
    obtain ⟨b, -, rfl⟩ := List.mem_map.mp ht
    exact ⟨by simp [hexByte], fun c hc => (mem_hexByte hc).2.2⟩
  have h1 : ∀ x ∈ addr, ¬ (x == ':') = true := fun x hx hb => h (by rwa [beq_iff_eq.mp hb] at hx)
  have h2 : ∀ x ∈ (bytes.flatMap fun b => ' ' :: hexByte b) ++ tail, ¬ (x == ':') = true := by
    intro x hx hb
    rw [beq_iff_eq.mp hb] at hx
    rcases List.mem_append.mp hx with hx | hx
    · exact not_mem_row_values (.inl rfl) bytes hx
    · exact absurd (htail _ hx) (by decide)
  have hsplit : (row addr bytes ++ tail).splitOn ':' =
      [addr, (bytes.flatMap fun b => ' ' :: hexByte b) ++ tail] := by
    rw [row, List.append_assoc, List.cons_append, List.splitOn,
      List.splitOnP_first (· == ':') addr h1 ':' (by simp), List.splitOnP_eq_single (· == ':') _ h2]
  rcases bytes with _ | ⟨b, bs⟩
  · unfold lineTokens
    split_ifs
    · rw [hsplit]; exact hwords
    · rfl
  · have hmark : contains ['0', 'x'] (row addr (b :: bs) ++ tail) = true := by
      have : row addr (b :: bs) ++ tail = (addr ++ [':', ' ']) ++ ['0', 'x'] ++
          (Nat.digitChar (b.toNat / 16) :: Nat.digitChar (b.toNat % 16) ::
            (bs.flatMap fun b => ' ' :: hexByte b) ++ tail) := by
        simp [row, hexByte]
      rw [this]
      exact contains_append _ _ _
    have hcolon : ':' ∈ row addr (b :: bs) ++ tail := by simp [row]
    rw [lineTokens, if_pos ⟨fun _ => hmark, hcolon⟩, hsplit]
    exact hwords

/-- Lines without a colon yield no token. -/
theorem lineTokens_plain (tz : Tokenizer) {l : List Char} (h : ':' ∉ l) : lineTokens tz l = [] := by
  simp [lineTokens, h]

theorem ReplyLines.no_newline {lines : List (List Char)} {bytes : List UInt8}
    (h : ReplyLines lines bytes) : ∀ l ∈ lines, '\n' ∉ l := by
  induction h with
  | nil => simp
  | plain _ hn _ ih => simpa [hn] using ih
  | bytesRow _ hn ht _ ih =>
    simp only [List.mem_cons, forall_eq_or_imp]
    refine ⟨?_, ih⟩
    simp only [row, List.mem_append, List.mem_cons, hn, false_or, not_or]
    exact ⟨⟨by decide, not_mem_row_values (.inr rfl) _⟩, fun h => (ht _ h).2 rfl⟩

theorem ReplyLines.values (tz : Tokenizer) {lines : List (List Char)} {bytes : List UInt8}
    (h : ReplyLines lines bytes) :
    lines.flatMap (fun l => (lineTokens tz l).filterMap (acceptToken tz)) = bytes.map UInt8.toNat := by
  induction h with
  | nil => rfl
  | plain hc _ _ ih => simp [lineTokens_plain tz hc, ih]
  | bytesRow hc _ ht _ ih =>
    have : acceptToken tz ∘ hexByte = some ∘ UInt8.toNat := funext (acceptToken_hexByte tz)
    simp [lineTokens_row tz hc _ fun c hc => (ht c hc).1, ih, List.filterMap_map, this,
      List.filterMap_eq_map]

/-- **The tokenizer round trip.**  Every copy of the tokenizer reads back from a
reply exactly the bytes it lists, whatever its plain lines and however its bytes
are spread over rows. -/
theorem replyValues_of_listsBytes (tz : Tokenizer) {bytes : List UInt8} {text : List Char}
    (h : ListsBytes bytes text) : replyValues tz text = bytes.map UInt8.toNat := by
  obtain ⟨lines, rfl, hl⟩ := h
  rcases lines with _ | ⟨l, ls⟩
  · cases hl
    show replyValues tz [] = []
    simp [replyValues, lineTokens]
  · rw [replyValues, List.splitOn_intercalate _ '\n' hl.no_newline (List.cons_ne_nil l ls)]
    exact hl.values tz

/-- A reply that lists a byte is not empty. -/
theorem ListsBytes.ne_nil {bytes : List UInt8} {text : List Char} (h : ListsBytes bytes text)
    (hb : bytes ≠ []) : text ≠ [] := by
  rintro rfl
  have hv := replyValues_of_listsBytes Tokenizer.displayMemory h
  rw [show replyValues Tokenizer.displayMemory [] = [] by decide] at hv
  exact hb (List.map_eq_nil_iff.mp hv.symm)

/-! ## A reference monitor

A model of QEMU's side of the exchange, good enough for the commands the readers
send: it reads `xp/<count>xb 0x<address>` back and answers with the dump of those
bytes, `w` to a row under a sixteen-digit address column, followed by the prompt. -/

/-- The number at the front of `s`, written in `base`, and the rest of `s`. -/
def readNumber (base : Nat) (s : List Char) : Option (Nat × List Char) :=
  let ds := s.takeWhile fun c => ((hexDigitValue c).filter (· < base)).isSome
  if ds = [] then none
  else some (ds.foldl (fun a c => a * base + (hexDigitValue c).getD 0) 0, s.drop ds.length)

/-- The monitor's reading of an `xp/<count>xb 0x<address>` command. -/
def parseXp : List Char → Option (Nat × Nat)
  | 'x' :: 'p' :: '/' :: rest =>
    match readNumber 10 rest with
    | some (count, 'x' :: 'b' :: ' ' :: '0' :: 'x' :: rest) =>
      match readNumber 16 rest with
      | some (address, ['\n']) => some (count, address)
      | _ => none
    | _ => none
  | _ => none

/-- The address column, `%016x`. -/
def addrColumn (a : Nat) : List Char :=
  List.replicate (16 - (Nat.toDigits 16 a).length) '0' ++ Nat.toDigits 16 a

/-- The rows of a dump of `count` bytes from `addr`, `w` to a row; `fuel` bounds
the number of rows. -/
def dumpRows (M : Memory) (w : Nat) : Nat → Nat → Nat → List (List Char)
  | 0, _, _ => []
  | fuel + 1, addr, count =>
    if count = 0 then []
    else row (addrColumn addr) (memSlice M addr (min w count)) ::
      dumpRows M w fuel (addr + min w count) (count - min w count)

/-- The monitor's prompt. -/
def prompt : List Char := "(qemu) ".toList

/-- QEMU's answer to one command: the dump and the prompt for an `xp` command the
readers send, the prompt alone for anything else.  Each line of the dump ends with
`\r\n`. -/
def qemuReply (M : Memory) (w : Nat) (cmd : List Char) : List Char :=
  match parseXp cmd with
  | some (count, address) => (dumpRows M w count address count).flatMap (· ++ ['\r', '\n']) ++ prompt
  | none => prompt

/-- What `Nat.toDigits` prints: at least one digit below the base, reading back to
the number. -/
theorem toDigitsCore_eq {b : Nat} (hb : 2 ≤ b) (hb16 : b ≤ 16) :
    ∀ fuel n ds, n < fuel → ∃ pre, Nat.toDigitsCore b fuel n ds = pre ++ ds ∧ pre ≠ [] ∧
      (∀ c ∈ pre, ∃ d, d < b ∧ c = Nat.digitChar d) ∧
      pre.foldl (fun a c => a * b + (hexDigitValue c).getD 0) 0 = n := by
  intro fuel
  induction fuel with
  | zero => intro n ds h; omega
  | succ f ih =>
    intro n ds hn
    have hd : n % b < b := Nat.mod_lt _ (by omega)
    have hv := (digitChar_facts ⟨n % b, by omega⟩).1
    have hdm := Nat.div_add_mod n b
    by_cases h0 : n / b = 0
    · refine ⟨[Nat.digitChar (n % b)], by simp [Nat.toDigitsCore, h0], by simp,
        by simpa using ⟨n % b, hd, rfl⟩, ?_⟩
      simp only at hv
      simp only [List.foldl_cons, List.foldl_nil, hv, Option.getD_some]
      rw [h0] at hdm
      omega
    · have hlt : n / b < f := by
        have hn0 : 0 < n := Nat.pos_of_ne_zero (by rintro rfl; simp at h0)
        have := Nat.div_lt_self hn0 (show 1 < b by omega)
        omega
      obtain ⟨pre, hpre, -, hdig, hval⟩ := ih (n / b) (Nat.digitChar (n % b) :: ds) hlt
      refine ⟨pre ++ [Nat.digitChar (n % b)], by simp [Nat.toDigitsCore, h0, hpre], by simp, ?_, ?_⟩
      · intro c hc
        rcases List.mem_append.mp hc with hc | hc
        · exact hdig c hc
        · exact ⟨n % b, hd, List.mem_singleton.mp hc⟩
      · simp only at hv
        rw [List.foldl_append, hval]
        simp only [List.foldl_cons, List.foldl_nil, hv, Option.getD_some]
        rw [Nat.mul_comm]
        exact hdm

theorem readNumber_toDigits {b : Nat} (hb : 2 ≤ b) (hb16 : b ≤ 16) (n : Nat)
    (rest : List Char) (hrest : ∀ c ∈ rest.head?, hexDigitValue c = none) :
    readNumber b (Nat.toDigits b n ++ rest) = some (n, rest) := by
  obtain ⟨pre, hpre, hne, hdig, hval⟩ := toDigitsCore_eq hb hb16 (n + 1) n [] (by omega)
  rw [List.append_nil] at hpre
  have hpos : ∀ c ∈ pre, ((hexDigitValue c).filter (· < b)).isSome := by
    intro c hc
    obtain ⟨d, hd, rfl⟩ := hdig c hc
    simp [(digitChar_facts ⟨d, by omega⟩).1, hd, Option.filter]
  have hstop : rest.takeWhile (fun c => ((hexDigitValue c).filter (· < b)).isSome) = [] := by
    rcases rest with _ | ⟨c, rest⟩
    · rfl
    · simp [hrest c rfl]
  simp only [readNumber, Nat.toDigits, hpre, List.takeWhile_append_of_pos hpos, hstop,
    List.append_nil, hne, if_false, hval, List.drop_left]

/-- The monitor understands every command the readers send. -/
theorem parseXp_xpCommand (count address : Nat) :
    parseXp (xpCommand count address) = some (count, address) := by
  have haddress : readNumber 16 (Nat.toDigits 16 address ++ ['\n']) = some (address, ['\n']) :=
    readNumber_toDigits (by decide) (by decide) _ _ (by simp; decide)
  simp only [xpCommand, List.cons_append, List.nil_append, List.append_assoc]
  rw [parseXp, readNumber_toDigits (by decide) (by decide) _ _ (by simp; decide)]
  show (match readNumber 16 (Nat.toDigits 16 address ++ ['\n']) with
    | some (address, ['\n']) => some (count, address)
    | _ => none) = some (count, address)
  rw [haddress]
  rfl

theorem not_mem_addrColumn {c : Char} (hc : c = ':' ∨ c = '\n') (a : Nat) :
    c ∉ addrColumn a := by
  obtain ⟨pre, hpre, -, hdig, -⟩ := toDigitsCore_eq (b := 16) (by decide) le_rfl (a + 1) a [] (by omega)
  rw [List.append_nil] at hpre
  simp only [addrColumn, Nat.toDigits, hpre, List.mem_append, List.mem_replicate, not_or]
  refine ⟨fun h => by rcases hc with rfl | rfl <;> simp at h, fun h => ?_⟩
  obtain ⟨d, hd, rfl⟩ := hdig c h
  have := digitChar_facts ⟨d, hd⟩
  rcases hc with h' | h' <;> simp_all

theorem dumpRows_lines (M : Memory) {w : Nat} (hw : 0 < w) :
    ∀ fuel addr count, count ≤ fuel →
      ReplyLines ((dumpRows M w fuel addr count).map (· ++ ['\r']) ++ [prompt])
        (memSlice M addr count) := by
  have hp : ReplyLines [prompt] [] := .plain (by decide) (by decide) .nil
  intro fuel
  induction fuel with
  | zero => intro addr count h; obtain rfl : count = 0 := by omega
            simpa [dumpRows, memSlice] using hp
  | succ f ih =>
    intro addr count h
    by_cases h0 : count = 0
    · subst h0; simpa [dumpRows, memSlice] using hp
    · have hsplit : memSlice M addr count =
          memSlice M addr (min w count) ++ memSlice M (addr + min w count) (count - min w count) := by
        rw [← memSlice_add]; congr 1; omega
      rw [dumpRows, if_neg h0, hsplit, List.map_cons, List.cons_append]
      exact .bytesRow (not_mem_addrColumn (.inl rfl) addr) (not_mem_addrColumn (.inr rfl) addr)
        (by simp only [List.mem_singleton, forall_eq]; decide) (ih _ _ (by omega))

/-- Lines ended by `\r\n`, then the prompt, are the lines with their `\r`, joined
by `\n`. -/
theorem flatMap_crlf (p : List Char) :
    ∀ ls : List (List Char),
      ls.flatMap (· ++ ['\r', '\n']) ++ p = ['\n'].intercalate (ls.map (· ++ ['\r']) ++ [p])
  | [] => by simp [List.intercalate]
  | l :: ls => by
    rw [List.flatMap_cons, List.append_assoc, flatMap_crlf p ls, List.map_cons, List.cons_append]
    cases hls : ls.map (· ++ ['\r']) ++ [p] with
    | nil => simp at hls
    | cons m ms => simp [List.intercalate, List.intersperse_cons_cons]

/-- The reference monitor answers every command the readers send with a reply that
lists the requested bytes. -/
theorem qemuReply_listsBytes (M : Memory) {w : Nat} (hw : 0 < w) (count address : Nat) :
    ListsBytes (memSlice M address count) (qemuReply M w (xpCommand count address)) := by
  simp only [qemuReply, parseXp_xpCommand]
  exact ⟨_, flatMap_crlf _ _, dumpRows_lines M hw count address count le_rfl⟩

/-! ## The length of a dump -/

theorem length_row (addr : List Char) (bytes : List UInt8) :
    (row addr bytes).length = addr.length + 1 + 5 * bytes.length := by
  induction bytes with
  | nil => simp [row]
  | cons b bs ih =>
    simp only [row, List.length_append, List.length_cons, List.flatMap_cons] at ih ⊢
    simp only [hexByte, List.length_cons, List.length_nil] at ih ⊢
    omega

/-- An address below `2 ^ 64` fills the sixteen digits of its column. -/
theorem length_addrColumn {a : Nat} (h : a < 16 ^ 16) : (addrColumn a).length = 16 := by
  have hd := Nat.toDigitsCore_length 16 (by decide) (a + 1) a 16 h (by decide)
  simp only [addrColumn, List.length_append, List.length_replicate, Nat.toDigits]
  omega

/-- Eight bytes to a row, a dump of `count` bytes below `2 ^ 64` takes at most 59
characters for every eight bytes. -/
theorem length_dumpRows (M : Memory) :
    ∀ fuel addr count, addr + count ≤ 16 ^ 16 →
      ((dumpRows M 8 fuel addr count).flatMap (· ++ ['\r', '\n'])).length ≤ 59 * ((count + 7) / 8) := by
  intro fuel
  induction fuel with
  | zero => intro _ _ _; simp [dumpRows]
  | succ f ih =>
    intro addr count h
    by_cases h0 : count = 0
    · simp [dumpRows, h0]
    · have hrest := ih (addr + min 8 count) (count - min 8 count) (by omega)
      rw [dumpRows, if_neg h0, List.flatMap_cons, List.length_append, List.length_append, length_row,
        length_addrColumn (by omega), length_memSlice]
      simp only [List.length_cons, List.length_nil]
      omega

/-- **QEMU's dumps fit one `recv(8192)`.**  Eight bytes to a row, the reference
monitor's answer to a request of up to 512 bytes below `2 ^ 64` has at most 8192
characters. -/
theorem length_qemuReply_le (M : Memory) {count address : Nat} (hc : count ≤ 512)
    (ha : address + count ≤ 16 ^ 16) : (qemuReply M 8 (xpCommand count address)).length ≤ 8192 := by
  have := length_dumpRows M count address count ha
  simp only [qemuReply, parseXp_xpCommand, List.length_append]
  have hp : prompt.length = 7 := rfl
  omega

end Haywire.Monitor
