import Mathlib.Data.List.Infix

/-!
# The Python text primitives the scripts rely on

The monitor readers treat a reply as a Python `str` and cut it up with `split`,
`strip`, `in`, `startswith` and `int(tok, 16)`.  This file gives each of those
operations on `List Char`, as CPython computes it on the inputs the scripts pass,
together with the few facts about them that the reader proofs use.

* `isSpace` is CPython's whitespace set; `words` is `str.split()` with no
  separator and `strip` is `str.strip()`.  `str.split(c)` for a one-character
  separator is `List.splitOn c`, and `startswith` is `List.isPrefixOf`.
* `intHex` is `int(tok, 16)` on a token free of whitespace, and `intHex_hex`
  says which tokens `0x…` it accepts, as a grammar (`HexLiteral`).  Like CPython,
  it first turns every decimal digit of any script (Unicode category Nd, as
  `decimalBlocks` lists them) into its ASCII digit and every other non-ASCII
  character into one no base accepts, then parses ASCII.  Signs are not modelled:
  every token the scripts convert starts with `0x`.
-/

namespace Haywire.Py

/-! ## Whitespace and `str.split()` -/

/-- CPython's whitespace characters (`str.isspace`): the ASCII separators `\t`
to `\r` and `\x1c` to the space, and the Unicode characters of category Zs or of
bidirectional class WS, B or S. -/
def isSpace (c : Char) : Bool :=
  let n := c.toNat
  (9 ≤ n && n ≤ 13) || (28 ≤ n && n ≤ 32) || n == 0x85 || n == 0xA0 || n == 0x1680 ||
    (0x2000 ≤ n && n ≤ 0x200A) || n == 0x2028 || n == 0x2029 || n == 0x202F ||
    n == 0x205F || n == 0x3000

/-- The loop of CPython's `split_whitespace`: the words of `s`, where `cur` is the
word being read, kept reversed. -/
def wordsFrom : List Char → List Char → List (List Char)
  | [], cur => if cur = [] then [] else [cur.reverse]
  | c :: s, cur =>
    if isSpace c then
      if cur = [] then wordsFrom s [] else cur.reverse :: wordsFrom s []
    else wordsFrom s (c :: cur)

/-- `s.split()`: the maximal runs of non-whitespace characters of `s`. -/
def words (s : List Char) : List (List Char) := wordsFrom s []

/-- `s.strip()`: `s` without its leading and trailing whitespace. -/
def strip (s : List Char) : List Char :=
  ((s.dropWhile isSpace).reverse.dropWhile isSpace).reverse

/-- `needle in s` for two strings. -/
def contains (needle : List Char) : List Char → Bool
  | [] => needle.isPrefixOf []
  | c :: s => needle.isPrefixOf (c :: s) || contains needle s

theorem wordsFrom_space {c : Char} (h : isSpace c) (s : List Char) :
    wordsFrom (c :: s) [] = wordsFrom s [] := by
  simp [wordsFrom, h]

/-- Reading a word that contains no whitespace only extends the current word. -/
theorem wordsFrom_append_word {t : List Char} (ht : ∀ c ∈ t, isSpace c = false)
    (s cur : List Char) : wordsFrom (t ++ s) cur = wordsFrom s (t.reverse ++ cur) := by
  induction t generalizing cur with
  | nil => rfl
  | cons c t ih =>
    simp only [List.cons_append, wordsFrom, ht c (List.mem_cons_self c t), Bool.false_eq_true,
      if_false, List.reverse_cons, List.append_assoc, List.singleton_append]
    exact ih (fun d hd => ht d (List.mem_cons_of_mem c hd)) (c :: cur)

/-- Trailing whitespace ends the current word and adds no other. -/
theorem wordsFrom_append_spaces {w : List Char} (hw : ∀ c ∈ w, isSpace c) :
    ∀ s cur, wordsFrom (s ++ w) cur = wordsFrom s cur := by
  intro s
  induction s with
  | nil =>
    induction w with
    | nil => exact fun _ => rfl
    | cons c w ih =>
      intro cur
      have hc := hw c (List.mem_cons_self c w)
      have ih' := ih (fun d hd => hw d (List.mem_cons_of_mem c hd)) []
      cases w <;> by_cases h : cur = [] <;> simp_all [wordsFrom]
  | cons c s ih =>
    intro cur
    show wordsFrom (c :: (s ++ w)) cur = wordsFrom (c :: s) cur
    simp only [wordsFrom, ih]

theorem words_dropWhile (s : List Char) : words (s.dropWhile isSpace) = words s := by
  induction s with
  | nil => rfl
  | cons c s ih =>
    by_cases h : isSpace c
    · rw [List.dropWhile_cons_of_pos h, ih, words, words, wordsFrom_space h]
    · rw [List.dropWhile_cons_of_neg h]

theorem words_rstrip (t : List Char) :
    words (t.reverse.dropWhile isSpace).reverse = words t := by
  have hw : ∀ c ∈ (t.reverse.takeWhile isSpace).reverse, isSpace c := fun c hc =>
    List.mem_takeWhile_imp (List.mem_reverse.mp hc)
  conv_rhs => rw [← List.reverse_reverse t, ← List.takeWhile_append_dropWhile isSpace t.reverse,
    List.reverse_append]
  exact (wordsFrom_append_spaces hw _ []).symm

/-- `split()` ignores the whitespace that `strip()` removes. -/
theorem words_strip (s : List Char) : words (strip s) = words s := by
  rw [strip, words_rstrip, words_dropWhile]

/-- The value field of a monitor row, ` t₁ t₂ …`, splits into its tokens. -/
theorem words_flatMap_space (ts : List (List Char))
    (hts : ∀ t ∈ ts, t ≠ [] ∧ ∀ c ∈ t, isSpace c = false) :
    words (ts.flatMap (' ' :: ·)) = ts := by
  have hcur : ∀ (ts : List (List Char)) (cur : List Char), cur ≠ [] →
      wordsFrom (ts.flatMap (' ' :: ·)) cur =
        cur.reverse :: wordsFrom (ts.flatMap (' ' :: ·)) [] := by
    intro ts cur hc
    cases ts <;> simp [wordsFrom, hc, isSpace]
  induction ts with
  | nil => rfl
  | cons t ts ih =>
    obtain ⟨htn, hts'⟩ := hts t (List.mem_cons_self t ts)
    have ih := ih (fun u hu => hts u (List.mem_cons_of_mem t hu))
    rw [words, List.flatMap_cons, List.cons_append, wordsFrom_space (by decide),
      wordsFrom_append_word hts', List.append_nil,
      hcur ts _ (by simpa using htn), List.reverse_reverse]
    exact congrArg (t :: ·) ih

theorem contains_append (needle pre post : List Char) :
    contains needle (pre ++ needle ++ post) = true := by
  induction pre with
  | nil =>
    cases hn : needle ++ post with
    | nil => simp_all [contains]
    | cons c s =>
      simp only [List.nil_append, hn, contains, Bool.or_eq_true]
      exact .inl (hn ▸ List.isPrefixOf_iff_prefix.mpr (List.prefix_append needle post))
  | cons c pre ih =>
    show contains needle (c :: (pre ++ needle ++ post)) = true
    simp only [contains, ih, Bool.or_true]

/-! ## `int(tok, 16)` -/

/-- The value of a hexadecimal digit of either case. -/
def hexDigitValue (c : Char) : Option Nat :=
  if '0' ≤ c ∧ c ≤ '9' then some (c.toNat - '0'.toNat)
  else if 'a' ≤ c ∧ c ≤ 'f' then some (c.toNat - 'a'.toNat + 10)
  else if 'A' ≤ c ∧ c ≤ 'F' then some (c.toNat - 'A'.toNat + 10)
  else none

/-- Hex digits are ASCII, from `'0'` to `'f'`. -/
theorem toNat_of_hexDigitValue {c : Char} {v : Nat} (h : hexDigitValue c = some v) :
    48 ≤ c.toNat ∧ c.toNat ≤ 102 := by
  unfold hexDigitValue at h
  split_ifs at h with h₁ h₂ h₃
  · have : c.toNat ≤ 57 := h₁.2
    exact ⟨h₁.1, by omega⟩
  · have : 97 ≤ c.toNat := h₂.1
    exact ⟨by omega, h₂.2⟩
  · have : 65 ≤ c.toNat := h₃.1
    have : c.toNat ≤ 70 := h₃.2
    omega

/-- The digits of a hex literal after its first one, read onto `acc`: each digit
may follow a single underscore, and the literal may not end in one. -/
def hexTail (acc : Nat) : List Char → Option Nat
  | [] => some acc
  | '_' :: c :: s => (hexDigitValue c).bind fun d => hexTail (acc * 16 + d) s
  | c :: s => (hexDigitValue c).bind fun d => hexTail (acc * 16 + d) s

/-- The body of a hex literal: a digit, then `hexTail`. -/
def hexBody : List Char → Option Nat
  | [] => none
  | c :: s => (hexDigitValue c).bind fun d => hexTail d s

/-- `int(text, 16)` for ASCII text without whitespace: an optional `0x` or `0X`,
then one optional underscore after that prefix only, then the body.  `none` is the
`ValueError`. -/
def intHexAscii : List Char → Option Nat
  | '0' :: 'x' :: '_' :: s | '0' :: 'X' :: '_' :: s => hexBody s
  | '0' :: 'x' :: s | '0' :: 'X' :: s => hexBody s
  | s => hexBody s

/-- The first code point of each block of ten decimal digits (Unicode category Nd)
in the Unicode 15 database of CPython 3.12 and 3.13; a digit's value is its distance
from the start of its block. -/
def decimalBlocks : List Nat :=
  [0x30, 0x660, 0x6F0, 0x7C0, 0x966, 0x9E6, 0xA66, 0xAE6, 0xB66, 0xBE6, 0xC66, 0xCE6, 0xD66,
    0xDE6, 0xE50, 0xED0, 0xF20, 0x1040, 0x1090, 0x17E0, 0x1810, 0x1946, 0x19D0, 0x1A80,
    0x1A90, 0x1B50, 0x1BB0, 0x1C40, 0x1C50, 0xA620, 0xA8D0, 0xA900, 0xA9D0, 0xA9F0, 0xAA50,
    0xABF0, 0xFF10, 0x104A0, 0x10D30, 0x11066, 0x110F0, 0x11136, 0x111D0, 0x112F0, 0x11450,
    0x114D0, 0x11650, 0x116C0, 0x11730, 0x118E0, 0x11950, 0x11C50, 0x11D50, 0x11DA0,
    0x11F50, 0x16A60, 0x16AC0, 0x16B50, 0x1D7CE, 0x1D7D8, 0x1D7E2, 0x1D7EC, 0x1D7F6,
    0x1E140, 0x1E2F0, 0x1E4F0, 0x1E950, 0x1FBF0]

/-- `Py_UNICODE_TODECIMAL(c)`: the value of a decimal digit of any script. -/
def decimalValue (c : Char) : Option Nat :=
  (decimalBlocks.find? fun z => z ≤ c.toNat ∧ c.toNat < z + 10).map fun z => c.toNat - z

/-- What `_PyUnicode_TransformDecimalAndSpaceToASCII` makes of a character that is
not whitespace, before `int()` parses the text: a decimal digit becomes its ASCII
digit, other ASCII stays, and anything else becomes `'?'`, which no base accepts. -/
def asciiDigit (c : Char) : Char :=
  match decimalValue c with
  | some d => Char.ofNat (48 + d)
  | none => if c.toNat < 128 then c else '?'

/-- `int(tok, 16)` for a token without whitespace: the ASCII text CPython makes of
it, parsed.  `none` is the `ValueError`. -/
def intHex (tok : List Char) : Option Nat := intHexAscii (tok.map asciiDigit)

/-- ASCII text is left as it is. -/
theorem asciiDigit_of_lt {c : Char} (h : c.toNat < 128) : asciiDigit c = c := by
  have hrest : ∀ z ∈ decimalBlocks.tail, 128 ≤ z := by decide
  have hfind : decimalValue c = if 48 ≤ c.toNat ∧ c.toNat < 58 then some (c.toNat - 48) else none := by
    rw [decimalValue, show decimalBlocks = 0x30 :: decimalBlocks.tail from rfl, List.find?_cons]
    by_cases hd : 48 ≤ c.toNat ∧ c.toNat < 58
    · simp [hd]
    · have hnone : decimalBlocks.tail.find? (fun z => decide (z ≤ c.toNat ∧ c.toNat < z + 10)) =
          none := List.find?_eq_none.mpr fun z hz => by
        have := hrest z hz
        simp only [decide_eq_true_eq]
        omega
      rw [if_neg hd, decide_eq_false hd, hnone]
      rfl
  rw [asciiDigit, hfind]
  split_ifs with hd
  · show Char.ofNat (48 + (c.toNat - 48)) = c
    rw [Nat.add_sub_cancel' hd.1, Char.ofNat_toNat]
  · simp [h]

/-! ## The hex-literal grammar

What `int(tok, 16)` accepts after `0x`, said without its parsing loop: hex digits
and underscores, at least one character, no two underscores together and none
at the end.  The value ignores the underscores. -/

/-- Hex digits and underscores with no two underscores together and none last. -/
def HexDigitRun (t : List Char) : Prop :=
  (∀ c ∈ t, c = '_' ∨ (hexDigitValue c).isSome) ∧ ¬ ['_', '_'] <:+: t ∧ t.getLast? ≠ some '_'

instance (t : List Char) : Decidable (HexDigitRun t) :=
  inferInstanceAs (Decidable (_ ∧ _ ∧ _))

/-- The value of the hex digits of ASCII text, its underscores skipped. -/
def hexDigitsValue (t : List Char) : Nat :=
  (t.filterMap hexDigitValue).foldl (fun a d => a * 16 + d) 0

/-- The text after `0x` of a token that `int(tok, 16)` accepts: nonempty, and a digit
run once its decimal digits are made ASCII. -/
def HexLiteral (s : List Char) : Prop := s ≠ [] ∧ HexDigitRun (s.map asciiDigit)

instance (s : List Char) : Decidable (HexLiteral s) := inferInstanceAs (Decidable (_ ∧ _))

/-- The value `int()` gives the text after `0x`: that of its digits, each decimal
digit of another script counting as the ASCII digit of its value. -/
def hexValue (s : List Char) : Nat := hexDigitsValue (s.map asciiDigit)

theorem hexDigitValue_under : hexDigitValue '_' = none := by decide

theorem ne_under_of_isSome {c : Char} (h : (hexDigitValue c).isSome) : c ≠ '_' := by
  rintro rfl; simp [hexDigitValue_under] at h

theorem hexDigitRun_nil : HexDigitRun [] := by simp [HexDigitRun]

theorem not_hexDigitRun_under : ¬ HexDigitRun ['_'] := by simp [HexDigitRun]

theorem under_under_infix_cons {c : Char} (hc : c ≠ '_') (s : List Char) :
    ['_', '_'] <:+: c :: s ↔ ['_', '_'] <:+: s := by
  simp [List.infix_cons_iff, hc, Ne.symm hc]

theorem hexDigitRun_cons {c : Char} (hc : c ≠ '_') (s : List Char) :
    HexDigitRun (c :: s) ↔ (hexDigitValue c).isSome ∧ HexDigitRun s := by
  have hlast : (c :: s).getLast? ≠ some '_' ↔ s.getLast? ≠ some '_' := by
    cases s <;> simp [hc]
  simp only [HexDigitRun, List.forall_mem_cons, under_under_infix_cons hc, hlast, hc, false_or]
  tauto

theorem hexDigitRun_under_cons (c : Char) (s : List Char) :
    HexDigitRun ('_' :: c :: s) ↔ (hexDigitValue c).isSome ∧ HexDigitRun s := by
  by_cases hc : c = '_'
  · subst hc
    simp [HexDigitRun, hexDigitValue_under, List.infix_cons_iff]
  · rw [← hexDigitRun_cons hc]
    simp only [HexDigitRun, List.forall_mem_cons, true_or, true_and, List.getLast?_cons_cons]
    simp [List.infix_cons_iff, hc, Ne.symm hc]

/-- `hexTail` accepts exactly the digit runs, and reads their digits in order. -/
theorem hexTail_eq (acc : Nat) (t : List Char) :
    hexTail acc t = if HexDigitRun t then
      some ((t.filterMap hexDigitValue).foldl (fun a d => a * 16 + d) acc) else none := by
  induction acc, t using hexTail.induct with
  | case1 acc => simp [hexTail, hexDigitRun_nil]
  | case2 acc c s ih =>
    cases hd : hexDigitValue c with
    | none => simp [hexTail, hexDigitRun_under_cons, hd]
    | some d => simp [hexTail, hexDigitRun_under_cons, hd, ih d, hexDigitValue_under]
  | case3 acc c s hne ih =>
    rw [hexTail.eq_3 acc c s hne]
    by_cases hc : c = '_'
    · subst hc
      obtain rfl : s = [] := by cases s <;> simp_all
      simp [hexDigitValue_under, not_hexDigitRun_under]
    · cases hd : hexDigitValue c with
      | none => simp [hexDigitRun_cons hc, hd]
      | some d => simp [hexDigitRun_cons hc, hd, ih d]

theorem hexBody_eq (t : List Char) :
    hexBody t = if t.head? ≠ some '_' ∧ t ≠ [] ∧ HexDigitRun t then some (hexDigitsValue t)
      else none := by
  cases t with
  | nil => simp [hexBody]
  | cons c t =>
    by_cases hc : c = '_'
    · subst hc; simp [hexBody, hexDigitValue_under]
    · cases hd : hexDigitValue c with
      | none => simp [hexBody, hexDigitRun_cons hc, hd]
      | some d => simp [hexBody, hexDigitRun_cons hc, hd, hc, hexTail_eq, hexDigitsValue]

/-- The grammar of `int(text, 16)` on ASCII `0x` text: `0x t` is accepted exactly
when `t` is a nonempty digit run, of any length, and its value is that of its
digits. -/
theorem intHexAscii_hex (t : List Char) :
    intHexAscii ('0' :: 'x' :: t) =
      if t ≠ [] ∧ HexDigitRun t then some (hexDigitsValue t) else none := by
  rcases t with _ | ⟨c, t⟩
  · rfl
  by_cases hc : c = '_'
  · subst hc
    show hexBody t = _
    have hv : hexDigitsValue ('_' :: t) = hexDigitsValue t := by
      simp [hexDigitsValue, hexDigitValue_under]
    rcases t with _ | ⟨c, t⟩
    · simp [hexBody, not_hexDigitRun_under]
    rw [hexBody_eq, hv]
    by_cases hs : (hexDigitValue c).isSome
    · simp [hexDigitRun_under_cons, hexDigitRun_cons (ne_under_of_isSome hs), hs,
        ne_under_of_isSome hs]
    · have hrun : ¬c = '_' → ¬HexDigitRun (c :: t) := fun hc => by
        rw [hexDigitRun_cons hc]; simp [hs]
      simpa [hexDigitRun_under_cons, hs] using hrun
  · rw [intHexAscii.eq_3 _ (by simp [hc]), hexBody_eq]
    simp [hc]

/-- **The grammar of `int(tok, 16)` on `0x` tokens.**  A token `0x s` is accepted
exactly when `s` is a `HexLiteral`, of any length, and its value is that of its
digits, decimal digits of every script included. -/
theorem intHex_hex (s : List Char) :
    intHex ('0' :: 'x' :: s) = if HexLiteral s then some (hexValue s) else none := by
  have h0 : asciiDigit '0' = '0' := asciiDigit_of_lt (by decide)
  have hx : asciiDigit 'x' = 'x' := asciiDigit_of_lt (by decide)
  rw [intHex, List.map_cons, List.map_cons, h0, hx, intHexAscii_hex]
  simp only [HexLiteral, hexValue, ne_eq, List.map_eq_nil_iff]

end Haywire.Py
