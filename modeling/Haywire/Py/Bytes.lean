import Haywire.Py.Str
import Haywire.Py.Builtins

/-!
# `bytes` for the socket readers

The debug-stub and QMP readers work on `bytes`: they test `b'#' in data`, slice,
split on one byte, `decode()` the result and hand the text to `bytes.fromhex` or
`json.loads`.  A `bytes` value is a `List UInt8`.

`decode()` is CPython's strict UTF-8 decoder: the bytes decode when they are a
concatenation of well-formed UTF-8 sequences (Unicode, table 3-7: no overlong
form, no surrogate, nothing above U+10FFFF), and it raises `UnicodeDecodeError`
otherwise.  `bytes.fromhex` (CPython 3.7 and later) skips ASCII whitespace before
each pair of hex digits and raises `ValueError` on anything else, a lone digit at
the end included.
-/

namespace Haywire.Py

/-- `s.encode()` for ASCII text, the only text the scripts encode: one byte a
character. -/
def ascii (s : List Char) : List UInt8 := s.map fun c => UInt8.ofNat c.toNat

/-- `seq.split(sep)[0]`: what comes before the first `sep`.  `split` never returns
an empty list, so the default is not reached. -/
def firstField {α : Type} [DecidableEq α] (sep : α) (seq : List α) : List α :=
  (seq.splitOn sep).headD []

theorem firstField_eq_takeWhile {α : Type} [DecidableEq α] (sep : α) (seq : List α) :
    firstField sep seq = seq.takeWhile (· ≠ sep) := by
  induction seq with
  | nil => rfl
  | cons x xs ih =>
    by_cases hx : x = sep
    · simp [firstField, List.splitOn, List.splitOnP_cons, hx]
    · simp only [firstField, List.splitOn, List.headD] at ih ⊢
      simp only [List.splitOnP_cons, beq_iff_eq, hx, if_false, List.modifyHead]
      cases h : xs.splitOnP (· == sep) with
      | nil => exact absurd h (List.splitOnP_ne_nil _ _)
      | cons y ys => simp_all

/-! ## `decode()` -/

/-- The length of the UTF-8 sequence a byte starts and the range its second byte
must lie in (Unicode, table 3-7); length 0 for a byte that starts none. -/
def utf8Lead (b : Nat) : Nat × Nat × Nat :=
  if b < 0x80 then (1, 0, 0)
  else if b < 0xC2 then (0, 0, 0)
  else if b < 0xE0 then (2, 0x80, 0xBF)
  else if b = 0xE0 then (3, 0xA0, 0xBF)
  else if b = 0xED then (3, 0x80, 0x9F)
  else if b < 0xF0 then (3, 0x80, 0xBF)
  else if b = 0xF0 then (4, 0x90, 0xBF)
  else if b < 0xF4 then (4, 0x80, 0xBF)
  else if b = 0xF4 then (4, 0x80, 0x8F)
  else (0, 0, 0)

/-- A byte in `[lo, hi]`. -/
def inRange (lo hi : Nat) (b : UInt8) : Bool := lo ≤ b.toNat && b.toNat ≤ hi

/-- `data.decode()`: strict UTF-8, one character per well-formed sequence. -/
def decode : List UInt8 → Except PyError (List Char)
  | [] => .ok []
  | b :: rest =>
    match utf8Lead b.toNat, rest with
    | (1, _), rest => (decode rest).map (Char.ofNat b.toNat :: ·)
    | (2, lo, hi), c :: rest =>
      if inRange lo hi c then
        (decode rest).map (Char.ofNat (b.toNat % 32 * 64 + c.toNat % 64) :: ·)
      else .error .unicodeDecodeError
    | (3, lo, hi), c :: d :: rest =>
      if inRange lo hi c && inRange 0x80 0xBF d then
        (decode rest).map
          (Char.ofNat (b.toNat % 16 * 4096 + c.toNat % 64 * 64 + d.toNat % 64) :: ·)
      else .error .unicodeDecodeError
    | (4, lo, hi), c :: d :: e :: rest =>
      if inRange lo hi c && inRange 0x80 0xBF d && inRange 0x80 0xBF e then
        (decode rest).map (Char.ofNat (b.toNat % 8 * 262144 + c.toNat % 64 * 4096 +
          d.toNat % 64 * 64 + e.toNat % 64) :: ·)
      else .error .unicodeDecodeError
    | _, _ => .error .unicodeDecodeError

/-! ## A newline byte splits the decoded text

`0x0A` is never part of a multi-byte sequence, so decoding commutes with
splitting at a newline byte: this is what makes `response.decode().split('\n')[0]`
the decoding of the bytes before the first newline. -/

theorem utf8Lead_two {n lo hi : Nat} (h : utf8Lead n = (2, lo, hi)) :
    lo = 0x80 ∧ hi = 0xBF ∧ 0xC2 ≤ n ∧ n < 0xE0 := by
  simp only [utf8Lead, ite_eq_iff, Prod.mk.injEq] at h
  omega

theorem utf8Lead_three {n lo hi : Nat} (h : utf8Lead n = (3, lo, hi)) :
    0x80 ≤ lo ∧ hi ≤ 0xBF ∧ 0xE0 ≤ n ∧ n < 0xF0 ∧ (n = 0xE0 → lo = 0xA0) := by
  simp only [utf8Lead, ite_eq_iff, Prod.mk.injEq] at h
  omega

theorem utf8Lead_four {n lo hi : Nat} (h : utf8Lead n = (4, lo, hi)) :
    0x80 ≤ lo ∧ hi ≤ 0xBF ∧ 0xF0 ≤ n ∧ n ≤ 0xF4 ∧ (n = 0xF0 → lo = 0x90) := by
  simp only [utf8Lead, ite_eq_iff, Prod.mk.injEq] at h
  omega

theorem inRange_newline {lo hi : Nat} (hlo : 0x80 ≤ lo) : inRange lo hi 10 = false := by
  simp only [inRange, Bool.and_eq_false_iff, decide_eq_false_iff_not]; left; show ¬ lo ≤ 10; omega

theorem newline_lead : utf8Lead (10 : UInt8).toNat = (1, 0, 0) := by decide

theorem decode_newline (post : List UInt8) :
    decode (10 :: post) = (decode post).map ('\n' :: ·) :=
  decode.eq_2 10 post (0, 0) newline_lead

theorem ofNat_ne_newline {v : Nat} (hv : v ≠ 10) : Char.ofNat v ≠ '\n' := by
  intro h
  have h10 := congrArg Char.toNat h
  unfold Char.ofNat at h10
  split at h10
  · exact hv h10
  · exact absurd h10 (by decide)

theorem map_cons_eq_ok {ch : Char} {x : Except PyError (List Char)} {t : List Char}
    (h : x.map (ch :: ·) = .ok t) : ∃ t', x = .ok t' ∧ t = ch :: t' := by
  cases x <;> cases h; exact ⟨_, rfl, rfl⟩

/-- Decoding makes a newline only out of a newline byte. -/
theorem newline_not_mem_decode {bs : List UInt8} (hbs : 10 ∉ bs) {t : List Char}
    (ht : decode bs = .ok t) : '\n' ∉ t := by
  induction bs using decode.induct generalizing t with
  | case1 => cases ht; simp
  | case2 b snd rest h ih =>
    rw [decode.eq_2 _ _ _ h] at ht
    obtain ⟨t', hr, rfl⟩ := map_cons_eq_ok ht
    have hb : b.toNat ≠ 10 := fun hb =>
      hbs (List.mem_cons.mpr (Or.inl (@UInt8.toNat.inj b 10 hb).symm))
    exact List.not_mem_cons_of_ne_of_not_mem (ofNat_ne_newline hb).symm
      (ih (fun h => hbs (by simp [h])) hr)
  | case3 b lo hi c rest h hc ih =>
    rw [decode.eq_3 _ _ _ _ _ h, if_pos hc] at ht
    obtain ⟨t', hr, rfl⟩ := map_cons_eq_ok ht
    obtain ⟨-, -, h1, h2⟩ := utf8Lead_two h
    exact List.not_mem_cons_of_ne_of_not_mem (ofNat_ne_newline (by omega)).symm
      (ih (fun h => hbs (by simp [h])) hr)
  | case4 b lo hi c rest h hc => rw [decode.eq_3 _ _ _ _ _ h, if_neg hc] at ht; cases ht
  | case5 b lo hi c d rest h hc ih =>
    rw [decode.eq_4 _ _ _ _ _ _ h, if_pos hc] at ht
    obtain ⟨t', hr, rfl⟩ := map_cons_eq_ok ht
    obtain ⟨-, h1, h2, h3, h4⟩ := utf8Lead_three h
    simp only [inRange, Bool.and_eq_true, decide_eq_true_eq] at hc
    exact List.not_mem_cons_of_ne_of_not_mem (ofNat_ne_newline (by omega)).symm
      (ih (fun h => hbs (by simp [h])) hr)
  | case6 b lo hi c d rest h hc => rw [decode.eq_4 _ _ _ _ _ _ h, if_neg hc] at ht; cases ht
  | case7 b lo hi c d e rest h hc ih =>
    rw [decode.eq_5 _ _ _ _ _ _ _ h, if_pos hc] at ht
    obtain ⟨t', hr, rfl⟩ := map_cons_eq_ok ht
    obtain ⟨-, h1, h2, h3, h4⟩ := utf8Lead_four h
    simp only [inRange, Bool.and_eq_true, decide_eq_true_eq] at hc
    exact List.not_mem_cons_of_ne_of_not_mem (ofNat_ne_newline (by omega)).symm
      (ih (fun h => hbs (by simp [h])) hr)
  | case8 b lo hi c d e rest h hc => rw [decode.eq_5 _ _ _ _ _ _ _ h, if_neg hc] at ht; cases ht
  | case9 b rest h1 h2 h3 h4 => rw [decode.eq_6 b rest h1 h2 h3 h4] at ht; cases ht

theorem map_cons_joinLines (ch : Char) (x y : Except PyError (List Char)) :
    (x.bind fun t => y.map fun u => t ++ '\n' :: u).map (ch :: ·) =
      (x.map (ch :: ·)).bind fun t => y.map fun u => t ++ '\n' :: u := by
  cases x <;> cases y <;> rfl

/-- Decoding splits at a newline byte: the text is the two decoded halves around a
newline, and an error on either side is the error of the whole. -/
theorem decode_append_newline (pre post : List UInt8) :
    decode (pre ++ 10 :: post) =
      (decode pre).bind fun t => (decode post).map fun u => t ++ '\n' :: u := by
  induction pre using decode.induct with
  | case1 => simp [decode_newline]; rfl
  | case2 b snd rest h ih =>
    rw [List.cons_append, decode.eq_2 _ _ _ h, decode.eq_2 _ _ _ h, ih, map_cons_joinLines]
  | case3 b lo hi c rest h hc ih =>
    rw [List.cons_append, List.cons_append, decode.eq_3 _ _ _ _ _ h, decode.eq_3 _ _ _ _ _ h,
      if_pos hc, if_pos hc, ih, map_cons_joinLines]
  | case4 b lo hi c rest h hc =>
    rw [List.cons_append, List.cons_append, decode.eq_3 _ _ _ _ _ h, decode.eq_3 _ _ _ _ _ h,
      if_neg hc, if_neg hc]; rfl
  | case5 b lo hi c d rest h hc ih =>
    rw [List.cons_append, List.cons_append, List.cons_append, decode.eq_4 _ _ _ _ _ _ h,
      decode.eq_4 _ _ _ _ _ _ h, if_pos hc, if_pos hc, ih, map_cons_joinLines]
  | case6 b lo hi c d rest h hc =>
    rw [List.cons_append, List.cons_append, List.cons_append, decode.eq_4 _ _ _ _ _ _ h,
      decode.eq_4 _ _ _ _ _ _ h, if_neg hc, if_neg hc]; rfl
  | case7 b lo hi c d e rest h hc ih =>
    rw [List.cons_append, List.cons_append, List.cons_append, List.cons_append,
      decode.eq_5 _ _ _ _ _ _ _ h, decode.eq_5 _ _ _ _ _ _ _ h, if_pos hc, if_pos hc, ih,
      map_cons_joinLines]
  | case8 b lo hi c d e rest h hc =>
    rw [List.cons_append, List.cons_append, List.cons_append, List.cons_append,
      decode.eq_5 _ _ _ _ _ _ _ h, decode.eq_5 _ _ _ _ _ _ _ h, if_neg hc, if_neg hc]; rfl
  | case9 b rest h1 h2 h3 h4 =>
    rw [decode.eq_6 b rest h1 h2 h3 h4, List.cons_append, decode.eq_def]
    dsimp only
    split
    · exact (h1 _ ‹_›).elim
    · rename_i lo hi c rest' hl heq
      have hc : inRange lo hi c = false := by
        rcases rest with _ | ⟨x, rest⟩
        · cases heq; exact inRange_newline (utf8Lead_two hl).1.ge
        · exact (h2 _ _ _ _ hl rfl).elim
      rw [if_neg (Bool.eq_false_iff.mp hc)]; rfl
    · rename_i lo hi c d rest' hl heq
      have hc : (inRange lo hi c && inRange 0x80 0xBF d) = false := by
        rcases rest with _ | ⟨x, _ | ⟨y, rest⟩⟩
        · cases heq; rw [inRange_newline (utf8Lead_three hl).1]; rfl
        · cases heq; rw [inRange_newline (le_refl _), Bool.and_false]
        · exact (h3 _ _ _ _ _ hl rfl).elim
      rw [if_neg (Bool.eq_false_iff.mp hc)]; rfl
    · rename_i lo hi c d e rest' hl heq
      have hc : (inRange lo hi c && inRange 0x80 0xBF d && inRange 0x80 0xBF e) = false := by
        rcases rest with _ | ⟨x, _ | ⟨y, _ | ⟨z, rest⟩⟩⟩
        · cases heq; rw [inRange_newline (utf8Lead_four hl).1]; rfl
        · cases heq; rw [inRange_newline (le_refl _), Bool.and_false]; rfl
        · cases heq; rw [inRange_newline (le_refl _), Bool.and_false]
        · exact (h4 _ _ _ _ _ _ hl rfl).elim
      rw [if_neg (Bool.eq_false_iff.mp hc)]; rfl
    · rfl

theorem firstField_append_sep {α : Type} [DecidableEq α] {sep : α} {xs : List α} (h : sep ∉ xs)
    (ys : List α) : firstField sep (xs ++ sep :: ys) = xs := by
  have hxs : ∀ x ∈ xs, decide (x ≠ sep) = true := fun x hx =>
    decide_eq_true fun e => h (e ▸ hx)
  rw [firstField_eq_takeWhile, List.takeWhile_append_of_pos hxs]
  simp

/-- The first line of a decoded text is the decoding of the bytes before the first
newline; the bytes after it only decide whether `decode()` raises. -/
theorem decode_firstLine {β : Type} (line post : List UInt8) (hline : 10 ∉ line)
    (k : List Char → Except PyError β) :
    (decode (line ++ 10 :: post)).bind (fun t => k (firstField '\n' t)) =
      (decode line).bind fun t => (decode post).bind fun _ => k t := by
  rw [decode_append_newline]
  cases hl : decode line with
  | error e => rfl
  | ok t =>
    cases decode post with
    | error e => rfl
    | ok u => exact congrArg k (firstField_append_sep (newline_not_mem_decode hline hl) u)

/-! ## `bytes.fromhex` -/

/-- `Py_ISSPACE`: space, tab, newline, vertical tab, form feed, carriage return. -/
def isAsciiSpace (c : Char) : Bool := c = ' ' || (9 ≤ c.toNat && c.toNat ≤ 13)

/-- `bytes.fromhex(s)`. -/
def fromhex : List Char → Except PyError (List UInt8)
  | [] => .ok []
  | c :: s =>
    if isAsciiSpace c then fromhex s
    else match hexDigitValue c, s with
      | some hi, d :: s' =>
        match hexDigitValue d with
        | some lo => (fromhex s').map (UInt8.ofNat (hi * 16 + lo) :: ·)
        | none => .error .valueError
      | _, _ => .error .valueError

/-- `text` spells `bs` in hex: two digits a byte, the high one first, each digit in
either case. -/
def SpellsHex : List Char → List UInt8 → Prop
  | [], [] => True
  | hi :: lo :: text, b :: bs =>
    hexDigitValue hi = some (b.toNat / 16) ∧ hexDigitValue lo = some (b.toNat % 16) ∧
      SpellsHex text bs
  | _, _ => False

instance decidableSpellsHex : ∀ text bs, Decidable (SpellsHex text bs)
  | [], [] => isTrue trivial
  | _ :: _ :: text, _ :: bs =>
    haveI := decidableSpellsHex text bs
    inferInstanceAs (Decidable (_ ∧ _ ∧ SpellsHex text bs))
  | [], _ :: _ => isFalse id
  | [_], [] => isFalse id
  | [_], _ :: _ => isFalse id
  | _ :: _ :: _, [] => isFalse id

theorem ofNat_toNat_uint8 (b : UInt8) : UInt8.ofNat b.toNat = b :=
  UInt8.toNat.inj (UInt8.toNat_ofNat_of_lt b.toNat_lt_size)

theorem isAsciiSpace_of_hexDigitValue {c : Char} {v : Nat} (h : hexDigitValue c = some v) :
    isAsciiSpace c = false := by
  have hc := toNat_of_hexDigitValue h
  have hne : c ≠ ' ' := fun e => by subst e; simp at hc
  simp only [isAsciiSpace, hne, decide_False, Bool.false_or, Bool.and_eq_false_iff,
    decide_eq_false_iff_not]
  omega

/-- **`bytes.fromhex` reads back what is spelled in hex**, in either case. -/
theorem fromhex_of_spellsHex {text : List Char} {bs : List UInt8} (h : SpellsHex text bs) :
    fromhex text = .ok bs := by
  induction text, bs using SpellsHex.induct with
  | case1 => rfl
  | case2 hi lo text b bs ih =>
    obtain ⟨h₁, h₂, h₃⟩ := h
    rw [fromhex.eq_2 _ _ _ _ h₁, if_neg (by simp [isAsciiSpace_of_hexDigitValue h₁])]
    simp only [h₂, ih h₃, Nat.div_add_mod', ofNat_toNat_uint8]
    rfl
  | case3 => exact absurd h (by simp_all [SpellsHex])

/-- A spelling has two digits a byte, all of them between `'0'` and `'f'`. -/
theorem SpellsHex.length_eq {text : List Char} {bs : List UInt8} (h : SpellsHex text bs) :
    text.length = 2 * bs.length ∧ ∀ c ∈ text, 48 ≤ c.toNat ∧ c.toNat ≤ 102 := by
  induction text, bs using SpellsHex.induct with
  | case1 => simp
  | case2 hi lo text b bs ih =>
    obtain ⟨h₁, h₂, h₃⟩ := h
    obtain ⟨hl, hc⟩ := ih h₃
    refine ⟨by simp [hl]; omega, ?_⟩
    simp only [List.mem_cons]
    rintro c (rfl | rfl | hm)
    · exact toNat_of_hexDigitValue h₁
    · exact toNat_of_hexDigitValue h₂
    · exact hc c hm
  | case3 => exact absurd h (by simp_all [SpellsHex])

/-- ASCII text encodes and decodes back to itself. -/
theorem decode_ascii {text : List Char} (h : ∀ c ∈ text, c.toNat < 128) :
    decode (ascii text) = .ok text := by
  induction text with
  | nil => rfl
  | cons c text ih =>
    have hlt := h c (List.mem_cons_self _ _)
    have hc : (UInt8.ofNat c.toNat).toNat = c.toNat := UInt8.toNat_ofNat_of_lt (Nat.lt_trans hlt (by decide))
    have hlead : utf8Lead (UInt8.ofNat c.toNat).toNat = (1, 0, 0) := by
      rw [hc]; exact if_pos hlt
    rw [ascii, List.map_cons, decode.eq_2 _ _ _ hlead, ← ascii,
      ih fun d hd => h d (List.mem_cons_of_mem _ hd), hc, Char.ofNat_toNat]
    rfl

end Haywire.Py
