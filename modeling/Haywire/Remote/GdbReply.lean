import Haywire.Remote.Gdb

/-!
# What `read_memory_gdb` makes of a reply

A memory reply of the stub is `+$<payload>#<cs>`: the acknowledgement `+`, the
packet start `$`, the payload, `#` and two checksum digits.  `read_memory_gdb` keeps
the bytes between `+$` and the first `#` and hands them to `decode()` and
`bytes.fromhex`.

* A reply spelling a nonempty byte string in hex, in either case, is read back to
  that string, however the socket cuts the stream into `recv` results
  (`readMemoryGdb_decodes_reply`).  The proof finds the first chunk holding a `#`
  (`exists_first_chunk`), where the loop stops, and shows that what was received by
  then is the reply up to its `#` and more (`eq_append_cons_of_prefix`).
* Nothing after the first `#` is read (`parseResponse_trailer`): the checksum is
  never checked.  The error replies `E NN` of the stub are not the one payload `E`
  the code tests for: `fromhex` reads `EN` and raises on the lone digit left
  (`parseResponse_errorReply`).
-/

namespace Haywire.Gdb

open Py

variable {σ : Type}

/-! ## Where the first `#` lies -/

/-- Of chunks whose concatenation holds `x`, one is the first to hold it. -/
theorem exists_first_chunk {α : Type} {x : α} {chunks : List (List α)} (h : x ∈ chunks.flatten) :
    ∃ pre c post, chunks = pre ++ c :: post ∧ (∀ d ∈ pre, x ∉ d) ∧ x ∈ c := by
  induction chunks with
  | nil => simp at h
  | cons d chunks ih =>
    by_cases hd : x ∈ d
    · exact ⟨[], d, chunks, rfl, by simp, hd⟩
    · obtain ⟨pre, c, post, rfl, hpre, hc⟩ :=
        ih (by simpa [hd] using h)
      refine ⟨d :: pre, c, post, rfl, ?_, hc⟩
      simp only [List.mem_cons]
      rintro e (rfl | he)
      · exact hd
      · exact hpre e he

/-- A prefix of `P ++ x :: Q` that holds `x`, when `P` does not, reaches past `P`. -/
theorem eq_append_cons_of_prefix {α : Type} {R P Q : List α} {x : α} (h : R <+: P ++ x :: Q)
    (hP : x ∉ P) (hR : x ∈ R) : ∃ Q', R = P ++ x :: Q' := by
  obtain ⟨T, hT⟩ := h
  rcases List.append_eq_append_iff.mp hT with ⟨a, rfl, -⟩ | ⟨c, rfl, hc⟩
  · exact absurd (List.mem_append_left a hR) hP
  · cases c with
    | nil => exact absurd (by simpa using hR) hP
    | cons y c =>
      obtain ⟨rfl, -⟩ := List.cons.inj hc
      exact ⟨c, rfl⟩

/-! ## The parse -/

/-- No hex digit is the byte `#`. -/
theorem ofNat_ne_hashByte {c : Char} (h : 48 ≤ c.toNat ∧ c.toNat ≤ 102) :
    UInt8.ofNat c.toNat ≠ hashByte := by
  intro heq
  have hv := congrArg UInt8.toNat heq
  rw [UInt8.toNat_ofNat_of_lt (Nat.lt_of_le_of_lt h.2 (by decide))] at hv
  exact absurd hv (by show c.toNat ≠ 35; omega)

theorem hashByte_not_mem_ascii {text : List Char} (h : ∀ c ∈ text, 48 ≤ c.toNat ∧ c.toNat ≤ 102) :
    hashByte ∉ ascii text := by
  simp only [ascii, List.mem_map, not_exists, not_and]
  exact fun c hc => ofNat_ne_hashByte (h c hc)

/-- The parse of a reply spelling a nonempty byte string in hex is that string,
whatever follows the `#`. -/
theorem parseResponse_reply {text : List Char} {bs : List UInt8} (hspell : SpellsHex text bs)
    (hbs : bs ≠ []) (rest : List UInt8) :
    parseResponse (ascii ['+', '$'] ++ ascii text ++ hashByte :: rest) = .ok (some bs) := by
  obtain ⟨hlen, hdig⟩ := hspell.length_eq
  have hlen' : (ascii text).length = 2 * bs.length := by rw [ascii, List.length_map, hlen]
  have hpos : 0 < bs.length := List.length_pos.mpr hbs
  have hE : (ascii ['E']).length = 1 := rfl
  have hne : ascii text ≠ [] ∧ ascii text ≠ ascii ['E'] :=
    ⟨fun he => by rw [he, List.length_nil] at hlen'; omega, fun he => by rw [he, hE] at hlen'; omega⟩
  have hpre : (ascii ['+', '$']).isPrefixOf (ascii ['+', '$'] ++ ascii text ++ hashByte :: rest) :=
    List.isPrefixOf_iff_prefix.mpr (by rw [List.append_assoc]; exact List.prefix_append _ _)
  rw [parseResponse, if_pos hpre]
  dsimp only
  rw [List.append_assoc, List.drop_left' (show (ascii ['+', '$']).length = 2 from rfl),
    firstField_append_sep (hashByte_not_mem_ascii hdig), if_pos hne,
    decode_ascii fun c hc => Nat.lt_of_le_of_lt (hdig c hc).2 (by decide)]
  show Except.map some (fromhex text) = _
  rw [fromhex_of_spellsHex hspell]
  rfl

/-- **The checksum is never read.**  The parse of a response depends only on what
comes before its first `#`. -/
theorem parseResponse_trailer {pre : List UInt8} (h : hashByte ∉ pre) (rest rest' : List UInt8) :
    parseResponse (pre ++ hashByte :: rest) = parseResponse (pre ++ hashByte :: rest') := by
  match pre, h with
  | [], _ => rw [List.nil_append, List.nil_append, parseResponse_stale (by decide),
      parseResponse_stale (by decide)]
  | [a], _ =>
    by_cases ha : a = 43
    · subst ha; rfl
    · rw [List.singleton_append, List.singleton_append, parseResponse_stale ha,
        parseResponse_stale ha]
  | a :: b :: pre, h =>
    have hpre : hashByte ∉ pre := fun hm => h (List.mem_cons_of_mem _ (List.mem_cons_of_mem _ hm))
    simp only [parseResponse, List.cons_append, List.drop_succ_cons, List.drop_zero,
      firstField_append_sep hpre, ascii, List.map, List.isPrefixOf]

/-- **An error reply raises.**  The stub's error replies `E NN` carry two hex
digits after the `E`: the payload is not `E`, and `fromhex` reads `EN` and raises
`ValueError` on the digit left over. -/
theorem parseResponse_errorReply {d₁ d₂ : Char} {v₁ v₂ : Nat} (h₁ : hexDigitValue d₁ = some v₁)
    (h₂ : hexDigitValue d₂ = some v₂) (rest : List UInt8) :
    parseResponse (ascii ['+', '$', 'E', d₁, d₂] ++ hashByte :: rest) = .error .valueError := by
  have hdig : ∀ c ∈ ['E', d₁, d₂], 48 ≤ c.toNat ∧ c.toNat ≤ 102 := by
    simp only [List.forall_mem_cons]
    exact ⟨by decide, toNat_of_hexDigitValue h₁, toNat_of_hexDigitValue h₂, by simp⟩
  have hl : (ascii ['E', d₁, d₂]).length = 3 := rfl
  have hne : ascii ['E', d₁, d₂] ≠ [] ∧ ascii ['E', d₁, d₂] ≠ ascii ['E'] :=
    ⟨fun he => (by rw [he] at hl; cases hl), fun he => (by rw [he] at hl; cases hl)⟩
  have htail : fromhex [d₂] = .error .valueError := by
    simp [fromhex, isAsciiSpace_of_hexDigitValue h₂, h₂]
  rw [show ascii ['+', '$', 'E', d₁, d₂] ++ hashByte :: rest =
      ascii ['+', '$'] ++ (ascii ['E', d₁, d₂] ++ hashByte :: rest) from rfl, parseResponse,
    if_pos (List.isPrefixOf_iff_prefix.mpr (List.prefix_append _ _))]
  dsimp only
  rw [List.drop_left' (show (ascii ['+', '$']).length = 2 from rfl),
    firstField_append_sep (hashByte_not_mem_ascii hdig), if_pos hne,
    decode_ascii fun c hc => Nat.lt_of_le_of_lt (hdig c hc).2 (by decide)]
  show Except.map some (fromhex ['E', d₁, d₂]) = _
  rw [fromhex.eq_2 'E' 14 d₁ [d₂] (by decide), if_neg (by decide), h₁, htail]
  rfl

/-! ## The read -/

/-- **A reply is read back to the bytes it spells.**  When the first `recv` calls
after the request return pieces of `+$`, the payload spelling `bs` in hex, `#` and
the trailer `cs`, in order and however the stream is cut, `read_memory_gdb` returns
`bs` within as many calls, for every nonempty `bs` and every choice of digit case. -/
theorem readMemoryGdb_decodes_reply (peer : Peer UInt8 σ) (s : σ) (address size : Nat)
    (text : List Char) (bs : List UInt8) (hbs : bs ≠ []) (hspell : SpellsHex text bs)
    (cs : List UInt8) (chunks : List (List UInt8)) {s₀ : σ} (s' : σ)
    (hsend : peer.send s (ascii (packet (memCommand address size))) = .ok s₀)
    (hrecv : peer.recvMany 4096 chunks.length s₀ = some (chunks, s'))
    (hsplit : chunks.flatten = ascii ['+', '$'] ++ ascii text ++ hashByte :: cs)
    (fuel : Nat) (hfuel : chunks.length ≤ fuel) :
    ∃ s'', readMemoryGdb peer s address size fuel = some (.ok (some bs), s'') := by
  obtain ⟨pre, c, post, rfl, hpre, hc⟩ :=
    exists_first_chunk (show hashByte ∈ chunks.flatten by simp [hsplit])
  have hrecv' : peer.recvMany 4096 ((pre ++ [c]).length + post.length) s₀ =
      some ((pre ++ [c]) ++ post, s') := by
    rw [List.append_assoc, List.singleton_append, ← hrecv]
    congr 1
    simp only [List.length_append, List.length_cons, List.length_nil]
    omega
  obtain ⟨s₁, h₁, -⟩ := Peer.recvMany_append hrecv'
  rw [List.length_append, List.length_singleton] at h₁
  have hfirst : (pre ++ [c]).flatten <+: ascii ['+', '$'] ++ ascii text ++ hashByte :: cs := by
    rw [← hsplit]
    exact ⟨post.flatten, by rw [← List.flatten_append, List.append_assoc, List.singleton_append]⟩
  have hP : hashByte ∉ ascii ['+', '$'] ++ ascii text :=
    List.not_mem_append (by decide) (hashByte_not_mem_ascii hspell.length_eq.2)
  obtain ⟨Q, hQ⟩ := eq_append_cons_of_prefix hfirst hP (List.mem_flatten.mpr ⟨c, by simp, hc⟩)
  refine ⟨s₁, ?_⟩
  rw [readMemoryGdb_of_recvMany peer s address size hsend h₁ hpre hc fuel (by simp at hfuel; omega), hQ,
    parseResponse_reply hspell hbs]

/-- The reply `+$4C#97` to a read of one byte, cut after `+$` and after `#`. -/
theorem readMemoryGdb_decodes_cut_reply :
    ∃ s'', readMemoryGdb (Wire.peer fun _ _ => ascii "+$4C#97".toList) ⟨[], [1, 2], []⟩ 0 1 3 =
      some (.ok (some [0x4c]), s'') :=
  readMemoryGdb_decodes_reply (Wire.peer fun _ _ => ascii "+$4C#97".toList) ⟨[], [1, 2], []⟩ 0 1
    ['4', 'C'] [0x4c] (by decide) (by decide) (ascii ['9', '7'])
    [ascii ['+', '$'], ascii ['4', 'C', '#'], ascii ['9', '7']]
    ⟨[], [], [ascii (packet (memCommand 0 1))]⟩ rfl (by decide) (by decide) 3 (by decide)

/-- An error reply raises `ValueError`, and a reply with a wrong checksum is
accepted. -/
theorem error_reply_raises_and_checksum_ignored :
    (readMemoryGdb (Wire.peer fun _ _ => ascii "+$E14#aa".toList) ⟨[], [], []⟩ 0 1 1).map Prod.fst =
        some (.error .valueError) ∧
      (readMemoryGdb (Wire.peer fun _ _ => ascii "+$4c#00".toList) ⟨[], [], []⟩ 0 1 1).map
        Prod.fst = some (.ok (some [0x4c])) := by
  decide

end Haywire.Gdb
