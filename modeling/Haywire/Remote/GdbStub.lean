import Haywire.Remote.GdbReply
import Haywire.Monitor.Reply

/-!
# A session of reads against the stub

The stub answers `m<address>,<size>` with an acknowledgement `+` and a packet: the
bytes it read in lower-case hex (`memtohex`), or `E<nn>` when it refuses the request
(an unmapped address, a length it does not serve).  A `Stub` is what it answers to
each request of a session, so that the guest may run between two requests, and
`Answers stub reply` says that the far end of the socket sends exactly that.

`read_memory_gdb` stops reading at the `#` of a reply and leaves the checksum digits
after it on the socket (`consecutive_reads_lose_frame`).  Over a whole session, what
is unread before a request is therefore a tail of one checksum (`Unread`), and that
is all the harm it does.  From every such state and for every cut schedule,
`readMemoryGdb_answers` says that the read returns within `2 * size + 8` calls to
`recv`; that it returns the stub's answer to this very request when nothing was
unread, and `None` otherwise; and that it leaves a tail of a checksum unread again.
On replies that arrive whole nothing is ever left unread (`readMemoryGdb_whole`):
every read returns `viewResult` of its answer, the read as its author meant it.
-/

namespace Haywire.Gdb

open Py Monitor

/-! ## The stub -/

/-- `memtohex`: two lower-case hex digits a byte. -/
def memToHex (bs : List UInt8) : List Char := bs.flatMap fun b => format02x b.toNat

/-- What the stub sends for a packet with this payload: `+`, then `$<payload>#<cs>`. -/
def stubReply (payload : List Char) : List UInt8 := ascii ('+' :: packet payload)

/-- The stub over a session: its answer to the `j`-th request for `size` bytes at
`address`, the bytes or an error number. -/
structure Stub where
  /-- The answer to the `j`-th request of the session. -/
  view : Nat → Nat → Nat → Except UInt8 (List UInt8)
  /-- The stub serves as many bytes as were asked for. -/
  length_view : ∀ j address size bs, view j address size = .ok bs → bs.length = size

/-- The payload of the reply to the `j`-th request: `memtohex` of the bytes, or
`E<nn>`. -/
def Stub.payload (stub : Stub) (j address size : Nat) : List Char :=
  match stub.view j address size with
  | .ok bs => memToHex bs
  | .error e => 'E' :: format02x e.toNat

/-- The far end answers every memory request of the session as `stub` does. -/
def Answers (stub : Stub) (reply : Nat → List UInt8 → List UInt8) : Prop :=
  ∀ j address size,
    reply j (ascii (packet (memCommand address size))) = stubReply (stub.payload j address size)

/-- What `read_memory_gdb` makes of an answer that nothing unread precedes: the bytes,
`None` for no bytes, and the `ValueError` that `bytes.fromhex` raises on `E<nn>`. -/
def viewResult : Except UInt8 (List UInt8) → Except PyError (Option (List UInt8))
  | .ok [] => .ok none
  | .ok (b :: bs) => .ok (some (b :: bs))
  | .error _ => .error .valueError

theorem viewResult_eq_some {v : Except UInt8 (List UInt8)} {bs : List UInt8}
    (h : viewResult v = .ok (some bs)) : v = .ok bs := by
  match v, h with
  | .ok (_ :: _), rfl => rfl

/-- What is unread on the socket: a tail of the checksum of one packet. -/
def Unread (w : Wire UInt8) : Prop :=
  ∃ payload, w.pending <:+ ascii (format02x (calculateChecksum payload))

/-! ## Hex digits -/

/-- `f"{k:02x}"` of a byte is its two digits. -/
theorem format02x_of_lt {k : Nat} (h : k < 256) :
    format02x k = [Nat.digitChar (k / 16), Nat.digitChar (k % 16)] := by
  by_cases h16 : k < 16
  · simp [format02x, Nat.toDigits, Nat.toDigitsCore, Nat.div_eq_of_lt h16, Nat.mod_eq_of_lt h16]
    rfl
  · obtain ⟨m, rfl⟩ : ∃ m, k = m + 1 := ⟨k - 1, by omega⟩
    have hq : (m + 1) / 16 ≠ 0 := by omega
    have hq' : (m + 1) / 16 / 16 = 0 := by omega
    have hm : (m + 1) / 16 % 16 = (m + 1) / 16 := Nat.mod_eq_of_lt (by omega)
    simp [format02x, Nat.toDigits, Nat.toDigitsCore, hq, hq', hm]

/-- A digit the stub prints lies between `'0'` and `'f'`. -/
theorem digitChar_bounds (d : Fin 16) :
    48 ≤ (Nat.digitChar d).toNat ∧ (Nat.digitChar d).toNat ≤ 102 :=
  toNat_of_hexDigitValue (digitChar_facts d).1

/-- The two digits of a byte, with their values. -/
theorem format02x_spells {k : Nat} (h : k < 256) :
    ∃ hi lo, format02x k = [hi, lo] ∧ hexDigitValue hi = some (k / 16) ∧
      hexDigitValue lo = some (k % 16) ∧ (∀ c ∈ [hi, lo], 48 ≤ c.toNat ∧ c.toNat ≤ 102) := by
  refine ⟨_, _, format02x_of_lt h, (digitChar_facts ⟨k / 16, by omega⟩).1,
    (digitChar_facts ⟨k % 16, by omega⟩).1, ?_⟩
  simp only [List.mem_cons, List.mem_singleton, List.not_mem_nil, or_false]
  rintro c (rfl | rfl)
  exacts [digitChar_bounds ⟨k / 16, by omega⟩, digitChar_bounds ⟨k % 16, by omega⟩]

theorem spellsHex_memToHex (bs : List UInt8) : SpellsHex (memToHex bs) bs := by
  induction bs with
  | nil => trivial
  | cons b bs ih =>
    obtain ⟨hi, lo, he, h₁, h₂, -⟩ := format02x_spells b.toNat_lt_size
    simp only [memToHex, List.flatMap_cons, he] at ih ⊢
    exact ⟨h₁, h₂, ih⟩

theorem payload_digits (stub : Stub) (j address size : Nat) :
    ∀ c ∈ stub.payload j address size, 48 ≤ c.toNat ∧ c.toNat ≤ 102 := by
  unfold Stub.payload
  split
  · exact (spellsHex_memToHex _).length_eq.2
  · next e _ =>
    obtain ⟨hi, lo, he, -, -, hd⟩ := format02x_spells e.toNat_lt_size
    rw [he, List.forall_mem_cons]
    exact ⟨by decide, hd⟩

theorem length_payload_le (stub : Stub) (j address size : Nat) :
    (stub.payload j address size).length ≤ 2 * size + 3 := by
  unfold Stub.payload
  split
  · next bs h =>
    rw [(spellsHex_memToHex bs).length_eq.1, stub.length_view _ _ _ _ h]
    omega
  · next e _ =>
    obtain ⟨hi, lo, he, -⟩ := format02x_spells e.toNat_lt_size
    simp [he]

/-- The checksum digits of a packet. -/
theorem checksum_digits (payload : List Char) :
    ∃ hi lo, format02x (calculateChecksum payload) = [hi, lo] ∧
      ∀ c ∈ [hi, lo], 48 ≤ c.toNat ∧ c.toNat ≤ 102 := by
  obtain ⟨hi, lo, he, -, -, hd⟩ := format02x_spells (Nat.mod_lt _ (by decide) :
    calculateChecksum payload < 256)
  exact ⟨hi, lo, he, hd⟩

/-- A reply, byte by byte: `+$`, the payload, `#` and the checksum. -/
theorem stubReply_eq (payload : List Char) :
    stubReply payload =
      ascii ['+', '$'] ++ ascii payload ++ hashByte :: ascii (format02x (calculateChecksum payload)) := by
  simp only [stubReply, packet, ascii, List.map_cons, List.map_append, List.cons_append,
    List.nil_append, List.append_assoc]
  rfl

/-! ## What is unread -/

/-- The bytes of ASCII text are its code points. -/
theorem toNat_of_mem_ascii {text : List Char} (h : ∀ c ∈ text, 48 ≤ c.toNat ∧ c.toNat ≤ 102)
    {b : UInt8} (hb : b ∈ ascii text) : 48 ≤ b.toNat ∧ b.toNat ≤ 102 := by
  obtain ⟨c, hc, rfl⟩ := List.mem_map.mp hb
  rw [UInt8.toNat_ofNat_of_lt (Nat.lt_of_le_of_lt (h c hc).2 (by decide))]
  exact h c hc

/-- At most two checksum digits are unread. -/
theorem Unread.digits {w : Wire UInt8} (hw : Unread w) :
    w.pending.length ≤ 2 ∧ ∀ b ∈ w.pending, 48 ≤ b.toNat := by
  obtain ⟨payload, hs⟩ := hw
  obtain ⟨hi, lo, he, hd⟩ := checksum_digits payload
  rw [he] at hs
  exact ⟨by simpa [ascii] using hs.length_le, fun b hb => (toNat_of_mem_ascii hd (hs.subset hb)).1⟩

/-! ## The loop over a cut stream -/

/-- **The loop stops in the chunk that holds the first `#`.**  Whatever the cut
schedule, on a stream whose first `#` follows `pre`, the loop returns within
`pre.length + 1` calls, with `pre`, the `#` and the part of what follows that came in
the same chunk; the rest stays unread. -/
theorem recvUntilHash_wire (reply : Nat → List UInt8 → List UInt8) (post : List UInt8)
    (sent : List (List UInt8)) :
    ∀ fuel (pre response : List UInt8) (cuts : List Nat), hashByte ∉ pre → pre.length < fuel →
      ∃ t cuts', recvUntilHash (Wire.peer reply) fuel response ⟨pre ++ hashByte :: post, cuts, sent⟩ =
        some (response ++ pre ++ hashByte :: post.take t, ⟨post.drop t, cuts', sent⟩) := by
  intro fuel
  induction fuel with
  | zero => intro _ _ _ _ h; omega
  | succ fuel ih =>
    intro pre response cuts hpre hlen
    obtain ⟨k, cuts₁, hk, -, hrecv⟩ := Wire.recv_piece none (p := pre ++ hashByte :: post)
      (by simp) cuts sent (by decide : 0 < 4096)
    simp only [recvUntilHash, Wire.peer_recv, hrecv]
    by_cases hkp : k ≤ pre.length
    · have hnot : hashByte ∉ pre.take k := fun h => hpre (List.mem_of_mem_take h)
      obtain ⟨t, cuts', h⟩ := ih (pre.drop k) (response ++ pre.take k) cuts₁
        (fun h => hpre (List.mem_of_mem_drop h)) (by simp; omega)
      refine ⟨t, cuts', ?_⟩
      rw [List.take_append_of_le_length hkp, List.drop_append_of_le_length hkp, if_neg hnot, h]
      simp [List.append_assoc]
    · have hsplit : k - pre.length = k - pre.length - 1 + 1 := by omega
      refine ⟨k - pre.length - 1, cuts₁, ?_⟩
      rw [List.take_append_eq_append_take, List.drop_append_eq_append_drop,
        List.take_of_length_le (by omega : pre.length ≤ k),
        List.drop_of_length_le (by omega : pre.length ≤ k), hsplit, List.take_succ_cons,
        List.drop_succ_cons, List.nil_append, if_pos (by simp)]
      simp [List.append_assoc]

/-- **Whole replies are read whole.**  When every `recv` returns as much as it may,
4096 bytes or all that is unread, the loop takes `pre` in pieces of 4096 bytes and
stops at the piece with the `#`; the bytes after the `#` come in that piece as long as
they fit in it. -/
theorem recvUntilHash_whole (reply : Nat → List UInt8 → List UInt8) (post : List UInt8)
    (sent : List (List UInt8)) :
    ∀ fuel (pre response : List UInt8), hashByte ∉ pre → pre.length / 4096 < fuel →
      pre.length % 4096 + 1 + post.length ≤ 4096 →
      recvUntilHash (Wire.peer reply) fuel response ⟨pre ++ hashByte :: post, [], sent⟩ =
        some (response ++ pre ++ hashByte :: post, ⟨[], [], sent⟩) := by
  intro fuel
  induction fuel with
  | zero => intro _ _ _ h; omega
  | succ fuel ih =>
    intro pre response hpre hlen hfit
    simp only [recvUntilHash, Wire.peer_recv, Wire.recv_whole none (p := pre ++ hashByte :: post)
      (by simp) sent]
    by_cases hk : 4096 ≤ pre.length
    · have hnot : hashByte ∉ pre.take 4096 := fun h => hpre (List.mem_of_mem_take h)
      rw [List.take_append_of_le_length hk, List.drop_append_of_le_length hk, if_neg hnot,
        ih (pre.drop 4096) _ (fun h => hpre (List.mem_of_mem_drop h))
          (by rw [List.length_drop]; omega)
          (by rw [List.length_drop]; omega)]
      simp [List.append_assoc]
    · have hall : (pre ++ hashByte :: post).length ≤ 4096 := by
        simp only [List.length_append, List.length_cons]
        rw [Nat.mod_eq_of_lt (by omega)] at hfit
        omega
      rw [List.take_of_length_le hall, List.drop_of_length_le hall, if_pos (by simp)]
      simp [List.append_assoc]

/-! ## The stub's side -/

/-- The stub's reading of a request `$m<address>,<size>#<cs>`; the checksum is not
checked. -/
def parseMemRequest : List Char → Option (Nat × Nat)
  | '$' :: 'm' :: rest =>
    match readNumber 16 rest with
    | some (address, ',' :: rest) =>
      match readNumber 16 rest with
      | some (size, '#' :: _) => some (address, size)
      | _ => none
    | _ => none
  | _ => none

/-- The far end of a session with `stub`: it answers each memory request it reads, and
sends nothing for anything else. -/
def Stub.serve (stub : Stub) (j : Nat) (msg : List UInt8) : List UInt8 :=
  match decode msg with
  | .ok text =>
    match parseMemRequest text with
    | some (address, size) => stubReply (stub.payload j address size)
    | none => []
  | .error _ => []

/-- The digits `Nat.toDigits` prints are ASCII. -/
theorem toNat_lt_of_mem_toDigits {n : Nat} {c : Char} (h : c ∈ Nat.toDigits 16 n) : c.toNat < 128 := by
  obtain ⟨pre, hpre, -, hdig, -⟩ := @toDigitsCore_eq 16 (by decide) (by decide) (n + 1) n [] (by omega)
  rw [Nat.toDigits, hpre, List.append_nil] at h
  obtain ⟨d, hd, rfl⟩ := hdig c h
  exact Nat.lt_of_le_of_lt (digitChar_bounds ⟨d, hd⟩).2 (by decide)

/-- **Requests read back.**  The stub reads the address and size back from every
request `read_memory_gdb` sends. -/
theorem parseMemRequest_packet (address size : Nat) :
    decode (ascii (packet (memCommand address size))) = .ok (packet (memCommand address size)) ∧
      parseMemRequest (packet (memCommand address size)) = some (address, size) := by
  obtain ⟨hi, lo, he, hd⟩ := checksum_digits (memCommand address size)
  have hp : packet (memCommand address size) =
      '$' :: 'm' :: (Nat.toDigits 16 address ++ ',' :: (Nat.toDigits 16 size ++ ['#', hi, lo])) := by
    rw [packet, he]
    simp [memCommand]
  refine ⟨decode_ascii fun c hc => ?_, ?_⟩
  · simp only [hp, List.mem_cons, List.mem_append, List.mem_singleton, List.not_mem_nil,
      or_false] at hc
    rcases hc with rfl | rfl | hc | rfl | hc | rfl | rfl | rfl
    all_goals first
      | decide
      | exact toNat_lt_of_mem_toDigits hc
      | exact Nat.lt_of_le_of_lt (hd _ (by simp)).2 (by decide)
  · have h₁ := @readNumber_toDigits 16 (by decide) (by decide) address
      (',' :: (Nat.toDigits 16 size ++ ['#', hi, lo])) (by simp; decide)
    have h₂ := @readNumber_toDigits 16 (by decide) (by decide) size ['#', hi, lo] (by simp; decide)
    simp only [hp, parseMemRequest, h₁, h₂]

theorem answers_serve (stub : Stub) : Answers stub stub.serve := by
  intro j address size
  obtain ⟨h₁, h₂⟩ := parseMemRequest_packet address size
  simp only [Stub.serve, h₁, h₂]

/-- A stub over a guest whose byte at `a` reads `a + j` at the `j`-th request: every
byte changes between two requests. -/
def tickingStub : Stub where
  view j address size := .ok ((List.range size).map fun i => UInt8.ofNat (address + i + j))
  length_view _ _ _ _ h := by cases h; simp

/-! ## One read -/

/-- The parse of an answer that nothing unread precedes, whatever follows its `#`. -/
theorem parseResponse_payload (stub : Stub) (j address size : Nat) (rest : List UInt8) :
    parseResponse (ascii ['+', '$'] ++ ascii (stub.payload j address size) ++ hashByte :: rest) =
      viewResult (stub.view j address size) := by
  cases hv : stub.view j address size with
  | ok bs =>
    simp only [Stub.payload, hv]
    cases bs with
    | nil => simp [parseResponse, memToHex, ascii, firstField_eq_takeWhile, viewResult]
    | cons b bs => exact parseResponse_reply (spellsHex_memToHex _) (List.cons_ne_nil _ _) rest
  | error e =>
    obtain ⟨hi, lo, he, h₁, h₂, -⟩ := format02x_spells e.toNat_lt_size
    simp only [Stub.payload, hv, he]
    exact parseResponse_errorReply h₁ h₂ rest

/-- **A read in a session.**  On a stub that answers every request of the session,
from a socket where at most a tail of one checksum is unread, and whatever the cut
schedule: `read_memory_gdb` returns within `2 * size + 8` calls to `recv`; it returns
the stub's answer to this very request when nothing was unread, and `None`
otherwise; and it leaves at most a tail of the answer's checksum unread. -/
theorem readMemoryGdb_answers {stub : Stub} {reply : Nat → List UInt8 → List UInt8}
    (hA : Answers stub reply) {w : Wire UInt8} (hw : Unread w) (address size fuel : Nat)
    (hfuel : 2 * size + 8 ≤ fuel) :
    ∃ w', readMemoryGdb (Wire.peer reply) w address size fuel =
        some (if w.pending = [] then viewResult (stub.view w.sent.length address size) else .ok none,
          w') ∧
      Unread w' ∧ w'.sent = w.sent ++ [ascii (packet (memCommand address size))] := by
  obtain ⟨P, cuts, sent⟩ := w
  obtain ⟨hlen, hdig⟩ := hw.digits
  set payload := stub.payload sent.length address size
  set trailer := ascii (format02x (calculateChecksum payload))
  have hsend : (Wire.peer reply).send ⟨P, cuts, sent⟩ (ascii (packet (memCommand address size))) =
      .ok ⟨(P ++ ascii ['+', '$'] ++ ascii payload) ++ hashByte :: trailer, cuts,
        sent ++ [ascii (packet (memCommand address size))]⟩ := by
    simp only [Wire.peer_send, hA _ _ _, stubReply_eq, List.append_assoc, payload, trailer]
  have hpre : hashByte ∉ P ++ ascii ['+', '$'] ++ ascii payload := by
    simp only [List.mem_append, not_or]
    exact ⟨⟨fun h => absurd (hdig hashByte h) (by decide), by decide⟩,
      hashByte_not_mem_ascii (payload_digits stub _ _ _)⟩
  have hpl : payload.length ≤ 2 * size + 3 := length_payload_le stub _ _ _
  obtain ⟨t, cuts', hrun⟩ := recvUntilHash_wire reply trailer
    (sent ++ [ascii (packet (memCommand address size))]) fuel _ [] cuts hpre
    (by
      simp only [List.length_append, ascii, List.length_map, List.length_cons, List.length_nil] at hlen ⊢
      omega)
  refine ⟨⟨trailer.drop t, cuts', _⟩, ?_, ⟨payload, List.drop_suffix _ _⟩, rfl⟩
  simp only [readMemoryGdb, hsend, hrun, Option.map_some', List.nil_append]
  cases P with
  | nil => rw [if_pos rfl, List.nil_append, parseResponse_payload]
  | cons x P =>
    have hx : x ≠ 43 := fun h => absurd (hdig x (List.mem_cons_self _ _)) (by rw [h]; decide)
    simp only [if_neg (List.cons_ne_nil _ _), List.nil_append, List.cons_append]
    rw [parseResponse_stale hx]

/-- A read of four bytes against `tickingStub`, the reply cut after its first byte and
again four bytes later. -/
theorem readMemoryGdb_answers_cut :
    Answers tickingStub tickingStub.serve ∧ Unread ⟨[], [0, 3], []⟩ ∧ 2 * 4 + 8 ≤ 16 ∧
      ∃ w', readMemoryGdb (Wire.peer tickingStub.serve) ⟨[], [0, 3], []⟩ 0x40 4 16 =
          some (if ([] : List UInt8) = [] then viewResult (tickingStub.view 0 0x40 4) else .ok none, w') ∧
        Unread w' ∧ w'.sent = [] ++ [ascii (packet (memCommand 0x40 4))] :=
  ⟨answers_serve _, ⟨[], List.nil_suffix⟩, by decide,
    readMemoryGdb_answers (answers_serve _) ⟨[], List.nil_suffix⟩ 0x40 4 16 (by decide)⟩

/-- A payload is two digits a byte, or `E` and two digits. -/
theorem length_payload (stub : Stub) (j address size : Nat) :
    (stub.payload j address size).length = 2 * size ∨ (stub.payload j address size).length = 3 := by
  unfold Stub.payload
  split
  · next bs h =>
    left
    rw [(spellsHex_memToHex bs).length_eq.1, stub.length_view _ _ _ _ h]
  · next e _ =>
    obtain ⟨hi, lo, he, -⟩ := format02x_spells e.toNat_lt_size
    simp [he]

/-- **Whole replies leave nothing unread.**  When every `recv` returns as much as it
may, the read returns the stub's answer and leaves the socket empty, for every size
whose reply does not put its `#` in the last two bytes of a 4096-byte piece, 256 and
4096 among them; at other sizes a checksum digit is left for the next read. -/
theorem readMemoryGdb_whole {stub : Stub} {reply : Nat → List UInt8 → List UInt8}
    (hA : Answers stub reply) (sent : List (List UInt8)) (address size fuel : Nat)
    (hsize : (2 * size + 2) % 4096 < 4094) (hfuel : (2 * size + 2) / 4096 < fuel) :
    readMemoryGdb (Wire.peer reply) ⟨[], [], sent⟩ address size fuel =
      some (viewResult (stub.view sent.length address size),
        ⟨[], [], sent ++ [ascii (packet (memCommand address size))]⟩) := by
  set payload := stub.payload sent.length address size
  obtain ⟨hi, lo, he, -⟩ := checksum_digits payload
  have hpre : hashByte ∉ ascii ['+', '$'] ++ ascii payload :=
    List.not_mem_append (by decide) (hashByte_not_mem_ascii (payload_digits stub _ _ _))
  have hlen : (ascii ['+', '$'] ++ ascii payload).length = payload.length + 2 := by
    simp only [ascii, List.length_append, List.length_map, List.length_cons, List.length_nil]
    omega
  have hpl : payload.length = 2 * size ∨ payload.length = 3 := length_payload stub _ _ _
  have hrun := recvUntilHash_whole reply (ascii (format02x (calculateChecksum payload)))
    (sent ++ [ascii (packet (memCommand address size))]) fuel _ [] hpre
    (by rw [hlen]; rcases hpl with h | h <;> omega)
    (by rw [hlen, he]; simp only [ascii, List.length_map, List.length_cons, List.length_nil]
        rcases hpl with h | h <;> omega)
  have hreply := hA sent.length address size
  rw [stubReply_eq] at hreply
  simp only [readMemoryGdb, Wire.peer_send, List.nil_append, hreply, List.append_assoc] at hrun ⊢
  rw [hrun, Option.map_some', ← List.append_assoc, parseResponse_payload]

end Haywire.Gdb
