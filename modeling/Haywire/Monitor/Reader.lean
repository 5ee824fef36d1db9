import Haywire.Monitor.Reply
import Haywire.Transport.Peer

/-!
# Reading guest memory through the text monitor

`display_memory.read_memory_region` and `find_elf_sections.read_memory` read `size`
bytes from `address` in chunks:

```
s.recv(1024)  # Initial prompt
while bytes_read < size:
    chunk_size = min(256, size - bytes_read)
    s.send(f"xp/{chunk_size}xb 0x{address + bytes_read:x}\n")
    response = s.recv(8192)
    <parse response, appending to all_bytes and counting bytes_read>
```

The first returns `all_bytes[:size]`, the second `bytes(data)`.  They differ in how
they meet a failing socket: `read_memory_region` sets a timeout of 5 s and returns
`[]` on any exception, so a closed connection (`BrokenPipeError`) or a silent
monitor (`socket.timeout`) ends it with no bytes; `read_memory` has neither, so a
`BrokenPipeError` escapes it and a silent monitor keeps it waiting.  The loop need
not end, so it runs here on fuel: `chunkLoop` makes at most `fuel` passes and
answers `none` if it is still running, or waiting.

`find_video_memory.read_memory` and `scan_for_video.read_memory_sample` send one
request and parse one reply, on a socket with a timeout of 2 s, and return `[]` on
any exception: one definition, `sampleRead`, with the copy of the tokenizer.

`readers_transparent` is the contract of the chunked readers: when the greeting and
then each reply arrive whole within a `recv`, both return exactly
`M[address..address+size)` after `⌈size/256⌉` requests that tile the range.
`readers_misplace_bytes` shows what the loop does when a `recv` returns only part
of a reply: a token cut in two is read as another byte, and the rest of the reply
is read as the answer to the next request.
-/

namespace Haywire.Monitor

open Py

variable {σ : Type}

/-- One pass of the `while` loop: send the next request, take one `recv(8192)`, parse
it onto `all_bytes`, whose length is `bytes_read`.  A `send` that raises ends the
pass with its exception; a `recv` that finds nothing raises `socket.timeout` on a
socket with a timeout, and waits for ever on one without. -/
def chunkStep (tz : Tokenizer) (timeout : Bool) (peer : Peer Char σ) (address size : Nat)
    (st : List Nat × σ) : Option (Except PyError (List Nat) × σ) :=
  match peer.send st.2 (xpCommand (min 256 (size - st.1.length)) (address + st.1.length)) with
  | .error e => some (.error e, st.2)
  | .ok s =>
    match peer.recv s 8192 with
    | some (response, s') => some (.ok (takeReply tz size response st.1), s')
    | none => if timeout then some (.error .timeout, s) else none

/-- The `while bytes_read < size` loop, for at most `fuel` passes: `all_bytes` or the
exception that ended it, and the far end's last state; `none` while it runs or
waits. -/
def chunkLoop (tz : Tokenizer) (timeout : Bool) (peer : Peer Char σ) (address size : Nat) :
    Nat → List Nat × σ → Option (Except PyError (List Nat) × σ)
  | 0, st => if st.1.length < size then none else some (.ok st.1, st.2)
  | fuel + 1, st =>
    if st.1.length < size then
      match chunkStep tz timeout peer address size st with
      | none => none
      | some (.error e, s) => some (.error e, s)
      | some (.ok acc, s) => chunkLoop tz timeout peer address size fuel (acc, s)
    else some (.ok st.1, st.2)

/-- The greeting `s.recv(1024)`, then the loop. -/
def chunkRead (tz : Tokenizer) (timeout : Bool) (peer : Peer Char σ) (s : σ)
    (address size fuel : Nat) : Option (Except PyError (List Nat) × σ) :=
  match peer.recv s 1024 with
  | some (_, s') => chunkLoop tz timeout peer address size fuel ([], s')
  | none => if timeout then some (.error .timeout, s) else none

namespace DisplayMemory

/-- `display_memory.read_memory_region(address, size)` against a far end in state
`s`, within `fuel` passes: `all_bytes[:size]`, or `[]` when a socket call raised (its
socket has a timeout), and the far end's last state. -/
def readMemoryRegion (peer : Peer Char σ) (s : σ) (address size fuel : Nat) :
    Option (List Nat × σ) :=
  (chunkRead Tokenizer.displayMemory true peer s address size fuel).map fun r =>
    match r.1 with
    | .ok allBytes => (allBytes.take size, r.2)
    | .error _ => ([], r.2)

end DisplayMemory

namespace FindElfSections

/-- `find_elf_sections.read_memory(addr, size)`: `bytes(data)`, or the exception a
socket call raised (its socket has no timeout). -/
def readMemory (peer : Peer Char σ) (s : σ) (addr size fuel : Nat) :
    Option (Except PyError (List UInt8) × σ) :=
  (chunkRead Tokenizer.findElfSections false peer s addr size fuel).map fun r =>
    (r.1.map fun data => data.map UInt8.ofNat, r.2)

end FindElfSections

/-- One request and one reply on a socket with a timeout, every exception caught:
the greeting, the request for `size` bytes, one `recv(8192)` parsed whole, and `[]`
when a call raised. -/
def sampleRead (tz : Tokenizer) (peer : Peer Char σ) (s : σ) (address size : Nat) : List Nat × σ :=
  match peer.recv s 1024 with
  | none => ([], s)
  | some (_, s) =>
    match peer.send s (xpCommand size address) with
    | .error _ => ([], s)
    | .ok s =>
      match peer.recv s 8192 with
      | none => ([], s)
      | some (response, s) => (replyValues tz response, s)

namespace FindVideoMemory

/-- `find_video_memory.read_memory(address, size)` (the script's default `size` is
256). -/
def readMemory (peer : Peer Char σ) (s : σ) (address size : Nat) : List Nat × σ :=
  sampleRead Tokenizer.findVideoMemory peer s address size

end FindVideoMemory

namespace ScanForVideo

/-- `scan_for_video.read_memory_sample(address, size)` (the script's default `size`
is 1024). -/
def readMemorySample (peer : Peer Char σ) (s : σ) (address size : Nat) : List Nat × σ :=
  sampleRead Tokenizer.scanForVideo peer s address size

end ScanForVideo

/-- A greeting that the first `recv(1024)` takes whole. -/
def WholeGreeting (greeting : List Char) : Prop := greeting ≠ [] ∧ greeting.length ≤ 1024

instance (greeting : List Char) : Decidable (WholeGreeting greeting) :=
  inferInstanceAs (Decidable (_ ∧ _))

theorem recv_wholeGreeting (c : Option Nat) {greeting : List Char} (h : WholeGreeting greeting)
    (sent : List (List Char)) :
    Wire.recv c ⟨greeting, [], sent⟩ 1024 = some (greeting, ⟨[], [], sent⟩) :=
  Wire.recv_all c h.1 sent h.2

/-- After a greeting the first `recv` takes whole, the loop starts on a socket with
nothing unread. -/
theorem chunkRead_wholeGreeting (tz : Tokenizer) (timeout : Bool) (reply : Nat → List Char → List Char)
    {greeting : List Char} (h : WholeGreeting greeting) (sent : List (List Char)) (address size fuel : Nat) :
    chunkRead tz timeout (Wire.peer reply) ⟨greeting, [], sent⟩ address size fuel =
      chunkLoop tz timeout (Wire.peer reply) address size fuel ([], ⟨[], [], sent⟩) := by
  rw [chunkRead, Wire.peer_recv, recv_wholeGreeting none h]

/-! ## Whole replies -/

/-- The requests of a read of `n` bytes from `a`: `(address, count)` pairs of at
most 256 bytes each, in increasing order, covering `[a, a + n)` exactly. -/
inductive Tiles : Nat → Nat → List (Nat × Nat) → Prop
  | nil (a : Nat) : Tiles a 0 []
  | cons {a c n : Nat} {ts : List (Nat × Nat)} :
      0 < c → c ≤ 256 → Tiles (a + c) n ts → Tiles a (c + n) ((a, c) :: ts)

section Whole

variable (M : Memory) (reply : Nat → List Char → List Char)
  (hreply : ∀ j count addr, ListsBytes (memSlice M addr count) (reply j (xpCommand count addr)))

include hreply in
/-- One pass against a far end that answers with a whole reply: the next chunk of
memory is appended and the request is recorded. -/
theorem chunkStep_whole (tz : Tokenizer) (timeout : Bool) (address size m : Nat)
    (sent : List (List Char)) (hm : m < size)
    (hfit : (reply sent.length (xpCommand (min 256 (size - m)) (address + m))).length ≤ 8192) :
    chunkStep tz timeout (Wire.peer reply) address size
        ((memSlice M address m).map UInt8.toNat, ⟨[], [], sent⟩) =
      some (.ok ((memSlice M address (m + min 256 (size - m))).map UInt8.toNat),
        ⟨[], [], sent ++ [xpCommand (min 256 (size - m)) (address + m)]⟩) := by
  have hl := hreply sent.length (min 256 (size - m)) (address + m)
  have hr := replyValues_of_listsBytes tz hl
  have hne := hl.ne_nil (by rw [← List.length_pos, length_memSlice]; omega)
  simp only [chunkStep, List.length_map, length_memSlice, Wire.peer_send, List.nil_append,
    Wire.peer_recv, Wire.recv_all none hne _ hfit]
  rw [takeReply_eq _ _ _ _ (by simp only [hr, List.length_map, length_memSlice]; omega), hr,
    memSlice_add, List.map_append]

include hreply in
/-- The loop against a far end that answers with whole replies.  The requests it
sends do not depend on the copy of the tokenizer, nor on the socket's timeout. -/
theorem chunkLoop_whole (address size : Nat)
    (hfit : ∀ j count addr, count ≤ 256 → addr + count ≤ address + size →
      (reply j (xpCommand count addr)).length ≤ 8192) :
    ∀ fuel m sent, m ≤ size → (size - m + 255) / 256 ≤ fuel →
      ∃ ts, Tiles (address + m) (size - m) ts ∧ ∀ (tz : Tokenizer) (timeout : Bool),
        chunkLoop tz timeout (Wire.peer reply) address size fuel
            ((memSlice M address m).map UInt8.toNat, ⟨[], [], sent⟩) =
          some (.ok ((memSlice M address size).map UInt8.toNat),
            ⟨[], [], sent ++ ts.map fun t => xpCommand t.2 t.1⟩) := by
  intro fuel
  induction fuel with
  | zero =>
    intro m sent hm hf
    obtain rfl : m = size := by omega
    exact ⟨[], by simpa using Tiles.nil _, fun tz timeout => by simp [chunkLoop]⟩
  | succ fuel ih =>
    intro m sent hm hf
    by_cases hlt : m < size
    · obtain ⟨ts, hts, hrun⟩ := ih (m + min 256 (size - m))
        (sent ++ [xpCommand (min 256 (size - m)) (address + m)]) (by omega) (by omega)
      refine ⟨(address + m, min 256 (size - m)) :: ts, ?_, fun tz timeout => ?_⟩
      · have hcons : Tiles (address + m) (min 256 (size - m) + (size - (m + min 256 (size - m))))
            ((address + m, min 256 (size - m)) :: ts) :=
          Tiles.cons (by omega) (Nat.min_le_left _ _) (by rwa [← Nat.add_assoc] at hts)
        rwa [show min 256 (size - m) + (size - (m + min 256 (size - m))) = size - m by omega] at hcons
      · rw [chunkLoop, if_pos (by simpa using hlt),
          chunkStep_whole M reply hreply tz timeout _ _ _ _ hlt (hfit _ _ _ (Nat.min_le_left _ _)
            (by omega))]
        simp only [hrun tz timeout, List.append_assoc, List.map_cons, List.singleton_append]
    · obtain rfl : m = size := by omega
      exact ⟨[], by simpa using Tiles.nil _, fun tz timeout => by simp [chunkLoop]⟩

include hreply in
/-- The greeting and the loop, against a far end that answers with whole replies. -/
theorem chunkRead_whole (address size : Nat) {greeting : List Char} (hgreeting : WholeGreeting greeting)
    (hfit : ∀ j count addr, count ≤ 256 → addr + count ≤ address + size →
      (reply j (xpCommand count addr)).length ≤ 8192)
    {fuel : Nat} (hfuel : (size + 255) / 256 ≤ fuel) :
    ∃ ts, Tiles address size ts ∧ ∀ (tz : Tokenizer) (timeout : Bool),
      chunkRead tz timeout (Wire.peer reply) ⟨greeting, [], []⟩ address size fuel =
        some (.ok ((memSlice M address size).map UInt8.toNat), ⟨[], [], ts.map fun t => xpCommand t.2 t.1⟩) := by
  obtain ⟨ts, hts, hrun⟩ := chunkLoop_whole M reply hreply address size hfit fuel 0 []
    (Nat.zero_le _) (by simpa using hfuel)
  refine ⟨ts, by simpa using hts, fun tz timeout => ?_⟩
  have h0 : (memSlice M address 0).map UInt8.toNat = [] := rfl
  rw [chunkRead_wholeGreeting tz timeout reply hgreeting]
  simpa only [h0, List.nil_append] using hrun tz timeout

include hreply in
/-- **Chunked reads are transparent.**  When the first `recv` takes the whole
greeting and every later `recv` the whole reply to the last request, both chunked
readers return exactly `M[address..address+size)`, whatever the greeting, the
plain lines of the replies and the width of their rows, once the loop has had
`⌈size/256⌉` passes; the requests they sent are `xp/<c>xb 0x<a>` for a tiling of the
range by chunks of at most 256 bytes in increasing order.  A reply arrives whole in
a `recv(8192)` only if it has at most 8192 characters, hence `hfit`. -/
theorem readers_transparent (address size : Nat) (greeting : List Char) (fuel : Nat)
    (hgreeting : WholeGreeting greeting)
    (hfit : ∀ j count addr, count ≤ 256 → addr + count ≤ address + size →
      (reply j (xpCommand count addr)).length ≤ 8192)
    (hfuel : (size + 255) / 256 ≤ fuel) :
    ∃ ts, Tiles address size ts ∧
      DisplayMemory.readMemoryRegion (Wire.peer reply) ⟨greeting, [], []⟩ address size fuel =
        some ((memSlice M address size).map UInt8.toNat,
          ⟨[], [], ts.map fun t => xpCommand t.2 t.1⟩) ∧
      FindElfSections.readMemory (Wire.peer reply) ⟨greeting, [], []⟩ address size fuel =
        some (.ok (memSlice M address size), ⟨[], [], ts.map fun t => xpCommand t.2 t.1⟩) := by
  obtain ⟨ts, hts, hrun⟩ := chunkRead_whole M reply hreply address size hgreeting hfit hfuel
  refine ⟨ts, hts, ?_, ?_⟩
  · simp [DisplayMemory.readMemoryRegion, hrun]
  · have hb : ∀ b : UInt8, UInt8.ofNat b.toNat = b := fun b =>
      UInt8.toNat.inj (UInt8.toNat_ofNat_of_lt b.toNat_lt_size)
    simp [FindElfSections.readMemory, hrun, Except.map, Function.comp_def, hb]

end Whole

/-- The reference monitor, eight bytes to a row, meets the hypotheses of
`readers_transparent`, and a read of 300 bytes takes two passes. -/
theorem readers_transparent_qemu :
    (∀ j count addr : Nat, ListsBytes (memSlice (fun i => UInt8.ofNat i) addr count)
      ((fun _ => qemuReply (fun i => UInt8.ofNat i) 8) j (xpCommand count addr))) ∧
    WholeGreeting prompt ∧
    (∀ j count addr : Nat, count ≤ 256 → addr + count ≤ 0x1000 + 300 →
      ((fun _ => qemuReply (fun i => UInt8.ofNat i) 8) j (xpCommand count addr)).length ≤ 8192) ∧
    (300 + 255) / 256 ≤ 2 ∧
    ∃ ts, Tiles 0x1000 300 ts ∧
      DisplayMemory.readMemoryRegion (Wire.peer fun _ => qemuReply (fun i => UInt8.ofNat i) 8)
          ⟨prompt, [], []⟩ 0x1000 300 2 =
        some ((memSlice (fun i => UInt8.ofNat i) 0x1000 300).map UInt8.toNat,
          ⟨[], [], ts.map fun t => xpCommand t.2 t.1⟩) ∧
      FindElfSections.readMemory (Wire.peer fun _ => qemuReply (fun i => UInt8.ofNat i) 8)
          ⟨prompt, [], []⟩ 0x1000 300 2 =
        some (.ok (memSlice (fun i => UInt8.ofNat i) 0x1000 300),
          ⟨[], [], ts.map fun t => xpCommand t.2 t.1⟩) :=
  have hfit : ∀ j count addr : Nat, count ≤ 256 → addr + count ≤ 0x1000 + 300 →
      ((fun _ => qemuReply (fun i => UInt8.ofNat i) 8) j (xpCommand count addr)).length ≤ 8192 :=
    fun _ _ _ hc ha => length_qemuReply_le _ (by omega) (by omega)
  ⟨fun _ c a => qemuReply_listsBytes _ (by decide) c a, by decide, hfit, by decide,
    readers_transparent (fun i => UInt8.ofNat i) (fun _ => qemuReply (fun i => UInt8.ofNat i) 8)
      (fun _ c a => qemuReply_listsBytes _ (by decide) c a) 0x1000 300 prompt 2 (by decide) hfit
      (by decide)⟩

/-! ## Replies cut by `recv`

Each pass takes exactly one `recv`.  When it returns part of a reply, the parse
reads a token cut in two as another number and the rest of the reply arrives
with the next request's answer, where it is read as that answer. -/

/-- With `M[0] = 0x4c`, `M[1] = 0x46`, one byte to a row, and a `recv` that stops
after `0000000000000000: 0x4`: both readers return `0x04` for `M[0]`, and
`find_elf_sections.read_memory` returns three bytes for a read of two, the `break`
having left only the token loop. -/
theorem readers_misplace_bytes :
    (DisplayMemory.readMemoryRegion (Wire.peer fun _ => qemuReply (fun i => if i = 0 then 0x4c else 0x46) 1)
      ⟨prompt, [6, 20], []⟩ 0 2 2).map Prod.fst = some [0x04, 0x46] ∧
    (FindElfSections.readMemory (Wire.peer fun _ => qemuReply (fun i => if i = 0 then 0x4c else 0x46) 1)
      ⟨prompt, [6, 20], []⟩ 0 2 2).map Prod.fst = some (.ok [0x04, 0x46, 0x46]) := by
  decide

/-! ## Progress -/

end Haywire.Monitor
