import Haywire.Py.Bytes
import Haywire.Transport.Peer

/-!
# Reading memory through the debug stub

`scan_memory_regions.read_memory_gdb` sends one remote-protocol packet
`$m<addr>,<len>#<cs>` and reads the answer with

```
response = b""
while True:
    data = gdb_sock.recv(4096)
    response += data
    if b'#' in data:
        break
if response.startswith(b'+$'):
    hex_data = response[2:].split(b'#')[0]
    if hex_data and hex_data != b'E':
        return bytes.fromhex(hex_data.decode())
return None
```

The loop stops at the first `recv` result holding a `#`, which is where a reply's
payload ends and two checksum digits still follow: it never reads them.  They stay
on the socket, in front of the next reply, and the next call, whose response then
does not start with `+$`, returns `None` (`consecutive_reads_lose_frame`).

The loop need not end, so it runs on fuel counting `recv` calls; `none` is a loop
still running, or waiting: the socket has no timeout, so a `recv` with nothing to
read waits for ever, and once the stub has closed the connection every `recv`
returns `b''` and the loop spins.  `send` raises `BrokenPipeError` on a connection
the stub has closed, and `decode()` and `bytes.fromhex` may raise; nothing in
`read_memory_gdb` catches them: the result is an `Except`.
-/

namespace Haywire.Gdb

open Py

variable {σ : Type}

/-- `calculate_checksum(data)`: the sum of the code points, `& 0xff`. -/
def calculateChecksum (data : List Char) : Nat := data.foldl (fun acc c => acc + c.toNat) 0 % 256

/-- `f"{n:02x}"`: lower-case hex, padded with zeros to two digits. -/
def format02x (n : Nat) : List Char :=
  List.replicate (2 - (Nat.toDigits 16 n).length) '0' ++ Nat.toDigits 16 n

/-- `f"m{address:x},{size:x}"`. -/
def memCommand (address size : Nat) : List Char :=
  'm' :: Nat.toDigits 16 address ++ ',' :: Nat.toDigits 16 size

/-- `f"${cmd}#{calculate_checksum(cmd):02x}"`. -/
def packet (cmd : List Char) : List Char :=
  '$' :: cmd ++ '#' :: format02x (calculateChecksum cmd)

/-- `b'#'`. -/
def hashByte : UInt8 := 35

/-- The `while True` loop: `recv`, append, stop once the data just received holds a
`#`; at most `fuel` calls. -/
def recvUntilHash (peer : Peer UInt8 σ) : Nat → List UInt8 → σ → Option (List UInt8 × σ)
  | 0, _, _ => none
  | fuel + 1, response, s =>
    match peer.recv s 4096 with
    | none => none
    | some (data, s') =>
      if hashByte ∈ data then some (response ++ data, s')
      else recvUntilHash peer fuel (response ++ data) s'

/-- The parse of the response: the payload between `+$` and the first `#`, unless it
is empty or `E`, through `decode()` and `bytes.fromhex`. -/
def parseResponse (response : List UInt8) : Except PyError (Option (List UInt8)) :=
  if (ascii ['+', '$']).isPrefixOf response then
    let hexData := firstField hashByte (response.drop 2)
    if hexData ≠ [] ∧ hexData ≠ ascii ['E'] then
      (decode hexData).bind fun text => (fromhex text).map some
    else .ok none
  else .ok none

/-- `read_memory_gdb(gdb_sock, address, size)` against a stub in state `s`, within
`fuel` calls to `recv`: what it returns or raises, and the stub's last state. -/
def readMemoryGdb (peer : Peer UInt8 σ) (s : σ) (address size fuel : Nat) :
    Option (Except PyError (Option (List UInt8)) × σ) :=
  match peer.send s (ascii (packet (memCommand address size))) with
  | .error e => some (.error e, s)
  | .ok s' => (recvUntilHash peer fuel [] s').map fun r => (parseResponse r.1, r.2)

/-! ## When the loop returns -/

/-- The loop returns at the first `recv` whose data holds a `#`, with everything
received up to it, and leaves the stub where that call left it. -/
theorem recvUntilHash_of_recvMany (peer : Peer UInt8 σ) {cs : List (List UInt8)}
    {c : List UInt8} {s s' : σ} (h : peer.recvMany 4096 (cs.length + 1) s = some (cs ++ [c], s'))
    (hcs : ∀ d ∈ cs, hashByte ∉ d) (hc : hashByte ∈ c) (response : List UInt8) (fuel : Nat)
    (hfuel : cs.length < fuel) :
    recvUntilHash peer fuel response s = some (response ++ (cs ++ [c]).flatten, s') := by
  induction cs generalizing s response fuel with
  | nil =>
    obtain ⟨fuel, rfl⟩ : ∃ f, fuel = f + 1 := ⟨fuel - 1, by simp at hfuel; omega⟩
    obtain ⟨s₁, hd, hs⟩ := Peer.recvMany_succ_eq.mp h
    cases hs
    simp [recvUntilHash, hd, hc]
  | cons d cs ih =>
    obtain ⟨fuel, rfl⟩ : ∃ f, fuel = f + 1 := ⟨fuel - 1, by simp at hfuel; omega⟩
    obtain ⟨s₁, hd, hs⟩ := Peer.recvMany_succ_eq.mp h
    have hnd : hashByte ∉ d := hcs d (List.mem_cons_self _ _)
    simp only [recvUntilHash, hd, hnd, if_false]
    rw [ih hs (fun d' hd' => hcs d' (List.mem_cons_of_mem _ hd')) _ _ (by simpa using hfuel)]
    simp

/-- The read returns once a `recv` after the request holds a `#`, with the parse of
everything received up to it. -/
theorem readMemoryGdb_of_recvMany (peer : Peer UInt8 σ) (s : σ) (address size : Nat) {s₀ : σ}
    (hsend : peer.send s (ascii (packet (memCommand address size))) = .ok s₀)
    {cs : List (List UInt8)} {c : List UInt8} {s' : σ}
    (h : peer.recvMany 4096 (cs.length + 1) s₀ = some (cs ++ [c], s'))
    (hcs : ∀ d ∈ cs, hashByte ∉ d) (hc : hashByte ∈ c) (fuel : Nat) (hfuel : cs.length < fuel) :
    readMemoryGdb peer s address size fuel = some (parseResponse (cs ++ [c]).flatten, s') := by
  simp [readMemoryGdb, hsend, recvUntilHash_of_recvMany peer h hcs hc [] fuel hfuel]

/-- A response that does not start with `+` parses as `None`: so does every read
made while a byte other than `+` is still unread, such as a checksum digit of the
previous reply. -/
theorem parseResponse_stale {x : UInt8} (hx : x ≠ 43) (rest : List UInt8) :
    parseResponse (x :: rest) = .ok none := by
  simp [parseResponse, ascii, List.isPrefixOf, Ne.symm hx]

/-- A stub that answers the first request with `M[0] = 0x4c` and the second with
`M[1] = 0x46`, each reply with its checksum. -/
def twoReplies (j : Nat) (_request : List UInt8) : List UInt8 :=
  if j = 0 then ascii "+$4c#97".toList else ascii "+$46#6a".toList

/-- Two reads of one byte on one socket, the first reply arriving cut right after its
`#`: the first read returns `[0x4c]`, and the second, whose response starts with the
first reply's checksum `97`, returns `None` instead of `[0x46]`. -/
theorem consecutive_reads_lose_frame :
    (readMemoryGdb (Wire.peer twoReplies) ⟨[], [4], []⟩ 0 1 1).map Prod.fst =
        some (.ok (some [0x4c])) ∧
      ((readMemoryGdb (Wire.peer twoReplies) ⟨[], [4], []⟩ 0 1 1).bind fun r =>
        readMemoryGdb (Wire.peer twoReplies) r.2 1 1 1).map Prod.fst = some (.ok none) := by
  decide

end Haywire.Gdb
