import Haywire.Py.Bytes
import Haywire.Transport.Peer

/-!
# Commands over QMP

`scan_memory_regions.send_qmp_command` sends one JSON command and reads the reply:

```
sock.send((json.dumps(command) + '\n').encode())
response = b""
while b'\n' not in response:
    response += sock.recv(4096)
return json.loads(response.decode().split('\n')[0])
```

and `scan_memory_regions` opens the session with a handshake of two bare `recv`
calls around the `qmp_capabilities` command.

The socket has no timeout: a `recv` with nothing to read waits for ever, and once the
server has closed the connection every `recv` returns `b''` and the loop spins.

JSON is not modelled: a command is the text `json.dumps` makes of it, and
`json.loads` is a parameter `loads`, so that every theorem holds whatever the JSON
parser does with the line it is given.  What the model decides is which line that
is.  `sendQmpCommand_first_line` says it is always the first line of what the socket
delivers after the send, whatever it is and however the stream is cut, and that
the rest of the bytes received is dropped.
-/

namespace Haywire.Qmp

open Py

variable {σ α : Type}

/-- `b'\n'`. -/
def newlineByte : UInt8 := 10

/-- The loop `while b'\n' not in response: response += sock.recv(4096)`, with at most
`fuel` calls to `recv`. -/
def recvLine (peer : Peer UInt8 σ) : Nat → List UInt8 → σ → Option (List UInt8 × σ)
  | 0, response, s => if newlineByte ∈ response then some (response, s) else none
  | fuel + 1, response, s =>
    if newlineByte ∈ response then some (response, s)
    else
      match peer.recv s 4096 with
      | none => none
      | some (data, s') => recvLine peer fuel (response ++ data) s'

/-- `send_qmp_command(sock, command)` against a server in state `s`, within `fuel`
calls to `recv`; `command` is the text of `json.dumps(command)` and `loads` stands
for `json.loads`. -/
def sendQmpCommand (loads : List Char → Except PyError α) (peer : Peer UInt8 σ) (s : σ)
    (command : List Char) (fuel : Nat) : Option (Except PyError α × σ) :=
  match peer.send s (ascii (command ++ ['\n'])) with
  | .error e => some (.error e, s)
  | .ok s' =>
    (recvLine peer fuel [] s').map fun r =>
      ((decode r.1).bind fun text => loads (firstField '\n' text), r.2)

/-- The text of `{"execute": "qmp_capabilities"}` with its newline, as the script
sends it. -/
def capabilitiesCommand : List Char := "\x7b\"execute\": \"qmp_capabilities\"\x7d\n".toList

/-- The handshake of `scan_memory_regions`: `greeting = qmp.recv(4096)`, the
capabilities command, and one more `qmp.recv(4096)` whose data is dropped; the state
it leaves the server in, or the exception raised, and `none` when it waits for ever. -/
def handshake (peer : Peer UInt8 σ) (s : σ) : Option (Except PyError σ) :=
  match peer.recv s 4096 with
  | none => none
  | some (_, s) =>
    match peer.send s (ascii capabilitiesCommand) with
    | .error e => some (.error e)
    | .ok s => (peer.recv s 4096).map fun r => .ok r.2

/-- The text `json.dumps` makes of the `info mtree` command of `scan_memory_regions`. -/
def infoMtreeCommand : List Char :=
  ("\x7b\"execute\": \"human-monitor-command\", " ++
    "\"arguments\": \x7b\"command-line\": \"info mtree\"\x7d\x7d").toList

/-! ## Which line a command returns -/

/-- The loop returns right after the first `recv` whose data holds a newline, with
everything received up to it, when the response it starts from holds none. -/
theorem recvLine_of_recvMany (peer : Peer UInt8 σ) {cs : List (List UInt8)} {c : List UInt8}
    {s s' : σ} (h : peer.recvMany 4096 (cs.length + 1) s = some (cs ++ [c], s'))
    (hcs : ∀ d ∈ cs, newlineByte ∉ d) (hc : newlineByte ∈ c) (response : List UInt8)
    (hresp : newlineByte ∉ response) (fuel : Nat) (hfuel : cs.length < fuel) :
    recvLine peer fuel response s = some (response ++ (cs ++ [c]).flatten, s') := by
  induction cs generalizing s response fuel with
  | nil =>
    obtain ⟨fuel, rfl⟩ : ∃ f, fuel = f + 1 := ⟨fuel - 1, by simp at hfuel; omega⟩
    obtain ⟨s₁, hd, hs⟩ := Peer.recvMany_succ_eq.mp h
    cases hs
    cases fuel <;> simp [recvLine, hd, hc, hresp]
  | cons d cs ih =>
    obtain ⟨fuel, rfl⟩ : ∃ f, fuel = f + 1 := ⟨fuel - 1, by simp at hfuel; omega⟩
    obtain ⟨s₁, hd, hs⟩ := Peer.recvMany_succ_eq.mp h
    have hnd : newlineByte ∉ d := hcs d (List.mem_cons_self _ _)
    simp only [recvLine, hresp, if_false, hd]
    rw [ih hs (fun d' hd' => hcs d' (List.mem_cons_of_mem _ hd')) _ (by simp [hresp, hnd]) _
      (by simpa using hfuel)]
    simp

/-- **What a command returns.**  Let the socket deliver, after the send, chunks
`cs ++ [c]` in which `c` is the first to hold a newline, and split what they hold at
its first newline into `line` and `rest`.  Then `send_qmp_command` returns
`json.loads` of the decoded `line`, whatever that line is (an event, a reply, an
older reply left unread); the bytes of `rest` are received and dropped, and only
make it raise if they are not UTF-8. -/
theorem sendQmpCommand_first_line (loads : List Char → Except PyError α) (peer : Peer UInt8 σ)
    (s : σ) (command : List Char) {s₀ : σ} (hsend : peer.send s (ascii (command ++ ['\n'])) = .ok s₀)
    {cs : List (List UInt8)} {c : List UInt8} {s' : σ}
    (hrecv : peer.recvMany 4096 (cs.length + 1) s₀ = some (cs ++ [c], s'))
    (hcs : ∀ d ∈ cs, newlineByte ∉ d) {line rest : List UInt8}
    (hsplit : (cs ++ [c]).flatten = line ++ newlineByte :: rest) (hline : newlineByte ∉ line)
    (fuel : Nat) (hfuel : cs.length < fuel) :
    sendQmpCommand loads peer s command fuel =
      some ((decode line).bind fun text => (decode rest).bind fun _ => loads text, s') := by
  have hc : newlineByte ∈ c := by
    have hin : newlineByte ∈ (cs ++ [c]).flatten := by simp [hsplit]
    simp only [List.flatten_append, List.mem_append, List.mem_flatten] at hin
    rcases hin with ⟨d, hd, hnd⟩ | hin
    · exact absurd hnd (hcs d hd)
    · simpa using hin
  simp only [sendQmpCommand, hsend, recvLine_of_recvMany peer hrecv hcs hc [] (by simp) fuel hfuel,
    Option.map_some', List.nil_append, hsplit]
  exact congrArg (fun x => some (x, s')) (decode_firstLine line rest hline loads)

/-- The reply `{"return": {}}`, without its newline. -/
def emptyReturn : List Char := "\x7b\"return\": \x7b\x7d\x7d".toList

/-- A reply cut after four bytes: the command returns it all the same. -/
theorem sendQmpCommand_first_line_cut :
    (Wire.peer fun _ _ => ascii (emptyReturn ++ ['\n'])).send ⟨[], [3], []⟩
        (ascii (infoMtreeCommand ++ ['\n'])) =
      .ok ⟨ascii (emptyReturn ++ ['\n']), [3], [ascii (infoMtreeCommand ++ ['\n'])]⟩ ∧
    (Wire.peer fun _ _ => ascii (emptyReturn ++ ['\n'])).recvMany 4096 ([ascii (emptyReturn.take 4)].length + 1)
        ⟨ascii (emptyReturn ++ ['\n']), [3], [ascii (infoMtreeCommand ++ ['\n'])]⟩ =
      some ([ascii (emptyReturn.take 4)] ++ [ascii (emptyReturn.drop 4 ++ ['\n'])],
        ⟨[], [], [ascii (infoMtreeCommand ++ ['\n'])]⟩) ∧
    (∀ d ∈ [ascii (emptyReturn.take 4)], newlineByte ∉ d) ∧
    ([ascii (emptyReturn.take 4)] ++ [ascii (emptyReturn.drop 4 ++ ['\n'])]).flatten =
      ascii emptyReturn ++ newlineByte :: [] ∧
    newlineByte ∉ ascii emptyReturn ∧ [ascii (emptyReturn.take 4)].length < 2 ∧
    sendQmpCommand Except.ok (Wire.peer fun _ _ => ascii (emptyReturn ++ ['\n'])) ⟨[], [3], []⟩
        infoMtreeCommand 2 =
      some ((decode (ascii emptyReturn)).bind fun text => (decode []).bind fun _ => Except.ok text,
        ⟨[], [], [ascii (infoMtreeCommand ++ ['\n'])]⟩) :=
  ⟨rfl, by decide, by decide, by decide, by decide, by decide,
    @sendQmpCommand_first_line _ _ Except.ok _ _ _ _ rfl [ascii (emptyReturn.take 4)]
      (ascii (emptyReturn.drop 4 ++ ['\n'])) _ (by decide) (by decide) (ascii emptyReturn) []
      (by decide) (by decide) 2 (by decide)⟩

/-! ## Events and leftovers -/

/-- An asynchronous event, without its newline. -/
def stopEvent : List Char := "\x7b\"event\": \"STOP\"\x7d".toList

/-- A greeting, with its newline. -/
def greeting : List Char := "\x7b\"QMP\": \x7b\"capabilities\": []\x7d\x7d\n".toList

/-- A server that answers `qmp_capabilities`, then `info mtree`. -/
def sessionReplies (j : Nat) (_command : List UInt8) : List UInt8 :=
  if j = 0 then ascii (emptyReturn ++ ['\n'])
  else ascii "\x7b\"return\": \"system\"\x7d\n".toList

/-- With `json.loads` read as the identity on lines: a command whose reply follows an
event returns the event; and after a handshake whose greeting arrived in two pieces,
`info mtree` returns the reply to `qmp_capabilities`, left unread by the handshake. -/
theorem qmp_replies_mismatched :
    (sendQmpCommand Except.ok
        (Wire.peer fun _ _ => ascii (stopEvent ++ '\n' :: emptyReturn ++ ['\n']))
        ⟨[], [], []⟩ infoMtreeCommand 1).map Prod.fst = some (.ok stopEvent) ∧
      ((handshake (Wire.peer sessionReplies) ⟨ascii greeting, [9, 19], []⟩).bind fun r =>
        r.toOption.bind fun s =>
          (sendQmpCommand Except.ok (Wire.peer sessionReplies) s infoMtreeCommand 1).map Prod.fst) =
        some (.ok emptyReturn) := by
  decide

end Haywire.Qmp
