import Haywire.Py.Builtins

/-!
# Sockets and the far end

Every script talks to QEMU through a TCP socket: a request is one `send`, and a
reply is read with one or more `recv(bufsize)` calls.  What a `recv` returns is
not up to the script: the kernel hands over at most `bufsize` bytes of what the
far end has sent and has arrived.  The readers are therefore modelled against an
arbitrary `Peer`, a state machine that answers `send` and `recv`, and the theorems
choose the peer.

* `send` may raise; it raises `BrokenPipeError` once the far end has closed.
* `recv` answers `none` when it has to wait: nothing has arrived on a live
  connection.  On a socket with a timeout (`settimeout`) the call then raises
  `socket.timeout`; on one without, it waits for ever, and the script with it.
  Once the far end has closed and everything it sent has been read, `recv` returns
  `b''` at once, every time.

`Wire` is the peer the theorems use.  Its far end answers the `j`-th message sent
with `reply j msg`, keeps what it has sent and the script has not yet read, and a
schedule `cuts` decides how much of that each `recv` returns: while `cuts` lasts, a
`recv` returns the next `k + 1` unread elements for `k` its head, and after it all
that is unread; never more than `bufsize`.  A reply that arrives in pieces, or late,
is a cut schedule.  `Wire.peer` stays open; `Wire.closing reply m` closes the
connection once it has answered `m` messages.
-/

namespace Haywire

open Py

/-- The far end of a socket as a script sees it: what a `send` of a message does
to it, and what a `recv(bufsize)` returns. -/
structure Peer (α σ : Type) where
  /-- `sock.send(msg)`: the far end's next state, or the exception raised. -/
  send : σ → List α → Except PyError σ
  /-- `sock.recv(bufsize)`: the data returned and the far end's next state, or `none`
  when nothing has arrived on a live connection and the call waits. -/
  recv : σ → Nat → Option (List α × σ)

/-- `n` successive `recv(bufsize)` calls, all of which return: the data each returned,
oldest first, and the far end's state after them. -/
def Peer.recvMany {α σ : Type} (peer : Peer α σ) (bufsize : Nat) :
    Nat → σ → Option (List (List α) × σ)
  | 0, s => some ([], s)
  | n + 1, s =>
    match peer.recv s bufsize with
    | none => none
    | some (data, s') => (peer.recvMany bufsize n s').map fun r => (data :: r.1, r.2)

section RecvMany

variable {α σ : Type} {peer : Peer α σ} {bufsize : Nat}

theorem Peer.recvMany_succ_eq {n : Nat} {s s' : σ} {data : List α} {rest : List (List α)} :
    peer.recvMany bufsize (n + 1) s = some (data :: rest, s') ↔
      ∃ s₁, peer.recv s bufsize = some (data, s₁) ∧ peer.recvMany bufsize n s₁ = some (rest, s') := by
  rw [Peer.recvMany]
  rcases peer.recv s bufsize with _ | ⟨d, s₁⟩
  · simp
  · simp only [Option.map_eq_some', Prod.exists, Prod.mk.injEq, List.cons.injEq, Option.some.injEq]
    constructor
    · rintro ⟨r, s'', hr, ⟨rfl, rfl⟩, rfl⟩
      exact ⟨s₁, ⟨rfl, rfl⟩, hr⟩
    · rintro ⟨_, ⟨rfl, rfl⟩, hr⟩
      exact ⟨_, _, hr, ⟨rfl, rfl⟩, rfl⟩

theorem Peer.length_of_recvMany :
    ∀ {n : Nat} {s s' : σ} {cs : List (List α)}, peer.recvMany bufsize n s = some (cs, s') →
      cs.length = n
  | 0, _, _, _, h => by cases h; rfl
  | n + 1, _, _, [], h => by rw [Peer.recvMany] at h; split at h <;> simp at h
  | n + 1, _, _, _ :: _, h => by
    obtain ⟨_, -, hr⟩ := Peer.recvMany_succ_eq.mp h
    rw [List.length_cons, Peer.length_of_recvMany hr]

/-- The first calls of a run are a run, and the others a run from where they left
the far end. -/
theorem Peer.recvMany_append {pre post : List (List α)} :
    ∀ {s s' : σ}, peer.recvMany bufsize (pre.length + post.length) s = some (pre ++ post, s') →
      ∃ s₁, peer.recvMany bufsize pre.length s = some (pre, s₁) ∧
        peer.recvMany bufsize post.length s₁ = some (post, s') := by
  induction pre with
  | nil => exact fun h => ⟨_, rfl, by simpa using h⟩
  | cons d pre ih =>
    intro s s' h
    rw [List.length_cons, Nat.add_right_comm, List.cons_append] at h
    obtain ⟨s₁, hd, hr⟩ := Peer.recvMany_succ_eq.mp h
    obtain ⟨s₂, h₁, h₂⟩ := ih hr
    exact ⟨s₂, Peer.recvMany_succ_eq.mpr ⟨s₁, hd, h₁⟩, h₂⟩

end RecvMany

/-- A socket whose far end answers the `j`-th message sent with `reply j msg` and
whose `recv` calls are cut by a schedule. -/
structure Wire (α : Type) where
  /-- What the far end has sent and the script has not yet received. -/
  pending : List α
  /-- The lengths, less one, of the next `recv` results; when it is empty a `recv`
  returns everything pending that `bufsize` allows. -/
  cuts : List Nat
  /-- What the script has sent, oldest first. -/
  sent : List (List α)
deriving DecidableEq, Repr

namespace Wire

variable {α : Type}

/-- Whether the far end has closed once `n` messages have reached it: with
`closesAfter = some m`, from its answer to the `m`-th message on. -/
def hasClosed : Option Nat → Nat → Bool
  | none, _ => false
  | some m, n => decide (m ≤ n)

/-- The far end receives `msg`, records it and queues its answer; once it has
closed, the send raises `BrokenPipeError`. -/
def send (reply : Nat → List α → List α) (closesAfter : Option Nat) (w : Wire α)
    (msg : List α) : Except PyError (Wire α) :=
  if hasClosed closesAfter w.sent.length then .error .brokenPipeError
  else .ok { w with pending := w.pending ++ reply w.sent.length msg, sent := w.sent ++ [msg] }

/-- One `recv(bufsize)`: the next piece the schedule allows, at most `bufsize` long;
with nothing pending, `b''` once the far end has closed, and a wait before. -/
def recv (closesAfter : Option Nat) (w : Wire α) (bufsize : Nat) : Option (List α × Wire α) :=
  match w.pending, w.cuts with
  | [], _ => if hasClosed closesAfter w.sent.length then some ([], w) else none
  | a :: p, [] => some ((a :: p).take bufsize, { w with pending := (a :: p).drop bufsize })
  | a :: p, k :: ks =>
    some ((a :: p).take (min (k + 1) bufsize),
      { w with pending := (a :: p).drop (min (k + 1) bufsize), cuts := ks })

/-- The socket over a `Wire` whose far end stays open. -/
def peer (reply : Nat → List α → List α) : Peer α (Wire α) := ⟨send reply none, recv none⟩

/-- An open far end takes every message. -/
@[simp] theorem peer_send (reply : Nat → List α → List α) (w : Wire α) (msg : List α) :
    (peer reply).send w msg =
      .ok { w with pending := w.pending ++ reply w.sent.length msg, sent := w.sent ++ [msg] } := rfl

@[simp] theorem peer_recv (reply : Nat → List α → List α) : (peer reply).recv = recv none := rfl

/-- With nothing pending, a `recv` on an open connection waits. -/
@[simp] theorem recv_nil_open (cuts : List Nat) (sent : List (List α)) (n : Nat) :
    recv none ⟨[], cuts, sent⟩ n = none := rfl

theorem recv_whole (c : Option Nat) {p : List α} (hp : p ≠ []) (sent : List (List α)) (n : Nat) :
    recv c ⟨p, [], sent⟩ n = some (p.take n, ⟨p.drop n, [], sent⟩) := by
  obtain ⟨a, p, rfl⟩ := List.exists_cons_of_ne_nil hp
  rfl

theorem recv_cut (c : Option Nat) {p : List α} (hp : p ≠ []) (k : Nat) (ks : List Nat)
    (sent : List (List α)) (n : Nat) :
    recv c ⟨p, k :: ks, sent⟩ n = some (p.take (min (k + 1) n), ⟨p.drop (min (k + 1) n), ks, sent⟩) := by
  obtain ⟨a, p, rfl⟩ := List.exists_cons_of_ne_nil hp
  rfl

/-- A `recv(n)` with at most `n` elements pending and no cut returns them all. -/
theorem recv_all (c : Option Nat) {p : List α} (hp : p ≠ []) (sent : List (List α)) {n : Nat}
    (hn : p.length ≤ n) : recv c ⟨p, [], sent⟩ n = some (p, ⟨[], [], sent⟩) := by
  rw [recv_whole c hp, List.take_of_length_le hn, List.drop_of_length_le hn]

/-- A `recv(n)` with data pending returns a nonempty piece of it, of at most `n`
elements, and leaves the rest. -/
theorem recv_piece (c : Option Nat) {p : List α} (hp : p ≠ []) (cuts : List Nat)
    (sent : List (List α)) {n : Nat} (hn : 0 < n) :
    ∃ k cuts', 0 < k ∧ k ≤ n ∧ recv c ⟨p, cuts, sent⟩ n = some (p.take k, ⟨p.drop k, cuts', sent⟩) := by
  cases cuts with
  | nil => exact ⟨n, [], hn, le_rfl, recv_whole c hp sent n⟩
  | cons k ks => exact ⟨min (k + 1) n, ks, by omega, Nat.min_le_right _ _, recv_cut c hp k ks sent n⟩

end Wire

end Haywire
