import Haywire.Remote.GdbStub
import Haywire.Py.Builtins

/-!
# The region scan of `scan_memory_regions`

```
for base_addr, description in regions:
    try:
        sample1 = read_memory_gdb(gdb, base_addr, 4096)
        if not sample1: continue
        sample2 = read_memory_gdb(gdb, base_addr, 4096)
        if not sample2: continue
        changes = sum(1 for a, b in zip(sample1, sample2) if a != b)
        non_zero = sum(1 for b in sample1 if b != 0)
        if non_zero > 0:
            ... status, active_regions.append((base_addr, description, changes)) ...
            if changes > 10:
                for offset in range(0, 0x100000, 0x10000):
                    s1 = read_memory_gdb(gdb, base_addr + offset, 256)
                    s2 = read_memory_gdb(gdb, base_addr + offset, 256)
                    if s1 and s2: ... print the count of changed bytes if any ...
    except Exception as e:
        pass
```

All reads share one socket.  The loop is modelled once, over a `Reader`: one call of
`read_memory_gdb` from the socket's state.  `gdbReader` is the code's, over a
`Peer`; `viewReader` is the read as its author meant it, which gets the stub's answer
to every request whole.  A raise and a falsy sample both end the region's body with
what was printed so far, as `except Exception: pass` and `continue` do.  The sleeps
do nothing here: a `Stub` already lets the guest run between any two requests.

The gdb socket has no timeout, and QEMU's stub sends nothing until it is asked: the
greeting `gdb.recv(1024)` waits there for ever (`scanMemoryRegions_observed`).  The
results below are about the loop over the regions, from the state that `recv` would
leave, had it returned.

* **Safety** (`scanMemoryRegions_observed`).  Whatever the cut schedule of the socket,
  from any state where at most a tail of one checksum is unread, the loop returns,
  and everything it prints comes from two consecutive answers of the stub for one
  range: each status line from the answers to requests `j` and `j + 1` for the
  region's first 4096 bytes, and each line of a thorough scan likewise for 256 bytes.
  The checksum digits that `read_memory_gdb` leaves unread
  (`consecutive_reads_lose_frame`) make it skip regions, never report a change that did
  not happen.  The proof is one lemma per level (`thoroughScan_safe`,
  `scanRegion_safe`, `regionLoop_safe`) over any `SafeReader`.
* **Refinement** (`scanMemoryRegions_refines`).  When every `recv` returns as much as
  it may, 4096 bytes or all that is unread, so that the 8197 bytes of the reply to a
  4096-byte read come in three, the loop over the socket returns exactly what the loop
  over `viewReader` returns.
* **A quiet guest** (`scanMemoryRegions_quiet`).  When nothing changes, no region is
  active, no thorough scan is made, and the status lines are exactly those of the
  regions whose 4096 bytes the stub serves with a byte other than zero.

The report sorts `active_regions` with the stable `sorted(..., reverse=True)`: the
five regions it lists are the first of the active regions in decreasing order of
their changes, ties in the order the scan found them (`mostActive_stable`).  The QMP
half of `scan_memory_regions` (the handshake of `Haywire.Qmp`, then `info mtree`)
uses another socket and is not modelled here.
-/

namespace Haywire.ScanRegions

open Py Gdb

variable {σ τ : Type}

/-! ## The loop -/

/-- One call `read_memory_gdb(gdb, address, size)` from the socket's state `σ`: what
it returns or raises and the next state, `none` for a call that does not return. -/
abbrev Reader (σ : Type) := σ → Nat → Nat → Option (Except PyError (Option (List UInt8)) × σ)

/-- `read_memory_gdb` over the stub's socket, each call within `fuel` calls to
`recv`.  A `BrokenPipeError` of its `send` is one more exception for the `except`. -/
def gdbReader (peer : Peer UInt8 σ) (fuel : Nat) : Reader σ :=
  fun s address size => readMemoryGdb peer s address size fuel

/-- The read as its author meant it: the `j`-th request gets the stub's answer to it,
and the state counts requests. -/
def viewReader (stub : Stub) : Reader Nat :=
  fun j address size => some (viewResult (stub.view j address size), j + 1)

/-- `regions`: the thirteen places sampled, with their descriptions. -/
def regions : List (Nat × List Char) :=
  [(0x00000000, "Low memory / vectors".toList),
   (0x40000000, "Typical RAM start (1GB)".toList),
   (0x80000000, "Alternative RAM (2GB)".toList),
   (0xC0000000, "High RAM (3GB)".toList),
   (0x100000000, "Extended RAM (4GB+)".toList),
   (0x140000000, "Extended RAM (5GB)".toList),
   (0x180000000, "Extended RAM (6GB)".toList),
   (0x08000000, "Device memory".toList),
   (0x09000000, "PCI/Device region".toList),
   (0x0a000000, "PCI Config".toList),
   (0x10000000, "Platform devices".toList),
   (0x3eff0000, "VGA/Graphics region".toList),
   (0x50000000, "GIC region".toList)]

/-- The status printed for a region with content. -/
inductive Status where
  /-- `ACTIVE! {changes} bytes changed`. -/
  | active (changes : Nat)
  /-- `Static content ({non_zero} non-zero bytes)`. -/
  | static (nonZero : Nat)
  /-- `Sparse ({non_zero} non-zero bytes)`. -/
  | sparse (nonZero : Nat)
deriving DecidableEq, Repr

/-- The `if changes > 0 / elif non_zero > 100 / else` of the status. -/
def status (changes nonZero : Nat) : Status :=
  if 0 < changes then .active changes else if 100 < nonZero then .static nonZero else .sparse nonZero

/-- `sum(1 for a, b in zip(s1, s2) if a != b)`. -/
def countChanges (s1 s2 : List UInt8) : Nat := (s1.zip s2).countP fun p => p.1 != p.2

/-- `sum(1 for b in sample if b != 0)`. -/
def nonZero (sample : List UInt8) : Nat := sample.countP (· != 0)

/-- What the scan has printed and collected. -/
structure Scan where
  /-- The status lines: base address, description, status. -/
  lines : List (Nat × List Char × Status)
  /-- `active_regions`. -/
  activeRegions : List (Nat × List Char × Nat)
  /-- The lines of the thorough scans: address, and count of changed bytes. -/
  diffs : List (Nat × Nat)
deriving DecidableEq, Repr

/-- Nothing printed yet. -/
def Scan.empty : Scan := ⟨[], [], []⟩

/-- The status line of a region with content, and `active_regions.append` when bytes
changed. -/
def Scan.record (out : Scan) (region : Nat × List Char) (changes nonZero : Nat) : Scan :=
  { out with
    lines := out.lines ++ [(region.1, region.2, status changes nonZero)]
    activeRegions :=
      if 0 < changes then out.activeRegions ++ [(region.1, region.2, changes)] else out.activeRegions }

/-- `if s1 and s2:` the count of changed bytes, printed when it is not zero. -/
def Scan.noteDiff (out : Scan) (address : Nat) : Option (List UInt8) → Option (List UInt8) → Scan
  | some (b₁ :: t₁), some (b₂ :: t₂) =>
    if 0 < countChanges (b₁ :: t₁) (b₂ :: t₂) then
      { out with diffs := out.diffs ++ [(address, countChanges (b₁ :: t₁) (b₂ :: t₂))] }
    else out
  | _, _ => out

/-- The thorough scan: two reads of 256 bytes at each offset; a raise ends it, and
with it the region's body. -/
def thoroughScan (read : Reader σ) (base : Nat) : List Nat → σ × Scan → Option (σ × Scan)
  | [], st => some st
  | offset :: offsets, (s, out) =>
    match read s (base + offset) 256 with
    | none => none
    | some (.error _, s) => some (s, out)
    | some (.ok s1, s) =>
      match read s (base + offset) 256 with
      | none => none
      | some (.error _, s) => some (s, out)
      | some (.ok s2, s) => thoroughScan read base offsets (s, out.noteDiff (base + offset) s1 s2)

/-- A sample unless it is falsy (`None`, `b''`) or the read raised: either way the
region's body ends there. -/
def truthy : Except PyError (Option (List UInt8)) → Option (List UInt8)
  | .ok (some (b :: bs)) => some (b :: bs)
  | _ => none

/-- The body of the loop for one region. -/
def scanRegion (read : Reader σ) (st : σ × Scan) (region : Nat × List Char) : Option (σ × Scan) :=
  match read st.1 region.1 4096 with
  | none => none
  | some (r₁, s) =>
    match truthy r₁ with
    | none => some (s, st.2)
    | some sample1 =>
      match read s region.1 4096 with
      | none => none
      | some (r₂, s) =>
        match truthy r₂ with
        | none => some (s, st.2)
        | some sample2 =>
          if 0 < nonZero sample1 then
            if 10 < countChanges sample1 sample2 then
              thoroughScan read region.1 (range 0 0x100000 0x10000)
                (s, st.2.record region (countChanges sample1 sample2) (nonZero sample1))
            else some (s, st.2.record region (countChanges sample1 sample2) (nonZero sample1))
          else some (s, st.2)

/-- `for base_addr, description in regions:`. -/
def regionLoop (read : Reader σ) (regions : List (Nat × List Char)) (st : σ × Scan) :
    Option (σ × Scan) :=
  regions.foldlM (scanRegion read) st

/-- The GDB half of `scan_memory_regions` from the connection's state `s`: the greeting
`gdb.recv(1024)`, then the loop over `regions`; what it printed and collected, and the
socket's last state. -/
def scanMemoryRegions (peer : Peer UInt8 σ) (s : σ) (fuel : Nat) : Option (Scan × σ) :=
  match peer.recv s 1024 with
  | none => none
  | some (_, s) => (regionLoop (gdbReader peer fuel) regions (s, Scan.empty)).map fun r => (r.2, r.1)

/-- `sorted(active_regions, key=lambda x: x[2], reverse=True)[:5]`. -/
def mostActive (activeRegions : List (Nat × List Char × Nat)) : List (Nat × List Char × Nat) :=
  (sortedDesc (fun a b => decide (a.2.2 ≤ b.2.2)) activeRegions).take 5

/-! ## The report -/

/-- Two lists in decreasing order of a key that agree, key by key, on the elements
of that key and their order, are equal. -/
theorem eq_of_sorted_of_ties {α : Type} (key : α → Nat) :
    ∀ {ys zs : List α}, ys.Pairwise (fun a b => key b ≤ key a) →
      zs.Pairwise (fun a b => key b ≤ key a) →
      (∀ c, ys.filter (fun a => key a = c) = zs.filter (fun a => key a = c)) → ys = zs
  | [], zs, _, _, h => by
    match zs, h with
    | [], _ => rfl
    | b :: _, h => simpa using (h (key b)).symm
  | a :: ys, zs, hy, hz, h => by
    obtain ⟨b, zs, rfl⟩ : ∃ b zs', zs = b :: zs' := by
      cases zs with
      | nil => simpa using h (key a)
      | cons b zs => exact ⟨b, zs, rfl⟩
    have hmem : ∀ {x : α} {xs : List α}, (∀ y ∈ xs, key y ≤ key x) → ∀ y ∈ x :: xs, key y ≤ key x :=
      fun hx y hy => (List.mem_cons.mp hy).elim (fun h => h ▸ le_rfl) (hx y)
    have hba : key b ≤ key a := hmem (fun _ h => List.rel_of_pairwise_cons hy h) b
      (List.mem_of_mem_filter (by rw [h (key b)]; simp))
    have hab : key a ≤ key b := hmem (fun _ h => List.rel_of_pairwise_cons hz h) a
      (List.mem_of_mem_filter (by rw [← h (key a)]; simp))
    have hkey : key a = key b := le_antisymm hab hba
    have hc := h (key a)
    simp only [List.filter_cons, decide_True, if_true, hkey] at hc
    obtain ⟨rfl, -⟩ := List.cons.inj hc
    refine congrArg _ (eq_of_sorted_of_ties key hy.of_cons hz.of_cons fun c => ?_)
    have := h c
    by_cases hc' : key a = c <;> simpa [List.filter_cons, hc'] using this

theorem pairwise_sortedDesc_changes (xs : List (Nat × List Char × Nat)) :
    (sortedDesc (fun a b => decide (a.2.2 ≤ b.2.2)) xs).Pairwise
      fun a b => decide (b.2.2 ≤ a.2.2) = true := by
  refine List.sorted_mergeSort (fun a b c h1 h2 => ?_) (fun a b => ?_) xs
  · simp only [decide_eq_true_eq] at h1 h2 ⊢; omega
  · simp only [Bool.or_eq_true, decide_eq_true_eq]; omega

/-- The sort keeps the regions of one count in their order: merge sort is stable. -/
theorem filter_sortedDesc_changes (xs : List (Nat × List Char × Nat)) (c : Nat) :
    (sortedDesc (fun a b => decide (a.2.2 ≤ b.2.2)) xs).filter (fun a => a.2.2 = c) =
      xs.filter (fun a => a.2.2 = c) := by
  have hsub : List.Sublist (xs.filter (fun a => a.2.2 = c))
      (sortedDesc (fun a b => decide (a.2.2 ≤ b.2.2)) xs) := by
    refine List.sublist_mergeSort (fun a b d h1 h2 => ?_) (fun a b => ?_) ?_ (List.filter_sublist xs)
    · simp only [decide_eq_true_eq] at h1 h2 ⊢; omega
    · simp only [Bool.or_eq_true, decide_eq_true_eq]; omega
    · exact List.Pairwise.imp_of_mem (fun ha hb _ => by
        simp only [List.mem_filter, decide_eq_true_eq] at ha hb
        simp [ha.2, hb.2]) (List.pairwise_of_forall fun _ _ => trivial)
  have hf := hsub.filter (fun a => a.2.2 = c)
  rw [List.filter_filter] at hf
  simp only [Bool.and_self] at hf
  exact (hf.eq_of_length ((perm_sortedDesc _ xs).filter _).length_eq.symm).symm

/-- **The report keeps the order of ties.**  `Most active regions` lists the first
five of the one list that orders `active_regions` by decreasing count of changes and
keeps the regions of one count in the order the scan found them, as the stable
`sorted(..., reverse=True)` does. -/
theorem mostActive_stable (activeRegions ys : List (Nat × List Char × Nat))
    (hsorted : ys.Pairwise fun a b => b.2.2 ≤ a.2.2)
    (hties : ∀ c, ys.filter (fun a => a.2.2 = c) = activeRegions.filter (fun a => a.2.2 = c)) :
    mostActive activeRegions = ys.take 5 := by
  exact congrArg (List.take 5) (eq_of_sorted_of_ties (fun a => a.2.2)
    ((pairwise_sortedDesc_changes activeRegions).imp fun h => of_decide_eq_true h) hsorted
    fun c => (filter_sortedDesc_changes activeRegions c).trans (hties c).symm)

/-- Three regions, two of them with three changes: the report lists the one with
seven first, then the other two in the order they were found. -/
theorem mostActive_stable_ties :
    [(0x40000000, "b".toList, 7), (0, "a".toList, 3), (0x80000000, "c".toList, 3)].Pairwise
        (fun a b => b.2.2 ≤ a.2.2) ∧
      (∀ c, [(0x40000000, "b".toList, 7), (0, "a".toList, 3), (0x80000000, "c".toList, 3)].filter
          (fun a => a.2.2 = c) =
        [(0, "a".toList, 3), (0x40000000, "b".toList, 7), (0x80000000, "c".toList, 3)].filter
          (fun a => a.2.2 = c)) ∧
      mostActive [(0, "a".toList, 3), (0x40000000, "b".toList, 7), (0x80000000, "c".toList, 3)] =
        [(0x40000000, "b".toList, 7), (0, "a".toList, 3), (0x80000000, "c".toList, 3)].take 5 :=
  have hties : ∀ c, [(0x40000000, "b".toList, 7), (0, "a".toList, 3), (0x80000000, "c".toList, 3)].filter
      (fun a => a.2.2 = c) =
      [(0, "a".toList, 3), (0x40000000, "b".toList, 7), (0x80000000, "c".toList, 3)].filter
        (fun a => a.2.2 = c) := fun c => by
    by_cases h7 : 7 = c
    · subst h7; simp [List.filter_cons]
    · by_cases h3 : 3 = c <;> simp [List.filter_cons, h7, h3]
  ⟨by decide, hties, mostActive_stable _ _ (by decide) hties⟩

/-! ## Small facts -/

/-- The `ACTIVE!` lines, as `active_regions` records them. -/
def activeOf (lines : List (Nat × List Char × Status)) : List (Nat × List Char × Nat) :=
  lines.filterMap fun l =>
    match l.2.2 with
    | .active c => some (l.1, l.2.1, c)
    | _ => none

@[simp] theorem activeOf_nil : activeOf [] = [] := rfl

@[simp] theorem activeOf_append (l₁ l₂ : List (Nat × List Char × Status)) :
    activeOf (l₁ ++ l₂) = activeOf l₁ ++ activeOf l₂ := List.filterMap_append _ _ _

theorem record_eq (out : Scan) (region : Nat × List Char) (changes nonZero : Nat) :
    out.record region changes nonZero =
      ⟨out.lines ++ [(region.1, region.2, status changes nonZero)],
        out.activeRegions ++ activeOf [(region.1, region.2, status changes nonZero)], out.diffs⟩ := by
  by_cases h : 0 < changes <;> by_cases h' : 100 < nonZero <;>
    simp [Scan.record, status, activeOf, h, h']

theorem truthy_eq_some {r : Except PyError (Option (List UInt8))} {b : List UInt8}
    (h : truthy r = some b) : r = .ok (some b) := by
  match r, h with
  | .ok (some (_ :: _)), rfl => rfl

theorem countChanges_self (b : List UInt8) : countChanges b b = 0 := by
  induction b with
  | nil => rfl
  | cons x b ih => simpa [countChanges] using ih

/-! ## Safety over any cut schedule -/

/-- A status line that two consecutive answers of the stub for the region's first
4096 bytes account for: the answers to requests `j` and `j + 1`. -/
def Observed (stub : Stub) (line : Nat × List Char × Status) : Prop :=
  ∃ j sample1 sample2, stub.view j line.1 4096 = .ok sample1 ∧
    stub.view (j + 1) line.1 4096 = .ok sample2 ∧ 0 < nonZero sample1 ∧
    line.2.2 = status (countChanges sample1 sample2) (nonZero sample1)

/-- A line of a thorough scan that two consecutive answers of the stub for 256 bytes
account for. -/
def DiffObserved (stub : Stub) (d : Nat × Nat) : Prop :=
  ∃ j s1 s2, stub.view j d.1 256 = .ok s1 ∧ stub.view (j + 1) d.1 256 = .ok s2 ∧
    d.2 = countChanges s1 s2 ∧ 0 < d.2

/-- A reader on which the scan is safe: from every state `inv` allows, a read of at
most 4096 bytes returns, counts one request on `clock`, leaves a state `inv` allows,
and returns no bytes but the stub's answer to that request. -/
structure SafeReader (stub : Stub) (read : Reader σ) where
  /-- The states reads start from. -/
  inv : σ → Prop
  /-- The number of requests sent. -/
  clock : σ → Nat
  read_safe : ∀ s, inv s → ∀ address size, size ≤ 4096 → ∃ r s', read s address size = some (r, s') ∧
    inv s' ∧ clock s' = clock s + 1 ∧ ∀ bs, r = .ok (some bs) → stub.view (clock s) address size = .ok bs

/-- `read_memory_gdb` on a stub that answers every request, whatever the cut
schedule, with enough fuel for 4096 bytes. -/
def gdbSafe {stub : Stub} {reply : Nat → List UInt8 → List UInt8} (hA : Answers stub reply)
    {fuel : Nat} (hfuel : 8200 ≤ fuel) : SafeReader stub (gdbReader (Wire.peer reply) fuel) where
  inv := Unread
  clock w := w.sent.length
  read_safe w hw address size hsize := by
    obtain ⟨w', hread, hw', hsent⟩ := readMemoryGdb_answers hA hw address size fuel (by omega)
    refine ⟨_, w', hread, hw', by simp [hsent], fun bs hbs => ?_⟩
    split at hbs
    · exact viewResult_eq_some hbs
    · cases hbs

section Safety

variable {stub : Stub} {read : Reader σ} (S : SafeReader stub read)

theorem noteDiff_eq (out : Scan) (address : Nat) (x₁ x₂ : Option (List UInt8)) :
    ∃ ds, out.noteDiff address x₁ x₂ = { out with diffs := out.diffs ++ ds } ∧
      ∀ d ∈ ds, d.1 = address ∧ ∃ b₁ b₂, x₁ = some b₁ ∧ x₂ = some b₂ ∧
        d.2 = countChanges b₁ b₂ ∧ 0 < d.2 := by
  match x₁, x₂ with
  | some (b₁ :: t₁), some (b₂ :: t₂) =>
    by_cases h : 0 < countChanges (b₁ :: t₁) (b₂ :: t₂)
    · exact ⟨[(address, countChanges (b₁ :: t₁) (b₂ :: t₂))], by simp [Scan.noteDiff, h],
        by simpa using h⟩
    · exact ⟨[], by simp [Scan.noteDiff, h], by simp⟩
  | none, _ | some [], _ | some (_ :: _), none | some (_ :: _), some [] =>
    exact ⟨[], by simp [Scan.noteDiff], by simp⟩

/-- A thorough scan returns, and each line it prints comes from two consecutive
answers. -/
theorem thoroughScan_safe (base : Nat) :
    ∀ offsets s out, S.inv s → ∃ s' ds,
      thoroughScan read base offsets (s, out) = some (s', { out with diffs := out.diffs ++ ds }) ∧
        S.inv s' ∧ ∀ d ∈ ds, DiffObserved stub d := by
  intro offsets
  induction offsets with
  | nil => exact fun s out hs => ⟨s, [], by simp [thoroughScan], hs, by simp⟩
  | cons o offsets ih =>
    intro s out hs
    obtain ⟨r₁, s₁, h₁, hi₁, hc₁, hv₁⟩ := S.read_safe s hs (base + o) 256 (by decide)
    cases r₁ with
    | error e => exact ⟨s₁, [], by simp [thoroughScan, h₁], hi₁, by simp⟩
    | ok x₁ =>
      obtain ⟨r₂, s₂, h₂, hi₂, hc₂, hv₂⟩ := S.read_safe s₁ hi₁ (base + o) 256 (by decide)
      cases r₂ with
      | error e => exact ⟨s₂, [], by simp [thoroughScan, h₁, h₂], hi₂, by simp⟩
      | ok x₂ =>
        obtain ⟨ds₁, hnd, hds₁⟩ := noteDiff_eq out (base + o) x₁ x₂
        obtain ⟨s', ds, hrun, hi', hds⟩ := ih s₂ (out.noteDiff (base + o) x₁ x₂) hi₂
        rw [hnd] at hrun
        refine ⟨s', ds₁ ++ ds, ?_, hi', ?_⟩
        · simp only [thoroughScan, h₁, h₂, hrun, hnd, List.append_assoc]
        · intro d hd
          rcases List.mem_append.mp hd with hd | hd
          · obtain ⟨ha, b₁, b₂, rfl, rfl, hc, hpos⟩ := hds₁ d hd
            refine ⟨S.clock s, b₁, b₂, ?_, ?_, hc, hpos⟩
            · rw [ha]; exact hv₁ b₁ rfl
            · rw [ha, ← hc₁]; exact hv₂ b₂ rfl
          · exact hds d hd

/-- **One region.**  The body returns; it prints at most one status line, for its own
region, from two consecutive answers, records it in `active_regions` when it is
`ACTIVE!`, and adds thorough-scan lines from two consecutive answers. -/
theorem scanRegion_safe (region : Nat × List Char) {s : σ} (hs : S.inv s) (out : Scan) :
    ∃ s' extra ds, scanRegion read (s, out) region =
        some (s', ⟨out.lines ++ extra, out.activeRegions ++ activeOf extra, out.diffs ++ ds⟩) ∧
      S.inv s' ∧ (extra.map fun l => (l.1, l.2.1)).Sublist [region] ∧
      (∀ l ∈ extra, Observed stub l) ∧ ∀ d ∈ ds, DiffObserved stub d := by
  obtain ⟨r₁, s₁, h₁, hi₁, hc₁, hv₁⟩ := S.read_safe s hs region.1 4096 le_rfl
  cases ht₁ : truthy r₁ with
  | none => exact ⟨s₁, [], [], by simp [scanRegion, h₁, ht₁], hi₁, by simp, by simp, by simp⟩
  | some b₁ =>
    obtain ⟨r₂, s₂, h₂, hi₂, hc₂, hv₂⟩ := S.read_safe s₁ hi₁ region.1 4096 le_rfl
    cases ht₂ : truthy r₂ with
    | none => exact ⟨s₂, [], [], by simp [scanRegion, h₁, ht₁, h₂, ht₂], hi₂, by simp, by simp, by simp⟩
    | some b₂ =>
      by_cases hz : 0 < nonZero b₁
      · have hl : Observed stub (region.1, region.2, status (countChanges b₁ b₂) (nonZero b₁)) :=
          ⟨S.clock s, b₁, b₂, hv₁ b₁ (truthy_eq_some ht₁), hc₁ ▸ hv₂ b₂ (truthy_eq_some ht₂), hz, rfl⟩
        by_cases h10 : 10 < countChanges b₁ b₂
        · obtain ⟨s', ds, hrun, hi', hds⟩ := thoroughScan_safe S region.1 _ s₂
            (out.record region (countChanges b₁ b₂) (nonZero b₁)) hi₂
          refine ⟨s', [(region.1, region.2, status (countChanges b₁ b₂) (nonZero b₁))], ds, ?_, hi',
            by simp, by simpa using hl, hds⟩
          rw [record_eq] at hrun
          simpa only [scanRegion, h₁, ht₁, h₂, ht₂, if_pos hz, if_pos h10, record_eq] using hrun
        · refine ⟨s₂, [(region.1, region.2, status (countChanges b₁ b₂) (nonZero b₁))], [], ?_, hi₂,
            by simp, by simpa using hl, by simp⟩
          simp only [scanRegion, h₁, ht₁, h₂, ht₂, if_pos hz, if_neg h10, record_eq, List.append_nil]
      · exact ⟨s₂, [], [], by simp [scanRegion, h₁, ht₁, h₂, ht₂, hz], hi₂, by simp, by simp, by simp⟩

/-- **The loop.**  Over any list of regions, the loop returns; its status lines are for
regions of the list, at most one each and in order, each from two consecutive
answers; `active_regions` gets exactly the `ACTIVE!` lines; and every thorough-scan
line comes from two consecutive answers. -/
theorem regionLoop_safe (regions : List (Nat × List Char)) :
    ∀ s out, S.inv s → ∃ s' extra ds, regionLoop read regions (s, out) =
        some (s', ⟨out.lines ++ extra, out.activeRegions ++ activeOf extra, out.diffs ++ ds⟩) ∧
      S.inv s' ∧ (extra.map fun l => (l.1, l.2.1)).Sublist regions ∧
      (∀ l ∈ extra, Observed stub l) ∧ ∀ d ∈ ds, DiffObserved stub d := by
  induction regions with
  | nil => exact fun s out hs => ⟨s, [], [], by simp [regionLoop], hs, by simp, by simp, by simp⟩
  | cons region regions ih =>
    intro s out hs
    obtain ⟨s₁, e₁, d₁, h₁, hi₁, hsub₁, hl₁, hd₁⟩ := scanRegion_safe S region hs out
    obtain ⟨s', e₂, d₂, h₂, hi', hsub₂, hl₂, hd₂⟩ :=
      ih s₁ ⟨out.lines ++ e₁, out.activeRegions ++ activeOf e₁, out.diffs ++ d₁⟩ hi₁
    refine ⟨s', e₁ ++ e₂, d₁ ++ d₂, ?_, hi', ?_, ?_, ?_⟩
    · simp only [regionLoop, List.foldlM_cons, h₁, Option.bind_eq_bind, Option.some_bind]
      simpa only [regionLoop, activeOf_append, List.append_assoc] using h₂
    · rw [List.map_append, ← List.singleton_append]
      exact hsub₁.append hsub₂
    · exact List.forall_mem_append.mpr ⟨hl₁, hl₂⟩
    · exact List.forall_mem_append.mpr ⟨hd₁, hd₂⟩

end Safety

/-- **Nothing the scan prints is made up.**  The scan waits for ever at its greeting
`recv(1024)` when the stub sends nothing on connect, as QEMU's does.  Once that `recv`
has returned, on a stub that answers every request, whatever the cut schedule of the
socket, from any state where at most a tail of one checksum is unread, and with enough
fuel for a 4096-byte read, the loop over the regions returns.  Its status lines are
for regions of the table, at most one each and in order, and each is the code's rule
applied to the stub's answers to two consecutive requests for the region's first 4096
bytes, the first of which is not all zero; `active_regions` holds exactly the
`ACTIVE!` lines; and each line of a thorough scan is a nonzero count of bytes changed
between two consecutive answers for 256 bytes. -/
theorem scanMemoryRegions_observed {stub : Stub} {reply : Nat → List UInt8 → List UInt8}
    (hA : Answers stub reply) {fuel : Nat} (hfuel : 8200 ≤ fuel) :
    (∀ cuts sent, scanMemoryRegions (Wire.peer reply) ⟨[], cuts, sent⟩ fuel = none) ∧
    ∀ w, Unread w → ∃ w' out, regionLoop (gdbReader (Wire.peer reply) fuel) regions (w, Scan.empty) =
        some (w', out) ∧
      (out.lines.map fun l => (l.1, l.2.1)).Sublist regions ∧ (∀ l ∈ out.lines, Observed stub l) ∧
      out.activeRegions = activeOf out.lines ∧ ∀ d ∈ out.diffs, DiffObserved stub d := by
  refine ⟨fun cuts sent => by simp [scanMemoryRegions], fun w hw => ?_⟩
  obtain ⟨w', lines, ds, hrun, -, hsub, hl, hd⟩ :=
    regionLoop_safe (gdbSafe hA hfuel) regions w Scan.empty hw
  simp only [Scan.empty, List.nil_append] at hrun
  exact ⟨w', ⟨lines, activeOf lines, ds⟩, by simpa [Scan.empty] using hrun, hsub, hl, rfl, hd⟩

/-- The scan against `tickingStub`: it waits at the greeting, and its loop over the
regions, run on replies cut after every byte, returns. -/
theorem scanMemoryRegions_observed_cut :
    Answers tickingStub tickingStub.serve ∧ 8200 ≤ 8200 ∧ Unread ⟨[], List.replicate 100 0, []⟩ ∧
      (∀ cuts sent, scanMemoryRegions (Wire.peer tickingStub.serve) ⟨[], cuts, sent⟩ 8200 = none) ∧
      ∃ w' out, regionLoop (gdbReader (Wire.peer tickingStub.serve) 8200) regions
          (⟨[], List.replicate 100 0, []⟩, Scan.empty) = some (w', out) ∧
        (out.lines.map fun l => (l.1, l.2.1)).Sublist regions ∧
        (∀ l ∈ out.lines, Observed tickingStub l) ∧ out.activeRegions = activeOf out.lines ∧
        ∀ d ∈ out.diffs, DiffObserved tickingStub d :=
  ⟨answers_serve _, le_rfl, ⟨[], List.nil_suffix⟩,
    (scanMemoryRegions_observed (answers_serve _) le_rfl).1,
    (scanMemoryRegions_observed (answers_serve _) le_rfl).2 _ ⟨[], List.nil_suffix⟩⟩

/-! ## Refinement, when every `recv` returns as much as it may -/

/-- `read₂` simulates `read₁` through `g` on the states `W` allows, for the two sizes
the scan reads: from each, both reads return the same result and `W` holds after. -/
def Simulates (read₁ : Reader σ) (read₂ : Reader τ) (g : σ → τ) (W : σ → Prop) : Prop :=
  ∀ s, W s → ∀ address size, (size = 256 ∨ size = 4096) → ∃ r s',
    read₁ s address size = some (r, s') ∧ W s' ∧ read₂ (g s) address size = some (r, g s')

section Refinement

variable {read₁ : Reader σ} {read₂ : Reader τ} {g : σ → τ} {W : σ → Prop}
  (hsim : Simulates read₁ read₂ g W)
include hsim

theorem thoroughScan_sim (base : Nat) :
    ∀ offsets s out, W s → ∃ s' out', thoroughScan read₁ base offsets (s, out) = some (s', out') ∧
      W s' ∧ thoroughScan read₂ base offsets (g s, out) = some (g s', out') := by
  intro offsets
  induction offsets with
  | nil => exact fun s out hs => ⟨s, out, rfl, hs, rfl⟩
  | cons o offsets ih =>
    intro s out hs
    obtain ⟨r₁, s₁, h₁, hw₁, h₁'⟩ := hsim s hs (base + o) 256 (.inl rfl)
    cases r₁ with
    | error e => exact ⟨s₁, out, by simp [thoroughScan, h₁], hw₁, by simp [thoroughScan, h₁']⟩
    | ok x₁ =>
      obtain ⟨r₂, s₂, h₂, hw₂, h₂'⟩ := hsim s₁ hw₁ (base + o) 256 (.inl rfl)
      cases r₂ with
      | error e => exact ⟨s₂, out, by simp [thoroughScan, h₁, h₂], hw₂, by simp [thoroughScan, h₁', h₂']⟩
      | ok x₂ =>
        obtain ⟨s', out', hrun, hw', hrun'⟩ := ih s₂ (out.noteDiff (base + o) x₁ x₂) hw₂
        exact ⟨s', out', by simp [thoroughScan, h₁, h₂, hrun], hw', by simp [thoroughScan, h₁', h₂', hrun']⟩

theorem scanRegion_sim (region : Nat × List Char) {s : σ} (hs : W s) (out : Scan) :
    ∃ s' out', scanRegion read₁ (s, out) region = some (s', out') ∧ W s' ∧
      scanRegion read₂ (g s, out) region = some (g s', out') := by
  obtain ⟨r₁, s₁, h₁, hw₁, h₁'⟩ := hsim s hs region.1 4096 (.inr rfl)
  cases ht₁ : truthy r₁ with
  | none => exact ⟨s₁, out, by simp [scanRegion, h₁, ht₁], hw₁, by simp [scanRegion, h₁', ht₁]⟩
  | some b₁ =>
    obtain ⟨r₂, s₂, h₂, hw₂, h₂'⟩ := hsim s₁ hw₁ region.1 4096 (.inr rfl)
    cases ht₂ : truthy r₂ with
    | none =>
      exact ⟨s₂, out, by simp [scanRegion, h₁, ht₁, h₂, ht₂], hw₂, by simp [scanRegion, h₁', ht₁, h₂', ht₂]⟩
    | some b₂ =>
      by_cases hz : 0 < nonZero b₁
      · by_cases h10 : 10 < countChanges b₁ b₂
        · obtain ⟨s', out', hrun, hw', hrun'⟩ :=
            thoroughScan_sim hsim region.1 (range 0 0x100000 0x10000) s₂
            (out.record region (countChanges b₁ b₂) (nonZero b₁)) hw₂
          exact ⟨s', out', by simp [scanRegion, h₁, ht₁, h₂, ht₂, hz, h10, hrun], hw',
            by simp [scanRegion, h₁', ht₁, h₂', ht₂, hz, h10, hrun']⟩
        · exact ⟨s₂, out.record region (countChanges b₁ b₂) (nonZero b₁),
            by simp [scanRegion, h₁, ht₁, h₂, ht₂, hz, h10], hw₂,
            by simp [scanRegion, h₁', ht₁, h₂', ht₂, hz, h10]⟩
      · exact ⟨s₂, out, by simp [scanRegion, h₁, ht₁, h₂, ht₂, hz], hw₂,
          by simp [scanRegion, h₁', ht₁, h₂', ht₂, hz]⟩

theorem regionLoop_sim (regions : List (Nat × List Char)) :
    ∀ s out, W s → ∃ s' out', regionLoop read₁ regions (s, out) = some (s', out') ∧ W s' ∧
      regionLoop read₂ regions (g s, out) = some (g s', out') := by
  induction regions with
  | nil => exact fun s out hs => ⟨s, out, rfl, hs, rfl⟩
  | cons region regions ih =>
    intro s out hs
    obtain ⟨s₁, out₁, h₁, hw₁, h₁'⟩ := scanRegion_sim hsim region hs out
    obtain ⟨s', out', h₂, hw', h₂'⟩ := ih s₁ out₁ hw₁
    exact ⟨s', out', by simpa [regionLoop, h₁] using h₂, hw', by simpa [regionLoop, h₁'] using h₂'⟩

end Refinement

/-- When every `recv` returns as much as it may, `read_memory_gdb` of 256 or 4096 bytes
is simulated by `viewReader`, through the count of requests sent. -/
theorem gdb_simulates_view {stub : Stub} {reply : Nat → List UInt8 → List UInt8}
    (hA : Answers stub reply) {fuel : Nat} (hfuel : 3 ≤ fuel) :
    Simulates (gdbReader (Wire.peer reply) fuel) (viewReader stub) (fun w => w.sent.length)
      (fun w => w.pending = [] ∧ w.cuts = []) := by
  rintro ⟨_, _, sent⟩ ⟨rfl, rfl⟩ address size hsize
  have hwhole := readMemoryGdb_whole hA sent address size fuel
    (by rcases hsize with rfl | rfl <;> decide) (by rcases hsize with rfl | rfl <;> omega)
  exact ⟨_, _, hwhole, ⟨rfl, rfl⟩, by simp [viewReader]⟩

/-- **The scan refines the scan its author meant.**  When every `recv` returns as much
as it may, 4096 bytes or all that is unread, the loop over the regions, from a socket
with nothing unread, returns, leaves nothing unread, and prints and collects exactly
what the loop over `viewReader` does, which has counted as many requests as were
sent. -/
theorem scanMemoryRegions_refines {stub : Stub} {reply : Nat → List UInt8 → List UInt8}
    (hA : Answers stub reply) (sent : List (List UInt8)) {fuel : Nat} (hfuel : 3 ≤ fuel) :
    ∃ w out, regionLoop (gdbReader (Wire.peer reply) fuel) regions (⟨[], [], sent⟩, Scan.empty) =
        some (w, out) ∧ w.pending = [] ∧
      regionLoop (viewReader stub) regions (sent.length, Scan.empty) = some (w.sent.length, out) := by
  obtain ⟨w, out, hrun, ⟨hp, -⟩, hrun'⟩ :=
    regionLoop_sim (gdb_simulates_view hA hfuel) regions ⟨[], [], sent⟩ Scan.empty ⟨rfl, rfl⟩
  exact ⟨w, out, hrun, hp, hrun'⟩

theorem scanMemoryRegions_refines_ticking :
    Answers tickingStub tickingStub.serve ∧ 3 ≤ 3 ∧
      ∃ w out, regionLoop (gdbReader (Wire.peer tickingStub.serve) 3) regions (⟨[], [], []⟩, Scan.empty) =
          some (w, out) ∧ w.pending = [] ∧
        regionLoop (viewReader tickingStub) regions (0, Scan.empty) = some (w.sent.length, out) :=
  ⟨answers_serve _, le_rfl, scanMemoryRegions_refines (answers_serve _) [] le_rfl⟩

/-! ## A quiet guest -/

/-- The status lines of a scan where nothing changes: one for each region whose 4096
bytes the stub serves with a byte other than zero, static or sparse by their count. -/
def quietLines (stub : Stub) (regions : List (Nat × List Char)) : List (Nat × List Char × Status) :=
  regions.filterMap fun region =>
    match stub.view 0 region.1 4096 with
    | .ok sample => if 0 < nonZero sample then some (region.1, region.2, status 0 (nonZero sample)) else none
    | .error _ => none

theorem quietLines_cons (stub : Stub) (region : Nat × List Char) (regions : List (Nat × List Char)) :
    quietLines stub (region :: regions) = quietLines stub [region] ++ quietLines stub regions :=
  List.filterMap_append [region] regions _

theorem scanRegion_quiet {stub : Stub} (hq : ∀ j, stub.view j = stub.view 0) (region : Nat × List Char)
    (j : Nat) (out : Scan) : ∃ j', scanRegion (viewReader stub) (j, out) region =
      some (j', { out with lines := out.lines ++ quietLines stub [region] }) := by
  have hv : ∀ k, stub.view k region.1 4096 = stub.view 0 region.1 4096 := fun k => by rw [hq k]
  cases h₀ : stub.view 0 region.1 4096 with
  | error e => exact ⟨j + 1, by simp [scanRegion, viewReader, hv, h₀, viewResult, truthy, quietLines]⟩
  | ok sample =>
    cases sample with
    | nil => exact ⟨j + 1, by simp [scanRegion, viewReader, hv, h₀, viewResult, truthy, quietLines, nonZero]⟩
    | cons b bs =>
      refine ⟨j + 1 + 1, ?_⟩
      by_cases hz : 0 < nonZero (b :: bs)
      · simp [scanRegion, viewReader, hv, h₀, viewResult, truthy, quietLines, hz, countChanges_self,
          Scan.record]
      · simp [scanRegion, viewReader, hv, h₀, viewResult, truthy, quietLines, hz]

theorem regionLoop_quiet {stub : Stub} (hq : ∀ j, stub.view j = stub.view 0)
    (regions : List (Nat × List Char)) :
    ∀ j out, ∃ j', regionLoop (viewReader stub) regions (j, out) =
      some (j', { out with lines := out.lines ++ quietLines stub regions }) := by
  induction regions with
  | nil => exact fun j out => ⟨j, by simp [regionLoop, quietLines]⟩
  | cons region regions ih =>
    intro j out
    obtain ⟨j₁, h₁⟩ := scanRegion_quiet hq region j out
    obtain ⟨j', h₂⟩ := ih j₁ { out with lines := out.lines ++ quietLines stub [region] }
    refine ⟨j', ?_⟩
    simp only [regionLoop] at h₂ ⊢
    simp only [List.foldlM_cons, h₁, Option.bind_eq_bind, Option.some_bind, h₂, List.append_assoc,
      quietLines_cons stub region regions]

/-- **A quiet guest.**  When every `recv` returns as much as it may and the stub's
answers do not change from one request to the next, the loop over the regions, from a
socket with nothing unread, reports no active region, makes no thorough scan, and
prints a status line for exactly the regions whose 4096 bytes the stub serves with a
byte other than zero, in the order of the table. -/
theorem scanMemoryRegions_quiet {stub : Stub} {reply : Nat → List UInt8 → List UInt8}
    (hA : Answers stub reply) (hq : ∀ j, stub.view j = stub.view 0) (sent : List (List UInt8))
    {fuel : Nat} (hfuel : 3 ≤ fuel) :
    ∃ w, regionLoop (gdbReader (Wire.peer reply) fuel) regions (⟨[], [], sent⟩, Scan.empty) =
      some (w, ⟨quietLines stub regions, [], []⟩) := by
  obtain ⟨w, out, hrun, -, hrun'⟩ :=
    regionLoop_sim (gdb_simulates_view hA hfuel) regions ⟨[], [], sent⟩ Scan.empty ⟨rfl, rfl⟩
  obtain ⟨j', hquiet⟩ := regionLoop_quiet hq regions sent.length Scan.empty
  rw [hquiet, Option.some.injEq, Prod.mk.injEq] at hrun'
  exact ⟨w, by rw [hrun, ← hrun'.2]; rfl⟩

/-- A stub over a guest whose byte at `a` reads `a % 256` at every request. -/
def stillStub : Stub where
  view _ address size := .ok ((List.range size).map fun i => UInt8.ofNat (address + i))
  length_view _ _ _ _ h := by cases h; simp

theorem scanMemoryRegions_quiet_still :
    Answers stillStub stillStub.serve ∧ (∀ j, stillStub.view j = stillStub.view 0) ∧ 3 ≤ 3 ∧
      ∃ w, regionLoop (gdbReader (Wire.peer stillStub.serve) 3) regions (⟨[], [], []⟩, Scan.empty) =
        some (w, ⟨quietLines stillStub regions, [], []⟩) :=
  ⟨answers_serve _, fun _ => rfl, le_rfl,
    scanMemoryRegions_quiet (answers_serve _) (fun _ => rfl) [] le_rfl⟩

end Haywire.ScanRegions
