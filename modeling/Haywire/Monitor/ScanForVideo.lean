import Haywire.Monitor.Display
import Haywire.Py.Float
import Mathlib.Data.List.Dedup

/-!
# The video scan of `scan_for_video`

`scan_memory_ranges` walks three address ranges, reads 512 values at each address
with `read_memory_sample`, and keeps the addresses whose sample looks like video:

```
if len(data) > 256:
    non_zero = sum(1 for b in data if b != 0)
    if non_zero > 100:
        yuv_like = sum(1 for b in data if 100 < b < 156) / len(data)
        unique = len(set(data))
        if yuv_like > 0.3 or unique > 100:
            print(...)
            if len(interesting_addresses) < 5:
                save_sample(addr, data)
                interesting_addresses.append(addr)
```

Each `read_memory_sample` opens a connection of its own, so the scan is modelled
over a reader `read addr size`.  `save_sample` is not guarded by a `try`: an
exception there ends the scan.

`yuv_like > 0.3` is made in doubles; on every sample of fewer than `2 ^ 50` values it
is the exact `10 * yuv > 3 * len(data)` (`isInterestingAsDoubles_eq`), which the scan
below uses.

Every address that passes the test is printed, and the first five of them are kept,
each with its sample (`scanMemoryRanges_eq`, from the step lemma `scanStep_inv` and
the run lemma `foldlM_scanStep`).  Against a monitor that answers whole replies,
the scan keeps the first five addresses whose guest memory passes the test
(`scan_keeps_first_five`).  `read_memory_sample` returns `[]` on any exception, a
timeout of its 2 s included, and such a sample passes no test.
-/

namespace Haywire.Monitor.ScanForVideo

open Py

/-- `ranges`: `(start, end, step)`. -/
def ranges : List (Nat × Nat × Nat) :=
  [(0x40000000, 0x80000000, 0x1000000), (0x80000000, 0x100000000, 0x2000000),
    (0x100000000, 0x140000000, 0x4000000)]

/-- The addresses visited by `addr = start; while addr < end: …; addr += step`, range
by range: with a positive step, the loop visits `range(start, end, step)`. -/
def scanAddresses : List Nat := ranges.flatMap fun r => range r.1 r.2.1 r.2.2

/-- `sum(1 for b in data if b != 0)`. -/
def nonZero (data : List Nat) : Nat := (data.filter (· ≠ 0)).length

/-- `sum(1 for b in data if 100 < b < 156)`. -/
def yuvCount (data : List Nat) : Nat := (data.filter fun b => 100 < b ∧ b < 156).length

/-- `len(set(data))`. -/
def unique (data : List Nat) : Nat := data.dedup.length

/-- The test of the loop body, with `yuv_like > 0.3` as the exact comparison
`10 * yuv > 3 * len(data)`: on lists shorter than `2 ^ 50` it is the test in doubles
(`isInterestingAsDoubles_eq`). -/
def isInteresting (data : List Nat) : Bool :=
  256 < data.length ∧ 100 < nonZero data ∧ (3 * data.length < 10 * yuvCount data ∨ 100 < unique data)

/-- `save_sample(address, data)`: the `16 × 16 × 3` array it saves as an image. -/
def saveSample (data : List Nat) : Except PyError (List UInt8) := do
  let size := min data.length (16 * 16 * 3)
  let data := padTo (16 * 16 * 3) (data.take size)
  reshape (← uint8Array (data.take (16 * 16 * 3))) (16 * 16 * 3)

/-- What the loops have done so far. -/
structure ScanState where
  /-- The addresses printed as `Interesting!`. -/
  printed : List Nat
  /-- `interesting_addresses`. -/
  interestingAddresses : List Nat
  /-- The samples `save_sample` saved, with their addresses. -/
  saved : List (Nat × List UInt8)
deriving DecidableEq, Repr

/-- The body of the `while` loop at `addr`. -/
def scanStep (read : Nat → Nat → List Nat) (st : ScanState) (addr : Nat) :
    Except PyError ScanState :=
  let data := read addr 512
  if isInteresting data then
    let st := { st with printed := st.printed ++ [addr] }
    if st.interestingAddresses.length < 5 then do
      let image ← saveSample data
      pure { st with
        saved := st.saved ++ [(addr, image)]
        interestingAddresses := st.interestingAddresses ++ [addr] }
    else pure st
  else pure st

/-- `scan_memory_ranges()`: the state after the loops, or the exception that ended
them.  It returns `interesting_addresses`. -/
def scanMemoryRanges (read : Nat → Nat → List Nat) : Except PyError ScanState :=
  scanAddresses.foldlM (scanStep read) ⟨[], [], []⟩

/-! ## `yuv_like > 0.3` in doubles

`yuv_like` is the double nearest `yuv / len(data)` and `0.3` the double
`0x13333333333333 / 2 ^ 54`, just below `3 / 10`.  A quotient above `3 / 10` is at
least `1 / (10 * len(data))` above it, far more than the rounding moves it; a quotient
of exactly `3 / 10` rounds to the double `0.3` itself, which is not above `0.3`. -/

/-- `yuv_like > 0.3` in doubles, for `yuv` values of `length`. -/
def yuvLikeAbove (yuv length : Nat) : Bool :=
  0x13333333333333 * 2 ^ (trueDiv yuv length).2 < (trueDiv yuv length).1 * 2 ^ 54

/-- The test as the code makes it, `yuv_like > 0.3` in doubles. -/
def isInterestingAsDoubles (data : List Nat) : Bool :=
  256 < data.length ∧ 100 < nonZero data ∧
    (yuvLikeAbove (yuvCount data) data.length ∨ 100 < unique data)

/-- The scale of a quotient of exactly `3 / 10` is `54`: `2 ^ 54` is the only power of
two in `[10 / 3 * 2 ^ 52, 20 / 3 * 2 ^ 52)`. -/
theorem pow_eq_of_window {k : Nat} (h₁ : 10 * 2 ^ 52 ≤ 3 * 2 ^ k) (h₂ : 3 * 2 ^ k < 10 * 2 ^ 53) :
    2 ^ k = 2 ^ 54 := by
  rcases Nat.lt_trichotomy k 54 with hk | rfl | hk
  · have := Nat.pow_le_pow_right Nat.zero_lt_two (Nat.le_of_lt_succ hk); omega
  · rfl
  · have := Nat.pow_le_pow_right Nat.zero_lt_two hk; omega

/-- For a count of at most `length < 2 ^ 50` values, `yuv_like > 0.3` in doubles is
`10 * yuv > 3 * length`. -/
theorem yuvLikeAbove_iff {yuv length : Nat} (hy : yuv ≤ length) (hn : 0 < length)
    (hlen : length < 2 ^ 50) :
    yuvLikeAbove yuv length = true ↔ 3 * length < 10 * yuv := by
  rw [yuvLikeAbove, trueDiv, decide_eq_true_iff]
  rcases Nat.eq_zero_or_pos yuv with rfl | hpos
  · simp [roundDiv]
  obtain ⟨hT, hlo, hhi⟩ := quotientScale_of_le hpos hy
  obtain ⟨hr₁, hr₂⟩ := roundDiv_near (yuv * 2 ^ quotientScale (length + 53) yuv length) hn
  generalize quotientScale (length + 53) yuv length = k at hT hlo hhi hr₁ hr₂ ⊢
  generalize roundDiv (yuv * 2 ^ k) length = m at hr₁ hr₂ ⊢
  have hLT : length * 2 ^ k < 2 ^ 50 * 2 ^ k := Nat.mul_lt_mul_of_pos_right hlen (Nat.two_pow_pos k)
  rw [← Nat.mul_lt_mul_right hn, Nat.mul_assoc, Nat.mul_comm (2 ^ k), Nat.mul_right_comm m]
  generalize hTk : 2 ^ k = T at hT hlo hhi hr₁ hr₂ hLT ⊢
  rcases Nat.lt_trichotomy (3 * length) (10 * yuv) with hgt | heq | hlt
  · have hyT : 3 * (length * T) + T ≤ 10 * (yuv * T) := by
      have := Nat.mul_le_mul_right T (Nat.succ_le_of_lt hgt)
      rwa [Nat.succ_mul, Nat.mul_assoc, Nat.mul_assoc] at this
    exact iff_of_true (by omega) hgt
  · have hyT : 3 * (length * T) = 10 * (yuv * T) := by
      rw [← Nat.mul_assoc, ← Nat.mul_assoc, heq]
    have hlow : 10 * 2 ^ 52 ≤ 3 * T := Nat.le_of_mul_le_mul_right (c := length)
      (by rw [Nat.mul_assoc, Nat.mul_assoc, Nat.mul_comm T]; omega) hn
    have hhigh : 3 * T < 10 * 2 ^ 53 := Nat.lt_of_mul_lt_mul_right (a := length)
      (by rw [Nat.mul_assoc, Nat.mul_assoc, Nat.mul_comm T]; omega)
    obtain rfl : T = 2 ^ 54 := hTk ▸ pow_eq_of_window (hTk ▸ hlow) (hTk ▸ hhigh)
    have hm : 20 * m * length ≤ (6 * 2 ^ 54 + 10) * length := by rw [Nat.mul_assoc]; omega
    have hmL := Nat.mul_le_mul_right length
      (show m ≤ 0x13333333333333 by have := Nat.le_of_mul_le_mul_right hm hn; omega)
    exact iff_of_false (by omega) (by omega)
  · have hyT : 10 * (yuv * T) + T ≤ 3 * (length * T) := by
      have := Nat.mul_le_mul_right T (Nat.succ_le_of_lt hlt)
      rwa [Nat.succ_mul, Nat.mul_assoc, Nat.mul_assoc] at this
    exact iff_of_false (by omega) (by omega)

/-- **The exact test is the code's test.**  On every sample of fewer than `2 ^ 50`
values, the test `scan_memory_ranges` makes in doubles is `isInteresting`, in which
`yuv_like > 0.3` is `10 * yuv > 3 * len(data)`. -/
theorem isInterestingAsDoubles_eq (data : List Nat) (h : data.length < 2 ^ 50) :
    isInterestingAsDoubles data = isInteresting data := by
  by_cases hn : 256 < data.length
  · have hy : yuvLikeAbove (yuvCount data) data.length =
        decide (3 * data.length < 10 * yuvCount data) := by
      rw [Bool.eq_iff_iff, decide_eq_true_iff,
        @yuvLikeAbove_iff (yuvCount data) _ (List.length_filter_le _ data) (by omega) h]
    simp only [isInterestingAsDoubles, isInteresting, hy, decide_eq_true_eq]
  · simp [isInterestingAsDoubles, isInteresting, hn]

/-- A sample of 300 values, 90 of them in the YUV range: `yuv_like` is exactly `0.3`. -/
theorem isInterestingAsDoubles_eq_thirty :
    (List.replicate 90 128 ++ List.replicate 210 1).length < 2 ^ 50 ∧
      isInterestingAsDoubles (List.replicate 90 128 ++ List.replicate 210 1) =
        isInteresting (List.replicate 90 128 ++ List.replicate 210 1) := by
  have h : (List.replicate 90 128 ++ List.replicate 210 1).length < 2 ^ 50 := by
    simp only [List.length_append, List.length_replicate]; decide
  exact ⟨h, isInterestingAsDoubles_eq _ h⟩

/-! ## The samples saved -/

/-- The image `save_sample` makes of values that fit a byte: the first 768, padded
with zeros. -/
def sampleImage (data : List Nat) : List UInt8 :=
  (padTo (16 * 16 * 3) (data.take (16 * 16 * 3))).map UInt8.ofNat

theorem saveSample_of_bytes {data : List Nat} (h : ∀ v ∈ data, v < 256) :
    saveSample data = .ok (sampleImage data) := by
  have hlen : (data.take (16 * 16 * 3)).length ≤ 16 * 16 * 3 := List.length_take_le _ _
  have hpad : ∀ v ∈ padTo (16 * 16 * 3) (data.take (16 * 16 * 3)), v < 256 :=
    lt_of_mem_padTo fun v hv => h v (List.mem_of_mem_take hv)
  have hsize := length_padTo hlen
  have htake : data.take (min data.length (16 * 16 * 3)) = data.take (16 * 16 * 3) := by
    rcases Nat.le_total data.length (16 * 16 * 3) with h' | h'
    · rw [Nat.min_eq_left h', List.take_of_length_le (le_refl _), List.take_of_length_le h']
    · rw [Nat.min_eq_right h']
  simp only [saveSample, htake, List.take_of_length_le hsize.le, uint8Array_of_lt hpad, bind,
    Except.bind, reshape, List.length_map, hsize, if_true]
  rfl

/-! ## The loops -/

section Loop

variable (read : Nat → Nat → List Nat)

/-- What the loops keep: the first five addresses printed, each with its sample. -/
def Kept (st : ScanState) : Prop :=
  st.interestingAddresses = st.printed.take 5 ∧
    st.saved = st.interestingAddresses.map fun a => (a, sampleImage (read a 512))

/-- **One address.**  On a sample of bytes, the body prints the address exactly
when the sample passes the test, and keeps the first five addresses printed with
their samples. -/
theorem scanStep_inv {st : ScanState} {addr : Nat} (hb : ∀ v ∈ read addr 512, v < 256)
    (hk : Kept read st) :
    ∃ st', scanStep read st addr = .ok st' ∧
      st'.printed = st.printed ++ (if isInteresting (read addr 512) then [addr] else []) ∧
      Kept read st' := by
  obtain ⟨hi, hs⟩ := hk
  unfold scanStep
  by_cases hp : isInteresting (read addr 512) = true
  · by_cases h5 : st.interestingAddresses.length < 5
    · have hlt : st.printed.length < 5 := by
        rw [hi, List.length_take] at h5; omega
      refine ⟨⟨st.printed ++ [addr], st.interestingAddresses ++ [addr],
          st.saved ++ [(addr, sampleImage (read addr 512))]⟩,
        by simp only [hp, if_true, h5, saveSample_of_bytes hb]; rfl, by simp [hp], ?_, by simp [hs]⟩
      simp [hi, List.take_append_eq_append_take, List.take_of_length_le hlt.le,
        show 5 - st.printed.length = (4 - st.printed.length) + 1 by omega]
    · have hge : 5 ≤ st.printed.length := by
        rw [hi, List.length_take] at h5; omega
      refine ⟨{ st with printed := st.printed ++ [addr] }, by simp only [hp, if_true, h5, if_false]; rfl,
        by simp [hp], ?_, hs⟩
      simp only [hi, List.take_append_of_le_length hge]
  · exact ⟨st, by simp only [hp]; rfl, by simp [hp], hi, hs⟩

/-- **The whole scan.**  Over addresses whose samples are bytes, the loops print
every address whose sample passes the test, in order, and keep the first five with
their samples. -/
theorem foldlM_scanStep (addrs : List Nat) (hb : ∀ a ∈ addrs, ∀ v ∈ read a 512, v < 256)
    {st : ScanState} (hk : Kept read st) :
    ∃ st', addrs.foldlM (scanStep read) st = .ok st' ∧
      st'.printed = st.printed ++ addrs.filter (fun a => isInteresting (read a 512)) ∧
      Kept read st' := by
  induction addrs generalizing st with
  | nil => exact ⟨st, rfl, by simp, hk⟩
  | cons a addrs ih =>
    obtain ⟨st₁, h₁, hp₁, hk₁⟩ := scanStep_inv read (hb a (List.mem_cons_self _ _)) hk
    obtain ⟨st₂, h₂, hp₂, hk₂⟩ := ih (fun b hb' => hb b (List.mem_cons_of_mem _ hb')) hk₁
    refine ⟨st₂, by rw [List.foldlM_cons, h₁]; exact h₂, ?_, hk₂⟩
    rw [hp₂, hp₁, List.filter_cons]
    by_cases hpa : isInteresting (read a 512) = true <;> simp [hpa]

/-- `scan_memory_ranges` on samples of bytes: it prints every address whose sample
passes the test and returns the first five, each saved with its sample. -/
theorem scanMemoryRanges_eq (hb : ∀ a ∈ scanAddresses, ∀ v ∈ read a 512, v < 256) :
    scanMemoryRanges read =
      .ok ⟨scanAddresses.filter (fun a => isInteresting (read a 512)),
        (scanAddresses.filter (fun a => isInteresting (read a 512))).take 5,
        ((scanAddresses.filter (fun a => isInteresting (read a 512))).take 5).map
          fun a => (a, sampleImage (read a 512))⟩ := by
  obtain ⟨⟨printed, kept, saved⟩, hrun, hp, hi, hs⟩ :=
    @foldlM_scanStep read scanAddresses hb ⟨[], [], []⟩ ⟨rfl, rfl⟩
  simp only [List.nil_append] at hp hi hs
  subst hp hi hs
  exact hrun

end Loop

/-! ## Against the monitor -/

section Whole

variable (M : Memory) (reply : Nat → List Char → List Char)
  (hreply : ∀ j count addr, ListsBytes (memSlice M addr count) (reply j (xpCommand count addr)))

include hreply in
/-- On a fresh connection whose far end sends a greeting and then answers with a
whole reply, `read_memory_sample` returns the guest bytes. -/
theorem readMemorySample_whole {greeting : List Char} (hgreeting : WholeGreeting greeting)
    {address size : Nat} (hsize : 0 < size) (hfit : (reply 0 (xpCommand size address)).length ≤ 8192) :
    (readMemorySample (Wire.peer reply) ⟨greeting, [], []⟩ address size).1 =
      (memSlice M address size).map UInt8.toNat := by
  have hl := hreply 0 size address
  have hne := hl.ne_nil (by rw [← List.length_pos, length_memSlice]; exact hsize)
  simp only [readMemorySample, sampleRead, Wire.peer_recv, recv_wholeGreeting none hgreeting,
    Wire.peer_send, List.nil_append, List.length_nil, Wire.recv_all none hne _ hfit]
  exact replyValues_of_listsBytes _ hl

include hreply in
/-- **The scan keeps the first five video-like regions.**  Against a monitor that
sends a greeting and then answers each request with a whole reply, that is one of at
most 8192 characters, `scan_memory_ranges` never raises, prints every scanned address
whose 512 bytes of guest memory pass the test, and returns the first five of them,
each saved with its sample. -/
theorem scan_keeps_first_five {greeting : List Char} (hgreeting : WholeGreeting greeting)
    (hfit : ∀ j addr, addr ∈ scanAddresses → (reply j (xpCommand 512 addr)).length ≤ 8192) :
    scanMemoryRanges (fun a n => (readMemorySample (Wire.peer reply) ⟨greeting, [], []⟩ a n).1) =
      .ok ⟨scanAddresses.filter (fun a => isInteresting ((memSlice M a 512).map UInt8.toNat)),
        (scanAddresses.filter (fun a => isInteresting ((memSlice M a 512).map UInt8.toNat))).take 5,
        ((scanAddresses.filter (fun a => isInteresting ((memSlice M a 512).map UInt8.toNat))).take 5).map
          fun a => (a, sampleImage ((memSlice M a 512).map UInt8.toNat))⟩ := by
  have hread : ∀ a ∈ scanAddresses, (readMemorySample (Wire.peer reply) ⟨greeting, [], []⟩ a 512).1 =
      (memSlice M a 512).map UInt8.toNat := fun a ha =>
    readMemorySample_whole M reply hreply hgreeting (by decide) (hfit 0 a ha)
  have hfilter : scanAddresses.filter
      (fun a => isInteresting (readMemorySample (Wire.peer reply) ⟨greeting, [], []⟩ a 512).1) =
      scanAddresses.filter (fun a => isInteresting ((memSlice M a 512).map UInt8.toNat)) :=
    List.filter_congr fun a ha => by rw [hread a ha]
  have hsamples : ((scanAddresses.filter fun a => isInteresting ((memSlice M a 512).map UInt8.toNat)).take
      5).map (fun a => (a, sampleImage (readMemorySample (Wire.peer reply) ⟨greeting, [], []⟩ a 512).1)) =
      ((scanAddresses.filter fun a => isInteresting ((memSlice M a 512).map UInt8.toNat)).take 5).map
        fun a => (a, sampleImage ((memSlice M a 512).map UInt8.toNat)) :=
    List.map_congr_left fun a ha => by rw [hread a (List.mem_filter.mp (List.mem_of_mem_take ha)).1]
  rw [scanMemoryRanges_eq _ fun a ha v hv => by
    rw [hread a ha] at hv
    obtain ⟨b, -, rfl⟩ := List.mem_map.mp hv
    exact b.toNat_lt_size, hfilter, hsamples]

/-- Every address the scan visits lies below 5 GiB. -/
theorem lt_of_mem_scanAddresses {a : Nat} (h : a ∈ scanAddresses) : a < 0x140000000 := by
  obtain ⟨r, hr, ha⟩ := List.mem_flatMap.mp h
  simp only [ranges, List.mem_cons, List.mem_singleton, List.not_mem_nil, or_false] at hr
  rcases hr with rfl | rfl | rfl <;> obtain ⟨i, hi, rfl⟩ := (mem_range (by decide)).mp ha <;>
    (dsimp only at hi ⊢; omega)

/-- The reference monitor, eight bytes to a row, meets the hypotheses of
`scan_keeps_first_five`. -/
theorem scan_keeps_first_five_qemu :
    (∀ j count addr : Nat, ListsBytes (memSlice (fun i => UInt8.ofNat i) addr count)
      ((fun _ => qemuReply (fun i => UInt8.ofNat i) 8) j (xpCommand count addr))) ∧
    WholeGreeting prompt ∧
    (∀ j addr : Nat, addr ∈ scanAddresses →
      ((fun _ => qemuReply (fun i => UInt8.ofNat i) 8) j (xpCommand 512 addr)).length ≤ 8192) ∧
    scanMemoryRanges (fun a n => (readMemorySample (Wire.peer fun _ => qemuReply (fun i => UInt8.ofNat i) 8)
        ⟨prompt, [], []⟩ a n).1) =
      .ok ⟨scanAddresses.filter
          (fun a => isInteresting ((memSlice (fun i => UInt8.ofNat i) a 512).map UInt8.toNat)),
        (scanAddresses.filter
          (fun a => isInteresting ((memSlice (fun i => UInt8.ofNat i) a 512).map UInt8.toNat))).take 5,
        ((scanAddresses.filter
          (fun a => isInteresting ((memSlice (fun i => UInt8.ofNat i) a 512).map UInt8.toNat))).take 5).map
          fun a => (a, sampleImage ((memSlice (fun i => UInt8.ofNat i) a 512).map UInt8.toNat))⟩ :=
  have hfit : ∀ j addr : Nat, addr ∈ scanAddresses →
      ((fun _ => qemuReply (fun i => UInt8.ofNat i) 8) j (xpCommand 512 addr)).length ≤ 8192 :=
    fun _ _ ha => length_qemuReply_le _ le_rfl (by have := lt_of_mem_scanAddresses ha; omega)
  ⟨fun _ c a => qemuReply_listsBytes _ (by decide) c a, by decide, hfit,
    scan_keeps_first_five (fun i => UInt8.ofNat i) (fun _ => qemuReply (fun i => UInt8.ofNat i) 8)
      (fun _ c a => qemuReply_listsBytes _ (by decide) c a) (by decide) hfit⟩

end Whole

end Haywire.Monitor.ScanForVideo
