import Haywire.Monitor.Reader
import Haywire.Py.Builtins

/-!
# Guest memory as an image

`display_memory.display_memory_as_image(address, width, height)` reads
`size = width * height * 3` values with `read_memory_region` and saves them as
pictures:

```
if len(data) < size:
    data.extend([0] * (size - len(data)))
arr = np.array(data, dtype=np.uint8)
arr = arr.reshape((height, width, 3))
...
gray_arr = np.array(data[:width*height], dtype=np.uint8)
gray_arr = gray_arr.reshape((height, width))
```

An image is its array in row-major order: pixel `(y, x)` of the RGB image is the
three values from `(y * width + x) * 3`, of the grayscale image the value at
`y * width + x`.  The PNG encoding, the file names and the hex lines printed
afterwards are not modelled.

`read_memory_region` returns `all_bytes[:size]`, or `[]` when the socket failed, so
the reshape never fails on what it returns and only a value above 255 can stop the
conversion (`displayMemoryAsImage_of_bytes`); a failed read is saved as a black
image (`display_closed_black`).  When the monitor answers whole replies the RGB
image is guest memory from `address` byte for byte, and the grayscale image its first
`width * height` bytes (`display_shows_memory`, `display_pixel`).
-/

namespace Haywire.Monitor

open Py

/-- `np.array(values, dtype=np.uint8)`. -/
def uint8Array (values : List Nat) : Except PyError (List UInt8) :=
  if values.all (· < 256) then .ok (values.map UInt8.ofNat) else .error .overflowError

/-- `arr.reshape(shape)` to a shape of `n` elements, the array kept flat. -/
def reshape (arr : List UInt8) (n : Nat) : Except PyError (List UInt8) :=
  if arr.length = n then .ok arr else .error .valueError

/-- `data.extend([0] * (size - len(data)))` when `data` is shorter than `size`. -/
def padTo (size : Nat) (data : List Nat) : List Nat :=
  if data.length < size then data ++ List.replicate (size - data.length) 0 else data

/-- `display_memory_as_image(address, width, height)` from the values
`read_memory_region(address, width * height * 3)` returned: the RGB and the grayscale
arrays it saves. -/
def displayMemoryAsImage (data : List Nat) (width height : Nat) :
    Except PyError (List UInt8 × List UInt8) := do
  let size := width * height * 3
  let data := padTo size data
  let arr ← reshape (← uint8Array data) (height * width * 3)
  let grayArr ← reshape (← uint8Array (data.take (width * height))) (height * width)
  pure (arr, grayArr)

theorem length_padTo {size : Nat} {data : List Nat} (h : data.length ≤ size) :
    (padTo size data).length = size := by
  unfold padTo
  split
  · simp only [List.length_append, List.length_replicate]; omega
  · omega

theorem padTo_of_le {size : Nat} {data : List Nat} (h : size ≤ data.length) : padTo size data = data :=
  if_neg (Nat.not_lt.mpr h)

theorem lt_of_mem_padTo {size : Nat} {data : List Nat} (h : ∀ v ∈ data, v < 256) :
    ∀ v ∈ padTo size data, v < 256 := by
  unfold padTo
  split
  · simp only [List.mem_append, List.mem_replicate]
    rintro v (hv | ⟨-, rfl⟩)
    · exact h v hv
    · decide
  · exact h

theorem uint8Array_of_lt {values : List Nat} (h : ∀ v ∈ values, v < 256) :
    uint8Array values = .ok (values.map UInt8.ofNat) :=
  if_pos (List.all_eq_true.mpr fun v hv => decide_eq_true (h v hv))

/-- On values that fit a byte and are no more than it asked for, the images are
those values padded with zeros, and the reshapes succeed. -/
theorem displayMemoryAsImage_of_bytes {data : List Nat} {width height : Nat}
    (hlen : data.length ≤ width * height * 3) (hv : ∀ v ∈ data, v < 256) :
    displayMemoryAsImage data width height =
      .ok ((padTo (width * height * 3) data).map UInt8.ofNat,
        ((padTo (width * height * 3) data).take (width * height)).map UInt8.ofNat) := by
  have hpad : ∀ v ∈ padTo (width * height * 3) data, v < 256 := lt_of_mem_padTo hv
  have hgray : uint8Array ((padTo (width * height * 3) data).take (width * height)) =
      .ok (((padTo (width * height * 3) data).take (width * height)).map UInt8.ofNat) :=
    uint8Array_of_lt fun v hv' => hpad v (List.mem_of_mem_take hv')
  have hsize : ((padTo (width * height * 3) data).map UInt8.ofNat).length = height * width * 3 := by
    rw [List.length_map, length_padTo hlen, Nat.mul_comm width]
  have hgraySize :
      (((padTo (width * height * 3) data).take (width * height)).map UInt8.ofNat).length =
        height * width := by
    rw [List.length_map, List.length_take, length_padTo hlen, Nat.mul_comm height]
    exact Nat.min_eq_left (Nat.le_mul_of_pos_right _ (by decide))
  simp only [displayMemoryAsImage, uint8Array_of_lt hpad, hgray, reshape, hsize, hgraySize,
    bind, Except.bind, if_true]
  rfl

theorem take_memSlice (M : Memory) (a : Nat) {k n : Nat} (h : k ≤ n) :
    (memSlice M a n).take k = memSlice M a k := by
  obtain ⟨d, rfl⟩ := Nat.exists_eq_add_of_le h
  rw [memSlice_add, List.take_left' (length_memSlice M a k)]

theorem getElem?_memSlice (M : Memory) {a n i : Nat} (h : i < n) :
    (memSlice M a n)[i]? = some (M (a + i)) := by
  simp [memSlice, h]

theorem map_ofNat_toNat (bytes : List UInt8) : (bytes.map UInt8.toNat).map UInt8.ofNat = bytes := by
  rw [List.map_map]
  exact List.map_id'' (fun b => UInt8.toNat.inj (UInt8.toNat_ofNat_of_lt b.toNat_lt_size)) bytes

section Whole

variable (M : Memory) (reply : Nat → List Char → List Char)
  (hreply : ∀ j count addr, ListsBytes (memSlice M addr count) (reply j (xpCommand count addr)))

include hreply in
/-- **The image is guest memory.**  When the first `recv` takes the whole greeting
and every later `recv` the whole reply, and the loop has had its `⌈size/256⌉`
passes, `display_memory_as_image` saves as RGB image the `width * height * 3` bytes
of guest memory from `address`, and as grayscale image the first `width * height`. -/
theorem display_shows_memory (address width height : Nat) {greeting : List Char}
    (hgreeting : WholeGreeting greeting)
    (hfit : ∀ j count addr, count ≤ 256 → addr + count ≤ address + width * height * 3 →
      (reply j (xpCommand count addr)).length ≤ 8192)
    {fuel : Nat} (hfuel : (width * height * 3 + 255) / 256 ≤ fuel) :
    (DisplayMemory.readMemoryRegion (Wire.peer reply) ⟨greeting, [], []⟩ address (width * height * 3)
        fuel).map (fun r => displayMemoryAsImage r.1 width height) =
      some (.ok (memSlice M address (width * height * 3), memSlice M address (width * height))) := by
  obtain ⟨_, -, hrun⟩ := chunkRead_whole M reply hreply address (width * height * 3) hgreeting hfit hfuel
  have hbytes : ((memSlice M address (width * height * 3)).map UInt8.toNat).length =
      width * height * 3 := by
    rw [List.length_map, length_memSlice]
  have hv : ∀ v ∈ (memSlice M address (width * height * 3)).map UInt8.toNat, v < 256 := by
    simp only [List.mem_map]
    rintro _ ⟨b, -, rfl⟩
    exact b.toNat_lt_size
  have hwh : width * height ≤ width * height * 3 := Nat.le_mul_of_pos_right _ (by decide)
  simp only [DisplayMemory.readMemoryRegion, hrun, Option.map_some',
    List.take_of_length_le hbytes.le, displayMemoryAsImage_of_bytes hbytes.le hv,
    padTo_of_le hbytes.ge, map_ofNat_toNat, ← List.map_take, take_memSlice M address hwh]

include hreply in
/-- Pixel `(y, x)` of the saved RGB image holds, in channel `c`, the guest byte at
`address + (y * width + x) * 3 + c`. -/
theorem display_pixel (address width height : Nat) (greeting : List Char) (fuel : Nat)
    (hgreeting : WholeGreeting greeting)
    (hfit : ∀ j count addr, count ≤ 256 → addr + count ≤ address + width * height * 3 →
      (reply j (xpCommand count addr)).length ≤ 8192)
    (hfuel : (width * height * 3 + 255) / 256 ≤ fuel) {y x c : Nat} (hy : y < height) (hx : x < width)
    (hc : c < 3) :
    ∃ rgb gray, (DisplayMemory.readMemoryRegion (Wire.peer reply) ⟨greeting, [], []⟩ address
        (width * height * 3) fuel).map (fun r => displayMemoryAsImage r.1 width height) =
        some (.ok (rgb, gray)) ∧
      rgb[(y * width + x) * 3 + c]? = some (M (address + ((y * width + x) * 3 + c))) := by
  refine ⟨_, _, display_shows_memory M reply hreply address width height hgreeting hfit hfuel,
    getElem?_memSlice M ?_⟩
  have hpix : y * width + x < width * height :=
    calc y * width + x < y * width + width := by omega
      _ = (y + 1) * width := by rw [Nat.succ_mul]
      _ ≤ height * width := Nat.mul_le_mul_right _ hy
      _ = width * height := Nat.mul_comm _ _
  omega

/-- The reference monitor, eight bytes to a row, meets the hypotheses of
`display_pixel`; pixel `(1, 3)` of a `4 × 2` image, channel 2. -/
theorem display_pixel_qemu :
    (∀ j count addr : Nat, ListsBytes (memSlice (fun i => UInt8.ofNat i) addr count)
      ((fun _ => qemuReply (fun i => UInt8.ofNat i) 8) j (xpCommand count addr))) ∧
    WholeGreeting prompt ∧
    (∀ j count addr : Nat, count ≤ 256 → addr + count ≤ 0x1000 + 4 * 2 * 3 →
      ((fun _ => qemuReply (fun i => UInt8.ofNat i) 8) j (xpCommand count addr)).length ≤ 8192) ∧
    (4 * 2 * 3 + 255) / 256 ≤ 1 ∧ 1 < 2 ∧ 3 < 4 ∧ 2 < 3 ∧
    ∃ rgb gray, (DisplayMemory.readMemoryRegion (Wire.peer fun _ => qemuReply (fun i => UInt8.ofNat i) 8)
        ⟨prompt, [], []⟩ 0x1000 (4 * 2 * 3) 1).map (fun r => displayMemoryAsImage r.1 4 2) =
        some (.ok (rgb, gray)) ∧
      rgb[(1 * 4 + 3) * 3 + 2]? = some (UInt8.ofNat (0x1000 + ((1 * 4 + 3) * 3 + 2))) :=
  have hfit : ∀ j count addr : Nat, count ≤ 256 → addr + count ≤ 0x1000 + 4 * 2 * 3 →
      ((fun _ => qemuReply (fun i => UInt8.ofNat i) 8) j (xpCommand count addr)).length ≤ 8192 :=
    fun _ _ _ hc ha => length_qemuReply_le _ (by omega) (by omega)
  ⟨fun _ c a => qemuReply_listsBytes _ (by decide) c a, by decide, hfit, by decide, by decide,
    by decide, by decide,
    display_pixel (fun i => UInt8.ofNat i) (fun _ => qemuReply (fun i => UInt8.ofNat i) 8)
      (fun _ c a => qemuReply_listsBytes _ (by decide) c a) 0x1000 4 2 prompt 1 (by decide) hfit
      (by decide) (by decide) (by decide) (by decide)⟩

end Whole

end Haywire.Monitor
