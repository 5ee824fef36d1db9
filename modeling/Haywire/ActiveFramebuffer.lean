import Haywire.Py.Struct

/-!
# Temporal change counting in `find_active_framebuffer`

`find_changing_regions` samples the guest memory file `sample_count` times.  In each
sample it hashes the first 4 KiB at every offset of
`range(0, file_size - region_size, stride)` and, from the second visit of an offset
on, counts the samples whose hash differs from the one before:

```
if offset in previous_hashes:
    if current_hash != previous_hashes[offset]:
        change_counts[offset] = change_counts.get(offset, 0) + 1
previous_hashes[offset] = current_hash
```

It then reports the ten greatest `(count, offset)` pairs whose count is at least 2.

The memory is a parameter: `window s o` is what `mm.read(4096)` returns at offset `o`
in sample `s`, and `hash` stands for `hashlib.md5(...).digest()`, any function into a
type with equality.  The `Active region` lines printed while sampling are modelled
(`Tracker.activeLines`, `findChangingRegions_activeLines`); the sleep between
samples, the progress lines and the preview read after the report are not.

A visit changes the tracker at its own offset only (`view_visit`), so a pass over
distinct offsets acts on each of them once (`view_samplePass`), and after `n` samples
the tracker holds at every visited offset the last hash and the number of changes
among the first `n` samples (`view_sampleLoop`).  The report is then the top ten of
those counts (`mostActive_eq`).
-/

namespace Haywire.ActiveFramebuffer

open Py

variable {δ : Type} [DecidableEq δ]

/-- The state of `find_changing_regions` across its loops: its two dictionaries and
the `Active region` lines printed so far, as `(offset, count)`. -/
structure Tracker (δ : Type) where
  /-- `change_counts`. -/
  changeCounts : Dict Nat Nat
  /-- `previous_hashes`. -/
  previousHashes : Dict Nat δ
  /-- The `Active region at 0x… (changed … times)` lines. -/
  activeLines : List (Nat × Nat)

/-- Both dictionaries empty and nothing printed. -/
def Tracker.init : Tracker δ := ⟨.empty, .empty, []⟩

/-- `region_size` by default: one 1080p RGBA frame. -/
def defaultRegionSize : Nat := 1920 * 1080 * 4

/-- `sample_count` by default. -/
def defaultSampleCount : Nat := 10

/-- `stride`: every 16 MiB. -/
def stride : Nat := 16 * 1024 * 1024

/-- `range(0, file_size - region_size, stride)`, empty when the file is no larger
than a region. -/
def sampleOffsets (fileSize regionSize : Nat) : List Nat := range 0 (fileSize - regionSize) stride

/-- One iteration of the inner loop, where `read offset` is the 4 KiB that
`mm.read(4096)` returns at `offset`. -/
def visit (hash : List UInt8 → δ) (read : Nat → List UInt8) (st : Tracker δ) (offset : Nat) :
    Tracker δ :=
  let sampleData := read offset
  let currentHash := hash sampleData
  let st := match st.previousHashes.get offset with
    | some previous =>
      if currentHash ≠ previous then
        let count := (st.changeCounts.get offset).getD 0 + 1
        { st with
          changeCounts := st.changeCounts.set offset count
          activeLines :=
            if getSlice sampleData 0 4 ≠ [0, 0, 0, 0] ∧ 3 ≤ count then
              st.activeLines ++ [(offset, count)]
            else st.activeLines }
      else st
    | none => st
  { st with previousHashes := st.previousHashes.set offset currentHash }

/-- One sample: the inner loop over the offsets. -/
def samplePass (hash : List UInt8 → δ) (read : Nat → List UInt8) (offsets : List Nat)
    (st : Tracker δ) : Tracker δ :=
  offsets.foldl (visit hash read) st

/-- The first `n` samples, sample `s` reading the memory `window s`. -/
def sampleLoop (hash : List UInt8 → δ) (window : Nat → Nat → List UInt8) (offsets : List Nat)
    (n : Nat) : Tracker δ :=
  (List.range n).foldl (fun st sample => samplePass hash (window sample) offsets st) .init

/-- The `Most Active Regions` report, as the `(count, offset)` pairs printed:
`sorted([(count, offset) for offset, count in change_counts.items()], reverse=True)[:10]`
and of those the pairs with `count >= 2`. -/
def mostActive (changeCounts : Dict Nat Nat) : List (Nat × Nat) :=
  ((sortedDesc tupleLe (changeCounts.items.map fun e => (e.2, e.1))).take 10).filter
    fun p => 2 ≤ p.1

/-- `find_changing_regions(filepath, region_size, sample_count)` on a file of
`fileSize` bytes: the tracker after the sampling loops, and the report. -/
def findChangingRegions (hash : List UInt8 → δ) (window : Nat → Nat → List UInt8)
    (fileSize regionSize sampleCount : Nat) : Tracker δ × List (Nat × Nat) :=
  let st := sampleLoop hash window (sampleOffsets fileSize regionSize) sampleCount
  (st, mostActive st.changeCounts)

/-! ## What the loops count -/

section Counting

variable (hash : List UInt8 → δ) (window : Nat → Nat → List UInt8)

/-- The number of samples `1 ≤ s < n` whose window at `o` hashes otherwise than the
window of sample `s - 1`. -/
def changes (n o : Nat) : Nat :=
  ((List.range n).filter fun s => 0 < s ∧ hash (window s o) ≠ hash (window (s - 1) o)).length

theorem changes_succ (n o : Nat) :
    changes hash window (n + 1) o =
      changes hash window n o + if 0 < n ∧ hash (window n o) ≠ hash (window (n - 1) o) then 1 else 0 := by
  simp only [changes, List.range_succ, List.filter_append, List.length_append, List.filter_cons,
    List.filter_nil]
  split <;> simp_all

/-- A count never exceeds the number of pairs of consecutive samples. -/
theorem changes_le (n o : Nat) : changes hash window n o ≤ n - 1 := by
  induction n with
  | zero => simp [changes]
  | succ n ih =>
    rw [changes_succ]
    split <;> omega

/-- What the tracker holds for one offset: `previous_hashes.get(o)` and
`change_counts.get(o)`. -/
def Tracker.view (st : Tracker δ) (o : Nat) : Option δ × Option Nat :=
  (st.previousHashes.get o, st.changeCounts.get o)

/-- What a visit makes of what is held for its own offset, given the hash read. -/
def visitView (currentHash : δ) : Option δ × Option Nat → Option δ × Option Nat
  | (some previous, count) =>
    (some currentHash, if currentHash ≠ previous then some (count.getD 0 + 1) else count)
  | (none, count) => (some currentHash, count)

/-- **A visit touches its own offset only.** -/
theorem view_visit (read : Nat → List UInt8) (st : Tracker δ) (offset o : Nat) :
    (visit hash read st offset).view o =
      if o = offset then visitView (hash (read offset)) (st.view offset) else st.view o := by
  unfold visit Tracker.view
  cases h : st.previousHashes.get offset with
  | none => by_cases ho : o = offset <;> simp [ho, h, visitView]
  | some previous =>
    by_cases hc : hash (read offset) = previous <;> by_cases ho : o = offset <;>
      simp [ho, h, hc, visitView]

theorem samplePass_cons (read : Nat → List UInt8) (a : Nat) (offsets : List Nat) (st : Tracker δ) :
    samplePass hash read (a :: offsets) st = samplePass hash read offsets (visit hash read st a) :=
  rfl

/-- A pass over distinct offsets visits each of them once, from what it held before
the pass, and leaves every other offset alone. -/
theorem view_samplePass (read : Nat → List UInt8) {offsets : List Nat} (hd : offsets.Nodup)
    (st : Tracker δ) (o : Nat) :
    (samplePass hash read offsets st).view o =
      if o ∈ offsets then visitView (hash (read o)) (st.view o) else st.view o := by
  induction offsets generalizing st with
  | nil => rfl
  | cons a offsets ih =>
    rw [List.nodup_cons] at hd
    rw [samplePass_cons, ih hd.2, view_visit]
    by_cases ho : o = a
    · subst ho; simp [hd.1]
    · simp [ho]

theorem sampleLoop_succ (offsets : List Nat) (n : Nat) :
    sampleLoop hash window offsets (n + 1) =
      samplePass hash (window n) offsets (sampleLoop hash window offsets n) := by
  simp only [sampleLoop, List.range_succ, List.foldl_append, List.foldl_cons, List.foldl_nil]

theorem getD_countOf (c : Nat) : (if 0 < c then some c else none).getD 0 = c := by
  split <;> simp_all

/-- **The loop invariant.**  After `n` samples over distinct offsets, a visited offset
holds the hash of its last window and, when it has changed at all, its number of
changes; an offset never visited holds nothing. -/
theorem view_sampleLoop {offsets : List Nat} (hd : offsets.Nodup) (n o : Nat) :
    (sampleLoop hash window offsets n).view o =
      (if o ∈ offsets ∧ 0 < n then some (hash (window (n - 1) o)) else none,
        if o ∈ offsets ∧ 0 < changes hash window n o then some (changes hash window n o)
        else none) := by
  induction n with
  | zero => simp [sampleLoop, Tracker.view, Tracker.init, changes]
  | succ n ih =>
    rw [sampleLoop_succ, view_samplePass hash _ hd, ih, changes_succ]
    by_cases ho : o ∈ offsets
    · rcases n with _ | n
      · simp [ho, visitView, changes]
      · by_cases hc : hash (window (n + 1) o) = hash (window n o) <;>
          simp [ho, hc, visitView, getD_countOf]
    · simp [ho]

/-! ## The `Active region` lines -/

/-- The `Active region` line a visit prints, from the hash and bytes read and what is
held for its offset. -/
def activeLine (currentHash : δ) (sampleData : List UInt8) (offset : Nat) :
    Option δ × Option Nat → Option (Nat × Nat)
  | (some previous, count) =>
    if currentHash ≠ previous ∧ getSlice sampleData 0 4 ≠ [0, 0, 0, 0] ∧ 3 ≤ count.getD 0 + 1 then
      some (offset, count.getD 0 + 1)
    else none
  | (none, _) => none

theorem activeLines_visit (read : Nat → List UInt8) (st : Tracker δ) (offset : Nat) :
    (visit hash read st offset).activeLines =
      st.activeLines ++ (activeLine (hash (read offset)) (read offset) offset (st.view offset)).toList := by
  unfold visit Tracker.view
  cases h : st.previousHashes.get offset with
  | none => simp [activeLine]
  | some previous =>
    by_cases hc : hash (read offset) = previous
    · simp [activeLine, hc]
    · simp only [activeLine, h, hc, if_true, ne_eq, not_false_eq_true, true_and]
      split <;> simp [hc]

/-- A pass over distinct offsets prints, in the order of the offsets, the line of each
visit from what its offset held before the pass. -/
theorem activeLines_samplePass (read : Nat → List UInt8) {offsets : List Nat} (hd : offsets.Nodup)
    (st : Tracker δ) :
    (samplePass hash read offsets st).activeLines =
      st.activeLines ++ offsets.filterMap fun o => activeLine (hash (read o)) (read o) o (st.view o) := by
  induction offsets generalizing st with
  | nil => simp [samplePass]
  | cons a offsets ih =>
    rw [List.nodup_cons] at hd
    rw [samplePass_cons, ih hd.2, activeLines_visit, List.filterMap_cons, List.append_assoc]
    congr 1
    rw [List.filterMap_congr fun o ho => by rw [view_visit, if_neg (ne_of_mem_of_not_mem ho hd.1)]]
    cases activeLine (hash (read a)) (read a) a (st.view a) <;> rfl

/-- **The lines printed while sampling.**  Sample by sample, in the order of the
offsets, `Active region at o (changed c times)` is printed exactly when the window at
`o` hashes otherwise than in the sample before, its first four bytes are not all zero,
and its count `c` of changes so far has reached 3. -/
theorem activeLines_sampleLoop {offsets : List Nat} (hd : offsets.Nodup) (n : Nat) :
    (sampleLoop hash window offsets n).activeLines =
      (List.range n).flatMap fun s => offsets.filterMap fun o =>
        if 0 < s ∧ hash (window s o) ≠ hash (window (s - 1) o) ∧
            getSlice (window s o) 0 4 ≠ [0, 0, 0, 0] ∧ 3 ≤ changes hash window (s + 1) o then
          some (o, changes hash window (s + 1) o)
        else none := by
  induction n with
  | zero => rfl
  | succ n ih =>
    rw [sampleLoop_succ, activeLines_samplePass hash _ hd, ih, List.range_succ, List.flatMap_append,
      List.flatMap_singleton]
    congr 1
    refine List.filterMap_congr fun o ho => ?_
    rw [view_sampleLoop hash window hd, changes_succ]
    rcases n with _ | n
    · simp [activeLine]
    · by_cases hc : hash (window (n + 1) o) = hash (window n o)
      · simp [activeLine, ho, hc]
      · simp [activeLine, ho, hc, getD_countOf]

end Counting

/-! ## The report -/

theorem nodup_items_swap (d : Dict Nat Nat) : (d.items.map fun e => (e.2, e.1)).Nodup :=
  (d.nodup_keys.of_map Prod.fst).map fun _ _ h => Prod.ext (congrArg Prod.snd h) (congrArg Prod.fst h)

/-- The report, from what the dictionary holds: whatever the insertion order of
`change_counts`, it lists the ten greatest pairs `(c o, o)` over the offsets, zero
counts included, of those with `c o ≥ 2`. -/
theorem mostActive_eq (d : Dict Nat Nat) {offsets : List Nat} (hd : offsets.Nodup) (c : Nat → Nat)
    (hc : ∀ o, d.get o = if o ∈ offsets ∧ 0 < c o then some (c o) else none) :
    mostActive d =
      ((sortedDesc tupleLe (offsets.map fun o => (c o, o))).take 10).filter fun p => 2 ≤ p.1 := by
  have hinj : ∀ l : List Nat, l.Nodup → (l.map fun o => (c o, o)).Nodup :=
    fun l hl => hl.map fun a b h => congrArg Prod.snd h
  -- the items are the pairs of the offsets with a positive count
  have hitems : (d.items.map fun e => (e.2, e.1)).Perm
      ((offsets.filter fun o => 0 < c o).map fun o => (c o, o)) := by
    refine (List.perm_ext_iff_of_nodup (nodup_items_swap d) (hinj _ (hd.filter _))).mpr ?_
    rintro ⟨n, o⟩
    have : (n, o) ∈ d.items.map (fun e => (e.2, e.1)) ↔ (o, n) ∈ d.items := by
      simp only [List.mem_map, Prod.mk.injEq]
      exact ⟨fun ⟨e, he, h1, h2⟩ => h1 ▸ h2 ▸ he, fun h => ⟨_, h, rfl, rfl⟩⟩
    rw [this, Dict.mem_items_iff_get, hc]
    simp only [List.mem_map, List.mem_filter, decide_eq_true_eq, Prod.mk.injEq]
    constructor
    · intro h; split at h <;> simp_all
    · rintro ⟨o', ⟨ho', hpos⟩, rfl, rfl⟩; simp [ho', hpos]
  -- the zero counts sort after every positive one
  have hsplit : sortedDesc tupleLe (offsets.map fun o => (c o, o)) =
      sortedDesc tupleLe ((offsets.filter fun o => 0 < c o).map fun o => (c o, o)) ++
        sortedDesc tupleLe ((offsets.filter fun o => !decide (0 < c o)).map fun o => (c o, o)) := by
    refine sortedDesc_tupleLe_eq ?_ (List.pairwise_append.mpr ⟨pairwise_sortedDesc_tupleLe _,
      pairwise_sortedDesc_tupleLe _, ?_⟩)
    · refine ((perm_sortedDesc _ _).append (perm_sortedDesc _ _)).trans ?_
      rw [← List.map_append]
      exact (List.filter_append_perm _ _).map _
    · simp only [mem_sortedDesc, List.mem_map, List.mem_filter, decide_eq_true_eq,
        Bool.not_eq_true', decide_eq_false_iff_not]
      rintro _ ⟨a, ⟨-, ha⟩, rfl⟩ _ ⟨b, ⟨-, hb⟩, rfl⟩
      simp only [tupleLe, decide_eq_true_eq]
      omega
  rw [mostActive, sortedDesc_tupleLe_perm hitems, hsplit, List.take_append_eq_append_take,
    List.filter_append, List.self_eq_append_right, List.filter_eq_nil_iff]
  intro p hp
  have hz := List.mem_of_mem_take hp
  simp only [mem_sortedDesc, List.mem_map, List.mem_filter, Bool.not_eq_true',
    decide_eq_false_iff_not] at hz
  obtain ⟨a, ⟨-, ha⟩, rfl⟩ := hz
  simp only [decide_eq_true_eq]
  omega

/-- **Temporal change counting is exact per offset.**  When `find_changing_regions`
finishes, `change_counts` holds at each visited offset with changes its number of
changes, and nothing else; so no count exceeds `sample_count - 1`.  The report lists
of the ten greatest pairs `(changes, offset)` over the visited offsets those with a
count of at least 2, in descending order.  A visit changes the count of its own
offset only. -/
theorem change_counts_exact (hash : List UInt8 → δ) (window : Nat → Nat → List UInt8)
    (fileSize regionSize sampleCount : Nat) :
    (∀ o, (findChangingRegions hash window fileSize regionSize sampleCount).1.changeCounts.get o =
      if o ∈ sampleOffsets fileSize regionSize ∧ 0 < changes hash window sampleCount o then
        some (changes hash window sampleCount o)
      else none) ∧
    (∀ o c, (findChangingRegions hash window fileSize regionSize sampleCount).1.changeCounts.get o =
      some c → c ≤ sampleCount - 1) ∧
    (findChangingRegions hash window fileSize regionSize sampleCount).2 =
      ((sortedDesc tupleLe ((sampleOffsets fileSize regionSize).map fun o =>
        (changes hash window sampleCount o, o))).take 10).filter (fun p => 2 ≤ p.1) ∧
    (∀ (read : Nat → List UInt8) (st : Tracker δ) (offset o : Nat), o ≠ offset →
      (visit hash read st offset).changeCounts.get o = st.changeCounts.get o) := by
  have hd : (sampleOffsets fileSize regionSize).Nodup := nodup_range _ _ (by decide)
  have hcounts : ∀ o, (findChangingRegions hash window fileSize regionSize sampleCount).1.changeCounts.get o =
      if o ∈ sampleOffsets fileSize regionSize ∧ 0 < changes hash window sampleCount o then
        some (changes hash window sampleCount o)
      else none :=
    fun o => congrArg Prod.snd (view_sampleLoop hash window hd sampleCount o)
  refine ⟨hcounts, fun o c h => ?_, mostActive_eq _ hd _ hcounts, fun read st offset o ho => ?_⟩
  · rw [hcounts] at h
    split at h
    · cases h; exact changes_le hash window _ _
    · cases h
  · simpa [ho] using congrArg Prod.snd (view_visit hash read st offset o)

/-- **The `Active region` lines.**  While sampling, `find_changing_regions` prints
`Active region at o (changed c times)` in sample `s`, in the order of the samples
and then of the offsets, exactly when the window at `o` hashes otherwise than in the
sample before, its first four bytes are not all zero, and its count `c` of changes
among the samples up to `s` has reached 3. -/
theorem findChangingRegions_activeLines (hash : List UInt8 → δ) (window : Nat → Nat → List UInt8)
    (fileSize regionSize sampleCount : Nat) :
    (findChangingRegions hash window fileSize regionSize sampleCount).1.activeLines =
      (List.range sampleCount).flatMap fun s => (sampleOffsets fileSize regionSize).filterMap fun o =>
        if 0 < s ∧ hash (window s o) ≠ hash (window (s - 1) o) ∧
            getSlice (window s o) 0 4 ≠ [0, 0, 0, 0] ∧ 3 ≤ changes hash window (s + 1) o then
          some (o, changes hash window (s + 1) o)
        else none :=
  activeLines_sampleLoop hash window (nodup_range _ _ (by decide)) sampleCount

end Haywire.ActiveFramebuffer
