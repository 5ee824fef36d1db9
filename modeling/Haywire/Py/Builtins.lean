import Mathlib.Data.List.Nodup
import Mathlib.Data.List.Range
import Mathlib.Data.List.Sort

/-!
# The Python builtins the scan loops use

`range` with a positive step, `dict` with its insertion order, `sorted(…,
reverse=True)`, indexing that raises, and the exceptions the scripts can see.

A `dict` is its list of items in insertion order, with no key twice: `d[k] = v`
replaces the value of a present key in place and appends a new one.
`sorted(xs, reverse=True)` is a stable merge sort on the reversed order, which
keeps equal elements in their original order as CPython does; on tuples of
distinct `int` pairs, the order of the report, the result is the one list in
descending order with those elements (`sortedDesc_tupleLe_eq`).
-/

namespace Haywire.Py

/-- The exceptions a modelled call can raise; the scripts catch all of them with
`except Exception` or a bare `except`. -/
inductive PyError where
  /-- `int()`, `bytes.fromhex` or `bytearray.append` rejected its argument. -/
  | valueError
  /-- An index past the end of a sequence. -/
  | indexError
  /-- `struct.unpack` on a buffer of the wrong length. -/
  | structError
  /-- `bytes.decode()` on bytes that are not UTF-8. -/
  | unicodeDecodeError
  /-- `np.array(values, dtype=np.uint8)` on a value above 255 (NumPy 2). -/
  | overflowError
  /-- A division by zero. -/
  | zeroDivisionError
  /-- `sock.send` on a connection the far end has closed. -/
  | brokenPipeError
  /-- `socket.timeout`: a `recv` on a socket with a timeout, when nothing arrived in
  time. -/
  | timeout
deriving DecidableEq, Repr

/-- Outcomes of calls that may raise can be compared, so that runs can be decided. -/
instance exceptDecidableEq {ε α : Type} [DecidableEq ε] [DecidableEq α] :
    DecidableEq (Except ε α)
  | .error a, .error b => decidable_of_iff (a = b) (by simp)
  | .ok a, .ok b => decidable_of_iff (a = b) (by simp)
  | .error _, .ok _ => isFalse (by simp)
  | .ok _, .error _ => isFalse (by simp)

/-- `seq[i]`: the element, or `IndexError`. -/
def getItem {α : Type} (seq : List α) (i : Nat) : Except PyError α :=
  match seq[i]? with
  | some x => .ok x
  | none => .error .indexError

@[simp] theorem getItem_of_lt {α : Type} {seq : List α} {i : Nat} (h : i < seq.length) :
    getItem seq i = .ok seq[i] := by
  simp [getItem, List.getElem?_eq_getElem h]

/-! ## `range` -/

/-- `range(start, stop, step)` for a positive `step`: `start`, `start + step`, … below
`stop`.  The scripts only pass positive literal steps. -/
def range (start stop step : Nat) : List Nat :=
  List.range' start ((stop - start + step - 1) / step) step

theorem mem_range {start stop step o : Nat} (hs : 0 < step) :
    o ∈ range start stop step ↔ ∃ i, start + step * i < stop ∧ o = start + step * i := by
  have key : ∀ i, i < (stop - start + step - 1) / step ↔ start + step * i < stop := by
    intro i
    rw [← Nat.succ_le, Nat.le_div_iff_mul_le hs, Nat.succ_mul, Nat.mul_comm]
    generalize step * i = m
    omega
  simp only [range, List.mem_range', key]

theorem nodup_range (start stop : Nat) {step : Nat} (hs : 0 < step) :
    (range start stop step).Nodup :=
  List.nodup_range' _ _ _ hs

/-! ## Loops that do not raise

A `for` loop whose body may raise is a `foldlM` in `Except`.  When the body returns
at every element, whatever the state, the loop returns: the fold of the values. -/

theorem foldlM_except_eq {ε α β : Type} {f : β → α → Except ε β} {g : β → α → β} {xs : List α}
    (h : ∀ x ∈ xs, ∀ b, f b x = .ok (g b x)) (b : β) : xs.foldlM f b = .ok (xs.foldl g b) := by
  induction xs generalizing b with
  | nil => rfl
  | cons x xs ih =>
    rw [List.foldlM_cons, h x (List.mem_cons_self _ _), List.foldl_cons]
    exact ih (fun y hy => h y (List.mem_cons_of_mem _ hy)) _

theorem foldlM_except_ok {ε α β : Type} {f : β → α → Except ε β} {xs : List α}
    (h : ∀ x ∈ xs, ∀ b, ∃ b', f b x = .ok b') (b : β) : ∃ r, xs.foldlM f b = .ok r := by
  induction xs generalizing b with
  | nil => exact ⟨b, rfl⟩
  | cons x xs ih =>
    obtain ⟨b', hb'⟩ := h x (List.mem_cons_self _ _) b
    rw [List.foldlM_cons, hb']
    exact ih (fun y hy => h y (List.mem_cons_of_mem _ hy)) _

theorem mapM_except_eq {ε α β : Type} {f : α → Except ε β} {g : α → β} {xs : List α}
    (h : ∀ x ∈ xs, f x = .ok (g x)) : xs.mapM f = .ok (xs.map g) := by
  induction xs with
  | nil => rfl
  | cons x xs ih =>
    rw [List.mapM_cons, h x (List.mem_cons_self _ _), ih fun y hy => h y (List.mem_cons_of_mem _ hy)]
    rfl

/-- A loop whose body can only raise `e` raises `e` once one of its elements makes the
body raise. -/
theorem foldlM_except_error {ε α β : Type} {f : β → α → Except ε β} {xs : List α} {e : ε}
    (h : ∀ x ∈ xs, ∀ b, f b x = .error e ∨ ∃ b', f b x = .ok b')
    (hx : ∃ x ∈ xs, ∀ b, f b x = .error e) (b : β) : xs.foldlM f b = .error e := by
  induction xs generalizing b with
  | nil => obtain ⟨x, hx, -⟩ := hx; cases hx
  | cons x xs ih =>
    rw [List.foldlM_cons]
    rcases h x (List.mem_cons_self _ _) b with he | ⟨b', hb'⟩
    · rw [he]; rfl
    · rw [hb']
      refine ih (fun y hy => h y (List.mem_cons_of_mem _ hy)) ?_ b'
      obtain ⟨y, hy, hye⟩ := hx
      rcases List.mem_cons.mp hy with rfl | hy
      · rw [hye b] at hb'; cases hb'
      · exact ⟨y, hy, hye⟩

theorem mapM_except_error {ε α β : Type} {f : α → Except ε β} {xs : List α} {e : ε}
    (h : ∀ x ∈ xs, f x = .error e ∨ ∃ b, f x = .ok b) (hx : ∃ x ∈ xs, f x = .error e) :
    xs.mapM f = .error e := by
  induction xs with
  | nil => obtain ⟨x, hx, -⟩ := hx; cases hx
  | cons x xs ih =>
    rw [List.mapM_cons]
    rcases h x (List.mem_cons_self _ _) with he | ⟨b, hb⟩
    · rw [he]; rfl
    · obtain ⟨y, hy, hye⟩ := hx
      rcases List.mem_cons.mp hy with rfl | hy
      · rw [hye] at hb; cases hb
      · rw [hb, ih (fun y hy => h y (List.mem_cons_of_mem _ hy)) ⟨y, hy, hye⟩]; rfl

/-! ## `dict` -/

section Items

variable {κ ν : Type} [DecidableEq κ]

/-- The value of key `k` in a list of items, the first if it occurs twice. -/
def lookupItem : List (κ × ν) → κ → Option ν
  | [], _ => none
  | (k', v) :: d, k => if k' = k then some v else lookupItem d k

/-- `d[k] = v` on the items: the value of a present key is replaced in place, a new
key goes last. -/
def setItem : List (κ × ν) → κ → ν → List (κ × ν)
  | [], k, v => [(k, v)]
  | (k', v') :: d, k, v => if k' = k then (k, v) :: d else (k', v') :: setItem d k v

@[simp] theorem lookupItem_setItem (d : List (κ × ν)) (k k' : κ) (v : ν) :
    lookupItem (setItem d k v) k' = if k' = k then some v else lookupItem d k' := by
  induction d with
  | nil => by_cases h : k' = k <;> simp [setItem, lookupItem, h, Ne.symm]
  | cons e d ih =>
    obtain ⟨k'', v'⟩ := e
    by_cases h : k'' = k
    · subst h; by_cases h' : k' = k'' <;> simp [setItem, lookupItem, h', eq_comm]
    · simp only [setItem, h, if_false, lookupItem, ih]
      by_cases h' : k' = k <;> by_cases h'' : k'' = k' <;> simp_all

theorem mem_keys_setItem {d : List (κ × ν)} {k x : κ} {v : ν} :
    x ∈ (setItem d k v).map Prod.fst ↔ x = k ∨ x ∈ d.map Prod.fst := by
  induction d with
  | nil => simp [setItem]
  | cons e d ih =>
    obtain ⟨k', v'⟩ := e
    by_cases h : k' = k
    · subst h; simp [setItem]
    · simp only [setItem, h, if_false, List.map_cons, List.mem_cons, ih]; tauto

/-- Setting a key never duplicates one. -/
theorem nodup_keys_setItem {d : List (κ × ν)} (hd : (d.map Prod.fst).Nodup) (k : κ) (v : ν) :
    ((setItem d k v).map Prod.fst).Nodup := by
  induction d with
  | nil => simp [setItem]
  | cons e d ih =>
    obtain ⟨k', v'⟩ := e
    rw [List.map_cons, List.nodup_cons] at hd
    by_cases h : k' = k
    · subst h; simpa [setItem] using hd
    · simp only [setItem, h, if_false, List.map_cons, List.nodup_cons, mem_keys_setItem]
      exact ⟨fun h' => h'.elim id hd.1, ih hd.2⟩

theorem mem_iff_lookupItem {d : List (κ × ν)} (hd : (d.map Prod.fst).Nodup) (k : κ) (v : ν) :
    (k, v) ∈ d ↔ lookupItem d k = some v := by
  induction d with
  | nil => simp [lookupItem]
  | cons e d ih =>
    obtain ⟨k', v'⟩ := e
    rw [List.map_cons, List.nodup_cons] at hd
    by_cases h : k' = k
    · subst h
      have : ∀ w, (k', w) ∉ d := fun w hw => hd.1 (List.mem_map.mpr ⟨_, hw, rfl⟩)
      simp [lookupItem, this, eq_comm]
    · simp [lookupItem, h, ih hd.2, Ne.symm h]

end Items

/-- A `dict`: its items in insertion order, each key once. -/
structure Dict (κ ν : Type) where
  /-- `d.items()`. -/
  items : List (κ × ν)
  /-- No key occurs twice. -/
  nodup_keys : (items.map Prod.fst).Nodup

namespace Dict

variable {κ ν : Type} [DecidableEq κ]

/-- `{}`. -/
def empty : Dict κ ν := ⟨[], List.nodup_nil⟩

/-- `d.get(k)`, `None` for an absent key. -/
def get (d : Dict κ ν) (k : κ) : Option ν := lookupItem d.items k

/-- `d[k] = v`. -/
def set (d : Dict κ ν) (k : κ) (v : ν) : Dict κ ν :=
  ⟨setItem d.items k v, nodup_keys_setItem d.nodup_keys k v⟩

@[simp] theorem get_empty (k : κ) : (empty : Dict κ ν).get k = none := rfl

@[simp] theorem get_set (d : Dict κ ν) (k k' : κ) (v : ν) :
    (d.set k v).get k' = if k' = k then some v else d.get k' :=
  lookupItem_setItem d.items k k' v

/-- An item of a dict is what `get` returns for its key. -/
theorem mem_items_iff_get (d : Dict κ ν) (k : κ) (v : ν) : (k, v) ∈ d.items ↔ d.get k = some v :=
  mem_iff_lookupItem d.nodup_keys k v

end Dict

/-! ## `sorted` -/

/-- `sorted(xs, reverse=True)` under the order `le`. -/
def sortedDesc {α : Type} (le : α → α → Bool) (xs : List α) : List α :=
  xs.mergeSort (fun a b => le b a)

/-- `a <= b` on pairs of `int`s: tuples compare lexicographically. -/
def tupleLe (a b : Nat × Nat) : Bool := a.1 < b.1 ∨ a.1 = b.1 ∧ a.2 ≤ b.2

theorem perm_sortedDesc {α : Type} (le : α → α → Bool) (xs : List α) : (sortedDesc le xs).Perm xs :=
  List.mergeSort_perm xs _

@[simp] theorem mem_sortedDesc {α : Type} {le : α → α → Bool} {xs : List α} {a : α} :
    a ∈ sortedDesc le xs ↔ a ∈ xs :=
  List.mem_mergeSort

theorem pairwise_sortedDesc_tupleLe (xs : List (Nat × Nat)) :
    (sortedDesc tupleLe xs).Pairwise fun a b => tupleLe b a := by
  refine List.sorted_mergeSort (fun a b c h1 h2 => ?_) (fun a b => ?_) xs
  · simp only [tupleLe, decide_eq_true_eq] at h1 h2 ⊢; omega
  · simp only [tupleLe, Bool.or_eq_true, decide_eq_true_eq]; omega

/-- A list of pairs in descending order is the sorted list of its elements. -/
theorem sortedDesc_tupleLe_eq {xs ys : List (Nat × Nat)} (hp : ys.Perm xs)
    (hs : ys.Pairwise fun a b => tupleLe b a) : sortedDesc tupleLe xs = ys := by
  have : IsAntisymm (Nat × Nat) fun a b => tupleLe b a = true :=
    ⟨fun a b h1 h2 => by simp only [tupleLe, decide_eq_true_eq] at h1 h2; ext <;> omega⟩
  exact List.eq_of_perm_of_sorted ((perm_sortedDesc _ xs).trans hp.symm)
    (pairwise_sortedDesc_tupleLe xs) hs

/-- The order of the input does not matter. -/
theorem sortedDesc_tupleLe_perm {xs ys : List (Nat × Nat)} (h : xs.Perm ys) :
    sortedDesc tupleLe xs = sortedDesc tupleLe ys :=
  sortedDesc_tupleLe_eq ((perm_sortedDesc _ ys).trans h.symm) (pairwise_sortedDesc_tupleLe ys)

end Haywire.Py
