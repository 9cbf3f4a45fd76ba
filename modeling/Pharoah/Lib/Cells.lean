import Mathlib.Data.Nat.ModEq
import Mathlib.Data.List.Basic

/-!
# Rings of cells

A stream whose items are put one after the other into the cells of a ring; only the newest of them
are kept.

* `slice mem o n`      the `n` cells from `o` on;
* `splice mem o bs`    `bs` in the cells from `o` on;
* `At size k p`        the `k`-th item of the stream goes into cell `p`, where the end of the ring
                       stands for its start;
* `Holds mem stream k` the items from the `k`-th on are in their cells;
* `ahead size rd wr`   the cells from `rd` to before `wr`, round the end;
* `ahead_eq`           this is the number of items between the two, if it is below the size;
* `Holds.slice`        what a reader finds in the cells;
* `Holds.splice`       a writer adds to the stream.
-/

namespace Pharoah
namespace Cells

variable {α : Type}

def slice (mem : List α) (o n : Nat) : List α := (mem.drop o).take n

def splice (mem : List α) (o : Nat) (bs : List α) : List α :=
  mem.take o ++ bs ++ mem.drop (o + bs.length)

/-- The `k`-th item goes into cell `p`; the end of the ring is also its start. -/
def At (size k p : Nat) : Prop := p ≤ size ∧ p % size = k % size

/-- The items from the `k`-th on are in their cells. -/
def Holds (mem stream : List α) (k : Nat) : Prop :=
  ∀ i, k ≤ i → i < stream.length → mem[i % mem.length]? = stream[i]?

/-- the cells from `rd` to before `wr` -/
def ahead (size rd wr : Nat) : Nat := if rd ≤ wr then wr - rd else size - rd + wr

/-! ## cells -/

@[simp] theorem slice_zero (mem : List α) (o : Nat) : slice mem o 0 = [] := List.take_zero

theorem length_slice {mem : List α} {o n : Nat} (h : o + n ≤ mem.length) :
    (slice mem o n).length = n := by
  rw [slice, List.length_take, List.length_drop]
  omega

theorem getElem?_slice {mem : List α} {o n j : Nat} (hj : j < n) : (slice mem o n)[j]? = mem[o + j]? := by
  rw [slice, List.getElem?_take_of_lt hj, List.getElem?_drop]

theorem length_splice {mem bs : List α} {o : Nat} (h : o + bs.length ≤ mem.length) :
    (splice mem o bs).length = mem.length := by
  simp only [splice, List.length_append, List.length_take, List.length_drop]
  omega

theorem getElem?_splice_inside {mem bs : List α} {o j : Nat} (ho : o ≤ mem.length) (hj : j < bs.length) :
    (splice mem o bs)[o + j]? = bs[j]? := by
  have hlen : (mem.take o).length = o := List.length_take_of_le ho
  rw [splice, List.append_assoc, List.getElem?_append_right (by omega), hlen, Nat.add_sub_cancel_left,
    List.getElem?_append_left hj]

theorem getElem?_splice_outside {mem bs : List α} {o p : Nat} (ho : o + bs.length ≤ mem.length)
    (hp : p < o ∨ o + bs.length ≤ p) : (splice mem o bs)[p]? = mem[p]? := by
  have hlen : (mem.take o).length = o := List.length_take_of_le (by omega)
  obtain hp | hp := hp
  · rw [splice, List.append_assoc, List.getElem?_append_left (by omega), List.getElem?_take_of_lt hp]
  · have h1 : (mem.take o ++ bs).length = o + bs.length := by rw [List.length_append, hlen]
    rw [splice, List.getElem?_append_right (by omega), h1, List.getElem?_drop]
    congr 1
    omega

/-! ## positions -/

namespace At

variable {size k p n : Nat}

theorem zero (size : Nat) : At size 0 0 := ⟨Nat.zero_le _, rfl⟩

theorem add (h : At size k p) (hn : p + n ≤ size) : At size (k + n) (p + n) :=
  ⟨hn, (Nat.ModEq.add_right n h.2 : _)⟩

/-- at the end of the ring it starts again -/
theorem wrap (h : At size k size) : At size k 0 := by
  refine ⟨Nat.zero_le _, ?_⟩
  rw [← h.2, Nat.mod_self, Nat.zero_mod]

/-- the cell of the `k`-th item -/
theorem mod_eq (h : At size k p) (hp : p < size) : k % size = p := by
  rw [← h.2, Nat.mod_eq_of_lt hp]

theorem mod_add_eq (h : At size k p) {j : Nat} (hj : p + j < size) : (k + j) % size = p + j := by
  have hjk : At size (k + j) (p + j) := h.add (by omega)
  exact hjk.mod_eq hj

end At

/-- The cells between two positions are the items between them. -/
theorem ahead_eq {size r w rd wr : Nat} (hr : At size r rd) (hw : At size w wr) (hrw : r ≤ w)
    (hlt : w - r < size) (hend : wr = size → 0 < rd) : ahead size rd wr = w - r := by
  obtain ⟨hrd, hmr⟩ := hr
  obtain ⟨hwr, hmw⟩ := hw
  have hsum : (rd + (w - r)) % size = wr % size := by
    have h1 : (rd + (w - r)) % size = (r + (w - r)) % size := Nat.ModEq.add_right _ hmr
    rw [h1, hmw]
    congr 1
    omega
  unfold ahead
  obtain hwr' | hwr' := Nat.lt_or_eq_of_le hwr
  · rw [Nat.mod_eq_of_lt hwr'] at hsum
    by_cases hs : rd + (w - r) < size
    · rw [Nat.mod_eq_of_lt hs] at hsum
      rw [if_pos (by omega)]
      omega
    · rw [Nat.mod_eq_sub_mod (by omega), Nat.mod_eq_of_lt (by omega)] at hsum
      split <;> omega
  · have hpos := hend hwr'
    rw [hwr', Nat.mod_self] at hsum
    by_cases hs : rd + (w - r) < size
    · rw [Nat.mod_eq_of_lt hs] at hsum
      omega
    · rw [Nat.mod_eq_sub_mod (by omega), Nat.mod_eq_of_lt (by omega)] at hsum
      rw [if_pos (by omega)]
      omega

/-! ## the stream in the ring -/

namespace Holds

variable {mem stream : List α} {k : Nat}

/-- what has been read is given up -/
theorem mono (h : Holds mem stream k) {k' : Nat} (hk : k ≤ k') : Holds mem stream k' :=
  fun i hi hlt => h i (by omega) hlt

/-- the newest items do not count yet -/
theorem of_append {bs : List α} (h : Holds mem (stream ++ bs) k) : Holds mem stream k := by
  intro i hi hlt
  rw [h i hi (by rw [List.length_append]; omega), List.getElem?_append_left hlt]

/-- The cells from that of the `i`-th item on hold the items from the `i`-th on. -/
theorem slice (h : Holds mem stream k) {i p n : Nat} (hk : k ≤ i) (hn : i + n ≤ stream.length)
    (hat : At mem.length i p) (hp : p + n ≤ mem.length) :
    slice mem p n = (stream.drop i).take n := by
  apply List.ext_getElem?
  intro j
  by_cases hj : j < n
  · rw [getElem?_slice hj, List.getElem?_take_of_lt hj, List.getElem?_drop,
      ← h (i + j) (by omega) (by omega), hat.mod_add_eq (by omega)]
  · have h1 : (Cells.slice mem p n).length ≤ j := by rw [length_slice hp]; omega
    have h2 : ((stream.drop i).take n).length ≤ j := (List.length_take_le n _).trans (by omega)
    rw [List.getElem?_eq_none h1, List.getElem?_eq_none h2]

/-- A writer puts new items into the cells behind the newest one. -/
theorem splice (h : Holds mem stream k) {p : Nat} {bs : List α} (hat : At mem.length stream.length p)
    (hp : p + bs.length ≤ mem.length) (hroom : stream.length + bs.length ≤ k + mem.length) :
    Holds (splice mem p bs) (stream ++ bs) k := by
  intro i hi hlt
  rw [length_splice hp]
  rw [List.length_append] at hlt
  by_cases hold : i < stream.length
  · -- the cell of an item that is kept lies outside of those written
    have hpos : 0 < mem.length := by omega
    have hout : i % mem.length < p ∨ p + bs.length ≤ i % mem.length := by
      by_contra hc
      have hlast := Nat.mod_lt i hpos
      obtain ⟨j, hj⟩ : ∃ j, i % mem.length = p + j := ⟨i % mem.length - p, by omega⟩
      have h1 : (stream.length + j) % mem.length = p + j := hat.mod_add_eq (by omega)
      have h2 : Nat.ModEq mem.length (stream.length + j) i := by rw [Nat.ModEq, h1, hj]
      have h3 : mem.length ∣ stream.length + j - i := (Nat.modEq_iff_dvd' (by omega)).mp h2.symm
      have h4 := Nat.le_of_dvd (by omega) h3
      omega
    rw [getElem?_splice_outside hp hout, h i hi hold, List.getElem?_append_left hold]
  · obtain ⟨j, hj⟩ : ∃ j, i = stream.length + j := ⟨i - stream.length, by omega⟩
    rw [hj, hat.mod_add_eq (by omega), getElem?_splice_inside (by omega) (by omega),
      List.getElem?_append_right (by omega), Nat.add_sub_cancel_left]

end Holds

end Cells
end Pharoah
