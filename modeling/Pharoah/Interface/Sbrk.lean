import Pharoah.Lib.Lts
import Mathlib.Algebra.GroupWithZero.Nat
import Mathlib.Algebra.Group.Int.Defs

/-!
# `_sbrk`: the heap of the payload

`_sbrk` in `test/interface.c` with the symbols of `test/kernelpayload.ld`.  The break is a static that
is null before the first call.

* `Layout`     where the linker has put `end`;
* `_sbrk`      the code: it adds the increment and returns the break before;
* `Heap`       the static, with the regions granted and not given back, the last one first;
* `InRange`    the request leaves the break between `end` and `__ram_end__`;
* `Served`     what a request must lead to: the break before, or a refusal when it is not `InRange`;
* `Sound`      the break is between `end` and `__ram_end__`, and the regions fill what is below it.

`heap_bounded_iff`: **every call is `Served` and every state `Sound` if and only if every request is
`InRange`**.
-/

namespace Pharoah
namespace Interface

open Lts

/-! ## the linker script -/

def ramOrigin : UInt32 := 0x20005000

def ramLength : UInt32 := 0x0000b000

/-- `__ram_end__` -/
def ram_end : UInt32 := ramOrigin + ramLength - 4

/-- The address of the symbol `end`, behind `.bss` in the region `ram`. -/
structure Layout where
  end_ : UInt32
  inRam : ramOrigin ≤ end_
  fits : end_ ≤ ram_end

/-! ## the code -/

/-- `(void*)-1` -/
def failed : UInt32 := 0xffffffff

/-- `_sbrk(increment)`: the static `heap_end` after the call, and what it returns -/
def _sbrk (l : Layout) (heap_end increment : UInt32) : UInt32 × UInt32 :=
  let heap_end := if heap_end = 0 then l.end_ else heap_end
  let prev_heap_end := heap_end
  (heap_end + increment, prev_heap_end)

/-- the increment as a two's-complement number -/
def signed (increment : UInt32) : Int :=
  if increment.toNat < 2 ^ 31 then increment.toNat else increment.toNat - 2 ^ 32

/-! ## regions -/

/-- the addresses from the first to before the second -/
abbrev Region := Nat × Nat

/-- The regions from `lo` to `top`, the highest first, one on the other. -/
def Stacked (lo : Nat) : List Region → Nat → Prop
  | [], top => top = lo
  | r :: rs, top => r.2 = top ∧ r.1 ≤ r.2 ∧ Stacked lo rs r.1

def Apart (r q : Region) : Prop := r.2 ≤ q.1 ∨ q.2 ≤ r.1

/-- what is left when all from `top` on is given back -/
def giveBack (top : Nat) : List Region → List Region
  | [] => []
  | r :: rs => if r.1 < top then (r.1, top) :: rs else giveBack top rs

/-- the regions after a request with this answer: an increment with the sign bit gives back -/
def grant (returned increment : UInt32) (rs : List Region) : List Region :=
  if returned = failed then rs
  else if increment.toNat < 2 ^ 31 then (returned.toNat, returned.toNat + increment.toNat) :: rs
  else giveBack (returned.toNat + increment.toNat - 2 ^ 32) rs

/-- stacked regions lie below their top -/
theorem Stacked.below {lo : Nat} {rs : List Region} {top : Nat} (h : Stacked lo rs top) :
    ∀ r ∈ rs, r.2 ≤ top := by
  induction rs generalizing top with
  | nil => exact fun r hr => by cases hr
  | cons q rs ih =>
    obtain ⟨htop, hle, hrest⟩ := h
    intro r hr
    obtain rfl | hr := List.mem_cons.mp hr
    · omega
    · have hrq := ih hrest r hr
      omega

theorem Stacked.apart {lo : Nat} {rs : List Region} {top : Nat} (h : Stacked lo rs top) :
    rs.Pairwise Apart := by
  induction rs generalizing top with
  | nil => exact List.Pairwise.nil
  | cons r rs ih =>
    obtain ⟨-, -, hrest⟩ := h
    exact List.pairwise_cons.mpr ⟨fun q hq => Or.inr (hrest.below q hq), ih hrest⟩

theorem Stacked.giveBack {lo : Nat} {rs : List Region} {top top' : Nat} (h : Stacked lo rs top)
    (hlo : lo ≤ top') (htop : top' ≤ top) : Stacked lo (giveBack top' rs) top' := by
  induction rs generalizing top with
  | nil =>
    have he : top = lo := h
    show top' = lo
    omega
  | cons r rs ih =>
    obtain ⟨-, -, hrest⟩ := h
    show Stacked lo (if r.1 < top' then (r.1, top') :: rs else _) top'
    split
    · next hlt => exact ⟨rfl, Nat.le_of_lt hlt, hrest⟩
    · next hge => exact ih hrest (by omega)

/-- the regions after a request that was granted -/
theorem Stacked.grant {lo : Nat} {rs : List Region} {top : UInt32} (h : Stacked lo rs top.toNat)
    (hne : top ≠ failed) {increment : UInt32} {top' : Nat} (hlo : lo ≤ top')
    (htop : (top' : Int) = top.toNat + signed increment) :
    Stacked lo (Interface.grant top increment rs) top' := by
  unfold Interface.grant
  rw [if_neg hne]
  unfold signed at htop
  split
  · next hpos =>
    rw [if_pos hpos] at htop
    refine ⟨?_, Nat.le_add_right .., h⟩
    show top.toNat + increment.toNat = top'
    omega
  · next hneg =>
    rw [if_neg hneg] at htop
    have hi := increment.toNat_lt
    have he : top.toNat + increment.toNat - 2 ^ 32 = top' := by omega
    rw [he]
    exact h.giveBack hlo (by omega)

/-! ## requests -/

/-- the static and the regions -/
structure Heap where
  heap_end : UInt32 := 0
  regions : List Region := []

namespace Heap
variable (l : Layout)

/-- the break: `end` before the first call -/
def brk (h : Heap) : UInt32 := if h.heap_end = 0 then l.end_ else h.heap_end

/-- one call -/
def step (h : Heap) (increment : UInt32) : Option Heap :=
  let r := _sbrk l h.heap_end increment
  some { heap_end := r.1, regions := grant r.2 increment h.regions }

/-- The request leaves the break between `end` and `__ram_end__`. -/
def InRange (h : Heap) (increment : UInt32) : Prop :=
  (l.end_.toNat : Int) ≤ (h.brk l).toNat + signed increment ∧
    (h.brk l).toNat + signed increment ≤ ram_end.toNat

/-- A request is answered with the break before and moves it, or is refused and does not. -/
structure Served (h : Heap) (increment : UInt32) : Prop where
  granted : h.InRange l increment → (_sbrk l h.heap_end increment).2 = h.brk l ∧
    ∀ h', h.step l increment = some h' → ((h'.brk l).toNat : Int) = (h.brk l).toNat + signed increment
  refused : ¬ h.InRange l increment → (_sbrk l h.heap_end increment).2 = failed ∧
    ∀ h', h.step l increment = some h' → h'.brk l = h.brk l

/-- The break lies in its bounds, and what was granted and not given back fills what is below it, without
overlaps. -/
structure Sound (h : Heap) : Prop where
  lower : l.end_ ≤ h.brk l
  upper : h.brk l ≤ ram_end
  contiguous : Stacked l.end_.toNat h.regions (h.brk l).toNat
  apart : h.regions.Pairwise Apart

section
variable {l} {h h' : Heap} {increment : UInt32}

theorem sbrk_returns : (_sbrk l h.heap_end increment).2 = h.brk l := rfl

/-- `end` is above 0, and `__ram_end__` below the answer that says no. -/
theorem layout_bounds (l : Layout) : 0x20005000 ≤ l.end_.toNat ∧ l.end_.toNat ≤ 0x2000fffc ∧
    ram_end.toNat = 0x2000fffc := by
  have hend : ram_end.toNat = 0x2000fffc := by decide
  have horigin : ramOrigin.toNat = 0x20005000 := by decide
  have h1 := UInt32.le_iff_toNat_le.mp l.inRam
  have h2 := UInt32.le_iff_toNat_le.mp l.fits
  omega

/-- the break after a request that stays in its bounds -/
theorem brk_step (hin : h.InRange l increment) (hs : h.step l increment = some h') :
    ((h'.brk l).toNat : Int) = (h.brk l).toNat + signed increment := by
  obtain ⟨hlo, -, hram⟩ := layout_bounds l
  obtain ⟨hge, hle⟩ := hin
  cases hs
  have hsum : (h.brk l + increment).toNat = ((h.brk l).toNat + increment.toNat) % 2 ^ 32 :=
    UInt32.toNat_add ..
  have hb := (h.brk l).toNat_lt
  have hi := increment.toNat_lt
  have heq : ((h.brk l + increment).toNat : Int) = (h.brk l).toNat + signed increment := by
    unfold signed at hge hle ⊢
    split at hge <;> omega
  have hne : h.brk l + increment ≠ 0 := by
    intro hzero
    rw [hzero] at heq
    have hz : ((0 : UInt32).toNat : Int) = 0 := rfl
    omega
  show ((if h.brk l + increment = 0 then l.end_ else h.brk l + increment).toNat : Int) = _
  rw [if_neg hne]
  exact heq

theorem Sound.init : Sound l {} := by
  have hb : brk l {} = l.end_ := rfl
  refine ⟨?_, ?_, ?_, List.Pairwise.nil⟩
  · rw [hb]
    exact UInt32.le_refl _
  · rw [hb]
    exact l.fits
  · rw [hb]
    rfl

/-- **One request** that stays in its bounds keeps the heap sound. -/
theorem Sound.step (hsound : Sound l h) (hin : h.InRange l increment)
    (hs : h.step l increment = some h') : Sound l h' := by
  have hbrk := brk_step hin hs
  obtain ⟨hlo, -, hram⟩ := layout_bounds l
  have hup := UInt32.le_iff_toNat_le.mp hsound.upper
  obtain ⟨hge, hle⟩ := hin
  have hnofail : h.brk l ≠ failed := by
    intro he
    rw [he] at hup
    have hf : failed.toNat = 0xffffffff := rfl
    omega
  have hstack : Stacked l.end_.toNat h'.regions (h'.brk l).toNat := by
    have hold := hsound.contiguous
    have hregions : h'.regions = grant (h.brk l) increment h.regions := by
      cases hs
      rfl
    rw [hregions]
    exact hold.grant hnofail (by omega) hbrk
  refine ⟨?_, ?_, hstack, hstack.apart⟩
  · exact UInt32.le_iff_toNat_le.mpr (by omega)
  · exact UInt32.le_iff_toNat_le.mpr (by omega)

/-- The code serves exactly the requests that stay in their bounds: it never refuses. -/
theorem served_iff (hsound : Sound l h) : h.Served l increment ↔ h.InRange l increment := by
  constructor
  · intro hserved
    by_contra hno
    have hfail := (hserved.refused hno).1
    have hup := UInt32.le_iff_toNat_le.mp hsound.upper
    obtain ⟨-, -, hram⟩ := layout_bounds l
    rw [sbrk_returns] at hfail
    rw [hfail] at hup
    have hf : failed.toNat = 0xffffffff := rfl
    omega
  · intro hin
    exact ⟨fun _ => ⟨rfl, fun h' hs => brk_step hin hs⟩, fun hno => absurd hin hno⟩

end

/-! ## every run -/

/-- **Heap growth**: in a run of requests from the break at `end` on, each request is served, the break
stays between `end` and `__ram_end__` and the regions do not overlap, if and only if each request leaves
the break between `end` and `__ram_end__`. -/
theorem heap_bounded_iff (increments : List UInt32) :
    Throughout (step l) (Sound l) {} increments ∧ Along (step l) (Served l) {} increments ↔
      Along (step l) (InRange l) {} increments := by
  constructor
  · intro h
    obtain ⟨hsound, hserved⟩ := h
    exact hsound.along (fun h increment hs hv => (served_iff hs).mp hv) hserved
  · intro hin
    have hstep : ∀ h increment h', Sound l h → h.InRange l increment → h.step l increment = some h' →
        Sound l h' := fun _ _ _ hs hi he => hs.step hi he
    exact ⟨hin.throughout hstep Sound.init,
      hin.of_invariant hstep (fun h increment hs hi => (served_iff hs).mpr hi) Sound.init⟩

/-- A request beyond `__ram_end__` is granted. -/
theorem sbrk_overruns : ¬ ∀ (l : Layout) (increments : List UInt32),
    Throughout (step l) (Sound l) {} increments ∧ Along (step l) (Served l) {} increments := by
  intro h
  let l : Layout := ⟨0x20006000, by decide, by decide⟩
  have hup := ((h l [0x10000]).1 [0x10000] _ (List.prefix_refl _) rfl).upper
  exact absurd hup (by decide)

end Heap
end Interface
end Pharoah
