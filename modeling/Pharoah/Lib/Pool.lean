import Mathlib.Algebra.GroupWithZero.Nat
import Mathlib.Data.List.Pairwise
import Mathlib.Algebra.Order.BigOperators.Group.List

/-!
# Pools of free chunks

A pool is a list of chunks of addresses, sorted, in which no two are adjacent.

* `Apart c d`          the two have no address in common;
* `Sorted cs`          every chunk ends below the next one, with a gap;
* `take n least cs`    first fit: the end of the first chunk of `n` or more, or all of it if less than
                       `least` would be left;
* `put x cs`           a chunk is put back, and becomes one with its neighbours;
* `take_cases`         where the chunk comes from;
* `take_all`, `put_all`         what is handed on when a chunk is cut, or two are joined, the pool keeps;
* `Sorted.take`, `Sorted.put`   both keep the pool sorted and without neighbours;
* `apart_take`, `apart_put`     what was apart from all stays so;
* `total_take`, `total_put`     no address is lost or won;
* `Sorted.full`        a pool that fills an interval is one chunk.
-/

namespace Pharoah
namespace Pool

/-- the addresses from `addr` to before `stop` -/
structure Chunk where
  addr : Nat
  size : Nat
deriving DecidableEq, Repr

def Chunk.stop (c : Chunk) : Nat := c.addr + c.size

def Apart (c d : Chunk) : Prop := c.stop ≤ d.addr ∨ d.stop ≤ c.addr

def Sorted (cs : List Chunk) : Prop := cs.Pairwise fun c d => c.stop < d.addr

def total (cs : List Chunk) : Nat := (cs.map Chunk.size).sum

def take (n least : Nat) : List Chunk → Option (Chunk × List Chunk)
  | [] => none
  | c :: cs =>
    if n ≤ c.size then
      if least ≤ c.size - n then some (⟨c.addr + (c.size - n), n⟩, ⟨c.addr, c.size - n⟩ :: cs)
      else some (c, cs)
    else (take n least cs).map fun r => (r.1, c :: r.2)

/-- `x` before `cs`, as one with the first if they are adjacent -/
def join (x : Chunk) : List Chunk → List Chunk
  | [] => [x]
  | q :: cs => if x.stop = q.addr then ⟨x.addr, x.size + q.size⟩ :: cs else x :: q :: cs

/-- `x` behind `p` and before `cs` -/
def attach (p x : Chunk) (cs : List Chunk) : List Chunk :=
  if p.stop = x.addr then join ⟨p.addr, p.size + x.size⟩ cs else p :: join x cs

def put (x : Chunk) : List Chunk → List Chunk
  | [] => [x]
  | c :: cs =>
    if x.addr < c.addr then join x (c :: cs)
    else if ∀ d ∈ cs.head?, x.addr < d.addr then attach c x cs
    else c :: put x cs

variable {n least : Nat} {x c d : Chunk} {cs cs' : List Chunk}

theorem Apart.symm (h : Apart c d) : Apart d c := Or.symm h

instance : Std.Symm Apart := ⟨fun _ _ h => h.symm⟩

theorem apart_iff : Apart c d ↔ c.addr + c.size ≤ d.addr ∨ d.addr + d.size ≤ c.addr := Iff.rfl

theorem total_cons (c : Chunk) (cs : List Chunk) : total (c :: cs) = c.size + total cs := by
  unfold total
  rw [List.map_cons, List.sum_cons]

theorem total_append (cs ds : List Chunk) : total (cs ++ ds) = total cs + total ds := by
  unfold total
  rw [List.map_append, List.sum_append]

theorem sorted_cons : Sorted (c :: cs) ↔ (∀ d ∈ cs, c.stop < d.addr) ∧ Sorted cs := List.pairwise_cons

/-! ## taking -/

/-- No chunk is big enough; or the first that is gives its end, or all of it. -/
theorem take_cases (n least : Nat) (cs : List Chunk) :
    ((∀ c ∈ cs, c.size < n) ∧ take n least cs = none) ∨
      ∃ pre c post, cs = pre ++ c :: post ∧ (∀ d ∈ pre, d.size < n) ∧ n ≤ c.size ∧
        ((least ≤ c.size - n ∧ take n least cs =
            some (⟨c.addr + (c.size - n), n⟩, pre ++ ⟨c.addr, c.size - n⟩ :: post)) ∨
          (c.size - n < least ∧ take n least cs = some (c, pre ++ post))) := by
  induction cs with
  | nil => exact Or.inl ⟨fun c hc => (by cases hc), rfl⟩
  | cons c cs ih =>
    unfold take
    by_cases hn : n ≤ c.size
    · rw [if_pos hn]
      refine Or.inr ⟨[], c, cs, rfl, fun d hd => (by cases hd), hn, ?_⟩
      by_cases hleast : least ≤ c.size - n
      · rw [if_pos hleast]
        exact Or.inl ⟨hleast, rfl⟩
      · rw [if_neg hleast]
        exact Or.inr ⟨by omega, rfl⟩
    · rw [if_neg hn]
      obtain ⟨hall, hnone⟩ | ⟨pre, e, post, hcs, hpre, he, hcase⟩ := ih
      · refine Or.inl ⟨fun d hd => ?_, by rw [hnone]; rfl⟩
        obtain rfl | hd := List.mem_cons.mp hd
        · omega
        · exact hall d hd
      · refine Or.inr ⟨c :: pre, e, post, by rw [hcs]; rfl, fun d hd => ?_, he, ?_⟩
        · obtain rfl | hd := List.mem_cons.mp hd
          · omega
          · exact hpre d hd
        · obtain ⟨hleast, htake⟩ | ⟨hleast, htake⟩ := hcase
          · exact Or.inl ⟨hleast, by rw [htake]; rfl⟩
          · exact Or.inr ⟨hleast, by rw [htake]; rfl⟩

theorem sorted_append {pre post : List Chunk} :
    Sorted (pre ++ post) ↔ Sorted pre ∧ Sorted post ∧ ∀ c ∈ pre, ∀ d ∈ post, c.stop < d.addr :=
  List.pairwise_append

theorem Sorted.take (hs : Sorted cs) (h : take n least cs = some (x, cs')) : Sorted cs' := by
  obtain ⟨-, hnone⟩ | ⟨pre, c, post, rfl, -, hn, ⟨-, htake⟩ | ⟨-, htake⟩⟩ := take_cases n least cs
  · rw [hnone] at h
    cases h
  · rw [htake] at h
    cases h
    obtain ⟨hpre, hpost, hcross⟩ := sorted_append.mp hs
    obtain ⟨hc, hpost⟩ := sorted_cons.mp hpost
    refine sorted_append.mpr ⟨hpre, sorted_cons.mpr ⟨fun d hd => ?_, hpost⟩, fun d hd e he => ?_⟩
    · have hlt := hc d hd
      unfold Chunk.stop at hlt ⊢
      dsimp only
      omega
    · obtain rfl | he := List.mem_cons.mp he
      · exact hcross d hd c List.mem_cons_self
      · exact hcross d hd e (List.mem_cons_of_mem _ he)
  · rw [htake] at h
    cases h
    exact hs.sublist ((List.sublist_cons_self x post).append_left pre)

theorem total_take (h : take n least cs = some (x, cs')) : total cs' + x.size = total cs := by
  obtain ⟨-, hnone⟩ | ⟨pre, c, post, rfl, -, hn, ⟨-, htake⟩ | ⟨-, htake⟩⟩ := take_cases n least cs
  · rw [hnone] at h
    cases h
  · rw [htake] at h
    cases h
    simp only [total_append, total_cons]
    omega
  · rw [htake] at h
    cases h
    simp only [total_append, total_cons]
    omega

/-- What is taken is as big as was asked. -/
theorem take_size (h : take n least cs = some (x, cs')) : n ≤ x.size := by
  obtain ⟨-, hnone⟩ | ⟨pre, c, post, rfl, -, hn, ⟨-, htake⟩ | ⟨-, htake⟩⟩ := take_cases n least cs
  · rw [hnone] at h
    cases h
  · rw [htake] at h
    cases h
    exact Nat.le_refl n
  · rw [htake] at h
    cases h
    exact hn

/-- What a chunk hands on to its two parts, what is taken and what is left have if the pool has it. -/
theorem take_all {P : Chunk → Prop} (hcut : ∀ c, P c → n + least ≤ c.size →
      P ⟨c.addr, c.size - n⟩ ∧ P ⟨c.addr + (c.size - n), n⟩)
    (h : take n least cs = some (x, cs')) (hcs : ∀ c ∈ cs, P c) : P x ∧ ∀ c ∈ cs', P c := by
  obtain ⟨-, hnone⟩ | ⟨pre, c, post, rfl, -, hn, ⟨hleast, htake⟩ | ⟨-, htake⟩⟩ := take_cases n least cs
  · rw [hnone] at h
    cases h
  · rw [htake] at h
    cases h
    obtain ⟨hpre, hrest⟩ := List.forall_mem_append.mp hcs
    obtain ⟨hc, hpost⟩ := List.forall_mem_cons.mp hrest
    obtain ⟨hleft, hright⟩ := hcut c hc (by omega)
    exact ⟨hright, List.forall_mem_append.mpr ⟨hpre, List.forall_mem_cons.mpr ⟨hleft, hpost⟩⟩⟩
  · rw [htake] at h
    cases h
    obtain ⟨hpre, hrest⟩ := List.forall_mem_append.mp hcs
    obtain ⟨hx, hpost⟩ := List.forall_mem_cons.mp hrest
    exact ⟨hx, List.forall_mem_append.mpr ⟨hpre, hpost⟩⟩

/-- What was apart from the pool is apart from both. -/
theorem apart_take (h : take n least cs = some (x, cs')) (hd : ∀ c ∈ cs, Apart d c) :
    Apart d x ∧ ∀ c ∈ cs', Apart d c := by
  refine take_all (fun c hc hn => ?_) h hd
  have hc' := apart_iff.mp hc
  exact ⟨apart_iff.mpr (by dsimp only; omega), apart_iff.mpr (by dsimp only; omega)⟩

/-- What is taken is apart from what is left. -/
theorem take_apart (hs : Sorted cs) (h : take n least cs = some (x, cs')) : ∀ c ∈ cs', Apart x c := by
  obtain ⟨-, hnone⟩ | ⟨pre, c, post, rfl, -, hn, hcase⟩ := take_cases n least cs
  · rw [hnone] at h
    cases h
  · obtain ⟨hpre, hpost, hcross⟩ := sorted_append.mp hs
    obtain ⟨hc, hpost⟩ := sorted_cons.mp hpost
    have hbefore : ∀ d ∈ pre, d.stop < c.addr := fun d hd => hcross d hd c List.mem_cons_self
    intro e he
    obtain ⟨-, htake⟩ | ⟨-, htake⟩ := hcase
    · rw [htake] at h
      cases h
      obtain he | he := List.mem_append.mp he
      · have hlt := hbefore e he
        unfold Chunk.stop at hlt
        exact apart_iff.mpr (by dsimp only; omega)
      · obtain rfl | he := List.mem_cons.mp he
        · exact apart_iff.mpr (by dsimp only; omega)
        · have hlt := hc e he
          unfold Chunk.stop at hlt
          exact apart_iff.mpr (by dsimp only; omega)
    · rw [htake] at h
      cases h
      obtain he | he := List.mem_append.mp he
      · exact Or.inr (Nat.le_of_lt (hbefore e he))
      · exact Or.inl (Nat.le_of_lt (hc e he))

/-! ## putting back -/

theorem join_cons (x q : Chunk) (cs : List Chunk) :
    join x (q :: cs) = if x.stop = q.addr then ⟨x.addr, x.size + q.size⟩ :: cs else x :: q :: cs := rfl

theorem put_cons (x c : Chunk) (cs : List Chunk) :
    put x (c :: cs) = if x.addr < c.addr then join x (c :: cs)
      else if ∀ d ∈ cs.head?, x.addr < d.addr then attach c x cs else c :: put x cs := rfl

theorem total_join (x : Chunk) (cs : List Chunk) : total (join x cs) = x.size + total cs := by
  cases cs with
  | nil => exact total_cons x []
  | cons q cs =>
    rw [join_cons]
    split <;> simp only [total_cons]
    omega

theorem total_attach (p x : Chunk) (cs : List Chunk) : total (attach p x cs) = p.size + x.size + total cs := by
  unfold attach
  split
  · exact total_join _ _
  · rw [total_cons, total_join]
    omega

theorem total_put (x : Chunk) (cs : List Chunk) : total (put x cs) = x.size + total cs := by
  induction cs with
  | nil => exact total_cons x []
  | cons c cs ih =>
    rw [put_cons]
    split
    · exact total_join x _
    · split
      · rw [total_attach, total_cons]
        omega
      · rw [total_cons, ih, total_cons]
        omega

section
variable {P : Chunk → Prop} (hmerge : ∀ c d, P c → P d → c.stop = d.addr → P ⟨c.addr, c.size + d.size⟩)
include hmerge

/-- What two adjacent chunks hand on to one, a pool keeps when a chunk is put back. -/
theorem join_all (hx : P x) (hcs : ∀ c ∈ cs, P c) : ∀ c ∈ join x cs, P c := by
  cases cs with
  | nil =>
    intro c hc
    obtain rfl := List.mem_singleton.mp hc
    exact hx
  | cons q cs =>
    obtain ⟨hq, hrest⟩ := List.forall_mem_cons.mp hcs
    rw [join_cons]
    split
    · next hadj => exact List.forall_mem_cons.mpr ⟨hmerge x q hx hq hadj, hrest⟩
    · exact List.forall_mem_cons.mpr ⟨hx, hcs⟩

theorem attach_all (hd : P d) (hx : P x) (hcs : ∀ c ∈ cs, P c) : ∀ c ∈ attach d x cs, P c := by
  unfold attach
  split
  · next hadj => exact join_all hmerge (hmerge d x hd hx hadj) hcs
  · exact List.forall_mem_cons.mpr ⟨hd, join_all hmerge hx hcs⟩

theorem put_all (hx : P x) (hcs : ∀ c ∈ cs, P c) : ∀ c ∈ put x cs, P c := by
  induction cs with
  | nil => exact join_all hmerge hx hcs
  | cons c cs ih =>
    obtain ⟨hc, hrest⟩ := List.forall_mem_cons.mp hcs
    rw [put_cons]
    split
    · exact join_all hmerge hx hcs
    · split
      · exact attach_all hmerge hc hx hrest
      · exact List.forall_mem_cons.mpr ⟨hc, ih hrest⟩

end

/-- the last chunk that does not begin behind `a` -/
theorem exists_last {a : Nat} (hc : c.addr ≤ a) (cs : List Chunk) :
    ∃ pre d post, c :: cs = pre ++ d :: post ∧ (∀ e ∈ pre, e.addr ≤ a) ∧ d.addr ≤ a ∧ ∀ e ∈ post.head?, a < e.addr := by
  induction cs generalizing c with
  | nil => exact ⟨[], c, [], rfl, fun e he => (by cases he), hc, fun e he => (by cases he)⟩
  | cons e cs ih =>
    by_cases he : e.addr ≤ a
    · obtain ⟨pre, d, post, hcs, hpre, hd, hpost⟩ := ih he
      refine ⟨c :: pre, d, post, by rw [hcs]; rfl, List.forall_mem_cons.mpr ⟨hc, hpre⟩, hd, hpost⟩
    · refine ⟨[], c, e :: cs, rfl, fun f hf => (by cases hf), hc, fun f hf => ?_⟩
      obtain rfl : e = f := by simpa using hf
      omega

/-- A chunk is put behind the last one that does not begin behind it. -/
theorem put_between {pre post : List Chunk} (hpre : ∀ e ∈ pre, e.addr ≤ x.addr) (hd : d.addr ≤ x.addr)
    (hpost : ∀ e ∈ post.head?, x.addr < e.addr) : put x (pre ++ d :: post) = pre ++ attach d x post := by
  induction pre with
  | nil =>
    show put x (d :: post) = _
    rw [put_cons, if_neg (Nat.not_lt_of_le hd), if_pos hpost]
    rfl
  | cons e pre ih =>
    obtain ⟨he, hrest⟩ := List.forall_mem_cons.mp hpre
    show put x (e :: (pre ++ d :: post)) = _
    have hhead : ¬ ∀ f ∈ (pre ++ d :: post).head?, x.addr < f.addr := fun hall => by
      cases pre with
      | nil => exact absurd (hall d rfl) (Nat.not_lt_of_le hd)
      | cons f pre => exact absurd (hall f rfl) (Nat.not_lt_of_le (hrest f List.mem_cons_self))
    rw [put_cons, if_neg (Nat.not_lt_of_le he), if_neg hhead, ih hrest]
    rfl

/-- What is apart from a chunk and from the pool is apart from the pool with the chunk. -/
theorem apart_put (hpos : 0 < d.size) (hx : Apart d x) (hcs : ∀ c ∈ cs, Apart d c) : ∀ c ∈ put x cs, Apart d c := by
  refine put_all (fun c e hc he hadj => ?_) hx hcs
  have hc' := apart_iff.mp hc
  have he' := apart_iff.mp he
  unfold Chunk.stop at hadj
  exact apart_iff.mpr (by dsimp only; omega)

theorem Sorted.join (hs : Sorted cs) (hx : ∀ d ∈ cs, x.stop ≤ d.addr) : Sorted (join x cs) := by
  cases cs with
  | nil => exact List.pairwise_singleton _ _
  | cons q cs =>
    obtain ⟨hq, hrest⟩ := sorted_cons.mp hs
    have hxq := hx q List.mem_cons_self
    rw [join_cons]
    split
    · next hadj =>
      refine sorted_cons.mpr ⟨fun d hd => ?_, hrest⟩
      have hlt := hq d hd
      unfold Chunk.stop at hadj hlt ⊢
      dsimp only
      omega
    · next hgap =>
      refine sorted_cons.mpr ⟨fun d hd => ?_, hs⟩
      obtain rfl | hd := List.mem_cons.mp hd
      · omega
      · have hlt := hq d hd
        have hle : q.addr ≤ q.stop := Nat.le_add_right _ _
        omega

theorem Sorted.attach (hs : Sorted (c :: cs)) (hc : c.stop ≤ x.addr) (hx : ∀ d ∈ cs, x.stop ≤ d.addr) :
    Sorted (attach c x cs) := by
  obtain ⟨hhead, hrest⟩ := sorted_cons.mp hs
  unfold Pool.attach
  split
  · next hadj =>
    refine hrest.join fun d hd => ?_
    have hle := hx d hd
    unfold Chunk.stop at hadj hle ⊢
    dsimp only
    omega
  · next hgap =>
    refine sorted_cons.mpr ⟨?_, hrest.join hx⟩
    exact join_all (fun _ _ h _ _ => h) (by show c.stop < x.addr; omega) hhead

/-- A chunk that is apart from the pool is put into it. -/
theorem Sorted.put (hs : Sorted cs) (hpos : 0 < x.size) (hsize : ∀ c ∈ cs, 0 < c.size) (hx : ∀ c ∈ cs, Apart x c) :
    Sorted (put x cs) := by
  induction cs with
  | nil => exact List.pairwise_singleton _ _
  | cons c cs ih =>
    obtain ⟨hhead, hrest⟩ := sorted_cons.mp hs
    obtain ⟨hxc, hxrest⟩ := List.forall_mem_cons.mp hx
    obtain ⟨hcpos, hrestpos⟩ := List.forall_mem_cons.mp hsize
    have hxc' := apart_iff.mp hxc
    rw [put_cons]
    split
    · next hlt =>
      have hstop : x.stop ≤ c.addr := by
        unfold Chunk.stop
        omega
      refine hs.join (List.forall_mem_cons.mpr ⟨hstop, fun d hd => ?_⟩)
      have hd' := hhead d hd
      unfold Chunk.stop at hd' hstop ⊢
      omega
    · next hge =>
      have hstop : c.stop ≤ x.addr := by
        unfold Chunk.stop
        omega
      split
      · next hnext =>
        refine hs.attach hstop fun d hd => ?_
        -- `x` begins before the head of the rest, and so before each of it
        have hxd := apart_iff.mp (hxrest d hd)
        have hdpos := hrestpos d hd
        cases cs with
        | nil => cases hd
        | cons e es =>
          have he := hnext e rfl
          obtain ⟨hehead, -⟩ := sorted_cons.mp hrest
          have hle : e.addr ≤ d.addr := by
            obtain rfl | hd := List.mem_cons.mp hd
            · exact Nat.le_refl _
            · have hlt := hehead d hd
              unfold Chunk.stop at hlt
              omega
          unfold Chunk.stop
          omega
      · next hnext =>
        refine sorted_cons.mpr ⟨?_, ih hrest hrestpos hxrest⟩
        refine put_all (fun _ _ h _ _ => h) ?_ hhead
        cases cs with
        | nil => exact absurd (fun d hd => by cases hd) hnext
        | cons e es =>
          have he : ¬ x.addr < e.addr := fun hlt => hnext fun d hd => by
            obtain rfl : e = d := by simpa using hd
            exact hlt
          have hce := hhead e List.mem_cons_self
          omega

/-! ## a pool that fills an interval -/

/-- Between two chunks there is a gap. -/
theorem Sorted.fits (hs : Sorted cs) {lo hi : Nat} (hin : ∀ c ∈ cs, lo ≤ c.addr ∧ c.stop ≤ hi) (hle : lo ≤ hi) :
    lo + total cs + (cs.length - 1) ≤ hi := by
  induction cs generalizing lo with
  | nil => exact hle
  | cons c cs ih =>
    obtain ⟨hc, hrest⟩ := List.forall_mem_cons.mp hin
    obtain ⟨hhead, hsorted⟩ := sorted_cons.mp hs
    unfold Chunk.stop at hc
    rw [total_cons, List.length_cons]
    cases cs with
    | nil =>
      show lo + (c.size + 0) + 0 ≤ hi
      omega
    | cons d ds =>
      have hd := hhead d List.mem_cons_self
      have hd' := (hrest d List.mem_cons_self).2
      unfold Chunk.stop at hd hd'
      have hgap := @ih hsorted (c.stop + 1) (fun e he => ⟨hhead e he, (hrest e he).2⟩) (by unfold Chunk.stop; omega)
      unfold Chunk.stop at hgap
      rw [List.length_cons] at hgap ⊢
      omega

/-- A pool that fills an interval is one chunk, and none if it is empty. -/
theorem Sorted.full (hs : Sorted cs) {lo hi : Nat} (hin : ∀ c ∈ cs, lo ≤ c.addr ∧ c.stop ≤ hi)
    (hpos : ∀ c ∈ cs, 0 < c.size) (htotal : lo + total cs = hi) : cs = if lo = hi then [] else [⟨lo, hi - lo⟩] := by
  have hfits := hs.fits hin (by omega)
  match cs, hin, hpos, htotal, hfits with
  | [], _, _, htotal, _ =>
    have hz : lo = hi := htotal
    rw [if_pos hz]
  | [c], hin, hpos, htotal, _ =>
    have hone : total [c] = c.size := Nat.add_zero _
    have hc := hin c List.mem_cons_self
    have hcpos := hpos c List.mem_cons_self
    unfold Chunk.stop at hc
    rw [hone] at htotal
    rw [if_neg (by omega)]
    congr 1
    obtain ⟨addr, size⟩ := c
    dsimp only at hc htotal
    congr 1 <;> omega
  | c :: d :: cs, _, _, htotal, hfits =>
    rw [List.length_cons, List.length_cons] at hfits
    omega

end Pool
end Pharoah
