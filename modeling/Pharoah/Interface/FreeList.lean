import Pharoah.Interface.Malloc
import Pharoah.Lib.Pool

/-!
# The free list in memory

The chunks of the free list, as the code finds them in memory, are a pool; what the code does with them is
what `take` and `put` do with the pool.

* `Linked mem p cs`     from `p` on the chunks `cs` are linked in memory;
* `linked_cut`          the list with another chunk, and another end, from some place on;
* `find_some`, `walk_eq`, `freeSize_eq`   the loops;
* `Turned m m' cs cs'`  the list `cs` has become `cs'`, and nothing apart from its chunks has changed;
* `find_take`           **taking a chunk out of the list is `take`**;
* `free_put`            **freeing a chunk is `put`**.
-/

namespace Pharoah
namespace Interface

open Bytes Pool

/-- From `p` on the chunks are linked in memory. -/
def Linked (mem : Mem) : Nat → List Chunk → Prop
  | p, [] => p = 0
  | p, c :: cs => p = c.addr ∧ 0 < c.addr ∧ load mem c.addr = c.size ∧ Linked mem (load mem (c.addr + 4)) cs

/-- where a list begins, or NULL -/
def headOf (cs : List Chunk) : Nat := (cs.head?.map Chunk.addr).getD 0

/-- A chunk has room for its size and the link, and its end is below 2^31. -/
def Roomy (c : Chunk) : Prop := 12 ≤ c.size ∧ c.stop < 2 ^ 31

section
variable {mem mem' : Mem} {p n x : Nat} {pre post cs : List Chunk} {c d : Chunk}

theorem Linked.head (h : Linked mem p cs) : p = headOf cs := by
  cases cs with
  | nil => exact h
  | cons c cs => exact h.1

theorem linked_same (hsame : ∀ c ∈ cs, Same mem mem' c.addr (c.addr + 8)) (h : Linked mem p cs) :
    Linked mem' p cs := by
  induction cs generalizing p with
  | nil => exact h
  | cons c cs ih =>
    obtain ⟨hc, hrest⟩ := List.forall_mem_cons.mp hsame
    obtain ⟨hp, hpos, hsize, hnext⟩ := h
    have hword : load mem' c.addr = load mem c.addr := (hc.sub (Nat.le_refl _) (by omega)).load
    have hlink : load mem' (c.addr + 4) = load mem (c.addr + 4) := (hc.sub (by omega) (by omega)).load
    refine ⟨hp, hpos, hword.trans hsize, ?_⟩
    rw [hlink]
    exact ih hrest hnext

/-- what is linked from a chunk on -/
theorem Linked.from (h : Linked mem p (pre ++ c :: post)) :
    0 < c.addr ∧ load mem c.addr = c.size ∧ Linked mem (load mem (c.addr + 4)) post := by
  induction pre generalizing p with
  | nil => exact h.2
  | cons d pre ih => exact ih h.2.2.2

/-- Up to `c` the memory is the same; from there on it holds another size, and links another list. -/
theorem linked_cut (h : Linked mem p (pre ++ c :: post)) (hsame : ∀ d ∈ pre, Same mem mem' d.addr (d.addr + 8))
    (hsize : load mem' c.addr = n) (hnext : Linked mem' (load mem' (c.addr + 4)) cs) :
    Linked mem' p (pre ++ ⟨c.addr, n⟩ :: cs) := by
  induction pre generalizing p with
  | nil => exact ⟨h.1, h.2.1, hsize, hnext⟩
  | cons d pre ih =>
    obtain ⟨hd, hrest⟩ := List.forall_mem_cons.mp hsame
    obtain ⟨hp, hpos, hdsize, hdnext⟩ := h
    have hword : load mem' d.addr = load mem d.addr := (hd.sub (Nat.le_refl _) (by omega)).load
    have hlink : load mem' (d.addr + 4) = load mem (d.addr + 4) := (hd.sub (by omega) (by omega)).load
    refine ⟨hp, hpos, hword.trans hdsize, ?_⟩
    rw [hlink]
    exact ih hdnext hrest

/-! ## the loops -/

theorem rem_eq (hsize : load mem p < 2 ^ 31) (hn : n < 2 ^ 31) : rem mem p n = (load mem p : Int) - n := by
  unfold rem long
  split <;> omega

/-- the last of a list, or what was before it -/
def lastOf (p : Nat) (cs : List Chunk) : Nat := (cs.getLast?.map Chunk.addr).getD p

theorem lastOf_cons (p : Nat) (c : Chunk) (cs : List Chunk) : lastOf p (c :: cs) = lastOf c.addr cs := by
  unfold lastOf
  cases cs with
  | nil => rfl
  | cons d ds => rw [List.getLast?_cons_cons]; cases h : (d :: ds).getLast? <;> simp_all

/-- The loop passes the chunks that are too small. -/
theorem find_pass {fuel : Nat} (hn : n < 2 ^ 31) {r : Nat} (h : Linked mem r (pre ++ post))
    (hsmall : ∀ d ∈ pre, d.size < n) (hfuel : pre.length ≤ fuel) :
    find mem n fuel p r = find mem n (fuel - pre.length) (lastOf p pre) (headOf post) := by
  induction pre generalizing p r fuel with
  | nil => rw [h.head]; rfl
  | cons c pre ih =>
    obtain ⟨hc, hrest⟩ := List.forall_mem_cons.mp hsmall
    obtain ⟨rfl, hpos, hsize, hnext⟩ := h
    obtain ⟨f, rfl⟩ := Nat.exists_eq_succ_of_ne_zero (fun h0 => by
      rw [h0, List.length_cons] at hfuel
      omega : fuel ≠ 0)
    rw [List.length_cons] at hfuel
    have hrem : ¬ 0 ≤ rem mem c.addr n := by
      rw [rem_eq (by omega) hn]
      omega
    rw [find, if_neg (by omega), if_neg hrem, ih hnext hrest (by omega), lastOf_cons, List.length_cons,
      Nat.succ_sub_succ]

/-- No chunk is big enough. -/
theorem find_none {fuel : Nat} (hn : n < 2 ^ 31) (h : Linked mem p cs) (hsmall : ∀ d ∈ cs, d.size < n)
    (hfuel : cs.length < fuel) : find mem n fuel p p = some (lastOf p cs, 0) := by
  rw [← List.append_nil cs] at h
  rw [find_pass hn h hsmall (Nat.le_of_lt hfuel)]
  obtain ⟨f, hf⟩ := Nat.exists_eq_succ_of_ne_zero (by omega : fuel - cs.length ≠ 0)
  rw [hf]
  rfl

/-- The first chunk that is big enough, with the one before it. -/
theorem find_some {fuel : Nat} (hn : n < 2 ^ 31) (h : Linked mem p (pre ++ c :: post)) (hsmall : ∀ d ∈ pre, d.size < n)
    (hbig : n ≤ c.size) (hroomy : Roomy c) (hfuel : pre.length < fuel) :
    find mem n fuel p p = some (lastOf p pre, c.addr) := by
  obtain ⟨hpos, hsize, -⟩ := h.from
  have hstop := hroomy.2
  unfold Chunk.stop at hstop
  rw [find_pass hn h hsmall (Nat.le_of_lt hfuel)]
  obtain ⟨f, hf⟩ := Nat.exists_eq_succ_of_ne_zero (by omega : fuel - pre.length ≠ 0)
  have hrem : 0 ≤ rem mem c.addr n := by
    rw [rem_eq (by omega) hn]
    omega
  rw [hf]
  show find mem n (f + 1) (lastOf p pre) c.addr = _
  rw [find, if_neg (by omega), if_pos hrem]

/-- The loop stops at the last chunk that does not begin behind `x`. -/
theorem walk_eq {fuel : Nat} (h : Linked mem p (pre ++ c :: post)) (hpre : ∀ d ∈ pre, d.addr ≤ x) (hc : c.addr ≤ x)
    (hpost : ∀ d ∈ post.head?, x < d.addr) (hfuel : pre.length < fuel) :
    walk mem x fuel p = some (c.addr, headOf post) := by
  induction pre generalizing p fuel with
  | nil =>
    obtain ⟨rfl, -, -, hnext⟩ := h
    obtain ⟨f, rfl⟩ := Nat.exists_eq_succ_of_ne_zero (by omega : fuel ≠ 0)
    have hstop : ¬ (load mem (c.addr + 4) ≠ 0 ∧ load mem (c.addr + 4) ≤ x) := by
      rw [hnext.head]
      cases post with
      | nil => exact fun hh => hh.1 rfl
      | cons q post =>
        have hq := hpost q rfl
        exact fun hh => absurd hh.2 (Nat.not_le_of_lt hq)
    rw [walk]
    simp only [if_neg hstop]
    rw [hnext.head]
  | cons d pre ih =>
    obtain ⟨-, hrest⟩ := List.forall_mem_cons.mp hpre
    obtain ⟨rfl, -, -, hnext⟩ := h
    obtain ⟨f, rfl⟩ := Nat.exists_eq_succ_of_ne_zero (fun h0 => by
      rw [h0, List.length_cons] at hfuel
      omega : fuel ≠ 0)
    rw [List.length_cons] at hfuel
    have hhead : load mem (d.addr + 4) = headOf (pre ++ c :: post) := hnext.head
    have hgo : load mem (d.addr + 4) ≠ 0 ∧ load mem (d.addr + 4) ≤ x := by
      cases pre with
      | nil =>
        obtain ⟨hpos, -⟩ := @Linked.from mem _ [] post c hnext
        have he : load mem (d.addr + 4) = c.addr := hhead
        rw [he]
        exact ⟨by omega, hc⟩
      | cons e es =>
        obtain ⟨-, hpos, -⟩ := hnext
        have he : load mem (d.addr + 4) = e.addr := hhead
        rw [he]
        exact ⟨by omega, hrest e List.mem_cons_self⟩
    rw [walk]
    simp only [if_pos hgo]
    exact ih hnext hrest (by omega)

theorem freeSize_eq {fuel : Nat} (h : Linked mem p cs) (hlen : cs.length < fuel) (htotal : total cs < 2 ^ 32) :
    freeSize mem fuel p = some (total cs) := by
  induction cs generalizing p fuel with
  | nil =>
    obtain ⟨f, rfl⟩ := Nat.exists_eq_succ_of_ne_zero (by omega : fuel ≠ 0)
    exact if_pos h
  | cons c cs ih =>
    obtain ⟨rfl, hpos, hsize, hnext⟩ := h
    obtain ⟨f, rfl⟩ := Nat.exists_eq_succ_of_ne_zero (by omega : fuel ≠ 0)
    rw [List.length_cons] at hlen
    rw [total_cons] at htotal ⊢
    rw [freeSize, if_neg (by omega), ih hnext (by omega) (by omega), hsize]
    show some ((c.size + total cs) % 2 ^ 32) = _
    rw [Nat.mod_eq_of_lt htotal]

/-! ## taking a chunk -/

theorem lastOf_append (p : Nat) (pre : List Chunk) (d : Chunk) : lastOf p (pre ++ [d]) = d.addr := by
  unfold lastOf
  rw [List.getLast?_append_cons]
  rfl

/-- What a step that turns the list `cs` into `cs'` does not touch. -/
structure Turned (m m' : Arena) (cs cs' : List Chunk) : Prop where
  linked : Linked m'.mem m'.free_list cs'
  same : ∀ a b, (∀ d ∈ cs, b ≤ d.addr ∨ d.stop ≤ a) → Same m.mem m'.mem a b
  sbrk_start : m'.sbrk_start = m.sbrk_start
  heap_end : m'.heap_end = m.heap_end

end

section
variable {m : Arena} {n : Nat} {pre post : List Chunk} {c : Chunk}

theorem carve_eq (n p r : Nat) (m : Arena) : carve n p r m =
    if rem m.mem r n ≥ MALLOC_MINCHUNK then
      ({ m with mem := store (store m.mem r (rem m.mem r n).toNat) (r + (rem m.mem r n).toNat) n },
        r + (rem m.mem r n).toNat)
    else if p = r then ({ m with free_list := load m.mem (r + 4) }, r)
    else ({ m with mem := store m.mem (p + 4) (load m.mem (r + 4)) }, r) := rfl

/-- the chunks before and behind one of a sorted list -/
theorem sorted_around (hs : Sorted (pre ++ c :: post)) :
    (∀ d ∈ pre, d.stop < c.addr) ∧ (∀ d ∈ post, c.stop < d.addr) := by
  obtain ⟨-, hpost, hcross⟩ := sorted_append.mp hs
  exact ⟨fun d hd => hcross d hd c List.mem_cons_self, (sorted_cons.mp hpost).1⟩

theorem Linked.rem (h : Linked m.mem m.free_list (pre ++ c :: post)) (hroomy : Roomy c) (hn : n < 2 ^ 31) :
    Interface.rem m.mem c.addr n = (c.size : Int) - n := by
  obtain ⟨-, hsize, -⟩ := h.from
  have hstop := hroomy.2
  unfold Chunk.stop at hstop
  rw [rem_eq (by omega) hn, hsize]

/-- The end of a chunk of `n` and 12 more is cut off. -/
theorem carve_cut (p : Nat) (hmin : 12 ≤ n) (hn : n < 2 ^ 31) (h : Linked m.mem m.free_list (pre ++ c :: post))
    (hs : Sorted (pre ++ c :: post)) (hroomy : ∀ d ∈ pre ++ c :: post, Roomy d) (hleast : n + 12 ≤ c.size) :
    (carve n p c.addr m).2 = c.addr + (c.size - n) ∧
      load (carve n p c.addr m).1.mem (c.addr + (c.size - n)) = n ∧
      Turned m (carve n p c.addr m).1 (pre ++ c :: post) (pre ++ ⟨c.addr, c.size - n⟩ :: post) := by
  obtain ⟨hpre, hpost⟩ := sorted_around hs
  obtain ⟨-, hstop⟩ := hroomy c (by simp)
  have hrem : (rem m.mem c.addr n).toNat = c.size - n := by
    rw [h.rem (hroomy c (by simp)) hn]
    omega
  have hge : rem m.mem c.addr n ≥ MALLOC_MINCHUNK := by
    rw [h.rem (hroomy c (by simp)) hn]
    show (12 : Int) ≤ _
    omega
  unfold Chunk.stop at hstop hpost hpre
  rw [carve_eq, if_pos hge, hrem]
  -- both stores lie in the chunk
  have hsame : ∀ a b, b ≤ c.addr ∨ c.addr + c.size ≤ a →
      Same m.mem (store (store m.mem c.addr (c.size - n)) (c.addr + (c.size - n)) n) a b := fun a b hab =>
    (same_store _ _ (by omega)).trans (same_store _ _ (by omega))
  refine ⟨rfl, load_store_self _ _ (by omega), ⟨?_, fun a b hab => hsame a b (hab c (by simp)), rfl, rfl⟩⟩
  refine linked_cut h (fun d hd => hsame _ _ ?_) ?_ ?_
  · have hd' := hpre d hd
    obtain ⟨hsize, -⟩ := hroomy d (by simp [hd])
    omega
  · rw [load_store_other _ _ (by omega), load_store_self _ _ (by omega)]
  · rw [load_store_other _ _ (by omega), load_store_other _ _ (by omega)]
    refine linked_same (fun d hd => hsame _ _ ?_) h.from.2.2
    have hd' := hpost d hd
    omega

/-- A chunk that is not cut leaves the list. -/
theorem carve_all (hn : n < 2 ^ 31) (h : Linked m.mem m.free_list (pre ++ c :: post))
    (hs : Sorted (pre ++ c :: post)) (hroomy : ∀ d ∈ pre ++ c :: post, Roomy d) (hleast : c.size < n + 12) :
    (carve n (lastOf m.free_list pre) c.addr m).2 = c.addr ∧
      load (carve n (lastOf m.free_list pre) c.addr m).1.mem c.addr = c.size ∧
      Turned m (carve n (lastOf m.free_list pre) c.addr m).1 (pre ++ c :: post) (pre ++ post) := by
  obtain ⟨hpre, hpost⟩ := sorted_around hs
  obtain ⟨-, hsize, hnext⟩ := h.from
  have hlt : ¬ rem m.mem c.addr n ≥ MALLOC_MINCHUNK := by
    rw [h.rem (hroomy c (by simp)) hn]
    show ¬ (12 : Int) ≤ _
    omega
  rw [carve_eq, if_neg hlt]
  obtain rfl | ⟨pre, d, rfl⟩ := List.eq_nil_or_concat' pre
  · -- it is the first one
    have he : lastOf m.free_list [] = c.addr := h.1
    rw [if_pos he]
    exact ⟨rfl, hsize, hnext, fun a b _ => Same.refl _ a b, rfl, rfl⟩
  · -- `d` is linked to the one behind it
    rw [lastOf_append]
    obtain ⟨hdsize, -⟩ := hroomy d (by simp)
    have hd := hpre d (by simp)
    unfold Chunk.stop at hd hpre hpost
    rw [if_neg (by omega)]
    rw [List.append_assoc] at h hs hroomy
    rw [List.append_assoc, List.append_assoc]
    obtain ⟨hpred, -⟩ := sorted_around hs
    unfold Chunk.stop at hpred
    have hsame : ∀ a b, b ≤ d.addr + 4 ∨ d.addr + 8 ≤ a →
        Same m.mem (store m.mem (d.addr + 4) (load m.mem (c.addr + 4))) a b := fun a b hab =>
      same_store _ _ (by omega)
    refine ⟨rfl, ?_, ⟨?_, fun a b hab => hsame a b ?_, rfl, rfl⟩⟩
    · show load (store m.mem (d.addr + 4) (load m.mem (c.addr + 4))) c.addr = c.size
      rw [load_store_other _ _ (by omega), hsize]
    · refine linked_cut h (fun e he => hsame _ _ ?_) ?_ ?_
      · have he' := hpred e he
        obtain ⟨hesize, -⟩ := hroomy e (by simp [he])
        omega
      · show load (store m.mem (d.addr + 4) (load m.mem (c.addr + 4))) d.addr = d.size
        rw [load_store_other _ _ (by omega)]
        exact h.from.2.1
      · show Linked (store m.mem (d.addr + 4) (load m.mem (c.addr + 4)))
          (load (store m.mem (d.addr + 4) (load m.mem (c.addr + 4))) (d.addr + 4)) post
        rw [load_store_self _ _ (load_lt _ _)]
        refine linked_same (fun e he => hsame _ _ ?_) hnext
        have he' := hpost e he
        omega
    · have hd' := hab d (by simp)
      unfold Chunk.stop at hd'
      omega

/-- The code finds what `take` finds, and takes it out of the list. -/
theorem find_take {cs : List Chunk} (hmin : 12 ≤ n) (hn : n < 2 ^ 31) (h : Linked m.mem m.free_list cs) (hs : Sorted cs)
    (hroomy : ∀ d ∈ cs, Roomy d) (hlen : cs.length < turns) :
    (take n 12 cs = none ∧ ∃ p, find m.mem n turns m.free_list m.free_list = some (p, 0)) ∨
      ∃ x cs' p r, take n 12 cs = some (x, cs') ∧ find m.mem n turns m.free_list m.free_list = some (p, r) ∧ r ≠ 0 ∧
        (carve n p r m).2 = x.addr ∧ load (carve n p r m).1.mem x.addr = x.size ∧
        Turned m (carve n p r m).1 cs cs' := by
  obtain ⟨hall, hnone⟩ | ⟨pre, c, post, rfl, hpre, hbig, hcase⟩ := take_cases n 12 cs
  · exact Or.inl ⟨hnone, _, find_none hn h hall hlen⟩
  · have hshort : pre.length < turns := by
      rw [List.length_append] at hlen
      omega
    have hfind := find_some hn h hpre hbig (hroomy c (by simp)) hshort
    have hpos : c.addr ≠ 0 := Nat.ne_of_gt h.from.1
    obtain ⟨hleast, htake⟩ | ⟨hleast, htake⟩ := hcase
    · obtain ⟨haddr, hload, hturned⟩ := carve_cut (lastOf m.free_list pre) hmin hn h hs hroomy (by omega)
      exact Or.inr ⟨_, _, _, _, htake, hfind, hpos, haddr, hload, hturned⟩
    · obtain ⟨haddr, hload, hturned⟩ := carve_all hn h hs hroomy (by omega)
      exact Or.inr ⟨_, _, _, _, htake, hfind, hpos, haddr, hload, hturned⟩

end

/-! ## putting a chunk back -/

section
variable {m : Arena} {pre post cs : List Chunk} {c d x : Chunk}

theorem freeFirst_eq (x : Nat) (m : Arena) : freeFirst x m =
    if x + load m.mem x = m.free_list then
      { m with
        mem := store (store m.mem x (load m.mem x + load m.mem m.free_list)) (x + 4) (load m.mem (m.free_list + 4))
        free_list := x }
    else { m with mem := store m.mem (x + 4) m.free_list, free_list := x } := rfl

/-- before the first chunk -/
theorem freeFirst_join (h : Linked m.mem m.free_list (c :: cs)) (hs : Sorted (c :: cs))
    (hroomy : ∀ e ∈ x :: c :: cs, Roomy e) (hpos : 0 < x.addr) (hsize : load m.mem x.addr = x.size)
    (hx : x.stop ≤ c.addr) : Turned m (freeFirst x.addr m) (x :: c :: cs) (join x (c :: cs)) := by
  obtain ⟨hfl, hcpos, hcsize, hnext⟩ := h
  obtain ⟨hhead, -⟩ := sorted_cons.mp hs
  obtain ⟨hxroom, hxstop⟩ := hroomy x (by simp)
  obtain ⟨hcroom, hcstop⟩ := hroomy c (by simp)
  unfold Chunk.stop at hx hhead hxstop hcstop
  rw [freeFirst_eq, hfl, hsize, hcsize, join_cons]
  unfold Chunk.stop
  split
  · next hadj =>
    have hsame : ∀ a b, b ≤ x.addr ∨ x.addr + x.size ≤ a → Same m.mem
        (store (store m.mem x.addr (x.size + c.size)) (x.addr + 4) (load m.mem (c.addr + 4))) a b := fun a b hab =>
      (same_store _ _ (by omega)).trans (same_store _ _ (by omega))
    refine ⟨⟨rfl, hpos, ?_, ?_⟩, fun a b hab => hsame a b (hab x (by simp)), rfl, rfl⟩
    · show load _ x.addr = x.size + c.size
      rw [load_store_other _ _ (by omega), load_store_self _ _ (by omega)]
    · show Linked _ (load _ (x.addr + 4)) cs
      rw [load_store_self _ _ (load_lt _ _)]
      refine linked_same (fun e he => hsame _ _ ?_) hnext
      have he' := hhead e he
      omega
  · next hgap =>
    have hsame : ∀ a b, b ≤ x.addr + 4 ∨ x.addr + x.size ≤ a → Same m.mem (store m.mem (x.addr + 4) c.addr) a b :=
      fun a b hab => same_store _ _ (by omega)
    refine ⟨⟨rfl, hpos, ?_, ?_⟩, fun a b hab => hsame a b ?_, rfl, rfl⟩
    · rw [load_store_other _ _ (by omega), hsize]
    · rw [load_store_self _ _ (by omega)]
      refine linked_same (fun e he => hsame _ _ ?_) ⟨rfl, hcpos, hcsize, hnext⟩
      obtain rfl | he := List.mem_cons.mp he
      · omega
      · have he' := hhead e he
        omega
    · have hxab := hab x (by simp)
      unfold Chunk.stop at hxab
      omega

theorem freeBetween_adjacent {x p q : Nat} {mem : Mem} (hadj : p + load m.mem p = x)
    (hmem : mem = store m.mem p (load m.mem p + load m.mem x)) : freeBetween x p q m =
      if p + load mem p = q then
        { m with mem := store (store mem p (load mem p + load mem q)) (p + 4) (load mem (q + 4)) }
      else { m with mem := mem } := by
  unfold freeBetween
  rw [if_pos hadj, hmem]

theorem freeBetween_gap {x p q : Nat} (hgap : p + load m.mem p < x) : freeBetween x p q m =
    if x + load m.mem x = q then
      { m with mem := store (store (store m.mem x (load m.mem x + load m.mem q)) (x + 4) (load m.mem (q + 4))) (p + 4) x }
    else { m with mem := store (store m.mem (x + 4) q) (p + 4) x } := by
  unfold freeBetween
  rw [if_neg (by omega), if_neg (by omega)]

/-- behind `d` and adjacent to it -/
theorem freeBetween_adjacent_attach (h : Linked m.mem m.free_list (pre ++ d :: post)) (hs : Sorted (pre ++ d :: post))
    (hroomy : ∀ e ∈ x :: (pre ++ d :: post), Roomy e) (hsize : load m.mem x.addr = x.size)
    (hadj : d.stop = x.addr) (hpost : ∀ e ∈ post, x.stop ≤ e.addr) :
    Turned m (freeBetween x.addr d.addr (headOf post) m) (x :: (pre ++ d :: post))
      (pre ++ join ⟨d.addr, d.size + x.size⟩ post) := by
  obtain ⟨hpred, hdpost⟩ := sorted_around hs
  obtain ⟨hdpos, hdsize, hnext⟩ := h.from
  obtain ⟨hxroom, hxstop⟩ := hroomy x (by simp)
  obtain ⟨hdroom, -⟩ := hroomy d (by simp)
  unfold Chunk.stop at hadj hpost hxstop hpred hdpost
  -- all that is stored to lies in `d`
  have hpre : ∀ e ∈ pre, e.addr + 8 ≤ d.addr := fun e he => by
    have he' := hpred e he
    obtain ⟨heroom, -⟩ := hroomy e (by simp [he])
    omega
  have hone : ∀ v a b, b ≤ d.addr ∨ d.addr + 8 ≤ a → Same m.mem (store m.mem d.addr v) a b := fun v a b hab =>
    same_store _ _ (by omega)
  have hframe : ∀ a b, (∀ f ∈ x :: (pre ++ d :: post), b ≤ f.addr ∨ f.stop ≤ a) → b ≤ d.addr ∨ d.addr + 8 ≤ a :=
    fun a b hab => by
      have hd' := hab d (by simp)
      unfold Chunk.stop at hd'
      omega
  rw [freeBetween_adjacent (by rw [hdsize]; exact hadj) rfl, hdsize, hsize, load_store_self _ _ (by omega)]
  cases post with
  | nil =>
    have hz : d.addr + (d.size + x.size) ≠ headOf [] := by
      show _ ≠ 0
      omega
    rw [if_neg hz]
    refine ⟨?_, fun a b hab => hone _ a b (hframe a b hab), rfl, rfl⟩
    · refine linked_cut h (fun e he => hone _ _ _ (Or.inl (hpre e he))) (load_store_self _ _ (by omega)) ?_
      rw [load_store_other _ _ (by omega)]
      exact hnext
  | cons e post =>
    obtain ⟨hlink, hepos, hesize, hrest⟩ := hnext
    obtain ⟨heroom, hestop⟩ := hroomy e (by simp)
    have hxe := hpost e List.mem_cons_self
    unfold Chunk.stop at hestop
    have hde := hdpost e List.mem_cons_self
    have hbehind : ∀ f ∈ post, d.addr + 8 ≤ f.addr := fun f hf => by
      have hf' := hdpost f (List.mem_cons_of_mem _ hf)
      omega
    have hq : headOf (e :: post) = e.addr := rfl
    have hstop : Chunk.stop ⟨d.addr, d.size + x.size⟩ = d.addr + (d.size + x.size) := rfl
    rw [hq, join_cons, hstop]
    by_cases hjoin : d.addr + (d.size + x.size) = e.addr
    · rw [if_pos hjoin, if_pos hjoin]
      rw [load_store_other _ _ (by omega), load_store_other _ _ (by omega), hesize]
      have hsame : ∀ a b, b ≤ d.addr ∨ d.addr + 8 ≤ a → Same m.mem (store (store (store m.mem d.addr (d.size + x.size))
          d.addr (d.size + x.size + e.size)) (d.addr + 4) (load m.mem (e.addr + 4))) a b := fun a b hab =>
        ((hone _ a b hab).trans (same_store _ _ (by omega))).trans (same_store _ _ (by omega))
      refine ⟨?_, fun a b hab => hsame a b (hframe a b hab), rfl, rfl⟩
      · refine linked_cut (c := d) h (fun f hf => hsame _ _ (Or.inl (hpre f hf))) ?_ ?_
        · rw [load_store_other _ _ (by omega), load_store_self _ _ (by omega)]
        · rw [load_store_self _ _ (load_lt _ _)]
          exact linked_same (fun f hf => hsame _ _ (Or.inr (hbehind f hf))) hrest
    · rw [if_neg hjoin, if_neg hjoin]
      refine ⟨?_, fun a b hab => hone _ a b (hframe a b hab), rfl, rfl⟩
      · refine linked_cut h (fun f hf => hone _ _ _ (Or.inl (hpre f hf))) (load_store_self _ _ (by omega)) ?_
        rw [load_store_other _ _ (by omega), hlink]
        refine linked_same (fun f hf => hone _ _ _ (Or.inr ?_)) ⟨rfl, hepos, hesize, hrest⟩
        obtain rfl | hf := List.mem_cons.mp hf
        · omega
        · exact hbehind f hf

/-- `x` is linked behind `d`. -/
theorem turned_insert {mem : Mem} {ys : List Chunk} (h : Linked m.mem m.free_list (pre ++ d :: post))
    (hs : Sorted (pre ++ d :: post)) (hroomy : ∀ e ∈ x :: (pre ++ d :: post), Roomy e) (hgap : d.stop < x.addr)
    (hsame : ∀ a b, b ≤ d.addr + 4 ∨ d.addr + 8 ≤ a → b ≤ x.addr ∨ x.addr + 8 ≤ a → Same m.mem mem a b)
    (hlink : load mem (d.addr + 4) = x.addr) (hys : Linked mem x.addr ys) :
    Turned m { m with mem := mem } (x :: (pre ++ d :: post)) (pre ++ d :: ys) := by
  obtain ⟨hpred, -⟩ := sorted_around hs
  obtain ⟨-, hdsize, -⟩ := h.from
  obtain ⟨hxroom, -⟩ := hroomy x (by simp)
  obtain ⟨hdroom, -⟩ := hroomy d (by simp)
  unfold Chunk.stop at hgap hpred
  refine ⟨linked_cut h (fun e he => ?_) ?_ ?_, fun a b hab => ?_, rfl, rfl⟩
  · have he' := hpred e he
    obtain ⟨heroom, -⟩ := hroomy e (by simp [he])
    exact hsame _ _ (by omega) (by omega)
  · rw [(hsame d.addr (d.addr + 4) (by omega) (by omega)).load, hdsize]
  · show Linked mem (load mem (d.addr + 4)) ys
    rw [hlink]
    exact hys
  · have hd' := hab d (by simp)
    have hx' := hab x (by simp)
    unfold Chunk.stop at hd' hx'
    exact hsame a b (by omega) (by omega)

/-- behind `d`, with a gap -/
theorem freeBetween_gap_attach (h : Linked m.mem m.free_list (pre ++ d :: post)) (hs : Sorted (pre ++ d :: post))
    (hroomy : ∀ e ∈ x :: (pre ++ d :: post), Roomy e) (hsize : load m.mem x.addr = x.size)
    (hgap : d.stop < x.addr) (hpost : ∀ e ∈ post, x.stop ≤ e.addr) :
    Turned m (freeBetween x.addr d.addr (headOf post) m) (x :: (pre ++ d :: post)) (pre ++ d :: join x post) := by
  obtain ⟨hdpos, hdsize, hnext⟩ := h.from
  obtain ⟨hxroom, hxstop⟩ := hroomy x (by simp)
  obtain ⟨hdroom, -⟩ := hroomy d (by simp)
  have hstop : x.stop = x.addr + x.size := rfl
  have hdstop : d.stop = d.addr + d.size := rfl
  rw [freeBetween_gap (by rw [hdsize]; omega), hsize]
  -- either way two places are stored to
  have hlinked : ∀ q, ∀ a b, b ≤ d.addr + 4 ∨ d.addr + 8 ≤ a → b ≤ x.addr ∨ x.addr + 8 ≤ a →
      Same m.mem (store (store m.mem (x.addr + 4) q) (d.addr + 4) x.addr) a b := fun q a b h1 h2 =>
    (same_store _ _ (by omega)).trans (same_store _ _ (by omega))
  cases post with
  | nil =>
    have hz : x.addr + x.size ≠ headOf [] := by
      show _ ≠ 0
      omega
    rw [if_neg hz]
    refine turned_insert h hs hroomy hgap (hlinked _) (load_store_self _ _ (by omega)) ⟨rfl, by omega, ?_, ?_⟩
    · rw [load_store_other _ _ (by omega), load_store_other _ _ (by omega), hsize]
    · rw [load_store_other _ _ (by omega), load_store_self _ _ (show headOf [] < 2 ^ 32 from Nat.two_pow_pos 32)]
      rfl
  | cons e post =>
    obtain ⟨hlink, hepos, hesize, hrest⟩ := hnext
    obtain ⟨heroom, hestop⟩ := hroomy e (by simp)
    have hxe := hpost e List.mem_cons_self
    unfold Chunk.stop at hestop
    have hbehind : ∀ f ∈ post, e.addr + 8 ≤ f.addr := fun f hf => by
      rw [List.append_cons] at hs
      have hf' := (sorted_around hs).2 f hf
      unfold Chunk.stop at hf'
      omega
    have hq : headOf (e :: post) = e.addr := rfl
    rw [hq, join_cons, hstop, hesize]
    by_cases hjoin : x.addr + x.size = e.addr
    · rw [if_pos hjoin, if_pos hjoin]
      have hsame : ∀ a b, b ≤ d.addr + 4 ∨ d.addr + 8 ≤ a → b ≤ x.addr ∨ x.addr + 8 ≤ a →
          Same m.mem (store (store (store m.mem x.addr (x.size + e.size)) (x.addr + 4) (load m.mem (e.addr + 4)))
            (d.addr + 4) x.addr) a b := fun a b h1 h2 =>
        ((same_store _ _ (by omega)).trans (same_store _ _ (by omega))).trans (same_store _ _ (by omega))
      refine turned_insert h hs hroomy hgap hsame (load_store_self _ _ (by omega)) ⟨rfl, by show 0 < x.addr; omega, ?_, ?_⟩
      · show load _ x.addr = x.size + e.size
        rw [load_store_other _ _ (by omega), load_store_other _ _ (by omega), load_store_self _ _ (by omega)]
      · show Linked _ (load _ (x.addr + 4)) post
        rw [load_store_other _ _ (by omega), load_store_self _ _ (load_lt _ _)]
        refine linked_same (fun f hf => ?_) hrest
        have hf' := hbehind f hf
        exact hsame _ _ (by omega) (by omega)
    · rw [if_neg hjoin, if_neg hjoin]
      refine turned_insert h hs hroomy hgap (hlinked _) (load_store_self _ _ (by omega)) ⟨rfl, by omega, ?_, ?_⟩
      · rw [load_store_other _ _ (by omega), load_store_other _ _ (by omega), hsize]
      · rw [load_store_other _ _ (by omega), load_store_self _ _ (by omega)]
        refine linked_same (fun f hf => ?_) ⟨rfl, hepos, hesize, hrest⟩
        have hf' : x.addr + 8 ≤ f.addr := by
          obtain rfl | hf := List.mem_cons.mp hf
          · omega
          · have hf' := hbehind f hf
            omega
        exact hlinked _ _ _ (by omega) (by omega)

/-- What is apart from all chunks of a sorted list and begins between two of them lies between them. -/
theorem apart_around (hs : Sorted (pre ++ d :: post)) (hroomy : ∀ e ∈ x :: (pre ++ d :: post), Roomy e)
    (hx : ∀ e ∈ pre ++ d :: post, Pool.Apart x e) (hd : d.addr ≤ x.addr) (hpost : ∀ e ∈ post.head?, x.addr < e.addr) :
    d.stop ≤ x.addr ∧ ∀ e ∈ post, x.stop ≤ e.addr := by
  obtain ⟨hxroom, -⟩ := hroomy x (by simp)
  constructor
  · obtain hle | hle := hx d (by simp)
    · unfold Chunk.stop at hle
      omega
    · exact hle
  · intro e he
    have hbehind : x.addr < e.addr := by
      cases post with
      | nil => cases he
      | cons f post =>
        have hf := hpost f rfl
        obtain rfl | he := List.mem_cons.mp he
        · exact hf
        · rw [List.append_cons] at hs
          have hlt := (sorted_around hs).2 e he
          unfold Chunk.stop at hlt
          omega
    obtain hle | hle := hx e (by simp [he])
    · exact hle
    · unfold Chunk.stop at hle
      omega

/-- Freeing a chunk that is apart from the list is putting it into the list. -/
theorem free_put {ptr : Nat} (h : Linked m.mem m.free_list cs) (hs : Sorted cs) (hroomy : ∀ e ∈ x :: cs, Roomy e)
    (hlen : cs.length < turns) (hptr : ptr ≠ 0) (hx : get_chunk_from_ptr m.mem ptr = x.addr) (hpos : 0 < x.addr)
    (hsize : load m.mem x.addr = x.size) (hapart : ∀ e ∈ cs, Pool.Apart x e) :
    ∃ m', nano_free ptr m = some m' ∧ Turned m m' (x :: cs) (put x cs) := by
  obtain ⟨hxroom, hxstop⟩ := hroomy x (by simp)
  unfold nano_free
  rw [if_neg hptr, hx]
  dsimp only
  cases cs with
  | nil =>
    have hnull : m.free_list = 0 := h
    rw [if_pos hnull]
    refine ⟨_, rfl, ⟨rfl, hpos, ?_, ?_⟩, fun a b hab => same_store _ _ ?_, rfl, rfl⟩
    · show load (store _ _ _) _ = _
      rw [load_store_other _ _ (by omega), hsize]
    · show load (store _ _ _) _ = _
      rw [hnull, load_store_self _ _ (Nat.two_pow_pos 32)]
    · have hx' := hab x (by simp)
      unfold Chunk.stop at hx'
      omega
  | cons c cs =>
    have hfl := h.1
    have hcpos := h.2.1
    rw [if_neg (by omega), hfl]
    by_cases hlt : x.addr < c.addr
    · have hstop : x.stop ≤ c.addr := by
        obtain hle | hle := hapart c (by simp)
        · exact hle
        · unfold Chunk.stop at hle
          omega
      rw [if_pos hlt, put_cons, if_pos hlt]
      exact ⟨_, rfl, freeFirst_join h hs hroomy hpos hsize hstop⟩
    · obtain ⟨pre, d, post, hcs, hpre, hd, hpost⟩ := exists_last (Nat.le_of_not_lt hlt) cs
      rw [hcs] at h hs hroomy hlen hapart ⊢
      have hshort : pre.length < turns := by
        rw [List.length_append] at hlen
        omega
      obtain ⟨hdx, hxpost⟩ := apart_around hs hroomy hapart hd hpost
      rw [if_neg hlt, ← hfl, walk_eq h hpre hd hpost hshort, put_between hpre hd hpost]
      refine ⟨_, rfl, ?_⟩
      show Turned m (freeBetween x.addr d.addr (headOf post) m) _ _
      unfold attach
      split
      · next hadj => exact freeBetween_adjacent_attach h hs hroomy hsize hadj hxpost
      · next hne => exact freeBetween_gap_attach h hs hroomy hsize (by omega) hxpost

end

end Interface
end Pharoah
