import Pharoah.Interface.FreeList

/-!
# The chunks of the heap

What the memory of the allocator looks like between its calls: the chunks, free and used, fill the heap from
its bottom to the break, and a used one can be found from the pointer into it.

* `bytesOf c`      the pointer into a chunk, which the caller gets;
* `Laid`           the free list and the used chunks fill the heap;
* `Headed`         from the pointer into a chunk the code finds the chunk;
* `Kept`           both, what every call keeps;
* `Room m s`       the request is refused for its size, or a free chunk is big enough, or the break can move;
* `malloc_kept`    **`nano_malloc` gives a chunk that is apart from all others, or NULL, and changes none**;
* `free_kept`      **`nano_free` puts the chunk back into the pool, and changes no other**.
-/

namespace Pharoah
namespace Interface

open Bytes Pool

variable (l : Layout)

/-- where the first chunk begins: `end`, aligned -/
def bottom : Nat := ALIGN_TO l.end_.toNat CHUNK_ALIGN

/-- the break; before the first call, where it will be -/
def top (m : Arena) : Nat := if m.heap_end = 0 then bottom l else m.heap_end.toNat

/-- the pointer into a chunk -/
def bytesOf (c : Chunk) : Nat := if c.addr % 8 = 4 then c.addr + 4 else c.addr + 8

/-- A chunk between two addresses is aligned and holds a header and a pointer. -/
structure Fit (lo hi : Nat) (c : Chunk) : Prop where
  lower : lo ≤ c.addr
  upper : c.stop ≤ hi
  addr : c.addr % 4 = 0
  size : c.size % 4 = 0
  least : 12 ≤ c.size

/-- The size stands before the bytes of a chunk, or an offset to it. -/
def Headed (mem : Mem) (c : Chunk) : Prop :=
  load mem c.addr = c.size ∧ (c.addr % 8 = 0 → load mem (c.addr + 4) = 2 ^ 32 - 4)

/-- The free list and the used chunks fill the heap. -/
structure Laid (m : Arena) (free used : List Chunk) : Prop where
  started : (m.sbrk_start = 0 ∧ m.heap_end = 0) ∨ (m.sbrk_start = l.end_.toNat ∧ m.heap_end ≠ 0)
  aligned : top l m % 4 = 0
  inRam : top l m ≤ ram_end.toNat
  linked : Linked m.mem m.free_list free
  sorted : Sorted free
  fit_free : ∀ c ∈ free, Fit (bottom l) (top l m) c
  fit_used : ∀ c ∈ used, Fit (bottom l) (top l m) c
  apart_used : used.Pairwise Pool.Apart
  apart : ∀ c ∈ used, ∀ d ∈ free, Pool.Apart c d
  fills : bottom l + total free + total used = top l m

/-- what every call keeps -/
structure Kept (m : Arena) (free used : List Chunk) : Prop extends Laid l m free used where
  headed : ∀ c ∈ used, Headed m.mem c

section
variable {l} {m m' : Arena} {free used : List Chunk} {c d x : Chunk} {lo hi n s : Nat}

theorem bottom_bounds (l : Layout) : l.end_.toNat ≤ bottom l ∧ bottom l < l.end_.toNat + 4 ∧
    0x20005000 ≤ bottom l ∧ bottom l ≤ ram_end.toNat ∧ bottom l % 4 = 0 := by
  obtain ⟨hlo, hhi, hram⟩ := Heap.layout_bounds l
  unfold bottom ALIGN_TO CHUNK_ALIGN
  omega

/-- before the first call -/
theorem kept_init (mem : Mem) : Kept l (Arena.init mem) [] [] := by
  obtain ⟨-, -, -, hram, halign⟩ := bottom_bounds l
  have htop : top l (Arena.init mem) = bottom l := rfl
  have hnil : ∀ {P : Chunk → Prop}, ∀ c ∈ ([] : List Chunk), P c := fun c hc => by cases hc
  refine ⟨⟨Or.inl ⟨rfl, rfl⟩, ?_, ?_, rfl, List.Pairwise.nil, hnil, hnil, List.Pairwise.nil, hnil, ?_⟩, hnil⟩
  · rw [htop]
    exact halign
  · rw [htop]
    exact hram
  · rw [htop]
    rfl

theorem Fit.roomy (h : Fit lo hi c) (hhi : hi ≤ ram_end.toNat) : Roomy c := by
  have hram : ram_end.toNat = 0x2000fffc := by decide
  have hupper := h.upper
  exact ⟨h.least, by omega⟩

theorem Fit.raise (h : Fit lo hi c) {hi' : Nat} (hle : hi ≤ hi') : Fit lo hi' c :=
  ⟨h.lower, Nat.le_trans h.upper hle, h.addr, h.size, h.least⟩

theorem Fit.merge (hc : Fit lo hi c) (hd : Fit lo hi d) (hadj : c.stop = d.addr) : Fit lo hi ⟨c.addr, c.size + d.size⟩ := by
  have hupper := hd.upper
  have hcsize := hc.size
  have hdsize := hd.size
  have hleast := hc.least
  unfold Chunk.stop at hadj hupper
  refine ⟨hc.lower, ?_, hc.addr, ?_, ?_⟩
  · unfold Chunk.stop
    dsimp only
    omega
  · dsimp only
    omega
  · dsimp only
    omega

theorem Fit.cut (h : Fit lo hi c) (hn : n % 4 = 0) (hmin : 12 ≤ n) (hle : n + 12 ≤ c.size) :
    Fit lo hi ⟨c.addr, c.size - n⟩ ∧ Fit lo hi ⟨c.addr + (c.size - n), n⟩ := by
  obtain ⟨hlower, hupper, haddr, hsize, hleast⟩ := h
  unfold Chunk.stop at hupper
  constructor
  · refine ⟨hlower, ?_, haddr, ?_, ?_⟩
    · unfold Chunk.stop
      dsimp only
      omega
    · dsimp only
      omega
    · dsimp only
      omega
  · refine ⟨?_, ?_, ?_, hn, hmin⟩
    · dsimp only
      omega
    · unfold Chunk.stop
      dsimp only
      omega
    · dsimp only
      omega

/-- The list is shorter than the fuel of the loops. -/
theorem Laid.short (h : Laid l m free used) : free.length < turns := by
  have hram : ram_end.toNat = 0x2000fffc := by decide
  have hinRam := h.inRam
  have hfits := h.sorted.fits (fun c hc => ⟨(h.fit_free c hc).lower, (h.fit_free c hc).upper⟩)
    (by have := h.fills; omega)
  unfold turns
  omega

theorem Laid.roomy (h : Laid l m free used) : (∀ c ∈ free, Roomy c) ∧ ∀ c ∈ used, Roomy c :=
  ⟨fun c hc => (h.fit_free c hc).roomy h.inRam, fun c hc => (h.fit_used c hc).roomy h.inRam⟩

/-- Memory that is the same in the free chunks. -/
theorem Laid.same (h : Laid l m free used) {mem : Mem} (hsame : ∀ d ∈ free, Same m.mem mem d.addr d.stop) :
    Laid l { m with mem := mem } free used := by
  obtain ⟨hstarted, haligned, hinRam, hlinked, hsorted, hfree, hused, happ, hap, hfills⟩ := h
  refine ⟨hstarted, haligned, hinRam, linked_same (fun d hd => ?_) hlinked, hsorted, hfree, hused, happ, hap, hfills⟩
  have hleast := (hfree d hd).least
  exact (hsame d hd).sub (Nat.le_refl _) (by unfold Chunk.stop; omega)

theorem Headed.same (h : Headed m.mem c) (hleast : 12 ≤ c.size) {mem : Mem} (hsame : Same m.mem mem c.addr c.stop) :
    Headed mem c := by
  obtain ⟨hsize, hoffset⟩ := h
  have hword : load mem c.addr = load m.mem c.addr :=
    (hsame.sub (Nat.le_refl _) (by unfold Chunk.stop; omega)).load
  have hpad : load mem (c.addr + 4) = load m.mem (c.addr + 4) :=
    (hsame.sub (by omega) (by unfold Chunk.stop; omega)).load
  refine ⟨hword.trans hsize, fun h8 => ?_⟩
  rw [hpad]
  exact hoffset h8

/-- The used chunks may be listed in any order. -/
theorem Kept.perm (h : Kept l m free used) {used' : List Chunk} (hp : used.Perm used') : Kept l m free used' := by
  obtain ⟨⟨hstarted, haligned, hinRam, hlinked, hsorted, hfree, hused, happ, hap, hfills⟩, hheaded⟩ := h
  have hmem : ∀ c ∈ used', c ∈ used := fun c hc => hp.mem_iff.mpr hc
  have htotal : total used' = total used := (hp.map Chunk.size).sum_eq.symm
  refine ⟨⟨hstarted, haligned, hinRam, hlinked, hsorted, hfree, fun c hc => hused c (hmem c hc),
    happ.perm hp fun h => h.symm, fun c hc => hap c (hmem c hc), ?_⟩, fun c hc => hheaded c (hmem c hc)⟩
  rw [htotal]
  exact hfills

/-! ## the pointer into a chunk -/

theorem bytesOf_cases (halign : c.addr % 4 = 0) :
    (c.addr % 8 = 4 ∧ bytesOf c = c.addr + 4) ∨ (c.addr % 8 = 0 ∧ bytesOf c = c.addr + 8) := by
  unfold bytesOf
  by_cases h : c.addr % 8 = 4
  · rw [if_pos h]
    exact Or.inl ⟨h, rfl⟩
  · rw [if_neg h]
    exact Or.inr ⟨by omega, rfl⟩

theorem long_of_lt {w : Nat} (h : w < 2 ^ 31) : long w = w := if_pos h

/-- From the pointer the code finds the chunk. -/
theorem Headed.chunk (h : Headed m.mem c) (halign : c.addr % 4 = 0) (hroomy : Roomy c) :
    get_chunk_from_ptr m.mem (bytesOf c) = c.addr := by
  obtain ⟨hsize, hoffset⟩ := h
  have hstop := hroomy.2
  unfold Chunk.stop at hstop
  unfold get_chunk_from_ptr CHUNK_OFFSET
  dsimp only
  obtain ⟨-, hptr⟩ | ⟨h8, hptr⟩ := bytesOf_cases halign
  · have hword : load m.mem (bytesOf c - 4) = c.size := by
      rw [hptr, Nat.add_sub_cancel]
      exact hsize
    rw [hword, long_of_lt (by omega), if_neg (by omega)]
    omega
  · have hword : load m.mem (bytesOf c - 4) = 2 ^ 32 - 4 := by
      rw [hptr]
      exact hoffset h8
    have hlong : long (2 ^ 32 - 4) = -4 := by decide
    rw [hword, hlong, if_pos (by decide), hptr]
    omega

/-- From the pointer the code finds how many bytes there are. -/
theorem Headed.usable (h : Headed m.mem c) (halign : c.addr % 4 = 0) (hroomy : Roomy c) :
    nano_malloc_usable_size (bytesOf c) m = c.stop - bytesOf c := by
  obtain ⟨hsize, hoffset⟩ := h
  obtain ⟨hroom, hstop⟩ := hroomy
  unfold Chunk.stop at hstop ⊢
  unfold nano_malloc_usable_size CHUNK_OFFSET
  dsimp only
  obtain ⟨-, hptr⟩ | ⟨h8, hptr⟩ := bytesOf_cases halign
  · have hword : load m.mem (bytesOf c - 4) = c.size := by
      rw [hptr, Nat.add_sub_cancel]
      exact hsize
    rw [hword, long_of_lt (by omega), if_neg (by omega)]
    omega
  · have hword : load m.mem (bytesOf c - 4) = 2 ^ 32 - 4 := by
      rw [hptr]
      exact hoffset h8
    have hlong : long (2 ^ 32 - 4) = -4 := by decide
    have hback : (((bytesOf c - 4 : Nat) : Int) + -4).toNat = c.addr := by omega
    rw [hword, hlong, if_pos (by decide), hback, hsize]
    omega

/-- The pointer that is handed out leaves a trace from which the chunk is found. -/
theorem hand_headed (halign : x.addr % 4 = 0) (hroomy : Roomy x) (hsize : load m.mem x.addr = x.size) :
    ∃ mem, hand x.addr m = ({ m with mem := mem }, bytesOf x) ∧ Headed mem x ∧
      ∀ a b, b ≤ x.addr ∨ x.stop ≤ a → Same m.mem mem a b := by
  obtain ⟨hroom, hstop⟩ := hroomy
  unfold Chunk.stop at hstop ⊢
  have halignTo : ALIGN_TO (x.addr + CHUNK_OFFSET) MALLOC_ALIGN = bytesOf x := by
    unfold ALIGN_TO CHUNK_OFFSET MALLOC_ALIGN
    obtain ⟨h, hptr⟩ | ⟨h, hptr⟩ := bytesOf_cases halign
    · omega
    · omega
  unfold hand
  dsimp only
  rw [halignTo]
  unfold CHUNK_OFFSET
  obtain ⟨h4, hptr⟩ | ⟨h8, hptr⟩ := bytesOf_cases halign
  · rw [if_neg (by omega)]
    exact ⟨m.mem, rfl, ⟨hsize, fun h8 => by omega⟩, fun a b _ => Same.refl _ a b⟩
  · have hoff : bytesOf x - (x.addr + 4) = 4 := by omega
    rw [hoff, if_pos (by decide)]
    refine ⟨_, rfl, ⟨?_, fun _ => load_store_self _ _ (by decide)⟩, fun a b hab => same_store _ _ (by omega)⟩
    rw [load_store_other _ _ (by omega), hsize]

/-! ## requests -/

/-- the sizes that `nano_malloc` refuses -/
def refused (s : Nat) : Prop := alloc_size s ≥ MAX_ALLOC_SIZE ∨ alloc_size s < s

/-- A request that is not refused for its size finds a chunk, or the break can move. -/
def Room (l : Layout) (m : Arena) (s : Nat) : Prop :=
  refused s ∨ top l m + alloc_size s ≤ ram_end.toNat ∨
    (find m.mem (alloc_size s) turns m.free_list m.free_list).any fun f => f.2 != 0

instance (s : Nat) : Decidable (refused s) :=
  inferInstanceAs (Decidable (alloc_size s ≥ MAX_ALLOC_SIZE ∨ alloc_size s < s))

instance (l : Layout) (m : Arena) (s : Nat) : Decidable (Room l m s) :=
  inferInstanceAs (Decidable (refused s ∨ top l m + alloc_size s ≤ ram_end.toNat ∨
    (find m.mem (alloc_size s) turns m.free_list m.free_list).any fun f => f.2 != 0))

theorem alloc_size_spec (hs : s < 2 ^ 32) (h : ¬ refused s) :
    12 ≤ alloc_size s ∧ alloc_size s < 2 ^ 31 ∧ alloc_size s % 4 = 0 ∧ s + 8 ≤ alloc_size s := by
  unfold refused alloc_size ALIGN_TO MALLOC_MINCHUNK MAX_ALLOC_SIZE MALLOC_PADDING CHUNK_OFFSET MALLOC_MINSIZE
    CHUNK_ALIGN MALLOC_ALIGN at *
  omega

/-- what `_sbrk` does with the break at `v` -/
theorem sbrk_r_eq {v k : Nat} (hv : (if m.heap_end = 0 then l.end_ else m.heap_end).toNat = v) (hk : v + k < 2 ^ 32) :
    ∃ e : UInt32, e.toNat = v + k ∧ _sbrk_r l k m = ({ m with heap_end := e }, v) := by
  refine ⟨(if m.heap_end = 0 then l.end_ else m.heap_end) + UInt32.ofNat k, ?_, ?_⟩
  · rw [UInt32.toNat_add, hv, UInt32.toNat_ofNat_of_lt' (by show k < 2 ^ 32; omega)]
    omega
  · unfold _sbrk_r _sbrk
    dsimp only
    rw [hv]

theorem break_moved {e : UInt32} {v : Nat} (he : e.toNat = v) (hpos : 0 < v) :
    e ≠ 0 ∧ (if e = 0 then l.end_ else e).toNat = v := by
  have hne : e ≠ 0 := fun h0 => by
    rw [h0] at he
    have hz : (0 : UInt32).toNat = 0 := rfl
    omega
  refine ⟨hne, ?_⟩
  rw [if_neg hne]
  exact he

/-- The break moves by the size of the chunk, and at the first call also up to its alignment. -/
theorem sbrk_aligned_eq (h : Laid l m free used) (hfit : top l m + n ≤ ram_end.toNat) :
    ∃ e : UInt32, e.toNat = top l m + n ∧
      sbrk_aligned l n m = ({ m with sbrk_start := l.end_.toNat, heap_end := e }, top l m) := by
  obtain ⟨hend, hend', hpos, -, -⟩ := bottom_bounds l
  have hram : ram_end.toNat = 0x2000fffc := by decide
  have halign := h.aligned
  unfold sbrk_aligned
  dsimp only
  obtain ⟨hstart, hnull⟩ | ⟨hstart, hset⟩ := h.started
  · -- the first call: the break is at `end`
    have htop : top l m = bottom l := if_pos hnull
    rw [htop] at hfit halign ⊢
    have hv : (if m.heap_end = 0 then l.end_ else m.heap_end).toNat = l.end_.toNat := by rw [if_pos hnull]
    obtain ⟨e0, he0, hcall0⟩ := sbrk_r_eq hv (by omega : l.end_.toNat + 0 < 2 ^ 32)
    obtain ⟨-, hv0⟩ := break_moved (l := l) he0 (by omega)
    rw [if_pos hstart, hcall0]
    obtain ⟨e1, he1, hcall1⟩ := @sbrk_r_eq l { m with heap_end := e0, sbrk_start := l.end_.toNat } _ n hv0
      (by omega)
    obtain ⟨-, hv1⟩ := break_moved (l := l) he1 (by omega)
    dsimp only
    have hto : ALIGN_TO l.end_.toNat CHUNK_ALIGN = bottom l := rfl
    rw [hcall1, Nat.add_zero, if_neg (by unfold minusOne; omega), hto]
    by_cases hpad : bottom l = l.end_.toNat
    · rw [if_neg (by omega), hpad]
      exact ⟨e1, he1, rfl⟩
    · rw [if_pos hpad]
      obtain ⟨e2, he2, hcall2⟩ := @sbrk_r_eq l
        { m with heap_end := e1, sbrk_start := l.end_.toNat } _ (bottom l - l.end_.toNat) hv1 (by omega)
      rw [hcall2]
      dsimp only
      rw [if_neg (by unfold minusOne; omega)]
      exact ⟨e2, by omega, rfl⟩
  · -- afterwards the break stays aligned
    have htop : top l m = m.heap_end.toNat := if_neg hset
    rw [htop] at hfit halign ⊢
    have hge : 0 < m.heap_end.toNat := by
      by_contra h0
      exact hset (UInt32.toNat_inj.mp (by show _ = 0; omega))
    obtain ⟨-, hv⟩ := break_moved (l := l) (rfl : m.heap_end.toNat = _) hge
    obtain ⟨e, he, hcall⟩ := sbrk_r_eq hv (by omega : m.heap_end.toNat + n < 2 ^ 32)
    have hto : ALIGN_TO m.heap_end.toNat CHUNK_ALIGN = m.heap_end.toNat := by
      unfold ALIGN_TO CHUNK_ALIGN
      omega
    have hne : ¬ m.sbrk_start = 0 := by omega
    rw [if_neg hne, hcall]
    dsimp only
    rw [if_neg (by unfold minusOne; omega), hto, if_neg (by omega)]
    refine ⟨e, he, ?_⟩
    rw [hstart]

/-! ## the calls -/

/-- A chunk that has its place and its size is handed out. -/
theorem kept_hand (h : Laid l m free (x :: used)) (hheaded : ∀ c ∈ used, Headed m.mem c)
    (hsize : load m.mem x.addr = x.size) :
    ∃ mem, hand x.addr m = ({ m with mem := mem }, bytesOf x) ∧ Kept l { m with mem := mem } free (x :: used) ∧
      ∀ a b, b ≤ x.addr ∨ x.stop ≤ a → Same m.mem mem a b := by
  obtain ⟨hx, hused⟩ := List.forall_mem_cons.mp h.fit_used
  obtain ⟨hxused, -⟩ := List.pairwise_cons.mp h.apart_used
  have hxfree := h.apart x List.mem_cons_self
  obtain ⟨mem, hcall, hxheaded, hsame⟩ := @hand_headed m x hx.addr (hx.roomy h.inRam) hsize
  refine ⟨mem, hcall, ⟨h.same fun d hd => hsame _ _ (hxfree d hd).symm, List.forall_mem_cons.mpr ⟨hxheaded, fun c hc => ?_⟩⟩,
    hsame⟩
  exact (hheaded c hc).same (hused c hc).least (hsame _ _ (hxused c hc).symm)

/-- the chunk that `take` finds -/
theorem laid_take {m' : Arena} {free' : List Chunk} (h : Laid l m free used) (hmin : 12 ≤ n) (hn : n % 4 = 0)
    (htake : take n 12 free = some (x, free')) (hturned : Turned m m' free free') :
    Laid l m' free' (x :: used) := by
  obtain ⟨hxfit, hfit⟩ := take_all (fun c hc hle => hc.cut hn hmin hle) htake h.fit_free
  have htop : top l m' = top l m := by
    unfold top
    rw [hturned.heap_end]
  have hapart : ∀ c ∈ used, Pool.Apart c x ∧ ∀ d ∈ free', Pool.Apart c d := fun c hc =>
    apart_take htake (h.apart c hc)
  refine ⟨?_, ?_, ?_, hturned.linked, h.sorted.take htake, ?_, ?_, ?_, ?_, ?_⟩
  · rw [hturned.sbrk_start, hturned.heap_end]
    exact h.started
  · rw [htop]
    exact h.aligned
  · rw [htop]
    exact h.inRam
  · rw [htop]
    exact hfit
  · rw [htop]
    exact List.forall_mem_cons.mpr ⟨hxfit, h.fit_used⟩
  · exact List.pairwise_cons.mpr ⟨fun c hc => (hapart c hc).1.symm, h.apart_used⟩
  · exact List.forall_mem_cons.mpr ⟨take_apart h.sorted htake, fun c hc => (hapart c hc).2⟩
  · have htotal := total_take htake
    have hfills := h.fills
    rw [htop, total_cons]
    omega

/-- the chunk on top, when the break has moved -/
theorem laid_grow (h : Laid l m free used) (hmin : 12 ≤ n) (hn : n % 4 = 0) (hfit : top l m + n ≤ ram_end.toNat)
    {e : UInt32} (he : e.toNat = top l m + n) :
    Laid l { m with mem := store m.mem (top l m) n, sbrk_start := l.end_.toNat, heap_end := e } free
      (⟨top l m, n⟩ :: used) := by
  obtain ⟨-, hv⟩ := break_moved (l := l) he (by omega)
  obtain ⟨hne, -⟩ := break_moved (l := l) he (by omega)
  have halign := h.aligned
  have hfills := h.fills
  have htop : top l { m with mem := store m.mem (top l m) n, sbrk_start := l.end_.toNat, heap_end := e } =
      top l m + n := by
    show (if e = 0 then bottom l else e.toNat) = _
    rw [if_neg hne, he]
  have hbelow : ∀ c ∈ free ++ used, c.stop ≤ top l m := fun c hc => by
    obtain hc | hc := List.mem_append.mp hc
    · exact (h.fit_free c hc).upper
    · exact (h.fit_used c hc).upper
  refine ⟨Or.inr ⟨rfl, hne⟩, ?_, ?_, ?_, h.sorted, ?_, ?_, ?_, ?_, ?_⟩
  · rw [htop]
    omega
  · rw [htop]
    exact hfit
  · refine linked_same (fun d hd => same_store _ _ ?_) h.linked
    have hd' := hbelow d (List.mem_append_left _ hd)
    have hleast := (h.fit_free d hd).least
    unfold Chunk.stop at hd'
    omega
  · rw [htop]
    exact fun c hc => (h.fit_free c hc).raise (Nat.le_add_right _ _)
  · rw [htop]
    refine List.forall_mem_cons.mpr ⟨⟨?_, Nat.le_refl _, halign, hn, hmin⟩, fun c hc => ?_⟩
    · show bottom l ≤ top l m
      omega
    · exact (h.fit_used c hc).raise (Nat.le_add_right _ _)
  · exact List.pairwise_cons.mpr ⟨fun c hc => Or.inr (hbelow c (List.mem_append_right _ hc)), h.apart_used⟩
  · exact List.forall_mem_cons.mpr ⟨fun d hd => Or.inr (hbelow d (List.mem_append_left _ hd)), h.apart⟩
  · rw [htop, total_cons]
    show bottom l + total free + (n + total used) = _
    omega

theorem nano_malloc_refused (h : refused s) : nano_malloc l s m = some ({ m with _errno := ENOMEM }, 0) := if_pos h

theorem nano_malloc_eq (h : ¬ refused s) : nano_malloc l s m =
    (find m.mem (alloc_size s) turns m.free_list m.free_list).map fun f =>
      if f.2 = 0 then
        if (sbrk_aligned l (alloc_size s) m).2 = minusOne then
          ({ (sbrk_aligned l (alloc_size s) m).1 with _errno := ENOMEM }, 0)
        else hand (sbrk_aligned l (alloc_size s) m).2 { (sbrk_aligned l (alloc_size s) m).1 with
          mem := store (sbrk_aligned l (alloc_size s) m).1.mem (sbrk_aligned l (alloc_size s) m).2 (alloc_size s) }
      else hand (carve (alloc_size s) f.1 f.2 m).2 (carve (alloc_size s) f.1 f.2 m).1 := if_neg h

theorem nano_malloc_found {p r : Nat} (h : ¬ refused s)
    (hfind : find m.mem (alloc_size s) turns m.free_list m.free_list = some (p, r)) (hr : r ≠ 0) :
    nano_malloc l s m = some (hand (carve (alloc_size s) p r m).2 (carve (alloc_size s) p r m).1) := by
  rw [nano_malloc_eq h, hfind]
  exact congrArg some (if_neg hr)

theorem nano_malloc_grown {p r : Nat} (h : ¬ refused s)
    (hfind : find m.mem (alloc_size s) turns m.free_list m.free_list = some (p, 0))
    (hcall : sbrk_aligned l (alloc_size s) m = (m', r)) (hr : r ≠ minusOne) :
    nano_malloc l s m = some (hand r { m' with mem := store m'.mem r (alloc_size s) }) := by
  rw [nano_malloc_eq h, hfind, hcall, Option.map_some, if_pos rfl, if_neg hr]

/-- `nano_malloc` gives a new chunk, or refuses the size; the chunks of the others stay as they are. -/
theorem malloc_kept (h : Kept l m free used) (hs : s < 2 ^ 32) (hroom : Room l m s) :
    (refused s ∧ nano_malloc l s m = some ({ m with _errno := ENOMEM }, 0)) ∨
      ∃ m' x free', nano_malloc l s m = some (m', bytesOf x) ∧ s + 8 ≤ x.size ∧ Kept l m' free' (x :: used) ∧
        ∀ c ∈ used, Same m.mem m'.mem c.addr c.stop := by
  by_cases hrefused : refused s
  · exact Or.inl ⟨hrefused, nano_malloc_refused hrefused⟩
  obtain ⟨hmin, hmax, halign, hfits⟩ := alloc_size_spec hs hrefused
  obtain ⟨hlaid, hheaded⟩ := h
  obtain ⟨hroomy, -⟩ := hlaid.roomy
  right
  obtain ⟨hnone, p, hfind⟩ | ⟨x, free', p, r, htake, hfind, hr, haddr, hsize, hturned⟩ :=
    find_take hmin hmax hlaid.linked hlaid.sorted hroomy hlaid.short
  · -- no chunk is big enough: the break moves
    have hmove : top l m + alloc_size s ≤ ram_end.toNat := by
      obtain hr | hmove | hfound := hroom
      · exact absurd hr hrefused
      · exact hmove
      · rw [hfind] at hfound
        cases hfound
    obtain ⟨e, he, hcall⟩ := sbrk_aligned_eq hlaid hmove
    have hgrown := laid_grow hlaid hmin halign hmove he
    have hbelow : ∀ c ∈ used, c.stop ≤ top l m := fun c hc => (hlaid.fit_used c hc).upper
    have hsame : ∀ c ∈ used, Same m.mem (store m.mem (top l m) (alloc_size s)) c.addr c.stop := fun c hc =>
      same_store _ _ (Or.inl (hbelow c hc))
    obtain ⟨mem, hhand, hkept, hframe⟩ := kept_hand hgrown
      (fun c hc => (hheaded c hc).same (hlaid.fit_used c hc).least (hsame c hc)) (load_store_self _ _ (by omega))
    have hram : ram_end.toNat = 0x2000fffc := by decide
    have hgiven := nano_malloc_grown hrefused hfind hcall (by unfold minusOne; omega)
    exact ⟨_, ⟨top l m, alloc_size s⟩, free, hgiven.trans (congrArg some hhand), hfits, hkept, fun c hc =>
      (hsame c hc).trans (hframe _ _ (Or.inl (hbelow c hc)))⟩
  · have hlaid' := laid_take hlaid hmin halign htake hturned
    have hsame : ∀ c ∈ used, Same m.mem (carve (alloc_size s) p r m).1.mem c.addr c.stop := fun c hc =>
      hturned.same _ _ (hlaid.apart c hc)
    obtain ⟨hxused, -⟩ := List.pairwise_cons.mp hlaid'.apart_used
    obtain ⟨mem, hhand, hkept, hframe⟩ := kept_hand hlaid'
      (fun c hc => (hheaded c hc).same (hlaid.fit_used c hc).least (hsame c hc)) hsize
    have hxsize := take_size htake
    have hgiven := nano_malloc_found (l := l) hrefused hfind hr
    rw [haddr] at hgiven
    exact ⟨_, x, free', hgiven.trans (congrArg some hhand), by omega, hkept, fun c hc =>
      (hsame c hc).trans (hframe _ _ (hxused c hc).symm)⟩

/-- `nano_free` puts the chunk back; the chunks of the others stay as they are. -/
theorem free_kept (h : Kept l m free (x :: used)) :
    ∃ m', nano_free (bytesOf x) m = some m' ∧ Kept l m' (put x free) used ∧ m'.heap_end = m.heap_end ∧
      ∀ c ∈ used, Same m.mem m'.mem c.addr c.stop := by
  obtain ⟨hlaid, hheaded⟩ := h
  obtain ⟨hxfit, hused⟩ := List.forall_mem_cons.mp hlaid.fit_used
  obtain ⟨hxused, happ⟩ := List.pairwise_cons.mp hlaid.apart_used
  obtain ⟨hxfree, hap⟩ := List.forall_mem_cons.mp hlaid.apart
  obtain ⟨hxheaded, hrest⟩ := List.forall_mem_cons.mp hheaded
  have hxroomy := hxfit.roomy hlaid.inRam
  obtain ⟨-, -, hlow, -, -⟩ := bottom_bounds l
  have hxpos : 0 < x.addr := by
    have := hxfit.lower
    omega
  have hptr : bytesOf x ≠ 0 := by
    obtain ⟨-, hb⟩ | ⟨-, hb⟩ := bytesOf_cases hxfit.addr <;> omega
  obtain ⟨m', hcall, hturned⟩ := free_put hlaid.linked hlaid.sorted (List.forall_mem_cons.mpr ⟨hxroomy, hlaid.roomy.1⟩)
    hlaid.short hptr (hxheaded.chunk hxfit.addr hxroomy) hxpos hxheaded.1 hxfree
  have hsame : ∀ c ∈ used, Same m.mem m'.mem c.addr c.stop := fun c hc =>
    hturned.same _ _ (List.forall_mem_cons.mpr ⟨(hxused c hc).symm, hap c hc⟩)
  have htop : top l m' = top l m := by
    unfold top
    rw [hturned.heap_end]
  refine ⟨m', hcall, ⟨⟨?_, ?_, ?_, hturned.linked, ?_, ?_, ?_, happ, ?_, ?_⟩, fun c hc =>
    (hrest c hc).same (hused c hc).least (hsame c hc)⟩, hturned.heap_end, hsame⟩
  · rw [hturned.sbrk_start, hturned.heap_end]
    exact hlaid.started
  · rw [htop]
    exact hlaid.aligned
  · rw [htop]
    exact hlaid.inRam
  · refine hlaid.sorted.put ?_ (fun c hc => ?_) hxfree
    · have := hxfit.least
      omega
    · have := (hlaid.fit_free c hc).least
      omega
  · rw [htop]
    exact put_all (fun c d hc hd hadj => hc.merge hd hadj) hxfit hlaid.fit_free
  · rw [htop]
    exact hused
  · intro c hc
    refine apart_put ?_ (hxused c hc).symm (hap c hc)
    have := (hused c hc).least
    omega
  · have hfills := hlaid.fills
    rw [total_cons] at hfills
    rw [htop, total_put]
    omega

end

end Interface
end Pharoah
