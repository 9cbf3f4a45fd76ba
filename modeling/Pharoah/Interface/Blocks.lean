import Pharoah.Interface.Chunks

/-!
# Runs of the allocator

A caller allocates, frees and writes in any order.  Beside the memory the state holds what the caller has a
right to: its blocks, and of each the bytes that it has written.  These follow from the calls and the pointers
they have returned; the memory is not looked at.

* `Block`, `Machine`   a block, and the arena with the blocks;
* `step`               one call, or one byte written;
* `Legal`              the caller frees only what it has, writes only there, and there is room in the RAM;
* `Sound`              the blocks are in chunks of their own, and hold what was written;
* `sound_step`         a legal call returns, and keeps this;
* `blocks_apart`       **in every legal run the blocks are aligned, in the heap and apart**;
* `blocks_keep`        **in every legal run each block holds what was written to it**;
* `blocks_account`     **`nano_mallinfo` reports what the break has moved by, and what of it is free and in use**;
* `heap_whole`         **when all is freed the heap is one chunk again**.
-/

namespace Pharoah
namespace Interface

open Bytes Pool Lts

/-- A block of `asked` bytes at `ptr`, with what is known of them. -/
structure Block where
  ptr : Nat
  asked : Nat
  data : Nat → Option UInt8

structure Machine where
  arena : Arena
  live : List Block

/-- before the first call -/
def Machine.start (mem : Mem) : Machine := ⟨Arena.init mem, []⟩

inductive Act where
  | malloc (s : UInt32)
  | calloc (n elem : UInt32)
  | realloc (ptr : Nat) (size : UInt32)
  | free (ptr : Nat)
  | write (a : Nat) (v : UInt8)

/-- a new block, unless the pointer is NULL -/
def give (ptr asked : Nat) (data : Nat → Option UInt8) (live : List Block) : List Block :=
  if ptr = 0 then live else ⟨ptr, asked, data⟩ :: live

def drop (ptr : Nat) (live : List Block) : List Block := live.eraseP fun b => b.ptr == ptr

/-- what is known of the block at `ptr` -/
def known (ptr : Nat) (live : List Block) : Nat → Option UInt8 :=
  ((live.find? fun b => b.ptr == ptr).map Block.data).getD fun _ => none

/-- after `realloc(ptr, size)` has returned `r` -/
def moved (ptr size r : Nat) (live : List Block) : List Block :=
  if ptr = 0 then give r size (fun _ => none) live
  else if size = 0 then drop ptr live
  else if r = 0 then live
  else ⟨r, size, fun i => if i < size then known ptr live i else none⟩ :: drop ptr live

def Block.wrote (a : Nat) (v : UInt8) (b : Block) : Block :=
  if b.ptr ≤ a ∧ a < b.ptr + b.asked then { b with data := fun i => if i = a - b.ptr then some v else b.data i } else b

/-- The size that `calloc` asks `malloc` for.  It is the product only below 2^32; a larger one is cut, and the block is
then smaller than the caller meant. -/
def product (n elem : UInt32) : Nat := n.toNat * elem.toNat % 2 ^ 32

variable (l : Layout)

/-- One call, or one byte written; `none` is a call that does not return. -/
def Machine.step (t : Machine) : Act → Option Machine
  | .malloc s => (nano_malloc l s.toNat t.arena).map fun r => ⟨r.1, give r.2 s.toNat (fun _ => none) t.live⟩
  | .calloc n elem => (nano_calloc l n.toNat elem.toNat t.arena).map fun r =>
      ⟨r.1, give r.2 (product n elem) (fun i => if i < product n elem then some 0 else none) t.live⟩
  | .realloc ptr size => (nano_realloc l ptr size.toNat t.arena).map fun r => ⟨r.1, moved ptr size.toNat r.2 t.live⟩
  | .free ptr => (nano_free ptr t.arena).map fun m => ⟨m, drop ptr t.live⟩
  | .write a v => some ⟨{ t.arena with mem := fun b => if b = a then v else t.arena.mem b }, t.live.map (Block.wrote a v)⟩

/-- NULL, or a block of the caller -/
def Machine.Owns (t : Machine) (ptr : Nat) : Prop := ptr = 0 ∨ ∃ b ∈ t.live, b.ptr = ptr

/-- The caller frees what it has and writes there, and there is room for what `malloc` is asked for: for a `calloc` that
is `product`, also where this is not the product of the two sizes. -/
def Machine.Legal (t : Machine) : Act → Prop
  | .malloc s => Room l t.arena s.toNat
  | .calloc n elem => Room l t.arena (product n elem)
  | .realloc ptr size => t.Owns ptr ∧
      (ptr = 0 ∨ size ≠ 0 ∧ nano_malloc_usable_size ptr t.arena < size.toNat → Room l t.arena size.toNat)
  | .free ptr => t.Owns ptr
  | .write a _ => ∃ b ∈ t.live, b.ptr ≤ a ∧ a < b.ptr + b.asked

instance (t : Machine) (ptr : Nat) : Decidable (t.Owns ptr) :=
  inferInstanceAs (Decidable (ptr = 0 ∨ ∃ b ∈ t.live, b.ptr = ptr))

instance (t : Machine) : ∀ act, Decidable (t.Legal l act)
  | .malloc s => inferInstanceAs (Decidable (Room l t.arena s.toNat))
  | .calloc n elem => inferInstanceAs (Decidable (Room l t.arena (product n elem)))
  | .realloc ptr size => inferInstanceAs (Decidable (t.Owns ptr ∧
      (ptr = 0 ∨ size ≠ 0 ∧ nano_malloc_usable_size ptr t.arena < size.toNat → Room l t.arena size.toNat)))
  | .free ptr => inferInstanceAs (Decidable (t.Owns ptr))
  | .write a _ => inferInstanceAs (Decidable (∃ b ∈ t.live, b.ptr ≤ a ∧ a < b.ptr + b.asked))

/-- The block is in the chunk, and holds what is known of it. -/
structure Holds (mem : Mem) (b : Block) (c : Chunk) : Prop where
  ptr : b.ptr = bytesOf c
  fits : b.ptr + b.asked ≤ c.stop
  data : ∀ i v, b.data i = some v → i < b.asked ∧ mem (b.ptr + i) = v

/-- Every block is in a chunk of its own. -/
def Machine.Sound (t : Machine) : Prop :=
  ∃ (free : List Chunk) (bs : List (Block × Chunk)), t.live = bs.map Prod.fst ∧
    Kept l t.arena free (bs.map Prod.snd) ∧ ∀ p ∈ bs, Holds t.arena.mem p.1 p.2

/-- The memory holds what the caller has written. -/
def Machine.Keeps (t : Machine) : Prop := ∀ b ∈ t.live, ∀ i v, b.data i = some v → t.arena.mem (b.ptr + i) = v

/-- the sizes of the chunks of the blocks -/
def Machine.taken (t : Machine) : Nat :=
  (t.live.map fun b => load t.arena.mem (get_chunk_from_ptr t.arena.mem b.ptr)).sum

/-- the break, which is at `end` until `_sbrk` is first called -/
def brk (m : Arena) : Nat := (if m.heap_end = 0 then l.end_ else m.heap_end).toNat

/-- The report says how far the break has moved and what the chunks of the free list have; what is in use is the rest,
and it is what the chunks of the blocks have, but for what was lost to the alignment of `end`. -/
structure Machine.Accounts (t : Machine) (info : Mallinfo) : Prop where
  moved : l.end_.toNat + info.arena = brk l t.arena
  free : ∃ cs, Linked t.arena.mem t.arena.free_list cs ∧ info.fordblks = total cs
  whole : info.arena = info.fordblks + info.uordblks
  least : t.taken ≤ info.uordblks
  most : info.uordblks < t.taken + 4

/-- The free list is the heap in one chunk, and what fits into it is taken from it. -/
structure Machine.Whole (t : Machine) : Prop where
  one : Linked t.arena.mem t.arena.free_list
    (if bottom l = top l t.arena then [] else [⟨bottom l, top l t.arena - bottom l⟩])
  serves : ∀ s : UInt32, ¬ refused s.toNat → alloc_size s.toNat ≤ top l t.arena - bottom l →
    ∃ r, nano_malloc l s.toNat t.arena = some r ∧ r.2 ≠ 0 ∧ r.1.heap_end = t.arena.heap_end

section
variable {l} {m m' : Arena} {t : Machine} {free used : List Chunk} {bs : List (Block × Chunk)} {b : Block} {c x : Chunk}
  {mem : Mem} {s ptr : Nat}

theorem Fit.bytes {lo hi : Nat} (h : Fit lo hi c) : c.addr + 4 ≤ bytesOf c ∧ bytesOf c ≤ c.addr + 8 ∧ bytesOf c % 8 = 0 ∧
    bytesOf c < c.stop := by
  have hleast := h.least
  unfold Chunk.stop
  obtain ⟨h8, hb⟩ | ⟨h8, hb⟩ := bytesOf_cases h.addr <;> omega

/-- What is written to the bytes of a used chunk. -/
theorem Kept.wrote (h : Kept l m free used) (hx : x ∈ used)
    (hsame : ∀ a b, b ≤ bytesOf x ∨ x.stop ≤ a → Same m.mem mem a b) : Kept l { m with mem := mem } free used := by
  obtain ⟨hlaid, hheaded⟩ := h
  obtain ⟨hge, -, -, -⟩ := (hlaid.fit_used x hx).bytes
  have hother : ∀ d, Pool.Apart x d → Same m.mem mem d.addr d.stop := fun d hd => by
    refine hsame _ _ ?_
    obtain hd | hd := hd
    · exact Or.inr hd
    · exact Or.inl (by omega)
  refine ⟨hlaid.same fun d hd => hother d (hlaid.apart x hx d hd), fun c hc => ?_⟩
  have hleast := (hlaid.fit_used c hc).least
  by_cases hcx : c = x
  · -- the header of `x` stands before its bytes
    subst hcx
    obtain ⟨hsize, hoffset⟩ := hheaded c hc
    refine ⟨?_, fun h8 => ?_⟩
    · rw [← hsize]
      exact (hsame _ _ (Or.inl hge)).load
    · rw [← hoffset h8]
      have hb : bytesOf c = c.addr + 8 := if_neg (by omega)
      exact (hsame _ _ (Or.inl (by omega))).load
  · exact (hheaded c hc).same hleast
      (hother c (hlaid.apart_used.forall hx hc fun he => hcx he.symm))

theorem Holds.same {lo hi : Nat} (h : Holds m.mem b c) (hfit : Fit lo hi c) (hsame : Same m.mem mem c.addr c.stop) :
    Holds mem b c := by
  obtain ⟨hptr, hfits, hdata⟩ := h
  refine ⟨hptr, hfits, fun i v hi => ?_⟩
  obtain ⟨hlt, hv⟩ := hdata i v hi
  have hge := hfit.bytes.1
  refine ⟨hlt, ?_⟩
  rw [← hv]
  exact hsame _ (by omega) (by omega)

/-! ## the calls -/

/-- the errno is not part of it -/
theorem Kept.errno (h : Kept l m free used) (e : Nat) : Kept l { m with _errno := e } free used :=
  ⟨⟨h.started, h.aligned, h.inRam, h.linked, h.sorted, h.fit_free, h.fit_used, h.apart_used, h.apart, h.fills⟩,
    h.headed⟩

/-- `malloc` refuses the size, or gives a chunk that is no block's yet. -/
theorem malloc_holds (h : Kept l m free (bs.map Prod.snd)) (hb : ∀ p ∈ bs, Holds m.mem p.1 p.2) (hs : s < 2 ^ 32)
    (hroom : Room l m s) :
    nano_malloc l s m = some ({ m with _errno := ENOMEM }, 0) ∨
      ∃ m' x free', nano_malloc l s m = some (m', bytesOf x) ∧ s + 8 ≤ x.size ∧
        Kept l m' free' (x :: bs.map Prod.snd) ∧ ∀ p ∈ bs, Holds m'.mem p.1 p.2 := by
  obtain ⟨-, hcall⟩ | ⟨m', x, free', hcall, hsize, hkept, hsame⟩ := malloc_kept h hs hroom
  · exact Or.inl hcall
  · refine Or.inr ⟨m', x, free', hcall, hsize, hkept, fun p hp => ?_⟩
    have hmem : p.2 ∈ bs.map Prod.snd := List.mem_map_of_mem hp
    exact (hb p hp).same (h.fit_used p.2 hmem) (hsame p.2 hmem)

/-- A new block at the pointer into a chunk. -/
theorem sound_give {data : Nat → Option UInt8} (hlive : t.live = bs.map Prod.fst) (hb : ∀ p ∈ bs, Holds m.mem p.1 p.2)
    (hkept : Kept l m free (x :: bs.map Prod.snd)) (hsize : s + 8 ≤ x.size)
    (hdata : ∀ i v, data i = some v → i < s ∧ m.mem (bytesOf x + i) = v) :
    Machine.Sound l ⟨m, give (bytesOf x) s data t.live⟩ := by
  have hxfit := hkept.fit_used x List.mem_cons_self
  obtain ⟨hlo, hhi, -, -⟩ := hxfit.bytes
  refine ⟨free, (⟨bytesOf x, s, data⟩, x) :: bs, ?_, hkept, List.forall_mem_cons.mpr ⟨⟨rfl, ?_, hdata⟩, hb⟩⟩
  · unfold give
    rw [if_neg (by omega), hlive]
    rfl
  · show bytesOf x + s ≤ x.stop
    unfold Chunk.stop
    omega

theorem sound_malloc (h : t.Sound l) (hs : s < 2 ^ 32) (hroom : Room l t.arena s) :
    ∃ r, nano_malloc l s t.arena = some r ∧ Machine.Sound l ⟨r.1, give r.2 s (fun _ => none) t.live⟩ := by
  obtain ⟨free, bs, hlive, hkept, hb⟩ := h
  obtain hcall | ⟨m', x, free', hcall, hsize, hkept', hb'⟩ := malloc_holds hkept hb hs hroom
  · exact ⟨_, hcall, free, bs, hlive, hkept.errno ENOMEM, hb⟩
  · exact ⟨_, hcall, sound_give hlive hb' hkept' hsize fun i v hi => by cases hi⟩

theorem nano_calloc_eq {n elem p : Nat} (h : nano_malloc l (n * elem % 2 ^ 32) m = some (m', p)) :
    nano_calloc l n elem m =
      some (if p ≠ 0 then ({ m' with mem := fill m'.mem p (n * elem % 2 ^ 32) 0 }, p) else (m', p)) := by
  unfold nano_calloc
  rw [h]
  show (if p ≠ 0 then some _ else some _) = _
  split <;> rfl

theorem fill_at {m : Mem} {dst n i : Nat} {v : UInt8} (h : i < n) : fill m dst n v (dst + i) = v :=
  if_pos ⟨by omega, by omega⟩

theorem sound_calloc (h : t.Sound l) (n elem : UInt32) (hroom : Room l t.arena (product n elem)) :
    ∃ r, nano_calloc l n.toNat elem.toNat t.arena = some r ∧
      Machine.Sound l ⟨r.1, give r.2 (product n elem) (fun i => if i < product n elem then some 0 else none) t.live⟩ := by
  obtain ⟨free, bs, hlive, hkept, hb⟩ := h
  have hs : product n elem < 2 ^ 32 := Nat.mod_lt _ (Nat.two_pow_pos 32)
  obtain hcall | ⟨m', x, free', hcall, hsize, hkept', hb'⟩ := malloc_holds hkept hb hs hroom
  · exact ⟨_, nano_calloc_eq hcall, free, bs, hlive, hkept.errno ENOMEM, hb⟩
  · have hxfit := hkept'.fit_used x List.mem_cons_self
    obtain ⟨hlo, hhi, -, -⟩ := hxfit.bytes
    have hne : bytesOf x ≠ 0 := by omega
    refine ⟨_, nano_calloc_eq hcall, ?_⟩
    rw [if_pos hne]
    have hsame : ∀ a b, b ≤ bytesOf x ∨ x.stop ≤ a →
        Same m'.mem (fill m'.mem (bytesOf x) (product n elem) 0) a b := fun a b hab => by
      unfold Chunk.stop at hab
      exact same_fill _ (by omega) _
    refine sound_give hlive (fun p hp => ?_) (hkept'.wrote List.mem_cons_self hsame) hsize fun i v hi => ?_
    · have hmem : p.2 ∈ bs.map Prod.snd := List.mem_map_of_mem hp
      have hapart := (List.pairwise_cons.mp hkept'.apart_used).1 p.2 hmem
      refine (hb' p hp).same (hkept'.fit_used p.2 (List.mem_cons_of_mem _ hmem)) (hsame _ _ ?_)
      obtain hle | hle := hapart
      · exact Or.inr hle
      · exact Or.inl (by omega)
    · split at hi
      · next hlt =>
        cases hi
        exact ⟨hlt, fill_at hlt⟩
      · cases hi

/-- the block at a pointer, and the others -/
theorem drop_split (h : ∃ b ∈ bs.map Prod.fst, b.ptr = ptr) : ∃ bs1 q bs2, bs = bs1 ++ q :: bs2 ∧ q.1.ptr = ptr ∧
    drop ptr (bs.map Prod.fst) = (bs1 ++ bs2).map Prod.fst ∧ known ptr (bs.map Prod.fst) = q.1.data := by
  induction bs with
  | nil =>
    obtain ⟨b, hb, -⟩ := h
    cases hb
  | cons q bs ih =>
    by_cases hq : q.1.ptr = ptr
    · refine ⟨[], q, bs, rfl, hq, ?_, ?_⟩
      · show List.eraseP _ (q.1 :: bs.map Prod.fst) = _
        rw [List.eraseP_cons_of_pos (by simpa using hq)]
        rfl
      · show ((List.find? _ (q.1 :: bs.map Prod.fst)).map Block.data).getD _ = _
        rw [List.find?_cons_of_pos (by simpa using hq)]
        rfl
    · have hrest : ∃ b ∈ bs.map Prod.fst, b.ptr = ptr := by
        obtain ⟨b, hb, hptr⟩ := h
        obtain rfl | hb := List.mem_cons.mp hb
        · exact absurd hptr hq
        · exact ⟨b, hb, hptr⟩
      obtain ⟨bs1, r, bs2, hbs, hr, hdrop, hknown⟩ := ih hrest
      refine ⟨q :: bs1, r, bs2, by rw [hbs]; rfl, hr, ?_, ?_⟩
      · show List.eraseP _ (q.1 :: bs.map Prod.fst) = _
        rw [List.eraseP_cons_of_neg (by simpa using hq)]
        exact congrArg (q.1 :: ·) hdrop
      · show ((List.find? _ (q.1 :: bs.map Prod.fst)).map Block.data).getD _ = _
        rw [List.find?_cons_of_neg (by simpa using hq)]
        exact hknown

theorem mem_others {bs1 bs2 : List (Block × Chunk)} {p q : Block × Chunk} (hp : p ∈ bs1 ++ bs2) :
    p ∈ bs1 ++ q :: bs2 := (List.sublist_cons_self q bs2).append_left bs1 |>.subset hp

/-- The chunk of the block that is given back comes first. -/
theorem kept_front {bs1 bs2 : List (Block × Chunk)} {q : Block × Chunk} {cs : List Chunk}
    (h : Kept l m free (cs ++ (bs1 ++ q :: bs2).map Prod.snd)) :
    Kept l m free (q.2 :: (cs ++ (bs1 ++ bs2).map Prod.snd)) := by
  refine h.perm ?_
  rw [List.map_append, List.map_cons, List.map_append, ← List.append_assoc, ← List.append_assoc]
  exact List.perm_middle

/-- No block is at NULL. -/
theorem drop_null (hkept : Kept l m free (bs.map Prod.snd)) (hb : ∀ p ∈ bs, Holds mem p.1 p.2) :
    drop 0 (bs.map Prod.fst) = bs.map Prod.fst := by
  refine List.eraseP_of_forall_not fun b hmem => ?_
  obtain ⟨p, hp, rfl⟩ := List.mem_map.mp hmem
  have hfit := hkept.fit_used p.2 (List.mem_map_of_mem hp)
  have hne : p.1.ptr ≠ 0 := by
    rw [(hb p hp).ptr]
    have hge := hfit.bytes.1
    omega
  simpa using hne

theorem sound_free (h : t.Sound l) (howns : t.Owns ptr) :
    ∃ m, nano_free ptr t.arena = some m ∧ Machine.Sound l ⟨m, drop ptr t.live⟩ := by
  obtain ⟨free, bs, hlive, hkept, hb⟩ := h
  unfold Machine.Owns at howns
  rw [hlive] at howns ⊢
  obtain rfl | hown := howns
  · rw [drop_null hkept hb]
    exact ⟨t.arena, rfl, free, bs, rfl, hkept, hb⟩
  · obtain ⟨bs1, q, bs2, rfl, rfl, hdrop, -⟩ := drop_split hown
    have hq : q.1.ptr = bytesOf q.2 := (hb q (by simp)).ptr
    obtain ⟨m', hcall, hkept', -, hsame⟩ := free_kept (@kept_front l _ _ bs1 bs2 q [] hkept)
    rw [hq] at hdrop ⊢
    refine ⟨m', hcall, put q.2 free, bs1 ++ bs2, hdrop, hkept', fun p hp => ?_⟩
    have hmem : p.2 ∈ (bs1 ++ bs2).map Prod.snd := List.mem_map_of_mem hp
    exact (hb p (mem_others hp)).same (hkept'.fit_used p.2 hmem) (hsame p.2 hmem)

theorem nano_realloc_small {size : Nat} (hptr : ptr ≠ 0) (hsize : size ≠ 0)
    (h : size ≤ nano_malloc_usable_size ptr m) : nano_realloc l ptr size m = some (m, ptr) := by
  unfold nano_realloc
  rw [if_neg hptr, if_neg hsize, if_pos h]

theorem nano_realloc_refused {size : Nat} (hptr : ptr ≠ 0) (hsize : size ≠ 0)
    (h : nano_malloc_usable_size ptr m < size) (hcall : nano_malloc l size m = some (m', 0)) :
    nano_realloc l ptr size m = some (m', 0) := by
  unfold nano_realloc
  rw [if_neg hptr, if_neg hsize, if_neg (Nat.not_le_of_lt h), hcall]
  rfl

theorem nano_realloc_moved {size p : Nat} {m'' : Arena} (hptr : ptr ≠ 0) (hsize : size ≠ 0)
    (h : nano_malloc_usable_size ptr m < size) (hcall : nano_malloc l size m = some (m', p)) (hp : p ≠ 0)
    (hfree : nano_free ptr { m' with mem := copy m'.mem p ptr size } = some m'') :
    nano_realloc l ptr size m = some (m'', p) := by
  unfold nano_realloc
  rw [if_neg hptr, if_neg hsize, if_neg (Nat.not_le_of_lt h), hcall]
  show (if p ≠ 0 then _ else _) = _
  rw [if_pos hp, hfree]
  rfl

theorem moved_eq {size r : Nat} {live : List Block} (hptr : ptr ≠ 0) (hsize : size ≠ 0) (hr : r ≠ 0) :
    moved ptr size r live = ⟨r, size, fun i => if i < size then known ptr live i else none⟩ :: drop ptr live := by
  unfold moved
  rw [if_neg hptr, if_neg hsize, if_neg hr]

/-- The block stays where it is. -/
theorem sound_resize {bs1 bs2 : List (Block × Chunk)} {q : Block × Chunk}
    (hkept : Kept l m free ((bs1 ++ q :: bs2).map Prod.snd)) (hb : ∀ p ∈ bs1 ++ q :: bs2, Holds m.mem p.1 p.2)
    (hle : s ≤ nano_malloc_usable_size q.1.ptr m) :
    Machine.Sound l ⟨m, ⟨q.1.ptr, s, fun i => if i < s then q.1.data i else none⟩ :: (bs1 ++ bs2).map Prod.fst⟩ := by
  have hmem : q.2 ∈ (bs1 ++ q :: bs2).map Prod.snd := by simp
  have hfit := hkept.fit_used q.2 hmem
  obtain ⟨hptr, -, hdata⟩ := hb q (by simp)
  rw [hptr, (hkept.headed q.2 hmem).usable hfit.addr (hkept.roomy.2 q.2 hmem)] at hle
  have hbytes := hfit.bytes.2.2.2
  refine ⟨free, (⟨q.1.ptr, s, fun i => if i < s then q.1.data i else none⟩, q.2) :: (bs1 ++ bs2), rfl,
    @kept_front l _ _ bs1 bs2 q [] hkept, List.forall_mem_cons.mpr ⟨⟨hptr, ?_, fun i v hi => ?_⟩, fun p hp => hb p (mem_others hp)⟩⟩
  · show q.1.ptr + s ≤ q.2.stop
    omega
  · dsimp only at hi ⊢
    split at hi
    · next hlt => exact ⟨hlt, (hdata i v hi).2⟩
    · cases hi

/-- The block moves to a new chunk, with its bytes. -/
theorem sound_move {bs1 bs2 : List (Block × Chunk)} {q : Block × Chunk}
    (hkept : Kept l m free (x :: (bs1 ++ q :: bs2).map Prod.snd)) (hb : ∀ p ∈ bs1 ++ q :: bs2, Holds m.mem p.1 p.2)
    (hsize : s + 8 ≤ x.size) :
    ∃ m', nano_free q.1.ptr { m with mem := copy m.mem (bytesOf x) q.1.ptr s } = some m' ∧
      Machine.Sound l
        ⟨m', ⟨bytesOf x, s, fun i => if i < s then q.1.data i else none⟩ :: (bs1 ++ bs2).map Prod.fst⟩ := by
  have hxfit := hkept.fit_used x List.mem_cons_self
  obtain ⟨hlo, hhi, -, hend⟩ := hxfit.bytes
  have hsame : ∀ a b, b ≤ bytesOf x ∨ x.stop ≤ a → Same m.mem (copy m.mem (bytesOf x) q.1.ptr s) a b := fun a b hab => by
    unfold Chunk.stop at hab
    exact same_copy _ (by omega) _
  have hcopied := @Kept.wrote l m free _ x (copy m.mem (bytesOf x) q.1.ptr s) hkept List.mem_cons_self hsame
  obtain ⟨hptr, hfits, hdata⟩ := hb q (by simp)
  have hqmem : q.2 ∈ (bs1 ++ q :: bs2).map Prod.snd := by simp
  have hxapart := (List.pairwise_cons.mp hkept.apart_used).1
  have hqbytes := (hkept.fit_used q.2 (List.mem_cons_of_mem _ hqmem)).bytes
  obtain ⟨m', hcall, hkept', -, hframe⟩ := free_kept (@kept_front l _ _ bs1 bs2 q [x] hcopied)
  rw [hptr]
  rw [hptr] at hcall hframe hsame hfits hdata
  refine ⟨m', hcall, put q.2 free, (⟨bytesOf x, s, fun i => if i < s then q.1.data i else none⟩, x) :: (bs1 ++ bs2), rfl,
    hkept', List.forall_mem_cons.mpr ⟨⟨rfl, ?_, fun i v hi => ?_⟩, fun p hp => ?_⟩⟩
  · show bytesOf x + s ≤ x.stop
    unfold Chunk.stop
    omega
  · dsimp only at hi ⊢
    split at hi
    · next hlt =>
      obtain ⟨hasked, hv⟩ := hdata i v hi
      -- what is read has not been overwritten: the two chunks are apart
      have harrives : copy m.mem (bytesOf x) (bytesOf q.2) s (bytesOf x + i) = m.mem (bytesOf q.2 + i) := by
        refine copy_at m.mem hlt ?_
        obtain hle | hle := hxapart q.2 hqmem
        · exact Or.inr (by omega)
        · exact Or.inl (by omega)
      refine ⟨hlt, ?_⟩
      rw [hframe x (by simp) (bytesOf x + i) (by omega) (by unfold Chunk.stop; omega)]
      show copy m.mem (bytesOf x) (bytesOf q.2) s (bytesOf x + i) = v
      rw [harrives, hv]
    · cases hi
  · have hp' := mem_others (q := q) hp
    have hmem : p.2 ∈ (bs1 ++ q :: bs2).map Prod.snd := List.mem_map_of_mem hp'
    have hfit := hkept.fit_used p.2 (List.mem_cons_of_mem _ hmem)
    have hone := (hb p hp').same hfit (hsame p.2.addr p.2.stop (by
      obtain hle | hle := hxapart p.2 hmem
      · exact Or.inr hle
      · exact Or.inl (by omega)))
    exact hone.same hfit (hframe p.2 (List.mem_cons_of_mem _ (List.mem_map_of_mem hp)))

theorem sound_realloc (h : t.Sound l) {size : Nat} (hsize : size < 2 ^ 32) (howns : t.Owns ptr)
    (hroom : ptr = 0 ∨ size ≠ 0 ∧ nano_malloc_usable_size ptr t.arena < size → Room l t.arena size) :
    ∃ r, nano_realloc l ptr size t.arena = some r ∧ Machine.Sound l ⟨r.1, moved ptr size r.2 t.live⟩ := by
  by_cases hptr : ptr = 0
  · obtain ⟨r, hcall, hsound⟩ := sound_malloc h hsize (hroom (Or.inl hptr))
    refine ⟨r, (if_pos hptr).trans hcall, ?_⟩
    unfold moved
    rw [if_pos hptr]
    exact hsound
  by_cases hzero : size = 0
  · obtain ⟨m, hcall, hsound⟩ := sound_free h howns
    refine ⟨(m, 0), ?_, ?_⟩
    · unfold nano_realloc
      rw [if_neg hptr, if_pos hzero, hcall]
      rfl
    · unfold moved
      rw [if_neg hptr, if_pos hzero]
      exact hsound
  obtain ⟨free, bs, hlive, hkept, hb⟩ := h
  have hown : ∃ b ∈ t.live, b.ptr = ptr := howns.resolve_left hptr
  rw [hlive] at hown ⊢
  obtain ⟨bs1, q, bs2, rfl, rfl, hdrop, hknown⟩ := drop_split hown
  by_cases hle : size ≤ nano_malloc_usable_size q.1.ptr t.arena
  · refine ⟨_, nano_realloc_small hptr hzero hle, ?_⟩
    rw [moved_eq hptr hzero hptr, hdrop, hknown]
    exact sound_resize hkept hb hle
  · have hlt := Nat.lt_of_not_le hle
    obtain hcall | ⟨m', x, free', hcall, hxsize, hkept', hb'⟩ := malloc_holds hkept hb hsize (hroom (Or.inr ⟨hzero, hlt⟩))
    · refine ⟨_, nano_realloc_refused hptr hzero hlt hcall, ?_⟩
      unfold moved
      rw [if_neg hptr, if_neg hzero, if_pos rfl]
      exact ⟨free, bs1 ++ q :: bs2, rfl, hkept.errno ENOMEM, hb⟩
    · have hge := (hkept'.fit_used x List.mem_cons_self).bytes.1
      have hne : bytesOf x ≠ 0 := by omega
      obtain ⟨m'', hfree, hsound⟩ := sound_move hkept' hb' hxsize
      refine ⟨_, nano_realloc_moved hptr hzero hlt hcall hne hfree, ?_⟩
      rw [moved_eq hptr hzero hne, hdrop, hknown]
      exact hsound

theorem sound_write (h : t.Sound l) {a : Nat} {v : UInt8} (hown : ∃ b ∈ t.live, b.ptr ≤ a ∧ a < b.ptr + b.asked) :
    Machine.Sound l ⟨{ t.arena with mem := fun b => if b = a then v else t.arena.mem b }, t.live.map (Block.wrote a v)⟩ := by
  obtain ⟨free, bs, hlive, hkept, hb⟩ := h
  rw [hlive] at hown ⊢
  obtain ⟨b, hmem, hge, hlt⟩ := hown
  obtain ⟨q, hq, rfl⟩ := List.mem_map.mp hmem
  obtain ⟨hptr, hfits, -⟩ := hb q hq
  have hsame : ∀ lo hi, hi ≤ bytesOf q.2 ∨ q.2.stop ≤ lo →
      Same t.arena.mem (fun b => if b = a then v else t.arena.mem b) lo hi := fun lo hi hab y h1 h2 =>
    if_neg (by omega)
  refine ⟨free, bs.map fun p => (p.1.wrote a v, p.2), by simp, ?_, fun p hp => ?_⟩
  · have hsnd : (bs.map fun p => (p.1.wrote a v, p.2)).map Prod.snd = bs.map Prod.snd := by simp
    rw [hsnd]
    exact hkept.wrote (List.mem_map_of_mem hq) hsame
  · obtain ⟨p', hp', rfl⟩ := List.mem_map.mp hp
    obtain ⟨hpptr, hpfits, hpdata⟩ := hb p' hp'
    unfold Block.wrote
    dsimp only
    split
    · next hin =>
      refine ⟨hpptr, hpfits, fun i w hi => ?_⟩
      dsimp only at hi ⊢
      split at hi
      · next hia =>
        cases hi
        exact ⟨by omega, if_pos (by omega)⟩
      · next hia =>
        obtain ⟨hasked, hw⟩ := hpdata i w hi
        exact ⟨hasked, (if_neg (by omega)).trans hw⟩
    · next hout =>
      refine ⟨hpptr, hpfits, fun i w hi => ?_⟩
      obtain ⟨hasked, hw⟩ := hpdata i w hi
      exact ⟨hasked, (if_neg (by omega)).trans hw⟩

/-- **One legal call** returns, and keeps every block in a chunk of its own. -/
theorem sound_step (h : t.Sound l) (act : Act) (hlegal : t.Legal l act) :
    ∃ t', t.step l act = some t' ∧ t'.Sound l := by
  cases act with
  | malloc s =>
    obtain ⟨r, hcall, hsound⟩ := sound_malloc h s.toNat_lt hlegal
    exact ⟨_, congrArg (Option.map _) hcall, hsound⟩
  | calloc n elem =>
    obtain ⟨r, hcall, hsound⟩ := sound_calloc h n elem hlegal
    exact ⟨_, congrArg (Option.map _) hcall, hsound⟩
  | realloc ptr size =>
    obtain ⟨howns, hroom⟩ := hlegal
    have hzero : size.toNat ≠ 0 → size ≠ 0 := fun hne he => hne (by rw [he]; rfl)
    obtain ⟨r, hcall, hsound⟩ := sound_realloc h size.toNat_lt howns fun hcase =>
      hroom (hcase.imp_right fun hs => ⟨hzero hs.1, hs.2⟩)
    exact ⟨_, congrArg (Option.map _) hcall, hsound⟩
  | free ptr =>
    obtain ⟨m, hcall, hsound⟩ := sound_free h hlegal
    exact ⟨_, congrArg (Option.map _) hcall, hsound⟩
  | write a v => exact ⟨_, rfl, sound_write h hlegal⟩

theorem sound_start (mem : Mem) : Machine.Sound l (.start mem) :=
  ⟨[], [], rfl, kept_init mem, fun p hp => by cases hp⟩

/-- **A legal run** does not get stuck. -/
theorem sound_run {mem : Mem} {acts : List Act} (hlegal : Along (Machine.step l) (Machine.Legal l) (.start mem) acts) :
    ∃ t, exec (Machine.step l) (.start mem) acts = some t ∧ t.Sound l :=
  hlegal.runs (fun _ act hs hl => sound_step hs act hl) (sound_start mem)

/-! ## what holds after a legal run -/

theorem forall_live {P : Block → Prop} (hlive : t.live = bs.map Prod.fst) (h : ∀ p ∈ bs, P p.1) : ∀ b ∈ t.live, P b := by
  rw [hlive]
  intro b hmem
  obtain ⟨p, hp, rfl⟩ := List.mem_map.mp hmem
  exact h p hp

theorem Machine.Sound.keeps (h : t.Sound l) : t.Keeps := by
  obtain ⟨free, bs, hlive, -, hb⟩ := h
  exact forall_live hlive fun p hp i v hi => ((hb p hp).data i v hi).2

/-- The chunks of the blocks, as the code finds them, are the used ones. -/
theorem taken_eq (hlive : t.live = bs.map Prod.fst) (hkept : Kept l t.arena free (bs.map Prod.snd))
    (hb : ∀ p ∈ bs, Holds t.arena.mem p.1 p.2) : t.taken = total (bs.map Prod.snd) := by
  unfold Machine.taken total
  rw [hlive, List.map_map, List.map_map]
  refine congrArg List.sum (List.map_congr_left fun p hp => ?_)
  have hp2 : p.2 ∈ bs.map Prod.snd := List.mem_map_of_mem hp
  have hheaded := hkept.headed p.2 hp2
  show load t.arena.mem (get_chunk_from_ptr t.arena.mem p.1.ptr) = p.2.size
  rw [(hb p hp).ptr, hheaded.chunk (hkept.fit_used p.2 hp2).addr (hkept.roomy.2 p.2 hp2)]
  exact hheaded.1

/-- The report is right if the break has moved by `a`, which is what free and used chunks have and less than a word
more. -/
theorem accounts_of {a : Nat} (hlinked : Linked t.arena.mem t.arena.free_list free)
    (hmoved : l.end_.toNat + a = brk l t.arena) (hsmall : a < 2 ^ 32) (hle : total free + t.taken ≤ a)
    (hlt : a < total free + t.taken + 4) :
    t.Accounts l ⟨a, (a + 2 ^ 32 - total free) % 2 ^ 32, total free⟩ := by
  have hrest : (a + 2 ^ 32 - total free) % 2 ^ 32 = a - total free := by omega
  rw [hrest]
  refine ⟨hmoved, ⟨free, hlinked, rfl⟩, ?_, ?_, ?_⟩
  · show a = total free + (a - total free)
    omega
  · show t.taken ≤ a - total free
    omega
  · show a - total free < t.taken + 4
    omega

theorem Machine.Sound.accounts (h : t.Sound l) : ∃ r, nano_mallinfo l t.arena = some r ∧ t.Accounts l r.2 := by
  obtain ⟨free, bs, hlive, hkept, hb⟩ := h
  obtain ⟨hend, hend', hpos, hram, -⟩ := bottom_bounds l
  have hlimit : ram_end.toNat = 0x2000fffc := by decide
  have htaken := taken_eq hlive hkept hb
  have hfills := hkept.fills
  have hinRam := hkept.inRam
  have hfree := freeSize_eq hkept.linked hkept.short (by omega)
  unfold nano_mallinfo
  dsimp only
  obtain ⟨hstart, hnull⟩ | ⟨hstart, hset⟩ := hkept.started
  · have htop : top l t.arena = bottom l := if_pos hnull
    have hbrk : brk l t.arena = l.end_.toNat := by
      unfold brk
      rw [if_pos hnull]
    rw [if_pos hstart, hfree]
    exact ⟨_, rfl, accounts_of hkept.linked hbrk.symm (by omega) (by omega) (by omega)⟩
  · have htop : top l t.arena = t.arena.heap_end.toNat := if_neg hset
    have hbrk : brk l t.arena = top l t.arena := by
      unfold brk
      rw [htop, if_neg hset]
    obtain ⟨e, -, hcall⟩ := sbrk_r_eq hbrk (by omega : top l t.arena + 0 < 2 ^ 32)
    have hne : ¬ t.arena.sbrk_start = 0 := by omega
    have hlast : ¬ top l t.arena = minusOne := by
      unfold minusOne
      omega
    rw [if_neg hne, hcall]
    dsimp only
    rw [if_neg hlast, hfree, hstart]
    exact ⟨_, rfl, accounts_of hkept.linked (by omega) (by omega) (by omega) (by omega)⟩

theorem hand_heap_end (r : Nat) (m : Arena) : (hand r m).1.heap_end = m.heap_end := by
  unfold hand
  dsimp only
  split <;> rfl

/-- A request for which a free chunk is big enough does not move the break. -/
theorem malloc_stays (h : Kept l m free used) (hs : s < 2 ^ 32) (hok : ¬ refused s)
    (hbig : ∃ c ∈ free, alloc_size s ≤ c.size) :
    ∃ r, nano_malloc l s m = some r ∧ r.2 ≠ 0 ∧ r.1.heap_end = m.heap_end := by
  obtain ⟨hmin, hmax, halign, -⟩ := alloc_size_spec hs hok
  obtain ⟨hroomy, -⟩ := h.roomy
  obtain ⟨hnone, -⟩ | ⟨x, free', p, r, htake, hfind, hr, haddr, hsize, hturned⟩ :=
    find_take hmin hmax h.linked h.sorted hroomy h.short
  · obtain ⟨c, hc, hle⟩ := hbig
    obtain ⟨hall, -⟩ | ⟨pre, d, post, -, -, -, ⟨-, htake⟩ | ⟨-, htake⟩⟩ := take_cases (alloc_size s) 12 free
    · exact absurd (hall c hc) (Nat.not_lt_of_le hle)
    · rw [hnone] at htake
      cases htake
    · rw [hnone] at htake
      cases htake
  · have hlaid := laid_take h.toLaid hmin halign htake hturned
    have hxfit := hlaid.fit_used x List.mem_cons_self
    obtain ⟨hge, -, -, -⟩ := hxfit.bytes
    obtain ⟨mem, hhand, -, -⟩ := @hand_headed (carve (alloc_size s) p r m).1 x hxfit.addr
      (hxfit.roomy hlaid.inRam) hsize
    refine ⟨_, nano_malloc_found hok hfind hr, ?_, (hand_heap_end _ _).trans hturned.heap_end⟩
    rw [haddr, hhand]
    show bytesOf x ≠ 0
    omega

theorem Machine.Sound.whole (h : t.Sound l) (hnone : t.live = []) : t.Whole l := by
  obtain ⟨free, bs, hlive, hkept, -⟩ := h
  have hbs : bs = [] := List.map_eq_nil_iff.mp (hlive.symm.trans hnone)
  rw [hbs] at hkept
  have hfills := hkept.fills
  have hzero : total (([] : List (Block × Chunk)).map Prod.snd) = 0 := rfl
  have hone := hkept.sorted.full (fun c hc => ⟨(hkept.fit_free c hc).lower, (hkept.fit_free c hc).upper⟩)
    (fun c hc => Nat.lt_of_lt_of_le (by decide : 0 < 12) (hkept.fit_free c hc).least) (by omega)
  constructor
  · rw [← hone]
    exact hkept.linked
  · intro s hok hle
    refine malloc_stays hkept s.toNat_lt hok ⟨⟨bottom l, top l t.arena - bottom l⟩, ?_, hle⟩
    obtain ⟨hmin, -⟩ := alloc_size_spec s.toNat_lt hok
    rw [hone, if_neg (by omega)]
    exact List.mem_singleton_self _

end

/-! ## the results -/

section
variable {l} {mem : Mem} {acts : List Act}

/-- `end` is not aligned -/
def oddLayout : Layout := ⟨0x20006002, by decide, by decide⟩

/-- The chunk that is freed is cut for the calls behind it. -/
def packedRun : List Act := [.malloc 5, .malloc 100, .free 0x20006018, .calloc 3 4, .realloc 0x20006008 60]

/-- **The contents**: in every legal run each block holds what was written to it, whatever was called since, also
when it was moved. -/
theorem blocks_keep (hlegal : Along (Machine.step l) (Machine.Legal l) (.start mem) acts) :
    ∃ t, exec (Machine.step l) (.start mem) acts = some t ∧ t.Keeps := by
  obtain ⟨t, hrun, hsound⟩ := sound_run hlegal
  exact ⟨t, hrun, hsound.keeps⟩

/-- A block is written to and moved. -/
def movedRun : List Act :=
  [.malloc 5, .write 0x2000600c 7, .malloc 100, .free 0x20006018, .realloc 0x20006008 60, .malloc 5]

theorem blocks_keep_moved : Along (Machine.step oddLayout) (Machine.Legal oddLayout) (.start fun _ => 0) movedRun ∧
    ∃ t, exec (Machine.step oddLayout) (.start fun _ => 0) movedRun = some t ∧ t.Keeps :=
  ⟨by decide +kernel, @blocks_keep oddLayout (fun _ => 0) movedRun (by decide +kernel)⟩

/-- **The accounts**: after every legal run `nano_mallinfo` reports how far the break has moved, what is in the free
list, and as in use what the blocks have. -/
theorem blocks_account (hlegal : Along (Machine.step l) (Machine.Legal l) (.start mem) acts) :
    ∃ t, exec (Machine.step l) (.start mem) acts = some t ∧
      ∃ r, nano_mallinfo l t.arena = some r ∧ t.Accounts l r.2 := by
  obtain ⟨t, hrun, hsound⟩ := sound_run hlegal
  exact ⟨t, hrun, hsound.accounts⟩

theorem blocks_account_packed : Along (Machine.step oddLayout) (Machine.Legal oddLayout) (.start fun _ => 0) packedRun ∧
    ∃ t, exec (Machine.step oddLayout) (.start fun _ => 0) packedRun = some t ∧
      ∃ r, nano_mallinfo oddLayout t.arena = some r ∧ t.Accounts oddLayout r.2 :=
  ⟨by decide +kernel, @blocks_account oddLayout (fun _ => 0) packedRun (by decide +kernel)⟩

/-- **No fragments**: when all blocks of a legal run are freed, the heap is one free chunk. -/
theorem heap_whole (hlegal : Along (Machine.step l) (Machine.Legal l) (.start mem) acts) :
    ∃ t, exec (Machine.step l) (.start mem) acts = some t ∧ (t.live = [] → t.Whole l) := by
  obtain ⟨t, hrun, hsound⟩ := sound_run hlegal
  exact ⟨t, hrun, hsound.whole⟩

/-- The chunk in the middle is freed last. -/
def freedRun : List Act :=
  [.malloc 5, .malloc 100, .malloc 9, .free 0x20006008, .free 0x20006088, .free 0x20006018]

theorem heap_whole_freed : Along (Machine.step oddLayout) (Machine.Legal oddLayout) (.start fun _ => 0) freedRun ∧
    ((exec (Machine.step oddLayout) (.start fun _ => 0) freedRun).any fun t => t.live.isEmpty) = true ∧
    ∃ t, exec (Machine.step oddLayout) (.start fun _ => 0) freedRun = some t ∧ (t.live = [] → t.Whole oddLayout) :=
  ⟨by decide +kernel, by decide +kernel, @heap_whole oddLayout (fun _ => 0) freedRun (by decide +kernel)⟩

end

end Interface
end Pharoah
