import Pharoah.Lib.Bytes
import Pharoah.Interface.Sbrk

/-!
# The allocator of the payload

`nano_malloc`, `nano_free`, `nano_calloc`, `nano_realloc` and `nano_mallinfo` of newlib's
`nano-mallocr.c`, which the payload is linked with (`nano.specs`), over `_sbrk` of `test/interface.c`.
A `long`, a pointer and a `size_t` have 32 bits.  A chunk at `r` has its size at `r` and, while it is free,
the pointer to the next one at `r + 4`.

* `Arena`            the memory and the statics of the allocator and of `_sbrk`;
* `find`, `walk`     the loops over the free list, with fuel; they have none left only if the list is
                     longer than the memory;
* `nano_malloc`, `nano_free`, ...   the code; `none` is a loop that does not end.
-/

namespace Pharoah
namespace Interface

open Bytes

def CHUNK_OFFSET : Nat := 4
def CHUNK_ALIGN : Nat := 4
def MALLOC_ALIGN : Nat := 8
def MALLOC_PADDING : Nat := max MALLOC_ALIGN CHUNK_ALIGN - CHUNK_ALIGN
def MALLOC_MINSIZE : Nat := 4
def MALLOC_MINCHUNK : Nat := CHUNK_OFFSET + MALLOC_PADDING + MALLOC_MINSIZE
def MAX_ALLOC_SIZE : Nat := 0x80000000
def ENOMEM : Nat := 12

/-- `ALIGN_TO` a power of two, modulo 2^32 -/
def ALIGN_TO (size align : Nat) : Nat := (size + align - 1) % 2 ^ 32 / align * align

/-- a word of 32 bits as a signed number -/
def long (w : Nat) : Int := if w < 2 ^ 31 then w else w - 2 ^ 32

/-- The memory, with `free_list`, `sbrk_start`, the `_errno` of the caller, and the static of `_sbrk`; NULL is 0. -/
structure Arena where
  mem : Mem
  free_list : Nat
  sbrk_start : Nat
  _errno : Nat
  heap_end : UInt32

/-- before the first call -/
def Arena.init (mem : Mem) : Arena := ⟨mem, 0, 0, 0, 0⟩

/-- the fuel of a loop over the free list: chunks have different addresses -/
def turns : Nat := 2 ^ 32

variable (l : Layout)

/-- `_sbrk_r`.  It clears the global `errno`, not the one of the caller, and `_sbrk` sets neither. -/
def _sbrk_r (increment : Nat) (m : Arena) : Arena × Nat :=
  let r := _sbrk l m.heap_end (UInt32.ofNat increment)
  ({ m with heap_end := r.1 }, r.2.toNat)

/-- `(void *)-1` -/
def minusOne : Nat := 2 ^ 32 - 1

def sbrk_aligned (s : Nat) (m : Arena) : Arena × Nat :=
  let m := if m.sbrk_start = 0 then
      let r := _sbrk_r l 0 m
      { r.1 with sbrk_start := r.2 }
    else m
  let r := _sbrk_r l s m
  if r.2 = minusOne then r
  else
    let align_p := ALIGN_TO r.2 CHUNK_ALIGN
    if align_p ≠ r.2 then
      let r' := _sbrk_r l (align_p - r.2) r.1
      if r'.2 = minusOne then r' else (r'.1, align_p)
    else (r.1, align_p)

/-- the size of a chunk for `s` bytes -/
def alloc_size (s : Nat) : Nat :=
  max ((ALIGN_TO s CHUNK_ALIGN + MALLOC_PADDING + CHUNK_OFFSET) % 2 ^ 32) MALLOC_MINCHUNK

/-- `int rem = r->size - alloc_size` -/
def rem (mem : Mem) (r n : Nat) : Int := long ((load mem r + 2 ^ 32 - n) % 2 ^ 32)

/-- The loop over the free list: the chunk `r` that is big enough, or NULL, and the one before it, `p`. -/
def find (mem : Mem) (n : Nat) : Nat → Nat → Nat → Option (Nat × Nat)
  | 0, _, _ => none
  | fuel + 1, p, r =>
    if r = 0 then some (p, r)
    else if 0 ≤ rem mem r n then some (p, r)
    else find mem n fuel r (load mem (r + 4))

/-- What the loop does with the chunk it has found: it is broken into two, or it leaves the list. -/
def carve (n p r : Nat) (m : Arena) : Arena × Nat :=
  let rest := rem m.mem r n
  if rest ≥ MALLOC_MINCHUNK then
    ({ m with mem := store (store m.mem r rest.toNat) (r + rest.toNat) n }, r + rest.toNat)
  else if p = r then ({ m with free_list := load m.mem (r + 4) }, r)
  else ({ m with mem := store m.mem (p + 4) (load m.mem (r + 4)) }, r)

/-- The pointer into the chunk; the word before it is an offset to the size, if they are not adjacent. -/
def hand (r : Nat) (m : Arena) : Arena × Nat :=
  let ptr := r + CHUNK_OFFSET
  let align_ptr := ALIGN_TO ptr MALLOC_ALIGN
  let offset := align_ptr - ptr
  if offset ≠ 0 then ({ m with mem := store m.mem (r + offset) (2 ^ 32 - offset) }, align_ptr)
  else (m, align_ptr)

def nano_malloc (s : Nat) (m : Arena) : Option (Arena × Nat) :=
  let n := alloc_size s
  if n ≥ MAX_ALLOC_SIZE ∨ n < s then some ({ m with _errno := ENOMEM }, 0)
  else
    -- the chunk before it, and the chunk
    (find m.mem n turns m.free_list m.free_list).map fun f =>
      if f.2 = 0 then
        let r := sbrk_aligned l n m
        if r.2 = minusOne then ({ r.1 with _errno := ENOMEM }, 0)
        else hand r.2 { r.1 with mem := store r.1.mem r.2 n }
      else
        let r := carve n f.1 f.2 m
        hand r.2 r.1

/-- `get_chunk_from_ptr` -/
def get_chunk_from_ptr (mem : Mem) (ptr : Nat) : Nat :=
  let c := ptr - CHUNK_OFFSET
  if long (load mem c) < 0 then (c + long (load mem c)).toNat else c

/-- `do { p = q; q = q->next; } while (q && q <= p_to_free)` -/
def walk (mem : Mem) (p_to_free : Nat) : Nat → Nat → Option (Nat × Nat)
  | 0, _ => none
  | fuel + 1, p =>
    let q := load mem (p + 4)
    if q ≠ 0 ∧ q ≤ p_to_free then walk mem p_to_free fuel q else some (p, q)

/-- The chunk `x` before the first of the list. -/
def freeFirst (x : Nat) (m : Arena) : Arena :=
  if x + load m.mem x = m.free_list then
    { m with
      mem := store (store m.mem x (load m.mem x + load m.mem m.free_list)) (x + 4) (load m.mem (m.free_list + 4))
      free_list := x }
  else { m with mem := store m.mem (x + 4) m.free_list, free_list := x }

/-- The chunk `x` between `p` and `q`, which may be NULL. -/
def freeBetween (x p q : Nat) (m : Arena) : Arena :=
  if p + load m.mem p = x then
    let mem := store m.mem p (load m.mem p + load m.mem x)
    if p + load mem p = q then
      { m with mem := store (store mem p (load mem p + load mem q)) (p + 4) (load mem (q + 4)) }
    else { m with mem := mem }
  else if p + load m.mem p > x then { m with _errno := ENOMEM }
  else if x + load m.mem x = q then
    { m with mem := store (store (store m.mem x (load m.mem x + load m.mem q)) (x + 4) (load m.mem (q + 4))) (p + 4) x }
  else { m with mem := store (store m.mem (x + 4) q) (p + 4) x }

def nano_free (free_p : Nat) (m : Arena) : Option Arena :=
  if free_p = 0 then some m
  else
    let x := get_chunk_from_ptr m.mem free_p
    if m.free_list = 0 then some { m with mem := store m.mem (x + 4) m.free_list, free_list := x }
    else if x < m.free_list then some (freeFirst x m)
    else (walk m.mem x turns m.free_list).map fun (p, q) => freeBetween x p q m

/-- `nano_malloc_usable_size` -/
def nano_malloc_usable_size (ptr : Nat) (m : Arena) : Nat :=
  let c := ptr - CHUNK_OFFSET
  let size_or_offset := long (load m.mem c)
  if size_or_offset < 0 then
    ((load m.mem (c + size_or_offset).toNat : Int) - CHUNK_OFFSET + size_or_offset).toNat
  else load m.mem c - CHUNK_OFFSET

/-- `nano_calloc`; the product of the sizes is modulo 2^32 -/
def nano_calloc (n elem : Nat) (m : Arena) : Option (Arena × Nat) := do
  let (m, mem) ← nano_malloc l (n * elem % 2 ^ 32) m
  if mem ≠ 0 then return ({ m with mem := fill m.mem mem (n * elem % 2 ^ 32) 0 }, mem) else return (m, mem)

/-- `nano_realloc`; `memcpy` is given the new size, which is more than the old block has. -/
def nano_realloc (ptr size : Nat) (m : Arena) : Option (Arena × Nat) :=
  if ptr = 0 then nano_malloc l size m
  else if size = 0 then (nano_free ptr m).map fun m => (m, 0)
  else if nano_malloc_usable_size ptr m ≥ size then some (m, ptr)
  else do
    let (m, mem) ← nano_malloc l size m
    if mem ≠ 0 then
      let m ← nano_free ptr { m with mem := copy m.mem mem ptr size }
      return (m, mem)
    else return (m, mem)

/-- the sum over the free list, modulo 2^32 -/
def freeSize (mem : Mem) : Nat → Nat → Option Nat
  | 0, _ => none
  | fuel + 1, pf =>
    if pf = 0 then some 0 else (freeSize mem fuel (load mem (pf + 4))).map fun sum => (load mem pf + sum) % 2 ^ 32

/-- The fields of `struct mallinfo` that are computed; the others are 0. -/
structure Mallinfo where
  arena : Nat
  uordblks : Nat
  fordblks : Nat
deriving DecidableEq, Repr

def nano_mallinfo (m : Arena) : Option (Arena × Mallinfo) :=
  let r := if m.sbrk_start = 0 then (m, 0)
    else
      let now := _sbrk_r l 0 m
      (now.1, if now.2 = minusOne then minusOne else now.2 - m.sbrk_start)
  (freeSize r.1.mem turns r.1.free_list).map fun free_size =>
    (r.1, ⟨r.2, (r.2 + 2 ^ 32 - free_size) % 2 ^ 32, free_size⟩)

end Interface
end Pharoah
