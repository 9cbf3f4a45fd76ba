import Mathlib.Algebra.GroupWithZero.Nat

/-!
# Memory in bytes

A memory that is addressed by the byte, with words of four bytes, the lowest byte first.

* `load m a`, `store m a v`   the word at `a`;
* `Same m m' a b`             the two are the same from `a` to before `b`;
* `load_store_self`, `load_store_other`   what is read after a store;
* `copy m dst src n`, `fill m dst n c`    `n` bytes are copied, or set;
* `copy_at`         what arrives.
-/

namespace Pharoah
namespace Bytes

abbrev Mem := Nat → UInt8

def load (m : Mem) (a : Nat) : Nat :=
  (m a).toNat + 2 ^ 8 * (m (a + 1)).toNat + 2 ^ 16 * (m (a + 2)).toNat + 2 ^ 24 * (m (a + 3)).toNat

def store (m : Mem) (a v : Nat) : Mem := fun b =>
  if b = a then UInt8.ofNat v
  else if b = a + 1 then UInt8.ofNat (v / 2 ^ 8)
  else if b = a + 2 then UInt8.ofNat (v / 2 ^ 16)
  else if b = a + 3 then UInt8.ofNat (v / 2 ^ 24)
  else m b

/-- the two are the same from `a` to before `b` -/
def Same (m m' : Mem) (a b : Nat) : Prop := ∀ x, a ≤ x → x < b → m' x = m x

/-- `n` bytes from `src` on are copied to `dst`, the first one first. -/
def copy (m : Mem) (dst src : Nat) : Nat → Mem
  | 0 => m
  | n + 1 => fun b => if b = dst + n then copy m dst src n (src + n) else copy m dst src n b

def fill (m : Mem) (dst n : Nat) (c : UInt8) : Mem := fun b => if dst ≤ b ∧ b < dst + n then c else m b

variable {m m' m'' : Mem} {a b c d v : Nat}

theorem load_lt (m : Mem) (a : Nat) : load m a < 2 ^ 32 := by
  have h0 := (m a).toNat_lt
  have h1 := (m (a + 1)).toNat_lt
  have h2 := (m (a + 2)).toNat_lt
  have h3 := (m (a + 3)).toNat_lt
  unfold load
  omega

theorem load_store_self (m : Mem) (a : Nat) (hv : v < 2 ^ 32) : load (store m a v) a = v := by
  have h0 : store m a v a = UInt8.ofNat v := if_pos rfl
  have h1 : store m a v (a + 1) = UInt8.ofNat (v / 2 ^ 8) := by
    unfold store
    rw [if_neg (by omega), if_pos rfl]
  have h2 : store m a v (a + 2) = UInt8.ofNat (v / 2 ^ 16) := by
    unfold store
    rw [if_neg (by omega), if_neg (by omega), if_pos rfl]
  have h3 : store m a v (a + 3) = UInt8.ofNat (v / 2 ^ 24) := by
    unfold store
    rw [if_neg (by omega), if_neg (by omega), if_neg (by omega), if_pos rfl]
  unfold load
  rw [h0, h1, h2, h3]
  simp only [UInt8.toNat_ofNat']
  omega

theorem store_other (m : Mem) (v : Nat) (h : b < a ∨ a + 4 ≤ b) : store m a v b = m b := by
  unfold store
  rw [if_neg (by omega), if_neg (by omega), if_neg (by omega), if_neg (by omega)]

/-! ## parts that stay the same -/

theorem Same.refl (m : Mem) (a b : Nat) : Same m m a b := fun _ _ _ => rfl

theorem Same.trans (h : Same m m' a b) (h' : Same m' m'' a b) : Same m m'' a b := fun x h1 h2 =>
  (h' x h1 h2).trans (h x h1 h2)

theorem Same.sub (h : Same m m' a b) (h1 : a ≤ c) (h2 : d ≤ b) : Same m m' c d := fun x hc hd =>
  h x (by omega) (by omega)

theorem same_store (m : Mem) (v : Nat) (h : b ≤ c ∨ c + 4 ≤ a) : Same m (store m c v) a b := fun _ h1 h2 =>
  store_other m v (by omega)

theorem Same.load (h : Same m m' a (a + 4)) : load m' a = load m a := by
  unfold Bytes.load
  rw [h a (by omega) (by omega), h (a + 1) (by omega) (by omega), h (a + 2) (by omega) (by omega),
    h (a + 3) (by omega) (by omega)]

theorem load_store_other (m : Mem) (v : Nat) (h : b + 4 ≤ a ∨ a + 4 ≤ b) : load (store m a v) b = load m b :=
  (same_store m v (by omega)).load

theorem copy_succ (m : Mem) (dst src n b : Nat) : copy m dst src (n + 1) b =
    if b = dst + n then copy m dst src n (src + n) else copy m dst src n b := rfl

theorem same_copy (m : Mem) (h : b ≤ c ∨ c + v ≤ a) (d : Nat) : Same m (copy m c d v) a b := by
  induction v with
  | zero => exact Same.refl m a b
  | succ v ih =>
    intro x h1 h2
    rw [copy_succ, if_neg (by omega)]
    exact ih (by omega) x h1 h2

/-- A byte arrives, unless the copy has overwritten it before it is read. -/
theorem copy_at (m : Mem) {x n : Nat} (hx : x < n) (h : c + x < d ∨ d + x ≤ c + x) :
    copy m d c n (d + x) = m (c + x) := by
  induction n with
  | zero => omega
  | succ n ih =>
    rw [copy_succ]
    split
    · next he =>
      obtain rfl : x = n := by omega
      exact same_copy m (by omega : c + x + 1 ≤ d ∨ d + x ≤ c + x) c (c + x) (Nat.le_refl _) (Nat.lt_succ_self _)
    · next hne => exact ih (by omega)

theorem same_fill (m : Mem) (h : b ≤ c ∨ c + v ≤ a) (x : UInt8) : Same m (fill m c v x) a b := fun y h1 h2 => by
  unfold fill
  rw [if_neg (by omega)]

end Bytes
end Pharoah
