import Mathlib.Data.Nat.Log
import Mathlib.Tactic.Ring

/-!
# Numerals

The digits of a number in a base, the most significant first.

* `numeral b n v`   `n` digits of `v`; higher ones are not there;
* `size b v`        how many `v` needs, one at least;
* `value b ds`      the number that digits stand for, read from the left;
* `value_numeral`   a numeral that is long enough is read back;
* `lt_of_mem_numeral`   its digits are digits;
* `head_numeral`    that of a number above 0, of its own size, does not begin with a 0.
-/

namespace Pharoah
namespace Numeral

def numeral (b : Nat) : Nat → Nat → List Nat
  | 0, _ => []
  | n + 1, v => v / b ^ n :: numeral b n (v % b ^ n)

def size (b v : Nat) : Nat := Nat.log b v + 1

/-- the number that is read when `a` has been read before -/
def valueFrom (b a : Nat) (ds : List Nat) : Nat := ds.foldl (fun a d => a * b + d) a

def value (b : Nat) (ds : List Nat) : Nat := valueFrom b 0 ds

variable {b : Nat}

@[simp] theorem length_numeral (b n v : Nat) : (numeral b n v).length = n := by
  induction n generalizing v with
  | zero => rfl
  | succ n ih => rw [numeral, List.length_cons, ih]

theorem valueFrom_cons (b a d : Nat) (ds : List Nat) :
    valueFrom b a (d :: ds) = valueFrom b (a * b + d) ds := rfl

/-- what has been read only grows -/
theorem le_valueFrom (hb : 0 < b) (a : Nat) (ds : List Nat) : a ≤ valueFrom b a ds := by
  induction ds generalizing a with
  | nil => exact Nat.le_refl a
  | cons d ds ih =>
    have hmul : a ≤ a * b := Nat.le_mul_of_pos_right a hb
    have hrest := ih (a * b + d)
    rw [valueFrom_cons]
    omega

theorem pow_pos_of_lt {n v : Nat} (hv : v < b ^ (n + 1)) : 0 < b ^ n := by
  apply Nat.pow_pos
  apply Nat.pos_of_ne_zero
  rintro rfl
  rw [Nat.pow_succ, Nat.mul_zero] at hv
  omega

theorem valueFrom_numeral (a : Nat) {n v : Nat} (hv : v < b ^ n) :
    valueFrom b a (numeral b n v) = a * b ^ n + v := by
  induction n generalizing a v with
  | zero =>
    rw [Nat.pow_zero] at hv ⊢
    show a = a * 1 + v
    omega
  | succ n ih =>
    have hb := pow_pos_of_lt hv
    have hdiv := Nat.div_add_mod v (b ^ n)
    rw [numeral, valueFrom_cons, ih _ (Nat.mod_lt v hb), Nat.pow_succ]
    calc (a * b + v / b ^ n) * b ^ n + v % b ^ n
        = a * (b ^ n * b) + (b ^ n * (v / b ^ n) + v % b ^ n) := by ring
      _ = a * (b ^ n * b) + v := by rw [hdiv]

theorem value_numeral {n v : Nat} (hv : v < b ^ n) : value b (numeral b n v) = v := by
  rw [value, valueFrom_numeral 0 hv, Nat.zero_mul, Nat.zero_add]

/-- leading zeros do not count -/
theorem valueFrom_zeros (b k : Nat) (ds : List Nat) :
    valueFrom b 0 (List.replicate k 0 ++ ds) = valueFrom b 0 ds := by
  induction k with
  | zero => rfl
  | succ k ih =>
    rw [List.replicate_succ, List.cons_append, valueFrom_cons, Nat.zero_mul, ih]

theorem lt_of_mem_numeral {n v d : Nat} (hv : v < b ^ n) (hd : d ∈ numeral b n v) : d < b := by
  induction n generalizing v with
  | zero => cases hd
  | succ n ih =>
    have hb := pow_pos_of_lt hv
    obtain hhead | htail := List.mem_cons.mp hd
    · rw [hhead, Nat.div_lt_iff_lt_mul hb, ← Nat.pow_succ']
      exact hv
    · exact ih (Nat.mod_lt v hb) htail

theorem lt_pow_size (hb : 1 < b) (v : Nat) : v < b ^ size b v := Nat.lt_pow_succ_log_self hb v

theorem size_of_lt {v : Nat} (h : v < b) : size b v = 1 := by
  rw [size, Nat.log_of_lt h]

theorem size_div (hb : 1 < b) {v : Nat} (h : b ≤ v) : size b v = size b (v / b) + 1 := by
  rw [size, size, Nat.log_of_one_lt_of_le hb h]

/-- `n + 1` digits are not enough for `v` if and only if what is above the last `n` is no digit -/
theorem size_le_iff (hb : 1 < b) {n v : Nat} : size b v ≤ n + 1 ↔ v / b ^ n < b := by
  have hpos : 0 < b ^ n := Nat.pow_pos (by omega)
  rw [Nat.div_lt_iff_lt_mul hpos, ← Nat.pow_succ']
  constructor
  · intro h
    exact lt_of_lt_of_le (lt_pow_size hb v) (Nat.pow_le_pow_right (by omega) h)
  · intro h
    exact Nat.succ_le_of_lt (Nat.log_lt_of_lt_pow' (by omega) h)

/-- a number above 0 begins with another digit than 0 -/
theorem head_numeral (hb : 1 < b) {v : Nat} (hv : 0 < v) :
    ∃ d ds, numeral b (size b v) v = d :: ds ∧ 0 < d := by
  refine ⟨_, _, rfl, Nat.div_pos (Nat.pow_log_le_self b (by omega)) (Nat.pow_pos (by omega))⟩

end Numeral
end Pharoah
