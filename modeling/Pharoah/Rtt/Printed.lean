import Pharoah.Rtt.Calls
import Pharoah.Rtt.Chunks
import Pharoah.Rtt.Rendered

/-!
# Formatted output is what the format stands for

* `Prints out m x`      `m` prints `out` and goes on with `x`, or it returns early;
* `Outputs B out m x`   `m` prints `out` and ends with `x`, in a call that is going or in `B`;
* `outputs_printUnsigned`, `outputs_printInt`   the code of a number prints its text;
* `outputs_convert`, `outputs_loop`             that of a conversion, and of a format.
-/

namespace Pharoah
namespace Rtt

open Numeral Prog

section
variable {s : Target} {i : Nat} {α β : Type} {B : List Byte → Printing → Prop} {out out' : List Byte}

/-! ## rules -/

/-- From a call that is going, `m` prints `out` and has the value `x`, or it returns early, stuck; the call
may wait. -/
def Prints (s : Target) (i : Nat) (out : List Byte) (m : Printer (Option α)) (x : α) : Prop :=
  ∀ t p, Going s i t p → (t ++ out).length < 2 ^ 31 →
    (∃ p', m p = .error .waiting p' ∧ Waits s i (t ++ out).length) ∨
      (∃ p', m p = .ok (some x) p' ∧ Going s i (t ++ out) p') ∨
      ∃ p', m p = .ok none p' ∧ Stuck s i (t ++ out) p'

/-- From a call that is going, `m` prints `out` and ends with `x`; the call is going after it, or in `B`. -/
def Outputs (B : List Byte → Printing → Prop) (s : Target) (i : Nat) (out : List Byte) (m : Printer α) (x : α) :
    Prop :=
  ∀ t p, Going s i t p → (t ++ out).length < 2 ^ 31 →
    (∃ p', m p = .error .waiting p' ∧ Waits s i (t ++ out).length) ∨
      ∃ p', m p = .ok x p' ∧ (Going s i (t ++ out) p' ∨ B (t ++ out) p')

/-- `B` holds in a call that is stuck, and it is not lost with more text. -/
structure Late (s : Target) (i : Nat) (B : List Byte → Printing → Prop) : Prop where
  stuck : ∀ t p, Stuck s i t p → B t p
  append : ∀ t u p, B t p → B (t ++ u) p

theorem late_stuck : Late s i (Stuck s i) := ⟨fun _ _ h => h, fun _ u _ h => h.append u⟩

theorem late_broken : Late s i (Broken s i) := ⟨fun _ _ h => h.broken, fun _ u _ h => h.append u⟩

theorem Prints.pure (x : α) : Prints s i [] (pure (some x)) x := by
  intro t p h _
  rw [List.append_nil]
  exact Or.inr (Or.inl ⟨p, rfl, h⟩)

theorem Outputs.pure (x : α) : Outputs B s i [] (pure x) x := by
  intro t p h _
  rw [List.append_nil]
  exact Or.inr ⟨p, rfl, Or.inl h⟩

theorem waits_left {t : List Byte} (h : Waits s i (t ++ out).length) : Waits s i (t ++ (out ++ out')).length :=
  h.mono (by simp only [List.length_append]; omega)

/-- one part after the other, which is left out if the first returns early -/
theorem Prints.next (out : List Byte) {m : Printer (Option α)} {k : α → Printer (Option β)} {x : α} {y : β}
    {k' : Option α → Printer (Option β)} (hnone : k' none = Pure.pure none) (hsome : k' (some x) = k x)
    (hm : Prints s i out m x) (hk : Prints s i out' (k x) y) : Prints s i (out ++ out') (m >>= k') y := by
  intro t p h hlen
  have hlen' : (t ++ out).length < 2 ^ 31 := by
    simp only [List.length_append] at hlen ⊢
    omega
  obtain ⟨p', hrun, hwait⟩ | ⟨p', hrun, hgo⟩ | ⟨p', hrun, hstuck⟩ := hm t p h hlen'
  · exact Or.inl ⟨p', bind_error hrun, waits_left hwait⟩
  · rw [bind_ok hrun, hsome, ← List.append_assoc]
    rw [← List.append_assoc] at hlen
    exact hk _ p' hgo hlen
  · rw [bind_ok hrun, hnone, ← List.append_assoc]
    exact Or.inr (Or.inr ⟨p', rfl, hstuck.append out'⟩)

theorem Outputs.andThen (out : List Byte) (hB : Late s i B) {m : Printer (Option α)} {k : α → Printer Unit} {x : α}
    (hm : Prints s i out m x) (hk : Outputs B s i out' (k x) ()) :
    Outputs B s i (out ++ out') (andThen m k) () := by
  intro t p h hlen
  have hlen' : (t ++ out).length < 2 ^ 31 := by
    simp only [List.length_append] at hlen ⊢
    omega
  unfold Rtt.andThen
  obtain ⟨p', hrun, hwait⟩ | ⟨p', hrun, hgo⟩ | ⟨p', hrun, hstuck⟩ := hm t p h hlen'
  · exact Or.inl ⟨p', bind_error hrun, waits_left hwait⟩
  · rw [bind_ok hrun, ← List.append_assoc]
    rw [← List.append_assoc] at hlen
    exact hk _ p' hgo hlen
  · rw [bind_ok hrun, ← List.append_assoc]
    exact Or.inr ⟨p', rfl, Or.inr (hB.append _ _ _ (hB.stuck _ _ hstuck))⟩

/-- the value is not that of the part that prints -/
theorem Outputs.map {m : Printer α} {x : α} (hm : Outputs B s i out m x) (y : β) :
    Outputs B s i out (m >>= fun _ => Pure.pure y) y := by
  intro t p h hlen
  obtain ⟨p', hrun, hwait⟩ | ⟨p', hrun, hend⟩ := hm t p h hlen
  · exact Or.inl ⟨p', bind_error hrun, hwait⟩
  · exact Or.inr ⟨p', by rw [bind_ok hrun]; rfl, hend⟩

theorem Outputs.broken {m : Printer α} {x : α} (hm : Outputs (Stuck s i) s i out m x) :
    Outputs (Broken s i) s i out m x := fun t p h hlen =>
  (hm t p h hlen).imp id fun ⟨p', hrun, hend⟩ => ⟨p', hrun, hend.imp id fun hs => hs.broken⟩

/-! ## characters -/

theorem outputs_storeChar (hi : i < s.cb.aUp.length) (c : Byte) : Outputs (Stuck s i) s i [c] (_StoreChar c) () :=
  fun _ _ h hlen => storeChar_going hi h c hlen

theorem prints_store (hi : i < s.cb.aUp.length) (c : Byte) : Prints s i [c] (store c) () := by
  intro t p h hlen
  unfold store
  obtain ⟨p', hrun, hwait⟩ | ⟨p', hrun, hgo | hstuck⟩ := storeChar_going hi h c hlen
  · exact Or.inl ⟨p', bind_error hrun, hwait⟩
  · have hvalue := hgo.value
    rw [bind_ok hrun, get_bind, if_neg (by omega)]
    exact Or.inr (Or.inl ⟨p', rfl, hgo⟩)
  · have hvalue := hstuck.value
    rw [bind_ok hrun, get_bind, if_pos (by omega)]
    exact Or.inr (Or.inr ⟨p', rfl, hstuck⟩)

/-- what fills a field, and the field width that is left -/
theorem prints_pad (hi : i < s.cb.aUp.length) (c : Byte) (Width FieldWidth : Nat) :
    Prints s i (List.replicate (FieldWidth - Width) c) (pad c Width FieldWidth) (min FieldWidth Width - 1) := by
  induction FieldWidth with
  | zero =>
    rw [Nat.zero_sub, Nat.zero_min]
    exact Prints.pure 0
  | succ F ih =>
    unfold pad
    by_cases hlt : Width < F + 1
    · have hmin : min (F + 1) Width = min F Width := by omega
      rw [if_pos hlt, Nat.succ_sub (by omega), List.replicate_succ, hmin]
      exact Prints.next (k := fun _ => pad c Width F) [c] rfl rfl (prints_store hi c) ih
    · have hmin : min (F + 1) Width - 1 = F := by omega
      rw [if_neg hlt, Nat.sub_eq_zero_of_le (by omega), hmin]
      exact Prints.pure F

/-- The characters that fill the field behind a number are not printed if the call is stuck. -/
theorem pad_stuck (hi : i < s.cb.aUp.length) {t : List Byte} {p : Printing} (h : Stuck s i t p) (c : Byte)
    (Width FieldWidth : Nat) :
    (∃ p', pad c Width FieldWidth p = .error .waiting p' ∧ Waits s i t.length) ∨
      ∃ o p', pad c Width FieldWidth p = .ok o p' ∧ Broken s i t p' := by
  cases FieldWidth with
  | zero => exact Or.inr ⟨_, p, rfl, h.broken⟩
  | succ F =>
    unfold pad
    by_cases hlt : Width < F + 1
    · rw [if_pos hlt]
      unfold store
      obtain ⟨p', hrun, hwait⟩ | ⟨p', hrun, hbroken⟩ := storeChar_stuck hi h c
      · exact Or.inl ⟨p', bind_error (bind_error hrun), hwait⟩
      · have hstore : (_StoreChar c >>= fun _ => do
            let p ← get
            if p.desc.ReturnValue < 0 then return none else return some ()) p = .ok (none : Option Unit) p' := by
          rw [bind_ok hrun, get_bind, if_pos (by rw [hbroken.value]; decide)]
          rfl
        exact Or.inr ⟨none, p', by rw [bind_ok hstore]; rfl, hbroken⟩
    · rw [if_neg hlt]
      exact Or.inr ⟨_, p, rfl, h.broken⟩

end

/-! ## what the code of a number computes -/

theorem countDigits_eq {b fuel v : Nat} (hb : 1 < b) (hv : v < b ^ (fuel + 1)) : countDigits b fuel v = size b v := by
  induction fuel generalizing v with
  | zero =>
    rw [Nat.zero_add, Nat.pow_one] at hv
    rw [countDigits, size_of_lt hv]
  | succ fuel ih =>
    unfold countDigits
    by_cases hge : v ≥ b
    · rw [if_pos hge, size_div hb hge, ih]
      exact Nat.div_lt_of_lt_mul (by rw [← Nat.pow_succ']; exact hv)
    · rw [if_neg hge, size_of_lt (by omega)]

theorem lt_pow_33 {b v : Nat} (hb : 1 < b) (hv : v < 2 ^ 32) : v < b ^ 33 :=
  calc v < 2 ^ 32 := hv
    _ ≤ 2 ^ 33 := by decide
    _ ≤ b ^ 33 := Nat.pow_le_pow_left hb 33

theorem fieldOf_eq {b v : Nat} (hb : 1 < b) (hv : v < 2 ^ 32) (NumDigits : Nat) :
    fieldOf b v NumDigits = max (size b v) NumDigits := by
  unfold fieldOf
  rw [countDigits_eq hb (lt_pow_33 hb hv)]
  split <;> omega

/-- The loop ends at the weight of the first digit, which is below 2^32. -/
theorem digitOf_eq {b v NumDigits : Nat} (hb : 1 < b) (hpow : b ^ (max (size b v) NumDigits - 1) < 2 ^ 32)
    (fuel : Nat) {k : Nat} (hk : k + 1 ≤ max (size b v) NumDigits) (hfuel : max (size b v) NumDigits ≤ k + fuel) :
    digitOf b v fuel (b ^ k) ((NumDigits : Int) - k) = some (b ^ (max (size b v) NumDigits - 1)) := by
  induction fuel generalizing k with
  | zero => omega
  | succ fuel ih =>
    have hpos : 0 < b ^ k := Nat.pow_pos (by omega)
    have hsize := size_le_iff (b := b) hb (n := k) (v := v)
    have hklt : k < 32 := by
      apply (Nat.pow_lt_pow_iff_right (a := 2) (by decide)).mp
      calc 2 ^ k ≤ b ^ k := Nat.pow_le_pow_left hb k
        _ ≤ b ^ (max (size b v) NumDigits - 1) := Nat.pow_le_pow_right (by omega) (by omega)
        _ < 2 ^ 32 := hpow
    have hdefined : ¬ (b ^ k = 0 ∨ (NumDigits : Int) - k = -2 ^ 31) := by omega
    unfold digitOf
    rw [if_neg hdefined]
    by_cases hmore : k + 2 ≤ max (size b v) NumDigits
    · have hnext : b ^ k * b % 2 ^ 32 = b ^ (k + 1) := by
        rw [← Nat.pow_succ]
        apply Nat.mod_eq_of_lt
        exact lt_of_le_of_lt (Nat.pow_le_pow_right (by omega) (by omega)) hpow
      rw [if_pos, hnext]
      · have hrest := ih (k := k + 1) (by omega) (by omega)
        rw [← hrest]
        congr 1
        omega
      · by_cases hs : size b v ≤ k + 1
        · right
          omega
        · left
          rw [hsize] at hs
          omega
    · have hend : max (size b v) NumDigits - 1 = k := by omega
      rw [if_neg, hend]
      intro hor
      have hs : v / b ^ k < b := hsize.mp (by omega)
      omega

/-! ## numbers -/

section
variable {s : Target} {i b : Nat}

theorem aV2C_get {d : Nat} (hd : d < 16) : _aV2C[d]? = some (digitChar d) := by
  have hall : ∀ d < 16, _aV2C[d]? = some (digitChar d) := by decide
  exact hall d hd

/-- the digits, from that of the weight `b ^ n` on -/
theorem outputs_putDigits (hi : i < s.cb.aUp.length) (hb : 1 < b) (hb' : b ≤ 16) {fuel n v : Nat}
    (hv : v < b ^ (n + 1)) (hfuel : n < fuel) :
    Outputs (Stuck s i) s i ((numeral b (n + 1) v).map digitChar) (putDigits b fuel v (b ^ n)) () := by
  induction fuel generalizing n v with
  | zero => omega
  | succ fuel ih =>
    have hpos : 0 < b ^ n := pow_pos_of_lt hv
    have hd : v / b ^ n < b := by
      rw [Nat.div_lt_iff_lt_mul hpos, ← Nat.pow_succ']
      exact hv
    have hrest : v - v / b ^ n * b ^ n = v % b ^ n := by
      apply Nat.sub_eq_of_eq_add
      rw [Nat.add_comm, Nat.div_add_mod']
    unfold putDigits
    simp only [aV2C_get (Nat.lt_of_lt_of_le hd hb'), hrest]
    rw [numeral, List.map_cons]
    refine Outputs.andThen [digitChar (v / b ^ n)] late_stuck (prints_store hi _) ?_
    cases n with
    | zero =>
      rw [Nat.pow_zero, if_pos (Nat.div_eq_of_lt hb)]
      exact Outputs.pure ()
    | succ n =>
      have hdiv : b ^ (n + 1) / b = b ^ n := by
        rw [Nat.pow_succ, Nat.mul_div_cancel _ (by omega)]
      have hpos' : 0 < b ^ n := Nat.pow_pos (by omega)
      rw [hdiv, if_neg (by omega)]
      exact ih (Nat.mod_lt _ hpos) (by omega)

/-- the spaces behind a number -/
theorem Outputs.thenPad (hi : i < s.cb.aUp.length) {out : List Byte} {m : Printer Unit}
    (hm : Outputs (Stuck s i) s i out m ()) (Width FieldWidth : Nat) :
    Outputs (Broken s i) s i (out ++ spaces (FieldWidth - Width))
      (m >>= fun _ => Rtt.andThen (pad 0x20 Width FieldWidth) fun _ => Pure.pure ()) () := by
  intro t p h hlen
  have hlen' : (t ++ out).length < 2 ^ 31 := by
    simp only [List.length_append] at hlen ⊢
    omega
  obtain ⟨p', hrun, hwait⟩ | ⟨p', hrun, hgo | hstuck⟩ := hm t p h hlen'
  · exact Or.inl ⟨p', bind_error hrun, waits_left hwait⟩
  · have hpad := (Outputs.andThen (k := fun _ => Pure.pure ()) _ late_broken (prints_pad hi 0x20 Width FieldWidth)
      (Outputs.pure ()))
    rw [List.append_nil] at hpad
    rw [bind_ok hrun, ← List.append_assoc]
    rw [← List.append_assoc] at hlen
    exact hpad _ p' hgo hlen
  · rw [bind_ok hrun, ← List.append_assoc]
    unfold Rtt.andThen
    obtain ⟨p2, hrun2, hwait⟩ | ⟨o, p2, hrun2, hbroken⟩ := pad_stuck hi hstuck 0x20 Width FieldWidth
    · refine Or.inl ⟨p2, bind_error hrun2, hwait.mono ?_⟩
      simp only [List.length_append]
      omega
    · refine Or.inr ⟨p2, ?_, Or.inr (hbroken.append _)⟩
      rw [bind_ok hrun2]
      cases o <;> rfl

/-- The digits of a number are as many as its weight says. -/
theorem outputs_digits (hi : i < s.cb.aUp.length) (hb : 1 < b) (hb' : b ≤ 16) {v NumDigits : Nat}
    (hpow : b ^ (max (size b v) NumDigits - 1) < 2 ^ 32) :
    Outputs (Stuck s i) s i (digits b NumDigits v) (putDigits b 32 v (b ^ (max (size b v) NumDigits - 1))) () := by
  have hsize : 0 < size b v := Nat.succ_pos _
  obtain ⟨n, hn⟩ : ∃ n, max (size b v) NumDigits = n + 1 := ⟨max (size b v) NumDigits - 1, by omega⟩
  have hfits := numeral_fits hb NumDigits v
  unfold digits
  rw [hn] at hpow hfits ⊢
  rw [Nat.add_sub_cancel] at hpow ⊢
  apply outputs_putDigits hi hb hb' hfits
  apply (Nat.pow_lt_pow_iff_right (a := 2) (by decide)).mp
  calc 2 ^ n ≤ b ^ n := Nat.pow_le_pow_left hb n
    _ < 2 ^ 32 := hpow

theorem unsigned_natCast (n : Nat) : unsigned n = n := by
  unfold unsigned
  rw [if_pos (Int.natCast_nonneg n), Int.toNat_natCast]

theorem outputs_printUnsigned (hi : i < s.cb.aUp.length) (hb : 1 < b) (hb' : b ≤ 16) {v NumDigits : Nat}
    (hv : v < 2 ^ 32) (hpow : b ^ (max (size b v) NumDigits - 1) < 2 ^ 32) (FieldWidth : Nat) (f : FormatFlags) :
    Outputs (Broken s i) s i (unsignedText b v NumDigits FieldWidth f)
      (_PrintUnsigned v b NumDigits FieldWidth f) () := by
  have hsize : 0 < size b v := Nat.succ_pos _
  have hlt : max (size b v) NumDigits ≤ 33 := by
    have hn : max (size b v) NumDigits - 1 < 32 := by
      apply (Nat.pow_lt_pow_iff_right (a := 2) (by decide)).mp
      calc 2 ^ (max (size b v) NumDigits - 1) ≤ b ^ (max (size b v) NumDigits - 1) := Nat.pow_le_pow_left hb _
        _ < 2 ^ 32 := hpow
    omega
  have hdigit : digitOf b v 33 1 (NumDigits : Int) = some (b ^ (max (size b v) NumDigits - 1)) := by
    have h := digitOf_eq hb hpow 33 (k := 0) (by omega) (by omega)
    rw [Nat.pow_zero, Int.natCast_zero, Int.sub_zero] at h
    exact h
  have hdigits := outputs_digits hi hb hb' hpow
  have hzero : (NumDigits : Int) = 0 ↔ NumDigits = 0 := Int.natCast_eq_zero
  unfold _PrintUnsigned unsignedText
  simp only [unsigned_natCast, fieldOf_eq hb hv, hdigit, hzero]
  by_cases hleft : f.LEFT_JUSTIFY
  · simp only [if_pos hleft]
    exact Outputs.andThen [] late_broken (Prints.pure FieldWidth) (hdigits.thenPad hi _ _)
  · simp only [if_neg hleft]
    exact Outputs.andThen _ late_broken (prints_pad hi _ _ _) (hdigits.broken.map ())

theorem prints_sign (hi : i < s.cb.aUp.length) (v : Int) (f : FormatFlags) :
    Prints s i (signText v f) (if v < 0 then store 0x2D else if f.PRINT_SIGN then store 0x2B else Pure.pure (some ()))
      () := by
  unfold signText
  by_cases hneg : v < 0
  · rw [if_pos hneg, if_pos hneg]
    exact prints_store hi _
  · rw [if_neg hneg, if_neg hneg]
    by_cases hplus : f.PRINT_SIGN
    · rw [if_pos hplus, if_pos hplus]
      exact prints_store hi _
    · rw [if_neg hplus, if_neg hplus]
      exact Prints.pure ()

/-- the field width, less the sign -/
theorem field_less_sign (v : Int) (f : FormatFlags) (FieldWidth : Nat) :
    (if FieldWidth > 0 ∧ (v < 0 ∨ f.PRINT_SIGN) then FieldWidth - 1 else FieldWidth) =
      FieldWidth - (signText v f).length := by
  unfold signText
  by_cases hneg : v < 0
  · rw [if_pos hneg, List.length_singleton]
    split
    · rfl
    · next hz =>
      have hzero : FieldWidth = 0 := by simpa [hneg] using hz
      omega
  · rw [if_neg hneg]
    by_cases hplus : f.PRINT_SIGN
    · rw [if_pos hplus, List.length_singleton]
      split
      · rfl
      · next hz =>
        have hzero : FieldWidth = 0 := by simpa [hplus] using hz
        omega
    · rw [if_neg hplus, if_neg (by simp [hneg, hplus])]
      rfl

/-- nothing is left to fill -/
theorem unsignedText_narrow {v NumDigits FieldWidth : Nat} {f : FormatFlags} (hleft : ¬ f.LEFT_JUSTIFY)
    (h : FieldWidth ≤ max (size b v) NumDigits) :
    unsignedText b v NumDigits FieldWidth f = digits b NumDigits v := by
  unfold unsignedText
  dsimp only
  rw [if_neg hleft, Nat.sub_eq_zero_of_le h, List.replicate_zero, List.nil_append]

theorem int_natCast {n : Nat} (hn : n < 2 ^ 31) : int n = n := if_pos hn

theorem outputs_printInt (hi : i < s.cb.aUp.length) (hb : 1 < b) (hb' : b ≤ 16) {v : BitVec 32}
    (hv : v ≠ BitVec.intMin 32) {NumDigits : Nat} (hn : NumDigits < 2 ^ 31)
    (hpow : b ^ (max (size b v.toInt.natAbs) NumDigits - 1) < 2 ^ 32) (FieldWidth : Nat) (f : FormatFlags) :
    Outputs (Broken s i) s i (intText b v.toInt NumDigits FieldWidth f)
      (_PrintInt v b NumDigits FieldWidth f) () := by
  have hlt : v.toInt.natAbs < 2 ^ 32 := by
    have hlo := BitVec.le_toInt v
    have hhi := BitVec.toInt_lt (x := v)
    omega
  have hsign := prints_sign hi v.toInt f
  have hprint := outputs_printUnsigned hi hb hb' hlt hpow
  unfold _PrintInt
  rw [if_neg hv]
  simp only [field_less_sign, fieldOf_eq hb hlt, int_natCast hn]
  obtain ⟨F, hF⟩ : ∃ F, F = FieldWidth - (signText v.toInt f).length := ⟨_, rfl⟩
  obtain ⟨W, hW⟩ : ∃ W, W = max (size b v.toInt.natAbs) NumDigits := ⟨_, rfl⟩
  have htext : intText b v.toInt NumDigits FieldWidth f =
      if f.LEFT_JUSTIFY then signText v.toInt f ++ digits b NumDigits v.toInt.natAbs ++ spaces (F - W)
      else if f.PAD_ZERO ∧ NumDigits = 0 then
        signText v.toInt f ++ (List.replicate (F - W) 0x30 ++ digits b NumDigits v.toInt.natAbs)
      else spaces (F - W) ++ (signText v.toInt f ++ digits b NumDigits v.toInt.natAbs) := by
    rw [hF, hW]
    rfl
  rw [htext, ← hF, ← hW]
  have hnarrow : min F W - 1 ≤ max (size b v.toInt.natAbs) NumDigits := by omega
  by_cases hleft : f.LEFT_JUSTIFY
  · rw [if_pos hleft, if_neg (by simp [hleft]), List.append_assoc]
    have hlast := hprint F f
    have hunsigned : unsignedText b v.toInt.natAbs NumDigits F f =
        digits b NumDigits v.toInt.natAbs ++ spaces (F - W) := by
      rw [hW]
      exact if_pos hleft
    rw [hunsigned] at hlast
    refine Outputs.andThen [] late_broken (Prints.pure F) (Outputs.andThen _ late_broken hsign ?_)
    rw [if_neg (by simp [hleft])]
    exact Outputs.andThen [] late_broken (Prints.pure F) hlast
  · have hlast := hprint (min F W - 1) f
    rw [unsignedText_narrow hleft hnarrow] at hlast
    rw [if_neg hleft]
    by_cases hzero : f.PAD_ZERO ∧ NumDigits = 0
    · rw [if_pos hzero, if_neg (by simp [hzero])]
      refine Outputs.andThen [] late_broken (Prints.pure F) (Outputs.andThen _ late_broken hsign ?_)
      rw [if_pos ⟨hzero.1, hleft, hzero.2⟩]
      exact Outputs.andThen _ late_broken (prints_pad hi 0x30 W F) hlast
    · have hspaces : (¬ f.PAD_ZERO ∨ NumDigits ≠ 0) ∧ ¬ f.LEFT_JUSTIFY :=
        ⟨Classical.not_and_iff_not_or_not.mp hzero, hleft⟩
      rw [if_neg hzero, if_pos hspaces]
      refine Outputs.andThen _ late_broken (prints_pad hi 0x20 W F) (Outputs.andThen _ late_broken hsign ?_)
      rw [if_neg (fun h => hzero ⟨h.1, h.2.2⟩)]
      exact Outputs.andThen [] late_broken (Prints.pure _) hlast

end

end Rtt
end Pharoah
