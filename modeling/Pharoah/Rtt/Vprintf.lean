import Pharoah.Rtt.Printed

/-!
# Calls of `SEGGER_RTT_vprintf`

* `outputs_convert`     the code of a conversion prints its text;
* `outputs_loop`        the loop over a format prints what it stands for;
* `vprintf_sends`       **in every reachable state**, a call sends the text of its format as a whole if there is
                        room, or it may block; if it skips what does not fit, it sends whole chunks of the text,
                        or all but what remained in the buffer, and does not always say so;
* `printf_scans`        a number that is printed is read back from what is sent;
* `printf_precision_faults`   a hexadecimal precision above 8 divides by 0.
-/

namespace Pharoah
namespace Rtt

open Lts Numeral Prog

section
variable {s : Target} {i : Nat} {out : List Byte}

/-! ## conversions -/

theorem outputs_putString (hi : i < s.cb.aUp.length) {str : List Byte} (hz : 0 ∈ str) :
    Outputs (Stuck s i) s i (str.takeWhile (· ≠ 0)) (putString str) () := by
  induction str with
  | nil => cases hz
  | cons c str ih =>
    unfold putString
    by_cases hc : c = 0
    · rw [if_pos hc, List.takeWhile_cons_of_neg (by simpa using hc)]
      exact Outputs.pure ()
    · rw [if_neg hc, List.takeWhile_cons_of_pos (by simpa using hc)]
      have hz' := (List.mem_cons.mp hz).resolve_left (Ne.symm hc)
      exact Outputs.andThen [c] late_stuck (prints_store hi c) (ih hz')

/-- A number of 32 bits and a precision of 10 digits at most; the weight of the first digit is of 32 bits. -/
theorem weight_decimal {v n : Nat} (hv : v < 2 ^ 32) (hn : n ≤ 10) : 10 ^ (max (size 10 v) n - 1) < 2 ^ 32 := by
  have hsize : size 10 v ≤ 9 + 1 := (size_le_iff (by decide)).mpr (by omega)
  calc 10 ^ (max (size 10 v) n - 1) ≤ 10 ^ 9 := Nat.pow_le_pow_right (by decide) (by omega)
    _ < 2 ^ 32 := by decide

theorem weight_hexadecimal {v n : Nat} (hv : v < 2 ^ 32) (hn : n ≤ 8) : 16 ^ (max (size 16 v) n - 1) < 2 ^ 32 := by
  have hsize : size 16 v ≤ 7 + 1 := (size_le_iff (by decide)).mpr (by omega)
  calc 16 ^ (max (size 16 v) n - 1) ≤ 16 ^ 7 := Nat.pow_le_pow_right (by decide) (by omega)
    _ < 2 ^ 32 := by decide

theorem outputs_hexadecimal (hi : i < s.cb.aUp.length) (v : BitVec 32) {n : Nat} (hn : n ≤ 8) (F : Nat)
    (f : FormatFlags) :
    Outputs (Broken s i) s i (unsignedText 16 v.toNat n F f) (_PrintUnsigned v.toNat 16 (int n) F f) () := by
  rw [int_natCast (by omega)]
  exact outputs_printUnsigned hi (by decide) (by decide) v.isLt (weight_hexadecimal v.isLt hn) F f

/-- The code of a conversion prints its text, and goes on with the arguments that are left. -/
theorem outputs_convert (hi : i < s.cb.aUp.length) {cv : Conversion} {args args' : List Arg}
    (h : cv.rendered args = some (out, args')) :
    Outputs (Broken s i) s i out (convert cv.directive args) args' := by
  obtain ⟨flags, F, precision, modifiers, specifier, hw, hp⟩ := cv
  unfold Conversion.rendered at h
  cases specifier with
  | percent =>
    cases h
    exact (outputs_storeChar hi 0x25).broken.map args
  | s =>
    obtain _ | ⟨v | str, args⟩ := args
    · cases h
    · cases h
    · dsimp only at h
      split at h <;> cases h
      next hz => exact (outputs_putString hi hz).broken.map args'
  | c =>
    obtain _ | ⟨v | str, args⟩ := args <;> cases h
    exact (outputs_storeChar hi _).broken.map args'
  | d =>
    obtain _ | ⟨v | str, args⟩ := args
    · cases h
    · dsimp only at h
      split at h <;> cases h
      next hv =>
        have hlt : v.toInt.natAbs < 2 ^ 32 := by
          have hlo := BitVec.le_toInt v
          have hhi := BitVec.toInt_lt (x := v)
          omega
        exact (outputs_printInt hi (by decide) (by decide) hv.1 (by omega) (weight_decimal hlt hv.2) F _).map args'
    · cases h
  | u =>
    obtain _ | ⟨v | str, args⟩ := args
    · cases h
    · dsimp only at h
      split at h <;> cases h
      next hn =>
        have hout := outputs_printUnsigned hi (by decide) (by decide) v.isLt (weight_decimal v.isLt hn) F
          (flags.foldl FormatFlags.add .zero)
        rw [← int_natCast (by omega : precision.getD 0 < 2 ^ 31)] at hout
        exact hout.map args'
    · cases h
  | x =>
    obtain _ | ⟨v | str, args⟩ := args
    · cases h
    · dsimp only at h
      split at h <;> cases h
      next hn => exact (outputs_hexadecimal hi v hn F _).map args'
    · cases h
  | X =>
    obtain _ | ⟨v | str, args⟩ := args
    · cases h
    · dsimp only at h
      split at h <;> cases h
      next hn => exact (outputs_hexadecimal hi v hn F _).map args'
    · cases h
  | p =>
    obtain _ | ⟨v | str, args⟩ := args <;> cases h
    exact (outputs_hexadecimal hi v (Nat.le_refl 8) 8 .zero).map args'

/-! ## the loop -/

/-- The loop over a format prints what it stands for. -/
theorem outputs_loop (hi : i < s.cb.aUp.length) {items : List Item} {args : List Arg} {text : List Byte}
    (h : rendered items args = some text) (fuel : Nat) (hfuel : items.length < fuel) :
    Outputs (Broken s i) s i text (vprintfLoop fuel (format items) args) () := by
  induction items generalizing args text fuel with
  | nil =>
    obtain ⟨n, rfl⟩ := Nat.exists_eq_succ_of_ne_zero (by omega : fuel ≠ 0)
    cases h
    exact Outputs.pure ()
  | cons item items ih =>
    obtain ⟨n, rfl⟩ := Nat.exists_eq_succ_of_ne_zero (by omega : fuel ≠ 0)
    have hn : items.length < n := Nat.lt_of_succ_lt_succ hfuel
    have hformat : format (item :: items) = item.text ++ format items := by
      rw [format, List.flatMap_cons, List.append_assoc]
      rfl
    rw [hformat]
    cases item with
    | char c ordinary =>
      obtain ⟨rest, hrest, rfl⟩ := Option.map_eq_some_iff.mp h
      show Outputs (Broken s i) s i (c :: rest) (vprintfLoop (n + 1) (c :: format items) args) ()
      rw [vprintfLoop, if_neg ordinary.1, if_neg ordinary.2]
      exact Outputs.andThen [c] late_broken (prints_store hi c) (ih hrest n hn)
    | conversion cv swallowed one =>
      obtain ⟨⟨out, args'⟩, hconv, hout⟩ := Option.bind_eq_some_iff.mp h
      obtain ⟨rest, hrest, rfl⟩ := Option.map_eq_some_iff.mp hout
      have hdirective := directive_item one (format items)
      have hitem : (Item.conversion cv swallowed one).text ++ format items =
          0x25 :: (cv.text ++ (swallowed ++ format items)) := by
        rw [Item.text, List.cons_append, List.cons_append, List.append_assoc]
      have hne : ¬ ((0x25 : Byte) = 0) := by decide
      rw [hitem, vprintfLoop, if_neg hne, if_pos rfl, hdirective]
      -- the rule of `convert`, and then the check of `ReturnValue`
      intro t p hgo hlen
      have hlen' : (t ++ out).length < 2 ^ 31 := by
        simp only [List.length_append] at hlen ⊢
        omega
      obtain ⟨p', hrun, hwait⟩ | ⟨p', hrun, hgo' | hbroken⟩ := outputs_convert hi hconv t p hgo hlen'
      · exact Or.inl ⟨p', bind_error hrun, waits_left hwait⟩
      · have hvalue := hgo'.value
        rw [← List.append_assoc] at hlen ⊢
        simp only [bind_ok hrun, get_bind]
        rw [if_neg (by omega)]
        exact ih hrest n hn _ p' hgo' hlen
      · have hvalue := hbroken.value
        rw [← List.append_assoc]
        simp only [bind_ok hrun, get_bind]
        rw [if_pos (by omega)]
        exact Or.inr ⟨p', rfl, Or.inr (hbroken.append _)⟩

/-! ## the call -/

/-- What a call leads to that began at `s`: the text `t`, the value `r`, the state after it. -/
structure Printed (s : Target) (i : Nat) (t : List Byte) (r : Int) (s' : Target) : Prop where
  value : r = t.length + (t.length % 128 : Nat) ∨ (r = -1 ∧ ¬ Surely s i t.length)
  sends : ∃ bs, s.Sends i bs s' ∧ (Surely s i t.length → bs = t) ∧
    (s.mode i = SEGGER_RTT_MODE_NO_BLOCK_SKIP → ∃ j, bs = t.take j ∧ (128 ∣ j ∨ t.length ≤ j))

theorem chunks_append (t : List Byte) (n : Nat) :
    t.take (chunks t) ++ (t.drop (chunks t)).take n = t.take (chunks t + n) := (List.take_add).symm

/-- The end of a call that is going: what remains is written, and counted once more. -/
theorem writeRest_going (hi : i < s.cb.aUp.length) {t : List Byte} {p : Printing} (h : Going s i t p)
    (hlen : t.length + 128 ≤ 2 ^ 31) :
    (∃ s', writeRest p.desc p.target = .error .waiting s' ∧ Waits s i t.length) ∨
      ∃ r s', writeRest p.desc p.target = .ok r s' ∧ Printed s i t r s' := by
  have hvalue := h.value
  have hcnt := h.cnt
  have hsum : chunks t + t.length % 128 = t.length := by
    unfold chunks
    omega
  have hret : p.desc.ReturnValue + p.desc.Cnt = t.length + (t.length % 128 : Nat) := by rw [hvalue, hcnt]
  have hsmall : p.desc.ReturnValue + p.desc.Cnt < 2 ^ 31 := by omega
  unfold writeRest
  by_cases hpos : p.desc.ReturnValue > 0
  · rw [if_pos hpos]
    by_cases hrest : p.desc.Cnt ≠ 0
    · simp only [if_pos hrest, if_pos hsmall]
      rw [h.index, h.held]
      have hmode : p.target.mode i = s.mode i := h.sends.mode_eq hi
      have hfree := h.sends.free_le hi
      have hle : chunks t ≤ t.length := Nat.sub_le _ _
      rw [List.length_take_of_le hle] at hfree
      have hdl : (t.drop (chunks t)).length = t.length % 128 := by
        rw [List.length_drop]
        omega
      obtain ⟨hwait, hwhy⟩ | ⟨n, s', hrun, hsends, hsure, hskip, -⟩ :=
        write_result h.sends.ok (h.up_lt hi) (by omega : (t.drop (chunks t)).length < 2 ^ 31)
      · refine Or.inl ⟨_, bind_error hwait, ?_⟩
        rw [hmode] at hwhy
        by_cases hblock : s.mode i = SEGGER_RTT_MODE_BLOCK_IF_FIFO_FULL
        · exact Or.inl hblock
        · have hbefore := h.host hblock
          have hlate := hwhy.resolve_left hblock
          exact Or.inr (by omega)
      · have hall := h.sends.trans hsends
        rw [chunks_append] at hall
        rw [hmode] at hskip
        refine Or.inr ⟨_, s', ?_, Or.inl hret, _, hall, fun hs => ?_, fun hmode' => ⟨_, rfl, ?_⟩⟩
        · rw [bind_ok hrun]
          rfl
        · have hn : n = t.length % 128 := by
            rw [← hdl]
            apply hsure
            refine hs.imp (fun hfits => ?_) fun hblock => hmode.trans hblock
            omega
          rw [hn, hsum, List.take_length]
        · by_cases hn : n = t.length % 128
          · right
            omega
          · left
            rw [hskip hmode' (fun he => hn (he.trans hdl))]
            unfold chunks
            omega
    · have hz : t.length % 128 = 0 := by omega
      simp only [if_neg hrest, if_pos hsmall]
      have hall := h.sends
      have hchunks : chunks t = t.length := by omega
      rw [hchunks, List.take_length] at hall
      exact Or.inr ⟨_, _, rfl, Or.inl hret, t, hall, fun _ => rfl,
        fun _ => ⟨t.length, List.take_length.symm, Or.inr (Nat.le_refl _)⟩⟩
  · have ht : t = [] := List.eq_nil_of_length_eq_zero (by omega)
    rw [if_neg hpos]
    subst ht
    exact Or.inr ⟨_, _, rfl, Or.inl hvalue, [], h.sends, fun _ => rfl,
      fun _ => ⟨0, rfl, Or.inl (Nat.dvd_zero 128)⟩⟩

theorem length_items (items : List Item) : items.length ≤ (format items).length := by
  induction items with
  | nil => exact Nat.zero_le _
  | cons item items ih =>
    have hone : 1 ≤ item.text.length := by
      cases item with
      | char c _ => exact Nat.le_refl 1
      | conversion cv swallowed _ => exact Nat.succ_le_succ (Nat.zero_le _)
    unfold format at ih ⊢
    simp only [List.flatMap_cons, List.length_append, List.length_cons] at ih ⊢
    omega

/-- A call with a format that stands for `text`. -/
theorem vprintf_printed (h : s.Ok) (hi : i < s.cb.aUp.length) {items : List Item} {args : List Arg}
    {text : List Byte} (htext : rendered items args = some text) (hlen : text.length + 128 ≤ 2 ^ 31) :
    (∃ s', SEGGER_RTT_vprintf i (format items) args s = .error .waiting s' ∧ Waits s i text.length) ∨
      ∃ r s', SEGGER_RTT_vprintf i (format items) args s = .ok r s' ∧ Printed s i text r s' := by
  have hitems := length_items items
  have hloop := outputs_loop hi htext ((format items).length + 1) (by omega) [] _ (going_nil h i)
    (by rw [List.nil_append]; omega)
  rw [List.nil_append] at hloop
  unfold SEGGER_RTT_vprintf
  obtain ⟨p, hrun, hwait⟩ | ⟨p, hrun, hgo | hbroken⟩ := hloop
  · exact Or.inl ⟨p.target, by rw [hrun], hwait⟩
  · rw [hrun]
    exact writeRest_going hi hgo hlen
  · have hvalue := hbroken.value
    obtain ⟨bs, hsends, hskip⟩ := hbroken.sends
    refine Or.inr ⟨-1, p.target, ?_, Or.inr ⟨rfl, hbroken.short⟩, bs, hsends,
      fun hs => absurd hs hbroken.short, fun hmode => ?_⟩
    · rw [hrun]
      dsimp only
      unfold writeRest
      rw [if_neg (by omega), hvalue]
      rfl
    · obtain ⟨j, -, hdvd, hbs⟩ := hskip hmode
      exact ⟨j, hbs, Or.inl hdvd⟩

end

/-- In every reachable state, for every format whose text is defined: a call does not fault, and it returns
if it must not block and the host makes enough moves.  If there is room for the text, or the call may block,
it sends the text and returns its length, to which the length of the last, shorter chunk is added again.  A
call that skips what does not fit sends the first chunks of the text, or all of it; it returns -1, or what it
returns when all has been sent.  The text and a chunk more have a length that is not negative as an int. -/
theorem vprintf_sends {host : List Nat} (hask : ∀ ask ∈ host, ask < 2 ^ 31) {es : List Event}
    (hv : ∀ e ∈ es, e.Valid) {s : Target} (hr : exec Target.step (Target.init host) es = some s) {i : Nat}
    (hi : i < SEGGER_RTT_MAX_NUM_UP_BUFFERS) {items : List Item} {args : List Arg} {text : List Byte}
    (htext : rendered items args = some text) (hlen : text.length + 128 ≤ 2 ^ 31) :
    (∀ s', SEGGER_RTT_vprintf i (format items) args s ≠ .error .fault s') ∧
      (s.mode i ≠ SEGGER_RTT_MODE_BLOCK_IF_FIFO_FULL → 3 * (text.length / 128 + 1) ≤ s.host.length →
        ∃ r s', SEGGER_RTT_vprintf i (format items) args s = .ok r s') ∧
      ∀ r s', SEGGER_RTT_vprintf i (format items) args s = .ok r s' →
        ∃ bs, s'.sent i = s.sent i ++ bs ∧
          (Surely s i text.length → bs = text ∧ r = text.length + (text.length % 128 : Nat)) ∧
          (s.mode i = SEGGER_RTT_MODE_NO_BLOCK_SKIP → ∃ j, bs = text.take j ∧ (128 ∣ j ∨ text.length ≤ j)) ∧
          (r = -1 ∨ r = text.length + (text.length % 128 : Nat)) := by
  have hok := ok_run hask hv hr
  obtain ⟨s1, hrun, hwait⟩ | ⟨r, s1, hrun, hvalue, bs, hsends, hall, hskip⟩ :=
    vprintf_printed hok (hok.up_lt hi) htext hlen
  · rw [hrun]
    refine ⟨fun s' he => (by cases he), fun hmode hmoves => ?_, fun r s' he => (by cases he)⟩
    obtain hblock | hfew := hwait
    · exact absurd hblock hmode
    · omega
  · rw [hrun]
    refine ⟨fun s' he => (by cases he), fun _ _ => ⟨r, s1, rfl⟩, fun r' s' he => ?_⟩
    cases he
    refine ⟨bs, by rw [hsends.sent, extend_self], fun hs => ⟨hall hs, ?_⟩, hskip, ?_⟩
    · exact hvalue.resolve_right fun hbad => hbad.2 hs
    · exact hvalue.symm.imp And.left id

/-- `"n%04d"` -/
def someFormat : List Item :=
  [.char 0x6E (by decide), .conversion ⟨[.PAD_ZERO], 4, none, [], .d, by decide, by decide⟩ [] rfl]

set_option maxRecDepth 100000 in
theorem vprintf_sends_some : ∃ s',
    SEGGER_RTT_vprintf 0 (format someFormat) [.int (-7)] (Target.init [0, 0, 0]) = .ok 10 s' ∧
      s'.sent 0 = [0x6E, 0x2D, 0x30, 0x30, 0x37] :=
  have h := @vprintf_sends [0, 0, 0] (by decide) [] (fun _ he => by cases he) _ rfl 0 (by decide) someFormat
    [.int (-7)] [0x6E, 0x2D, 0x30, 0x30, 0x37] rfl (by decide)
  have hrun := h.2.1 (by decide) (by decide)
  hrun.elim fun r hr => hr.elim fun s' hs' => (h.2.2 r s' hs').elim fun bs hbs =>
    have hall := hbs.2.1 (Or.inl (by decide))
    ⟨s', hs'.trans (by rw [hall.2]; rfl), by rw [hbs.1, hall.1]; rfl⟩

/-! ## numbers are read back -/

/-- the base of a conversion of a number, and the number that the argument stands for -/
def Specifier.number (v : BitVec 32) : Specifier → Option (Nat × Int)
  | .d => some (10, v.toInt)
  | .u => some (10, v.toNat)
  | .x | .X | .p => some (16, v.toNat)
  | _ => none

theorem scanInt_unsignedText {b : Nat} (hb : 1 < b) (hb' : b ≤ 16) (v NumDigits FieldWidth : Nat) (f : FormatFlags) :
    scanInt b (unsignedText b v NumDigits FieldWidth f) = some (v : Int) ∧
      FieldWidth ≤ (unsignedText b v NumDigits FieldWidth f).length := by
  rw [unsignedText_eq, length_intText]
  exact ⟨scanInt_intText hb hb' v _ _ _, Nat.le_max_left _ _⟩

/-- The text of a number is read back, and fills its field; `%p` does not look at the field width. -/
theorem scanInt_rendered {cv : Conversion} {v : BitVec 32} {args args' : List Arg} {text : List Byte} {b : Nat} {z : Int}
    (hnum : cv.specifier.number v = some (b, z)) (htext : cv.rendered (.int v :: args) = some (text, args')) :
    scanInt b text = some z ∧ (cv.specifier ≠ .p → cv.FieldWidth ≤ text.length) := by
  obtain ⟨flags, F, precision, modifiers, specifier, hw, hp⟩ := cv
  have hexa := fun n F f => scanInt_unsignedText (b := 16) (by decide) (by decide) v.toNat n F f
  have hdec := fun n F f => scanInt_unsignedText (b := 10) (by decide) (by decide) v.toNat n F f
  unfold Conversion.rendered at htext
  cases specifier
  case c | s | percent => cases hnum
  case d =>
    dsimp only at htext
    split at htext <;> cases htext
    cases hnum
    refine ⟨scanInt_intText (by decide) (by decide) _ _ _ _, fun _ => ?_⟩
    rw [length_intText]
    exact Nat.le_max_left _ _
  case u =>
    dsimp only at htext
    split at htext <;> cases htext
    cases hnum
    exact ⟨(hdec _ _ _).1, fun _ => (hdec _ _ _).2⟩
  case x | X =>
    dsimp only at htext
    split at htext <;> cases htext
    cases hnum
    exact ⟨(hexa _ _ _).1, fun _ => (hexa _ _ _).2⟩
  case p =>
    cases htext
    cases hnum
    exact ⟨(hexa _ _ _).1, fun hne => absurd rfl hne⟩

/-- In every reachable state: a number that is printed as a whole, with any flags, field width and precision
for which its text is defined, is read back from the bytes that are sent, and these fill the field, but for
`%p`, which does not look at the field width.  The length of the text is bounded as for `vprintf_sends`. -/
theorem printf_scans {host : List Nat} (hask : ∀ ask ∈ host, ask < 2 ^ 31) {es : List Event}
    (hv : ∀ e ∈ es, e.Valid) {s : Target} (hr : exec Target.step (Target.init host) es = some s) {i : Nat}
    (hi : i < SEGGER_RTT_MAX_NUM_UP_BUFFERS) {cv : Conversion} {swallowed : List Byte}
    (one : swallowed.length = if cv.modifiers = [] then 0 else 1) {v : BitVec 32} {b : Nat} {z : Int}
    (hnum : cv.specifier.number v = some (b, z)) {text : List Byte} {args : List Arg}
    (htext : cv.rendered [.int v] = some (text, args)) (hlen : text.length + 128 ≤ 2 ^ 31)
    (hsure : Surely s i text.length) {r : Int} {s' : Target}
    (hrun : SEGGER_RTT_printf i (format [.conversion cv swallowed one]) [.int v] s = .ok r s') :
    ∃ bs, s'.sent i = s.sent i ++ bs ∧ scanInt b bs = some z ∧ (cv.specifier ≠ .p → cv.FieldWidth ≤ bs.length) := by
  have hok := ok_run hask hv hr
  have hrendered : rendered [.conversion cv swallowed one] [.int v] = some text := by
    rw [rendered, htext]
    show some (text ++ []) = _
    rw [List.append_nil]
  obtain ⟨s1, hrun', -⟩ | ⟨r1, s1, hrun', -, bs, hsends, hall, -⟩ :=
    vprintf_printed hok (hok.up_lt hi) hrendered hlen
  · rw [SEGGER_RTT_printf, hrun'] at hrun
    cases hrun
  · rw [SEGGER_RTT_printf, hrun'] at hrun
    cases hrun
    rw [hall hsure] at hsends
    exact ⟨text, by rw [hsends.sent, extend_self], scanInt_rendered hnum htext⟩

set_option maxRecDepth 100000 in
/-- `"%+6.3d"` of 42 -/
theorem printf_scans_some : ∃ r s' bs,
    SEGGER_RTT_printf 0 [0x25, 0x2B, 0x36, 0x2E, 0x33, 0x64, 0] [.int 42] (Target.init [0, 0, 0]) = .ok r s' ∧
      s'.sent 0 = [] ++ bs ∧ scanInt 10 bs = some 42 :=
  have h := @printf_scans [0, 0, 0] (by decide) [] (fun _ he => by cases he) _ rfl 0 (by decide)
    ⟨[.PRINT_SIGN], 6, some 3, [], .d, by decide, by decide⟩ [] rfl 42 10 42 rfl
    [0x20, 0x20, 0x2B, 0x30, 0x34, 0x32] [] rfl (by decide) (Or.inl (by decide)) _ _ rfl
  h.elim fun bs hbs => ⟨_, _, bs, rfl, hbs.1, hbs.2.1⟩

/-! ## a precision that is too large -/

/-- `Digit` overflows to 0 before 9 digits are counted. -/
theorem digitOf_overflow (v : Nat) {n : Nat} (hn : 9 ≤ n) (hsmall : n < 2 ^ 31) :
    digitOf 16 v 33 1 (n : Int) = none := by
  have hturn : ∀ (fuel k : Nat), k < 8 → digitOf 16 v (fuel + 1) (16 ^ k) ((n : Int) - k) =
      digitOf 16 v fuel (16 ^ (k + 1) % 2 ^ 32) ((n : Int) - (k + 1 : Nat)) := by
    intro fuel k hk
    have hpos : 0 < 16 ^ k := Nat.pow_pos (by decide)
    have hdefined : ¬ (16 ^ k = 0 ∨ (n : Int) - k = -2 ^ 31) := by omega
    have hmore : v / 16 ^ k ≥ 16 ∨ (n : Int) - k > 1 := Or.inr (by omega)
    have hnext : (n : Int) - k - 1 = n - (k + 1 : Nat) := by omega
    rw [digitOf, if_neg hdefined, if_pos hmore, ← Nat.pow_succ, hnext]
  have hweight : ∀ k < 8, 16 ^ k % 2 ^ 32 = 16 ^ k := by decide
  have hrun : ∀ (k : Nat), k < 8 → digitOf 16 v 33 1 (n : Int) =
      digitOf 16 v (32 - k) (16 ^ (k + 1) % 2 ^ 32) ((n : Int) - (k + 1 : Nat)) := by
    intro k hk
    induction k with
    | zero =>
      have h := hturn 32 0 (by decide)
      rw [Int.natCast_zero, Int.sub_zero] at h
      exact h
    | succ k ih =>
      have hfuel : 32 - k = 31 - k + 1 := by omega
      have hfuel' : 32 - (k + 1) = 31 - k := by omega
      rw [ih (by omega), hweight (k + 1) hk, hfuel, hturn _ _ hk, hfuel']
  rw [hrun 7 (by decide)]
  rfl

/-- A hexadecimal number of unlimited field with a precision from 9 to 2^31 - 1 is never printed: in every state,
and for every number, the code divides by 0.  A larger precision does not fit the `int` that has it. -/
theorem printf_precision_faults (s : Target) (i : Nat) {cv : Conversion} {swallowed : List Byte}
    (one : swallowed.length = if cv.modifiers = [] then 0 else 1) (v : BitVec 32) {n : Nat}
    (hspec : cv.specifier = .x ∨ cv.specifier = .X) (hwidth : cv.FieldWidth = 0) (hprec : cv.precision = some n)
    (hn : 9 ≤ n) (hsmall : n < 2 ^ 31) :
    SEGGER_RTT_printf i (format [.conversion cv swallowed one]) [.int v] s = .error .fault s := by
  have hprint : ∀ p, _PrintUnsigned v.toNat 16 (int n) 0 cv.directive.FormatFlags p = .error .fault p := by
    intro p
    rw [int_natCast hsmall]
    unfold _PrintUnsigned
    simp only [digitOf_overflow v.toNat hn hsmall]
    by_cases hleft : cv.directive.FormatFlags.LEFT_JUSTIFY
    · simp only [if_pos hleft]
      rfl
    · simp only [if_neg hleft]
      rfl
  have hconvert : ∀ p, convert cv.directive [.int v] p = .error .fault p := by
    intro p
    have hcase : convert cv.directive [.int v] =
        vaInt (fun v => _PrintUnsigned v.toNat 16 (int n) 0 cv.directive.FormatFlags) [.int v] := by
      obtain ⟨flags, F, precision, modifiers, specifier, hw, hp⟩ := cv
      dsimp only at hspec hwidth hprec
      subst hwidth hprec
      obtain rfl | rfl := hspec <;> rfl
    rw [hcase]
    exact bind_error (hprint p)
  have hformat : format [.conversion cv swallowed one] = 0x25 :: (cv.text ++ (swallowed ++ [0])) := by
    simp only [format, Item.text, List.flatMap_cons, List.flatMap_nil, List.append_nil, List.cons_append,
      List.append_assoc]
  have hne : ¬ ((0x25 : Byte) = 0) := by decide
  unfold SEGGER_RTT_printf SEGGER_RTT_vprintf
  rw [hformat, vprintfLoop, if_neg hne, if_pos rfl, directive_item one]
  simp only [bind_error (hconvert _)]

theorem printf_precision_faults_nine :
    SEGGER_RTT_printf 0 [0x25, 0x2E, 0x39, 0x78, 0] [.int 255] (Target.init []) = .error .fault (Target.init []) :=
  @printf_precision_faults (Target.init []) 0 ⟨[], 0, some 9, [], .x, by decide, by decide⟩ [] rfl 255 9
    (Or.inl rfl) rfl rfl (by decide) (by decide)

end Rtt
end Pharoah
