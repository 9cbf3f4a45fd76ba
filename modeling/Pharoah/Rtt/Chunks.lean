import Pharoah.Rtt.Printf

/-!
# Text in chunks

The buffer of a call of `SEGGER_RTT_vprintf` holds the end of the text, and the rest has been sent in chunks
of its size.

* `Going s i t p`      the call has printed `t` since it began at `s`, and all its writes were whole;
* `Stuck`, `Broken`    a write was not whole, just now or before; `ReturnValue` is -1;
* `Surely s i n`       `n` bytes are sent as a whole; `Waits s i n` a call that prints them may wait;
* `storeChar_going`    **one more character**: the call waits, goes on, or is stuck;
* `storeChar_stuck`    one more character after that writes the same chunk again.
-/

namespace Pharoah
namespace Rtt

open Numeral Prog

/-! ## a write -/

/-- `n` bytes are sent as a whole, over up-buffer `i`: there is room, or the call may block. -/
def Surely (s : Target) (i n : Nat) : Prop := n ≤ s.free i ∨ s.mode i = SEGGER_RTT_MODE_BLOCK_IF_FIFO_FULL

/-- A call of `SEGGER_RTT_Write` waits, if it may block or the host makes too few moves; or it sends what it
returns the number of: all, or nothing if it skips what does not fit. -/
theorem write_result {s : Target} (h : s.Ok) {i : Nat} (hi : i < s.cb.aUp.length) {data : List Byte}
    (hlen : data.length < 2 ^ 31) :
    (SEGGER_RTT_Write i data s = .error .waiting s ∧
        (s.mode i = SEGGER_RTT_MODE_BLOCK_IF_FIFO_FULL ∨ s.host.length < 3)) ∨
      ∃ n s', SEGGER_RTT_Write i data s = .ok n s' ∧ s.Sends i (data.take n) s' ∧
        (Surely s i data.length → n = data.length) ∧
        (s.mode i = SEGGER_RTT_MODE_NO_BLOCK_SKIP → n ≠ data.length → n = 0) ∧
        (s.mode i ≠ SEGGER_RTT_MODE_BLOCK_IF_FIFO_FULL → s.host.length ≤ s'.host.length + 3) := by
  obtain hwait | ⟨n, s', f, hrun, hsends, hn, hf⟩ := write_sends h hi hlen
  · refine Or.inl ⟨hwait, ?_⟩
    by_contra hboth
    obtain ⟨hmode, hhost⟩ := not_or.mp hboth
    obtain ⟨n, s', hrun, -⟩ := write_sends_returns h hi hlen hmode (by omega)
    rw [hwait] at hrun
    cases hrun
  · refine Or.inr ⟨n, s', hrun, hsends, fun hsure => ?_, fun hskip hne => ?_, fun hmode => ?_⟩
    · unfold accepted at hn
      obtain hfits | hblock := hsure
      · rw [hn, if_pos (by omega : data.length ≤ f), ite_self]
      · rw [hn, if_pos hblock]
    · unfold accepted at hn
      rw [hskip, if_neg (by decide), if_pos rfl] at hn
      split at hn
      · exact absurd hn hne
      · exact hn
    · by_cases hthree : 3 ≤ s.host.length
      · obtain ⟨n', s1, hrun', hleft⟩ := write_sends_returns h hi hlen hmode hthree
        rw [hrun] at hrun'
        cases hrun'
        exact hleft
      · omega

/-! ## between two characters -/

section
variable {s : Target} {i : Nat} {t u : List Byte} {p : Printing}

/-- what has been sent of the text `t`: its whole chunks -/
def chunks (t : List Byte) : Nat := t.length - t.length % 128

/-- The call began at `s` and has printed `t`: the buffer holds the end of it, the rest has been sent. -/
structure Going (s : Target) (i : Nat) (t : List Byte) (p : Printing) : Prop where
  size : p.desc.BufferSize = 128
  buffer : p.desc.pBuffer.length = 128
  index : p.desc.RTTBufferIndex = i
  cnt : p.desc.Cnt = t.length % 128
  held : p.desc.pBuffer.take p.desc.Cnt = t.drop (chunks t)
  value : p.desc.ReturnValue = t.length
  sends : s.Sends i (t.take (chunks t)) p.target
  host : s.mode i ≠ SEGGER_RTT_MODE_BLOCK_IF_FIFO_FULL → s.host.length ≤ p.target.host.length + 3 * (t.length / 128)

/-- A write was not whole.  A call that skips what does not fit has sent whole chunks all the same. -/
structure Broken (s : Target) (i : Nat) (t : List Byte) (p : Printing) : Prop where
  value : p.desc.ReturnValue = -1
  short : ¬ Surely s i t.length
  sends : ∃ bs, s.Sends i bs p.target ∧
    (s.mode i = SEGGER_RTT_MODE_NO_BLOCK_SKIP → ∃ j ≤ t.length, 128 ∣ j ∧ bs = t.take j)

/-- A write has just not been whole: the buffer is full of the chunk behind the `j` bytes before it. -/
structure Stuck (s : Target) (i : Nat) (t : List Byte) (p : Printing) : Prop where
  value : p.desc.ReturnValue = -1
  short : ¬ Surely s i t.length
  size : p.desc.BufferSize = 128
  index : p.desc.RTTBufferIndex = i
  cnt : p.desc.Cnt = 128
  sends : ∃ bs j, s.Sends i bs p.target ∧ 128 ∣ j ∧ j + 128 ≤ t.length ∧
    p.desc.pBuffer.take 128 = (t.drop j).take 128 ∧ (s.mode i = SEGGER_RTT_MODE_NO_BLOCK_SKIP → bs = t.take j)
  host : s.mode i ≠ SEGGER_RTT_MODE_BLOCK_IF_FIFO_FULL → s.host.length ≤ p.target.host.length + 3 * (t.length / 128)

/-- a call that prints `n` bytes may wait: it may block, or the host makes too few moves -/
def Waits (s : Target) (i n : Nat) : Prop :=
  s.mode i = SEGGER_RTT_MODE_BLOCK_IF_FIFO_FULL ∨ s.host.length < 3 * (n / 128 + 1)

theorem Waits.mono {n m : Nat} (h : Waits s i n) (hle : n ≤ m) : Waits s i m := by
  refine h.imp id fun hhost => ?_
  have hdiv : n / 128 ≤ m / 128 := Nat.div_le_div_right hle
  omega

theorem not_surely_mono {n m : Nat} (h : ¬ Surely s i n) (hle : n ≤ m) : ¬ Surely s i m := fun hm =>
  h (hm.imp (fun hfits => Nat.le_trans hle hfits) id)

theorem Broken.append (h : Broken s i t p) (u : List Byte) : Broken s i (t ++ u) p where
  value := h.value
  short := not_surely_mono h.short (by rw [List.length_append]; omega)
  sends := by
    obtain ⟨bs, hsends, hskip⟩ := h.sends
    refine ⟨bs, hsends, fun hmode => ?_⟩
    obtain ⟨j, hj, hdvd, hbs⟩ := hskip hmode
    exact ⟨j, by rw [List.length_append]; omega, hdvd, by rw [hbs, List.take_append_of_le_length hj]⟩

theorem Stuck.append (h : Stuck s i t p) (u : List Byte) : Stuck s i (t ++ u) p where
  value := h.value
  short := not_surely_mono h.short (by rw [List.length_append]; omega)
  size := h.size
  index := h.index
  cnt := h.cnt
  sends := by
    obtain ⟨bs, j, hsends, hdvd, hj, hheld, hskip⟩ := h.sends
    refine ⟨bs, j, hsends, hdvd, by rw [List.length_append]; omega, ?_, fun hmode => ?_⟩
    · rw [hheld, List.drop_append_of_le_length (by omega),
        List.take_append_of_le_length (by rw [List.length_drop]; omega)]
    · rw [hskip hmode, List.take_append_of_le_length (by omega)]
  host := fun hmode => by
    have hhost := h.host hmode
    have hdiv : t.length / 128 ≤ (t ++ u).length / 128 := Nat.div_le_div_right (by rw [List.length_append]; omega)
    omega

theorem Stuck.broken (h : Stuck s i t p) : Broken s i t p where
  value := h.value
  short := h.short
  sends := by
    obtain ⟨bs, j, hsends, hdvd, hj, -, hskip⟩ := h.sends
    exact ⟨bs, hsends, fun hmode => ⟨j, by omega, hdvd, hskip hmode⟩⟩

theorem Going.up_lt (h : Going s i t p) (hi : i < s.cb.aUp.length) : i < p.target.cb.aUp.length := by
  rw [h.sends.ups]
  exact hi

/-- a call before its first character -/
theorem going_nil (h : s.Ok) (i : Nat) :
    Going s i [] ⟨⟨List.replicate SEGGER_RTT_PRINTF_BUFFER_SIZE 0, SEGGER_RTT_PRINTF_BUFFER_SIZE, 0, 0, i⟩, s⟩ where
  size := rfl
  buffer := List.length_replicate
  index := rfl
  cnt := rfl
  held := rfl
  value := rfl
  sends := Target.Sends.refl h i
  host := fun _ => Nat.le_refl _

/-! ## one character -/

theorem take_set_succ {α : Type} {l : List α} {n : Nat} (h : n < l.length) (a : α) :
    (l.set n a).take (n + 1) = l.take n ++ [a] := by
  have hlen : (l.take n).length = n := List.length_take_of_le (by omega)
  rw [List.set_eq_take_append_cons_drop, if_pos h, List.take_append, hlen, Nat.add_sub_cancel_left,
    List.take_of_length_le (by omega), List.take_succ_cons, List.take_zero]

/-- the text with its last character, while the buffer is not full -/
theorem Going.put (h : Going s i t p) (c : Byte) (hroom : t.length % 128 + 1 < 128) :
    Going s i (t ++ [c]) { p with desc := p.desc.put c } := by
  have hcnt := h.cnt
  have hlen : (t ++ [c]).length = t.length + 1 := List.length_append
  have hmod : (t.length + 1) % 128 = t.length % 128 + 1 := by omega
  have hchunks : chunks (t ++ [c]) = chunks t := by
    unfold chunks
    omega
  have hle : chunks t ≤ t.length := Nat.sub_le _ _
  refine ⟨h.size, ?_, h.index, ?_, ?_, ?_, ?_, fun hmode => ?_⟩
  · show (p.desc.pBuffer.set _ _).length = 128
    rw [List.length_set, h.buffer]
  · show p.desc.Cnt + 1 = _
    rw [hlen, hmod, hcnt]
  · show (p.desc.pBuffer.set p.desc.Cnt c).take (p.desc.Cnt + 1) = _
    rw [take_set_succ (by rw [h.buffer, hcnt]; omega), h.held, hchunks, List.drop_append_of_le_length hle]
  · show p.desc.ReturnValue + 1 = _
    rw [h.value, hlen]
    omega
  · rw [hchunks, List.take_append_of_le_length hle]
    exact h.sends
  · have hhost := h.host hmode
    have hdiv : (t ++ [c]).length / 128 = t.length / 128 := by
      rw [hlen]
      omega
    rw [hdiv]
    exact hhost

/-! the write of a full buffer -/

theorem writeFull_error (hfull : p.desc.Cnt = p.desc.BufferSize) {e : Stop} {t' : Target}
    (hrun : SEGGER_RTT_Write p.desc.RTTBufferIndex (p.desc.pBuffer.take p.desc.Cnt) p.target = .error e t') :
    writeFull p = .error e { p with target := t' } := by
  unfold writeFull
  rw [if_pos hfull, hrun]

theorem writeFull_whole (hfull : p.desc.Cnt = p.desc.BufferSize) {t' : Target}
    (hrun : SEGGER_RTT_Write p.desc.RTTBufferIndex (p.desc.pBuffer.take p.desc.Cnt) p.target =
      .ok p.desc.Cnt t') : writeFull p = .ok () ⟨{ p.desc with Cnt := 0 }, t'⟩ := by
  unfold writeFull
  rw [if_pos hfull, hrun]
  exact if_neg (not_not.mpr rfl)

theorem writeFull_part (hfull : p.desc.Cnt = p.desc.BufferSize) {n : Nat} {t' : Target}
    (hrun : SEGGER_RTT_Write p.desc.RTTBufferIndex (p.desc.pBuffer.take p.desc.Cnt) p.target = .ok n t')
    (hn : n ≠ p.desc.Cnt) : writeFull p = .ok () ⟨{ p.desc with ReturnValue := -1 }, t'⟩ := by
  unfold writeFull
  rw [if_pos hfull, hrun]
  exact if_pos hn

/-- A full buffer is written when `bs` has been sent: the call waits, or the chunk goes as a whole, or not. -/
theorem writeFull_result (hi : i < s.cb.aUp.length) {bs chunk : List Byte} (hsends : s.Sends i bs p.target)
    (hsize : p.desc.BufferSize = 128) (hindex : p.desc.RTTBufferIndex = i) (hcnt : p.desc.Cnt = 128)
    (hchunk : p.desc.pBuffer.take 128 = chunk) (hlen : chunk.length = 128) :
    (∃ p', writeFull p = .error .waiting p' ∧
        (s.mode i = SEGGER_RTT_MODE_BLOCK_IF_FIFO_FULL ∨ p.target.host.length < 3)) ∨
      ∃ t', (s.mode i ≠ SEGGER_RTT_MODE_BLOCK_IF_FIFO_FULL → p.target.host.length ≤ t'.host.length + 3) ∧
        ((writeFull p = .ok () ⟨{ p.desc with Cnt := 0 }, t'⟩ ∧ s.Sends i (bs ++ chunk) t') ∨
          ∃ n, writeFull p = .ok () ⟨{ p.desc with ReturnValue := -1 }, t'⟩ ∧
            s.Sends i (bs ++ chunk.take n) t' ∧ (s.mode i = SEGGER_RTT_MODE_NO_BLOCK_SKIP → n = 0) ∧
            ¬ Surely s i (bs.length + 128)) := by
  have hfull : p.desc.Cnt = p.desc.BufferSize := hcnt.trans hsize.symm
  have hmode : p.target.mode i = s.mode i := hsends.mode_eq hi
  have hfree := hsends.free_le hi
  have hup : i < p.target.cb.aUp.length := by
    rw [hsends.ups]
    exact hi
  obtain ⟨hwait, hwhy⟩ | ⟨n, t', hrun, hmore, hsure, hskip, hhost⟩ :=
    write_result hsends.ok hup (by omega : chunk.length < 2 ^ 31)
  · rw [← hchunk, ← hcnt, ← hindex] at hwait
    rw [hmode] at hwhy
    exact Or.inl ⟨_, writeFull_error hfull hwait, hwhy⟩
  · rw [hlen] at hsure hskip
    rw [hmode] at hskip hhost
    rw [← hchunk, ← hcnt, ← hindex] at hrun
    refine Or.inr ⟨t', hhost, ?_⟩
    by_cases hn : n = 128
    · rw [hn, List.take_of_length_le (Nat.le_of_eq hlen)] at hmore
      rw [hn.trans hcnt.symm] at hrun
      exact Or.inl ⟨writeFull_whole hfull hrun, hsends.trans hmore⟩
    · refine Or.inr ⟨n, writeFull_part hfull hrun (fun he => hn (he.trans hcnt)), hsends.trans hmore,
        fun hmode => hskip hmode hn, fun hs => hn (hsure ?_)⟩
      exact hs.imp (fun hfits => by omega) fun hblock => hmode.trans hblock

/-- The rule of `_StoreChar`. -/
theorem storeChar_going (hi : i < s.cb.aUp.length) (h : Going s i t p) (c : Byte) (hlen : (t ++ [c]).length < 2 ^ 31) :
    (∃ p', _StoreChar c p = .error .waiting p' ∧ Waits s i (t ++ [c]).length) ∨
      ∃ p', _StoreChar c p = .ok () p' ∧ (Going s i (t ++ [c]) p' ∨ Stuck s i (t ++ [c]) p') := by
  have hcnt := h.cnt
  have hsize := h.size
  have hvalue := h.value
  have hlen' : (t ++ [c]).length = t.length + 1 := List.length_append
  have hstore : _StoreChar c p = writeFull { p with desc := p.desc.put c } := by
    unfold _StoreChar
    rw [if_pos (by omega), if_pos (by omega)]
  rw [hstore]
  by_cases hroom : t.length % 128 + 1 < 128
  · -- the buffer is not full
    have hgoing := h.put c hroom
    refine Or.inr ⟨_, ?_, Or.inl hgoing⟩
    exact if_neg (by rw [hgoing.cnt, hgoing.size, hlen']; omega)
  · -- the last chunk is written
    have hle : chunks t ≤ t.length := Nat.sub_le _ _
    have hend : chunks t + 128 = t.length + 1 := by
      unfold chunks
      omega
    have hcnt' : (p.desc.put c).Cnt = 128 := by
      show p.desc.Cnt + 1 = 128
      omega
    have hbuf : (p.desc.put c).pBuffer.length = 128 := by
      show (p.desc.pBuffer.set _ _).length = 128
      rw [List.length_set, h.buffer]
    have hchunk : (p.desc.put c).pBuffer.take 128 = (t ++ [c]).drop (chunks t) := by
      rw [← hcnt']
      show (p.desc.pBuffer.set p.desc.Cnt c).take (p.desc.Cnt + 1) = _
      rw [take_set_succ (by rw [h.buffer, hcnt]; omega), h.held, List.drop_append_of_le_length hle]
    have hbl : ((t ++ [c]).drop (chunks t)).length = 128 := by
      rw [List.length_drop]
      omega
    have hsplit : t.take (chunks t) ++ (t ++ [c]).drop (chunks t) = t ++ [c] := by
      rw [List.drop_append_of_le_length hle, ← List.append_assoc, List.take_append_drop]
    have hhost := h.host
    have hdiv : (t ++ [c]).length / 128 = t.length / 128 + 1 := by omega
    obtain ⟨p', hwait, hwhy⟩ | ⟨t', hmoves, hdone⟩ :=
      writeFull_result (p := { p with desc := p.desc.put c }) hi h.sends hsize h.index hcnt' hchunk hbl
    · refine Or.inl ⟨p', hwait, ?_⟩
      by_cases hblock : s.mode i = SEGGER_RTT_MODE_BLOCK_IF_FIFO_FULL
      · exact Or.inl hblock
      · have hbefore := hhost hblock
        have hlate : p.target.host.length < 3 := hwhy.resolve_left hblock
        exact Or.inr (by omega)
    · have hhost' : s.mode i ≠ SEGGER_RTT_MODE_BLOCK_IF_FIFO_FULL →
          s.host.length ≤ t'.host.length + 3 * ((t ++ [c]).length / 128) := by
        intro hnb
        have hbefore := hhost hnb
        have hafter : p.target.host.length ≤ t'.host.length + 3 := hmoves hnb
        omega
      refine Or.inr ?_
      obtain ⟨hrun, hsent⟩ | ⟨n, hrun, hsent, hskip, hshort⟩ := hdone
      · have hall : chunks (t ++ [c]) = (t ++ [c]).length := by
          unfold chunks
          omega
        rw [hsplit] at hsent
        refine ⟨_, hrun, Or.inl ⟨hsize, hbuf, h.index, ?_, ?_, ?_, ?_, hhost'⟩⟩
        · show 0 = _
          omega
        · show List.take 0 _ = _
          rw [hall, List.drop_length, List.take_zero]
        · show p.desc.ReturnValue + 1 = _
          omega
        · rw [hall, List.take_length]
          exact hsent
      · rw [List.length_take_of_le hle, hend, ← hlen'] at hshort
        refine ⟨_, hrun, Or.inr ⟨rfl, hshort, hsize, h.index, hcnt', ?_, hhost'⟩⟩
        refine ⟨_, chunks t, hsent, ?_, by omega, ?_, fun hmode => ?_⟩
        · unfold chunks
          omega
        · rw [hchunk]
          exact (List.take_of_length_le (Nat.le_of_eq hbl)).symm
        · rw [hskip hmode, List.take_zero, List.append_nil, List.take_append_of_le_length hle]

/-- One more character after a write that was not whole: the same chunk is written again. -/
theorem storeChar_stuck (hi : i < s.cb.aUp.length) (h : Stuck s i t p) (c : Byte) :
    (∃ p', _StoreChar c p = .error .waiting p' ∧ Waits s i t.length) ∨
      ∃ p', _StoreChar c p = .ok () p' ∧ Broken s i t p' := by
  have hcnt := h.cnt
  have hsize := h.size
  have hhost := h.host
  have hshort := h.short
  have hstore : _StoreChar c p = writeFull p := by
    unfold _StoreChar
    rw [if_neg (by omega)]
  obtain ⟨bs, j, hsends, hdvd, hj, hheld, hskip⟩ := h.sends
  have hbl : ((t.drop j).take 128).length = 128 := by
    rw [List.length_take, List.length_drop]
    omega
  rw [hstore]
  obtain ⟨p', hwait, hwhy⟩ | ⟨t', -, hdone⟩ := writeFull_result hi hsends hsize h.index hcnt hheld hbl
  · refine Or.inl ⟨p', hwait, ?_⟩
    by_cases hblock : s.mode i = SEGGER_RTT_MODE_BLOCK_IF_FIFO_FULL
    · exact Or.inl hblock
    · have hbefore := hhost hblock
      have hlate := hwhy.resolve_left hblock
      exact Or.inr (by omega)
  · refine Or.inr ?_
    obtain ⟨hrun, hsent⟩ | ⟨n, hrun, hsent, hnone, -⟩ := hdone
    · refine ⟨_, hrun, h.value, hshort, _, hsent, fun hmode => ⟨j + 128, hj, ?_, ?_⟩⟩
      · exact Nat.dvd_add hdvd (Nat.dvd_refl 128)
      · rw [hskip hmode, ← List.take_add]
    · refine ⟨_, hrun, rfl, hshort, _, hsent, fun hmode => ⟨j, by omega, hdvd, ?_⟩⟩
      rw [hskip hmode, hnone hmode, List.take_zero, List.append_nil]

end

end Rtt
end Pharoah
