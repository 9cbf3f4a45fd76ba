import Pharoah.Rtt.Buffer

/-!
# A call of `SEGGER_RTT_Write`

What a call leaves behind, for every schedule of the reader's moves.

* `Fits r sent k n`      `n` bytes go behind `WrOff` without reaching the end or what is unread;
* `free r sent k`        the bytes that go into the buffer, one less than are not used;
* `Stored r sent k data w`  the stream is `data` longer and the reader has what it took, in order;
* `writeLoop_stored`     the loop stores all its bytes or still waits, and never leaves the buffer;
* `accepted`             the bytes that a call of each mode stores;
* `Inv.write`            a call stores the first `accepted` bytes and returns their number;
* `write_returns`        a call that must not block returns after three loads;
* `blocking_returns`     one that may block returns once the reader has moved often enough.
-/

namespace Pharoah
namespace Rtt

open Cells

section
variable {r : RING_BUFFER} {sent : List Byte} {k n : Nat}

/-- The bytes go behind `WrOff`, without reaching the end or what is unread. -/
def RING_BUFFER.Fits (r : RING_BUFFER) (sent : List Byte) (k n : Nat) : Prop :=
  r.WrOff + n ≤ r.SizeOfBuffer ∧ sent.length + n < k + r.SizeOfBuffer

/-- the bytes that go into the buffer -/
def RING_BUFFER.free (r : RING_BUFFER) (sent : List Byte) (k : Nat) : Nat :=
  r.SizeOfBuffer - 1 - (sent.length - k)

/-! ## the parts of the loop -/

/-- The load of an `RdOff` that may be older than the ring. -/
theorem RING_BUFFER.Inv.room_eq (h : r.Inv sent k) (hw : r.WrOff < r.SizeOfBuffer) {j rd : Nat}
    (hj : j ≤ k) (hfits : sent.length - j < r.SizeOfBuffer) (hrd : At r.SizeOfBuffer j rd) :
    r.room rd = r.free sent j := by
  have hle := h.le
  have hahead := ahead_eq hrd h.wr (by omega) hfits (fun he => by omega)
  have hrd' := hrd.1
  unfold Cells.ahead at hahead
  unfold RING_BUFFER.room RING_BUFFER.free
  dsimp only
  split at hahead <;> split <;> omega

/-- One turn writes what there is room for before the end. -/
theorem RING_BUFFER.Inv.turn_eq (h : r.Inv sent k) (hw : r.WrOff < r.SizeOfBuffer) {j rd : Nat} (NumBytes : Nat)
    (hj : j ≤ k) (hfits : sent.length - j < r.SizeOfBuffer) (hrd : At r.SizeOfBuffer j rd)
    (hsmall : NumBytes < 2 ^ 31) :
    r.turn rd NumBytes = (min (min (r.free sent j) (r.SizeOfBuffer - r.WrOff)) NumBytes : Nat) := by
  rw [RING_BUFFER.turn, h.room_eq hw hj hfits hrd, int_eq hsmall]
  omega

theorem RING_BUFFER.Inv.fits_min (h : r.Inv sent k) (hw : r.WrOff < r.SizeOfBuffer) {j : Nat} (hj : j ≤ k)
    (hfits : sent.length - j < r.SizeOfBuffer) (NumBytes : Nat) :
    r.Fits sent k (min (min (r.free sent j) (r.SizeOfBuffer - r.WrOff)) NumBytes) := by
  have hle := h.le
  unfold RING_BUFFER.Fits RING_BUFFER.free
  omega

/-- `memcpy` into the ring, before `WrOff` is stored -/
theorem RING_BUFFER.Inv.copied (h : r.Inv sent k) (bs : List Byte) (hf : r.Fits sent k bs.length) :
    memcpyTo r.pBuffer r.WrOff bs = .ok (splice r.pBuffer r.WrOff bs) ∧
      Holds (splice r.pBuffer r.WrOff bs) (sent ++ bs) k ∧
      RING_BUFFER.Inv { r with pBuffer := splice r.pBuffer r.WrOff bs } sent k := by
  have hsize := h.size
  have hheld : Holds (splice r.pBuffer r.WrOff bs) (sent ++ bs) k := by
    apply h.held.splice
    · rw [hsize]
      exact h.wr
    · rw [hsize]
      exact hf.1
    · have hf2 := hf.2
      omega
  have hlen : (splice r.pBuffer r.WrOff bs).length = r.SizeOfBuffer := by
    rw [length_splice (hsize ▸ hf.1), hsize]
  exact ⟨memcpyTo_eq (hsize ▸ hf.1), hheld, hlen, h.small, h.le, h.fits, h.wr, h.rd, hheld.of_append, h.ahead⟩

/-- The store of `WrOff` sends the bytes. -/
theorem RING_BUFFER.Inv.published (h : r.Inv sent k) {bs : List Byte} (hw : r.WrOff < r.SizeOfBuffer)
    (hf : r.Fits sent k bs.length) (hheld : Holds r.pBuffer (sent ++ bs) k) :
    (r.publish bs.length).Inv (sent ++ bs) k := by
  have hle := h.le
  have hf2 := hf.2
  have hlen : (sent ++ bs).length = sent.length + bs.length := List.length_append
  refine ⟨h.size, h.small, by omega, ?_, ?_, h.rd, hheld, fun he => ?_⟩
  · show (sent ++ bs).length - k < r.SizeOfBuffer
    omega
  · show At r.SizeOfBuffer (sent ++ bs).length (r.WrOff + bs.length)
    rw [hlen]
    exact h.wr.add hf.1
  · -- the buffer is not empty, so the end is not also the reader's start
    have he' : r.WrOff + bs.length = r.SizeOfBuffer := he
    show 0 < r.RdOff
    by_contra hz
    have hend : At r.SizeOfBuffer (sent.length + bs.length) r.SizeOfBuffer := he' ▸ h.wr.add hf.1
    have hz' : r.RdOff = 0 := by omega
    have hm : Nat.ModEq r.SizeOfBuffer k (sent.length + bs.length) := by
      rw [Nat.ModEq, ← hend.2, ← h.rd.2, hz', Nat.mod_self, Nat.zero_mod]
    have hd : r.SizeOfBuffer ∣ sent.length + bs.length - k := (Nat.modEq_iff_dvd' (by omega)).mp hm
    have hle' := Nat.le_of_dvd (by omega) hd
    omega

theorem RING_BUFFER.Inv.wrapped (h : r.Inv sent k) :
    r.wrap.Inv sent k ∧ r.wrap.WrOff < r.SizeOfBuffer := by
  have hpos := h.fits
  unfold RING_BUFFER.wrap
  split
  · next he =>
    exact ⟨⟨h.size, h.small, h.le, h.fits, (he ▸ h.wr).wrap, h.rd, h.held, fun hz => absurd hz (by dsimp only; omega)⟩,
      by dsimp only; omega⟩
  · next hne =>
    have hwr := h.wr.1
    exact ⟨h, by omega⟩

/-! ## a whole call -/

/-- The same buffer with the same configuration. -/
def RING_BUFFER.SameConfig (r r' : RING_BUFFER) : Prop :=
  r'.sName = r.sName ∧ r'.SizeOfBuffer = r.SizeOfBuffer ∧ r'.Flags = r.Flags

theorem RING_BUFFER.SameConfig.trans {a b c : RING_BUFFER} (h : a.SameConfig b) (h' : b.SameConfig c) :
    a.SameConfig c := ⟨h'.1.trans h.1, h'.2.1.trans h.2.1, h'.2.2.trans h.2.2⟩

theorem RING_BUFFER.sameConfig_wrap (r : RING_BUFFER) : r.SameConfig r.wrap := by
  unfold RING_BUFFER.wrap
  split <;> exact ⟨rfl, rfl, rfl⟩

theorem RING_BUFFER.SameConfig.mode_eq {a b : RING_BUFFER} (h : a.SameConfig b) : b.mode = a.mode := by
  rw [RING_BUFFER.mode, h.2.2, RING_BUFFER.mode]

theorem Reading.sameConfig_finish (r : RING_BUFFER) (l : Reading) : r.SameConfig (l.finish r) := by
  unfold Reading.finish
  split <;> exact ⟨rfl, rfl, rfl⟩

theorem RING_BUFFER.sameConfig_read {r r' : RING_BUFFER} {ask : Nat} {bs : List Byte}
    (h : r.read ask = .ok (r', bs)) : r.SameConfig r' := by
  unfold RING_BUFFER.read at h
  cases h1 : (Reading.start r ask).first r with
  | error e => simp only [h1, bind, Except.bind] at h; cases h
  | ok l1 =>
    cases h2 : l1.rest r with
    | error e => simp only [h1, h2, bind, Except.bind] at h; cases h
    | ok l2 =>
      simp only [h1, h2, bind, Except.bind, pure, Except.pure] at h
      cases h
      exact Reading.sameConfig_finish r l2

/-- The stream is `data` longer, and the reader has taken the bytes of it that came next. -/
structure RING_BUFFER.Stored (r : RING_BUFFER) (sent : List Byte) (k : Nat) (data : List Byte)
    (w : RING_BUFFER.Wrote) : Prop where
  inv : w.ring.Inv (sent ++ data) (k + w.taken.length)
  ready : w.ring.WrOff < w.ring.SizeOfBuffer
  taken : w.taken = ((sent ++ data).drop k).take w.taken.length
  rd : r.RdOff < r.SizeOfBuffer → w.ring.RdOff < w.ring.SizeOfBuffer
  config : r.SameConfig w.ring

/-- what has been taken, when the stream grows -/
theorem taken_append {taken bs : List Byte} (hle : k + taken.length ≤ sent.length)
    (h : taken = (sent.drop k).take taken.length) :
    taken = ((sent ++ bs).drop k).take taken.length := by
  rw [List.drop_append_of_le_length (by omega), List.take_append_of_le_length (by rw [List.length_drop]; omega)]
  exact h

/-- what has been taken, and the next bytes after it -/
theorem taken_next (taken : List Byte) {bs : List Byte} (h : taken = (sent.drop k).take taken.length) {ask : Nat}
    (hbs : bs = (sent.drop (k + taken.length)).take ask) :
    (taken ++ bs).length = taken.length + min ask (sent.length - (k + taken.length)) ∧
      taken ++ bs = (sent.drop k).take (taken ++ bs).length := by
  have hlen : bs.length = min ask (sent.length - (k + taken.length)) := by
    rw [hbs, List.length_take, List.length_drop]
  refine ⟨by rw [List.length_append, hlen], ?_⟩
  rw [List.length_append, List.take_add, ← h, List.drop_drop, hlen, hbs]
  congr 1
  by_cases hlt : ask ≤ sent.length - (k + taken.length)
  · rw [Nat.min_eq_left hlt]
  · rw [Nat.min_eq_right (by omega), List.take_of_length_le (by rw [List.length_drop]; omega),
      List.take_of_length_le (by rw [List.length_drop])]

/-- After one turn of the loop: the reader has taken `bs`, and the first `n` bytes are in the stream. -/
structure RING_BUFFER.Turned (r : RING_BUFFER) (sent : List Byte) (k : Nat) (pBuffer : List Byte)
    (NumBytes : Nat) (taken : List Byte) (r' : RING_BUFFER) (n : Nat) : Prop where
  inv : r'.Inv (sent ++ pBuffer.take n) (k + taken.length)
  ready : r'.WrOff < r'.SizeOfBuffer
  config : r.SameConfig r'
  took : taken = ((sent ++ pBuffer.take n).drop k).take taken.length
  rd : r.RdOff < r.SizeOfBuffer → r'.RdOff < r'.SizeOfBuffer
  count : n = min (min (r.free sent (k + taken.length)) (r.SizeOfBuffer - r.WrOff)) NumBytes
  wr : r'.WrOff = if r.WrOff + n = r.SizeOfBuffer then 0 else r.WrOff + n

theorem RING_BUFFER.Inv.turned {taken pBuffer : List Byte} {NumBytes ask : Nat}
    (h : r.Inv sent (k + taken.length)) (hw : r.WrOff < r.SizeOfBuffer)
    (ht : taken = (sent.drop k).take taken.length) (hle : NumBytes ≤ pBuffer.length)
    (hsmall : NumBytes < 2 ^ 31) (hask : ask < 2 ^ 31) :
    ∃ r' bs n, r.Turned sent k pBuffer NumBytes (taken ++ bs) r' n ∧
      (taken ++ bs).length = taken.length + min ask (sent.length - (k + taken.length)) ∧
      ∀ host NumBytesWritten, r.writeLoop (ask :: host) pBuffer NumBytes NumBytesWritten taken =
        if NumBytes - n = 0 then .ok ⟨r', host, taken ++ bs, NumBytesWritten + n⟩
        else r'.writeLoop host (pBuffer.drop n) (NumBytes - n) (NumBytesWritten + n) (taken ++ bs) := by
  obtain ⟨rd, hread, hinv⟩ := h.read hask
  obtain ⟨bs, hbs⟩ : ∃ bs, bs = (sent.drop (k + taken.length)).take ask := ⟨_, rfl⟩
  obtain ⟨hlen, htaken⟩ := taken_next taken ht hbs
  have hlt := fun hrd => RING_BUFFER.read_lt hw hrd hread
  rw [← hbs] at hread
  rw [Nat.add_assoc, ← hlen] at hinv
  obtain ⟨n, hn⟩ : ∃ n, n = min (min (r.free sent (k + (taken ++ bs).length)) (r.SizeOfBuffer - r.WrOff)) NumBytes :=
    ⟨_, rfl⟩
  -- what the turn copies fits
  have hturn : RING_BUFFER.turn { r with RdOff := rd } rd NumBytes = n := by
    rw [hinv.turn_eq hw NumBytes (Nat.le_refl _) hinv.fits hinv.rd hsmall, hn]
    rfl
  have hf := hinv.fits_min hw (Nat.le_refl _) hinv.fits NumBytes
  have hchunk : (pBuffer.take n).length = n := List.length_take_of_le (by omega)
  have hf' : RING_BUFFER.Fits { r with RdOff := rd } sent (k + (taken ++ bs).length) (pBuffer.take n).length := by
    rw [hchunk, hn]
    exact hf
  obtain ⟨hcopy, hheld, hinv1⟩ := hinv.copied _ hf'
  have hpub := hinv1.published hw hf' hheld
  obtain ⟨hwrap, hready⟩ := hpub.wrapped
  have hcfg := RING_BUFFER.sameConfig_wrap (RING_BUFFER.publish
    { r with pBuffer := splice r.pBuffer r.WrOff (pBuffer.take n), RdOff := rd } (pBuffer.take n).length)
  have hfrom : memcpyFrom pBuffer 0 n = .ok (pBuffer.take n) := memcpyFrom_eq (by omega)
  refine ⟨_, bs, n, ⟨hwrap, ?_, hcfg, ?_, fun hrd => ?_, hn, ?_⟩, hlen, fun host NumBytesWritten => ?_⟩
  · rw [hcfg.2.1]
    exact hready
  · exact taken_append hinv.le htaken
  · have hlt' := hlt hrd
    unfold RING_BUFFER.wrap
    split <;> exact hlt'
  · rw [hchunk]
    unfold RING_BUFFER.wrap RING_BUFFER.publish
    split <;> rfl
  · rw [RING_BUFFER.writeLoop, hread]
    simp only [bind, Except.bind, hturn, hfrom, hcopy, hchunk, pure, Except.pure]

theorem RING_BUFFER.Turned.data {pBuffer taken : List Byte} {NumBytes : Nat} {r' : RING_BUFFER}
    (h : r.Turned sent k pBuffer NumBytes taken r' n) :
    pBuffer.take n ++ (pBuffer.drop n).take (NumBytes - n) = pBuffer.take NumBytes := by
  have hn : n ≤ NumBytes := by
    have hcount := h.count
    omega
  rw [← List.take_add]
  congr 1
  omega

/-- The loop stores all its bytes, or it still waits; it never leaves the buffer. -/
theorem writeLoop_stored {host : List Nat} (hask : ∀ ask ∈ host, ask < 2 ^ 31) (taken pBuffer : List Byte)
    (NumBytes NumBytesWritten : Nat) (h : r.Inv sent (k + taken.length)) (hw : r.WrOff < r.SizeOfBuffer)
    (ht : taken = (sent.drop k).take taken.length) (hle : NumBytes ≤ pBuffer.length)
    (hsmall : NumBytes < 2 ^ 31) :
    r.writeLoop host pBuffer NumBytes NumBytesWritten taken = .error .waiting ∨
      ∃ w, r.writeLoop host pBuffer NumBytes NumBytesWritten taken = .ok w ∧
        r.Stored sent k (pBuffer.take NumBytes) w ∧ w.NumBytesWritten = NumBytesWritten + NumBytes ∧
        w.host <:+ host ∧ w.taken.length ≤ taken.length + host.sum := by
  induction host generalizing r sent taken pBuffer NumBytes NumBytesWritten with
  | nil => exact Or.inl rfl
  | cons ask host ih =>
    obtain ⟨hhd, htl⟩ := List.forall_mem_cons.mp hask
    obtain ⟨r', bs, n, hT, hlen, hloop⟩ := h.turned hw ht hle hsmall hhd
    have hdata := hT.data
    have hcount := hT.count
    rw [hloop]
    by_cases hdone : NumBytes - n = 0
    · rw [if_pos hdone]
      have hn : n = NumBytes := by omega
      rw [← hn]
      refine Or.inr ⟨_, rfl, ⟨hT.inv, hT.ready, hT.took, hT.rd, hT.config⟩, rfl, List.suffix_cons ask host, ?_⟩
      rw [List.sum_cons]
      show (taken ++ bs).length ≤ _
      omega
    · rw [if_neg hdone]
      obtain hwait | ⟨w, hok, hst, hnum, hsuf, hsum⟩ := ih htl (taken ++ bs) (pBuffer.drop n) (NumBytes - n)
        (NumBytesWritten + n) hT.inv hT.ready hT.took (by rw [List.length_drop]; omega) (by omega)
      · exact Or.inl hwait
      · refine Or.inr ⟨w, hok, ⟨?_, hst.ready, ?_, ?_, hT.config.trans hst.config⟩, by omega,
          hsuf.trans (List.suffix_cons ask host), ?_⟩
        · rw [← hdata, ← List.append_assoc]
          exact hst.inv
        · rw [← hdata, ← List.append_assoc]
          exact hst.taken
        · exact fun hrd => hst.rd (hT.rd hrd)
        · rw [List.sum_cons]
          omega

/-- the bytes that a call of each mode stores, of `len` bytes when `free` would go into the buffer -/
def accepted (mode free len : Nat) : Nat :=
  if mode = SEGGER_RTT_MODE_BLOCK_IF_FIFO_FULL then len
  else if len ≤ free then len
  else if mode = SEGGER_RTT_MODE_NO_BLOCK_SKIP then 0
  else free

theorem accepted_le (mode free len : Nat) : accepted mode free len ≤ len := by
  unfold accepted
  split
  · exact Nat.le_refl _
  · split
    · exact Nat.le_refl _
    · split <;> omega

/-- a call that must not block sets out to store what is accepted -/
theorem RING_BUFFER.Inv.fitting_eq (h : r.Inv sent k) (hw : r.WrOff < r.SizeOfBuffer) {len : Nat}
    (hlen : len < 2 ^ 31) (hmode : r.mode ≠ SEGGER_RTT_MODE_BLOCK_IF_FIFO_FULL) :
    r.fitting r.RdOff len = accepted r.mode (r.free sent k) len := by
  unfold RING_BUFFER.fitting accepted
  dsimp only
  rw [h.room_eq hw (Nat.le_refl k) h.fits h.rd, int_eq hlen, if_neg hmode]
  by_cases hle : len ≤ r.free sent k
  · rw [if_neg (by omega), if_pos hle]
  · rw [if_pos (by omega), if_neg hle, unsigned, if_pos (Int.natCast_nonneg _), Int.toNat_natCast]

/-- A call still waits, or it has stored the first `accepted` bytes and returns their number. -/
theorem RING_BUFFER.Inv.write (h : r.Inv sent k) (hw : r.WrOff < r.SizeOfBuffer) {data : List Byte}
    (hlen : data.length < 2 ^ 31) {host : List Nat} (hask : ∀ ask ∈ host, ask < 2 ^ 31) :
    r.write data host = .error .waiting ∨ ∃ w, r.write data host = .ok w ∧
      w.NumBytesWritten = accepted r.mode (r.free sent (k + min (host.headD 0) (sent.length - k))) data.length ∧
      r.Stored sent k (data.take w.NumBytesWritten) w ∧ w.host <:+ host ∧ w.taken.length ≤ host.sum := by
  by_cases hmode : r.mode = SEGGER_RTT_MODE_BLOCK_IF_FIFO_FULL
  · have hacc : ∀ free, accepted r.mode free data.length = data.length := fun free => if_pos hmode
    unfold RING_BUFFER.write
    rw [if_neg (by simpa using hmode)]
    by_cases hz : data.length = 0
    · rw [if_pos hz]
      refine Or.inr ⟨_, rfl, ?_, ⟨?_, hw, (List.take_zero).symm, id, rfl, rfl, rfl⟩, List.suffix_refl _,
        Nat.zero_le _⟩
      · rw [hacc, hz]
      · rw [List.take_zero, List.append_nil]
        exact h
    · rw [if_neg hz]
      obtain hwait | ⟨w, hok, hst, hnum, hsuf, hsum⟩ := writeLoop_stored hask [] data data.length 0 h
        hw (List.take_zero).symm (Nat.le_refl data.length) hlen
      · exact Or.inl hwait
      · rw [Nat.zero_add] at hnum
        refine Or.inr ⟨w, hok, by rw [hacc, hnum], ?_, hsuf, by simpa using hsum⟩
        rw [hnum]
        exact hst
  · unfold RING_BUFFER.write
    rw [if_pos hmode]
    cases host with
    | nil => exact Or.inl rfl
    | cons ask host =>
      obtain ⟨hhd, htl⟩ := List.forall_mem_cons.mp hask
      obtain ⟨rd, hread, hinv⟩ := h.read hhd
      obtain ⟨bs, hbs⟩ : ∃ bs, bs = (sent.drop k).take ask := ⟨_, rfl⟩
      obtain ⟨hblen, hbtaken⟩ := taken_next [] (k := k) (List.take_zero).symm hbs
      rw [List.nil_append] at hblen hbtaken
      have hbl : bs.length = min ask (sent.length - k) := by simpa using hblen
      have hlt := fun hrd => RING_BUFFER.read_lt hw hrd hread
      rw [← hbs] at hread
      rw [← hbl] at hinv
      have hfit := hinv.fitting_eq hw hlen hmode
      have hfree : RING_BUFFER.free { r with RdOff := rd } sent (k + bs.length) =
          r.free sent (k + min ask (sent.length - k)) := by rw [hbl]; rfl
      rw [hfree] at hfit
      have hmode' : RING_BUFFER.mode { r with RdOff := rd } = r.mode := rfl
      rw [hmode'] at hfit
      have hle := accepted_le r.mode (r.free sent (k + min ask (sent.length - k))) data.length
      simp only [hread, bind, Except.bind, hfit, List.headD_cons]
      obtain ⟨m, hm⟩ : ∃ m, m = accepted r.mode (r.free sent (k + min ask (sent.length - k))) data.length := ⟨_, rfl⟩
      rw [← hm] at hle ⊢
      by_cases hz : m = 0
      · rw [if_pos hz]
        refine Or.inr ⟨_, rfl, hz.symm, ⟨?_, hw, ?_, hlt, rfl, rfl, rfl⟩, List.suffix_cons ask host, ?_⟩
        · rw [List.take_zero, List.append_nil]
          exact hinv
        · rw [List.take_zero, List.append_nil]
          exact hbtaken
        · rw [List.sum_cons]
          show bs.length ≤ _
          omega
      · rw [if_neg hz]
        obtain hwait | ⟨w, hok, hst, hnum, hsuf, hsum⟩ := writeLoop_stored htl bs data _ 0 hinv hw hbtaken
          hle (by omega)
        · exact Or.inl hwait
        · rw [Nat.zero_add] at hnum
          rw [List.sum_cons]
          refine Or.inr ⟨w, hok, hnum, ?_, hsuf.trans (List.suffix_cons ask host), by omega⟩
          rw [hnum]
          exact ⟨hst.inv, hst.ready, hst.taken, fun hrd => hst.rd (hlt hrd), hst.config⟩

/-! ## calls that return -/

/-- Bytes that fit are stored in two turns: up to the end, and from the start on. -/
theorem writeLoop_fits {host : List Nat} (hask : ∀ ask ∈ host, ask < 2 ^ 31) (taken pBuffer : List Byte)
    (NumBytes NumBytesWritten : Nat) (h : r.Inv sent (k + taken.length)) (hw : r.WrOff < r.SizeOfBuffer)
    (ht : taken = (sent.drop k).take taken.length) (hle : NumBytes ≤ pBuffer.length)
    (hsmall : NumBytes < 2 ^ 31) (hfree : NumBytes ≤ r.free sent (k + taken.length)) (htwo : 2 ≤ host.length) :
    ∃ w, r.writeLoop host pBuffer NumBytes NumBytesWritten taken = .ok w ∧ host.length ≤ w.host.length + 2 := by
  obtain ⟨ask, ask', host, rfl⟩ : ∃ ask ask' host', host = ask :: ask' :: host' := by
    match host, htwo with
    | ask :: ask' :: host', _ => exact ⟨ask, ask', host', rfl⟩
  obtain ⟨hask1, hask⟩ := List.forall_mem_cons.mp hask
  obtain ⟨hask2, -⟩ := List.forall_mem_cons.mp hask
  obtain ⟨r1, bs1, n1, hT1, hk1, hloop1⟩ := h.turned hw ht hle hsmall hask1
  rw [hloop1]
  have hc1 := hT1.count
  have hsize := hT1.config.2.1
  have hsent : (sent ++ pBuffer.take n1).length = sent.length + n1 := by
    rw [List.length_append, List.length_take_of_le (by omega)]
  unfold RING_BUFFER.free at hfree hc1
  split
  · refine ⟨_, rfl, ?_⟩
    simp only [List.length_cons]
    omega
  · next hrest =>
    have hwr := hT1.wr
    rw [if_pos (by omega)] at hwr
    have hle2 : NumBytes - n1 ≤ (pBuffer.drop n1).length := by
      rw [List.length_drop]
      omega
    obtain ⟨r2, bs2, n2, hT2, hk2, hloop2⟩ := hT1.inv.turned hT1.ready hT1.took hle2 (by omega) hask2
    have hc2 := hT2.count
    unfold RING_BUFFER.free at hc2
    rw [hsent, hsize] at hc2
    rw [hloop2, if_pos (by omega)]
    exact ⟨_, rfl, Nat.le_refl _⟩

/-- A call that must not block returns after three loads, whatever the reader does. -/
theorem write_returns (h : r.Inv sent k) (hw : r.WrOff < r.SizeOfBuffer) {data : List Byte}
    (hlen : data.length < 2 ^ 31) {host : List Nat} (hask : ∀ ask ∈ host, ask < 2 ^ 31)
    (hmode : r.mode ≠ SEGGER_RTT_MODE_BLOCK_IF_FIFO_FULL) (hthree : 3 ≤ host.length) :
    ∃ w, r.write data host = .ok w ∧ host.length ≤ w.host.length + 3 := by
  obtain ⟨ask, host, rfl⟩ := List.exists_cons_of_length_pos (by omega : 0 < host.length)
  obtain ⟨hhd, htl⟩ := List.forall_mem_cons.mp hask
  obtain ⟨rd, hread, hinv⟩ := h.read hhd
  obtain ⟨bs, hbs⟩ : ∃ bs, bs = (sent.drop k).take ask := ⟨_, rfl⟩
  obtain ⟨hblen, hbtaken⟩ := taken_next [] (k := k) (List.take_zero).symm hbs
  rw [List.nil_append] at hblen hbtaken
  have hbl : bs.length = min ask (sent.length - k) := by simpa using hblen
  rw [← hbs] at hread
  rw [← hbl] at hinv
  have hfit := hinv.fitting_eq hw hlen hmode
  obtain ⟨m, hm⟩ : ∃ m, m = accepted r.mode (r.free sent (k + bs.length)) data.length := ⟨_, rfl⟩
  have hle : m ≤ data.length := hm ▸ accepted_le _ _ _
  have hmfree : m ≤ r.free sent (k + bs.length) := by
    rw [hm, accepted, if_neg hmode]
    split
    · assumption
    · split <;> omega
  have hfit' : RING_BUFFER.fitting { r with RdOff := rd } rd data.length = m := hfit.trans hm.symm
  unfold RING_BUFFER.write
  rw [if_pos hmode]
  simp only [hread, bind, Except.bind, hfit']
  split
  · refine ⟨_, rfl, ?_⟩
    simp only [List.length_cons]
    omega
  · have htwo : 2 ≤ host.length := by
      rw [List.length_cons] at hthree
      omega
    obtain ⟨w, hok, hhost⟩ := writeLoop_fits htl bs data _ 0 hinv hw hbtaken hle (by omega) hmfree htwo
    refine ⟨w, hok, ?_⟩
    rw [List.length_cons]
    omega

/-- Every move of the reader that asks for something makes room for one byte at least. -/
theorem writeLoop_progress {host : List Nat} (hask : ∀ ask ∈ host, ask < 2 ^ 31) (taken pBuffer : List Byte)
    (NumBytes NumBytesWritten : Nat) (h : r.Inv sent (k + taken.length)) (hw : r.WrOff < r.SizeOfBuffer)
    (ht : taken = (sent.drop k).take taken.length) (hle : NumBytes ≤ pBuffer.length)
    (hsmall : NumBytes < 2 ^ 31) (hsize : 2 ≤ r.SizeOfBuffer) (hpos : 0 < NumBytes)
    (hmoves : NumBytes ≤ host.countP (0 < ·)) :
    ∃ w, r.writeLoop host pBuffer NumBytes NumBytesWritten taken = .ok w := by
  induction host generalizing r sent taken pBuffer NumBytes NumBytesWritten with
  | nil =>
    rw [List.countP_nil] at hmoves
    omega
  | cons ask host ih =>
    obtain ⟨hhd, htl⟩ := List.forall_mem_cons.mp hask
    obtain ⟨r', bs, n, hT, hk, hloop⟩ := h.turned hw ht hle hsmall hhd
    have hcount := hT.count
    have hfits := h.fits
    rw [hloop]
    split
    · exact ⟨_, rfl⟩
    · refine ih htl (taken ++ bs) _ _ _ hT.inv hT.ready hT.took (by rw [List.length_drop]; omega) (by omega) ?_ (by omega) ?_
      · rw [hT.config.2.1]
        exact hsize
      · rw [List.countP_cons] at hmoves
        unfold RING_BUFFER.free at hcount
        by_cases hz : 0 < ask
        · rw [if_pos (by simpa using hz)] at hmoves
          omega
        · rw [if_neg (by simpa using hz)] at hmoves
          omega

/-- A call that may block returns once the reader has asked as often as there are bytes to store. -/
theorem blocking_returns (h : r.Inv sent k) (hw : r.WrOff < r.SizeOfBuffer) {data : List Byte}
    (hlen : data.length < 2 ^ 31) {host : List Nat} (hask : ∀ ask ∈ host, ask < 2 ^ 31)
    (hmode : r.mode = SEGGER_RTT_MODE_BLOCK_IF_FIFO_FULL) (hsize : 2 ≤ r.SizeOfBuffer)
    (hmoves : data.length ≤ host.countP (0 < ·)) : ∃ w, r.write data host = .ok w := by
  unfold RING_BUFFER.write
  rw [if_neg (by simpa using hmode)]
  split
  · exact ⟨_, rfl⟩
  · exact writeLoop_progress hask [] data data.length 0 h hw (List.take_zero).symm (Nat.le_refl _) hlen hsize (by omega) hmoves

/-- It does not return before the reader has taken what would not have fitted. -/
theorem blocking_needs (h : r.Inv sent k) {data : List Byte} {w : RING_BUFFER.Wrote}
    (hst : r.Stored sent k data w) : data.length ≤ r.free sent k + w.taken.length := by
  have hle := h.le
  have hfits := hst.inv.fits
  rw [hst.config.2.1, List.length_append] at hfits
  unfold RING_BUFFER.free
  omega

end

end Rtt
end Pharoah
