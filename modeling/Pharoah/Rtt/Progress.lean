import Pharoah.Rtt.Channel

/-!
# Calls that get on

* `left c`              the steps that a call of `SEGGER_RTT_Write` that must not block may still take;
* `Roomy`               it found room for all it stores, so a turn ends at the end of the buffer or with
                        the last byte;
* `nonblocking_bounded`  **it takes nine steps of its own at most and is never held up**, whatever the
                        reader does in between;
* `write_run`           the call as a function of the reader's moves, `RING_BUFFER.write`, is a run of the
                        two sides in which the reader only moves before the loads of `RdOff`.
-/

namespace Pharoah
namespace Rtt

open Cells Lts

/-! ## calls that must not block -/

/-- not the begin of another call of `SEGGER_RTT_Write` -/
def Act.Within : Act → Prop
  | .write _ => False
  | .read BufferSize => BufferSize < 2 ^ 31
  | .writer => True
  | .reader => True

instance (a : Act) : Decidable a.Within :=
  match a with
  | .write _ => .isFalse id
  | .read BufferSize => inferInstanceAs (Decidable (BufferSize < 2 ^ 31))
  | .writer => .isTrue trivial
  | .reader => .isTrue trivial

theorem Act.Within.small {a : Act} (h : a.Within) : a.Small := by
  cases a with
  | write data => exact h.elim
  | _ => exact h

namespace Chan

/-- `n` more bytes of the stream fit into the buffer -/
def Room (c : Chan) (n : Nat) : Prop := c.sent.length + n < c.got.length + c.ring.SizeOfBuffer

/-- The call has room for the rest of its bytes, and a turn that leaves some ends at the end. -/
def Roomy (c : Chan) : Prop :=
  match c.writing with
  | .top k => c.Room k.NumBytes
  | .loaded k n => c.Room k.NumBytes ∧ (n = k.NumBytes ∨ c.ring.WrOff + n = c.ring.SizeOfBuffer)
  | .copied k chunk => c.Room k.NumBytes ∧
      (chunk.length = k.NumBytes ∨ c.ring.WrOff + chunk.length = c.ring.SizeOfBuffer)
  | .stored k => c.Room k.NumBytes ∧ (k.NumBytes = 0 ∨ c.ring.WrOff = c.ring.SizeOfBuffer)
  | _ => True

/-- the steps of a turn, and those of another one if there is one -/
def left (c : Chan) : Nat :=
  match c.writing with
  | .idle | .fault => 0
  | .entered _ => 9
  | .top k => 4 + if c.ring.WrOff + k.NumBytes ≤ c.ring.SizeOfBuffer then 0 else 4
  | .loaded k n => 3 + if n = k.NumBytes then 0 else 4
  | .copied k chunk => 2 + if chunk.length = k.NumBytes then 0 else 4
  | .stored k => 1 + if k.NumBytes = 0 then 0 else 4

variable {c c' : Chan}

/-- the room that an accepted number of bytes needs is there -/
theorem room_accepted (h : c.Good) (hmode : c.ring.mode ≠ SEGGER_RTT_MODE_BLOCK_IF_FIFO_FULL) (len : Nat) :
    c.Room (accepted c.ring.mode (c.ring.free c.sent c.got.length) len) := by
  have hle := h.inv.le
  have hfits := h.inv.fits
  unfold Room accepted RING_BUFFER.free
  rw [if_neg hmode]
  split
  · omega
  · split <;> omega

/-- what the writer's step leads to, when it must not block -/
theorem roomy_write (h : c.Good) (hmode : c.ring.mode ≠ SEGGER_RTT_MODE_BLOCK_IF_FIFO_FULL) (hroomy : c.Roomy)
    (hs : c.write = some c') : c'.Roomy ∧ c'.left < c.left := by
  have hwo := h.writing
  unfold WritingOk at hwo
  unfold Roomy at hroomy
  unfold Chan.write at hs
  have hfits := h.inv.fits
  have hle := h.inv.le
  cases hw : c.writing with
  | idle => rw [hw] at hs; cases hs
  | fault => rw [hw] at hs; cases hs
  | entered data =>
    rw [hw] at hs hwo
    cases hs
    obtain ⟨hready, hsmall⟩ := hwo
    have hfit := h.inv.fitting_eq hready hsmall hmode
    have hroom := room_accepted h hmode data.length
    have hleft : c.left = 9 := by
      unfold left
      rw [hw]
    unfold Chan.enter
    simp only [if_pos hmode, hfit]
    split
    · exact ⟨trivial, by rw [hleft]; exact Nat.zero_lt_succ 8⟩
    · refine ⟨hroom, ?_⟩
      rw [hleft]
      unfold left
      dsimp only
      split <;> omega
  | top k =>
    rw [hw] at hs hwo hroomy
    cases hs
    obtain ⟨hready, hk⟩ := hwo
    have hacc := accepted_le c.ring.mode k.found k.data.length
    have htotal := hk.total
    have hsmall := hk.small
    have hturn := h.inv.turn_eq hready k.NumBytes (Nat.le_refl _) h.inv.fits h.inv.rd (by omega)
    have hroom : c.Room k.NumBytes := hroomy
    unfold Room at hroom
    unfold RING_BUFFER.free at hturn
    refine ⟨⟨hroom, by dsimp only; omega⟩, ?_⟩
    unfold left
    rw [hw]
    dsimp only
    split <;> split <;> omega
  | loaded k n =>
    rw [hw] at hs hwo hroomy
    cases hs
    obtain ⟨hready, hk, m, rfl, hm, hf⟩ := hwo
    obtain ⟨hroom, hend⟩ := hroomy
    have hacc := accepted_le c.ring.mode k.found k.data.length
    have htotal := hk.total
    have hlen : k.pBuffer.length = k.data.length - k.NumBytesWritten := List.length_drop
    have hchunk : (k.pBuffer.take m).length = m := List.length_take_of_le (by omega)
    have hfrom : memcpyFrom k.pBuffer 0 m = .ok (k.pBuffer.take m) := memcpyFrom_eq (by omega)
    obtain ⟨hto, -, -⟩ := h.inv.copied (k.pBuffer.take m) (by rw [hchunk]; exact hf)
    unfold Chan.copy
    simp only [hfrom, hto]
    refine ⟨⟨hroom, ?_⟩, ?_⟩
    · dsimp only
      omega
    · unfold left
      rw [hw]
      dsimp only
      rw [hchunk]
      split <;> split <;> omega
  | copied k chunk =>
    rw [hw] at hs hwo hroomy
    cases hs
    obtain ⟨hready, hk, hchunk, hnum, hf, hheld⟩ := hwo
    obtain ⟨hroom, hend⟩ := hroomy
    unfold Room at hroom
    refine ⟨⟨?_, ?_⟩, ?_⟩
    · show (c.sent ++ chunk).length + (k.NumBytes - chunk.length) < c.got.length + c.ring.SizeOfBuffer
      rw [List.length_append]
      omega
    · show k.NumBytes - chunk.length = 0 ∨ c.ring.WrOff + chunk.length = c.ring.SizeOfBuffer
      omega
    · unfold left Chan.store
      rw [hw]
      dsimp only
      split <;> split <;> omega
  | stored k =>
    rw [hw] at hs hwo hroomy
    cases hs
    obtain ⟨hroom, hend⟩ := hroomy
    unfold Room at hroom
    have hleft : c.left = 1 + if k.NumBytes = 0 then 0 else 4 := by
      unfold left
      rw [hw]
    have hsize := c.ring.sameConfig_wrap.2.1
    rw [hleft]
    unfold Chan.endTurn
    dsimp only
    split
    · exact ⟨trivial, Nat.zero_lt_succ _⟩
    · have hwrap : c.ring.wrap.WrOff = 0 := by
        unfold RING_BUFFER.wrap
        rw [if_pos (by omega)]
      refine ⟨?_, ?_⟩
      · show c.sent.length + k.NumBytes < c.got.length + c.ring.wrap.SizeOfBuffer
        rw [hsize]
        exact hroom
      · unfold left
        dsimp only
        rw [hwrap, hsize, if_pos (by omega)]
        omega

/-- the reader only makes room -/
theorem roomy_of_reader (hroomy : c.Roomy) (hwriting : c'.writing = c.writing)
    (hwr : c'.ring.WrOff = c.ring.WrOff) (hcfg : c.ring.SameConfig c'.ring) (hsent : c'.sent = c.sent)
    (hgot : c.got.length ≤ c'.got.length) : c'.Roomy ∧ c'.left = c.left := by
  have hroom : ∀ n, c.Room n → c'.Room n := by
    intro n hn
    unfold Room at hn ⊢
    rw [hsent, hcfg.2.1]
    omega
  refine ⟨?_, by unfold left; rw [hwriting, hwr, hcfg.2.1]⟩
  unfold Roomy at hroomy ⊢
  rw [hwriting, hwr, hcfg.2.1]
  cases hw : c.writing with
  | top k =>
    rw [hw] at hroomy
    exact hroom _ hroomy
  | loaded k n =>
    rw [hw] at hroomy
    exact ⟨hroom _ hroomy.1, hroomy.2⟩
  | copied k chunk =>
    rw [hw] at hroomy
    exact ⟨hroom _ hroomy.1, hroomy.2⟩
  | stored k =>
    rw [hw] at hroomy
    exact ⟨hroom _ hroomy.1, hroomy.2⟩
  | _ => trivial

theorem roomy_read (hroomy : c.Roomy) (hs : c.read = some c') : c'.Roomy ∧ c'.left = c.left := by
  unfold Chan.read at hs
  cases hr : c.reading with
  | idle => rw [hr] at hs; cases hs
  | fault => rw [hr] at hs; cases hs
  | loaded asked there l =>
    rw [hr] at hs
    cases hs
    unfold readPart
    split <;> exact roomy_of_reader hroomy rfl rfl ⟨rfl, rfl, rfl⟩ rfl (Nat.le_refl _)
  | first asked there l =>
    rw [hr] at hs
    cases hs
    unfold readPart
    split <;> exact roomy_of_reader hroomy rfl rfl ⟨rfl, rfl, rfl⟩ rfl (Nat.le_refl _)
  | rest asked there l =>
    rw [hr] at hs
    cases hs
    apply roomy_of_reader hroomy
    · rfl
    · unfold Reading.finish
      dsimp only
      split <;> rfl
    · exact Reading.sameConfig_finish c.ring l
    · rfl
    · simp only [Chan.got, List.map_append, List.flatten_append, List.length_append]
      omega

/-- A step keeps it that the call has room; it is the writer's or it leaves the writer where it is. -/
theorem roomy_step (h : c.Good) (hmode : c.ring.mode ≠ SEGGER_RTT_MODE_BLOCK_IF_FIFO_FULL) (hroomy : c.Roomy)
    {a : Act} (hs : step c a = some c') :
    c'.Roomy ∧ (a.Within → c'.left + [a].count .writer ≤ c.left) := by
  cases a with
  | write data =>
    simp only [step] at hs
    split at hs <;> cases hs
    exact ⟨trivial, fun hne => hne.elim⟩
  | read ask =>
    simp only [step] at hs
    split at hs <;> cases hs
    obtain ⟨h1, h2⟩ := @roomy_of_reader c { c with
      reading := .loaded ask (c.sent.length - c.got.length) (.start c.ring ask) } hroomy rfl rfl
      ⟨rfl, rfl, rfl⟩ rfl (Nat.le_refl _)
    exact ⟨h1, fun _ => by rw [h2]; exact Nat.le_refl _⟩
  | writer =>
    obtain ⟨h1, h2⟩ := roomy_write h hmode hroomy hs
    exact ⟨h1, fun _ => h2⟩
  | reader =>
    obtain ⟨h1, h2⟩ := roomy_read hroomy hs
    exact ⟨h1, fun _ => by rw [h2]; exact Nat.le_refl _⟩

/-- The writer can go on wherever its call is. -/
theorem write_enabled (h : c.Good) (hbusy : c.writing ≠ .idle) : (step c .writer).isSome := by
  have hwo := h.writing
  unfold WritingOk at hwo
  unfold step Chan.write
  cases hw : c.writing with
  | idle => exact absurd hw hbusy
  | fault =>
    rw [hw] at hwo
    exact hwo.elim
  | _ => rfl

/-- the steps of the call, in a run without another one -/
theorem roomy_run (h : c.Good) (hmode : c.ring.mode ≠ SEGGER_RTT_MODE_BLOCK_IF_FIFO_FULL) (hroomy : c.Roomy)
    {bs : List Act} (hb : ∀ a ∈ bs, a.Within) (hr : exec step c bs = some c') :
    c'.left + bs.count .writer ≤ c.left := by
  induction bs generalizing c with
  | nil =>
    have he : c = c' := by simpa [exec] using hr
    rw [he]
    exact Nat.le_refl _
  | cons a bs ih =>
    obtain ⟨hne, htl⟩ := List.forall_mem_cons.mp hb
    obtain ⟨c1, h1, h2⟩ := exec_cons.mp hr
    obtain ⟨hroomy1, hleft1⟩ := roomy_step h hmode hroomy h1
    have hmode1 : c1.ring.mode ≠ SEGGER_RTT_MODE_BLOCK_IF_FIFO_FULL := by
      rw [(sameConfig_step h1).mode_eq]
      exact hmode
    have hih := ih (h.step hne.small h1) hmode1 hroomy1 htl h2
    have hone := hleft1 hne
    have hcount : (a :: bs).count Act.writer = [a].count Act.writer + bs.count Act.writer := by
      rw [← List.singleton_append, List.count_append]
    omega

end Chan

/-- A call that must not block takes nine steps of its own at most, and it can always take the next one,
in every run and whatever the reader does between them. -/
theorem nonblocking_bounded {r : RING_BUFFER} {as bs : List Act} {data : List Byte} {c c' : Chan} (h : r.Fresh)
    (hmode : r.mode ≠ SEGGER_RTT_MODE_BLOCK_IF_FIFO_FULL) (ha : ∀ a ∈ as, a.Small)
    (hr : exec step (Chan.init r) as = some c) (hc : c.writing = .entered data)
    (hb : ∀ a ∈ bs, a.Within) (hr' : exec step c bs = some c') :
    bs.count .writer ≤ 9 ∧ (bs.count .writer = 9 → c'.writing = .idle) ∧
      (c'.writing ≠ .idle → (step c' .writer).isSome) := by
  have hg := channel_good h ha hr
  have hg' : c'.Good :=
    invariant_of_mem (G := Act.Small) (fun _ _ _ hg ha hs => hg.step ha hs) (fun a hab => (hb a hab).small) hg hr'
  have hcfg : r.SameConfig c.ring :=
    invariant (I := fun c => r.SameConfig c.ring) (fun _ _ _ hi hs => hi.trans (sameConfig_step hs)) ⟨rfl, rfl, rfl⟩ hr
  have hmode' : c.ring.mode ≠ SEGGER_RTT_MODE_BLOCK_IF_FIFO_FULL := by
    rw [hcfg.mode_eq]
    exact hmode
  have hroomy : c.Roomy := by
    unfold Chan.Roomy
    rw [hc]
    trivial
  have hrun := Chan.roomy_run hg hmode' hroomy hb hr'
  have hleft : c.left = 9 := by
    unfold Chan.left
    rw [hc]
  refine ⟨by omega, fun hnine => ?_, fun hbusy => Chan.write_enabled hg' hbusy⟩
  have hz : c'.left = 0 := by omega
  have hwo := hg'.writing
  unfold Chan.left at hz
  unfold Chan.WritingOk at hwo
  cases hw : c'.writing with
  | idle => rfl
  | fault =>
    rw [hw] at hwo
    exact hwo.elim
  | _ =>
    rw [hw] at hz
    dsimp only at hz
    omega

theorem nonblocking_bounded_wrapped : ∃ c c',
    exec step (Chan.init (fourBytes 1)) (wrappedRun.take 11) = some c ∧
      exec step c (wrappedRun.drop 11) = some c' ∧ (wrappedRun.drop 11).count .writer ≤ 9 :=
  ⟨_, _, rfl, rfl, (@nonblocking_bounded _ (wrappedRun.take 11) (wrappedRun.drop 11) [3, 4, 5, 6, 7] _ _
    (fourBytes_fresh 1) (by decide) (by decide) rfl rfl (by decide) rfl).1⟩

/-! ## the call as a function of the reader's moves -/

/-- a whole call of `SEGGER_RTT_Read`, step by step -/
theorem read_run {c : Chan} {ask : Nat} {ring : RING_BUFFER} {bs : List Byte} (hidle : c.reading = .idle)
    (h : c.ring.read ask = .ok (ring, bs)) :
    exec step c [.read ask, .reader, .reader, .reader] = some { c with
      ring := ring
      gots := c.gots ++ [Got.mk ask (c.sent.length - c.got.length) bs] } := by
  unfold RING_BUFFER.read at h
  cases h1 : (Reading.start c.ring ask).first c.ring with
  | error e => rw [h1] at h; cases h
  | ok l1 =>
    rw [h1] at h
    cases h2 : l1.rest c.ring with
    | error e => simp only [bind, Except.bind, h2] at h; cases h
    | ok l2 =>
      simp only [bind, Except.bind, h2, pure, Except.pure] at h
      cases h
      simp only [exec, step, Option.bind, hidle, if_pos, Chan.read, h1, Chan.readPart, h2]

theorem memcpyFrom_zero {mem bs : List Byte} {n : Int} (h : memcpyFrom mem 0 n = .ok bs) :
    bs = mem.take bs.length := by
  unfold memcpyFrom at h
  split at h
  · next hn =>
    cases h
    rw [length_slice (by omega)]
    rfl
  · cases h

/-- After a run the call has returned: the state, given what the call as a function leaves. -/
structure Chan.Ran (c : Chan) (data : List Byte) (n : Nat) (bs : List Byte) (ring : RING_BUFFER) (c' : Chan) :
    Prop where
  ring : c'.ring = ring
  writing : c'.writing = .idle
  reading : c'.reading = .idle
  sent : c'.sent = c.sent ++ data.take n
  got : c'.got = c.got ++ bs

/-- one turn of the loop, after the reader's move -/
theorem turn_run (c : Chan) {k : Call} {chunk mem : List Byte} (hw : c.writing = .top k)
    (hfrom : memcpyFrom k.pBuffer 0 (c.ring.turn c.ring.RdOff k.NumBytes) = .ok chunk)
    (hto : memcpyTo c.ring.pBuffer c.ring.WrOff chunk = .ok mem) :
    exec step c [.writer, .writer, .writer, .writer] = some (Chan.endTurn
      { c with
        ring := RING_BUFFER.publish { c.ring with pBuffer := mem } chunk.length
        sent := c.sent ++ chunk
        writing := .stored { k with
          NumBytes := k.NumBytes - chunk.length
          NumBytesWritten := k.NumBytesWritten + chunk.length } }
      { k with
        NumBytes := k.NumBytes - chunk.length
        NumBytesWritten := k.NumBytesWritten + chunk.length }) := by
  simp only [exec, step, Option.bind, Chan.write, hw, Chan.copy, hfrom, hto, Chan.store]

theorem loop_run {host : List Nat} {c : Chan} {k : Call} (taken : List Byte) {w : RING_BUFFER.Wrote}
    (hw : c.writing = .top k) (hidle : c.reading = .idle)
    (h : c.ring.writeLoop host k.pBuffer k.NumBytes k.NumBytesWritten taken = .ok w) :
    ∃ as c' bs n, exec step c as = some c' ∧ c.Ran k.pBuffer n bs w.ring c' ∧
      w.taken = taken ++ bs ∧ w.NumBytesWritten = k.NumBytesWritten + n := by
  induction host generalizing c k taken with
  | nil => cases h
  | cons ask host ih =>
    rw [RING_BUFFER.writeLoop] at h
    cases hread : c.ring.read ask with
    | error e => rw [hread] at h; cases h
    | ok res =>
      obtain ⟨r1, bs⟩ := res
      simp only [hread, bind, Except.bind] at h
      cases hfrom : memcpyFrom k.pBuffer 0 (r1.turn r1.RdOff k.NumBytes) with
      | error e => rw [hfrom] at h; cases h
      | ok chunk =>
        simp only [hfrom] at h
        cases hto : memcpyTo r1.pBuffer r1.WrOff chunk with
        | error e => rw [hto] at h; cases h
        | ok mem =>
          simp only [hto] at h
          have hrun1 := read_run hidle hread
          obtain ⟨c1, hc1⟩ : ∃ c1, c1 = { c with
              ring := r1, gots := c.gots ++ [Got.mk ask (c.sent.length - c.got.length) bs] } := ⟨_, rfl⟩
          have hgot1 : c1.got = c.got ++ bs := by
            rw [hc1]
            simp only [Chan.got, List.map_append, List.flatten_append, List.map_cons, List.map_nil,
              List.flatten_cons, List.flatten_nil, List.append_nil]
          rw [← hc1] at hrun1
          have hrun2 := turn_run c1 (k := k) (by rw [hc1]; exact hw)
            (by rw [hc1]; exact hfrom) (by rw [hc1]; exact hto)
          have hchunk := memcpyFrom_zero hfrom
          obtain ⟨k2, hk2⟩ : ∃ k2, k2 = { k with
            NumBytes := k.NumBytes - chunk.length
            NumBytesWritten := k.NumBytesWritten + chunk.length } := ⟨_, rfl⟩
          rw [← hk2] at hrun2
          have hrun := exec_trans hrun1 hrun2
          by_cases hz : k.NumBytes - chunk.length = 0
          · rw [if_pos hz] at h
            cases h
            refine ⟨_, _, bs, chunk.length, hrun, ⟨?_, ?_, ?_, ?_, ?_⟩, rfl, rfl⟩
            all_goals unfold Chan.endTurn; rw [if_pos (by rw [hk2]; exact hz)]
            · rw [hc1]
              rfl
            · rfl
            · rw [hc1]
              exact hidle
            · rw [hc1]
              show c.sent ++ chunk = _
              rw [← hchunk]
            · exact hgot1
          · rw [if_neg hz] at h
            have hpb : k2.pBuffer = k.pBuffer.drop chunk.length := by
              rw [hk2, Call.pBuffer, Call.pBuffer, List.drop_drop]
            obtain ⟨c2, hc2⟩ : ∃ c2, exec step c ([.read ask, .reader, .reader, .reader] ++
                [.writer, .writer, .writer, .writer]) = some c2 ∧ c2.ring = (RING_BUFFER.publish { r1 with pBuffer := mem } chunk.length).wrap ∧
                c2.writing = .top k2 ∧ c2.reading = .idle ∧ c2.sent = c.sent ++ chunk ∧ c2.got = c.got ++ bs := by
              refine ⟨_, hrun, ?_, ?_, ?_, ?_, ?_⟩
              all_goals unfold Chan.endTurn; rw [if_neg (by rw [hk2]; exact hz)]
              · rw [hc1]
              · rw [hc1]
                exact hidle
              · rw [hc1]
              · exact hgot1
            obtain ⟨hex2, hring2, hw2, hidle2, hsent2, hgot2⟩ := hc2
            obtain ⟨as, c', bs', n, hex, hran, htaken, hnum⟩ := ih (taken ++ bs) hw2 hidle2 (by
              rw [hring2, hpb, hk2]
              exact h)
            refine ⟨_, c', bs ++ bs', chunk.length + n, exec_trans hex2 hex,
              ⟨hran.ring, hran.writing, hran.reading, ?_, ?_⟩, ?_, ?_⟩
            · rw [hran.sent, hsent2, hpb, List.append_assoc, List.take_add]
              congr 2
            · rw [hran.got, hgot2, List.append_assoc]
            · rw [htaken, List.append_assoc]
            · rw [hnum, hk2, ← Nat.add_assoc]

/-- from the entry of a call on: the number of bytes it sets out to store -/
theorem enter_run {c : Chan} {data bs : List Byte} (NumBytes : Nat) {host : List Nat} {w : RING_BUFFER.Wrote}
    (hw : c.writing = .entered data) (hidle : c.reading = .idle)
    (hnum : (if c.ring.mode ≠ SEGGER_RTT_MODE_BLOCK_IF_FIFO_FULL then c.ring.fitting c.ring.RdOff data.length
      else data.length) = NumBytes)
    (h : (if NumBytes = 0 then .ok ⟨c.ring, host, bs, 0⟩ else c.ring.writeLoop host data NumBytes 0 bs) =
      .ok w) :
    ∃ as c' bs', exec step c as = some c' ∧ c.Ran data w.NumBytesWritten bs' w.ring c' ∧ w.taken = bs ++ bs' := by
  have hstep : step c .writer = some (c.enter data) := by
    show c.write = _
    unfold Chan.write
    rw [hw]
  by_cases hz : NumBytes = 0
  · rw [if_pos hz] at h
    cases h
    refine ⟨_, _, [], exec_single hstep, ?_, (List.append_nil _).symm⟩
    unfold Chan.enter
    simp only [hnum, if_pos hz]
    exact ⟨rfl, rfl, hidle, (List.append_nil _).symm, (List.append_nil _).symm⟩
  · rw [if_neg hz] at h
    have hent : c.enter data = { c with writing := .top ⟨data, NumBytes, 0, c.free⟩ } := by
      unfold Chan.enter
      simp only [hnum, if_neg hz]
    rw [hent] at hstep
    obtain ⟨as, c', bs', n, hex, hran, htaken, hn⟩ := loop_run bs (c := { c with writing := .top ⟨data, NumBytes, 0, c.free⟩ })
      (k := ⟨data, NumBytes, 0, c.free⟩) rfl hidle h
    have hn' : w.NumBytesWritten = n := hn.trans (Nat.zero_add n)
    rw [← hn'] at hran
    exact ⟨_, c', bs', exec_cons.mpr ⟨_, hstep, hex⟩,
      ⟨hran.ring, hran.writing, hran.reading, hran.sent, hran.got⟩, htaken⟩

/-- What the call as a function does is what the two sides can do. -/
theorem write_run {host : List Nat} {c : Chan} {data : List Byte} {w : RING_BUFFER.Wrote}
    (hw : c.writing = .idle) (hidle : c.reading = .idle) (h : c.ring.write data host = .ok w) :
    ∃ as c', exec step c (.write data :: as) = some c' ∧ c.Ran data w.NumBytesWritten w.taken w.ring c' := by
  have hstep : step c (.write data) = some { c with writing := .entered data } := if_pos hw
  unfold RING_BUFFER.write at h
  split at h
  · next hmode =>
    cases host with
    | nil => cases h
    | cons ask host =>
      cases hread : c.ring.read ask with
      | error e => simp only [hread, bind, Except.bind] at h; cases h
      | ok res =>
        obtain ⟨r1, bs⟩ := res
        simp only [hread, bind, Except.bind] at h
        have hrun := read_run (c := { c with writing := .entered data }) hidle hread
        have hcfg : r1.mode = c.ring.mode := (RING_BUFFER.sameConfig_read hread).mode_eq
        obtain ⟨as, c', bs', hex, hran, htaken⟩ := enter_run (r1.fitting r1.RdOff data.length) (c := { c with
            writing := .entered data
            ring := r1
            gots := c.gots ++ [Got.mk ask (c.sent.length - c.got.length) bs] }) rfl hidle (by
              show (if r1.mode ≠ _ then _ else _) = _
              rw [hcfg, if_pos hmode]) h
        refine ⟨_, c', exec_cons.mpr ⟨_, hstep, exec_trans hrun hex⟩, hran.ring, hran.writing, hran.reading, hran.sent, ?_⟩
        rw [hran.got, htaken, ← List.append_assoc]
        congr 1
        simp only [Chan.got, List.map_append, List.flatten_append, List.map_cons, List.map_nil,
          List.flatten_cons, List.flatten_nil, List.append_nil]
  · next hmode =>
    obtain ⟨as, c', bs', hex, hran, htaken⟩ := enter_run data.length (c := { c with writing := .entered data })
      rfl hidle (if_neg hmode) h
    have htaken' : w.taken = bs' := htaken
    rw [← htaken'] at hran
    exact ⟨_, c', exec_cons.mpr ⟨_, hstep, hex⟩, hran.ring, hran.writing, hran.reading, hran.sent, hran.got⟩

/-- five bytes into a buffer of four, in which the mode trims them; the host moves before each load -/
theorem write_run_some : ∃ w as c',
    RING_BUFFER.write (fourBytes SEGGER_RTT_MODE_NO_BLOCK_TRIM) [3, 4, 5, 6, 7] [0, 8, 8] = .ok w ∧
      exec step (Chan.init (fourBytes SEGGER_RTT_MODE_NO_BLOCK_TRIM)) (.write [3, 4, 5, 6, 7] :: as) = some c' ∧
      c'.sent = [3, 4, 5] :=
  have h := @write_run [0, 8, 8] (Chan.init (fourBytes SEGGER_RTT_MODE_NO_BLOCK_TRIM)) [3, 4, 5, 6, 7] _ rfl rfl rfl
  h.elim fun as ha => ha.elim fun c' hc => ⟨_, as, c', rfl, hc.1, hc.2.sent⟩

end Rtt
end Pharoah
