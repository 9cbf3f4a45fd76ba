import Pharoah.Rtt.Control

/-!
# Runs of calls

Every sequence of calls of the target and moves of the host, on all buffers.

* `Event.run`, `step`  one call of the target or one move of the host;
* `Event.Valid`        what the code does not check: an index in range, and sizes that fit an int;
* `Safe`               a program that keeps the buffers between calls and never faults;
* `blocking_write`     a call that may block: when it returns, and what it has sent;
* `calls_ok`           **no call faults in any run, and every buffer stays a first-in first-out stream**;
* `getKey_next`        `SEGGER_RTT_GetKey` returns the next byte that the host has typed, and
                       `SEGGER_RTT_HasKey` says whether there is one.
-/

namespace Pharoah
namespace Rtt

open Cells Lts Prog

/-- a call of the target, or a move of the host between two calls -/
inductive Event
  | Read (BufferIndex BufferSize : Nat)
  | Write (BufferIndex : Nat) (pBuffer : List Byte)
  | WriteString (BufferIndex : Nat) (s : Option (List Byte))
  | GetKey
  | HasKey
  | WaitKey (typed : List (List Byte))
  | ConfigUpBuffer (BufferIndex : Nat) (sName : String) (pBuffer : List Byte) (BufferSize Flags : Nat)
  | ConfigDownBuffer (BufferIndex : Nat) (sName : String) (pBuffer : List Byte) (BufferSize Flags : Nat)
  | SetTerminal (TerminalId : Byte)
  | TerminalOut (TerminalId : Byte) (s : Option (List Byte))
  | takes (i ask : Nat)
  | types (i : Nat) (bs : List Byte)
deriving DecidableEq

/-- a program whose result is not looked at -/
def ignore {α : Type} (m : Code α) : Code Unit := m >>= fun _ => pure ()

def Event.run : Event → Code Unit
  | .Read i n => ignore (SEGGER_RTT_Read i n)
  | .Write i pBuffer => ignore (SEGGER_RTT_Write i pBuffer)
  | .WriteString i s => ignore (SEGGER_RTT_WriteString i s)
  | .GetKey => ignore SEGGER_RTT_GetKey
  | .HasKey => ignore SEGGER_RTT_HasKey
  | .WaitKey typed => ignore (SEGGER_RTT_WaitKey typed)
  | .ConfigUpBuffer i sName pBuffer BufferSize Flags =>
    ignore (SEGGER_RTT_ConfigUpBuffer i sName pBuffer BufferSize Flags)
  | .ConfigDownBuffer i sName pBuffer BufferSize Flags =>
    ignore (SEGGER_RTT_ConfigDownBuffer i sName pBuffer BufferSize Flags)
  | .SetTerminal id => SEGGER_RTT_SetTerminal id
  | .TerminalOut id s => ignore (SEGGER_RTT_TerminalOut id s)
  | .takes i ask => hostReads i ask
  | .types i bs => hostWrites i bs

/-- a call that returns -/
def Target.step (s : Target) (e : Event) : Option Target :=
  match e.run s with
  | .ok _ s' => some s'
  | .error _ _ => none

/-- a string that ends, and not after more bytes than an int counts -/
def Ends : Option (List Byte) → Prop
  | none => True
  | some s => 0 ∈ s ∧ s.length < 2 ^ 31

/-- What the code does not check: the index of a buffer that there is, a string that ends, and sizes that
fit an int; a buffer that is set up has the size that is given for it. -/
def Event.Valid : Event → Prop
  | .Read i n => i < SEGGER_RTT_MAX_NUM_DOWN_BUFFERS ∧ n < 2 ^ 31
  | .Write i pBuffer => i < SEGGER_RTT_MAX_NUM_UP_BUFFERS ∧ pBuffer.length < 2 ^ 31
  | .WriteString i s => i < SEGGER_RTT_MAX_NUM_UP_BUFFERS ∧ Ends s
  | .GetKey => True
  | .HasKey => True
  | .WaitKey typed => ∀ bs ∈ typed, bs.length < 2 ^ 31
  | .ConfigUpBuffer i _ pBuffer BufferSize _ | .ConfigDownBuffer i _ pBuffer BufferSize _ =>
    i > 0 → pBuffer.length = BufferSize ∧ 0 < BufferSize ∧ BufferSize < 2 ^ 31
  | .SetTerminal _ => True
  | .TerminalOut _ s => Ends s
  | .takes i ask => i < SEGGER_RTT_MAX_NUM_UP_BUFFERS ∧ ask < 2 ^ 31
  | .types i bs => i < SEGGER_RTT_MAX_NUM_DOWN_BUFFERS ∧ bs.length < 2 ^ 31

instance : (s : Option (List Byte)) → Decidable (Ends s)
  | none => .isTrue trivial
  | some s => inferInstanceAs (Decidable (0 ∈ s ∧ s.length < 2 ^ 31))

instance : (e : Event) → Decidable e.Valid
  | .Read i n => inferInstanceAs (Decidable (i < _ ∧ n < 2 ^ 31))
  | .Write i pBuffer => inferInstanceAs (Decidable (i < _ ∧ pBuffer.length < 2 ^ 31))
  | .WriteString i s => inferInstanceAs (Decidable (i < _ ∧ Ends s))
  | .GetKey | .HasKey | .SetTerminal _ => .isTrue trivial
  | .WaitKey typed => inferInstanceAs (Decidable (∀ bs ∈ typed, bs.length < 2 ^ 31))
  | .ConfigUpBuffer i _ pBuffer n _ | .ConfigDownBuffer i _ pBuffer n _ =>
    inferInstanceAs (Decidable (i > 0 → pBuffer.length = n ∧ 0 < n ∧ n < 2 ^ 31))
  | .TerminalOut _ s => inferInstanceAs (Decidable (Ends s))
  | .takes i ask => inferInstanceAs (Decidable (i < _ ∧ ask < 2 ^ 31))
  | .types i bs => inferInstanceAs (Decidable (i < _ ∧ bs.length < 2 ^ 31))

/-! ## no call faults -/

/-- The program keeps every buffer between calls; it may wait for the host, but it does not fault. -/
def Safe {α : Type} (m : Code α) : Prop := Keeps Target.Ok (fun e => e = Stop.waiting) m

section
variable {s : Target}

theorem Target.Ok.up_lt (h : s.Ok) {i : Nat} (hi : i < SEGGER_RTT_MAX_NUM_UP_BUFFERS) :
    i < s.cb.aUp.length := by
  rw [h.ups, h.maxUp]
  exact hi

theorem Target.Ok.down_lt (h : s.Ok) {i : Nat} (hi : i < SEGGER_RTT_MAX_NUM_DOWN_BUFFERS) :
    i < s.cb.aDown.length := by
  rw [h.downs, h.maxDown]
  exact hi

/-- one up-buffer changes, with its stream -/
theorem Target.Ok.setUp (h : s.Ok) {i : Nat} {r : RING_BUFFER} {sent got : List Byte} (hflow : Flow r sent got)
    (hpos : i = 0 → 0 < r.SizeOfBuffer) :
    { s with
      cb := { s.cb with aUp := s.cb.aUp.set i r }
      sent := Function.update s.sent i sent
      got := Function.update s.got i got }.Ok := by
  refine ⟨fun j r' hr' => ?_, h.down, ?_, h.downs, h.maxUp, h.maxDown, fun r' hr' => ?_, h.down0, h.active, h.host⟩
  · have hr'' : (s.cb.aUp.set i r)[j]? = some r' := hr'
    show Flow r' (Function.update s.sent i sent j) (Function.update s.got i got j)
    by_cases hj : j = i
    · subst hj
      rw [Function.update_self, Function.update_self]
      by_cases hlt : j < s.cb.aUp.length
      · rw [List.getElem?_set_self hlt] at hr''
        cases hr''
        exact hflow
      · rw [List.getElem?_eq_none (by rw [List.length_set]; omega)] at hr''
        cases hr''
    · rw [List.getElem?_set_ne (Ne.symm hj)] at hr''
      rw [Function.update_of_ne hj, Function.update_of_ne hj]
      exact h.up j r' hr''
  · show (s.cb.aUp.set i r).length = _
    rw [List.length_set]
    exact h.ups
  · have hr'' : (s.cb.aUp.set i r)[0]? = some r' := hr'
    by_cases hi : i = 0
    · subst hi
      by_cases hlt : 0 < s.cb.aUp.length
      · rw [List.getElem?_set_self hlt] at hr''
        cases hr''
        exact hpos rfl
      · rw [List.getElem?_eq_none (by rw [List.length_set]; omega)] at hr''
        cases hr''
    · rw [List.getElem?_set_ne hi] at hr''
      exact h.up0 r' hr''

/-- one down-buffer changes, with its stream -/
theorem Target.Ok.setDown (h : s.Ok) {i : Nat} {r : RING_BUFFER} {sent got : List Byte} (hflow : Flow r sent got)
    (hpos : i = 0 → 0 < r.SizeOfBuffer) :
    { s with
      cb := { s.cb with aDown := s.cb.aDown.set i r }
      typed := Function.update s.typed i sent
      keys := Function.update s.keys i got }.Ok := by
  refine ⟨h.up, fun j r' hr' => ?_, h.ups, ?_, h.maxUp, h.maxDown, h.up0, fun r' hr' => ?_, h.active, h.host⟩
  · have hr'' : (s.cb.aDown.set i r)[j]? = some r' := hr'
    show Flow r' (Function.update s.typed i sent j) (Function.update s.keys i got j)
    by_cases hj : j = i
    · subst hj
      rw [Function.update_self, Function.update_self]
      by_cases hlt : j < s.cb.aDown.length
      · rw [List.getElem?_set_self hlt] at hr''
        cases hr''
        exact hflow
      · rw [List.getElem?_eq_none (by rw [List.length_set]; omega)] at hr''
        cases hr''
    · rw [List.getElem?_set_ne (Ne.symm hj)] at hr''
      rw [Function.update_of_ne hj, Function.update_of_ne hj]
      exact h.down j r' hr''
  · show (s.cb.aDown.set i r).length = _
    rw [List.length_set]
    exact h.downs
  · have hr'' : (s.cb.aDown.set i r)[0]? = some r' := hr'
    by_cases hi : i = 0
    · subst hi
      by_cases hlt : 0 < s.cb.aDown.length
      · rw [List.getElem?_set_self hlt] at hr''
        cases hr''
        exact hpos rfl
      · rw [List.getElem?_eq_none (by rw [List.length_set]; omega)] at hr''
        cases hr''
    · rw [List.getElem?_set_ne hi] at hr''
      exact h.down0 r' hr''

/-- another active terminal -/
theorem Target.Ok.setActive (h : s.Ok) {id : Byte} (hid : id < 16) : { s with _ActiveTerminal := id }.Ok :=
  ⟨h.up, h.down, h.ups, h.downs, h.maxUp, h.maxDown, h.up0, h.down0, hid, h.host⟩

end

/-- what `SEGGER_RTT_Read` does between calls -/
theorem read_apply {s : Target} (h : s.Ok) {i n : Nat} (hi : i < SEGGER_RTT_MAX_NUM_DOWN_BUFFERS)
    (hn : n < 2 ^ 31) : ∃ s', SEGGER_RTT_Read i n s = .ok ((s.typed i |>.drop (s.keys i).length).take n) s' ∧
      s'.Ok ∧ s'.typed = s.typed ∧
      s'.keys = extend s.keys i ((s.typed i |>.drop (s.keys i).length).take n) := by
  obtain ⟨r, hr⟩ : ∃ r, s.cb.aDown[i]? = some r := ⟨_, List.getElem?_eq_getElem (h.down_lt hi)⟩
  obtain ⟨r', hread, hflow, hcfg⟩ := (h.down i r hr).read hn
  have hok := h.setDown (i := i) hflow (fun hi0 => by subst hi0; rw [hcfg.2.1]; exact h.down0 r hr)
  rw [Function.update_eq_self] at hok
  obtain ⟨s', hs'⟩ : ∃ s', s' = { s with
      cb := { s.cb with aDown := s.cb.aDown.set i r' }
      keys := extend s.keys i ((s.typed i |>.drop (s.keys i).length).take n) } := ⟨_, rfl⟩
  refine ⟨s', by simp only [SEGGER_RTT_Read, hr, hread, hs'], ?_, by rw [hs'], by rw [hs']⟩
  rw [hs']
  exact hok

theorem safe_read {i n : Nat} (hi : i < SEGGER_RTT_MAX_NUM_DOWN_BUFFERS) (hn : n < 2 ^ 31) :
    Safe (SEGGER_RTT_Read i n) := by
  intro s hs
  obtain ⟨s', hrun, hok, -, -⟩ := read_apply hs hi hn
  rw [hrun]
  exact ⟨fun _ _ h => (by cases h; exact hok), fun _ _ h => (by cases h)⟩

theorem safe_write {i : Nat} {pBuffer : List Byte} (hi : i < SEGGER_RTT_MAX_NUM_UP_BUFFERS)
    (hlen : pBuffer.length < 2 ^ 31) : Safe (SEGGER_RTT_Write i pBuffer) := by
  intro s hs
  obtain hwait | ⟨n, s', f, hrun, hsends, -, -⟩ := write_sends hs (hs.up_lt hi) hlen
  · rw [hwait]
    exact ⟨fun _ _ h => (by cases h), fun _ _ h => (by cases h; rfl)⟩
  · rw [hrun]
    exact ⟨fun _ _ h => (by cases h; exact hsends.ok), fun _ _ h => (by cases h)⟩

/-- the length of a string is that of the part before its first zero -/
theorem strlen_eq {s : List Byte} (h : 0 ∈ s) : ∃ n, _strlen s = some n ∧ n < s.length ∧
    s.take n = s.takeWhile (· ≠ 0) := by
  induction s with
  | nil => cases h
  | cons b s ih =>
    unfold _strlen
    by_cases hb : b = 0
    · exact ⟨0, if_pos hb, Nat.zero_lt_succ _, by simp [hb]⟩
    · obtain ⟨n, hn, hlt, htake⟩ := ih ((List.mem_cons.mp h).resolve_left (Ne.symm hb))
      refine ⟨n + 1, by rw [if_neg hb, hn]; rfl, Nat.succ_lt_succ hlt, ?_⟩
      rw [List.take_succ_cons, List.takeWhile_cons_of_pos (by simpa using hb), htake]

theorem safe_writeString {i : Nat} {s : Option (List Byte)} (hi : i < SEGGER_RTT_MAX_NUM_UP_BUFFERS)
    (hs : Ends s) : Safe (SEGGER_RTT_WriteString i s) := by
  cases s with
  | none => exact safe_write hi (by decide)
  | some mem =>
    obtain ⟨n, hn, hlt, -⟩ := strlen_eq hs.1
    unfold SEGGER_RTT_WriteString
    simp only [hn]
    apply safe_write hi
    rw [List.length_take]
    have hlen := hs.2
    omega

theorem safe_getKey : Safe SEGGER_RTT_GetKey := by
  refine Keeps.bind (safe_read (by decide) (by decide)) fun out => ?_
  split <;> exact Keeps.pure _

theorem safe_hasKey : Safe SEGGER_RTT_HasKey := by
  intro s hs
  obtain ⟨r, hr⟩ : ∃ r, s.cb.aDown[0]? = some r := ⟨_, List.getElem?_eq_getElem (hs.down_lt (by decide))⟩
  simp only [SEGGER_RTT_HasKey, hr]
  exact ⟨fun _ _ h => (by cases h; exact hs), fun _ _ h => (by cases h)⟩

theorem safe_hostReads {i ask : Nat} (hi : i < SEGGER_RTT_MAX_NUM_UP_BUFFERS) (hask : ask < 2 ^ 31) :
    Safe (hostReads i ask) := by
  intro s hs
  obtain ⟨r, hr⟩ : ∃ r, s.cb.aUp[i]? = some r := ⟨_, List.getElem?_eq_getElem (hs.up_lt hi)⟩
  obtain ⟨r', hread, hflow, hcfg⟩ := (hs.up i r hr).read hask
  have hok := hs.setUp (i := i) hflow (fun hi0 => by subst hi0; rw [hcfg.2.1]; exact hs.up0 r hr)
  rw [Function.update_eq_self] at hok
  simp only [hostReads, hr, hread]
  exact ⟨fun _ _ h => (by cases h; exact hok), fun _ _ h => (by cases h)⟩

theorem safe_hostWrites {i : Nat} {bs : List Byte} (hi : i < SEGGER_RTT_MAX_NUM_DOWN_BUFFERS)
    (hlen : bs.length < 2 ^ 31) : Safe (hostWrites i bs) := by
  intro s hs
  obtain ⟨r, hr⟩ : ∃ r, s.cb.aDown[i]? = some r := ⟨_, List.getElem?_eq_getElem (hs.down_lt hi)⟩
  have hask : ∀ ask ∈ [0, 0, 0], ask < 2 ^ 31 := by decide
  obtain hwait | ⟨w, f, hwrite, hflow, hcfg, -, -, -, hsum⟩ := (hs.down i r hr).write hlen hask
  · simp only [hostWrites, hr, hwait]
    exact ⟨fun _ _ h => (by cases h), fun _ _ h => (by cases h; rfl)⟩
  · have hnil : w.taken = [] := List.eq_nil_of_length_eq_zero (Nat.le_zero.mp hsum)
    rw [hnil, List.append_nil] at hflow
    have hok := hs.setDown (i := i) hflow (fun hi0 => by subst hi0; rw [hcfg.2.1]; exact hs.down0 r hr)
    rw [Function.update_eq_self i s.keys] at hok
    simp only [hostWrites, hr, hwrite]
    exact ⟨fun _ _ h => (by cases h; exact hok), fun _ _ h => (by cases h)⟩

theorem safe_waitKey {typed : List (List Byte)} (h : ∀ bs ∈ typed, bs.length < 2 ^ 31) :
    Safe (SEGGER_RTT_WaitKey typed) := by
  induction typed with
  | nil => exact Keeps.throw rfl
  | cons bs more ih =>
    obtain ⟨hhd, htl⟩ := List.forall_mem_cons.mp h
    refine Keeps.bind (safe_hostWrites (by decide) hhd) fun _ => Keeps.bind safe_getKey fun r => ?_
    split
    · exact ih htl
    · exact Keeps.pure _

/-- the descriptor after a configuration, and its stream -/
theorem Flow.config {r : RING_BUFFER} {sent got : List Byte} (h : Flow r sent got) {i : Nat} (sName : String)
    {pBuffer : List Byte} {BufferSize : Nat} (Flags : Nat)
    (hv : i > 0 → pBuffer.length = BufferSize ∧ 0 < BufferSize ∧ BufferSize < 2 ^ 31) (hr : i = 0 → r ≠ .zeroed) :
    Flow (r.config i sName pBuffer BufferSize Flags) (if i > 0 then [] else sent) (if i > 0 then [] else got) := by
  unfold RING_BUFFER.config
  by_cases hi : i > 0
  · obtain ⟨hlen, hpos, hsmall⟩ := hv hi
    rw [if_pos hi, if_pos hi, if_pos hi]
    refine Flow.up ⟨hlen, hsmall, Nat.le_refl 0, hpos, At.zero _, At.zero _, fun j _ hj => ?_, fun he => ?_⟩ rfl
      hpos hpos
    · exact absurd hj (Nat.not_lt_zero j)
    · have hz : 0 = BufferSize := he
      omega
  · rw [if_neg hi, if_neg hi, if_neg hi]
    cases h with
    | zeroed he => exact absurd he (hr (by omega))
    | up hinv hgot hwr hrd =>
      exact Flow.up ⟨hinv.size, hinv.small, hinv.le, hinv.fits, hinv.wr, hinv.rd, hinv.held, hinv.ahead⟩ hgot hwr hrd

theorem safe_configUp {i : Nat} {sName : String} {pBuffer : List Byte} {BufferSize Flags : Nat}
    (hv : i > 0 → pBuffer.length = BufferSize ∧ 0 < BufferSize ∧ BufferSize < 2 ^ 31) :
    Safe (SEGGER_RTT_ConfigUpBuffer i sName pBuffer BufferSize Flags) := by
  intro s hs
  unfold SEGGER_RTT_ConfigUpBuffer
  by_cases hi : i < s.cb.MaxNumUpBuffers
  · obtain ⟨r, hr⟩ : ∃ r, s.cb.aUp[i]? = some r := ⟨_, List.getElem?_eq_getElem (hs.ups ▸ hi)⟩
    have hne : i = 0 → r ≠ .zeroed := by
      rintro rfl rfl
      exact Nat.lt_irrefl 0 (hs.up0 _ hr)
    have hpos : i = 0 → 0 < (r.config i sName pBuffer BufferSize Flags).SizeOfBuffer := by
      rintro rfl
      exact hs.up0 r hr
    have hok := hs.setUp (i := i) ((hs.up i r hr).config sName Flags hv hne) hpos
    have hmod : s.cb.aUp.modify i (·.config i sName pBuffer BufferSize Flags) =
        s.cb.aUp.set i (r.config i sName pBuffer BufferSize Flags) := by
      rw [List.modify_eq_set_getElem?, hr]
      rfl
    simp only [if_pos hi, hmod]
    refine ⟨fun _ _ h => ?_, fun _ _ h => (by cases h)⟩
    cases h
    by_cases hi0 : i > 0
    · simp only [if_pos hi0] at hok ⊢
      exact hok
    · simp only [if_neg hi0, Function.update_eq_self] at hok ⊢
      exact hok
  · rw [if_neg hi]
    exact ⟨fun _ _ h => (by cases h; exact hs), fun _ _ h => (by cases h)⟩

theorem safe_configDown {i : Nat} {sName : String} {pBuffer : List Byte} {BufferSize Flags : Nat}
    (hv : i > 0 → pBuffer.length = BufferSize ∧ 0 < BufferSize ∧ BufferSize < 2 ^ 31) :
    Safe (SEGGER_RTT_ConfigDownBuffer i sName pBuffer BufferSize Flags) := by
  intro s hs
  unfold SEGGER_RTT_ConfigDownBuffer
  by_cases hi : i < s.cb.MaxNumDownBuffers
  · obtain ⟨r, hr⟩ : ∃ r, s.cb.aDown[i]? = some r := ⟨_, List.getElem?_eq_getElem (hs.downs ▸ hi)⟩
    have hne : i = 0 → r ≠ .zeroed := by
      rintro rfl rfl
      exact Nat.lt_irrefl 0 (hs.down0 _ hr)
    have hpos : i = 0 → 0 < (r.config i sName pBuffer BufferSize Flags).SizeOfBuffer := by
      rintro rfl
      exact hs.down0 r hr
    have hok := hs.setDown (i := i) ((hs.down i r hr).config sName Flags hv hne) hpos
    have hmod : s.cb.aDown.modify i (·.config i sName pBuffer BufferSize Flags) =
        s.cb.aDown.set i (r.config i sName pBuffer BufferSize Flags) := by
      rw [List.modify_eq_set_getElem?, hr]
      rfl
    simp only [if_pos hi, hmod]
    refine ⟨fun _ _ h => ?_, fun _ _ h => (by cases h)⟩
    cases h
    by_cases hi0 : i > 0
    · simp only [if_pos hi0] at hok ⊢
      exact hok
    · simp only [if_neg hi0, Function.update_eq_self] at hok ⊢
      exact hok
  · rw [if_neg hi]
    exact ⟨fun _ _ h => (by cases h; exact hs), fun _ _ h => (by cases h)⟩

theorem safe_setTerminal (TerminalId : Byte) : Safe (SEGGER_RTT_SetTerminal TerminalId) := by
  unfold SEGGER_RTT_SetTerminal
  split
  · exact Keeps.pure _
  · next c hc =>
    have hid : TerminalId < 16 := by
      by_contra hge
      rw [terminalChar_none.mpr hge] at hc
      cases hc
    refine Keeps.bind (fun s hs => ⟨fun _ _ h => ?_, fun _ _ h => (by cases h)⟩) fun _ =>
      Keeps.bind (safe_write (by decide) (by show 2 < 2 ^ 31; decide)) fun _ => Keeps.pure _
    cases h
    exact hs.setActive hid

theorem safe_terminalOut (TerminalId : Byte) {s : Option (List Byte)} (hs : Ends s) :
    Safe (SEGGER_RTT_TerminalOut TerminalId s) := by
  have htwo : ∀ a b : Byte, Safe (SEGGER_RTT_Write 0 [a, b]) := fun a b =>
    safe_write (by decide) (by show 2 < 2 ^ 31; decide)
  unfold SEGGER_RTT_TerminalOut
  split
  · exact Keeps.pure _
  · refine Keeps.bind (htwo _ _) fun _ => Keeps.bind (safe_writeString (by decide) hs) fun _ => ?_
    refine Keeps.bind (fun s hs => ⟨fun _ _ h => (by cases h; exact hs), fun _ _ h => (by cases h)⟩) fun t => ?_
    exact Keeps.bind (htwo _ _) fun _ => Keeps.pure _

theorem safe_ignore {α : Type} {m : Code α} (h : Safe m) : Safe (ignore m) :=
  Keeps.bind h fun _ => Keeps.pure _

/-- Every call keeps the buffers between calls, and none faults. -/
theorem safe_run {e : Event} (h : e.Valid) : Safe e.run := by
  cases e with
  | Read i n => exact safe_ignore (safe_read h.1 h.2)
  | Write i pBuffer => exact safe_ignore (safe_write h.1 h.2)
  | WriteString i s => exact safe_ignore (safe_writeString h.1 h.2)
  | GetKey => exact safe_ignore safe_getKey
  | HasKey => exact safe_ignore safe_hasKey
  | WaitKey typed => exact safe_ignore (safe_waitKey h)
  | ConfigUpBuffer i sName pBuffer BufferSize Flags => exact safe_ignore (safe_configUp h)
  | ConfigDownBuffer i sName pBuffer BufferSize Flags => exact safe_ignore (safe_configDown h)
  | SetTerminal id => exact safe_setTerminal id
  | TerminalOut id s => exact safe_ignore (safe_terminalOut id h)
  | takes i ask => exact safe_hostReads h.1 h.2
  | types i bs => exact safe_hostWrites h.1 h.2

/-! ## runs -/

theorem ok_run {host : List Nat} (hask : ∀ ask ∈ host, ask < 2 ^ 31) {es : List Event}
    (hv : ∀ e ∈ es, e.Valid) {s : Target} (hr : exec Target.step (Target.init host) es = some s) : s.Ok := by
  refine invariant_of_mem (G := Event.Valid) (fun t e t' hok hvalid hs => ?_) hv (Target.ok_init hask) hr
  unfold Target.step at hs
  cases hrun : e.run t with
  | error err t2 => rw [hrun] at hs; cases hs
  | ok a t2 =>
    rw [hrun] at hs
    cases hs
    exact (safe_run hvalid t hok).1 a t' hrun

/-- In every run of calls and moves of the host: what the host got over an up-buffer since it was set up is
what was sent there, in order and up to some byte, and so with what was typed and the keys; and no call
with arguments that the code expects faults. -/
theorem calls_ok {host : List Nat} (hask : ∀ ask ∈ host, ask < 2 ^ 31) {es : List Event}
    (hv : ∀ e ∈ es, e.Valid) {s : Target} (hr : exec Target.step (Target.init host) es = some s) :
    (∀ i < SEGGER_RTT_MAX_NUM_UP_BUFFERS, s.got i <+: s.sent i) ∧
      (∀ i < SEGGER_RTT_MAX_NUM_DOWN_BUFFERS, s.keys i <+: s.typed i) ∧
      ∀ (e : Event) s', e.Valid → e.run s ≠ .error .fault s' := by
  have hok := ok_run hask hv hr
  refine ⟨fun i hi => ?_, fun i hi => ?_, fun e s' hvalid he => ?_⟩
  · exact (hok.up i _ (List.getElem?_eq_getElem (hok.up_lt hi))).prefix_sent
  · exact (hok.down i _ (List.getElem?_eq_getElem (hok.down_lt hi))).prefix_sent
  · have hwait : Stop.fault = Stop.waiting := (safe_run hvalid s hok).2 _ _ he
    cases hwait

/-- the host types two keys, a string is sent, the host reads a byte of it, and a key is read -/
def someCalls : List Event :=
  [.types 0 [104, 107], .WriteString 0 (some [105, 106, 0]), .takes 0 1, .GetKey]

theorem someCalls_valid : ∀ e ∈ someCalls, e.Valid := by decide

set_option maxRecDepth 100000 in
theorem calls_ok_some : ∃ s, exec Target.step (Target.init [0, 0, 0]) someCalls = some s ∧
    s.got 0 = [105] ∧ s.sent 0 = [105, 106] ∧ s.got 0 <+: s.sent 0 :=
  ⟨_, rfl, rfl, rfl, (@calls_ok [0, 0, 0] (by decide) someCalls someCalls_valid _ rfl).1 0 (by decide)⟩

/-! ## calls that may block -/

/-- In every run: a call that may block returns once the host has asked as often as there are bytes to store;
when it returns it has sent them all, and the host has taken what did not fit before. -/
theorem blocking_write {host : List Nat} (hask : ∀ ask ∈ host, ask < 2 ^ 31) {es : List Event}
    (hv : ∀ e ∈ es, e.Valid) {s : Target} (hr : exec Target.step (Target.init host) es = some s) {i : Nat}
    {r : RING_BUFFER} (hup : s.cb.aUp[i]? = some r) (hmode : r.mode = SEGGER_RTT_MODE_BLOCK_IF_FIFO_FULL)
    (hsize : 2 ≤ r.SizeOfBuffer) {data : List Byte} (hlen : data.length < 2 ^ 31) :
    (data.length ≤ s.host.countP (0 < ·) → ∃ n s', SEGGER_RTT_Write i data s = .ok n s') ∧
      ∀ n s', SEGGER_RTT_Write i data s = .ok n s' →
        n = data.length ∧ s'.sent i = s.sent i ++ data ∧
          ∃ g, s'.got i = s.got i ++ g ∧ data.length ≤ s.free i + g.length := by
  have hok := ok_run hask hv hr
  obtain ⟨hinv, hwr⟩ := (hok.up i r hup).inv (by omega)
  refine ⟨fun hmoves => ?_, fun n s' hrun => ?_⟩
  · obtain ⟨w, hw⟩ := blocking_returns hinv hwr hlen hok.host hmode hsize hmoves
    exact ⟨w.NumBytesWritten, _, by simp only [SEGGER_RTT_Write, hup, hw]; rfl⟩
  · obtain hwait | ⟨w, hw, hnum, hst, -⟩ := hinv.write hwr hlen hok.host
    · simp only [SEGGER_RTT_Write, hup, hwait] at hrun
      cases hrun
    · simp only [SEGGER_RTT_Write, hup, hw] at hrun
      cases hrun
      have hall : w.NumBytesWritten = data.length := by
        rw [hnum]
        exact if_pos hmode
      rw [hall, List.take_length] at hst
      refine ⟨hall, ?_, w.taken, extend_self _ _ _, ?_⟩
      · show extend s.sent i (data.take w.NumBytesWritten) i = _
        rw [hall, List.take_length, extend_self]
      · unfold Target.free
        rw [hup]
        exact blocking_needs hinv hst

/-- a buffer of four bytes is set up on channel 1, which may block -/
def blockingLog : List Event := [.ConfigUpBuffer 1 "log" [0, 0, 0, 0] 4 SEGGER_RTT_MODE_BLOCK_IF_FIFO_FULL]

theorem blocking_write_some : ∃ s, exec Target.step (Target.init [0, 2, 2, 2, 2]) blockingLog = some s ∧
    ∃ n s', SEGGER_RTT_Write 1 [1, 2, 3, 4] s = .ok n s' :=
  ⟨_, rfl, (@blocking_write [0, 2, 2, 2, 2] (by decide) blockingLog (by decide) _ rfl 1 _ rfl rfl (by decide)
    [1, 2, 3, 4] (by decide)).1 (by decide)⟩

/-! ## keys -/

/-- the key that is next, if the host has typed one that has not been read -/
def Target.nextKey (s : Target) : Option Byte := (s.typed 0)[(s.keys 0).length]?

theorem drop_take_one {α : Type} (l : List α) (n : Nat) : (l.drop n).take 1 = l[n]?.toList := by
  rw [List.take_one, List.head?_drop]

/-- one call of `SEGGER_RTT_GetKey` between calls -/
theorem getKey_apply {s : Target} (h : s.Ok) : ∃ s', SEGGER_RTT_GetKey s =
      .ok (s.nextKey.elim (-1) fun c => c.toNat) s' ∧ s'.Ok ∧
      s'.typed = s.typed ∧ s'.keys = extend s.keys 0 s.nextKey.toList := by
  obtain ⟨s', hrun, hok, htyped, hkeys⟩ := read_apply h (i := 0) (n := 1) (by decide) (by decide)
  rw [drop_take_one] at hrun hkeys
  refine ⟨s', ?_, hok, htyped, hkeys⟩
  unfold SEGGER_RTT_GetKey
  rw [bind_ok hrun]
  unfold Target.nextKey
  cases hk : (s.typed 0)[(s.keys 0).length]? with
  | none => rfl
  | some c => rfl

/-- the offsets are the same if and only if all has been read -/
theorem Flow.drained_iff {r : RING_BUFFER} {sent got : List Byte} (h : Flow r sent got) :
    r.RdOff = r.WrOff ↔ sent.length ≤ got.length := by
  cases h with
  | zeroed he => exact ⟨fun _ => Nat.le_refl _, fun _ => by rw [he]; rfl⟩
  | up hinv hgot hwr hrd =>
    have hahead := ahead_eq hinv.rd hinv.wr hinv.le hinv.fits hinv.ahead
    have hle := hinv.le
    unfold Cells.ahead at hahead
    split at hahead <;> omega

theorem hasKey_apply {s : Target} (h : s.Ok) :
    SEGGER_RTT_HasKey s = .ok (if s.nextKey.isSome then 1 else 0) s := by
  obtain ⟨r, hr⟩ : ∃ r, s.cb.aDown[0]? = some r := ⟨_, List.getElem?_eq_getElem (h.down_lt (by decide))⟩
  have hsome : s.nextKey.isSome ↔ r.RdOff ≠ r.WrOff := by
    unfold Target.nextKey
    rw [Option.isSome_iff_ne_none, ne_eq, List.getElem?_eq_none_iff, ne_eq, (h.down 0 r hr).drained_iff]
  simp only [SEGGER_RTT_HasKey, hr, ← hsome]

/-- In every run: `SEGGER_RTT_HasKey` says whether there is a byte that the host has typed and no call has
returned; `SEGGER_RTT_GetKey` returns that byte, and -1 if there is none. -/
theorem getKey_next {host : List Nat} (hask : ∀ ask ∈ host, ask < 2 ^ 31) {es : List Event}
    (hv : ∀ e ∈ es, e.Valid) {s : Target} (hr : exec Target.step (Target.init host) es = some s) :
    SEGGER_RTT_HasKey s = .ok (if s.nextKey.isSome then 1 else 0) s ∧
      ∃ s', SEGGER_RTT_GetKey s = .ok (s.nextKey.elim (-1) fun c => c.toNat) s' ∧
        s'.typed 0 = s.typed 0 ∧ s'.keys 0 = s.keys 0 ++ s.nextKey.toList := by
  have hok := ok_run hask hv hr
  obtain ⟨s', hrun, -, htyped, hkeys⟩ := getKey_apply hok
  exact ⟨hasKey_apply hok, s', hrun, by rw [htyped], by rw [hkeys, extend_self]⟩

set_option maxRecDepth 100000 in
theorem getKey_next_some : ∃ s, exec Target.step (Target.init [0, 0, 0]) someCalls = some s ∧
    s.nextKey = some 107 ∧ SEGGER_RTT_HasKey s = .ok 1 s :=
  ⟨_, rfl, rfl, (@getKey_next [0, 0, 0] (by decide) someCalls someCalls_valid _ rfl).1⟩

end Rtt
end Pharoah
