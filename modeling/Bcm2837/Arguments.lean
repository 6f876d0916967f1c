import Bcm2837.TransportCalls

/-!
# Refused arguments

A refusal should mean that nothing happened. It does on every implementation and for
every operation, except that the BSC transports check the two halves of a compound
transfer one after the other: when only the read half is bad, the write half has been
on the bus by the time the call answers.
-/
namespace Bcm2837

variable {δ : Type} (d : Device δ) (w : World δ)

/-- The call answers `badArg` exactly for bad arguments, and then nothing has happened. -/
structure Honest (t : I2cTransport) (c : Call) : Prop where
  result : ((c.exec t).run (world d) w).1 = .badArg ↔ c.bad = true
  untouched : c.bad = true →
    Untouched w ((c.exec t).history (world d) w) ((c.exec t).run (world d) w).2

/-! ## Refusals and acceptances of any program -/

theorem untouched_pure (r : I2cResult) :
    Untouched w ((pure r : TransportM I2cResult).history (world d) w)
      ((pure r : TransportM I2cResult).run (world d) w).2 :=
  ⟨fun _ he => absurd he List.not_mem_nil, fun _ _ => rfl⟩

theorem untouched_localArray (bs : List Byte) (hbs : bs.length ≤ 2) (r : I2cResult) :
    Untouched w ((localArray bs >>= fun _ => pure r).history (world d) w)
      ((localArray bs >>= fun _ => pure r).run (world d) w).2 := by
  refine ⟨fun e he => ?_, fun p hp => ?_⟩
  · rw [List.mem_singleton.mp he]
    trivial
  · exact place_outside w.mem bs (p := w.frame + 1) (q := p) (by omega)

section Checked

variable {d w} {t : I2cTransport} {c : Call} {bad : Bool}

/-- A call whose program refuses at once or never answers `badArg`. -/
theorem honest_of_direct (hbad : c.bad = bad)
    (hrefused : bad = true → c.exec t = pure .badArg)
    (hresult : bad = false → ((c.exec t).run (world d) w).1 ≠ .badArg) : Honest d w t c := by
  cases bad with
  | true =>
    refine ⟨iff_of_true ?_ hbad, fun _ => ?_⟩
    · rw [hrefused rfl]
      rfl
    · rw [hrefused rfl]
      exact untouched_pure d w _
  | false => exact ⟨iff_of_false (hresult rfl) (by simp [hbad]), fun h => by simp [hbad] at h⟩

/-- The same for a call that goes on with the address of a local variable. -/
theorem honest_of_local (hbad : c.bad = bad) {bs : List Byte} (hbs : bs.length ≤ 2)
    {q : Ptr → TransportM I2cResult}
    (hexec : c.exec t = localArray bs >>= q)
    (hrefused : bad = true → q (w.frame + 1) = pure .badArg)
    (hresult : bad = false → ∀ w', ((q (w.frame + 1)).run (world d) w').1 ≠ .badArg) :
    Honest d w t c := by
  cases bad with
  | true =>
    have huntouched := untouched_localArray d w bs hbs .badArg
    refine ⟨iff_of_true ?_ hbad, fun _ => ?_⟩
    · rw [hexec, Prog.run_bind, run_localArray, hrefused rfl]
      rfl
    · rw [hexec, Prog.run_bind, Prog.history_bind, run_localArray, hrefused rfl]
      exact huntouched
  | false =>
    refine ⟨iff_of_false ?_ (by simp [hbad]), fun h => by simp [hbad] at h⟩
    rw [hexec, Prog.run_bind]
    exact hresult rfl _

end Checked

theorem not_untouched {H : List (Cmd × World δ)} {w' : World δ}
    (h : ∃ e ∈ H, ∃ a, e.1 = .bsc a) : ¬ Untouched w H w' := by
  rintro ⟨hcommands, -⟩
  obtain ⟨e, he, a, ha⟩ := h
  have hc := hcommands e he
  rw [ha] at hc
  exact hc

/-! ## The checks of the operations -/

namespace Call

theorem bad_write (addr : Byte) (buf : Ptr) (len : ℕ) :
    (write addr buf len).bad = badArgs addr buf len := by
  simp [bad, buffers, lengths, Call.addr, badArgs]
  rfl

theorem bad_read (addr : Byte) (buf : Ptr) (len : ℕ) :
    (read addr buf len).bad = badArgs addr buf len := by
  simp [bad, buffers, lengths, Call.addr, badArgs]
  rfl

theorem bad_writeRead (addr : Byte) (wbuf : Ptr) (wlen : ℕ) (rbuf : Ptr) (rlen : ℕ) :
    (writeRead addr wbuf wlen rbuf rlen).bad =
      (badArgs addr wbuf wlen || badArgs addr rbuf rlen) := by
  rw [Bool.eq_iff_iff]
  simp only [bad, buffers, lengths, Call.addr, badArgs, List.any_cons, List.any_nil, Bool.or_false,
    Bool.or_eq_true]
  tauto

theorem bad_readReg (addr reg : Byte) (buf : Ptr) (n : ℕ) :
    (readReg addr reg buf n).bad = badArgs addr buf n := by
  simp [bad, buffers, lengths, Call.addr, badArgs]
  rfl

theorem bad_writeReg (addr reg value : Byte) :
    (writeReg addr reg value).bad = decide (ADDR_MAX < addr) := by
  simp [bad, buffers, lengths, Call.addr]
  rfl

end Call

/-- A local variable passes the check of a buffer. -/
theorem badArgs_local (addr : Byte) (p n : ℕ) :
    badArgs addr (p + 1) (n + 1) = decide (ADDR_MAX < addr) := by
  simp [badArgs, nullptr]

/-- A local variable in front adds nothing to a check of the address. -/
theorem badArgs_local_or (addr : Byte) (p : ℕ) (buf : Ptr) (n : ℕ) :
    (badArgs addr (p + 1) 1 || badArgs addr buf n) = badArgs addr buf n := by
  rw [badArgs_local addr p 0, badArgs]
  cases decide (ADDR_MAX < addr) <;> simp

section Bsc

variable {d} {t : I2cTransport} (hT : Halves d t) {addr : Byte} {wbuf : Ptr} {wlen : ℕ}
  {rbuf : Ptr} {rlen : ℕ}
include hT

theorem Halves.writeRead_refused (hw : badArgs addr wbuf wlen = true) :
    t.writeRead addr wbuf wlen rbuf rlen = pure .badArg := by
  rw [hT.writeRead, (hT.write addr wbuf wlen).refused hw]
  rfl

theorem Halves.writeRead_touches (hw : badArgs addr wbuf wlen = false) (w : World δ) :
    ∃ e ∈ (t.writeRead addr wbuf wlen rbuf rlen).history (world d) w, ∃ a, e.1 = .bsc a := by
  obtain ⟨e, he, ha⟩ := (hT.write addr wbuf wlen).touches hw w
  rw [hT.writeRead, Prog.history_bind]
  exact ⟨e, List.mem_append_left _ he, ha⟩

theorem Halves.writeRead_result (hw : badArgs addr wbuf wlen = false)
    (hr : badArgs addr rbuf rlen = false) (w : World δ) :
    ((t.writeRead addr wbuf wlen rbuf rlen).run (world d) w).1 ≠ .badArg := by
  have hwrite := (hT.write addr wbuf wlen).result hw w
  rw [hT.writeRead, Prog.run_bind]
  split_ifs with hok
  · exact hwrite
  · exact (hT.read addr rbuf rlen).result hr _

theorem Halves.honest_writeRead (w : World δ) :
    Honest d w t (.writeRead addr wbuf wlen rbuf rlen) ↔
      (Call.writeRead addr wbuf wlen rbuf rlen).splits = false := by
  have hbad := Call.bad_writeRead addr wbuf wlen rbuf rlen
  rw [Call.splits]
  cases hw : badArgs addr wbuf wlen with
  | true =>
    rw [hw, Bool.true_or] at hbad
    exact iff_of_true (honest_of_direct hbad (fun _ => hT.writeRead_refused hw) nofun) rfl
  | false =>
    cases hr : badArgs addr rbuf rlen with
    | true =>
      rw [hw, hr] at hbad
      exact iff_of_false (fun h => not_untouched w (hT.writeRead_touches hw w) (h.untouched hbad))
        nofun
    | false =>
      rw [hw, hr] at hbad
      exact iff_of_true (honest_of_direct hbad nofun fun _ => hT.writeRead_result hw hr w) rfl

theorem Halves.honest_readReg (reg : Byte) (buf : Ptr) (n : ℕ) (w : World δ) :
    Honest d w t (.readReg addr reg buf n) ↔ (Call.readReg addr reg buf n).splits = false := by
  have hbad := Call.bad_readReg addr reg buf n
  have hlocal : badArgs addr (w.frame + 1) 1 = decide (ADDR_MAX < addr) :=
    badArgs_local addr w.frame 0
  have hexec : (Call.readReg addr reg buf n).exec t =
      localArray [reg] >>= fun p => t.writeRead addr p 1 buf n := rfl
  rw [Call.splits]
  cases hw : decide (ADDR_MAX < addr) with
  | true =>
    rw [hw] at hlocal
    rw [badArgs, hw, Bool.or_true] at hbad
    exact iff_of_true (honest_of_local hbad (by simp) hexec
      (fun _ => hT.writeRead_refused hlocal) nofun) rfl
  | false =>
    rw [hw] at hlocal
    cases hr : badArgs addr buf n with
    | true =>
      refine iff_of_false (fun h => ?_) nofun
      obtain ⟨e, he, ha⟩ := hT.writeRead_touches hlocal ((localArray [reg]).run (world d) w).2
      have huntouched := h.untouched (hbad.trans hr)
      rw [hexec, Prog.history_bind] at huntouched
      exact not_untouched w ⟨e, List.mem_append_right _ he, ha⟩ huntouched
    | false =>
      exact iff_of_true (honest_of_local (hbad.trans hr) (by simp) hexec nofun
        fun _ w' => hT.writeRead_result hlocal hr w') rfl

/-- On a BSC transport a call is honest unless it splits. -/
theorem Halves.honest_iff (c : Call) (w : World δ) :
    Honest d w t c ↔ c.splits = false := by
  cases c with
  | write addr buf len =>
    have hhalf := hT.write addr buf len
    exact iff_of_true (honest_of_direct (Call.bad_write addr buf len) hhalf.refused
      fun h => hhalf.result h w) rfl
  | read addr buf len =>
    have hhalf := hT.read addr buf len
    exact iff_of_true (honest_of_direct (Call.bad_read addr buf len) hhalf.refused
      fun h => hhalf.result h w) rfl
  | writeRead addr wbuf wlen rbuf rlen => exact hT.honest_writeRead w
  | readReg addr reg buf n => exact hT.honest_readReg reg buf n w
  | writeReg addr reg value =>
    have hhalf := hT.write addr (w.frame + 1) 2
    rw [badArgs_local addr w.frame 1] at hhalf
    exact iff_of_true (honest_of_local (Call.bad_writeReg addr reg value) (by simp) rfl
      hhalf.refused hhalf.result) rfl

end Bsc

/-! ## The Linux transport -/

theorem yields_transact (msgs : List I2cMsg) : (Dev.transact msgs).Yields (· ≠ .badArg) := by
  refine (Prog.yields_true _).bind fun reply _ => ?_
  cases reply with
  | error e =>
    by_cases he : e = .enxio ∨ e = .eremoteio
    · simp only [if_pos he]
      exact nofun
    · simp only [if_neg he]
      exact nofun
  | ok bs => exact nofun

namespace Dev

theorem kAddrMax_eq : kAddrMax = ADDR_MAX := rfl

theorem write_bad (fd : ℕ) (addr : Byte) (buf : Ptr) (len : ℕ) :
    write fd addr buf len = if badArgs addr buf len then pure .badArg
      else transact [⟨addr.setWidth 16, false, BitVec.ofNat 16 len, buf⟩] := by
  have hfd : ¬ (fd : ℤ) < 0 := by omega
  have hiff : (buf = nullptr ∨ len = 0 ∨ kAddrMax < addr) ↔ badArgs addr buf len = true := by
    simp [badArgs, kAddrMax_eq, or_assoc]
  rw [write]
  simp only [hiff, hfd, if_false]

theorem read_bad (fd : ℕ) (addr : Byte) (buf : Ptr) (len : ℕ) :
    read fd addr buf len = if badArgs addr buf len then pure .badArg
      else transact [⟨addr.setWidth 16, true, BitVec.ofNat 16 len, buf⟩] := by
  have hfd : ¬ (fd : ℤ) < 0 := by omega
  have hiff : (buf = nullptr ∨ len = 0 ∨ kAddrMax < addr) ↔ badArgs addr buf len = true := by
    simp [badArgs, kAddrMax_eq, or_assoc]
  rw [read]
  simp only [hiff, hfd, if_false]

/-- The compound transfer is checked as a whole. -/
theorem writeRead_bad (fd : ℕ) (addr : Byte) (wbuf : Ptr) (wlen : ℕ) (rbuf : Ptr) (rlen : ℕ) :
    writeRead fd addr wbuf wlen rbuf rlen =
      if badArgs addr wbuf wlen || badArgs addr rbuf rlen then pure .badArg
      else transact [⟨addr.setWidth 16, false, BitVec.ofNat 16 wlen, wbuf⟩,
        ⟨addr.setWidth 16, true, BitVec.ofNat 16 rlen, rbuf⟩] := by
  have hfd : ¬ (fd : ℤ) < 0 := by omega
  have hiff : (wbuf = nullptr ∨ rbuf = nullptr ∨ wlen = 0 ∨ rlen = 0 ∨ kAddrMax < addr) ↔
      (badArgs addr wbuf wlen || badArgs addr rbuf rlen) = true := by
    simp only [badArgs, kAddrMax_eq, Bool.or_eq_true, beq_iff_eq, decide_eq_true_eq]
    tauto
  rw [writeRead]
  simp only [hiff, hfd, if_false]

end Dev

theorem linuxDev_honest (fd : ℕ) (c : Call) : Honest d w (linuxDev fd) c := by
  -- every operation checks its arguments, then hands its messages over
  have hchecked : ∀ {p : TransportM I2cResult} {bad : Bool} {msgs : List I2cMsg},
      p = (if bad then pure .badArg else Dev.transact msgs) →
      (bad = true → p = pure .badArg) ∧
        (bad = false → ∀ w', (p.run (world d) w').1 ≠ .badArg) := by
    rintro p bad msgs rfl
    refine ⟨fun h => by rw [if_pos h], fun h w' => ?_⟩
    rw [h]
    exact (yields_transact msgs).run (world d) w'
  cases c with
  | write addr buf len =>
    obtain ⟨hrefused, hresult⟩ := hchecked (Dev.write_bad fd addr buf len)
    exact honest_of_direct (Call.bad_write addr buf len) hrefused fun h => hresult h w
  | read addr buf len =>
    obtain ⟨hrefused, hresult⟩ := hchecked (Dev.read_bad fd addr buf len)
    exact honest_of_direct (Call.bad_read addr buf len) hrefused fun h => hresult h w
  | writeRead addr wbuf wlen rbuf rlen =>
    obtain ⟨hrefused, hresult⟩ := hchecked (Dev.writeRead_bad fd addr wbuf wlen rbuf rlen)
    exact honest_of_direct (Call.bad_writeRead addr wbuf wlen rbuf rlen) hrefused
      fun h => hresult h w
  | readReg addr reg buf n =>
    have hbad := Dev.writeRead_bad fd addr (w.frame + 1) 1 buf n
    rw [badArgs_local_or] at hbad
    obtain ⟨hrefused, hresult⟩ := hchecked hbad
    exact honest_of_local (Call.bad_readReg addr reg buf n) (by simp) rfl hrefused hresult
  | writeReg addr reg value =>
    have hbad := Dev.write_bad fd addr (w.frame + 1) 2
    rw [badArgs_local addr w.frame 1] at hbad
    obtain ⟨hrefused, hresult⟩ := hchecked hbad
    exact honest_of_local (Call.bad_writeReg addr reg value) (by simp) rfl hrefused hresult

/-- On every implementation a call is honest, except on the BSC transports when its
write half passes the check and its read half does not. -/
theorem honest_iff_not_splits (i : Implementation) (c : Call) :
    Honest d w i.transport c ↔ ¬ (i.isBsc = true ∧ c.splits = true) := by
  cases hi : i.isBsc with
  | true =>
    rw [(halves_of_isBsc d i hi).honest_iff c w]
    simp
  | false =>
    cases i with
    | linuxDev fd => exact iff_of_true (linuxDev_honest d w fd c) (by simp)
    | _ => cases hi

/-- A compound transfer with a null read buffer has been on the bus before it is
refused. -/
theorem split_call_touches :
    ¬ Honest Device.plain (World.powerOn (fun _ => 0) S_DONE) (polled 8)
      (.writeRead 0x10 4 1 0 1) := by
  intro h
  exact (h.untouched rfl).commands (.bsc (.load .C), World.powerOn (fun _ => 0) S_DONE)
    List.mem_cons_self

end Bcm2837
