import Bcm2837.Arguments

/-!
# Truncated lengths

The controller counts bytes in 16 bits and so does the kernel's message. None of the
transports checks that a length fits: what is handed over is the length modulo 65536,
so a length is handed over faithfully exactly when it fits or the call is refused for
another reason.
-/
namespace Bcm2837

variable {δ : Type} (d : Device δ) (w : World δ)

/-- A leg of a call: a program that checks its arguments at once, and the lengths of the
phases it then goes through. -/
structure Leg where
  program : TransportM I2cResult
  lengths : List ℕ

/-- The halves of a call on a BSC transport, which checks each of them by itself. -/
def Call.halves (t : I2cTransport) : Call → List Leg
  | write addr buf len => [⟨t.write addr buf len, [len]⟩]
  | read addr buf len => [⟨t.read addr buf len, [len]⟩]
  | writeRead addr wbuf wlen rbuf rlen =>
    [⟨t.write addr wbuf wlen, [wlen]⟩, ⟨t.read addr rbuf rlen, [rlen]⟩]
  | readReg addr reg buf n =>
    [⟨localArray [reg] >>= fun p => t.write addr p 1, [1]⟩, ⟨t.read addr buf n, [n]⟩]
  | writeReg addr reg value => [⟨localArray [reg, value] >>= fun p => t.write addr p 2, [2]⟩]

/-- The legs of a call; a descriptor's messages go to the kernel as one. -/
def Implementation.legs (i : Implementation) (c : Call) : List Leg :=
  if i.isBsc then c.halves i.transport else [⟨c.exec i.transport, c.lengths⟩]

/-- The requested lengths of the phases that get past their check: a leg that is not
refused goes through all its phases, and the next one follows when it answers `ok`. -/
def startedLengths : List Leg → World δ → List ℕ
  | [], _ => []
  | leg :: legs, w =>
    let (r, w') := leg.program.run (world d) w
    if r = .badArg then []
    else leg.lengths ++ if r = .ok then startedLengths legs w' else []

/-- No length is cut: every phase that gets past its check hands over exactly its length,
and a length that does not fit is refused before anything is touched. -/
structure NotTruncated (p : TransportM I2cResult) (legs : List Leg) (lengths : List ℕ) :
    Prop where
  faithful : handed (p.history (world d) w) = startedLengths d legs w
  refused : (∃ n ∈ lengths, 65535 < n) →
    (p.run (world d) w).1 = .badArg ∧
      Untouched w (p.history (world d) w) (p.run (world d) w).2

/-- A program that either refuses at once or hands over lengths cut to 16 bits. -/
structure Cuts (p : TransportM I2cResult) (refuses : Bool) (legs : List Leg)
    (lengths : List ℕ) : Prop where
  requested : legs.flatMap (·.lengths) = lengths
  refused : refuses = true → p = pure .badArg
  counts : ∀ w, handed (p.history (world d) w) = (startedLengths d legs w).map (· % 65536)
  accepted : refuses = false → ∀ w, (p.run (world d) w).1 ≠ .badArg ∨
    ∃ e ∈ p.history (world d) w, ∃ a, e.1 = .bsc a

/-! ## The lengths of a call -/

theorem startedLengths_cons (leg : Leg) (legs : List Leg) :
    startedLengths d (leg :: legs) w =
      if (leg.program.run (world d) w).1 = .badArg then []
      else leg.lengths ++ if (leg.program.run (world d) w).1 = .ok then
        startedLengths d legs (leg.program.run (world d) w).2 else [] := rfl

theorem startedLengths_single (leg : Leg) :
    startedLengths d [leg] w =
      if (leg.program.run (world d) w).1 = .badArg then [] else leg.lengths := by
  rw [startedLengths_cons]
  split_ifs
  · rfl
  · exact List.append_nil _
  · exact List.append_nil _

/-- Only requested lengths are started. -/
theorem startedLengths_subset (legs : List Leg) :
    startedLengths d legs w ⊆ legs.flatMap (·.lengths) := by
  induction legs generalizing w with
  | nil => exact List.Subset.refl _
  | cons leg legs ih =>
    rw [startedLengths_cons, List.flatMap_cons]
    split_ifs
    · exact List.nil_subset _
    · exact List.append_subset.mpr ⟨List.subset_append_left _ _,
        fun n hn => List.mem_append_right _ (ih _ hn)⟩
    · rw [List.append_nil]
      exact List.subset_append_left _ _

/-- A local array in front of the first leg, whose place is known. -/
theorem startedLengths_local (bs : List Byte) (q : Ptr → TransportM I2cResult)
    (lengths : List ℕ) (legs : List Leg) :
    startedLengths d (⟨localArray bs >>= q, lengths⟩ :: legs) w =
      startedLengths d (⟨q (w.frame + 1), lengths⟩ :: legs)
        ((localArray bs).run (world d) w).2 := by
  rw [startedLengths_cons, startedLengths_cons, Prog.run_bind]
  rfl

theorem map_mod_of_fits {lengths : List ℕ} (h : ∀ n ∈ lengths, n ≤ 65535) :
    lengths.map (· % 65536) = lengths := by
  refine (List.map_congr_left fun n hn => ?_).trans (List.map_id _)
  have hle := h n hn
  rw [id_eq]
  omega

theorem Cuts.startedLengths_refused {p : TransportM I2cResult} {refuses : Bool} {legs : List Leg}
    {lengths : List ℕ} (h : Cuts d p refuses legs lengths) (hr : refuses = true) (w : World δ) :
    startedLengths d legs w = [] := by
  have hcounts := h.counts w
  rw [h.refused hr] at hcounts
  exact List.map_eq_nil_iff.mp hcounts.symm

/-- Whether a call cuts a length is settled by what it hands over from where it starts. -/
theorem notTruncated_iff_of_counts {p : TransportM I2cResult} {refuses : Bool} {legs : List Leg}
    {lengths : List ℕ} (hsubset : startedLengths d legs w ⊆ lengths)
    (hcounts : handed (p.history (world d) w) = (startedLengths d legs w).map (· % 65536))
    (hrefused : refuses = true → startedLengths d legs w = [] ∧
      (p.run (world d) w).1 = .badArg ∧
        Untouched w (p.history (world d) w) (p.run (world d) w).2)
    (haccepted : refuses = false → (p.run (world d) w).1 ≠ .badArg ∨
      ∃ e ∈ p.history (world d) w, ∃ a, e.1 = .bsc a) :
    NotTruncated d w p legs lengths ↔ refuses = true ∨ ∀ n ∈ lengths, n ≤ 65535 := by
  cases hr : refuses with
  | true =>
    obtain ⟨hstarted, hbad⟩ := hrefused hr
    refine iff_of_true ⟨?_, fun _ => hbad⟩ (.inl rfl)
    rw [hcounts, hstarted]
    rfl
  | false =>
    constructor
    · intro ht
      by_contra hno
      simp only [Bool.false_eq_true, false_or, not_forall, not_le, exists_prop] at hno
      obtain ⟨hresult, huntouched⟩ := ht.refused hno
      rcases haccepted hr with hne | htouch
      · exact hne hresult
      · exact not_untouched w htouch huntouched
    · rintro (hf | hfits)
      · cases hf
      refine ⟨?_, fun ⟨n, hn, hlt⟩ => absurd (hfits n hn) (by omega)⟩
      rw [hcounts]
      exact map_mod_of_fits fun n hn => hfits n (hsubset hn)

theorem Cuts.notTruncated_iff {p : TransportM I2cResult} {refuses : Bool} {legs : List Leg}
    {lengths : List ℕ} (h : Cuts d p refuses legs lengths) :
    NotTruncated d w p legs lengths ↔ refuses = true ∨ ∀ n ∈ lengths, n ≤ 65535 := by
  have hsubset : startedLengths d legs w ⊆ lengths := h.requested ▸ startedLengths_subset d w legs
  refine notTruncated_iff_of_counts d w hsubset (h.counts w) (fun hr => ?_) (h.accepted · w)
  refine ⟨h.startedLengths_refused d hr w, ?_⟩
  rw [h.refused hr]
  exact ⟨rfl, untouched_pure d w _⟩

/-- The same with a local array in front, whose place is known. -/
theorem Cuts.notTruncated_local {p q : Ptr → TransportM I2cResult} {refuses : Bool}
    {legs : List Leg} {asked lengths : List ℕ} (bs : List Byte) (hbs : bs.length ≤ 2)
    (h : Cuts d (p (w.frame + 1)) refuses (⟨q (w.frame + 1), asked⟩ :: legs) lengths) :
    NotTruncated d w (localArray bs >>= p) (⟨localArray bs >>= q, asked⟩ :: legs) lengths ↔
      refuses = true ∨ ∀ n ∈ lengths, n ≤ 65535 := by
  have hlog : handed ((localArray bs).history (world d) w) = [] := rfl
  have hrun : (localArray bs >>= p).run (world d) w =
      (p (w.frame + 1)).run (world d) ((localArray bs).run (world d) w).2 := by
    rw [Prog.run_bind]
    rfl
  have hhist : (localArray bs >>= p).history (world d) w =
      (localArray bs).history (world d) w ++
        (p (w.frame + 1)).history (world d) ((localArray bs).run (world d) w).2 := by
    rw [Prog.history_bind]
    rfl
  have hstarted := startedLengths_local d w bs q asked legs
  apply notTruncated_iff_of_counts
  · rw [hstarted]
    exact h.requested ▸ startedLengths_subset d _ (⟨q (w.frame + 1), asked⟩ :: legs)
  · rw [hstarted, hhist, handed_append, hlog, List.nil_append]
    exact h.counts _
  · intro hr
    have hu := untouched_localArray d w bs hbs .badArg
    rw [hstarted, hrun, hhist, h.refused hr]
    exact ⟨h.startedLengths_refused d hr _, rfl, hu⟩
  · intro hr
    rw [hrun, hhist]
    rcases h.accepted hr ((localArray bs).run (world d) w).2 with hne | ⟨e, he, ha⟩
    · exact .inl hne
    · exact .inr ⟨e, List.mem_append_right _ he, ha⟩

/-! ## What the transports hand over -/

theorem Half.cuts {p : TransportM I2cResult} {bad : Bool} {len : ℕ} (h : Half d p bad len) :
    Cuts d p bad [⟨p, [len]⟩] [len] := by
  refine ⟨rfl, h.refused, fun w => ?_, fun hb w => .inl (h.result hb w)⟩
  rw [startedLengths_single]
  cases hb : bad with
  | true =>
    rw [h.refused hb]
    rfl
  | false =>
    rw [if_neg (h.result hb w), h.handed hb w]
    rfl

/-- A BSC transport goes through the read half once the write half has answered `ok`. -/
theorem Halves.writeRead_cuts {t : I2cTransport} (hT : Halves d t) (addr : Byte) (wbuf : Ptr)
    (wlen : ℕ) (rbuf : Ptr) (rlen : ℕ) :
    Cuts d (t.writeRead addr wbuf wlen rbuf rlen) (badArgs addr wbuf wlen)
      ((Call.writeRead addr wbuf wlen rbuf rlen).halves t) [wlen, rlen] := by
  refine ⟨rfl, fun hb => hT.writeRead_refused hb, fun w => ?_,
    fun hb w => .inr (hT.writeRead_touches hb w)⟩
  have hwrite := hT.write addr wbuf wlen
  have hread := (hT.read addr rbuf rlen).cuts.counts
  rw [Call.halves, startedLengths_cons]
  cases hb : badArgs addr wbuf wlen with
  | true =>
    rw [hT.writeRead_refused hb, hwrite.refused hb]
    rfl
  | false =>
    rw [if_neg (hwrite.result hb w), hT.writeRead, Prog.history_bind, handed_append,
      hwrite.handed hb w, List.map_append, List.map_singleton]
    by_cases hok : ((t.write addr wbuf wlen).run (world d) w).1 = .ok
    · rw [if_pos hok, if_neg (not_not_intro hok), hread]
    · rw [if_neg hok, if_pos hok]
      rfl

theorem transact_cuts (refuses : Bool) (msgs : List I2cMsg) (lengths : List ℕ)
    (h : msgs.map (·.len) = lengths.map (BitVec.ofNat 16)) :
    Cuts d (if refuses then pure .badArg else Dev.transact msgs) refuses
      [⟨if refuses then pure .badArg else Dev.transact msgs, lengths⟩] lengths := by
  have hresult : ∀ w : World δ, ((Dev.transact msgs).run (world d) w).1 ≠ .badArg :=
    fun w => (yields_transact msgs).run (world d) w
  refine ⟨List.flatMap_singleton _ _, fun hr => if_pos hr, fun w => ?_, fun hr w => .inl ?_⟩
  · have hlog : handed ((Dev.transact msgs).history (world d) w) = msgs.map (·.len.toNat) := by
      rw [Dev.transact, Prog.history_bind, run_ioctl, history_ioctl, handed_append]
      have hlog : handed [((Cmd.ioctl msgs : Cmd), w)] = msgs.map (·.len.toNat) := by simp [handed]
      rw [hlog]
      cases w.replies.head <;> exact List.append_nil _
    have hlens : msgs.map (·.len.toNat) = lengths.map (· % 65536) := by
      have hcongr := congrArg (List.map BitVec.toNat) h
      simp only [List.map_map] at hcongr
      exact hcongr
    rw [startedLengths_single]
    cases refuses with
    | true => rfl
    | false =>
      simp only [Bool.false_eq_true, if_false]
      rw [if_neg (hresult w), hlog, hlens]
  · rw [hr, if_neg Bool.false_ne_true]
    exact hresult w

/-- The check of the first half of a transfer. -/
def Call.firstBad : Call → Bool
  | write addr buf len => badArgs addr buf len
  | read addr buf len => badArgs addr buf len
  | writeRead addr wbuf wlen _ _ => badArgs addr wbuf wlen
  | readReg addr _ _ _ => ADDR_MAX < addr
  | writeReg addr _ _ => ADDR_MAX < addr

/-- The check a call makes before it touches anything. -/
def Implementation.refuses (i : Implementation) (c : Call) : Bool :=
  if i.isBsc then c.firstBad else c.bad

/-- A BSC transport refuses a compound transfer by its first half. -/
theorem Halves.notTruncated_iff {t : I2cTransport} (hT : Halves d t) (c : Call) :
    NotTruncated d w (c.exec t) (c.halves t) c.lengths ↔
      c.firstBad = true ∨ ∀ n ∈ c.lengths, n ≤ 65535 := by
  cases c with
  | write addr buf len => exact (hT.write addr buf len).cuts.notTruncated_iff d w
  | read addr buf len => exact (hT.read addr buf len).cuts.notTruncated_iff d w
  | writeRead addr wbuf wlen rbuf rlen =>
    exact (hT.writeRead_cuts d addr wbuf wlen rbuf rlen).notTruncated_iff d w
  | readReg addr reg buf n =>
    have hcuts := hT.writeRead_cuts d addr (w.frame + 1) 1 buf n
    rw [badArgs_local addr w.frame 0] at hcuts
    exact @Cuts.notTruncated_local _ d w (fun p => t.writeRead addr p 1 buf n)
      (fun p => t.write addr p 1) _ _ _ _ [reg] (by simp) hcuts
  | writeReg addr reg value =>
    have hcuts := (hT.write addr (w.frame + 1) 2).cuts
    rw [badArgs_local addr w.frame 1] at hcuts
    exact @Cuts.notTruncated_local _ d w (fun p => t.write addr p 2)
      (fun p => t.write addr p 2) _ _ _ _ [reg, value] (by simp) hcuts

/-- The kernel gets every length of a call in its messages, each cut to `__u16`. -/
theorem linuxDev_notTruncated_iff (fd : ℕ) (c : Call) :
    NotTruncated d w (c.exec (linuxDev fd)) [⟨c.exec (linuxDev fd), c.lengths⟩] c.lengths ↔
      c.bad = true ∨ ∀ n ∈ c.lengths, n ≤ 65535 := by
  cases c with
  | write addr buf len =>
    have hcuts := transact_cuts d (badArgs addr buf len)
      [⟨addr.setWidth 16, false, BitVec.ofNat 16 len, buf⟩] [len] rfl
    rw [← Dev.write_bad fd] at hcuts
    rw [Call.bad_write]
    exact hcuts.notTruncated_iff d w
  | read addr buf len =>
    have hcuts := transact_cuts d (badArgs addr buf len)
      [⟨addr.setWidth 16, true, BitVec.ofNat 16 len, buf⟩] [len] rfl
    rw [← Dev.read_bad fd] at hcuts
    rw [Call.bad_read]
    exact hcuts.notTruncated_iff d w
  | writeRead addr wbuf wlen rbuf rlen =>
    have hcuts := transact_cuts d (badArgs addr wbuf wlen || badArgs addr rbuf rlen)
      [⟨addr.setWidth 16, false, BitVec.ofNat 16 wlen, wbuf⟩,
        ⟨addr.setWidth 16, true, BitVec.ofNat 16 rlen, rbuf⟩] [wlen, rlen] rfl
    rw [← Dev.writeRead_bad fd] at hcuts
    rw [Call.bad_writeRead]
    exact hcuts.notTruncated_iff d w
  | readReg addr reg buf n =>
    have hcuts := transact_cuts d (badArgs addr (w.frame + 1) 1 || badArgs addr buf n)
      [⟨addr.setWidth 16, false, BitVec.ofNat 16 1, w.frame + 1⟩,
        ⟨addr.setWidth 16, true, BitVec.ofNat 16 n, buf⟩] [1, n] rfl
    rw [← Dev.writeRead_bad fd, badArgs_local_or] at hcuts
    rw [Call.bad_readReg]
    exact @Cuts.notTruncated_local _ d w (fun p => Dev.writeRead fd addr p 1 buf n)
      (fun p => Dev.writeRead fd addr p 1 buf n) _ _ _ _ [reg] (by simp) hcuts
  | writeReg addr reg value =>
    have hcuts := transact_cuts d (badArgs addr (w.frame + 1) 2)
      [⟨addr.setWidth 16, false, BitVec.ofNat 16 2, w.frame + 1⟩] [2] rfl
    rw [← Dev.write_bad fd, badArgs_local addr w.frame 1] at hcuts
    rw [Call.bad_writeReg]
    exact @Cuts.notTruncated_local _ d w (fun p => Dev.write fd addr p 2)
      (fun p => Dev.write fd addr p 2) _ _ _ _ [reg, value] (by simp) hcuts

/-- On every implementation the lengths of a call reach the controller or the kernel
uncut precisely when the call is refused by its first check or all of them fit. -/
theorem notTruncated_iff_fits (i : Implementation) (c : Call) :
    NotTruncated d w (c.exec i.transport) (i.legs c) c.lengths ↔
      i.refuses c = true ∨ ∀ n ∈ c.lengths, n ≤ 65535 := by
  rw [Implementation.refuses, Implementation.legs]
  cases hi : i.isBsc with
  | true => exact (halves_of_isBsc d i hi).notTruncated_iff d w c
  | false =>
    cases i with
    | linuxDev fd => exact linuxDev_notTruncated_iff d w fd c
    | _ => cases hi

/-! ## Asynchronous calls -/

theorem Irq.call_cuts (c : AsyncCall) (w : World δ) (hc : c.refused w.xfer = false) :
    handed ((call c).history (world d) w) = [c.len % 65536] := by
  have hlook : handed [((Cmd.xfer : Cmd), w)] = [] := rfl
  have hstart := handed_start d w c.addr c.record.tx c.record.tn c.record.rx c.record.rn
    c.reading c.cb c.user
  have hlen : (if c.reading then c.record.rn else c.record.tn) = c.len := by cases c <;> rfl
  rw [call_eq, Prog.history_bind, run_xfer, history_xfer, handed_append, hlook, List.nil_append]
  dsimp only
  rw [hc, if_neg Bool.false_ne_true, hstart, hlen]

/-- An asynchronous call hands its length over uncut precisely when it is refused or its
length fits. -/
theorem Irq.async_notTruncated_iff_fits (c : AsyncCall) :
    NotTruncated d w (call c) [⟨call c, [c.len]⟩] [c.len] ↔
      c.refused w.xfer = true ∨ c.len ≤ 65535 := by
  have hrun := run_call d w c
  obtain ⟨H, -, hhist⟩ := history_call d w c
  have hstarted : startedLengths d [⟨call c, [c.len]⟩] w =
      if c.refused w.xfer then [] else [c.len] := by
    rw [startedLengths_single, hrun]
    cases c.refused w.xfer <;> rfl
  have hsubset : startedLengths d [⟨call c, [c.len]⟩] w ⊆ [c.len] := startedLengths_subset d w _
  rw [← List.forall_mem_singleton (p := fun n => n ≤ 65535)]
  apply notTruncated_iff_of_counts d w hsubset
  · rw [hstarted]
    cases hc : c.refused w.xfer with
    | true =>
      rw [hhist, hc]
      rfl
    | false => exact call_cuts d c w hc
  · intro hc
    rw [hstarted, hrun, hhist, if_pos hc, if_pos hc, if_pos hc]
    refine ⟨rfl, rfl, fun e he => ?_, fun _ _ => rfl⟩
    rw [List.mem_singleton.mp he]
    trivial
  · intro hc
    rw [hrun, hc]
    exact .inl I2cResult.noConfusion

/-- No transport checks that a length fits: every started phase hands its length over
uncut, and no length that does not fit is let through, precisely when a call is refused
before it touches anything, or all its lengths fit. -/
theorem lengths_notTruncated_iff :
    (∀ (i : Implementation) (c : Call),
      NotTruncated d w (c.exec i.transport) (i.legs c) c.lengths ↔
        i.refuses c = true ∨ ∀ n ∈ c.lengths, n ≤ 65535) ∧
    ∀ c : AsyncCall, NotTruncated d w (Irq.call c) [⟨Irq.call c, [c.len]⟩] [c.len] ↔
      c.refused w.xfer = true ∨ c.len ≤ 65535 :=
  ⟨notTruncated_iff_fits d w, Irq.async_notTruncated_iff_fits d w⟩

/-- Every status word says that the transfer is done. -/
def doneBus : World (Bsc.Register → Word) := World.powerOn (fun _ => 0) S_DONE

/-- A write of 65537 bytes programs a transfer of one, which is what `dataLength` then
reads back, and reports success. -/
theorem long_write_is_cut :
    (((polled 8).write 0x10 4 65537).run (world Device.plain) doneBus).1 = .ok ∧
    (I2c.dataLength.run Device.plain.access
      (((polled 8).write 0x10 4 65537).run (world Device.plain) doneBus).2.dev).1 = 1 ∧
    handed (((polled 8).write 0x10 4 65537).history (world Device.plain) doneBus) = [1] ∧
    startedLengths Device.plain ((Implementation.polled 8).legs (.write 0x10 4 65537)) doneBus =
      [65537] ∧
    ¬ NotTruncated Device.plain doneBus ((polled 8).write 0x10 4 65537)
      ((Implementation.polled 8).legs (.write 0x10 4 65537)) [65537] := by
  have hlog : handed (((polled 8).write 0x10 4 65537).history (world Device.plain) doneBus) =
      [1] := by decide
  have hstarted : startedLengths Device.plain
      ((Implementation.polled 8).legs (.write 0x10 4 65537)) doneBus = [65537] := by decide
  refine ⟨by decide, by decide, hlog, hstarted, fun h => ?_⟩
  have hequal := h.faithful
  rw [hlog, hstarted] at hequal
  revert hequal
  decide

end Bcm2837
