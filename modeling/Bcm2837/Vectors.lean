import Bcm2837.Aarch64

/-!
# The IRQ vector

Taking an interrupt saves the integer context below the stack pointer, calls the handler
and restores the context. `x0` and `x1` carry the two system registers on both sides.
-/
namespace Bcm2837.Vectors

open Aarch64 ByteMemory

def kernel_entry : List Instr :=
  [.subSp 272,
    .stp 0 1 (16 * 0), .stp 2 3 (16 * 1), .stp 4 5 (16 * 2), .stp 6 7 (16 * 3),
    .stp 8 9 (16 * 4), .stp 10 11 (16 * 5), .stp 12 13 (16 * 6), .stp 14 15 (16 * 7),
    .stp 16 17 (16 * 8), .stp 18 19 (16 * 9), .stp 20 21 (16 * 10), .stp 22 23 (16 * 11),
    .stp 24 25 (16 * 12), .stp 26 27 (16 * 13), .stp 28 29 (16 * 14),
    .mrs 0 .elr_el1,
    .stp 30 0 (16 * 15),
    .mrs 1 .spsr_el1,
    .str 1 (16 * 16)]

/-- Up to the `eret`. -/
def kernel_exit : List Instr :=
  [.ldr 1 (16 * 16),
    .msr .spsr_el1 1,
    .ldp 30 0 (16 * 15),
    .msr .elr_el1 0,
    .ldp 2 3 (16 * 1), .ldp 4 5 (16 * 2), .ldp 6 7 (16 * 3), .ldp 8 9 (16 * 4),
    .ldp 10 11 (16 * 5), .ldp 12 13 (16 * 6), .ldp 14 15 (16 * 7), .ldp 16 17 (16 * 8),
    .ldp 18 19 (16 * 9), .ldp 20 21 (16 * 10), .ldp 22 23 (16 * 11), .ldp 24 25 (16 * 12),
    .ldp 26 27 (16 * 13), .ldp 28 29 (16 * 14),
    .ldp 0 1 (16 * 0),
    .addSp 272]

/-- `a` is one of the `n` bytes below `sp`. -/
def Below (sp : BitVec 64) (n : ℕ) (a : BitVec 64) : Prop := ∃ i < n, offset a (i + 1) = sp

/-- A handler as the procedure call standard has it: it comes back with the stack pointer
and `x19` to `x29`, and writes memory below its stack pointer only, where `depth` says how
far down, leaving the 272 bytes above alone. -/
structure Handler where
  call : State → State
  depth : State → ℕ
  sp : ∀ s, (call s).sp = s.sp
  saved : ∀ s (r : Reg), 19 ≤ r.val → r.val ≤ 29 → (call s).x r = s.x r
  frame : ∀ s, ∀ i < 272, (call s).mem (offset s.sp i) = s.mem (offset s.sp i)
  below : ∀ s a, (call s).mem a ≠ s.mem a → Below s.sp (depth s) a

/-- Memory with the `n` bytes below `sp` overwritten. -/
def scribble (mem : Memory 64) (sp : BitVec 64) (n : ℕ) : Memory 64 :=
  fun a => if (sp - 1 - a).toNat < n then 0xFF else mem a

theorem scribble_frame (mem : Memory 64) (sp : BitVec 64) {n i : ℕ} (hi : i < 272)
    (hn : n ≤ 2 ^ 63) : scribble mem sp n (offset sp i) = mem (offset sp i) := by
  refine if_neg ?_
  have hdistance : sp - 1 - offset sp i = BitVec.ofNat 64 (2 ^ 64 - 1 - i) := by
    rw [offset]
    bv_omega
  rw [hdistance, BitVec.toNat_ofNat]
  omega

theorem scribble_below (mem : Memory 64) (sp : BitVec 64) (n : ℕ) {a : BitVec 64}
    (ha : scribble mem sp n a ≠ mem a) : Below sp n a := by
  unfold scribble at ha
  split_ifs at ha with hlt
  · refine ⟨_, hlt, ?_⟩
    rw [offset, BitVec.ofNat_add, BitVec.ofNat_toNat, BitVec.setWidth_eq]
    bv_omega
  · exact absurd rfl ha

/-- A handler that overwrites each register it may and 64 bytes of its stack. -/
instance : Inhabited Handler where
  default := {
    call s := { s with
      x := fun r => if 19 ≤ r.val ∧ r.val ≤ 29 then s.x r else 0xFF
      mem := scribble s.mem s.sp 64 }
    depth _ := 64
    sp _ := rfl
    saved _ _ hlow hhigh := if_pos ⟨hlow, hhigh⟩
    frame s _ hi := scribble_frame s.mem s.sp hi (by decide)
    below s _ ha := scribble_below s.mem s.sp 64 ha }

/-- `bl irq_handler_c`, which leaves its return address in `x30`. -/
def bl (h : Handler) (link : BitVec 64) (s : State) : State := h.call (s.setReg 30 link)

def el1_irq (h : Handler) (link : BitVec 64) (s : State) : State :=
  (bl h link (s.exec kernel_entry)).exec kernel_exit

/-! ## Entry and exit -/

/-- What the words of the frame hold. -/
def context (s : State) (k : ℕ) : BitVec 64 :=
  if h : k < 31 then s.x ⟨k, h⟩ else if k = 31 then s.sys .elr_el1 else s.sys .spsr_el1

theorem sp_entry (s : State) : (s.exec kernel_entry).sp = s.sp - 272 := rfl

/-- The 33 words lie one after the other in the frame. -/
theorem mem_entry (s : State) :
    (s.exec kernel_entry).mem = storeWords s.mem (s.sp - 272) (context s) 33 := rfl

theorem sp_exit (s : State) : (s.exec kernel_exit).sp = s.sp + 272 := rfl

theorem mem_exit (s : State) : (s.exec kernel_exit).mem = s.mem := rfl

theorem elr_exit (s : State) : (s.exec kernel_exit).sys .elr_el1 = s.slot (8 * 31) := rfl

theorem spsr_exit (s : State) : (s.exec kernel_exit).sys .spsr_el1 = s.slot (8 * 32) := rfl

/-- Each general register comes from its own word, also the two used as scratch. -/
theorem x_exit (s : State) (r : Reg) : (s.exec kernel_exit).x r = s.slot (8 * r.val) := by
  fin_cases r <;> rfl

/-! ## The call in between -/

section Call

variable (h : Handler) (link : BitVec 64) (s : State)

/-- The state in which the handler is called. -/
def called : State := (s.exec kernel_entry).setReg 30 link

/-- The handler returns with the words of the frame as they were saved. -/
theorem slot_bl {k : ℕ} (hk : k < 33) :
    (bl h link (s.exec kernel_entry)).slot (8 * k) = context s k := by
  have hkept : (bl h link (s.exec kernel_entry)).slot (8 * k) =
      load64 (s.exec kernel_entry).mem (offset (s.sp - 272) (8 * k)) := by
    unfold State.slot bl
    rw [h.sp]
    apply load64_congr
    intro i hi
    have hframe := h.frame (called link s) (8 * k + i) (by omega)
    rw [← offset_offset] at hframe
    exact hframe
  rw [hkept, mem_entry, load64_storeWords _ _ (by decide) hk]

theorem sp_bl : (bl h link (s.exec kernel_entry)).sp = s.sp - 272 := h.sp _

/-- The saved context comes back. -/
theorem x_el1_irq (r : Reg) : (el1_irq h link s).x r = s.x r := by
  rw [el1_irq, x_exit, slot_bl h link s (by omega), context, dif_pos r.isLt]

theorem sys_el1_irq (r : SysReg) : (el1_irq h link s).sys r = s.sys r := by
  cases r with
  | elr_el1 =>
    rw [el1_irq, elr_exit, slot_bl h link s (by decide)]
    rfl
  | spsr_el1 =>
    rw [el1_irq, spsr_exit, slot_bl h link s (by decide)]
    rfl

theorem sp_el1_irq : (el1_irq h link s).sp = s.sp := by
  rw [el1_irq, sp_exit, sp_bl, BitVec.sub_add_cancel]

/-- The frame lies below the stack pointer. -/
theorem below_frame {n i : ℕ} (hi : i < n) :
    Below s.sp n (offset (s.sp - BitVec.ofNat 64 n) i) := by
  refine ⟨n - i - 1, by omega, ?_⟩
  rw [offset_offset, show i + (n - i - 1 + 1) = n by omega]
  exact BitVec.sub_add_cancel _ _

/-- What is below the lowered stack pointer is below the stack pointer. -/
theorem below_of_below_sub {sp a : BitVec 64} {n d : ℕ}
    (ha : Below (sp - BitVec.ofNat 64 n) d a) : Below sp (n + d) a := by
  obtain ⟨i, hi, heq⟩ := ha
  refine ⟨i + n, by omega, ?_⟩
  rw [show i + n + 1 = i + 1 + n by omega, ← offset_offset, heq]
  exact BitVec.sub_add_cancel _ _

/-- Only memory below the stack pointer changes, the frame and what the handler uses. -/
theorem below_of_changed {a : BitVec 64} (ha : (el1_irq h link s).mem a ≠ s.mem a) :
    Below s.sp (272 + h.depth (called link s)) a := by
  by_cases hcall : (h.call (called link s)).mem a = (called link s).mem a
  · have hentry : (s.exec kernel_entry).mem a ≠ s.mem a := fun heq => ha (hcall.trans heq)
    have hframe : ∃ i < 264, a = offset (s.sp - 272) i := by
      by_contra hnot
      apply hentry
      rw [mem_entry]
      exact storeWords_of_outside _ fun i hi heq => hnot ⟨i, hi, heq⟩
    obtain ⟨i, hi, rfl⟩ := hframe
    obtain ⟨j, hj, heq⟩ := below_frame s (show i < 272 by omega)
    exact ⟨j, by omega, heq⟩
  · exact below_of_below_sub (h.below _ _ hcall)

end Call

/-- Below an address that far from zero lie smaller addresses only. -/
theorem lt_of_below {sp a : BitVec 64} {n : ℕ} (hn : n ≤ sp.toNat) (ha : Below sp n a) :
    a < sp := by
  obtain ⟨i, hi, rfl⟩ := ha
  rw [BitVec.lt_def]
  have ha := a.isLt
  rw [offset, BitVec.toNat_add, BitVec.toNat_ofNat] at hn ⊢
  omega

/-- Taking an interrupt leaves the interrupted code its registers, stack pointer, return
address and saved status, and writes no memory at or above its stack pointer. -/
theorem el1_irq_transparent (h : Handler) (link : BitVec 64) (s : State) :
    (∀ r, (el1_irq h link s).x r = s.x r) ∧ (el1_irq h link s).sp = s.sp ∧
      (∀ r, (el1_irq h link s).sys r = s.sys r) ∧
      (∀ a, (el1_irq h link s).mem a ≠ s.mem a →
        Below s.sp (272 + h.depth (called link s)) a) ∧
      (272 + h.depth (called link s) ≤ s.sp.toNat →
        ∀ a, s.sp ≤ a → (el1_irq h link s).mem a = s.mem a) := by
  refine ⟨x_el1_irq h link s, sp_el1_irq h link s, sys_el1_irq h link s,
    fun a ha => below_of_changed h link s ha, fun hroom a hle => ?_⟩
  by_contra hne
  have hlt := lt_of_below hroom (below_of_changed h link s hne)
  rw [BitVec.lt_def] at hlt
  rw [BitVec.le_def] at hle
  omega

end Bcm2837.Vectors
