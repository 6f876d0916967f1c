import Bcm2837.Uart
import Bcm2837.Vectors

/-!
# The vector table

An exception takes a core to one of the sixteen slots of the table, by where the core was and
by the type of the exception. One slot leads to the IRQ handler; what comes to another is
reported on the UART, with the context of the interrupted code left on the stack.
-/
namespace Bcm2837.VectorTable

open Aarch64 ByteMemory
open Vectors (kernel_entry kernel_exit context)

/-- `IVT::Vector`, in architectural order. -/
inductive Vector
  | CurEL_SP0_Sync | CurEL_SP0_IRQ | CurEL_SP0_FIQ | CurEL_SP0_SError
  | CurEL_SPx_Sync | CurEL_SPx_IRQ | CurEL_SPx_FIQ | CurEL_SPx_SError
  | LowerEL_A64_Sync | LowerEL_A64_IRQ | LowerEL_A64_FIQ | LowerEL_A64_SError
  | LowerEL_A32_Sync | LowerEL_A32_IRQ | LowerEL_A32_FIQ | LowerEL_A32_SError
  deriving DecidableEq

def kEntryStride : ℕ := 0x80

def kTableBytes : ℕ := 0x800

def kTableAlign : ℕ := 0x800

/-- `IVT::byte_offset` -/
def byte_offset (v : Vector) : ℕ := v.ctorIdx * kEntryStride

/-! ## The code of `vectors.S` -/

inductive Label
  | bad_sync | bad_irq | bad_fiq | bad_serror | el1_irq | report
  deriving DecidableEq

inductive Callee
  | irq_handler_c | bad_exception_c
  deriving DecidableEq

inductive Instr
  /-- An instruction of the context macros. -/
  | plain (i : Aarch64.Instr)
  | mov (rd : Reg) (imm : BitVec 64)
  /-- `mrs rd, esr_el1` -/
  | mrsEsr (rd : Reg)
  | b (l : Label)
  | bl (f : Callee)
  | eret

abbrev Code := List Instr

def x0 : Reg := ⟨0, by decide⟩

def x1 : Reg := ⟨1, by decide⟩

def x2 : Reg := ⟨2, by decide⟩

def enter : Code := kernel_entry.map .plain

def leave : Code := kernel_exit.map .plain ++ [.eret]

def el1_irq : Code := enter ++ .bl .irq_handler_c :: leave

def report : Code :=
  .mrsEsr x1 :: .plain (.mrs x2 .elr_el1) :: .bl .bad_exception_c :: leave

def bad_sync : Code := enter ++ [.mov x0 0, .b .report]

def bad_irq : Code := enter ++ [.mov x0 1, .b .report]

def bad_fiq : Code := enter ++ [.mov x0 2, .b .report]

/-- Runs on into `report`. -/
def bad_serror : Code := enter ++ .mov x0 3 :: report

def code : Label → Code
  | .bad_sync => bad_sync
  | .bad_irq => bad_irq
  | .bad_fiq => bad_fiq
  | .bad_serror => bad_serror
  | .el1_irq => el1_irq
  | .report => report

/-- A slot of the table. -/
def ventry (l : Label) : Code := [.b l]

def vector_table : List Code :=
  [ventry .bad_sync, ventry .bad_irq, ventry .bad_fiq, ventry .bad_serror,
    ventry .bad_sync, ventry .el1_irq, ventry .bad_fiq, ventry .bad_serror,
    ventry .bad_sync, ventry .bad_irq, ventry .bad_fiq, ventry .bad_serror,
    ventry .bad_sync, ventry .bad_irq, ventry .bad_fiq, ventry .bad_serror]

/-- Where the linker puts the table. -/
structure Placement where
  base : BitVec 64
  aligned : base.toNat % kTableAlign = 0

/-- The code at an address of the table; `.balign` puts the slots `0x80` bytes apart. -/
def fetch (p : Placement) (addr : BitVec 64) : Option Code :=
  let off := (addr - p.base).toNat
  if off % 0x80 = 0 then vector_table[off / 0x80]? else none

/-! ## Taking an exception -/

/-- Where a core that takes an exception to EL1 has been. -/
inductive Origin
  | currentSp0 | currentSpx | lowerA64 | lowerA32
  deriving DecidableEq

inductive Kind
  | synchronous | irq | fiq | serror
  deriving DecidableEq

/-- The offset from `VBAR_EL1` that the architecture goes to. -/
def vectorOffset (o : Origin) (k : Kind) : ℕ := 0x200 * o.ctorIdx + 0x80 * k.ctorIdx

/-- A core with what it has left to run. -/
structure Core where
  cpu : State
  esr : BitVec 64
  rest : Code

/-- The exception that is taken, with what the system registers have of it. -/
structure Exception where
  origin : Origin
  kind : Kind
  syndrome : BitVec 64
  returnAddress : BitVec 64
  status : BitVec 64

/-- A core whose vector base is `vbar` takes an exception. The low bits of the base are not
looked at. -/
def take (p : Placement) (vbar : BitVec 64) (e : Exception) (s : State) : Option Core :=
  let addr := BitVec.ofNat 64
    (vbar.toNat / kTableAlign * kTableAlign + vectorOffset e.origin e.kind)
  (fetch p addr).map fun rest =>
    ⟨(s.setSys .elr_el1 e.returnAddress).setSys .spsr_el1 e.status, e.syndrome, rest⟩

/-- One instruction. A call and the return are not taken here. -/
def Core.step (c : Core) : Option Core :=
  match c.rest with
  | .plain i :: rest => some { c with cpu := c.cpu.step i, rest := rest }
  | .mov rd imm :: rest => some { c with cpu := c.cpu.setReg rd imm, rest := rest }
  | .mrsEsr rd :: rest => some { c with cpu := c.cpu.setReg rd c.esr, rest := rest }
  | .b l :: _ => some { c with rest := code l }
  | _ => none

inductive Reaches : Core → Core → Prop
  | refl (c : Core) : Reaches c c
  | step {c d r : Core} (hstep : c.step = some d) (hreach : Reaches d r) : Reaches c r

/-! ## The report -/

/-- `uart_puts(s)` -/
def uartPuts : List Char → Print.Io Unit
  | [] => pure ()
  | c :: cs => do
    if c = '\n' then Print.uartPutc '\r' else pure ()
    Print.uartPutc c
    uartPuts cs

def name : List String := ["SYNC", "IRQ", "FIQ", "SERROR"]

/-- `bad_exception_c`, up to the loop it never leaves. -/
def bad_exception_c (kind esr elr : BitVec 64) : Print.Io Unit := do
  uartPuts "\n[EXCEPTION] ".toList
  uartPuts (name.getD (kind &&& 3).toNat "").toList
  uartPuts "  ESR=".toList
  Print.uartHex esr
  uartPuts "  ELR=".toList
  Print.uartHex elr
  uartPuts "\n[HALTED]\n".toList

/-! ## From the slot to the call -/

section Slots

/-- The vector of an exception. -/
def vector : Origin → Kind → Vector
  | .currentSp0, .synchronous => .CurEL_SP0_Sync
  | .currentSp0, .irq => .CurEL_SP0_IRQ
  | .currentSp0, .fiq => .CurEL_SP0_FIQ
  | .currentSp0, .serror => .CurEL_SP0_SError
  | .currentSpx, .synchronous => .CurEL_SPx_Sync
  | .currentSpx, .irq => .CurEL_SPx_IRQ
  | .currentSpx, .fiq => .CurEL_SPx_FIQ
  | .currentSpx, .serror => .CurEL_SPx_SError
  | .lowerA64, .synchronous => .LowerEL_A64_Sync
  | .lowerA64, .irq => .LowerEL_A64_IRQ
  | .lowerA64, .fiq => .LowerEL_A64_FIQ
  | .lowerA64, .serror => .LowerEL_A64_SError
  | .lowerA32, .synchronous => .LowerEL_A32_Sync
  | .lowerA32, .irq => .LowerEL_A32_IRQ
  | .lowerA32, .fiq => .LowerEL_A32_FIQ
  | .lowerA32, .serror => .LowerEL_A32_SError

/-- The code counts the vectors as the architecture does. -/
theorem byte_offset_vector (o : Origin) (k : Kind) :
    byte_offset (vector o k) = vectorOffset o k := by
  cases o <;> cases k <;> rfl

def bad : Kind → Label
  | .synchronous => .bad_sync
  | .irq => .bad_irq
  | .fiq => .bad_fiq
  | .serror => .bad_serror

theorem fetch_add (p : Placement) {n : ℕ} (hn : n < kTableBytes) :
    fetch p (BitVec.ofNat 64 (p.base.toNat / kTableAlign * kTableAlign + n)) =
      if n % 0x80 = 0 then vector_table[n / 0x80]? else none := by
  have hbase : p.base.toNat / kTableAlign * kTableAlign = p.base.toNat :=
    Nat.div_mul_cancel (Nat.dvd_of_mod_eq_zero p.aligned)
  have hoff : BitVec.ofNat 64 (p.base.toNat + n) - p.base = BitVec.ofNat 64 n := by
    rw [BitVec.ofNat_add, BitVec.ofNat_toNat, BitVec.setWidth_eq, BitVec.add_comm,
      BitVec.add_sub_cancel]
  have hlt : n < 2 ^ 64 := hn.trans (by decide)
  unfold fetch
  dsimp only
  rw [hbase, hoff, BitVec.toNat_ofNat, Nat.mod_eq_of_lt hlt]

theorem vectorOffset_lt (o : Origin) (k : Kind) : vectorOffset o k < kTableBytes := by
  cases o <;> cases k <;> decide

theorem take_eq (p : Placement) (e : Exception) (s : State) :
    take p p.base e s = some
      ⟨(s.setSys .elr_el1 e.returnAddress).setSys .spsr_el1 e.status, e.syndrome,
        ventry (if vector e.origin e.kind = .CurEL_SPx_IRQ then .el1_irq else bad e.kind)⟩ := by
  have hslot : (if vectorOffset e.origin e.kind % 0x80 = 0 then
      vector_table[vectorOffset e.origin e.kind / 0x80]? else none) =
      some (ventry (if vector e.origin e.kind = .CurEL_SPx_IRQ then .el1_irq else bad e.kind)) := by
    cases e.origin <;> cases e.kind <;> rfl
  unfold take
  dsimp only
  rw [fetch_add p (vectorOffset_lt _ _), hslot, Option.map_some]

end Slots

section Stubs

theorem Reaches.trans {c d r : Core} (h : Reaches c d) (h' : Reaches d r) : Reaches c r := by
  induction h with
  | refl c => exact h'
  | step hstep _ ih => exact .step hstep (ih h')

/-- The context macros run through. -/
theorem reaches_plain (is : List Aarch64.Instr) (cpu : State) (esr : BitVec 64) (rest : Code) :
    Reaches ⟨cpu, esr, is.map .plain ++ rest⟩ ⟨cpu.exec is, esr, rest⟩ := by
  induction is generalizing cpu with
  | nil => exact .refl _
  | cons i is ih => exact .step rfl (ih (cpu.step i))

theorem reaches_el1_irq (cpu : State) (esr : BitVec 64) :
    Reaches ⟨cpu, esr, ventry .el1_irq⟩
      ⟨cpu.exec kernel_entry, esr, .bl .irq_handler_c :: leave⟩ :=
  .step rfl (reaches_plain kernel_entry cpu esr _)

/-- The arguments of `bad_exception_c`. -/
def Kind.number (k : Kind) : BitVec 64 := BitVec.ofNat 64 k.ctorIdx

def reporting (k : Kind) (esr : BitVec 64) (cpu : State) : State :=
  let saved := (cpu.exec kernel_entry).setReg x0 k.number
  (saved.setReg x1 esr).setReg x2 (saved.sys .elr_el1)

theorem reaches_report (cpu : State) (esr : BitVec 64) :
    Reaches ⟨cpu, esr, report⟩
      ⟨(cpu.setReg x1 esr).setReg x2 (cpu.sys .elr_el1), esr, .bl .bad_exception_c :: leave⟩ :=
  .step rfl (.step rfl (.refl _))

theorem reaches_bad (k : Kind) (cpu : State) (esr : BitVec 64) :
    Reaches ⟨cpu, esr, ventry (bad k)⟩
      ⟨reporting k esr cpu, esr, .bl .bad_exception_c :: leave⟩ := by
  cases k with
  | serror =>
    have hsave := reaches_plain kernel_entry cpu esr (.mov x0 3 :: report)
    exact .step rfl (hsave.trans (.step rfl (reaches_report _ _)))
  | synchronous =>
    have hsave := reaches_plain kernel_entry cpu esr [.mov x0 0, .b .report]
    exact .step rfl (hsave.trans (.step rfl (.step rfl (reaches_report _ _))))
  | irq =>
    have hsave := reaches_plain kernel_entry cpu esr [.mov x0 1, .b .report]
    exact .step rfl (hsave.trans (.step rfl (.step rfl (reaches_report _ _))))
  | fiq =>
    have hsave := reaches_plain kernel_entry cpu esr [.mov x0 2, .b .report]
    exact .step rfl (hsave.trans (.step rfl (.step rfl (reaches_report _ _))))

end Stubs

/-! ## What the report says -/

section Report

theorem out_uartPuts (cs : List Char) (w : Print.World) :
    ((uartPuts cs).run Print.print w).2.out = w.out ++ Console.crlf cs := by
  induction cs generalizing w with
  | nil => exact (List.append_nil _).symm
  | cons c cs ih =>
    by_cases hc : c = '\n'
    · simp [uartPuts, hc, ih, Console.crlf]
    · simp [uartPuts, hc, ih, Console.crlf]

/-- The text for an exception of kind `k`. -/
def text (k : Kind) (esr elr : BitVec 64) : List Char :=
  let hex (v : BitVec 64) : List Char :=
    ['0', 'x'] ++ Print.nibbleDigits.text (Numerals.Alphabet.places 16 16 v.toNat)
  let kind : String := match k with
    | .synchronous => "SYNC"
    | .irq => "IRQ"
    | .fiq => "FIQ"
    | .serror => "SERROR"
  Console.crlf "\n[EXCEPTION] ".toList ++ Console.crlf kind.toList ++
    Console.crlf "  ESR=".toList ++ hex esr ++ Console.crlf "  ELR=".toList ++ hex elr ++
    Console.crlf "\n[HALTED]\n".toList

theorem name_number (k : Kind) :
    (name.getD (k.number &&& 3).toNat "").toList = (match k with
      | .synchronous => "SYNC"
      | .irq => "IRQ"
      | .fiq => "FIQ"
      | .serror => "SERROR" : String).toList := by
  cases k <;> rfl

theorem out_bad_exception_c (k : Kind) (esr elr : BitVec 64) (w : Print.World) :
    ((bad_exception_c k.number esr elr).run Print.print w).2.out = w.out ++ text k esr elr := by
  unfold bad_exception_c
  simp only [Prog.run_bind, out_uartPuts, (Print.prints_uartHex _ _).out, name_number, text,
    List.append_assoc]

end Report

section Taken

variable (e : Exception) (s : State)

/-- The interrupted code, with what the exception has put in the system registers. -/
def interrupted : State := (s.setSys .elr_el1 e.returnAddress).setSys .spsr_el1 e.status

/-- The frame below the stack pointer holds the context, and nothing else is overwritten. -/
structure Saved (d : State) : Prop where
  sp : d.sp = s.sp - 272
  words : ∀ k < 33, load64 d.mem (offset d.sp (8 * k)) = context (interrupted e s) k
  others : ∀ a, ¬Vectors.Below s.sp 272 a → d.mem a = s.mem a

theorem saved_entry {d : State} (hsp : d.sp = s.sp - 272)
    (hmem : d.mem = ((interrupted e s).exec kernel_entry).mem) : Saved e s d where
  sp := hsp
  words k hk := by
    rw [hsp, hmem, Vectors.mem_entry]
    exact load64_storeWords _ _ (by decide) hk
  others a ha := by
    rw [hmem, Vectors.mem_entry]
    apply storeWords_of_outside
    rintro i hi rfl
    exact ha (Vectors.below_frame s (by omega))

end Taken

/-- An IRQ of the current level on `SP_ELx` calls the IRQ handler, with the context of the
interrupted code on the stack. Whatever comes to another vector, an IRQ with `SP_EL0` too, calls
`bad_exception_c`, which puts out its kind, its syndrome and the address it returns to. -/
theorem exceptions_reported (p : Placement) (e : Exception) (s : State) (w : Print.World)
    {l : Uart.Line} (hl : Uart.Live l) :
    byte_offset (vector e.origin e.kind) = vectorOffset e.origin e.kind ∧
      ∃ c d, take p p.base e s = some c ∧ Reaches c d ∧ Saved e s d.cpu ∧
        if vector e.origin e.kind = .CurEL_SPx_IRQ then d.rest = .bl .irq_handler_c :: leave
        else d.rest = .bl .bad_exception_c :: leave ∧
          Uart.GoesOut (bad_exception_c (d.cpu.x x0) (d.cpu.x x1) (d.cpu.x x2)) w l
            (text e.kind e.syndrome e.returnAddress) := by
  refine ⟨byte_offset_vector _ _, ?_⟩
  have htake := take_eq p e s
  by_cases hv : vector e.origin e.kind = .CurEL_SPx_IRQ
  · rw [if_pos hv] at htake
    refine ⟨_, _, htake, reaches_el1_irq _ _, saved_entry e s rfl rfl, ?_⟩
    rw [if_pos hv]
  · rw [if_neg hv] at htake
    refine ⟨_, _, htake, reaches_bad _ _ _, saved_entry e s rfl rfl, ?_⟩
    rw [if_neg hv]
    exact ⟨rfl, Uart.goesOut_of_out (out_bad_exception_c e.kind e.syndrome e.returnAddress) w hl⟩

/-- A data abort of the kernel. -/
theorem exceptions_reported_abort :
    ∃ d : State, d.sp = 0x7FEF0 ∧
      Uart.GoesOut (bad_exception_c (d.x x0) (d.x x1) (d.x x2))
        ⟨Print.percentD, fun _ => Print.percentD, fun _ => 0, 0, fun _ => Print.NUL, []⟩
        (Uart.initialized ⟨fun _ => 0, [], []⟩ (Stream'.const 1))
        ("\r\n[EXCEPTION] SYNC  ESR=0x0000000096000045  ELR=0x0000000000080444\r\n" ++
          "[HALTED]\r\n").toList := by
  obtain ⟨-, c, d, -, -, hsaved, -, hout⟩ := exceptions_reported ⟨0x80800, by decide⟩
    ⟨.currentSpx, .synchronous, 0x96000045, 0x80444, 5⟩
    ⟨fun _ => 0, 0x80000, fun _ => 0, fun _ => 0⟩
    ⟨Print.percentD, fun _ => Print.percentD, fun _ => 0, 0, fun _ => Print.NUL, []⟩
    (Uart.live_initialized ⟨fun _ => 0, [], []⟩ (Stream'.const 1) (by decide)
      fun _ => ⟨0, Nat.one_ne_zero⟩)
  exact ⟨d.cpu, hsaved.sp, hout⟩

end Bcm2837.VectorTable
