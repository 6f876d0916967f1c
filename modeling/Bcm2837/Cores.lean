import Bcm2837.Boot
import Bcm2837.Vectors
import Bcm2837.RelyGuarantee

/-!
# Interrupts on four cores

The cores run in one memory, each on the stack it was given at `_start`. A core may take an
interrupt whenever it runs code of its own, and the instructions of its vector and the steps
of its handler come between those of the other cores in any order.
-/
namespace Bcm2837.Cores

open Aarch64 ByteMemory RelyGuarantee Vectors
open Boot (Layout stackTop)

/-- What a core has for itself. -/
structure Cpu where
  x : Reg → BitVec 64
  sp : BitVec 64
  sys : SysReg → BitVec 64

def view (l : Cpu) (m : Memory 64) : State := ⟨l.x, l.sp, l.sys, m⟩

def cpu (s : State) : Cpu := ⟨s.x, s.sp, s.sys⟩

abbrev CoreOp := Op Cpu (Memory 64)

def op (f : State → State) : CoreOp := fun l m => (cpu (f (view l m)), (f (view l m)).mem)

def instrs (code : List Instr) : List CoreOp := code.map fun i => op fun s => s.step i

section Layout

variable (layout : Layout) (depth : ℕ) (c : Fin 4)

def top : ℕ := (stackTop layout c.val).toNat

/-- The 64K below the top of its stack are a core's own. -/
def Own (a : BitVec 64) : Prop :=
  top layout c ≤ a.toNat + Boot.STACK_SIZE.toNat ∧ a.toNat < top layout c

/-- There is room for an interrupt on the stack of the core. -/
def Fit (l : Cpu) (_ : Memory 64) : Prop :=
  top layout c + 272 + depth ≤ l.sp.toNat + Boot.STACK_SIZE.toNat ∧ l.sp.toNat ≤ top layout c

/-- The others leave the stack of the core alone. -/
def Rely (m m' : Memory 64) : Prop := ∀ a, Own layout c a → m' a = m a

/-- The core writes its own stack, and the image and what is behind it. -/
def Guarantee (m m' : Memory 64) : Prop :=
  ∀ a, m' a ≠ m a → Own layout c a ∨ layout.place .start ≤ a

end Layout

/-- The steps of a handler. The stack pointer is that of the call, and what the handler pushes
is below it. -/
structure Callee (layout : Layout) (depth : ℕ) where
  body : List (State → State)
  sp : ∀ f ∈ body, ∀ s, (f s).sp = s.sp
  writes : ∀ f ∈ body, ∀ s a, (f s).mem a ≠ s.mem a →
    Below s.sp depth a ∨ layout.place .start ≤ a

/-- The link register, `x30`. -/
def lr : Reg := Fin.last 30

/-- The code of the IRQ vector up to the `eret`. -/
def el1_irq {layout : Layout} {depth : ℕ} (h : Callee layout depth) (link : BitVec 64) :
    List CoreOp :=
  instrs kernel_entry ++ (op fun s => s.setReg lr link) :: h.body.map op ++ instrs kernel_exit

/-- A step of the code that is interrupted. -/
structure Work (layout : Layout) (depth : ℕ) (c : Fin 4) (f : State → State) : Prop where
  fit : ∀ s, Fit layout depth c (cpu s) s.mem → Fit layout depth c (cpu (f s)) (f s).mem
  writes : ∀ s, Guarantee layout c s.mem (f s).mem

/-- What a core is given to do: a step of its own code, or an interrupt. -/
def Given (layout : Layout) (depth : ℕ) (c : Fin 4) (fs : List CoreOp) : Prop :=
  (∃ f, Work layout depth c f ∧ fs = [op f]) ∨
    ∃ (h : Callee layout depth) (link : BitVec 64), fs = el1_irq h link

abbrev Machine := RelyGuarantee.World (Fin 4) Cpu (Memory 64)

/-! ## The stacks -/

section Stacks

variable {layout : Layout} {depth : ℕ} {c d : Fin 4} {a : BitVec 64}

theorem top_eq (layout : Layout) (c : Fin 4) : top layout c = 0x80000 - c.val * 0x10000 := by
  unfold top stackTop Boot.STACK_SIZE
  rw [layout.start_first]
  fin_cases c <;> rfl

theorem STACK_SIZE_toNat : Boot.STACK_SIZE.toNat = 0x10000 := rfl

/-- No byte is on the stacks of two cores. -/
theorem own_unique (hc : Own layout c a) (hd : Own layout d a) : c = d := by
  unfold Own at hc hd
  rw [top_eq, STACK_SIZE_toNat] at hc hd
  omega

theorem not_own_of_le (ha : layout.place .start ≤ a) : ¬Own layout c a := by
  rw [layout.start_first, BitVec.le_def] at ha
  have hstart : (0x80000 : BitVec 64).toNat = 0x80000 := rfl
  rintro ⟨-, hlt⟩
  rw [top_eq] at hlt
  omega

/-- What one core may write, the others do not rely on. -/
theorem rely_of_guarantee (hcd : c ≠ d) (m m' : Memory 64) (h : Guarantee layout d m m') :
    Rely layout c m m' := by
  intro a ha
  by_contra hne
  rcases h a hne with hd | hstart
  · exact hcd (own_unique ha hd)
  · exact not_own_of_le hstart ha

instance (c : Fin 4) : IsTrans (Memory 64) (Rely layout c) :=
  ⟨fun _ _ _ h h' a ha => (h' a ha).trans (h a ha)⟩

theorem rely_refl (c : Fin 4) (m : Memory 64) : Rely layout c m m := fun _ _ => rfl

end Stacks

/-! ## Entry and exit next to the other cores -/

section Frame

variable (layout : Layout) (c : Fin 4)

/-- The states look the same to the core. -/
def Agree (s t : State) : Prop := cpu s = cpu t ∧ ∀ a, Own layout c a → s.mem a = t.mem a

/-- The 272 bytes from the stack pointer up are the core's own. -/
def InFrame (sp : BitVec 64) : Prop :=
  top layout c ≤ sp.toNat + Boot.STACK_SIZE.toNat ∧ sp.toNat + 272 ≤ top layout c

/-- Instructions that move words between registers and the frame. -/
def Framed : Instr → Prop
  | .str _ off | .ldr _ off => off + 8 ≤ 272
  | .stp _ _ off | .ldp _ _ off => off + 16 ≤ 272
  | .mrs _ _ | .msr _ _ => True
  | .subSp _ | .addSp _ => False

instance (i : Instr) : Decidable (Framed i) := by
  cases i <;> unfold Framed <;> infer_instance

variable {layout c} {s t : State} {i : Instr}

theorem own_offset {sp : BitVec 64} (h : InFrame layout c sp) {k : ℕ} (hk : k < 272) :
    Own layout c (offset sp k) := by
  have htop : top layout c ≤ 0x80000 := by
    rw [top_eq]
    omega
  obtain ⟨hbottom, hroom⟩ := h
  unfold Own
  rw [toNat_offset _ (by omega)]
  omega

theorem slot_agree (h : Agree layout c s t) (hin : InFrame layout c s.sp) {off : ℕ}
    (hoff : off + 8 ≤ 272) : s.slot off = t.slot off := by
  have hsp : s.sp = t.sp := congrArg Cpu.sp h.1
  unfold State.slot
  rw [← hsp]
  apply load64_congr
  intro k hk
  rw [offset_offset]
  exact h.2 _ (own_offset hin (by omega))

theorem setReg_agree (h : Agree layout c s t) (r : Reg) {v u : BitVec 64} (hv : v = u) :
    Agree layout c (s.setReg r v) (t.setReg r u) := by
  subst hv
  obtain ⟨hcpu, hmem⟩ := h
  refine ⟨?_, hmem⟩
  simp only [cpu, Cpu.mk.injEq] at hcpu
  simp only [cpu, State.setReg, Cpu.mk.injEq]
  exact ⟨by rw [hcpu.1], hcpu.2⟩

theorem setSlot_agree (h : Agree layout c s t) (off : ℕ) {v u : BitVec 64} (hv : v = u) :
    Agree layout c (s.setSlot off v) (t.setSlot off u) := by
  subst hv
  obtain ⟨hcpu, hmem⟩ := h
  refine ⟨hcpu, fun a ha => ?_⟩
  have hsp : s.sp = t.sp := congrArg Cpu.sp hcpu
  show store64 s.mem (offset s.sp off) v a = store64 t.mem (offset t.sp off) v a
  rw [hsp, store64, store64, hmem a ha]

theorem x_agree (h : Agree layout c s t) (r : Reg) : s.x r = t.x r :=
  congrFun (congrArg Cpu.x h.1) r

theorem sys_agree (h : Agree layout c s t) (r : SysReg) : s.sys r = t.sys r :=
  congrFun (congrArg Cpu.sys h.1) r

theorem step_agree (hi : Framed i) (hin : InFrame layout c s.sp) (h : Agree layout c s t) :
    Agree layout c (s.step i) (t.step i) := by
  cases i with
  | subSp n => exact hi.elim
  | addSp n => exact hi.elim
  | str r off => exact setSlot_agree h off (x_agree h r)
  | stp r₁ r₂ off =>
    exact setSlot_agree (setSlot_agree h off (x_agree h r₁)) (off + 8) (x_agree h r₂)
  | ldr r off => exact setReg_agree h r (slot_agree h hin hi)
  | ldp r₁ r₂ off =>
    have hoff : off + 16 ≤ 272 := hi
    exact setReg_agree (setReg_agree h r₁ (slot_agree h hin (by omega))) r₂
      (slot_agree h hin (by omega))
  | mrs r p => exact setReg_agree h r (sys_agree h p)
  | msr p r =>
    obtain ⟨hcpu, hmem⟩ := h
    simp only [cpu, Cpu.mk.injEq] at hcpu
    refine ⟨?_, hmem⟩
    simp only [cpu, State.step, State.setSys, Cpu.mk.injEq]
    exact ⟨hcpu.1, hcpu.2.1, by rw [hcpu.1, hcpu.2.2]⟩

theorem sp_step (hi : Framed i) (s : State) : (s.step i).sp = s.sp := by
  cases i with
  | subSp n => exact hi.elim
  | addSp n => exact hi.elim
  | _ => rfl

theorem own_of_setSlot (hin : InFrame layout c s.sp) {off : ℕ} (hoff : off + 8 ≤ 272)
    (v : BitVec 64) {a : BitVec 64} (ha : (s.setSlot off v).mem a ≠ s.mem a) : Own layout c a := by
  by_contra hnot
  apply ha
  apply store64_of_outside
  rintro k hk rfl
  rw [offset_offset] at hnot
  exact hnot (own_offset hin (by omega))

theorem guarantee_step (hi : Framed i) (hin : InFrame layout c s.sp) :
    Guarantee layout c s.mem (s.step i).mem := by
  intro a ha
  left
  cases i with
  | str r off => exact own_of_setSlot hin hi _ ha
  | stp r₁ r₂ off =>
    have hoff : off + 16 ≤ 272 := hi
    by_cases hfirst : (s.setSlot off (s.x r₁)).mem a = s.mem a
    · rw [← hfirst] at ha
      exact own_of_setSlot (s := s.setSlot off (s.x r₁)) hin (by omega) _ ha
    · exact own_of_setSlot hin (by omega) _ hfirst
  | subSp n => exact absurd rfl ha
  | addSp n => exact absurd rfl ha
  | ldr r off => exact absurd rfl ha
  | ldp r₁ r₂ off => exact absurd rfl ha
  | mrs r p => exact absurd rfl ha
  | msr p r => exact absurd rfl ha

/-- Next to the other cores, code that stays in the frame ends as it does alone. -/
theorem robust_instrs {code : List Instr} {Q : Cpu → Memory 64 → Prop}
    (hcode : ∀ i ∈ code, Framed i) (hin : InFrame layout c s.sp) (h : Agree layout c s t)
    (hQ : ∀ r, Agree layout c (s.exec code) r → Q (cpu r) r.mem) :
    Robust (Rely layout c) (Guarantee layout c) Q (instrs code) (cpu t) t.mem := by
  induction code generalizing s t with
  | nil =>
    intro m hm
    exact hQ (view (cpu t) m) ⟨h.1, fun a ha => (h.2 a ha).trans (hm a ha).symm⟩
  | cons i code ih =>
    intro m hm
    have hi := hcode i List.mem_cons_self
    have hview : Agree layout c s (view (cpu t) m) :=
      ⟨h.1, fun a ha => (h.2 a ha).trans (hm a ha).symm⟩
    have hsp : (view (cpu t) m).sp = s.sp := (congrArg Cpu.sp h.1).symm
    refine ⟨guarantee_step hi (hsp ▸ hin), ?_⟩
    exact ih (fun j hj => hcode j (List.mem_cons_of_mem i hj)) (sp_step hi s ▸ hin)
      (step_agree hi hin hview) hQ

end Frame

/-! ## The whole vector -/

section Vector

variable {layout : Layout} {depth : ℕ} {c : Fin 4}

/-- From the stack pointer up, the core's own memory is as it was. -/
def Above (layout : Layout) (c : Fin 4) (sp : BitVec 64) (m m' : Memory 64) : Prop :=
  ∀ a, Own layout c a → sp ≤ a → m' a = m a

theorem Above.rely {sp : BitVec 64} {m₀ m m' : Memory 64} (h : Above layout c sp m₀ m)
    (hm : Rely layout c m m') : Above layout c sp m₀ m' :=
  fun a ha hle => (hm a ha).trans (h a ha hle)

/-- A handler with room on the stack stays on it. -/
theorem own_of_below {sp a : BitVec 64} (hroom : top layout c + depth ≤ sp.toNat + 0x10000)
    (hle : sp.toNat ≤ top layout c) (ha : Below sp depth a) : Own layout c a ∧ a < sp := by
  have htop := top_eq layout c
  have hlt := lt_of_below (by omega) ha
  obtain ⟨i, hi, heq⟩ := ha
  have hnat := congrArg BitVec.toNat heq
  rw [BitVec.lt_def] at hlt
  rw [offset, BitVec.toNat_add, BitVec.toNat_ofNat] at hnat
  have hsum : a.toNat + (i + 1) = sp.toNat := by
    have ha := a.isLt
    omega
  refine ⟨?_, BitVec.lt_def.mpr hlt⟩
  unfold Own
  rw [STACK_SIZE_toNat]
  omega

/-- The steps of the handler leave the frame and what is above it alone. -/
theorem robust_body {fs : List (State → State)} {l : Cpu} {m₀ m : Memory 64} {sp : BitVec 64}
    (hsp : ∀ f ∈ fs, ∀ s, (f s).sp = s.sp)
    (hwrites : ∀ f ∈ fs, ∀ s a, (f s).mem a ≠ s.mem a →
      Below s.sp depth a ∨ layout.place .start ≤ a)
    (hroom : top layout c + depth ≤ sp.toNat + 0x10000) (hle : sp.toNat ≤ top layout c)
    (hl : l.sp = sp) (hm : Above layout c sp m₀ m) :
    Robust (Rely layout c) (Guarantee layout c)
      (fun l' m' => l'.sp = sp ∧ Above layout c sp m₀ m') (fs.map op) l m := by
  induction fs generalizing l m with
  | nil => exact fun m' hm' => ⟨hl, hm.rely hm'⟩
  | cons f fs ih =>
    intro m' hm'
    have hwrite := hwrites f List.mem_cons_self (view l m')
    have hbelow {a : BitVec 64} (ha : Below l.sp depth a) : Own layout c a ∧ a < sp := by
      rw [hl] at ha
      exact own_of_below hroom hle ha
    constructor
    · intro a ha
      rcases hwrite a ha with hb | hstart
      · exact Or.inl (hbelow hb).1
      · exact Or.inr hstart
    · apply ih (fun g hg => hsp g (List.mem_cons_of_mem f hg))
        (fun g hg => hwrites g (List.mem_cons_of_mem f hg))
      · exact (hsp f List.mem_cons_self (view l m')).trans hl
      · intro a ha hla
        rw [← hm.rely hm' a ha hla]
        by_contra hne
        rcases hwrite a hne with hb | hstart
        · exact absurd hla (BitVec.not_le.mpr (hbelow hb).2)
        · exact not_own_of_le hstart ha

/-- The code interrupted finds its registers and its stack as they were. -/
def Resumed (layout : Layout) (c : Fin 4) (l : Cpu) (m : Memory 64) (l' : Cpu)
    (m' : Memory 64) : Prop :=
  l' = l ∧ Above layout c l.sp m m'

theorem framed_entry : ∀ i ∈ kernel_entry.tail, Framed i := by decide

theorem framed_exit : ∀ i ∈ kernel_exit.dropLast, Framed i := by decide

/-- The exit raises the stack pointer last. -/
theorem exec_exit (s : State) :
    s.exec kernel_exit = (s.exec kernel_exit.dropLast).step (.addSp 272) := rfl

section Parts

variable {l : Cpu} {m : Memory 64} (hfit : Fit layout depth c l m)
include hfit

/-- The frame of an interrupt fits, with the room for the handler below it. -/
theorem room_of_fit : (l.sp - 272).toNat + 272 = l.sp.toNat ∧ InFrame layout c (l.sp - 272) ∧
    top layout c + depth ≤ (l.sp - 272).toNat + 0x10000 := by
  have htop := top_eq layout c
  obtain ⟨hroom, hle⟩ := hfit
  rw [STACK_SIZE_toNat] at hroom
  have hsub : (l.sp - 272).toNat + 272 = l.sp.toNat := by
    have hlit : (272 : BitVec 64).toNat = 272 := rfl
    rw [BitVec.toNat_sub_of_le (BitVec.le_def.mpr (by omega))]
    omega
  refine ⟨hsub, ⟨?_, by omega⟩, by omega⟩
  rw [STACK_SIZE_toNat]
  omega

/-- After the handler, the frame still has the context of the interrupted code. -/
theorem robust_exit {l' : Cpu} {m' : Memory 64} (hsp : l'.sp = l.sp - 272)
    (hm : Above layout c (l.sp - 272) ((view l m).exec kernel_entry).mem m') :
    Robust (Rely layout c) (Guarantee layout c) (Resumed layout c l m) (instrs kernel_exit)
      l' m' := by
  obtain ⟨hsub, hin, -⟩ := room_of_fit hfit
  have hsplit : instrs kernel_exit = instrs kernel_exit.dropLast ++
      [op fun s => s.step (.addSp 272)] := rfl
  rw [hsplit]
  refine Robust.append ?_ (rely_refl c)
  have hview : InFrame layout c (view l' m').sp := by
    show InFrame layout c l'.sp
    rwa [hsp]
  apply robust_instrs (s := view l' m') (t := view l' m') framed_exit hview
    ⟨rfl, fun _ _ => rfl⟩
  intro r hr
  have hslot {k : ℕ} (hk : k < 33) : (view l' m').slot (8 * k) = context (view l m) k := by
    have hload := load64_storeWords (m := m) (l.sp - 272) (context (view l m)) (by decide) hk
    rw [← hload]
    show load64 m' (offset l'.sp (8 * k)) = _
    rw [hsp]
    apply load64_congr
    intro j hj
    rw [offset_offset]
    apply hm _ (own_offset hin (by omega))
    rw [BitVec.le_def, toNat_offset _ (by have := l.sp.isLt; omega)]
    omega
  have hcpu : cpu ((view l' m').exec kernel_exit) = l := by
    have hx : ((view l' m').exec kernel_exit).x = l.x := by
      ext1 k
      rw [x_exit, hslot (by omega), context, dif_pos k.isLt]
      rfl
    have hsys : ((view l' m').exec kernel_exit).sys = l.sys := by
      ext1 k
      cases k with
      | elr_el1 => exact (elr_exit _).trans (hslot (by decide))
      | spsr_el1 => exact (spsr_exit _).trans (hslot (by decide))
    have hback : ((view l' m').exec kernel_exit).sp = l.sp := by
      show l'.sp + 272 = l.sp
      rw [hsp, BitVec.sub_add_cancel]
    rw [cpu, hx, hsys, hback]
  intro m₁ hm₁
  refine ⟨fun a ha => absurd rfl ha, fun m₂ hm₂ => ⟨?_, ?_⟩⟩
  · have hlast : cpu ((view (cpu r) m₁).step (.addSp 272)) =
        cpu ((view l' m').exec kernel_exit) := by
      rw [exec_exit]
      exact congrArg (fun l : Cpu => Cpu.mk l.x (l.sp + 272) l.sys) hr.1.symm
    exact hlast.trans hcpu
  · intro a ha hle
    have hentry : ((view l m).exec kernel_entry).mem a = m a := by
      rw [mem_entry]
      apply storeWords_of_outside
      rintro k hk rfl
      rw [BitVec.le_def] at hle
      have hlt := l.sp.isLt
      change l.sp.toNat ≤ (offset (l.sp - 272) k).toNat at hle
      rw [toNat_offset _ (by omega)] at hle
      omega
    have hbase : l.sp - 272 ≤ a := by
      rw [BitVec.le_def] at hle ⊢
      omega
    have hrestores : ((view l' m').exec kernel_exit.dropLast).mem = m' := mem_exit (view l' m')
    calc m₂ a = m₁ a := hm₂ a ha
      _ = r.mem a := hm₁ a ha
      _ = m' a := by rw [← hr.2 a ha, hrestores]
      _ = ((view l m).exec kernel_entry).mem a := hm a ha hbase
      _ = m a := hentry

end Parts

theorem robust_el1_irq (h : Callee layout depth) (link : BitVec 64) {l : Cpu} {m : Memory 64}
    (hfit : Fit layout depth c l m) :
    Robust (Rely layout c) (Guarantee layout c) (Resumed layout c l m) (el1_irq h link) l m := by
  obtain ⟨hsub, hin, hroom⟩ := room_of_fit hfit
  have hentry : instrs kernel_entry =
      (op fun s => s.step (.subSp 272)) :: instrs kernel_entry.tail := rfl
  have hbody : (op fun s => s.setReg lr link) :: h.body.map op =
      ((fun s => s.setReg lr link) :: h.body).map op := rfl
  unfold el1_irq
  refine Robust.append (Robust.append ?_ (rely_refl c)) (rely_refl c)
  rw [hentry, hbody]
  intro m₁ hm₁
  refine ⟨fun a ha => absurd rfl ha, ?_⟩
  apply robust_instrs (s := (view l m).step (.subSp 272))
    (t := (view l m₁).step (.subSp 272)) framed_entry hin ⟨rfl, fun a ha => (hm₁ a ha).symm⟩
  intro r hr
  have hsp : (cpu r).sp = l.sp - 272 := (congrArg Cpu.sp hr.1).symm
  have hup : Above layout c (l.sp - 272) ((view l m).exec kernel_entry).mem r.mem :=
    fun a ha _ => (hr.2 a ha).symm
  have hsteps : ∀ f ∈ (fun s : State => s.setReg lr link) :: h.body, (∀ s, (f s).sp = s.sp) ∧
      ∀ s a, (f s).mem a ≠ s.mem a → Below s.sp depth a ∨ layout.place .start ≤ a := by
    intro f hf
    rcases List.mem_cons.mp hf with rfl | hf
    · exact ⟨fun _ => rfl, fun _ _ ha => absurd rfl ha⟩
    · exact ⟨h.sp f hf, h.writes f hf⟩
  have hle : (l.sp - 272).toNat ≤ top layout c := by
    have hle := hfit.2
    omega
  have hmid := robust_body (fun f hf => (hsteps f hf).1) (fun f hf => (hsteps f hf).2) hroom hle
    hsp hup
  exact hmid.weaken fun l' m' hend => robust_exit hfit hend.1 hend.2

end Vector

/-! ## Runs of the cores -/

section Runs

variable {layout : Layout} {depth : ℕ}

/-- What a core is given to do leaves it fit for an interrupt. -/
theorem robust_of_given (c : Fin 4) (fs : List CoreOp) (l : Cpu) (m : Memory 64)
    (hgiven : Given layout depth c fs) (hfit : Fit layout depth c l m) :
    Robust (Rely layout c) (Guarantee layout c) (Fit layout depth c) fs l m := by
  rcases hgiven with ⟨f, hf, rfl⟩ | ⟨h, link, rfl⟩
  · intro m₁ hm₁
    exact ⟨hf.writes (view l m₁), fun m₂ hm₂ => hf.fit (view l m₁) hfit⟩
  · refine (robust_el1_irq h link hfit).weaken ?_
    rintro l' m' ⟨rfl, -⟩
    exact hfit

/-- Whatever the cores do in between, once a core that takes an interrupt has had its turns, the
code that the interrupt broke into finds the registers of its core and the stack from the stack
pointer up as it left them. -/
theorem interrupts_transparent {w : Machine} (hidle : ∀ c, w.code c = [])
    (hfit : ∀ c, Fit layout depth c (w.locals c) w.shared)
    {before during : List (RelyGuarantee.Event (Fin 4) Cpu (Memory 64))}
    (hbefore : Keeps (Given layout depth) before) (hduring : Keeps (Given layout depth) during)
    {c : Fin 4} (h : Callee layout depth) (link : BitVec 64) (hfree : (w.run before).code c = [])
    (hnot : ∀ e ∈ during, ¬e.Starts c)
    (hturns : (el1_irq h link).length ≤ turns c during) :
    Resumed layout c ((w.run before).locals c) (w.run before).shared
      ((((w.run before).step (.start c (el1_irq h link))).run during).locals c)
      (((w.run before).step (.start c (el1_irq h link))).run during).shared := by
  have hstart : ∀ d, Kept (Rely layout) (Guarantee layout) w d (Fit layout depth d) := by
    intro d
    unfold Kept
    rw [hidle d]
    exact fun _ _ => hfit d
  have hkept := kept_run rely_refl (fun d e hde => rely_of_guarantee hde) robust_of_given hstart
    hbefore
  have htaken : ∀ d, Kept (Rely layout) (Guarantee layout)
      ((w.run before).step (.start c (el1_irq h link))) d (Fit layout depth d) :=
    kept_step rely_refl (fun d e hde => rely_of_guarantee hde) robust_of_given hkept
      fun d fs heq => by
        cases heq
        exact Or.inr ⟨h, link, rfl⟩
  have hirq : Kept (Rely layout) (Guarantee layout)
      ((w.run before).step (.start c (el1_irq h link))) c
      (Resumed layout c ((w.run before).locals c) (w.run before).shared) := by
    unfold Kept
    rw [World.step_start_nil hfree]
    simpa using robust_el1_irq h link ((hkept c).post (rely_refl c) hfree)
  have hdone : (((w.run before).step (.start c (el1_irq h link))).run during).code c = [] := by
    rw [World.code_run hnot, World.step_start_nil hfree]
    simpa using hturns
  exact (kept_until rely_refl (fun d e hde => rely_of_guarantee hde) robust_of_given htaken
    hduring hirq hnot).post (rely_refl c) hdone

/-- An image of one page of code. -/
def somewhere : Layout where
  place
    | .start => 0x80000
    | .from_el3 => 0x80100
    | .from_el2 => 0x80200
    | .el1_entry => 0x80300
    | .clear => 0x80400
    | .cleared => 0x80500
    | .secondary => 0x80600
    | .park => 0x80700
  found
    | 0x80000 => some .start
    | 0x80100 => some .from_el3
    | 0x80200 => some .from_el2
    | 0x80300 => some .el1_entry
    | 0x80400 => some .clear
    | 0x80500 => some .cleared
    | 0x80600 => some .secondary
    | 0x80700 => some .park
    | _ => none
  found_place l := by cases l <;> rfl
  bss_start := 0x81000
  bss_end := 0x82000
  start_aligned := rfl
  end_aligned := rfl
  ordered := by decide
  start_first := rfl

/-- A handler that counts in the word at the start of `.bss`. -/
def counting (depth : ℕ) : Callee somewhere depth where
  body := [fun s => { s with mem := Function.update s.mem 0x81000 (s.mem 0x81000 + 1) }]
  sp f hf s := by
    rw [List.mem_singleton.mp hf]
  writes f hf s a ha := by
    rw [List.mem_singleton.mp hf] at ha
    have heq : a = 0x81000 := by
      by_contra hne
      exact ha (Function.update_of_ne hne _ _)
    right
    rw [heq]
    decide

/-- Two cores count in the same word, their instructions one after the other. -/
theorem interrupts_transparent_two :
    let w : Machine := ⟨fun c => ⟨fun _ => 7, 0x80000 - c.val * 0x10000, fun _ => 0⟩, fun _ => 0,
      fun _ => []⟩
    let irq := el1_irq (counting 16) 0
    let v := ((w.run [.start 1 irq]).step (.start 0 irq)).run
      (List.replicate 42 [.op 1, .op 0]).flatten
    Resumed somewhere 0 ((w.run [.start 1 irq]).locals 0) (w.run [.start 1 irq]).shared
      (v.locals 0) v.shared := by
  have hturns {e : RelyGuarantee.Event (Fin 4) Cpu (Memory 64)}
      (he : e ∈ (List.replicate 42 [.op 1, .op 0]).flatten) : e = .op 1 ∨ e = .op 0 := by
    obtain ⟨es, hes, he⟩ := List.mem_flatten.mp he
    rw [(List.mem_replicate.mp hes).2] at he
    simpa using he
  apply interrupts_transparent
  · exact fun _ => rfl
  · intro c
    fin_cases c <;> exact ⟨by decide, by decide⟩
  · intro i fs hmem
    cases List.mem_singleton.mp hmem
    exact Or.inr ⟨counting 16, 0, rfl⟩
  · intro i fs hmem
    rcases hturns hmem with heq | heq <;> cases heq
  · rfl
  · intro e he
    rcases hturns he with rfl | rfl <;> exact id
  · decide

end Runs

end Bcm2837.Cores
