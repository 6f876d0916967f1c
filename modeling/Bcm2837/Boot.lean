import Bcm2837.ExceptionLevels

/-!
# The entry of the image

Each core that arrives at `_start` takes a stack of its own and drops to EL1, from whichever
level it has been started at. Core 0 clears `.bss` and goes on to `kmain`, the others go to
`ksecondary`.
-/
namespace Bcm2837.Boot

open ByteMemory ExceptionLevels
open ExceptionLevels.State (Reaches)

inductive Label
  | start | from_el3 | from_el2 | el1_entry | clear | cleared | secondary | park
  deriving DecidableEq

inductive Callee
  | kmain | ksecondary
  deriving DecidableEq

abbrev State := ExceptionLevels.State Label Callee

abbrev Code := List (Instr Label Callee)

def STACK_SIZE : BitVec 64 := 0x10000

/-- What the linker places: the labels, all different, and the bounds of `.bss`, both
aligned to 16 bytes. -/
structure Layout where
  place : Label → BitVec 64
  found : BitVec 64 → Option Label
  found_place : ∀ l, found (place l) = some l
  bss_start : BitVec 64
  bss_end : BitVec 64
  start_aligned : bss_start.toNat % 16 = 0
  end_aligned : bss_end.toNat % 16 = 0
  ordered : bss_start ≤ bss_end
  start_first : place .start = 0x80000

def park : Code := [.wfe, .b .park]

def secondary : Code := .bl .ksecondary :: park

def cleared : Code := .bl .kmain :: .b .park :: secondary

/-- `x0` runs up to `x1`. -/
def clear : Code := .cmp 0 1 :: .bHs .cleared :: .strZero 0 :: .b .clear :: cleared

def el1_entry (layout : Layout) : Code :=
  .movSp 22 :: .cbnz 19 .secondary :: .ldr 0 layout.bss_start :: .ldr 1 layout.bss_end :: clear

/-- EL1 may use the physical counter and timer, and is AArch64. -/
def from_el2 (layout : Layout) : Code :=
  .mrs 0 .cnthctl_el2 :: .orr 0 0 (1 <<< 0) :: .orr 0 0 (1 <<< 1) :: .msr .cnthctl_el2 0 ::
    .msrZero .cntvoff_el2 :: .mov 0 (1 <<< 31) :: .msr .hcr_el2 0 :: .mov 0 0x3c5 ::
    .msr .spsr_el2 0 :: .msr .sp_el1 22 :: .adr 0 .el1_entry :: .msr .elr_el2 0 :: .eret ::
    el1_entry layout

def from_el3 (layout : Layout) : Code :=
  .mrs 0 .scr_el3 :: .orr 0 0 (1 <<< 10) :: .orr 0 0 (1 <<< 0) :: .msr .scr_el3 0 ::
    .mov 0 0x3c9 :: .msr .spsr_el3 0 :: .adr 0 .from_el2 :: .msr .elr_el3 0 :: .eret ::
    from_el2 layout

/-- `x19` is the core, `x22` the top of its stack. -/
def start (layout : Layout) : Code :=
  .mrs 19 .mpidr_el1 :: .and 19 19 0xFF :: .mov 20 STACK_SIZE :: .mul 21 19 20 ::
    .ldr 22 (layout.place .start) :: .sub 22 22 21 :: .movSp 22 ::
    .mrs 0 .currentEL :: .lsr 0 0 2 :: .cmpImm 0 3 :: .bEq .from_el3 :: .cmpImm 0 2 ::
    .bEq .from_el2 :: .b .el1_entry :: from_el3 layout

def image (layout : Layout) : Image Label Callee where
  code
    | .start => start layout
    | .from_el3 => from_el3 layout
    | .from_el2 => from_el2 layout
    | .el1_entry => el1_entry layout
    | .clear => clear
    | .cleared => cleared
    | .secondary => secondary
    | .park => park
  place := layout.place
  found := layout.found
  found_place := layout.found_place

/-- The number of a core, as `mpidr_el1` has it. -/
def core (s : State) : BitVec 64 := s.sys .mpidr_el1 &&& 0xFF

/-- The top of a core's stack. -/
def stackTop (layout : Layout) (core : BitVec 64) : BitVec 64 :=
  layout.place .start - core * STACK_SIZE

section Segments

variable (layout : Layout) (s : State)

/-- The level is still to be looked at. -/
def dispatch (layout : Layout) : Code := (start layout).drop 7

/-- The state in which the core has its stack. -/
def stacked : State :=
  { s with
    rest := dispatch layout
    x := Function.update (Function.update (Function.update (Function.update s.x
      19 (core s)) 20 STACK_SIZE) 21 (core s * STACK_SIZE)) 22 (stackTop layout (core s))
    sp := Function.update s.sp s.stack (stackTop layout (core s)) }

theorem run_start (hrest : s.rest = start layout) :
    ExceptionLevels.State.run (image layout) 7 s = some (stacked layout s) := by
  cases hlevel : s.level
  all_goals simp [hrest, start, dispatch, stacked, hlevel, core, stackTop, image, State.stack]

theorem run_dispatch_el1 (hrest : s.rest = dispatch layout) (hlevel : s.level = .el1) :
    ExceptionLevels.State.run (image layout) 7 s = some { s with
      rest := el1_entry layout
      zero := false
      carry := false
      x := Function.update s.x 0 1 } := by
  simp [hrest, dispatch, start, hlevel, image]

theorem run_dispatch_el2 (hrest : s.rest = dispatch layout) (hlevel : s.level = .el2) :
    ExceptionLevels.State.run (image layout) 6 s = some { s with
      rest := from_el2 layout
      zero := true
      carry := true
      x := Function.update s.x 0 2 } := by
  simp [hrest, dispatch, start, hlevel, image]

theorem run_dispatch_el3 (hrest : s.rest = dispatch layout) (hlevel : s.level = .el3) :
    ExceptionLevels.State.run (image layout) 4 s = some { s with
      rest := from_el3 layout
      zero := true
      carry := true
      x := Function.update s.x 0 3 } := by
  simp [hrest, dispatch, start, hlevel, image]

/-- The registers with which EL3 returns to EL2. -/
def sysEl3 : SysReg → BitVec 64 :=
  Function.update (Function.update (Function.update s.sys
    .scr_el3 (s.sys .scr_el3 ||| 1 <<< 10 ||| 1 <<< 0)) .spsr_el3 0x3c9)
    .elr_el3 (layout.place .from_el2)

theorem run_from_el3 (hrest : s.rest = from_el3 layout) (hlevel : s.level = .el3) :
    ExceptionLevels.State.run (image layout) 8 s = some { s with
      rest := .eret :: from_el2 layout
      x := Function.update s.x 0 (layout.place .from_el2)
      sys := sysEl3 layout s } := by
  simp [hrest, from_el3, hlevel, image, sysEl3]

/-- EL3 returns to EL2 with the exceptions masked. -/
theorem run_eret_el3 {rest : Code} (hrest : s.rest = .eret :: rest) (hlevel : s.level = .el3)
    (hspsr : s.sys .spsr_el3 = 0x3c9) (helr : s.sys .elr_el3 = layout.place .from_el2)
    (hrw : (s.sys .scr_el3).getLsbD 10 = true) (hns : (s.sys .scr_el3).getLsbD 0 = true) :
    ExceptionLevels.State.run (image layout) 1 s = some { s with
      rest := from_el2 layout
      level := .el2
      spx := true
      daif := 0xF
      zero := false
      carry := false } := by
  have htarget : ExceptionLevels.State.target 0x3c9 = some (.el2, true) := by decide
  have hmay : ({ s with rest := rest } : State).mayReturn .el3 .el2 = true := by
    rw [State.mayReturn, hrw, hns, Bool.and_self]
  have heret := State.eret_eq { s with rest := rest } htarget
    ((image layout).found_place .from_el2) (hlevel ▸ hmay)
  simp only [State.run, State.step, hrest, State.exec, hlevel, hspsr, helr]
  rw [show layout.place .from_el2 = (image layout).place .from_el2 from rfl]
  rw [← hlevel, heret]
  rfl

/-- The registers with which EL2 returns to EL1. -/
def sysEl2 : SysReg → BitVec 64 :=
  Function.update (Function.update (Function.update (Function.update (Function.update s.sys
    .cnthctl_el2 (s.sys .cnthctl_el2 ||| 1 <<< 0 ||| 1 <<< 1)) .cntvoff_el2 0)
    .hcr_el2 (1 <<< 31)) .spsr_el2 0x3c5) .elr_el2 (layout.place .el1_entry)

theorem run_from_el2 (hrest : s.rest = from_el2 layout) (hlevel : s.level = .el2) :
    ExceptionLevels.State.run (image layout) 12 s = some { s with
      rest := .eret :: el1_entry layout
      x := Function.update s.x 0 (layout.place .el1_entry)
      sp := Function.update s.sp (some .el1) (s.x 22)
      sys := sysEl2 layout s } := by
  simp [hrest, from_el2, hlevel, image, sysEl2]

/-- EL2 returns to EL1 with the exceptions masked. -/
theorem run_eret_el2 {rest : Code} (hrest : s.rest = .eret :: rest) (hlevel : s.level = .el2)
    (hspsr : s.sys .spsr_el2 = 0x3c5) (helr : s.sys .elr_el2 = layout.place .el1_entry)
    (hrw : (s.sys .hcr_el2).getLsbD 31 = true) :
    ExceptionLevels.State.run (image layout) 1 s = some { s with
      rest := el1_entry layout
      level := .el1
      spx := true
      daif := 0xF
      zero := false
      carry := false } := by
  have htarget : ExceptionLevels.State.target 0x3c5 = some (.el1, true) := by decide
  have hmay : ({ s with rest := rest } : State).mayReturn .el2 .el1 = true := hrw
  have heret := State.eret_eq { s with rest := rest } htarget
    ((image layout).found_place .el1_entry) (hlevel ▸ hmay)
  simp only [State.run, State.step, hrest, State.exec, hlevel, hspsr, helr]
  rw [show layout.place .el1_entry = (image layout).place .el1_entry from rfl]
  rw [← hlevel, heret]
  rfl

theorem run_el1_entry (hrest : s.rest = el1_entry layout) (hcore : s.x 19 = 0) :
    ExceptionLevels.State.run (image layout) 4 s = some { s with
      rest := clear
      x := Function.update (Function.update s.x 0 layout.bss_start) 1 layout.bss_end
      sp := Function.update s.sp s.stack (s.x 22) } := by
  -- as `simp` writes the numerals
  have hcore : s.x 19#5 = 0#64 := hcore
  simp [hrest, el1_entry, hcore, State.stack]

theorem run_el1_entry_secondary (hrest : s.rest = el1_entry layout) (hcore : s.x 19 ≠ 0) :
    ExceptionLevels.State.run (image layout) 2 s = some { s with
      rest := secondary
      sp := Function.update s.sp s.stack (s.x 22) } := by
  have hcore : ¬s.x 19#5 = 0#64 := hcore
  simp [hrest, el1_entry, hcore, image, State.stack]

/-- One word is cleared. -/
theorem run_clear (hrest : s.rest = clear) (hlt : s.x 0 < s.x 1)
    (haligned : (s.x 0).toNat % 8 = 0) :
    ExceptionLevels.State.run (image layout) 4 s = some { s with
      rest := clear
      zero := false
      carry := false
      x := Function.update s.x 0 (s.x 0 + 8)
      mem := store64 s.mem (s.x 0) 0 } := by
  have hne : s.x 0#5 ≠ s.x 1#5 := BitVec.ne_of_lt hlt
  have hnot : ¬s.x 1#5 ≤ s.x 0#5 := BitVec.not_le.mpr hlt
  have haligned : (s.x 0#5).toNat % 8 = 0 := haligned
  simp [hrest, clear, hnot, hne, haligned, image]

theorem run_clear_end (hrest : s.rest = clear) (heq : s.x 0 = s.x 1) :
    ExceptionLevels.State.run (image layout) 2 s = some { s with
      rest := cleared
      zero := true
      carry := true } := by
  have heq : s.x 0#5 = s.x 1#5 := heq
  simp [hrest, clear, heq, image]

end Segments

/-! ## The way down to EL1 -/

section Entry

variable (layout : Layout)

/-- `t` is at EL1 with the core and the stack top of `s`. A core that came from above has its
exceptions masked and may use the physical counter and timer. -/
structure Lowered (s t : State) : Prop where
  rest : t.rest = el1_entry layout
  level : t.level = .el1
  core : t.x 19 = s.x 19
  top : t.x 22 = s.x 22
  mem : t.mem = s.mem
  mpidr : t.sys .mpidr_el1 = s.sys .mpidr_el1
  masked : t.spx = true ∧ t.daif = 0xF
  counter : (t.sys .cnthctl_el2).getLsbD 0 = true ∧ (t.sys .cnthctl_el2).getLsbD 1 = true
  virtual : t.sys .cntvoff_el2 = 0
  aarch64 : t.sys .hcr_el2 = 1 <<< 31

theorem from_el2_lowers (s : State) (hrest : s.rest = from_el2 layout) (hlevel : s.level = .el2) :
    ∃ t, Reaches (image layout) s t ∧ Lowered layout s t := by
  have hset := run_from_el2 layout s hrest hlevel
  have hreturn := run_eret_el2 layout { s with
      rest := .eret :: el1_entry layout
      x := Function.update s.x 0 (layout.place .el1_entry)
      sp := Function.update s.sp (some .el1) (s.x 22)
      sys := sysEl2 layout s } rfl hlevel (by simp [sysEl2]) (by simp [sysEl2])
    (by simp [sysEl2])
  refine ⟨_, Reaches.trans ⟨_, hset⟩ ⟨_, hreturn⟩, ?_⟩
  constructor <;> simp [sysEl2]

theorem from_el3_lowers (s : State) (hrest : s.rest = from_el3 layout) (hlevel : s.level = .el3) :
    ∃ t, Reaches (image layout) s t ∧ Lowered layout s t := by
  have hset := run_from_el3 layout s hrest hlevel
  have hreturn := run_eret_el3 layout { s with
      rest := .eret :: from_el2 layout
      x := Function.update s.x 0 (layout.place .from_el2)
      sys := sysEl3 layout s } rfl hlevel (by simp [sysEl3]) (by simp [sysEl3])
    (by simp [sysEl3]) (by simp [sysEl3])
  obtain ⟨t, hreach, ht⟩ := from_el2_lowers layout { s with
      rest := from_el2 layout
      level := .el2
      spx := true
      daif := 0xF
      zero := false
      carry := false
      x := Function.update s.x 0 (layout.place .from_el2)
      sys := sysEl3 layout s } rfl rfl
  have hbefore := Reaches.trans ⟨_, hset⟩ ⟨_, hreturn⟩
  refine ⟨t, hbefore.trans hreach, ?_⟩
  exact {
    rest := ht.rest
    level := ht.level
    core := by simpa using ht.core
    top := by simpa using ht.top
    mem := ht.mem
    mpidr := by simpa [sysEl3] using ht.mpidr
    masked := ht.masked
    counter := ht.counter
    virtual := ht.virtual
    aarch64 := ht.aarch64 }

/-- What the kernel finds at EL1. A core that was started there keeps its masks and system
registers. -/
structure Ready (s t : State) : Prop where
  level : t.level = .el1
  stack : t.sp t.stack = stackTop layout (core s)
  core : core t = core s
  masked : s.level ≠ .el1 → t.spx = true ∧ t.daif = 0xF
  counter : s.level ≠ .el1 →
    (t.sys .cnthctl_el2).getLsbD 0 = true ∧ (t.sys .cnthctl_el2).getLsbD 1 = true
  virtual : s.level ≠ .el1 → t.sys .cntvoff_el2 = 0
  aarch64 : s.level ≠ .el1 → t.sys .hcr_el2 = 1 <<< 31
  given : s.level = .el1 → t.spx = s.spx ∧ t.daif = s.daif ∧ t.sys = s.sys

theorem Ready.congr {s t r : State} (ht : Ready layout s t)
    (h : (r.level, r.spx, r.daif, r.sp, r.sys) = (t.level, t.spx, t.daif, t.sp, t.sys)) :
    Ready layout s r := by
  obtain ⟨_, rlevel, rspx, rdaif, _, _, _, rsp, rsys, _⟩ := r
  obtain ⟨_, tlevel, tspx, tdaif, _, _, _, tsp, tsys, _⟩ := t
  simp only [Prod.mk.injEq] at h
  obtain ⟨rfl, rfl, rfl, rfl, rfl⟩ := h
  exact ⟨ht.level, ht.stack, ht.core, ht.masked, ht.counter, ht.virtual, ht.aarch64, ht.given⟩

/-- A core that is given the address of the image. -/
def started (s : State) : State := { s with rest := start layout }

/-- At `el1_entry` everything but the stack pointer is as the kernel finds it. -/
structure Entered (s t : State) : Prop where
  rest : t.rest = el1_entry layout
  number : t.x 19 = core s
  top : t.x 22 = stackTop layout (core s)
  mem : t.mem = s.mem
  ready : Ready layout s { t with sp := Function.update t.sp t.stack (stackTop layout (core s)) }

theorem ready_of_lowered {s s' t : State} (ht : Lowered layout s' t) (hlevel : s.level ≠ .el1)
    (hmpidr : s'.sys .mpidr_el1 = s.sys .mpidr_el1) :
    Ready layout s { t with
      sp := Function.update t.sp t.stack (stackTop layout (core s)) } where
  level := ht.level
  stack := Function.update_self _ _ _
  core := by
    show t.sys .mpidr_el1 &&& 0xFF = core s
    rw [ht.mpidr, hmpidr]
    rfl
  masked _ := ht.masked
  counter _ := ht.counter
  virtual _ := ht.virtual
  aarch64 _ := ht.aarch64
  given h := absurd h hlevel

/-- From each level a core comes to `el1_entry`. -/
theorem start_enters (s : State) :
    ∃ t, Reaches (image layout) (started layout s) t ∧ Entered layout s t := by
  have hstart : Reaches (image layout) (started layout s) (stacked layout (started layout s)) :=
    ⟨7, run_start layout (started layout s) rfl⟩
  cases hlevel : s.level with
  | el1 =>
    have hdispatch := run_dispatch_el1 layout (stacked layout (started layout s)) rfl hlevel
    refine ⟨_, hstart.trans ⟨_, hdispatch⟩, ?_⟩
    exact {
      rest := rfl
      number := by simp [stacked, core, started]
      top := by simp [stacked, core, started]
      mem := rfl
      ready := {
        level := hlevel
        stack := Function.update_self _ _ _
        core := rfl
        masked := fun h => absurd hlevel h
        counter := fun h => absurd hlevel h
        virtual := fun h => absurd hlevel h
        aarch64 := fun h => absurd hlevel h
        given := fun _ => ⟨rfl, rfl, rfl⟩ } }
  | el2 =>
    have hdispatch := run_dispatch_el2 layout (stacked layout (started layout s)) rfl hlevel
    obtain ⟨t, hreach, ht⟩ := from_el2_lowers layout { stacked layout (started layout s) with
      rest := from_el2 layout
      zero := true
      carry := true
      x := Function.update (stacked layout (started layout s)).x 0 2 } rfl hlevel
    refine ⟨t, (hstart.trans ⟨_, hdispatch⟩).trans hreach, ?_⟩
    exact {
      rest := ht.rest
      number := by rw [ht.core]; simp [stacked, core, started]
      top := by rw [ht.top]; simp [stacked, core, started]
      mem := ht.mem
      ready := ready_of_lowered layout ht (by simp [hlevel]) rfl }
  | el3 =>
    have hdispatch := run_dispatch_el3 layout (stacked layout (started layout s)) rfl hlevel
    obtain ⟨t, hreach, ht⟩ := from_el3_lowers layout { stacked layout (started layout s) with
      rest := from_el3 layout
      zero := true
      carry := true
      x := Function.update (stacked layout (started layout s)).x 0 3 } rfl hlevel
    refine ⟨t, (hstart.trans ⟨_, hdispatch⟩).trans hreach, ?_⟩
    exact {
      rest := ht.rest
      number := by rw [ht.core]; simp [stacked, core, started]
      top := by rw [ht.top]; simp [stacked, core, started]
      mem := ht.mem
      ready := ready_of_lowered layout ht (by simp [hlevel]) rfl }

/-! ## Clearing `.bss` -/

/-- What the loop has done after `n` words: `t` is `s` with the words from `x0` on cleared. -/
structure Clearing (s t : State) (n : ℕ) : Prop where
  rest : t.rest = clear
  next : t.x 0 = offset (s.x 0) (8 * n)
  last : t.x 1 = s.x 1
  mem : t.mem = storeWords s.mem (s.x 0) (fun _ => 0) n
  same : (t.level, t.spx, t.daif, t.sp, t.sys) = (s.level, s.spx, s.daif, s.sp, s.sys)

theorem clear_step {s t : State} {n : ℕ} (ht : Clearing s t n)
    (hlt : (s.x 0).toNat + 8 * n < (s.x 1).toNat) (haligned : (s.x 0).toNat % 8 = 0) :
    ∃ t', Reaches (image layout) t t' ∧ Clearing s t' (n + 1) := by
  have hbound := (s.x 1).isLt
  have hnext : (t.x 0).toNat = (s.x 0).toNat + 8 * n := by
    rw [ht.next, toNat_offset _ (by omega)]
  have hrun := run_clear layout t ht.rest (BitVec.lt_def.mpr (by rw [hnext, ht.last]; exact hlt))
    (by omega)
  refine ⟨_, ⟨4, hrun⟩, ?_⟩
  exact {
    rest := rfl
    next := by
      show Function.update t.x 0 (t.x 0 + 8) 0 = _
      rw [Function.update_self, ht.next]
      exact offset_offset (s.x 0) (8 * n) 8
    last := by simpa using ht.last
    mem := by
      show store64 t.mem (t.x 0) 0 = _
      rw [ht.mem, ht.next, storeWords]
    same := ht.same }

/-- The loop clears every word up to `x1`, and stops. -/
theorem clear_reaches {s : State} {n : ℕ} (hrest : s.rest = clear)
    (hn : (s.x 0).toNat + 8 * n = (s.x 1).toNat) (haligned : (s.x 0).toNat % 8 = 0) :
    ∃ t, Reaches (image layout) s t ∧ t.rest = cleared ∧
      t.mem = storeWords s.mem (s.x 0) (fun _ => 0) n ∧
      (t.level, t.spx, t.daif, t.sp, t.sys) = (s.level, s.spx, s.daif, s.sp, s.sys) := by
  have hloop : ∀ k ≤ n, ∃ t, Reaches (image layout) s t ∧ Clearing s t k := by
    intro k hk
    induction k with
    | zero => exact ⟨s, .refl s _, hrest, (offset_zero _).symm, rfl, rfl, rfl⟩
    | succ k ih =>
      obtain ⟨t, hreach, ht⟩ := ih (by omega)
      obtain ⟨t', hstep, ht'⟩ := clear_step layout ht (by omega) haligned
      exact ⟨t', hreach.trans hstep, ht'⟩
  obtain ⟨t, hreach, ht⟩ := hloop n le_rfl
  have hend : t.x 0 = t.x 1 := by
    have hbound := (s.x 1).isLt
    rw [ht.next, ht.last]
    apply BitVec.eq_of_toNat_eq
    rw [toNat_offset _ (by omega), hn]
  exact ⟨_, hreach.trans ⟨2, run_clear_end layout t ht.rest hend⟩, rfl, ht.mem, ht.same⟩

/-- The bytes of `.bss` are zero and no others have changed. -/
def Zeroed (m m' : Memory 64) : Prop :=
  (∀ a, layout.bss_start ≤ a → a < layout.bss_end → m' a = 0) ∧
    ∀ a, ¬(layout.bss_start ≤ a ∧ a < layout.bss_end) → m' a = m a

/-- The words of `.bss`. -/
def Layout.words : ℕ := (layout.bss_end.toNat - layout.bss_start.toNat) / 8

theorem Layout.words_eq : layout.bss_start.toNat + 8 * layout.words = layout.bss_end.toNat := by
  have hstart := layout.start_aligned
  have hend := layout.end_aligned
  have hle := BitVec.le_def.mp layout.ordered
  unfold Layout.words
  omega

theorem zeroed_storeWords (m : Memory 64) :
    Zeroed layout m (storeWords m layout.bss_start (fun _ => 0) layout.words) := by
  have hwords := layout.words_eq
  have hbound := layout.bss_end.isLt
  constructor
  · intro a hle hlt
    rw [BitVec.le_def] at hle
    rw [BitVec.lt_def] at hlt
    have hdiff : (a - layout.bss_start).toNat = a.toNat - layout.bss_start.toNat := by
      rw [BitVec.toNat_sub]
      omega
    rw [eq_offset layout.bss_start a]
    exact storeWords_zero m _ (by omega) (by omega)
  · intro a hout
    apply storeWords_of_outside
    rintro i hi rfl
    apply hout
    rw [BitVec.le_def, BitVec.lt_def, toNat_offset _ (by omega)]
    omega

/-- A core that arrives at `_start`, at whichever level, comes to the kernel at EL1 with a stack
of its own. Core 0 finds `.bss` zero, and no core has written anything else. -/
theorem start_reaches_kernel (s : State) :
    (core s = 0 → ∃ t, Reaches (image layout) (started layout s) t ∧
      t.rest = .bl .kmain :: .b .park :: secondary ∧ Ready layout s t ∧
        Zeroed layout s.mem t.mem) ∧
    (core s ≠ 0 → ∃ t, Reaches (image layout) (started layout s) t ∧
      t.rest = .bl .ksecondary :: park ∧ Ready layout s t ∧ t.mem = s.mem) := by
  obtain ⟨t, hreach, ht⟩ := start_enters layout s
  constructor
  · intro hcore
    have hentry := run_el1_entry layout t ht.rest (ht.number.trans hcore)
    obtain ⟨r, hclear, hrest, hmem, hsame⟩ := clear_reaches layout (s := { t with
        rest := clear
        x := Function.update (Function.update t.x 0 layout.bss_start) 1 layout.bss_end
        sp := Function.update t.sp t.stack (t.x 22) }) (n := layout.words) rfl
      layout.words_eq (by
        have haligned := layout.start_aligned
        show layout.bss_start.toNat % 8 = 0
        omega)
    refine ⟨r, (hreach.trans ⟨4, hentry⟩).trans hclear, hrest, ?_, ?_⟩
    · apply ht.ready.congr
      rw [hsame, ht.top]
    · rw [hmem]
      show Zeroed layout s.mem (storeWords t.mem layout.bss_start (fun _ => 0) layout.words)
      rw [ht.mem]
      exact zeroed_storeWords layout s.mem
  · intro hcore
    have hentry := run_el1_entry_secondary layout t ht.rest fun h => hcore (ht.number ▸ h)
    refine ⟨_, hreach.trans ⟨2, hentry⟩, rfl, ?_, ht.mem⟩
    apply ht.ready.congr
    rw [ht.top]

end Entry

end Bcm2837.Boot
