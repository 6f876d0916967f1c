import Bcm2837.BlockPlacement
import Bcm2837.Ownership

/-!
# Descriptors and mappings

A process on Linux holds device mappings and I2C devices in objects that are made, moved and
destroyed in any order, next to files and mappings of its own. The kernel decides which calls
succeed. Whatever it decides, every descriptor and every mapping is given back once.
-/
namespace Bcm2837.Handles

open Ownership (Balanced)

/-! ## The kernel -/

def MAP_FAILED : Pointer := BitVec.allOnes 64

/-- What the kernel keeps for the process. -/
structure Kernel where
  fds : List ℤ
  /-- Address and length of each mapping. -/
  maps : List (Pointer × Pointer)
  /-- Calls so far. -/
  calls : ℕ
  /-- Calls that were to give back what the process does not have. -/
  errors : ℕ

/-- The answers of the kernel to `open` and `mmap`. -/
structure Policy where
  pageSize : Pointer
  openFd : Kernel → String → Option ℤ
  mapAt : Kernel → ℤ → Pointer → Pointer → Option Pointer
  open_new : ∀ {k dev fd}, openFd k dev = some fd → 0 ≤ fd ∧ fd ∉ k.fds
  map_new : ∀ {k fd len off a}, mapAt k fd len off = some a →
    a ≠ 0 ∧ a ≠ MAP_FAILED ∧ ∀ n, (a, n) ∉ k.maps

namespace Policy

/-- A descriptor above the open ones. -/
def unused (fds : List ℤ) : ℤ := fds.foldr max 0 + 1

theorem unused_fresh (fds : List ℤ) : 0 ≤ unused fds ∧ unused fds ∉ fds := by
  have hmax : 0 ≤ fds.foldr max 0 ∧ ∀ fd ∈ fds, fd ≤ fds.foldr max 0 := by
    induction fds with
    | nil => simp
    | cons fd fds ih =>
      simp only [List.foldr_cons, List.mem_cons, forall_eq_or_imp, le_max_left, true_and]
      exact ⟨ih.1.trans (le_max_right _ _), fun g hg => (ih.2 g hg).trans (le_max_right _ _)⟩
  unfold unused
  exact ⟨by omega, fun hmem => absurd (hmax.2 _ hmem) (by omega)⟩

/-- The end of the mapping that ends last. -/
def top (maps : List (Pointer × Pointer)) : ℕ :=
  maps.foldr (fun m n => max (m.1.toNat + m.2.toNat) n) 0x7EFFFFFFF000

theorem le_top {maps : List (Pointer × Pointer)} {m : Pointer × Pointer} (hm : m ∈ maps) :
    m.1.toNat ≤ top maps := by
  induction maps with
  | nil => cases hm
  | cons m' maps ih =>
    rw [top, List.foldr_cons, ← top]
    rcases List.mem_cons.mp hm with rfl | hm
    · omega
    · exact (ih hm).trans (le_max_right _ _)

/-- The first page behind all mappings, if it belongs to the process. -/
def nextMap (maps : List (Pointer × Pointer)) : Option Pointer :=
  let page := (top maps + 0x1000) / 0x1000 * 0x1000
  if page < 0x800000000000 then some (BitVec.ofNat 64 page) else none

theorem nextMap_new {maps : List (Pointer × Pointer)} {a : Pointer}
    (h : nextMap maps = some a) : a ≠ 0 ∧ a ≠ MAP_FAILED ∧ ∀ n, (a, n) ∉ maps := by
  have hfailed : MAP_FAILED.toNat = 2 ^ 64 - 1 := rfl
  unfold nextMap at h
  dsimp only at h
  split_ifs at h with hroom
  have ha : a.toNat = (top maps + 0x1000) / 0x1000 * 0x1000 := by
    rw [← Option.some.inj h, BitVec.toNat_ofNat, Nat.mod_eq_of_lt (hroom.trans (by decide))]
  refine ⟨fun hzero => ?_, fun heq => ?_, fun n hmem => ?_⟩
  · have hnat : a.toNat = 0 := by rw [hzero]; rfl
    omega
  · rw [heq, hfailed] at ha
    omega
  · have hle : a.toNat ≤ top maps := le_top hmem
    omega

end Policy

/-- A kernel that puts each mapping behind the ones there are. -/
instance : Inhabited Policy where
  default := {
    pageSize := 0x1000
    openFd k _ := some (Policy.unused k.fds)
    mapAt k _ _ _ := Policy.nextMap k.maps
    open_new {k _ _} h := Option.some.inj h ▸ Policy.unused_fresh k.fds
    map_new h := Policy.nextMap_new h }

namespace Kernel

variable (P : Policy) (k : Kernel)

def «open» (dev : String) : ℤ × Kernel :=
  match P.openFd k dev with
  | some fd => (fd, { k with fds := fd :: k.fds, calls := k.calls + 1 })
  | none => (-1, { k with calls := k.calls + 1 })

def close (fd : ℤ) : Kernel where
  fds := k.fds.filter (· ≠ fd)
  maps := k.maps
  calls := k.calls + 1
  errors := if fd ∈ k.fds then k.errors else k.errors + 1

def mmap (fd : ℤ) (length off : Pointer) : Pointer × Kernel :=
  match P.mapAt k fd length off with
  | some a => (a, { k with maps := (a, length) :: k.maps, calls := k.calls + 1 })
  | none => (MAP_FAILED, { k with calls := k.calls + 1 })

def munmap (m : Pointer × Pointer) : Kernel where
  fds := k.fds
  maps := k.maps.filter (· ≠ m)
  calls := k.calls + 1
  errors := if m ∈ k.maps then k.errors else k.errors + 1

end Kernel

/-! ## The objects -/

/-- `MMIO` of `mmio.hpp`, also as the first member of a `Mapped`. -/
structure MMIO where
  m_fd : ℤ
  m_map : Pointer
  m_offset : Pointer
  m_length : Pointer

namespace MMIO

/-- The default member initializers. -/
def initial : MMIO := ⟨-1, MAP_FAILED, 0, 0⟩

/-- The constructor; one that throws leaves no object behind. -/
def new (P : Policy) (phys length : Pointer) (dev : String) (k : Kernel) :
    Except String MMIO × Kernel :=
  let (m_fd, k) := k.«open» P dev
  if m_fd < 0 then (.error ("bcm2837 MMIO: open(" ++ dev ++ ") failed"), k)
  else
    let page_base := phys &&& ~~~(P.pageSize - 1)
    let m_offset := phys - page_base
    let m_length := m_offset + length
    let (m_map, k) := k.mmap P m_fd m_length page_base
    if m_map = MAP_FAILED then (.error "bcm2837 MMIO: mmap failed", k.close m_fd)
    else (.ok ⟨m_fd, m_map, m_offset, m_length⟩, k)

/-- The destructor. -/
def delete (o : MMIO) (k : Kernel) : Kernel :=
  let k := if o.m_map ≠ 0 ∧ o.m_map ≠ MAP_FAILED then k.munmap (o.m_map, o.m_length) else k
  if 0 ≤ o.m_fd then k.close o.m_fd else k

/-- `swap`, with both objects after it. -/
def swap (a b : MMIO) : MMIO × MMIO :=
  (⟨b.m_fd, b.m_map, b.m_offset, b.m_length⟩, ⟨a.m_fd, a.m_map, a.m_offset, a.m_length⟩)

end MMIO

/-- The descriptor that a member `m_fd` holds. -/
def descriptor (m_fd : ℤ) : Option ℤ := if 0 ≤ m_fd then some m_fd else none

/-- The mapping that an object holds. -/
def MMIO.mapping (o : MMIO) : Option (Pointer × Pointer) :=
  if o.m_map ≠ 0 ∧ o.m_map ≠ MAP_FAILED then some (o.m_map, o.m_length) else none

namespace I2cDev

/-- `I2cDevTransport::close` on the member `m_fd`. -/
def close (m_fd : ℤ) (k : Kernel) : ℤ × Kernel :=
  if 0 ≤ m_fd then (-1, k.close m_fd) else (m_fd, k)

/-- `I2cDevTransport::open`, with its answer in front. -/
def «open» (P : Policy) (m_fd : ℤ) (dev : String) (k : Kernel) : ℤ × ℤ × Kernel :=
  let (_, k) := close m_fd k
  let (m_fd, k) := k.«open» P dev
  (if m_fd < 0 then -1 else 0, m_fd, k)

end I2cDev

/-! ## The process -/

/-- The objects that are alive, and what the rest of the program has open. -/
structure Process where
  mmio : ℕ → Option MMIO
  i2c : ℕ → Option ℤ
  otherFds : List ℤ
  otherMaps : List (Pointer × Pointer)
  kernel : Kernel

inductive Event
  | construct (i : ℕ) (phys length : Pointer) (dev : String)
  /-- `MMIO i(std::move(j))` -/
  | moveConstruct (i j : ℕ)
  /-- `i = std::move(j)` -/
  | moveAssign (i j : ℕ)
  | destroy (i : ℕ)
  | i2cConstruct (i : ℕ)
  | i2cOpen (i : ℕ) (dev : String)
  | i2cClose (i : ℕ)
  | i2cDestroy (i : ℕ)
  | otherOpen (path : String)
  | otherClose (fd : ℤ)
  | otherMap (length : Pointer)
  | otherUnmap (m : Pointer × Pointer)

namespace Process

variable (P : Policy) (s : Process)

/-- One event. What the lifetimes of objects rule out is no step. -/
def step : Event → Process
  | .construct i phys length dev =>
    if (s.mmio i).isSome then s
    else match MMIO.new P phys length dev s.kernel with
      | (.ok o, k) => { s with mmio := Function.update s.mmio i (some o), kernel := k }
      | (.error _, k) => { s with kernel := k }
  | .moveConstruct i j =>
    match s.mmio i, s.mmio j with
    | none, some o =>
      let (a, b) := MMIO.initial.swap o
      { s with mmio := Function.update (Function.update s.mmio i (some a)) j (some b) }
    | _, _ => s
  | .moveAssign i j =>
    match s.mmio i, s.mmio j with
    | some o, some o' =>
      let (a, b) := o.swap o'
      { s with mmio := Function.update (Function.update s.mmio i (some a)) j (some b) }
    | _, _ => s
  | .destroy i =>
    match s.mmio i with
    | some o => { s with mmio := Function.update s.mmio i none, kernel := o.delete s.kernel }
    | none => s
  | .i2cConstruct i =>
    if (s.i2c i).isSome then s else { s with i2c := Function.update s.i2c i (some (-1)) }
  | .i2cOpen i dev =>
    match s.i2c i with
    | some m_fd =>
      let (_, m_fd, k) := I2cDev.open P m_fd dev s.kernel
      { s with i2c := Function.update s.i2c i (some m_fd), kernel := k }
    | none => s
  | .i2cClose i =>
    match s.i2c i with
    | some m_fd =>
      let (m_fd, k) := I2cDev.close m_fd s.kernel
      { s with i2c := Function.update s.i2c i (some m_fd), kernel := k }
    | none => s
  | .i2cDestroy i =>
    match s.i2c i with
    | some m_fd =>
      { s with i2c := Function.update s.i2c i none, kernel := (I2cDev.close m_fd s.kernel).2 }
    | none => s
  | .otherOpen path =>
    let (fd, k) := s.kernel.«open» P path
    { s with otherFds := if fd < 0 then s.otherFds else fd :: s.otherFds, kernel := k }
  | .otherClose fd =>
    if fd ∈ s.otherFds then
      { s with otherFds := s.otherFds.filter (· ≠ fd), kernel := s.kernel.close fd }
    else s
  | .otherMap length =>
    let (a, k) := s.kernel.mmap P (-1) length 0
    { s with
      otherMaps := if a = MAP_FAILED then s.otherMaps else (a, length) :: s.otherMaps
      kernel := k }
  | .otherUnmap m =>
    if m ∈ s.otherMaps then
      { s with otherMaps := s.otherMaps.filter (· ≠ m), kernel := s.kernel.munmap m }
    else s

def run (events : List Event) : Process := events.foldl (step P) s

theorem run_concat (events : List Event) (e : Event) :
    run P s (events ++ [e]) = step P (run P s events) e := by
  rw [run, run, List.foldl_append]
  rfl

/-- No object is alive yet. -/
def start (fds : List ℤ) (maps : List (Pointer × Pointer)) : Process :=
  ⟨fun _ => none, fun _ => none, fds, maps, ⟨fds, maps, 0, 0⟩⟩

end Process

/-! ## Who holds what -/

/-- An object, or a resource that the rest of the program holds. -/
inductive Owner (H : Type)
  | mmio (i : ℕ)
  | i2c (i : ℕ)
  | other (h : H)
  deriving DecidableEq

section Holders

variable {H : Type} [DecidableEq H]

/-- What each owner holds, by what the objects hold and what the others have. -/
def holds (m : MMIO → Option H) (d : ℤ → Option H) (mmio : ℕ → Option MMIO)
    (i2c : ℕ → Option ℤ) (others : List H) : Owner H → Option H
  | .mmio i => (mmio i).bind m
  | .i2c i => (i2c i).bind d
  | .other h => if h ∈ others then some h else none

variable {m : MMIO → Option H} {d : ℤ → Option H} {mmio : ℕ → Option MMIO}
  {i2c : ℕ → Option ℤ} {others : List H} {live : Set H}

theorem holds_update_mmio (i : ℕ) (o : Option MMIO) :
    holds m d (Function.update mmio i o) i2c others =
      Function.update (holds m d mmio i2c others) (.mmio i) (o.bind m) := by
  ext1 x
  cases x with
  | mmio j =>
    by_cases hj : j = i
    · simp [holds, hj]
    · simp [holds, hj]
  | i2c j => rfl
  | other h => rfl

theorem holds_update_i2c (i : ℕ) (o : Option ℤ) :
    holds m d mmio (Function.update i2c i o) others =
      Function.update (holds m d mmio i2c others) (.i2c i) (o.bind d) := by
  ext1 x
  cases x with
  | i2c j =>
    by_cases hj : j = i
    · simp [holds, hj]
    · simp [holds, hj]
  | mmio j => rfl
  | other h => rfl

theorem holds_cons (h : H) :
    holds m d mmio i2c (h :: others) =
      Function.update (holds m d mmio i2c others) (.other h) (some h) := by
  ext1 x
  cases x with
  | other g =>
    by_cases hg : g = h
    · simp [holds, hg]
    · simp [holds, hg]
  | mmio j => rfl
  | i2c j => rfl

theorem holds_filter (h : H) :
    holds m d mmio i2c (others.filter (· ≠ h)) =
      Function.update (holds m d mmio i2c others) (.other h) none := by
  ext1 x
  cases x with
  | other g =>
    by_cases hg : g = h
    · simp [holds, hg]
    · simp [holds, hg]
  | mmio j => rfl
  | i2c j => rfl

/-- Two objects that exchange what they hold. -/
theorem holds_swap (i j : ℕ) {o o' : Option MMIO} (ho : o.bind m = (mmio j).bind m)
    (ho' : o'.bind m = (mmio i).bind m) :
    holds m d (Function.update (Function.update mmio i o) j o') i2c others =
      holds m d mmio i2c others ∘ Equiv.swap (.mmio i) (.mmio j) := by
  ext1 x
  cases x with
  | mmio k =>
    by_cases hj : k = j
    · simp [holds, hj, ho']
    · by_cases hi : k = i
      · simp [holds, hi, ho, hi ▸ hj]
      · have hswap : Equiv.swap (Owner.mmio i) (.mmio j) (Owner.mmio (H := H) k) = .mmio k :=
          Equiv.swap_apply_of_ne_of_ne (by simpa using hi) (by simpa using hj)
        simp [holds, hi, hj, hswap]
  | i2c k => simp [holds, Equiv.swap_apply_of_ne_of_ne]
  | other h => simp [holds, Equiv.swap_apply_of_ne_of_ne]

end Holders

/-! ## What the calls do -/

section Calls

variable (P : Policy) (k : Kernel)

theorem open_cases (dev : String) :
    (∃ fd, 0 ≤ fd ∧ fd ∉ k.fds ∧
      k.«open» P dev = (fd, { k with fds := fd :: k.fds, calls := k.calls + 1 })) ∨
      k.«open» P dev = (-1, { k with calls := k.calls + 1 }) := by
  unfold Kernel.open
  cases h : P.openFd k dev with
  | some fd =>
    obtain ⟨hpos, hnew⟩ := P.open_new h
    exact .inl ⟨fd, hpos, hnew, rfl⟩
  | none => exact .inr rfl

theorem mmap_cases (fd : ℤ) (length off : Pointer) :
    (∃ a, a ≠ 0 ∧ a ≠ MAP_FAILED ∧ (a, length) ∉ k.maps ∧
      k.mmap P fd length off =
        (a, { k with maps := (a, length) :: k.maps, calls := k.calls + 1 })) ∨
      k.mmap P fd length off = (MAP_FAILED, { k with calls := k.calls + 1 }) := by
  unfold Kernel.mmap
  cases h : P.mapAt k fd length off with
  | some a =>
    obtain ⟨hzero, hfailed, hnew⟩ := P.map_new h
    exact .inl ⟨a, hzero, hfailed, hnew length, rfl⟩
  | none => exact .inr rfl

variable {P k}

theorem descriptor_of_nonneg {fd : ℤ} (h : 0 ≤ fd) : descriptor fd = some fd := if_pos h

/-- A constructor that returns has a new descriptor and a new mapping; one that throws has
given back what it had. -/
theorem new_cases (phys length : Pointer) (dev : String) :
    (∃ o m k', MMIO.new P phys length dev k = (.ok o, k') ∧ 0 ≤ o.m_fd ∧ o.m_fd ∉ k.fds ∧
      o.mapping = some m ∧ m ∉ k.maps ∧ k'.fds = o.m_fd :: k.fds ∧ k'.maps = m :: k.maps ∧
      k'.errors = k.errors) ∨
      ∃ e k', MMIO.new P phys length dev k = (.error e, k') ∧
        (∀ fd, fd ∈ k'.fds ↔ fd ∈ k.fds) ∧ k'.maps = k.maps ∧ k'.errors = k.errors := by
  unfold MMIO.new
  rcases open_cases P k dev with ⟨fd, hpos, hnew, hopen⟩ | hopen
  · rw [hopen]
    dsimp only
    rw [if_neg (by omega)]
    set k₁ : Kernel := { k with fds := fd :: k.fds, calls := k.calls + 1 } with hk₁
    set base := phys &&& ~~~(P.pageSize - 1)
    rcases mmap_cases P k₁ fd (phys - base + length) base with
      ⟨a, hzero, hfailed, hfresh, hmap⟩ | hmap
    · left
      rw [hmap]
      dsimp only
      rw [if_neg hfailed]
      exact ⟨_, _, _, rfl, hpos, hnew, if_pos ⟨hzero, hfailed⟩, hfresh, rfl, rfl, rfl⟩
    · right
      rw [hmap]
      dsimp only
      rw [if_pos rfl]
      refine ⟨_, _, rfl, fun g => ?_, rfl, ?_⟩
      · simp only [Kernel.close, hk₁, List.mem_filter, List.mem_cons, decide_eq_true_eq]
        constructor
        · rintro ⟨rfl | hg, hne⟩
          · exact absurd rfl hne
          · exact hg
        · intro hg
          exact ⟨.inr hg, fun heq => hnew (heq ▸ hg)⟩
      · simp [Kernel.close, hk₁]
  · right
    rw [hopen]
    exact ⟨_, _, rfl, fun _ => Iff.rfl, rfl, rfl⟩

theorem close_descriptor {m_fd : ℤ} (h : ∀ fd, descriptor m_fd = some fd → fd ∈ k.fds) :
    (∀ fd, fd ∈ (I2cDev.close m_fd k).2.fds ↔ fd ∈ k.fds ∧ descriptor m_fd ≠ some fd) ∧
      (I2cDev.close m_fd k).2.maps = k.maps ∧ (I2cDev.close m_fd k).2.errors = k.errors ∧
      descriptor (I2cDev.close m_fd k).1 = none := by
  unfold I2cDev.close
  split_ifs with hpos
  · have hmem : m_fd ∈ k.fds := h m_fd (descriptor_of_nonneg hpos)
    refine ⟨fun fd => ?_, rfl, if_pos hmem, rfl⟩
    rw [descriptor_of_nonneg hpos]
    simp [Kernel.close, eq_comm (a := fd)]
  · have hnone : descriptor m_fd = none := if_neg hpos
    refine ⟨fun fd => ?_, rfl, rfl, hnone⟩
    simp [hnone]

/-- The destructor gives back what the object holds and nothing else. -/
theorem delete_object {o : MMIO} (hfd : ∀ fd, descriptor o.m_fd = some fd → fd ∈ k.fds)
    (hmap : ∀ m, o.mapping = some m → m ∈ k.maps) :
    (∀ fd, fd ∈ (o.delete k).fds ↔ fd ∈ k.fds ∧ descriptor o.m_fd ≠ some fd) ∧
      (∀ m, m ∈ (o.delete k).maps ↔ m ∈ k.maps ∧ o.mapping ≠ some m) ∧
      (o.delete k).errors = k.errors := by
  have hunmap : ∃ k₁ : Kernel, k₁ = (if o.m_map ≠ 0 ∧ o.m_map ≠ MAP_FAILED then
      k.munmap (o.m_map, o.m_length) else k) ∧ k₁.fds = k.fds ∧ k₁.errors = k.errors ∧
      ∀ m, m ∈ k₁.maps ↔ m ∈ k.maps ∧ o.mapping ≠ some m := by
    refine ⟨_, rfl, ?_⟩
    split_ifs with hheld
    · have hsome : o.mapping = some (o.m_map, o.m_length) := if_pos hheld
      refine ⟨rfl, if_pos (hmap _ hsome), fun m => ?_⟩
      rw [hsome]
      simp [Kernel.munmap, eq_comm (a := m)]
    · have hnone : o.mapping = none := if_neg hheld
      refine ⟨rfl, rfl, fun m => ?_⟩
      simp [hnone]
  obtain ⟨k₁, hk₁, hfds, herrors, hmaps⟩ := hunmap
  have hclose := close_descriptor (k := k₁) (hfds ▸ hfd)
  have hdelete : o.delete k = (I2cDev.close o.m_fd k₁).2 := by
    unfold MMIO.delete I2cDev.close
    rw [← hk₁]
    split_ifs <;> rfl
  rw [hdelete, hclose.2.1, hclose.2.2.1, herrors, ← hfds]
  exact ⟨hclose.1, hmaps, rfl⟩

end Calls

/-! ## The accounts over a run -/

namespace Process

/-- Who holds which descriptor. -/
def fdHolder (s : Process) : Owner ℤ → Option ℤ :=
  holds (fun o => descriptor o.m_fd) descriptor s.mmio s.i2c s.otherFds

/-- Who holds which mapping. -/
def mapHolder (s : Process) : Owner (Pointer × Pointer) → Option (Pointer × Pointer) :=
  holds MMIO.mapping (fun _ => none) s.mmio s.i2c s.otherMaps

/-- Everything the kernel keeps for the process has one holder, and all calls that give
something back have found it. -/
structure Accounted (s : Process) : Prop where
  fds : Balanced s.fdHolder {fd | fd ∈ s.kernel.fds}
  maps : Balanced s.mapHolder {m | m ∈ s.kernel.maps}
  errors : s.kernel.errors = 0

variable {P : Policy} {s : Process}

theorem Accounted.mem_fds_mmio (h : Accounted s) {i : ℕ} {o : MMIO} (hi : s.mmio i = some o)
    (fd : ℤ) (hfd : descriptor o.m_fd = some fd) : fd ∈ s.kernel.fds := by
  apply h.fds.owned (.mmio i)
  rw [fdHolder, holds, hi, Option.bind_some, hfd]

theorem Accounted.mem_maps_mmio (h : Accounted s) {i : ℕ} {o : MMIO} (hi : s.mmio i = some o)
    (m : Pointer × Pointer) (hm : o.mapping = some m) : m ∈ s.kernel.maps := by
  apply h.maps.owned (.mmio i)
  rw [mapHolder, holds, hi, Option.bind_some, hm]

theorem Accounted.mem_fds_i2c (h : Accounted s) {i : ℕ} {m_fd : ℤ} (hi : s.i2c i = some m_fd)
    (fd : ℤ) (hfd : descriptor m_fd = some fd) : fd ∈ s.kernel.fds := by
  apply h.fds.owned (.i2c i)
  rw [fdHolder, holds, hi, Option.bind_some, hfd]

theorem Accounted.construct (h : Accounted s) (i : ℕ) (phys length : Pointer) (dev : String) :
    Accounted (s.step P (.construct i phys length dev)) := by
  rw [step]
  split_ifs with halive
  · exact h
  · have hdead : s.mmio i = none := by simpa using halive
    rcases new_cases (P := P) (k := s.kernel) phys length dev with
      ⟨o, m, k, hnew, hpos, hfd, hm, hmap, hfds, hmaps, herrors⟩ |
      ⟨e, k, hnew, hfds, hmaps, herrors⟩
    · rw [hnew]
      constructor
      · have hget := h.fds.acquire (i := .mmio i) (by simp [fdHolder, holds, hdead]) hfd
        refine hget.congr (fun x => ?_) fun fd => by simp [hfds]
        rw [fdHolder, holds_update_mmio, Option.bind_some, descriptor_of_nonneg hpos]
        rfl
      · have hget := h.maps.acquire (i := .mmio i) (by simp [mapHolder, holds, hdead]) hmap
        refine hget.congr (fun x => ?_) fun m => by simp [hmaps]
        rw [mapHolder, holds_update_mmio, Option.bind_some, hm]
        rfl
      · exact herrors.trans h.errors
    · rw [hnew]
      exact ⟨h.fds.congr (fun _ => rfl) hfds, h.maps.congr (fun _ => rfl) fun m => by simp [hmaps],
        herrors.trans h.errors⟩

/-- Two objects exchange what they hold; one that holds nothing need not be alive. -/
theorem Accounted.exchange (h : Accounted s) (i j : ℕ) {o o' : Option MMIO}
    (hi : ∀ {H : Type} (m : MMIO → Option H), m .initial = none → o.bind m = (s.mmio j).bind m)
    (hj : ∀ {H : Type} (m : MMIO → Option H), m .initial = none → o'.bind m = (s.mmio i).bind m) :
    Accounted { s with mmio := Function.update (Function.update s.mmio i o) j o' } := by
  refine ⟨?_, ?_, h.errors⟩
  · refine (h.fds.permute (.swap (.mmio i) (.mmio j))).congr (fun x => ?_) fun _ => Iff.rfl
    rw [fdHolder, holds_swap i j (hi _ rfl) (hj _ rfl)]
    rfl
  · refine (h.maps.permute (.swap (.mmio i) (.mmio j))).congr (fun x => ?_) fun _ => Iff.rfl
    rw [mapHolder, holds_swap i j (hi _ rfl) (hj _ rfl)]
    rfl

theorem Accounted.moveConstruct (h : Accounted s) (i j : ℕ) :
    Accounted (s.step P (.moveConstruct i j)) := by
  rw [step]
  split
  · rename_i o hi hj
    exact h.exchange i j (fun m _ => by rw [hj]) fun m hm => by rw [hi]; exact hm
  · exact h

theorem Accounted.moveAssign (h : Accounted s) (i j : ℕ) :
    Accounted (s.step P (.moveAssign i j)) := by
  rw [step]
  split
  · rename_i o o' hi hj
    exact h.exchange i j (fun m _ => by rw [hj]) fun m _ => by rw [hi]
  · exact h

theorem Accounted.destroy (h : Accounted s) (i : ℕ) : Accounted (s.step P (.destroy i)) := by
  rw [step]
  split
  · rename_i o hi
    obtain ⟨hfds, hmaps, herrors⟩ := delete_object (h.mem_fds_mmio hi) (h.mem_maps_mmio hi)
    refine ⟨?_, ?_, herrors.trans h.errors⟩
    · refine (h.fds.release (.mmio i)).congr (fun x => ?_) fun fd => ?_
      · rw [fdHolder, holds_update_mmio]
        rfl
      · simpa [fdHolder, holds, hi] using hfds fd
    · refine (h.maps.release (.mmio i)).congr (fun x => ?_) fun m => ?_
      · rw [mapHolder, holds_update_mmio]
        rfl
      · simpa [mapHolder, holds, hi] using hmaps m
  · exact h

theorem Accounted.i2cConstruct (h : Accounted s) (i : ℕ) :
    Accounted (s.step P (.i2cConstruct i)) := by
  rw [step]
  split_ifs with halive
  · exact h
  · have hdead : s.i2c i = none := by simpa using halive
    refine ⟨h.fds.congr (fun x => ?_) fun _ => Iff.rfl,
      h.maps.congr (fun x => ?_) fun _ => Iff.rfl, h.errors⟩
    · have hnone : s.fdHolder (.i2c i) = none := by simp [fdHolder, holds, hdead]
      rw [fdHolder, holds_update_i2c]
      exact congrFun (Function.update_eq_self_iff.mpr hnone.symm) x
    · have hnone : s.mapHolder (.i2c i) = none := by simp [mapHolder, holds, hdead]
      rw [mapHolder, holds_update_i2c]
      exact congrFun (Function.update_eq_self_iff.mpr hnone.symm) x

/-- The transports hold no mappings. -/
theorem mapHolder_update_i2c (i : ℕ) {o : Option ℤ} (k : Kernel) (x : Owner (Pointer × Pointer)) :
    mapHolder { s with i2c := Function.update s.i2c i o, kernel := k } x = s.mapHolder x := by
  rw [mapHolder, holds_update_i2c]
  cases x with
  | i2c j =>
    by_cases hj : j = i
    · cases hs : s.i2c i <;> cases o <;> simp [mapHolder, holds, hj, hs]
    · rw [Function.update_of_ne (by simpa using hj)]
      rfl
  | mmio j => rfl
  | other m => rfl

theorem Accounted.i2cClosed (h : Accounted s) {i : ℕ} {m_fd : ℤ} (hi : s.i2c i = some m_fd)
    {o : Option ℤ} (ho : o.bind descriptor = none) :
    Accounted { s with
      i2c := Function.update s.i2c i o, kernel := (I2cDev.close m_fd s.kernel).2 } := by
  obtain ⟨hfds, hmaps, herrors, -⟩ := close_descriptor (h.mem_fds_i2c hi)
  refine ⟨?_, h.maps.congr (mapHolder_update_i2c i _) fun m => by simp [hmaps],
    herrors.trans h.errors⟩
  refine (h.fds.release (.i2c i)).congr (fun x => ?_) fun fd => ?_
  · rw [fdHolder, holds_update_i2c, ho]
    rfl
  · simpa [fdHolder, holds, hi] using hfds fd

/-- A transport without a descriptor opens a device. -/
theorem Accounted.i2cOpened (h : Accounted s) {i : ℕ} (hi : (s.i2c i).bind descriptor = none)
    (dev : String) :
    Accounted { s with
      i2c := Function.update s.i2c i (some (s.kernel.«open» P dev).1)
      kernel := (s.kernel.«open» P dev).2 } := by
  have hnone : s.fdHolder (.i2c i) = none := hi
  rcases open_cases P s.kernel dev with ⟨fd, hpos, hnew, hopen⟩ | hopen
  · rw [hopen]
    refine ⟨?_, h.maps.congr (mapHolder_update_i2c i _) fun _ => Iff.rfl, h.errors⟩
    refine (h.fds.acquire hnone hnew).congr (fun x => ?_) fun g => by simp
    rw [fdHolder, holds_update_i2c, Option.bind_some, descriptor_of_nonneg hpos]
    rfl
  · rw [hopen]
    refine ⟨?_, h.maps.congr (mapHolder_update_i2c i _) fun _ => Iff.rfl, h.errors⟩
    refine h.fds.congr (fun x => ?_) fun _ => Iff.rfl
    rw [fdHolder, holds_update_i2c]
    exact congrFun (Function.update_eq_self_iff.mpr hnone.symm) x

theorem Accounted.i2cOpen (h : Accounted s) (i : ℕ) (dev : String) :
    Accounted (s.step P (.i2cOpen i dev)) := by
  rw [step]
  split
  · rename_i m_fd hi
    have hclosed := h.i2cClosed (o := some (-1)) hi rfl
    have hnone : (Function.update s.i2c i (some (-1)) i).bind descriptor = none := by
      rw [Function.update_self]
      rfl
    have hopened := hclosed.i2cOpened (P := P) hnone dev
    rwa [Function.update_idem] at hopened
  · exact h

theorem Accounted.i2cClose (h : Accounted s) (i : ℕ) : Accounted (s.step P (.i2cClose i)) := by
  rw [step]
  split
  · rename_i m_fd hi
    exact h.i2cClosed hi (close_descriptor (h.mem_fds_i2c hi)).2.2.2
  · exact h

theorem Accounted.i2cDestroy (h : Accounted s) (i : ℕ) :
    Accounted (s.step P (.i2cDestroy i)) := by
  rw [step]
  split
  · rename_i m_fd hi
    exact h.i2cClosed hi rfl
  · exact h

theorem Accounted.otherOpen (h : Accounted s) (path : String) :
    Accounted (s.step P (.otherOpen path)) := by
  rw [step]
  rcases open_cases P s.kernel path with ⟨fd, hpos, hnew, hopen⟩ | hopen
  · rw [hopen]
    dsimp only
    rw [if_neg (by omega)]
    have hnone : s.fdHolder (.other fd) = none := by
      by_contra hheld
      obtain ⟨g, hg⟩ := Option.ne_none_iff_exists'.mp hheld
      have hmem : g ∈ s.kernel.fds := h.fds.owned _ g hg
      simp only [fdHolder, holds, Option.ite_none_right_eq_some, Option.some.injEq] at hg
      exact hnew (hg.2 ▸ hmem)
    refine ⟨?_, h.maps, h.errors⟩
    refine (h.fds.acquire hnone hnew).congr (fun x => ?_) fun g => by simp
    rw [fdHolder, holds_cons]
    rfl
  · rw [hopen]
    exact ⟨h.fds, h.maps, h.errors⟩

theorem Accounted.otherClose (h : Accounted s) (fd : ℤ) :
    Accounted (s.step P (.otherClose fd)) := by
  rw [step]
  split_ifs with hfd
  · have hheld : s.fdHolder (.other fd) = some fd := if_pos hfd
    have hmem : fd ∈ s.kernel.fds := h.fds.owned _ _ hheld
    refine ⟨?_, h.maps, ?_⟩
    · refine (h.fds.release (.other fd)).congr (fun x => ?_) fun g => ?_
      · rw [fdHolder, holds_filter]
        rfl
      · rw [hheld]
        simp [Kernel.close, eq_comm (a := g)]
    · exact (if_pos hmem).trans h.errors
  · exact h

theorem Accounted.otherMap (h : Accounted s) (length : Pointer) :
    Accounted (s.step P (.otherMap length)) := by
  rw [step]
  rcases mmap_cases P s.kernel (-1) length 0 with ⟨a, hzero, hfailed, hnew, hmap⟩ | hmap
  · rw [hmap]
    dsimp only
    rw [if_neg hfailed]
    have hnone : s.mapHolder (.other (a, length)) = none := by
      by_contra hheld
      obtain ⟨m, hm⟩ := Option.ne_none_iff_exists'.mp hheld
      have hmem : m ∈ s.kernel.maps := h.maps.owned _ m hm
      simp only [mapHolder, holds, Option.ite_none_right_eq_some, Option.some.injEq] at hm
      exact hnew (hm.2 ▸ hmem)
    refine ⟨h.fds, ?_, h.errors⟩
    refine (h.maps.acquire hnone hnew).congr (fun x => ?_) fun g => by simp
    rw [mapHolder, holds_cons]
    rfl
  · rw [hmap]
    dsimp only
    rw [if_pos rfl]
    exact ⟨h.fds, h.maps, h.errors⟩

theorem Accounted.otherUnmap (h : Accounted s) (m : Pointer × Pointer) :
    Accounted (s.step P (.otherUnmap m)) := by
  rw [step]
  split_ifs with hm
  · have hheld : s.mapHolder (.other m) = some m := if_pos hm
    have hmem : m ∈ s.kernel.maps := h.maps.owned _ _ hheld
    refine ⟨h.fds, ?_, ?_⟩
    · refine (h.maps.release (.other m)).congr (fun x => ?_) fun g => ?_
      · rw [mapHolder, holds_filter]
        rfl
      · rw [hheld]
        simp [Kernel.munmap, eq_comm (a := g)]
    · exact (if_pos hmem).trans h.errors
  · exact h

/-- One event keeps the accounts. -/
theorem Accounted.step (h : Accounted s) (e : Event) : Accounted (s.step P e) := by
  cases e with
  | construct i phys length dev => exact h.construct i phys length dev
  | moveConstruct i j => exact h.moveConstruct i j
  | moveAssign i j => exact h.moveAssign i j
  | destroy i => exact h.destroy i
  | i2cConstruct i => exact h.i2cConstruct i
  | i2cOpen i dev => exact h.i2cOpen i dev
  | i2cClose i => exact h.i2cClose i
  | i2cDestroy i => exact h.i2cDestroy i
  | otherOpen path => exact h.otherOpen path
  | otherClose fd => exact h.otherClose fd
  | otherMap length => exact h.otherMap length
  | otherUnmap m => exact h.otherUnmap m

theorem accounted_start (fds : List ℤ) (maps : List (Pointer × Pointer)) :
    Accounted (start fds maps) := by
  have hothers {H : Type} [DecidableEq H] (m : MMIO → Option H) (d : ℤ → Option H)
      (l : List H) : Balanced (holds m d (fun _ => none) (fun _ => none) l) {h | h ∈ l} := by
    constructor
    · intro x h hx
      cases x with
      | other g =>
        simp only [holds, Option.ite_none_right_eq_some, Option.some.injEq] at hx
        exact hx.2 ▸ hx.1
      | mmio i => cases hx
      | i2c i => cases hx
    · exact fun h hh => ⟨.other h, if_pos hh⟩
    · intro x y h hx hy
      cases x <;> cases y <;>
        simp only [holds, Option.bind_none, Option.ite_none_right_eq_some, Option.some.injEq,
          reduceCtorEq] at hx hy
      rw [hx.2, hy.2]
  exact ⟨hothers _ _ fds, hothers _ _ maps, rfl⟩

theorem accounted_run (P : Policy) (fds : List ℤ) (maps : List (Pointer × Pointer))
    (events : List Event) : Accounted (run P (start fds maps) events) := by
  induction events using List.reverseRecOn with
  | nil => exact accounted_start fds maps
  | append_singleton events e ih =>
    rw [run_concat]
    exact ih.step e

/-- What is open when no object is alive is open elsewhere. -/
theorem holds_of_dead {H : Type} [DecidableEq H] {m : MMIO → Option H} {d : ℤ → Option H}
    {others : List H} (hmmio : ∀ i, s.mmio i = none) (hi2c : ∀ i, s.i2c i = none) {x : Owner H}
    {h : H} (hx : holds m d s.mmio s.i2c others x = some h) : h ∈ others := by
  cases x with
  | mmio i => simp [holds, hmmio] at hx
  | i2c i => simp [holds, hi2c] at hx
  | other g =>
    simp only [holds, Option.ite_none_right_eq_some, Option.some.injEq] at hx
    exact hx.2 ▸ hx.1

/-- Over every run: each descriptor and each mapping that is open is held by one object or by
the rest of the program, no call gives back what is not open, and once no object is left
nothing is open but what the rest of the program has. -/
theorem handles_accounted (P : Policy) (fds : List ℤ) (maps : List (Pointer × Pointer))
    (events : List Event) :
    let s := run P (start fds maps) events
    Balanced s.fdHolder {fd | fd ∈ s.kernel.fds} ∧
      Balanced s.mapHolder {m | m ∈ s.kernel.maps} ∧ s.kernel.errors = 0 ∧
      ((∀ i, s.mmio i = none) → (∀ i, s.i2c i = none) →
        (∀ fd, fd ∈ s.kernel.fds ↔ fd ∈ s.otherFds) ∧
        ∀ m, m ∈ s.kernel.maps ↔ m ∈ s.otherMaps) := by
  intro s
  have h : Accounted s := accounted_run P fds maps events
  refine ⟨h.fds, h.maps, h.errors, fun hmmio hi2c => ⟨fun fd => ⟨fun hfd => ?_, fun hfd => ?_⟩,
    fun m => ⟨fun hm => ?_, fun hm => ?_⟩⟩⟩
  · obtain ⟨x, hx⟩ := h.fds.owner fd hfd
    exact holds_of_dead hmmio hi2c hx
  · exact h.fds.owned (.other fd) fd (if_pos hfd)
  · obtain ⟨x, hx⟩ := h.maps.owner m hm
    exact holds_of_dead hmmio hi2c hx
  · exact h.maps.owned (.other m) m (if_pos hm)

end Process

end Bcm2837.Handles
