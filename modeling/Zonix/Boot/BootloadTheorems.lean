import Zonix.Boot.Bootload
import Zonix.Drivers.HdTheorems
import Mathlib.Order.CompletePartialOrder

/-!
# What the boot loader loads

A segment is read in whole sectors, from the one that its first byte lies in to the one that its
last byte lies in. The pages of a segment are its own, so that this does no harm. The loop of
`readseg` ends at the first sector behind the segment, if there is an address behind it: when the
segment reaches into the last sector of the address space, it does not.
-/

namespace Zonix
open Lib.X86 Lib.Loop

/-! ## The image -/

/-- From any read of the status register on, the drive gets ready. -/
def Channel.Responds (hw : Channel) : Prop :=
  ∀ n, ∃ m, n ≤ m ∧ hw.status m &&& 0xC0#8 = 0x40#8

abbrev Image := ℕ → Byte

/-- The image starts behind the boot sector. -/
def Channel.image (hw : Channel) : Image := fun i => hw.disk false (512 + i)

structure Segment where
  offset : Word
  va : Word
  memsz : Word

namespace Segment

def dest (g : Segment) : Word := g.va &&& 0xFFFFFF#32

/-- The address behind the segment. -/
def stop (g : Segment) : ℕ := g.dest.toNat + g.memsz.toNat

/-- The first address of the sectors that the segment lies in, and the one behind them. -/
def low (g : Segment) : ℕ := g.dest.toNat / 512 * 512

def high (g : Segment) : ℕ := (g.stop + 511) / 512 * 512

def pages (g : Segment) : Set ℕ := {p | ∃ i < g.memsz.toNat, p = (g.dest.toNat + i) / 4096}

/-- The linker's: offset and address agree in the page, and the segment does not wrap around. -/
structure Linked (g : Segment) : Prop where
  aligned : g.va.toNat % 4096 = g.offset.toNat % 4096
  empty : g.memsz = 0#32 → g.offset.toNat % 512 = 0
  fits : g.stop ≤ 2 ^ 32

end Segment

namespace Image
variable (image : Image)

def dword (i : ℕ) : Word := image (i + 3) ++ image (i + 2) ++ image (i + 1) ++ image i

def word (i : ℕ) : BitVec 16 := image (i + 1) ++ image i

def phnum : ℕ := (image.word 44).toNat

/-- Where program header `i` lies. -/
def header (i : ℕ) : ℕ := (image.dword 28).toNat + 32 * i

def segment (i : ℕ) : Segment :=
  ⟨image.dword (image.header i + 4), image.dword (image.header i + 8),
    image.dword (image.header i + 20)⟩

/-- What the loader expects of an image. It expects besides that no segment covers its own code and
stack, around `0x7C00`; these are not held in memory here, so that no field says it. -/
structure Linked : Prop where
  magic : image.dword 0 = ELF_MAGIC
  headers : ∀ i < image.phnum, image.header (i + 1) ≤ 4096
  linked : ∀ i < image.phnum, (image.segment i).Linked
  disjoint : ∀ i < image.phnum, ∀ j < image.phnum, i ≠ j →
    Disjoint (image.segment i).pages (image.segment j).pages
  -- the page of `KERNEL_HEADER`
  buffer : ∀ i < image.phnum, 16 ∉ (image.segment i).pages

end Image

/-- Every segment is in its place, and nothing else was written but the header buffer and what
shares a sector with a segment. -/
structure Loaded (hw : Channel) (m m' : Memory) : Prop where
  segments : ∀ i < hw.image.phnum, ∀ k < (hw.image.segment i).memsz.toNat,
    m' ((hw.image.segment i).dest + BitVec.ofNat 32 k) =
      hw.disk false (512 + (hw.image.segment i).offset.toNat + k)
  others : ∀ x : Word, ¬ (0x10000 ≤ x.toNat ∧ x.toNat < 0x11000) →
    (∀ i < hw.image.phnum,
      ¬ ((hw.image.segment i).low ≤ x.toNat ∧ x.toNat < (hw.image.segment i).high)) → m' x = m x

/-! ## Segments in sectors -/

namespace Segment
variable {hw : Channel} {g : Segment}

/-- What the sectors of the segment hold, at an address. -/
def byte (hw : Channel) (g : Segment) (a : ℕ) : Byte :=
  hw.disk false (512 + g.offset.toNat / 512 * 512 + (a - g.low))

/-- The sectors below `stop` are in place. -/
def placeTo (hw : Channel) (g : Segment) (stop : ℕ) (m : Memory) : Memory := fun x =>
  if g.low ≤ x.toNat ∧ x.toNat < stop then g.byte hw x.toNat else m x

def place (hw : Channel) (g : Segment) : Memory → Memory := g.placeTo hw g.high

theorem place_in {m : Memory} {x : Word} (h : g.low ≤ x.toNat ∧ x.toNat < g.high) :
    g.place hw m x = g.byte hw x.toNat := if_pos h

theorem place_off {m : Memory} {x : Word} (h : ¬ (g.low ≤ x.toNat ∧ x.toNat < g.high)) :
    g.place hw m x = m x := if_neg h

theorem Linked.offset_mod (h : g.Linked) : g.dest.toNat % 512 = g.offset.toNat % 512 := by
  have hmask : g.dest.toNat = g.va.toNat % 2 ^ 24 := by
    unfold dest
    rw [BitVec.toNat_and]
    exact Nat.and_two_pow_sub_one_eq_mod _ 24
  have haligned := h.aligned
  omega

theorem dest_lt (g : Segment) : g.dest.toNat < 2 ^ 24 := by
  unfold dest
  rw [BitVec.toNat_and]
  exact lt_of_le_of_lt Nat.and_le_right (by decide)

/-- The sectors of a segment do not leave its pages. -/
theorem Linked.page (h : g.Linked) {a : ℕ} (hlow : g.low ≤ a) (hhigh : a < g.high) :
    a / 4096 ∈ g.pages := by
  have hmod := h.offset_mod
  by_cases hempty : g.memsz = 0#32
  · -- an empty segment has no sectors
    have hoffset := h.empty hempty
    have hzero : g.memsz.toNat = 0 := by rw [hempty]; rfl
    unfold low at hlow
    unfold high stop at hhigh
    omega
  · have hpos : g.memsz.toNat ≠ 0 := fun hz => hempty (BitVec.eq_of_toNat_eq hz)
    unfold low at hlow
    unfold high stop at hhigh
    by_cases hbefore : a < g.dest.toNat
    · exact ⟨0, by omega, by omega⟩
    · by_cases hbehind : g.dest.toNat + g.memsz.toNat ≤ a
      · exact ⟨g.memsz.toNat - 1, by omega, by omega⟩
      · exact ⟨a - g.dest.toNat, by omega, by omega⟩

end Segment

/-! ## A sector -/

namespace Boot
variable {hw : Channel} {s t : Boot} {dst secno : Word} {k : ℕ}

theorem mono_waitdisk : Mono (waitdisk hw) := (Mono.loop (mono_total _)).andThen (mono_total _)

theorem mono_readsect : Mono (readsect hw dst secno) :=
  mono_waitdisk.andThen ((mono_total _).andThen (mono_waitdisk.andThen (mono_total _)))

theorem waitdisk_ends (hready : hw.Responds) (s : Boot) :
    ∃ n, Ends (waitdisk hw) s { s with polls := n } := by
  obtain ⟨m, hm, hstatus⟩ := hready s.polls
  -- it polls until the drive is ready, in poll `m` at the latest
  have hstep : ∀ t : Boot, (∃ n, n ≤ m ∧ t = { s with polls := n }) →
      hw.status t.polls &&& 0xC0#8 ≠ 0x40#8 →
      ∃ u, Ends (fun _ s => some (poll s)) t u ∧ (∃ n, n ≤ m ∧ u = { s with polls := n }) ∧
        m - u.polls < m - t.polls := by
    intro t ht hcond
    obtain ⟨n, hn, rfl⟩ := ht
    have hne : n ≠ m := fun h => hcond (by rw [h]; exact hstatus)
    refine ⟨_, ends_total poll _, ⟨n + 1, by omega, rfl⟩, ?_⟩
    show m - (n + 1) < m - n
    omega
  have hloop := loop_ends (mono_total poll) _ (fun t => m - t.polls) hstep ⟨s.polls, hm, rfl⟩
  obtain ⟨u, hu, ⟨n, -, rfl⟩, -⟩ := hloop
  exact ⟨n + 1, hu.andThen (Mono.loop (mono_total poll)) (mono_total poll) (ends_total poll _)⟩

/-- Sector `secno` of the boot disk, at `dst`. -/
def putSector (hw : Channel) (dst : Word) (secno : ℕ) (m : Memory) : Memory := fun x =>
  if (x - dst).toNat < 512 then hw.disk false (512 * secno + (x - dst).toNat) else m x

theorem readsect_ends (hready : hw.Responds) (s : Boot) (dst : Word)
    (hsecno : secno.toNat < 2 ^ 28) :
    ∃ t, Ends (readsect hw dst secno) s t ∧ t.mem = putSector hw dst secno.toNat s.mem := by
  obtain ⟨n, hn⟩ := waitdisk_ends hready s
  let issued := (({ s with polls := n } : Boot).outbRegs secno).outbCommand hw
  obtain ⟨m, hm⟩ := waitdisk_ends hready issued
  refine ⟨({ issued with polls := m } : Boot).insl dst, ?_, ?_⟩
  · have htail := hm.andThen mono_waitdisk (mono_total _) (ends_total (insl · dst) _)
    have hissue := (ends_total (fun s : Boot => (s.outbRegs secno).outbCommand hw) _).andThen
      (mono_total _) (mono_waitdisk.andThen (mono_total _)) htail
    exact hn.andThen mono_waitdisk
      ((mono_total _).andThen (mono_waitdisk.andThen (mono_total _))) hissue
  · -- the registers select the boot disk and the sector
    let master : IdeDevice := ⟨0#8, 0#16, 0#32, true⟩
    have hslave : (Ide.taskFile IDE_DEV_MASTER secno).slave = false :=
      Ide.taskFile_slave master secno
    have hlba : (Ide.taskFile IDE_DEV_MASTER secno).lba = secno.toNat :=
      Ide.taskFile_lba master hsecno
    funext x
    show (if (x - dst).toNat < 512 then hw.disk (Ide.taskFile IDE_DEV_MASTER secno).slave
      (512 * (Ide.taskFile IDE_DEV_MASTER secno).lba + (x - dst).toNat) else s.mem x) = _
    rw [hslave, hlba]
    rfl

/-! ## A segment -/

variable {g : Segment}

/-- `va -= offset % SECT_SIZE` -/
theorem start_toNat (h : g.Linked) : (g.dest - g.offset % SECT_SIZE).toNat = g.low := by
  have hmod := h.offset_mod
  have hoffset : (g.offset % SECT_SIZE).toNat = g.offset.toNat % 512 := BitVec.toNat_umod
  unfold Segment.low
  rw [BitVec.toNat_sub, hoffset]
  have hlt := g.dest.isLt
  omega

theorem secno_toNat (g : Segment) :
    (g.offset / SECT_SIZE + 1#32).toNat = g.offset.toNat / 512 + 1 := by
  have hdiv : (g.offset / SECT_SIZE).toNat = g.offset.toNat / 512 := BitVec.toNat_udiv
  have hone : (1#32).toNat = 1 := rfl
  rw [BitVec.toNat_add, hdiv, hone]
  have hlt := g.offset.isLt
  omega

theorem mono_readNext : Mono (readNext hw) :=
  mono_of_map (fun _ _ => rfl) fun _ => mono_readsect

/-- One more sector. -/
theorem placeTo_next (hlow : g.low ≤ 512 * k) (hk : 512 * k + 512 ≤ 2 ^ 32) (m : Memory)
    {va : Word} (hva : va.toNat = 512 * k) :
    putSector hw va (g.offset.toNat / 512 + 1 + (512 * k - g.low) / 512)
      (g.placeTo hw (512 * k) m) = g.placeTo hw (512 * k + 512) m := by
  have hlow' : g.low % 512 = 0 := Nat.mul_mod_left _ _
  funext x
  have hx := x.isLt
  have hsub : (x - va).toNat = (2 ^ 32 - 512 * k + x.toNat) % 2 ^ 32 := by
    rw [BitVec.toNat_sub, hva]
  unfold putSector Segment.placeTo Segment.byte
  rw [hsub]
  by_cases hin : 512 * k ≤ x.toNat ∧ x.toNat < 512 * k + 512
  · rw [if_pos (by omega), if_pos (by omega)]
    congr 1
    omega
  · rw [if_neg (by omega)]
    by_cases hold : g.low ≤ x.toNat ∧ x.toNat < 512 * k
    · rw [if_pos hold, if_pos (by omega)]
    · rw [if_neg hold, if_neg (by omega)]

theorem readseg_ends_iff {va count offset : Word} :
    Ends (readseg hw va count offset) s t ↔
      ∃ l, Ends (loop (fun l => l.va < va + count) (readNext hw))
        ⟨va - offset % SECT_SIZE, offset / SECT_SIZE + 1#32, s⟩ l ∧ l.boot = t :=
  ends_of_map fun _ => rfl

theorem mono_readseg {va count offset : Word} : Mono (readseg hw va count offset) :=
  mono_of_map (fun _ _ => rfl) fun _ => mono_readNext.loop

/-- The loop of `readseg`, in front of the sector at `512 * k`. -/
structure InSector (hw : Channel) (g : Segment) (m : Memory) (k : ℕ) (l : Reading) : Prop where
  va : l.va.toNat = 512 * k
  low : g.low ≤ 512 * k
  high : 512 * k ≤ g.high
  secno : l.secno.toNat = g.offset.toNat / 512 + 1 + (512 * k - g.low) / 512
  mem : l.boot.mem = g.placeTo hw (512 * k) m

theorem InSector.step {m : Memory} {l : Reading} (hready : hw.Responds) (h : InSector hw g m k l)
    (hk : 512 * k < g.stop) (hstop : g.stop ≤ 2 ^ 32 - 512) :
    ∃ l', Ends (readNext hw) l l' ∧ InSector hw g m (k + 1) l' := by
  have hlow : g.low % 512 = 0 := Nat.mul_mod_left _ _
  have hhigh : 512 * k + 512 ≤ g.high := by
    unfold Segment.high
    omega
  have hva := h.va
  have hsecno := h.secno
  have hoffset := g.offset.isLt
  have hlba : l.secno.toNat < 2 ^ 28 := by omega
  obtain ⟨t, ⟨n, hn⟩, ht⟩ := readsect_ends hready l.boot l.va hlba
  refine ⟨l.next t, ⟨n, Option.map_eq_some_iff.mpr ⟨t, hn, rfl⟩⟩, ?_, ?_, ?_, ?_, ?_⟩
  · show (l.va + SECT_SIZE).toNat = _
    rw [BitVec.toNat_add, hva, show SECT_SIZE.toNat = 512 from rfl]
    omega
  · have hle := h.low
    omega
  · omega
  · show (l.secno + 1#32).toNat = _
    rw [BitVec.toNat_add, hsecno, show (1#32).toNat = 1 from rfl]
    have hle := h.low
    omega
  · show t.mem = _
    rw [ht, h.mem, hsecno]
    exact placeTo_next h.low (by omega) m hva

/-- `readseg` ends when there is an address behind the sectors of the segment. -/
theorem readseg_ends (hready : hw.Responds) (h : g.Linked) (hstop : g.stop ≤ 2 ^ 32 - 512)
    (s : Boot) :
    ∃ t, Ends (readseg hw g.dest g.memsz g.offset) s t ∧ t.mem = g.place hw s.mem := by
  have hend : (g.dest + g.memsz).toNat = g.stop := by
    rw [BitVec.toNat_add]
    exact Nat.mod_eq_of_lt (lt_of_le_of_lt hstop (by omega))
  have hlow : g.low ≤ g.high := by
    unfold Segment.low Segment.high Segment.stop
    omega
  have hlow' : 512 * (g.low / 512) = g.low := Nat.mul_div_cancel' (Nat.dvd_mul_left 512 _)
  have hstart : InSector hw g s.mem (g.low / 512)
      ⟨g.dest - g.offset % SECT_SIZE, g.offset / SECT_SIZE + 1#32, s⟩ := by
    refine ⟨?_, by omega, by omega, ?_, ?_⟩
    · rw [hlow', start_toNat h]
    · rw [hlow', secno_toNat, Nat.sub_self]
    · funext x
      rw [hlow']
      exact (if_neg (by omega)).symm
  have hstep : ∀ l : Reading, (∃ k, InSector hw g s.mem k l) → l.va < g.dest + g.memsz →
      ∃ l', Ends (readNext hw) l l' ∧ (∃ k, InSector hw g s.mem k l') ∧
        2 ^ 32 - l'.va.toNat < 2 ^ 32 - l.va.toNat := by
    intro l hI hcond
    obtain ⟨k, hk⟩ := hI
    have hva := hk.va
    rw [BitVec.lt_def, hend, hva] at hcond
    obtain ⟨l', hl', hk'⟩ := hk.step hready hcond hstop
    have hva' := hk'.va
    exact ⟨l', hl', ⟨_, hk'⟩, by omega⟩
  have hloop := loop_ends mono_readNext _ (fun l => 2 ^ 32 - l.va.toNat) hstep ⟨_, hstart⟩
  obtain ⟨l, hl, ⟨k, hk⟩, hcond⟩ := hloop
  refine ⟨l.boot, readseg_ends_iff.mpr ⟨l, hl, rfl⟩, ?_⟩
  have hva := hk.va
  have hle := hk.high
  rw [BitVec.lt_def, hend] at hcond
  -- the first sector that is not read is the one behind the segment
  have hhigh : 512 * k = g.high := by
    unfold Segment.high at hle ⊢
    omega
  rw [hk.mem, hhigh]
  rfl

/-- A segment that reaches into the last sector of the address space: `va` wraps around before it
gets to the end. -/
theorem readseg_diverges (h : g.Linked) (hlast : 2 ^ 32 - 512 < g.stop) (hstop : g.stop < 2 ^ 32) :
    ¬ Ends (readseg hw g.dest g.memsz g.offset) s t := by
  rw [readseg_ends_iff]
  intro ⟨l, hl, _⟩
  have hend : (g.dest + g.memsz).toNat = g.stop := by
    rw [BitVec.toNat_add]
    exact Nat.mod_eq_of_lt hstop
  refine loop_diverges (fun l : Reading => l.va.toNat % 512 = 0) ?_ ?_ ?_ hl
  · intro l l' hva hstep
    obtain ⟨n, hn⟩ := hstep
    obtain ⟨t, -, rfl⟩ := Option.map_eq_some_iff.mp hn
    show (l.va + SECT_SIZE).toNat % 512 = 0
    rw [BitVec.toNat_add, show SECT_SIZE.toNat = 512 from rfl]
    omega
  · intro l hva
    rw [BitVec.lt_def, hend]
    have hlt := l.va.isLt
    omega
  · rw [start_toNat h]
    exact Nat.mul_mod_left _ _

/-- A segment up to the last address: its end is 0, and nothing is read. -/
theorem readseg_skips (hstop : g.stop = 2 ^ 32) :
    Ends (readseg hw g.dest g.memsz g.offset) s s := by
  have hend : (g.dest + g.memsz).toNat = 0 := by
    rw [BitVec.toNat_add, ← Nat.mod_self (2 ^ 32)]
    exact congrArg (· % 2 ^ 32) hstop
  refine readseg_ends_iff.mpr ⟨_, (ends_loop_neg ?_).mpr rfl, rfl⟩
  rw [BitVec.lt_def, hend]
  exact Nat.not_lt_zero _

/-! ## The header buffer -/

/-- The header buffer holds the first 4096 bytes of the image. -/
def HoldsHeader (hw : Channel) (m : Memory) : Prop :=
  ∀ k < 4096, m (KERNEL_HEADER + BitVec.ofNat 32 k) = hw.image k

theorem header_addr (hk : k ≤ 4096) :
    (KERNEL_HEADER + BitVec.ofNat 32 k).toNat = 0x10000 + k := by
  have hkernel : KERNEL_HEADER.toNat = 0x10000 := rfl
  rw [BitVec.toNat_add, BitVec.toNat_ofNat, hkernel]
  omega

theorem HoldsHeader.dword {m : Memory} (h : HoldsHeader hw m) (hk : k + 4 ≤ 4096) :
    load m (KERNEL_HEADER + BitVec.ofNat 32 k) = hw.image.dword k := by
  have hbyte : ∀ j < 4, m (KERNEL_HEADER + BitVec.ofNat 32 k + BitVec.ofNat 32 j) =
      hw.image (k + j) := by
    intro j hj
    rw [BitVec.add_assoc, ← BitVec.ofNat_add]
    exact h (k + j) (by omega)
  unfold load Image.dword
  rw [h k (by omega), hbyte 1 (by omega), hbyte 2 (by omega), hbyte 3 (by omega)]

theorem HoldsHeader.word {m : Memory} (h : HoldsHeader hw m) (hk : k + 2 ≤ 4096) :
    load16 m (KERNEL_HEADER + BitVec.ofNat 32 k) = hw.image.word k := by
  unfold load16 Image.word
  rw [h k (by omega), BitVec.add_assoc, ← BitVec.ofNat_add, h (k + 1) (by omega)]

/-- What the first `readseg` of `bootmain` reads. -/
def headerBuffer : Segment := ⟨0#32, KERNEL_HEADER, SECT_SIZE * 8#32⟩

theorem headerBuffer_byte (a : ℕ) :
    headerBuffer.byte hw a = hw.disk false (512 + (a - 0x10000)) := rfl

theorem readHeader_ends (hready : hw.Responds) (s : Boot) :
    ∃ t, Ends (readseg hw KERNEL_HEADER (SECT_SIZE * 8#32) 0#32) s t ∧ HoldsHeader hw t.mem ∧
      ∀ x : Word, ¬ (0x10000 ≤ x.toNat ∧ x.toNat < 0x11000) → t.mem x = s.mem x := by
  have hlow : headerBuffer.low = 0x10000 := by decide
  have hhigh : headerBuffer.high = 0x11000 := by decide
  have hlinked : headerBuffer.Linked := ⟨by decide, fun h => absurd h (by decide), by decide⟩
  obtain ⟨t, ht, hmem⟩ := readseg_ends hready hlinked (by decide) s
  refine ⟨t, ht, fun k hk => ?_, fun x hx => ?_⟩
  · have haddr := header_addr (k := k) (by omega)
    rw [hmem, Segment.place_in (by omega), headerBuffer_byte, haddr, Nat.add_sub_cancel_left]
    rfl
  · rw [hmem, Segment.place_off (by omega)]

/-! ## All segments -/

/-- There is an address behind the sectors of segment `i`. -/
def Fits (hw : Channel) (i : ℕ) : Prop := (hw.image.segment i).stop ≤ 2 ^ 32 - 512

instance (i : ℕ) : Decidable (Fits hw i) := Nat.decLe ..

/-- The first segments in their places; those that `readseg` skips are not. -/
def placed (hw : Channel) : ℕ → Memory → Memory
  | 0, m => m
  | i + 1, m =>
    if Fits hw i then (hw.image.segment i).place hw (placed hw i m) else placed hw i m

def InSectors (hw : Channel) (i : ℕ) (x : Word) : Prop :=
  (hw.image.segment i).low ≤ x.toNat ∧ x.toNat < (hw.image.segment i).high

section
variable {m : Memory} {i j n : ℕ} {x : Word}

theorem placed_off (h : ∀ j < i, Fits hw j → ¬ InSectors hw j x) : placed hw i m x = m x := by
  induction i with
  | zero => rfl
  | succ i ih =>
    have hrest := ih fun j hj => h j (by omega)
    unfold placed
    split_ifs with hfits
    · rw [Segment.place_off (h i (by omega) hfits), hrest]
    · exact hrest

theorem placed_at (hj : j < i) (hfits : Fits hw j) (hx : InSectors hw j x)
    (h : ∀ k < i, k ≠ j → ¬ InSectors hw k x) :
    placed hw i m x = (hw.image.segment j).byte hw x.toNat := by
  induction i with
  | zero => exact absurd hj (Nat.not_lt_zero j)
  | succ i ih =>
    unfold placed
    by_cases hij : i = j
    · subst hij
      rw [if_pos hfits, Segment.place_in hx]
    · have hrest := ih (by omega) fun k hk => h k (by omega)
      split_ifs with hfits'
      · rw [Segment.place_off (h i (by omega) hij), hrest]
      · exact hrest

/-- The sectors of a segment are in its pages, and so they are no other segment's. -/
theorem inSectors_only (h : hw.image.Linked) (hi : i < hw.image.phnum) (hj : j < hw.image.phnum)
    (hij : i ≠ j) (hx : InSectors hw i x) : ¬ InSectors hw j x := by
  intro hx'
  have hpage := (h.linked i hi).page hx.1 hx.2
  have hpage' := (h.linked j hj).page hx'.1 hx'.2
  exact Set.disjoint_left.mp (h.disjoint i hi j hj hij) hpage hpage'

theorem inSectors_buffer (h : hw.image.Linked) (hi : i < hw.image.phnum) (hx : InSectors hw i x) :
    ¬ (0x10000 ≤ x.toNat ∧ x.toNat < 0x11000) := by
  intro hbuffer
  have hpage := (h.linked i hi).page hx.1 hx.2
  rw [show x.toNat / 4096 = 16 by omega] at hpage
  exact h.buffer i hi hpage

/-- The headers that are still to be read are not written over. -/
theorem HoldsHeader.placed (h : hw.image.Linked) (hi : i ≤ hw.image.phnum)
    (hm : HoldsHeader hw m) : HoldsHeader hw (placed hw i m) := by
  intro k hk
  have haddr := header_addr (k := k) (by omega)
  rw [placed_off, hm k hk]
  intro j hj _ hx
  exact inSectors_buffer h (by omega) hx (by omega)

/-- `ph < eph` -/
theorem header_lt_iff (h : hw.image.Linked) (hi : i ≤ hw.image.phnum) :
    KERNEL_HEADER + BitVec.ofNat 32 (hw.image.header i) <
      KERNEL_HEADER + BitVec.ofNat 32 (hw.image.header hw.image.phnum) ↔ i < hw.image.phnum := by
  by_cases hzero : hw.image.phnum = 0
  · rw [show i = hw.image.phnum by omega]
    exact iff_of_false (BitVec.lt_irrefl _) (Nat.lt_irrefl _)
  · have hlast := h.headers (hw.image.phnum - 1) (by omega)
    rw [show hw.image.phnum - 1 + 1 = hw.image.phnum by omega] at hlast
    have hle : hw.image.header i ≤ hw.image.header hw.image.phnum :=
      Nat.add_le_add_left (Nat.mul_le_mul_left 32 hi) _
    rw [BitVec.lt_def, header_addr hlast, header_addr (hle.trans hlast)]
    unfold Image.header
    omega

theorem mono_loadNext : Mono (loadNext hw) :=
  mono_of_map (fun _ _ => rfl) fun _ => mono_readseg

theorem mono_loadSegments : Mono (loadSegments hw) :=
  mono_of_map (fun _ _ => rfl) fun _ => mono_loadNext.loop

/-- The loop of `bootmain`, in front of header `i`; `m` is the memory that it started with. -/
structure AtHeader (hw : Channel) (m : Memory) (i : ℕ) (l : Headers) : Prop where
  le : i ≤ hw.image.phnum
  ph : l.ph = KERNEL_HEADER + BitVec.ofNat 32 (hw.image.header i)
  mem : l.boot.mem = placed hw i m
  ended : ∀ j < i, Fits hw j ∨ (hw.image.segment j).stop = 2 ^ 32

theorem AtHeader.start (s : Boot) :
    AtHeader hw s.mem 0 ⟨KERNEL_HEADER + BitVec.ofNat 32 (hw.image.header 0), s⟩ :=
  ⟨Nat.zero_le _, rfl, rfl, fun j hj => absurd hj (Nat.not_lt_zero j)⟩

/-- The header is still as it was read. -/
theorem AtHeader.loadNext_ends_iff {l l' : Headers} (h : hw.image.Linked) (hm : HoldsHeader hw m)
    (hl : AtHeader hw m i l) (hi : i < hw.image.phnum) :
    let g := hw.image.segment i
    Ends (loadNext hw) l l' ↔
      ∃ t, Ends (readseg hw g.dest g.memsz g.offset) l.boot t ∧ ⟨l.ph + 32#32, t⟩ = l' := by
  intro g
  have hheader : HoldsHeader hw l.boot.mem := by
    rw [hl.mem]
    exact hm.placed h hl.le
  have hnext := h.headers i hi
  have hfield : ∀ k, k + 4 ≤ 32 → load l.boot.mem (l.ph + BitVec.ofNat 32 k) =
      hw.image.dword (hw.image.header i + k) := by
    intro k hk
    rw [hl.ph, BitVec.add_assoc, ← BitVec.ofNat_add]
    apply hheader.dword
    unfold Image.header at hnext ⊢
    omega
  have hva : l.boot.pVa l.ph = g.va := hfield 8 (by omega)
  have hoffset : l.boot.pOffset l.ph = g.offset := hfield 4 (by omega)
  have hmemsz : l.boot.pMemsz l.ph = g.memsz := hfield 20 (by omega)
  apply ends_of_map
  intro n
  show (readseg hw (l.boot.pVa l.ph &&& _) (l.boot.pMemsz l.ph) (l.boot.pOffset l.ph) n l.boot).map
    _ = _
  rw [hva, hoffset, hmemsz]
  rfl

/-- One more segment: it is placed when it fits, and skipped when it ends at the last address. -/
theorem AtHeader.next {l : Headers} {t : Boot} (h : hw.image.Linked) (hready : hw.Responds)
    (hl : AtHeader hw m i l) (hi : i < hw.image.phnum)
    (ht : Ends (readseg hw (hw.image.segment i).dest (hw.image.segment i).memsz
      (hw.image.segment i).offset) l.boot t) :
    AtHeader hw m (i + 1) ⟨l.ph + 32#32, t⟩ := by
  have hlinked := h.linked i hi
  have hph : l.ph + 32#32 = KERNEL_HEADER + BitVec.ofNat 32 (hw.image.header (i + 1)) := by
    rw [hl.ph, BitVec.add_assoc, ← BitVec.ofNat_add]
    rfl
  have hmem : t.mem = placed hw (i + 1) m ∧
      (Fits hw i ∨ (hw.image.segment i).stop = 2 ^ 32) := by
    unfold placed
    by_cases hfits : Fits hw i
    · obtain ⟨u, hu, hmem⟩ := readseg_ends hready hlinked hfits l.boot
      rw [if_pos hfits, ← hl.mem, ht.unique mono_readseg hu]
      exact ⟨hmem, Or.inl hfits⟩
    · by_cases hstop : (hw.image.segment i).stop = 2 ^ 32
      · rw [if_neg hfits, ← hl.mem, ht.unique mono_readseg (readseg_skips hstop)]
        exact ⟨rfl, Or.inr hstop⟩
      · have hle := hlinked.fits
        exact absurd ht (readseg_diverges hlinked (not_le.mp hfits) (by omega))
  refine ⟨hi, hph, hmem.1, fun j hj => ?_⟩
  rcases Nat.lt_succ_iff_lt_or_eq.mp hj with hlt | rfl
  · exact hl.ended j hlt
  · exact hmem.2

theorem loadSegments_ends_iff (hm : HoldsHeader hw s.mem) :
    Ends (loadSegments hw) s t ↔ ∃ l, Ends (loop (fun l => l.ph < KERNEL_HEADER +
      BitVec.ofNat 32 (hw.image.header hw.image.phnum)) (loadNext hw))
      ⟨KERNEL_HEADER + BitVec.ofNat 32 (hw.image.header 0), s⟩ l ∧ l.boot = t := by
  have hphoff : s.ePhoff = BitVec.ofNat 32 (hw.image.header 0) := by
    have hload : s.ePhoff = hw.image.dword 28 := hm.dword (by omega)
    rw [hload, Image.header, Nat.mul_zero, Nat.add_zero, BitVec.ofNat_toNat, BitVec.setWidth_eq]
  have hphnum : s.ePhnum = hw.image.word 44 := hm.word (by omega)
  have heph : KERNEL_HEADER + s.ePhoff + 32#32 * s.ePhnum.setWidth 32 =
      KERNEL_HEADER + BitVec.ofNat 32 (hw.image.header hw.image.phnum) := by
    rw [hphoff, BitVec.add_assoc, hphnum]
    congr 1
    unfold Image.header Image.phnum
    apply BitVec.eq_of_toNat_eq
    rw [BitVec.toNat_add, BitVec.toNat_mul, BitVec.toNat_setWidth, BitVec.toNat_ofNat,
      BitVec.toNat_ofNat, BitVec.toNat_ofNat]
    omega
  apply ends_of_map
  intro n
  show (loop (fun l : Headers => l.ph < KERNEL_HEADER + s.ePhoff + 32#32 * s.ePhnum.setWidth 32)
    (loadNext hw) n ⟨KERNEL_HEADER + s.ePhoff, s⟩).map _ = _
  rw [heph, hphoff]

/-- When the loop ends, it has got behind the last header. -/
theorem loadSegments_placed (h : hw.image.Linked) (hready : hw.Responds)
    (hm : HoldsHeader hw s.mem) (ht : Ends (loadSegments hw) s t) :
    t.mem = placed hw hw.image.phnum s.mem ∧
      ∀ j < hw.image.phnum, Fits hw j ∨ (hw.image.segment j).stop = 2 ^ 32 := by
  obtain ⟨l, hl, rfl⟩ := (loadSegments_ends_iff hm).mp ht
  have hinv := hl.loop_inv (fun l => ∃ i, AtHeader hw s.mem i l) ?_ ⟨0, .start s⟩
  · obtain ⟨⟨i, hi⟩, hcond⟩ := hinv
    rw [hi.ph, header_lt_iff h hi.le, not_lt] at hcond
    obtain rfl : i = hw.image.phnum := le_antisymm hi.le hcond
    exact ⟨hi.mem, hi.ended⟩
  · intro l l' hI hcond hnext
    obtain ⟨i, hi⟩ := hI
    rw [hi.ph, header_lt_iff h hi.le] at hcond
    obtain ⟨u, hu, rfl⟩ := (hi.loadNext_ends_iff h hm hcond).mp hnext
    exact ⟨i + 1, hi.next h hready hcond hu⟩

/-- It does when every segment fits. -/
theorem loadSegments_ends (h : hw.image.Linked) (hready : hw.Responds)
    (hfits : ∀ i < hw.image.phnum, Fits hw i) (hm : HoldsHeader hw s.mem) :
    ∃ t, Ends (loadSegments hw) s t := by
  let stop : Word := KERNEL_HEADER + BitVec.ofNat 32 (hw.image.header hw.image.phnum)
  have hstep : ∀ l : Headers, (∃ i, AtHeader hw s.mem i l) → l.ph < stop →
      ∃ l', Ends (loadNext hw) l l' ∧ (∃ i, AtHeader hw s.mem i l') ∧
        2 ^ 32 - l'.ph.toNat < 2 ^ 32 - l.ph.toNat := by
    intro l hI hcond
    obtain ⟨i, hi⟩ := hI
    rw [hi.ph, header_lt_iff h hi.le] at hcond
    obtain ⟨u, hu, -⟩ := readseg_ends hready (h.linked i hcond) (hfits i hcond) l.boot
    have hnext := hi.next h hready hcond hu
    refine ⟨_, (hi.loadNext_ends_iff h hm hcond).mpr ⟨u, hu, rfl⟩, ⟨i + 1, hnext⟩, ?_⟩
    have hheader := h.headers i hcond
    rw [hnext.ph, hi.ph, header_addr hheader, header_addr (by unfold Image.header at *; omega)]
    unfold Image.header at hheader ⊢
    omega
  obtain ⟨l, hl, -⟩ :=
    loop_ends mono_loadNext _ (fun l => 2 ^ 32 - l.ph.toNat) hstep ⟨0, .start s⟩
  exact ⟨l.boot, (loadSegments_ends_iff hm).mpr ⟨l, hl, rfl⟩⟩

/-- What `bootmain` does when the header is read. -/
def enterKernel (hw : Channel) (fuel : ℕ) (s : Boot) : Option (Jump × Boot) :=
  if s.eMagic ≠ ELF_MAGIC then some (.bad, s)
  else (loadSegments hw fuel s).map fun s => (.entry (s.eEntry &&& 0xFFFFFF#32), s)

theorem bootmain_eq : bootmain hw =
    andThen (readseg hw KERNEL_HEADER (SECT_SIZE * 8#32) 0#32) (enterKernel hw) := by
  funext n s
  unfold bootmain andThen enterKernel
  refine congrArg (Option.bind _) (funext fun u => ?_)
  split_ifs
  · rfl
  · rw [Option.map_eq_bind]
    rfl

theorem mono_enterKernel : Mono (enterKernel hw) := by
  intro n m s r hnm h
  unfold enterKernel at h ⊢
  split_ifs at h ⊢ with hmagic
  · exact h
  · obtain ⟨t, ht, hr⟩ := Option.map_eq_some_iff.mp h
    exact Option.map_eq_some_iff.mpr ⟨t, mono_loadSegments n m s t hnm ht, hr⟩

theorem HoldsHeader.magic (h : hw.image.Linked) (hm : HoldsHeader hw s.mem) :
    s.eMagic = ELF_MAGIC := by
  have hload := hm.dword (k := 0) (by omega)
  rw [h.magic] at hload
  exact hload

theorem bootmain_ends_iff {pc : Word} {u : Boot} (h : hw.image.Linked)
    (hu : Ends (readseg hw KERNEL_HEADER (SECT_SIZE * 8#32) 0#32) s u)
    (hheader : HoldsHeader hw u.mem) :
    Ends (bootmain hw) s (.entry pc, t) ↔
      Ends (loadSegments hw) u t ∧ t.eEntry &&& 0xFFFFFF#32 = pc := by
  have hmap : Ends (enterKernel hw) u (.entry pc, t) ↔ ∃ t', Ends (loadSegments hw) u t' ∧
      (Jump.entry (t'.eEntry &&& 0xFFFFFF#32), t') = (.entry pc, t) :=
    ends_of_map fun n => if_neg (not_not_intro (hheader.magic h))
  rw [bootmain_eq, ends_andThen_iff mono_readseg mono_enterKernel]
  constructor
  · intro ⟨u', hu', ht⟩
    rw [hu'.unique mono_readseg hu, hmap] at ht
    obtain ⟨t', ht', heq⟩ := ht
    obtain rfl : t' = t := congrArg Prod.snd heq
    exact ⟨ht', Jump.entry.inj (congrArg Prod.fst heq)⟩
  · intro ⟨ht, hpc⟩
    refine ⟨u, hu, hmap.mpr ⟨t, ht, ?_⟩⟩
    rw [hpc]

theorem dest_inSectors {k : ℕ} (hk : k < (hw.image.segment i).memsz.toNat)
    (hstop : (hw.image.segment i).stop ≤ 2 ^ 32) :
    ((hw.image.segment i).dest + BitVec.ofNat 32 k).toNat = (hw.image.segment i).dest.toNat + k ∧
      InSectors hw i ((hw.image.segment i).dest + BitVec.ofNat 32 k) := by
  have haddr : ((hw.image.segment i).dest + BitVec.ofNat 32 k).toNat =
      (hw.image.segment i).dest.toNat + k := by
    unfold Segment.stop at hstop
    rw [BitVec.toNat_add, BitVec.toNat_ofNat]
    omega
  refine ⟨haddr, ?_⟩
  unfold InSectors Segment.low Segment.high Segment.stop
  rw [haddr]
  omega

/-- All segments in their places. -/
theorem placed_loaded (h : hw.image.Linked) (hfits : ∀ i < hw.image.phnum, Fits hw i)
    (hm : ∀ x : Word, ¬ (0x10000 ≤ x.toNat ∧ x.toNat < 0x11000) → m x = s.mem x) :
    Loaded hw s.mem (placed hw hw.image.phnum m) := by
  constructor
  · intro i hi k hk
    have hlinked := h.linked i hi
    obtain ⟨haddr, hin⟩ := dest_inSectors hk hlinked.fits
    rw [placed_at hi (hfits i hi) hin fun j hj hji => inSectors_only h hi hj hji.symm hin]
    -- the sectors are those of the disk, at the same offset
    have hmod := hlinked.offset_mod
    refine congrArg (hw.disk false) ?_
    rw [haddr]
    unfold Segment.low
    omega
  · intro x hbuffer hothers
    rw [placed_off fun j hj _ => hothers j hj, hm x hbuffer]

theorem bootmain_loads (h : hw.image.Linked) (hready : hw.Responds)
    (hfits : ∀ i < hw.image.phnum, Fits hw i) (s : Boot) :
    ∃ t, Ends (bootmain hw) s (.entry (hw.image.dword 24 &&& 0xFFFFFF#32), t) ∧
      Loaded hw s.mem t.mem := by
  obtain ⟨u, hu, hheader, hothers⟩ := readHeader_ends hready s
  obtain ⟨t, ht⟩ := loadSegments_ends h hready hfits hheader
  have hmem := (loadSegments_placed h hready hheader ht).1
  have hentry : t.eEntry = hw.image.dword 24 := by
    have hkept := hheader.placed h le_rfl
    rw [← hmem] at hkept
    exact hkept.dword (by omega)
  refine ⟨t, (bootmain_ends_iff h hu hheader).mpr ⟨ht, by rw [hentry]⟩, ?_⟩
  rw [hmem]
  exact placed_loaded h hfits hothers

/-- A segment that does not fit ends where the addresses end, and it is not read. -/
theorem bootmain_skips {pc : Word} (h : hw.image.Linked) (hready : hw.Responds)
    (hi : i < hw.image.phnum) (hfits : ¬ Fits hw i) (ht : Ends (bootmain hw) s (.entry pc, t)) :
    (hw.image.segment i).stop = 2 ^ 32 ∧
      ∀ x : Word, InSectors hw i x → t.mem x = s.mem x := by
  obtain ⟨u, hu, hheader, hothers⟩ := readHeader_ends hready s
  obtain ⟨hmem, hended⟩ :=
    loadSegments_placed h hready hheader ((bootmain_ends_iff h hu hheader).mp ht).1
  refine ⟨(hended i hi).resolve_left hfits, fun x hx => ?_⟩
  -- no other segment writes there
  have hsame := placed_off (m := u.mem) (i := hw.image.phnum) fun j hj hfitsj =>
    inSectors_only h hi hj (fun hij => hfits (hij ▸ hfitsj)) hx
  rw [hmem, hsame, hothers _ (inSectors_buffer h hi hx)]

/-- The boot loader places every segment, when there is an address behind the sectors of each, and
only then. -/
theorem bootmain_loads_iff (h : hw.image.Linked) (hready : hw.Responds) :
    (∀ s, ∃ t, Ends (bootmain hw) s (.entry (hw.image.dword 24 &&& 0xFFFFFF#32), t) ∧
      Loaded hw s.mem t.mem) ↔
    ∀ i < hw.image.phnum, (hw.image.segment i).stop ≤ 2 ^ 32 - 512 := by
  refine ⟨fun hloads i hi => ?_, fun hfits s => bootmain_loads h hready hfits s⟩
  by_contra hfits
  -- the disk's contents are not there by chance
  let s : Boot := ⟨fun _ => ~~~ hw.disk false (512 + (hw.image.segment i).offset.toNat),
    Ide.taskFile 0#8 0#32, fun _ => 0#8, 0⟩
  obtain ⟨t, ht, hloaded⟩ := hloads s
  obtain ⟨hstop, hkept⟩ := bootmain_skips h hready hi hfits ht
  have hpos : 0 < (hw.image.segment i).memsz.toNat := by
    have hlt := (hw.image.segment i).dest_lt
    unfold Segment.stop at hstop
    omega
  obtain ⟨-, hin⟩ := dest_inSectors hpos hstop.le
  have hbyte := hloaded.segments i hi 0 hpos
  rw [hkept _ hin] at hbyte
  exact absurd hbyte.symm (by simp [s])

/-! ## An image of one segment -/

/-- The headers of a kernel of one segment, at 1 MiB. -/
def oneSegmentWords (memsz : Word) : List Word :=
  [ELF_MAGIC, 0#32, 0#32, 0#32, 0#32, 0#32, 0xC0100000#32, 52#32, 0#32, 0#32, 0#32, 1#32, 0#32,
    1#32, 0x1000#32, 0xC0100000#32, 0#32, memsz, memsz, 7#32, 0x1000#32]

def oneSegment (memsz : Word) : Channel where
  status _ := 0x40#8
  disk _ i := ((oneSegmentWords memsz).getD ((i - 512) / 4) 0#32).extractLsb' (8 * (i % 4)) 8

theorem oneSegment_byte (memsz : Word) (j : ℕ) {k : ℕ} (hk : k < 4) :
    (oneSegment memsz).image (4 * j + k) =
      ((oneSegmentWords memsz).getD j 0#32).extractLsb' (8 * k) 8 := by
  unfold oneSegment Channel.image
  dsimp only
  rw [show (512 + (4 * j + k) - 512) / 4 = j by omega,
    show (512 + (4 * j + k)) % 4 = k by omega]

theorem oneSegment_dword (memsz : Word) (j : ℕ) :
    (oneSegment memsz).image.dword (4 * j) = (oneSegmentWords memsz).getD j 0#32 := by
  have hzero : (oneSegment memsz).image (4 * j) =
      ((oneSegmentWords memsz).getD j 0#32).extractLsb' 0 8 :=
    oneSegment_byte memsz j (k := 0) (by omega)
  unfold Image.dword
  rw [oneSegment_byte memsz j (k := 3) (by omega), oneSegment_byte memsz j (k := 2) (by omega),
    oneSegment_byte memsz j (k := 1) (by omega), hzero,
    BitVec.extractLsb'_append_extractLsb'_eq_extractLsb' (by omega),
    BitVec.extractLsb'_append_extractLsb'_eq_extractLsb' (by omega),
    BitVec.extractLsb'_append_extractLsb'_eq_extractLsb' (by omega)]
  exact BitVec.extractLsb'_eq_self

theorem oneSegment_segment (memsz : Word) :
    (oneSegment memsz).image.segment 0 = ⟨0x1000#32, 0xC0100000#32, memsz⟩ := by
  have hheader : (oneSegment memsz).image.header 0 = 52 := by
    unfold Image.header
    rw [show 28 = 4 * 7 from rfl, oneSegment_dword]
    rfl
  unfold Image.segment
  rw [hheader]
  congr 1
  · exact oneSegment_dword memsz 14
  · exact oneSegment_dword memsz 15
  · exact oneSegment_dword memsz 18

theorem oneSegment_linked {memsz : Word} (h : 0x100000 + memsz.toNat ≤ 2 ^ 32) :
    (oneSegment memsz).image.Linked := by
  have hphnum : (oneSegment memsz).image.phnum = 1 := by
    unfold Image.phnum Image.word
    rw [show 44 + 1 = 4 * 11 + 1 from rfl, show 44 = 4 * 11 + 0 from rfl,
      oneSegment_byte memsz 11 (by omega), oneSegment_byte memsz 11 (by omega),
      show (oneSegmentWords memsz).getD 11 0#32 = 1#32 from rfl]
    decide
  have hone : ∀ i, i < (oneSegment memsz).image.phnum → i = 0 := by
    intro i hi
    rw [hphnum] at hi
    omega
  have hdest : (⟨0x1000#32, 0xC0100000#32, memsz⟩ : Segment).dest.toNat = 0x100000 :=
    (by decide : (0xC0100000#32 &&& 0xFFFFFF#32 : Word).toNat = 0x100000)
  refine ⟨oneSegment_dword memsz 0, ?_, ?_, ?_, ?_⟩
  · intro i hi
    obtain rfl := hone i hi
    unfold Image.header
    rw [show 28 = 4 * 7 from rfl, oneSegment_dword]
    exact (by decide : 52 + 32 * 1 ≤ 4096)
  · intro i hi
    obtain rfl := hone i hi
    rw [oneSegment_segment]
    refine ⟨(by decide : 0xC0100000 % 4096 = 0x1000 % 4096),
      fun _ => (by decide : 0x1000 % 512 = 0), ?_⟩
    unfold Segment.stop
    rwa [hdest]
  · intro i hi j hj hij
    exact absurd ((hone i hi).trans (hone j hj).symm) hij
  · intro i hi hpage
    obtain rfl := hone i hi
    rw [oneSegment_segment] at hpage
    obtain ⟨k, -, hk⟩ := hpage
    rw [hdest] at hk
    omega

theorem oneSegment_responds (memsz : Word) : (oneSegment memsz).Responds :=
  fun n => ⟨n, le_rfl, by show 0x40#8 &&& 0xC0#8 = 0x40#8; decide⟩

/-- Empty memory. -/
def blank : Boot := ⟨fun _ => 0#8, Ide.taskFile 0#8 0#32, fun _ => 0#8, 0⟩

/-- A kernel of 64 KiB. -/
theorem bootmain_loads_small :
    ∃ t, Ends (bootmain (oneSegment 0x10000#32)) blank
        (.entry ((oneSegment 0x10000#32).image.dword 24 &&& 0xFFFFFF#32), t) ∧
      Loaded (oneSegment 0x10000#32) blank.mem t.mem := by
  have hlinked : (oneSegment 0x10000#32).image.Linked := oneSegment_linked (by decide)
  refine (bootmain_loads_iff hlinked (oneSegment_responds _)).mpr ?_ blank
  intro i hi
  obtain rfl := Nat.lt_one_iff.mp hi
  rw [oneSegment_segment]
  decide

/-- A segment that ends in the last sector of the address space: the kernel is never entered. -/
theorem bootmain_loops :
    (oneSegment 0xFFEFFFFF#32).image.Linked ∧ (oneSegment 0xFFEFFFFF#32).Responds ∧
      ∀ s t pc, ¬ Ends (bootmain (oneSegment 0xFFEFFFFF#32)) s (.entry pc, t) := by
  have hlinked : (oneSegment 0xFFEFFFFF#32).image.Linked := oneSegment_linked (by decide)
  have hready := oneSegment_responds 0xFFEFFFFF#32
  refine ⟨hlinked, hready, fun s t pc ht => ?_⟩
  have hfits : ¬ Fits (oneSegment 0xFFEFFFFF#32) 0 := by
    unfold Fits
    rw [oneSegment_segment]
    decide
  obtain ⟨hstop, -⟩ := bootmain_skips hlinked hready Nat.zero_lt_one hfits ht
  rw [oneSegment_segment] at hstop
  revert hstop
  decide

end
end Boot
end Zonix
