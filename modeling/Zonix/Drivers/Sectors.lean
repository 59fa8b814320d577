import Zonix.Drivers.DetectTheorems
import Mathlib.Order.Interval.Set.LinearOrder
import Mathlib.Data.Set.Lattice
import Mathlib.Algebra.GroupWithZero.Nat
import Mathlib.Order.CompletePartialOrder

/-!
# The sectors of a device

The check of a transfer against the size of its device is made in 32 bits, and the address that is
programmed has 28. Below `2 ^ 28` sectors, and when the sum does not wrap around, a transfer stays
where it was asked to be, and what was written is read back.
-/

namespace Zonix
namespace Ide

/-- The command is for the sector `lba` of the drive, and for no other one. -/
structure Denotes (c : Command) (dev : IdeDevice) (code : Byte) (lba : ℕ) : Prop where
  base : c.base = dev.base
  code : c.code = code
  sectorCount : c.regs.sectorCount = 1#8
  slave : c.regs.slave = decide (dev.drive ≠ 0#8)
  lba : c.regs.lba = lba

/-- A transfer from `s` to `t` returned `r`: where sectors are not on the device it was refused, and
otherwise the `i`-th command was for sector `secno + i`. -/
structure StaysInside (s t : Ide) (r : ℤ) (dev : IdeDevice) (secno nsecs : Word) (code : Byte) :
    Prop where
  refused : ¬ Set.Ico secno.toNat (secno.toNat + nsecs.toNat) ⊆ Set.Ico 0 dev.size.toNat →
    r = -1 ∧ t.commands = s.commands
  denotes : Set.Ico secno.toNat (secno.toNat + nsecs.toNat) ⊆ Set.Ico 0 dev.size.toNat →
    ∃ new : List Command, t.commands = new.reverse ++ s.commands ∧
      ∀ i (hi : i < new.length), Denotes new[i] dev code (secno.toNat + i)

section Transfers
variable {s t : Ide} {r : ℤ} {dev : IdeDevice} {devId : ℕ} {secno nsecs : Word} {code : Byte}

theorem transfer_denotes {i : ℕ} :
    Denotes (transfer dev secno code i) dev code (secno.toNat + i) ↔ secno.toNat + i < 2 ^ 28 := by
  constructor
  · intro h
    have hlba := h.lba
    rw [transfer_lba_mod] at hlba
    omega
  · exact fun h => ⟨rfl, rfl, rfl, transfer_slave, transfer_lba h⟩

theorem ico_subset_iff {a n m : ℕ} : Set.Ico a (a + n) ⊆ Set.Ico 0 m ↔ n = 0 ∨ a + n ≤ m := by
  rcases Nat.eq_zero_or_pos n with rfl | hn
  · simp
  · rw [Set.Ico_subset_Ico_iff (by omega)]
    omega

theorem staysInside_refused (s : Ide) (dev : IdeDevice) (secno nsecs : Word) (code : Byte) :
    StaysInside s s (-1) dev secno nsecs code :=
  ⟨fun _ => ⟨rfl, rfl⟩, fun _ => ⟨[], rfl, fun i hi => absurd hi (Nat.not_lt_zero i)⟩⟩

/-- A transfer of sectors that the device has, and that 28 bits can address. -/
theorem Ended.staysInside (h : Ended s t r dev secno code 0 nsecs.toNat)
    (hsize : nsecs = 0#32 ∨ secno.toNat + nsecs.toNat ≤ dev.size.toNat)
    (hrange : nsecs = 0#32 ∨ secno.toNat + nsecs.toNat ≤ 2 ^ 28) :
    StaysInside s t r dev secno nsecs code := by
  have hzero : nsecs = 0#32 ↔ nsecs.toNat = 0 := by
    rw [← BitVec.toNat_inj]
    rfl
  rw [hzero] at hsize hrange
  obtain ⟨j, hj, htransferred, -⟩ := h.transferred
  refine ⟨fun hout => absurd (ico_subset_iff.mpr hsize) hout, fun _ => ⟨_, htransferred, ?_⟩⟩
  intro i hi
  rw [List.length_map, List.length_range'] at hi
  rw [List.getElem_map, List.getElem_range', Nat.zero_add, Nat.one_mul]
  apply transfer_denotes.mpr
  omega

/-- A transfer that came to its end shows every one of its sectors. -/
theorem Ended.inside (h : Ended s t r dev secno code 0 nsecs.toNat) (hr : r = 0)
    (hs : StaysInside s t r dev secno nsecs code) : nsecs = 0#32 ∨
      secno.toNat + nsecs.toNat ≤ dev.size.toNat ∧ secno.toNat + nsecs.toNat ≤ 2 ^ 28 := by
  by_cases hin : Set.Ico secno.toNat (secno.toNat + nsecs.toNat) ⊆ Set.Ico 0 dev.size.toNat
  · rcases Nat.eq_zero_or_pos nsecs.toNat with hzero | hpos
    · exact Or.inl (BitVec.eq_of_toNat_eq hzero)
    have hsize := (ico_subset_iff.mp hin).resolve_left (by omega)
    refine Or.inr ⟨hsize, ?_⟩
    obtain ⟨new, hnew, hdenotes⟩ := hs.denotes hin
    obtain ⟨j, -, htransferred, hall⟩ := h.transferred
    obtain rfl := hall hr
    obtain rfl : (List.range' 0 nsecs.toNat).map (transfer dev secno code) = new :=
      List.reverse_inj.mp (List.append_cancel_right (htransferred.symm.trans hnew))
    by_contra hlarge
    -- the last sector
    have hlast := hdenotes (nsecs.toNat - 1) (by rw [List.length_map, List.length_range']; omega)
    rw [List.getElem_map, List.getElem_range', Nat.zero_add, Nat.one_mul, transfer_denotes] at hlast
    omega
  · have hneg := (hs.refused hin).1
    omega

/-- Both directions, however the drives answer. -/
def Safe (s : Ide) (devId : ℕ) (secno nsecs : Word) : Prop :=
  ∀ status buf, let u := { s with status := status }
    StaysInside u (u.hdWriteDevice devId secno buf nsecs).2
      (u.hdWriteDevice devId secno buf nsecs).1 (s.devices devId) secno nsecs IDE_CMD_WRITE ∧
    StaysInside u (u.hdReadDevice devId secno buf nsecs).2.1
      (u.hdReadDevice devId secno buf nsecs).1 (s.devices devId) secno nsecs IDE_CMD_READ

theorem size_lt_iff : dev.size < secno + nsecs ↔
    dev.size.toNat < (secno.toNat + nsecs.toNat) % 2 ^ 32 := by
  rw [BitVec.lt_def, BitVec.toNat_add]

/-- For every device, sector and number of sectors: what is outside of the device is refused, and
what is inside is addressed, if and only if 28 bits are enough for the sectors inside, and the sum
that is checked is still too large for those that are not. -/
theorem safe_iff (hpres : (s.devices devId).present = true) :
    s.Safe devId secno nsecs ↔ nsecs = 0#32 ∨
      (secno.toNat + nsecs.toNat ≤ (s.devices devId).size.toNat ∧
        secno.toNat + nsecs.toNat ≤ 2 ^ 28) ∨
      (s.devices devId).size.toNat < (secno.toNat + nsecs.toNat) % 2 ^ 32 := by
  constructor
  · intro h
    by_cases hfit : (s.devices devId).size < secno + nsecs
    · exact Or.inr (Or.inr (size_lt_iff.mp hfit))
    let u := { s with status := fun _ _ => IDE_DRDY ||| IDE_DRQ }
    have hended := hdWriteLoop_ended (s.devices devId) secno (fun _ => 0#32) nsecs.toNat 0 u
    have hwrite := (h u.status fun _ => 0#32).1
    rw [hdWriteDevice_eq (s := u) _ hpres hfit] at hwrite
    rcases hended.inside (hended.answers (answers_of_status fun _ => rfl)) hwrite with
      hzero | hinside
    · exact Or.inl hzero
    · exact Or.inr (Or.inl hinside)
  · intro h status buf
    let u := { s with status := status }
    by_cases hfit : (s.devices devId).size < secno + nsecs
    · dsimp only
      rw [hdWriteDevice_refused (s := u) buf hpres hfit,
        hdReadDevice_refused (s := u) buf hpres hfit]
      exact ⟨staysInside_refused .., staysInside_refused ..⟩
    · rw [size_lt_iff] at hfit
      have hsize : nsecs = 0#32 ∨
          secno.toNat + nsecs.toNat ≤ (s.devices devId).size.toNat := by
        rcases h with hzero | ⟨hsize, -⟩ | hwrap
        · exact Or.inl hzero
        · exact Or.inr hsize
        · exact absurd hwrap hfit
      have hrange : nsecs = 0#32 ∨ secno.toNat + nsecs.toNat ≤ 2 ^ 28 := by
        rcases h with hzero | ⟨-, hrange⟩ | hwrap
        · exact Or.inl hzero
        · exact Or.inr hrange
        · exact absurd hwrap hfit
      rw [← size_lt_iff] at hfit
      dsimp only
      rw [hdWriteDevice_eq (s := u) buf hpres hfit, hdReadDevice_eq (s := u) buf hpres hfit]
      exact ⟨(hdWriteLoop_ended ..).staysInside hsize hrange,
        (hdReadLoop_ended ..).staysInside hsize hrange⟩

end Transfers

/-- A machine with one disk of `size` sectors, which always answers. -/
def oneDisk (size : Word) : Ide where
  devices devId := ⟨0#8, 0x1F0#16, size, decide (devId = 0)⟩
  status := fun _ _ => IDE_DRDY ||| IDE_DRQ
  polls := 0
  regs := fun _ => ⟨0#8, 0#8, 0#8, 0#8, 0#8⟩
  commands := []
  sector := fun _ _ _ _ => 0#32

/-- The last sector, and the one behind it. -/
theorem safe_iff_hundred : (oneDisk 100#32).Safe 0 99#32 1#32 ∧
    (oneDisk 100#32).Safe 0 100#32 1#32 :=
  ⟨(safe_iff rfl).mpr (by decide), (safe_iff rfl).mpr (by decide)⟩

/-- Two sectors from `2 ^ 32 - 1` on are sectors of a disk that has 100: the last one that can be
addressed, and the first. On a disk with more than `2 ^ 28` sectors, sector `2 ^ 28` is sector 0. -/
theorem hdWriteDevice_strays :
    (((oneDisk 100#32).hdWriteDevice 0 0xFFFFFFFF#32 (fun _ => 0#32) 2#32).2.commands.map fun c =>
      c.regs.lba) = [0, 2 ^ 28 - 1] ∧
    ¬ (oneDisk 100#32).Safe 0 0xFFFFFFFF#32 2#32 ∧
    (((oneDisk 0x10000001#32).hdWriteDevice 0 0x10000000#32 (fun _ => 0#32) 1#32).2.commands.map
      fun c => c.regs.lba) = [0] ∧
    ¬ (oneDisk 0x10000001#32).Safe 0 0x10000000#32 1#32 := by
  have hwrap : (((oneDisk 100#32).hdWriteDevice 0 0xFFFFFFFF#32 (fun _ => 0#32) 2#32).2.commands.map
      fun c => c.regs.lba) = [0, 2 ^ 28 - 1] := by
    decide +kernel
  have hlarge : (((oneDisk 0x10000001#32).hdWriteDevice 0 0x10000000#32 (fun _ => 0#32)
      1#32).2.commands.map fun c => c.regs.lba) = [0] := by
    decide +kernel
  refine ⟨hwrap, fun h => ?_, hlarge, fun h => ?_⟩
  · obtain ⟨hwrite, -⟩ := h (oneDisk 100#32).status fun _ => 0#32
    have hout : ¬ Set.Ico (0xFFFFFFFF#32).toNat ((0xFFFFFFFF#32).toNat + (2#32).toNat) ⊆
        Set.Ico 0 (100#32).toNat := by
      rw [ico_subset_iff]
      decide
    have hnone := (hwrite.refused hout).2
    rw [hnone] at hwrap
    exact absurd hwrap (by decide)
  · obtain ⟨hwrite, -⟩ := h (oneDisk 0x10000001#32).status fun _ => 0#32
    have hin : Set.Ico (0x10000000#32).toNat ((0x10000000#32).toNat + (1#32).toNat) ⊆
        Set.Ico 0 (0x10000001#32).toNat := by
      rw [ico_subset_iff]
      decide
    obtain ⟨new, hnew, hdenotes⟩ := hwrite.denotes hin
    rw [hnew] at hlarge
    have hlength : new.length = 1 := by simpa [oneDisk] using congrArg List.length hlarge
    obtain ⟨c, rfl⟩ := List.length_eq_one_iff.mp hlength
    have hzero : c.regs.lba = 0 := by simpa [oneDisk] using hlarge
    have hlba := (hdenotes 0 (by simp)).lba
    rw [List.getElem_cons_zero, hzero] at hlba
    exact absurd hlba (by decide)

/-! ## What is written is read back -/

/-- The sectors of a device. -/
def sectorOf (s : Ide) (devId lba w : ℕ) : Word :=
  s.sector (s.devices devId).base (decide ((s.devices devId).drive ≠ 0#8)) lba w

/-- No two positions are the same drive of the same channel. -/
theorem ideConfigs_apart : ∀ d e : Fin MAX_IDE_DEVICES, d ≠ e →
    (ideConfigs d).base = (ideConfigs e).base →
      decide ((ideConfigs d).drive ≠ 0#8) ≠ decide ((ideConfigs e).drive ≠ 0#8) := by
  decide

section RoundTrip
variable {s t : Ide} {secno nsecs : Word} {src : ℕ → Word}

/-- Only a present device is written, and only sectors that pass the check. -/
theorem hdWriteDevice_zero {devId : ℕ} (h : s.hdWriteDevice devId secno src nsecs = (0, t)) :
    (s.devices devId).present = true ∧ ¬ (s.devices devId).size < secno + nsecs := by
  have hneg : ((-1, s) : ℤ × Ide) ≠ (0, t) := fun hc => absurd (congrArg Prod.fst hc) (by simp)
  by_cases hpres : (s.devices devId).present = true
  · refine ⟨hpres, fun hlt => ?_⟩
    rw [hdWriteDevice_refused src hpres hlt] at h
    exact hneg h
  · rw [hdWriteDevice, if_pos hpres] at h
    exact absurd h hneg

theorem hdWriteDevice_stored {devId : ℕ} (hrange : secno.toNat + nsecs.toNat ≤ 2 ^ 28)
    (h : s.hdWriteDevice devId secno src nsecs = (0, t)) :
    Stored s t (s.devices devId) secno.toNat src 0 nsecs.toNat := by
  obtain ⟨hpres, hfit⟩ := hdWriteDevice_zero h
  rw [hdWriteDevice_eq src hpres hfit] at h
  have hr : (hdWriteLoop (s.devices devId) secno src nsecs.toNat 0 s).1 = 0 := by rw [h]
  have hstored := hdWriteLoop_stored src (by omega) hr
  rwa [h] at hstored

/-- The devices are those that `hd_init` found. A write that returns 0 is read back, and changes no
other sector, of this device or of another one. -/
theorem hdReadDevice_hdWriteDevice {hd : Hd} {d : Fin MAX_IDE_DEVICES}
    (hinit : s.devices = hd.hdInit.devices)
    (hsize : secno.toNat + nsecs.toNat ≤ (s.devices d).size.toNat)
    (hmax : (s.devices d).size.toNat ≤ 2 ^ 28)
    (hwrite : s.hdWriteDevice d secno src nsecs = (0, t)) :
    (t.Answers (s.devices d).base → ∀ dst, ∃ u buf,
      t.hdReadDevice d secno dst nsecs = (0, u, buf) ∧ u.sector = t.sector ∧
      ∀ w, buf w = if w < nsecs.toNat * SECTOR_WORDS then src w else dst w) ∧
    (∀ lba w, ¬ (secno.toNat ≤ lba ∧ lba < secno.toNat + nsecs.toNat) →
      t.sectorOf d lba w = s.sectorOf d lba w) ∧
    ∀ e : Fin MAX_IDE_DEVICES, e ≠ d → (s.devices e).present = true → ∀ lba w,
      t.sectorOf e lba w = s.sectorOf e lba w := by
  have hdevices : t.devices = s.devices := by
    have hlater := (s.hdWriteDevice_later d secno src nsecs).devices
    rwa [hwrite] at hlater
  have hpres := (hdWriteDevice_zero hwrite).1
  have hstored := hdWriteDevice_stored (hsize.trans hmax) hwrite
  refine ⟨fun hanswers dst => ?_, fun lba w hout => ?_, fun e hne hpres' lba w => ?_⟩
  · rw [← hdevices] at hanswers hpres hsize
    obtain ⟨u, buf, hread, -, hsector, hloaded⟩ :=
      hdReadDevice_spec secno dst nsecs hanswers hpres hsize (by rw [hdevices] at hsize; omega)
    refine ⟨u, buf, hread, hsector, fun w => ?_⟩
    rw [hloaded w, hdevices, hstored]
    unfold SECTOR_WORDS
    by_cases hw : w < nsecs.toNat * 128
    · have hindex : (secno.toNat + w / 128 - secno.toNat) * 128 + w % 128 = w := by omega
      rw [if_pos (by omega), if_pos ⟨rfl, rfl, by omega, by omega, by omega⟩, if_pos hw, hindex]
    · rw [if_neg (by omega), if_neg hw]
  · rw [sectorOf, sectorOf, hdevices, hstored, if_neg fun hh => hout (by omega)]
  · -- another position is another drive, or on the other channel
    have hscanned := hd.hdInit_scanned
    rw [hinit] at hpres hpres'
    have hentry := (hscanned.entry d hpres).device
    have hentry' := (hscanned.entry e hpres').device
    rw [sectorOf, sectorOf, hdevices, hstored, if_neg]
    rintro ⟨hbase, hslave, -⟩
    rw [hinit, hentry, hentry'] at hbase hslave
    exact ideConfigs_apart e d hne hbase hslave

end RoundTrip

/-- Both drives of the primary channel answer, and no other one. -/
def primaryPair : Hd :=
  { Hd.onlyHdc with status := fun base _ => if base = IDE0_BASE then IDE_DRDY ||| IDE_DRQ else 0#8 }

/-- The disks of the pair, empty. -/
def emptyPair : Ide := { oneDisk 0#32 with devices := primaryPair.hdInit.devices }

/-- Two sectors of `hda` are written and read back, and `hdb` is still empty. -/
theorem hdReadDevice_hdWriteDevice_pair : ∃ t u buf,
    emptyPair.hdWriteDevice (0 : Fin 4) 5#32 (BitVec.ofNat 32) 2#32 = (0, t) ∧
    t.hdReadDevice (0 : Fin 4) 5#32 (fun _ => 0#32) 2#32 = (0, u, buf) ∧ buf 200 = 200#32 ∧
    t.sectorOf (1 : Fin 4) 5 7 = 0#32 := by
  have hinit : emptyPair.devices = primaryPair.hdInit.devices := by rw [emptyPair]
  have hpres : (emptyPair.devices (0 : Fin 4)).present = true := by decide +kernel
  have hpres' : (emptyPair.devices (1 : Fin 4)).present = true := by decide +kernel
  have hsize : (5#32).toNat + (2#32).toNat ≤ (emptyPair.devices (0 : Fin 4)).size.toNat := by
    decide +kernel
  have hmax : (emptyPair.devices (0 : Fin 4)).size.toNat ≤ 2 ^ 28 := by decide +kernel
  have hanswers : emptyPair.Answers (emptyPair.devices (0 : Fin 4)).base :=
    answers_of_status fun _ => rfl
  obtain ⟨t, hwrite, hlater, -⟩ := hdWriteDevice_spec (s := emptyPair) 5#32 (BitVec.ofNat 32) 2#32
    hanswers hpres hsize (by decide)
  obtain ⟨hread, -, hothers⟩ := hdReadDevice_hdWriteDevice hinit hsize hmax hwrite
  obtain ⟨u, buf, heq, -, hbuf⟩ := hread (hanswers.later hlater) fun _ => 0#32
  have hword := hbuf 200
  rw [if_pos (by decide)] at hword
  have hne : (1 : Fin 4) ≠ 0 := by decide
  have hother := hothers (1 : Fin 4) hne hpres' 5 7
  have hempty : emptyPair.sectorOf (1 : Fin 4) 5 7 = 0#32 := by rw [sectorOf, emptyPair, oneDisk]
  exact ⟨t, u, buf, hwrite, heq, hword, hother.trans hempty⟩

end Ide
end Zonix
