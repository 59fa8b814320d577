import Zonix.Drivers.Blk
import Mathlib.Tactic.SplitIfs

/-!
# Transfers of the IDE disks

When the drives answer in time, `hd_write_device` stores the buffer in exactly the sectors it
was asked to, and `hd_read_device` fills the buffer with what the sectors hold. Both waits
only poll, so the one thing that the transfers depend on is how the drives answer.
-/

namespace Zonix
namespace Ide

/-! ## The LBA28 address -/

theorem taskFile_slave (dev : IdeDevice) (lba : Word) :
    (taskFile (driveSel dev) lba).slave = decide (dev.drive ≠ 0#8) := by
  have hbit : (((lba >>> 24) &&& 0x0F#32).setWidth 8).getLsbD 4 = false := by
    rw [BitVec.getLsbD_setWidth, BitVec.getLsbD_and, show (0x0F#32).getLsbD 4 = false by decide,
      Bool.and_false, Bool.and_false]
  show (driveSel dev ||| ((lba >>> 24) &&& 0x0F#32).setWidth 8).getLsbD 4 = _
  rw [BitVec.getLsbD_or, hbit, Bool.or_false, driveSel]
  by_cases hd : dev.drive ≠ 0#8
  · rw [if_pos hd, decide_eq_true hd]
    decide
  · rw [if_neg hd, decide_eq_false hd]
    decide

theorem lba_byte (x : Word) : ((x &&& 0xFF#32).setWidth 8).toNat = x.toNat % 2 ^ 8 := by
  rw [BitVec.toNat_setWidth, BitVec.toNat_and,
    show x.toNat &&& (0xFF#32).toNat = x.toNat % 2 ^ 8 from Nat.and_two_pow_sub_one_eq_mod _ 8,
    Nat.mod_mod]

/-- The low nibble of the device register carries the top four bits of the address. -/
theorem device_nibble (dev : IdeDevice) (x : Word) :
    (driveSel dev ||| (x &&& 0x0F#32).setWidth 8).toNat % 16 = x.toNat % 2 ^ 4 := by
  have hsel : (driveSel dev).toNat % 2 ^ 4 = 0 := by
    rw [driveSel]
    split_ifs <;> rfl
  rw [BitVec.toNat_or, BitVec.toNat_setWidth, BitVec.toNat_and,
    show x.toNat &&& (0x0F#32).toNat = x.toNat % 2 ^ 4 from Nat.and_two_pow_sub_one_eq_mod _ 4,
    show 16 = 2 ^ 4 from rfl, Nat.or_mod_two_pow, hsel, Nat.zero_or]
  omega

/-- The registers carry the low 28 bits of the address. -/
theorem taskFile_lba_mod (dev : IdeDevice) (lba : Word) :
    (taskFile (driveSel dev) lba).lba = lba.toNat % 2 ^ 28 := by
  show ((lba &&& 0xFF#32).setWidth 8).toNat + (((lba >>> 8) &&& 0xFF#32).setWidth 8).toNat * 2 ^ 8 +
    (((lba >>> 16) &&& 0xFF#32).setWidth 8).toNat * 2 ^ 16 +
    (driveSel dev ||| ((lba >>> 24) &&& 0x0F#32).setWidth 8).toNat % 16 * 2 ^ 24 = _
  rw [lba_byte, lba_byte, lba_byte, device_nibble, BitVec.toNat_ushiftRight,
    BitVec.toNat_ushiftRight, BitVec.toNat_ushiftRight, Nat.shiftRight_eq_div_pow,
    Nat.shiftRight_eq_div_pow, Nat.shiftRight_eq_div_pow]
  omega

/-- The registers carry the address of every sector below 128 GiB. -/
theorem taskFile_lba (dev : IdeDevice) {lba : Word} (h : lba.toNat < 2 ^ 28) :
    (taskFile (driveSel dev) lba).lba = lba.toNat := by
  rw [taskFile_lba_mod, Nat.mod_eq_of_lt h]

/-! ## Waiting -/

/-- `t` is `s` later on: the same drives, which answer as they would have. -/
structure Later (s t : Ide) : Prop where
  devices : t.devices = s.devices
  status : t.status = s.status
  polls : s.polls ≤ t.polls

theorem Later.refl (s : Ide) : Later s s := ⟨rfl, rfl, Nat.le_refl _⟩

theorem Later.trans {s t u : Ide} (h : Later s t) (h' : Later t u) : Later s u :=
  ⟨h'.devices.trans h.devices, h'.status.trans h.status, Nat.le_trans h.polls h'.polls⟩

/-- The drives of the channel are never late and report no error, from now on. -/
def Answers (s : Ide) (base : Port) : Prop :=
  ∀ t, Later s t → (t.hdWaitReadyOnBase base).1 = 0 ∧ (t.hdWaitDataOnBase base).1 = 0

theorem Answers.later {s t : Ide} {base : Port} (h : s.Answers base) (ht : Later s t) :
    t.Answers base := fun u hu => h u (ht.trans hu)

/-- A drive that is always ready, and always has data or takes it. -/
theorem answers_of_status {s : Ide} {base : Port}
    (h : ∀ n, s.status base n = IDE_DRDY ||| IDE_DRQ) : s.Answers base := by
  intro t ht
  have hstatus : ∀ n, t.status base n = IDE_DRDY ||| IDE_DRQ := fun n => by rw [ht.status, h]
  constructor
  · show (hdWaitReady base (99999 + 1) t).1 = 0
    rw [hdWaitReady, inbStatus]
    dsimp only
    rw [hstatus, if_pos (by decide)]
  · show (hdWaitData base (99999 + 1) t).1 = 0
    rw [hdWaitData, inbStatus]
    dsimp only
    rw [hstatus, if_pos (by decide)]

/-- Only the status was read. -/
def Polled (s t : Ide) : Prop := ∃ p, s.polls ≤ p ∧ t = { s with polls := p }

theorem Polled.later {s t : Ide} (h : Polled s t) : Later s t := by
  obtain ⟨p, hp, rfl⟩ := h
  exact ⟨rfl, rfl, hp⟩

theorem Polled.commands {s t : Ide} (h : Polled s t) : t.commands = s.commands := by
  obtain ⟨p, -, rfl⟩ := h
  rfl

theorem Polled.regs {s t : Ide} (h : Polled s t) : t.regs = s.regs := by
  obtain ⟨p, -, rfl⟩ := h
  rfl

theorem Polled.sector {s t : Ide} (h : Polled s t) : t.sector = s.sector := by
  obtain ⟨p, -, rfl⟩ := h
  rfl

theorem hdWaitReady_polled (base : Port) (timeout : ℕ) (s : Ide) :
    Polled s (hdWaitReady base timeout s).2 := by
  induction timeout generalizing s with
  | zero => exact ⟨s.polls, Nat.le_refl _, rfl⟩
  | succ timeout ih =>
    rw [hdWaitReady, inbStatus]
    dsimp only
    by_cases hok : s.status base s.polls &&& (IDE_BSY ||| IDE_DRDY) = IDE_DRDY
    · rw [if_pos hok]
      exact ⟨s.polls + 1, by omega, rfl⟩
    · rw [if_neg hok]
      obtain ⟨p, hp, heq⟩ := ih { s with polls := s.polls + 1 }
      exact ⟨p, by simp only at hp; omega, heq⟩

theorem hdWaitData_polled (base : Port) (timeout : ℕ) (s : Ide) :
    Polled s (hdWaitData base timeout s).2 := by
  induction timeout generalizing s with
  | zero => exact ⟨s.polls, Nat.le_refl _, rfl⟩
  | succ timeout ih =>
    rw [hdWaitData, inbStatus]
    dsimp only
    by_cases hok : s.status base s.polls &&& (IDE_BSY ||| IDE_DRQ) = IDE_DRQ
    · rw [if_pos hok]
      exact ⟨s.polls + 1, by omega, rfl⟩
    rw [if_neg hok]
    by_cases herr : s.status base s.polls &&& IDE_ERR ≠ 0#8
    · rw [if_pos herr]
      exact ⟨s.polls + 1, by omega, rfl⟩
    · rw [if_neg herr]
      obtain ⟨p, hp, heq⟩ := ih { s with polls := s.polls + 1 }
      exact ⟨p, by simp only at hp; omega, heq⟩

theorem hdWaitReadyOnBase_polled (s : Ide) (base : Port) :
    Polled s (s.hdWaitReadyOnBase base).2 := hdWaitReady_polled base 100000 s

theorem hdWaitDataOnBase_polled (s : Ide) (base : Port) :
    Polled s (s.hdWaitDataOnBase base).2 := hdWaitData_polled base 100000 s

/-! ## Commands -/

/-- The command for sector `i` of a transfer. -/
def transfer (dev : IdeDevice) (secno : Word) (code : Byte) (i : ℕ) : Command :=
  ⟨dev.base, taskFile (driveSel dev) (secno + BitVec.ofNat 32 i), code⟩

/-- From `s` to `t` the commands for the sectors `i` to `i + j` were issued, in this order. -/
def Transferred (s t : Ide) (dev : IdeDevice) (secno : Word) (code : Byte) (i j : ℕ) : Prop :=
  t.commands = ((List.range' i j).map (transfer dev secno code)).reverse ++ s.commands

section Loops
variable {dev : IdeDevice} {secno : Word} {code : Byte} {s t u : Ide} {i j k : ℕ}

theorem Transferred.none (h : t.commands = s.commands) : Transferred s t dev secno code i 0 := h

theorem Transferred.one (h : t.commands = transfer dev secno code i :: s.commands) :
    Transferred s t dev secno code i 1 := h

theorem Transferred.trans (h : Transferred s t dev secno code i j)
    (h' : Transferred t u dev secno code (i + j) k) : Transferred s u dev secno code i (j + k) := by
  unfold Transferred
  rw [h', h, ← List.range'_append_1, List.map_append, List.reverse_append, List.append_assoc]

theorem transfer_slave : (transfer dev secno code i).regs.slave = decide (dev.drive ≠ 0#8) :=
  taskFile_slave ..

theorem transfer_lba_mod : (transfer dev secno code i).regs.lba = (secno.toNat + i) % 2 ^ 28 := by
  rw [transfer, taskFile_lba_mod, BitVec.toNat_add, BitVec.toNat_ofNat]
  omega

theorem transfer_lba (h : secno.toNat + i < 2 ^ 28) :
    (transfer dev secno code i).regs.lba = secno.toNat + i := by
  rw [transfer_lba_mod, Nat.mod_eq_of_lt h]

/-! ## One turn -/

/-- The command for sector `i`, behind the first wait. -/
def issue (s : Ide) (dev : IdeDevice) (secno : Word) (code : Byte) (i : ℕ) : Ide :=
  ((s.hdWaitReadyOnBase dev.base).2.outbRegs dev.base (driveSel dev)
    (secno + BitVec.ofNat 32 i)).outbCommand dev.base code

/-- The drive has data, or takes it. -/
def issueData (s : Ide) (dev : IdeDevice) (secno : Word) (code : Byte) (i : ℕ) : Ide :=
  ((s.issue dev secno code i).hdWaitDataOnBase dev.base).2

theorem issue_regs : (s.issue dev secno code i).regs dev.base = (transfer dev secno code i).regs :=
  Function.update_self ..

theorem issue_later : Later s (s.issue dev secno code i) := by
  obtain ⟨hdevices, hstatus, hpolls⟩ := (hdWaitReadyOnBase_polled s dev.base).later
  exact ⟨hdevices, hstatus, hpolls⟩

theorem issue_transferred : Transferred s (s.issue dev secno code i) dev secno code i 1 := by
  apply Transferred.one
  show (⟨dev.base, (s.issue dev secno code i).regs dev.base, code⟩ : Command) ::
    (s.hdWaitReadyOnBase dev.base).2.commands = _
  rw [issue_regs, (hdWaitReadyOnBase_polled s dev.base).commands]
  rfl

theorem issue_sector : (s.issue dev secno code i).sector = s.sector :=
  (hdWaitReadyOnBase_polled s dev.base).sector

theorem issueData_polled : Polled (s.issue dev secno code i) (s.issueData dev secno code i) :=
  hdWaitDataOnBase_polled _ dev.base

theorem issueData_later : Later s (s.issueData dev secno code i) :=
  issue_later.trans issueData_polled.later

theorem issueData_transferred : Transferred s (s.issueData dev secno code i) dev secno code i 1 :=
  issueData_polled.commands.trans issue_transferred

theorem issueData_regs :
    (s.issueData dev secno code i).regs dev.base = (transfer dev secno code i).regs :=
  (congrFun issueData_polled.regs dev.base).trans issue_regs

theorem issueData_sector : (s.issueData dev secno code i).sector = s.sector :=
  issueData_polled.sector.trans issue_sector

/-- The loop gave up: there was a wait in which the drive did not answer. -/
structure GaveUp (s t : Ide) (dev : IdeDevice) (secno : Word) (code : Byte) (i : ℕ) : Prop where
  silent : ¬ s.Answers dev.base
  later : Later s t
  transferred : ∃ j ≤ 1, Transferred s t dev secno code i j

theorem gaveUp_ready (h : (s.hdWaitReadyOnBase dev.base).1 ≠ 0) :
    GaveUp s (s.hdWaitReadyOnBase dev.base).2 dev secno code i := by
  have hpolled := hdWaitReadyOnBase_polled s dev.base
  exact ⟨fun ha => h (ha s (.refl s)).1, hpolled.later, 0, by omega, .none hpolled.commands⟩

theorem gaveUp_data (h : ((s.issue dev secno code i).hdWaitDataOnBase dev.base).1 ≠ 0) :
    GaveUp s (s.issueData dev secno code i) dev secno code i :=
  ⟨fun ha => h (ha _ issue_later).2, issueData_later, 1, Nat.le_refl 1, issueData_transferred⟩

/-- Sector `i` of the buffer was stored where the registers said. -/
def Put (s t : Ide) (dev : IdeDevice) (secno : Word) (src : ℕ → Word) (i : ℕ) : Prop :=
  ∀ b slave lba w, t.sector b slave lba w =
    if b = dev.base ∧ slave = (transfer dev secno IDE_CMD_WRITE i).regs.slave ∧
        lba = (transfer dev secno IDE_CMD_WRITE i).regs.lba ∧ w < SECTOR_WORDS then
      src (i * SECTOR_WORDS + w)
    else s.sector b slave lba w

theorem outswData_put (s : Ide) (dev : IdeDevice) (secno : Word) (src : ℕ → Word) (i : ℕ) :
    Put s ((s.issueData dev secno IDE_CMD_WRITE i).outswData dev.base src i) dev secno src i := by
  intro b slave lba w
  rw [outswData, issueData_regs, issueData_sector]

theorem Put.polled {src : ℕ → Word} (h : Put s t dev secno src i) (hp : Polled t u) :
    Put s u dev secno src i := by
  unfold Put
  rw [hp.sector]
  exact h

/-- A turn of the loop writes one sector, or it is the last one. -/
theorem hdWriteLoop_cases (dev : IdeDevice) (secno : Word) (src : ℕ → Word) (k i : ℕ) (s : Ide) :
    (∃ t, hdWriteLoop dev secno src (k + 1) i s = (-1, t) ∧
      GaveUp s t dev secno IDE_CMD_WRITE i) ∨
    ∃ t, hdWriteLoop dev secno src (k + 1) i s = hdWriteLoop dev secno src k (i + 1) t ∧
      Later s t ∧ Transferred s t dev secno IDE_CMD_WRITE i 1 ∧ Put s t dev secno src i := by
  let u := (s.issueData dev secno IDE_CMD_WRITE i).outswData dev.base src i
  have hpolled : Polled u (u.hdWaitReadyOnBase dev.base).2 := hdWaitReadyOnBase_polled u dev.base
  have hlater : Later s u := by
    have hdata : Later s (s.issueData dev secno IDE_CMD_WRITE i) := issueData_later
    exact ⟨hdata.devices, hdata.status, hdata.polls⟩
  have htransferred : Transferred s u dev secno IDE_CMD_WRITE i 1 := issueData_transferred
  simp only [hdWriteLoop]
  split_ifs with hready hdata hdone
  · exact Or.inl ⟨_, rfl, gaveUp_ready hready⟩
  · exact Or.inl ⟨_, rfl, gaveUp_data hdata⟩
  · exact Or.inl ⟨_, rfl, fun ha => hdone (ha u hlater).1, hlater.trans hpolled.later, 1,
      Nat.le_refl 1, hpolled.commands.trans htransferred⟩
  · exact Or.inr ⟨_, rfl, hlater.trans hpolled.later, hpolled.commands.trans htransferred,
      (outswData_put s dev secno src i).polled hpolled⟩

/-- Sector `i` of the buffer was filled from where the registers said. -/
def Got (s : Ide) (dev : IdeDevice) (secno : Word) (dst buf : ℕ → Word) (i : ℕ) : Prop :=
  ∀ w, buf w =
    if w / SECTOR_WORDS = i then
      s.sector dev.base (transfer dev secno IDE_CMD_READ i).regs.slave
        (transfer dev secno IDE_CMD_READ i).regs.lba (w % SECTOR_WORDS)
    else dst w

theorem inswData_got (s : Ide) (dev : IdeDevice) (secno : Word) (dst : ℕ → Word) (i : ℕ) :
    Got s dev secno dst ((s.issueData dev secno IDE_CMD_READ i).inswData dev.base dst i) i := by
  intro w
  rw [inswData, issueData_regs, issueData_sector]

theorem hdReadLoop_cases (dev : IdeDevice) (secno : Word) (k i : ℕ) (s : Ide) (dst : ℕ → Word) :
    (∃ t, hdReadLoop dev secno (k + 1) i s dst = (-1, t, dst) ∧ t.sector = s.sector ∧
      GaveUp s t dev secno IDE_CMD_READ i) ∨
    ∃ t buf, hdReadLoop dev secno (k + 1) i s dst = hdReadLoop dev secno k (i + 1) t buf ∧
      t.sector = s.sector ∧ Later s t ∧ Transferred s t dev secno IDE_CMD_READ i 1 ∧
      Got s dev secno dst buf i := by
  simp only [hdReadLoop]
  split_ifs with hready hdata
  · exact Or.inl ⟨_, rfl, (hdWaitReadyOnBase_polled s dev.base).sector, gaveUp_ready hready⟩
  · exact Or.inl ⟨_, rfl, issueData_sector, gaveUp_data hdata⟩
  · exact Or.inr ⟨_, _, rfl, issueData_sector, issueData_later, issueData_transferred,
      inswData_got s dev secno dst i⟩

/-! ## How a transfer ends -/

/-- A loop with `k` sectors to go, from sector `i` on, went from `s` to `t` and returned `r`: it
issued the commands in order, all of them if `r` is 0. -/
structure Ended (s t : Ide) (r : ℤ) (dev : IdeDevice) (secno : Word) (code : Byte) (i k : ℕ) :
    Prop where
  later : Later s t
  transferred : ∃ j ≤ k, Transferred s t dev secno code i j ∧ (r = 0 → j = k)
  answers : s.Answers dev.base → r = 0

theorem Ended.done (s : Ide) : Ended s s 0 dev secno code i 0 :=
  ⟨.refl s, ⟨0, Nat.le_refl 0, .none rfl, fun _ => rfl⟩, fun _ => rfl⟩

theorem GaveUp.ended (h : GaveUp s t dev secno code i) :
    Ended s t (-1) dev secno code i (k + 1) := by
  obtain ⟨j, hj, htransferred⟩ := h.transferred
  exact ⟨h.later, ⟨j, by omega, htransferred, fun hr => by omega⟩, fun ha => absurd ha h.silent⟩

theorem Ended.step {r : ℤ} (h : Ended t u r dev secno code (i + 1) k) (hlater : Later s t)
    (htransferred : Transferred s t dev secno code i 1) :
    Ended s u r dev secno code i (k + 1) := by
  obtain ⟨j, hj, hrest, hall⟩ := h.transferred
  refine ⟨hlater.trans h.later, ⟨1 + j, by omega, htransferred.trans hrest, fun hr => ?_⟩,
    fun ha => h.answers (ha.later hlater)⟩
  have hk := hall hr
  omega

theorem hdWriteLoop_ended (dev : IdeDevice) (secno : Word) (src : ℕ → Word) (k i : ℕ) (s : Ide) :
    Ended s (hdWriteLoop dev secno src k i s).2 (hdWriteLoop dev secno src k i s).1 dev secno
      IDE_CMD_WRITE i k := by
  induction k generalizing i s with
  | zero => exact .done s
  | succ k ih =>
    rcases hdWriteLoop_cases dev secno src k i s with ⟨t, heq, hgave⟩ | ⟨t, heq, hlater, htr, -⟩
    · rw [heq]
      exact hgave.ended
    · rw [heq]
      exact (ih (i + 1) t).step hlater htr

theorem hdReadLoop_ended (dev : IdeDevice) (secno : Word) (k i : ℕ) (s : Ide) (dst : ℕ → Word) :
    Ended s (hdReadLoop dev secno k i s dst).2.1 (hdReadLoop dev secno k i s dst).1 dev secno
      IDE_CMD_READ i k := by
  induction k generalizing i s dst with
  | zero => exact .done s
  | succ k ih =>
    rcases hdReadLoop_cases dev secno k i s dst with
      ⟨t, heq, -, hgave⟩ | ⟨t, buf, heq, -, hlater, htr, -⟩
    · rw [heq]
      exact hgave.ended
    · rw [heq]
      exact (ih (i + 1) t buf).step hlater htr

/-! ## Writing -/

/-- The sectors of a drive from `secno` on hold the buffer's sectors `i` to `i + k`; every
other sector is as before. -/
def Stored (s t : Ide) (dev : IdeDevice) (secno : ℕ) (src : ℕ → Word) (i k : ℕ) : Prop :=
  ∀ b slave lba w, t.sector b slave lba w =
    if b = dev.base ∧ slave = decide (dev.drive ≠ 0#8) ∧ secno + i ≤ lba ∧ lba < secno + (i + k) ∧
        w < SECTOR_WORDS then
      src ((lba - secno) * SECTOR_WORDS + w)
    else s.sector b slave lba w

theorem Put.stored {src : ℕ → Word} (h : Put s t dev secno src i)
    (hi : secno.toNat + i < 2 ^ 28) : Stored s t dev secno.toNat src i 1 := by
  intro b slave lba w
  rw [h, transfer_slave, transfer_lba hi]
  by_cases hlba : lba = secno.toNat + i
  · subst hlba
    simp
  · rw [if_neg fun hh => hlba hh.2.2.1, if_neg fun hh => hlba (by omega)]

theorem Stored.trans {n : ℕ} {src : ℕ → Word} (h : Stored s t dev n src i 1)
    (h' : Stored t u dev n src (i + 1) k) : Stored s u dev n src i (k + 1) := by
  intro b slave lba w
  rw [h' b slave lba w, h b slave lba w]
  by_cases hlba : lba = n + i
  · subst hlba
    rw [if_neg fun hh => by omega]
    simp
  · -- the first sector is not this one
    have hiff : n + (i + 1) ≤ lba ∧ lba < n + (i + 1 + k) ∧ w < SECTOR_WORDS ↔
        n + i ≤ lba ∧ lba < n + (i + (k + 1)) ∧ w < SECTOR_WORDS := by omega
    simp only [hiff, if_neg fun hh : b = dev.base ∧ slave = decide (dev.drive ≠ 0#8) ∧
      n + i ≤ lba ∧ lba < n + (i + 1) ∧ w < SECTOR_WORDS => hlba (by omega)]

/-- When the loop came to its end, everything is stored. -/
theorem hdWriteLoop_stored (src : ℕ → Word) (hrange : secno.toNat + (i + k) ≤ 2 ^ 28)
    (hr : (hdWriteLoop dev secno src k i s).1 = 0) :
    Stored s (hdWriteLoop dev secno src k i s).2 dev secno.toNat src i k := by
  induction k generalizing i s with
  | zero =>
    intro b slave lba w
    rw [if_neg fun hh => by omega]
    rfl
  | succ k ih =>
    rcases hdWriteLoop_cases dev secno src k i s with ⟨t, heq, -⟩ | ⟨t, heq, -, -, hput⟩
    · rw [heq] at hr
      exact absurd hr (by simp)
    · rw [heq] at hr ⊢
      exact (hput.stored (by omega)).trans (ih (by omega) hr)

section Device
variable {devId : ℕ} {nsecs : Word}

theorem not_size_lt (hsize : secno.toNat + nsecs.toNat ≤ dev.size.toNat) :
    ¬ dev.size < secno + nsecs := by
  have hlt := dev.size.isLt
  rw [BitVec.lt_def, BitVec.toNat_add]
  omega

theorem hdWriteDevice_eq (src : ℕ → Word) (hpres : (s.devices devId).present = true)
    (hfit : ¬ (s.devices devId).size < secno + nsecs) :
    s.hdWriteDevice devId secno src nsecs =
      hdWriteLoop (s.devices devId) secno src nsecs.toNat 0 s := by
  rw [hdWriteDevice, if_neg (by simp [hpres]), if_neg hfit]

/-- Sectors that do not pass the check. -/
theorem hdWriteDevice_refused (src : ℕ → Word) (hpres : (s.devices devId).present = true)
    (hlt : (s.devices devId).size < secno + nsecs) :
    s.hdWriteDevice devId secno src nsecs = (-1, s) := by
  rw [hdWriteDevice, if_neg (by simp [hpres]), if_pos hlt]

/-- `hd_write_device` of sectors that the device has. -/
theorem hdWriteDevice_spec (secno : Word) (src : ℕ → Word) (nsecs : Word)
    (h : s.Answers (s.devices devId).base) (hpres : (s.devices devId).present = true)
    (hsize : secno.toNat + nsecs.toNat ≤ (s.devices devId).size.toNat)
    (hrange : secno.toNat + nsecs.toNat ≤ 2 ^ 28) :
    ∃ t, s.hdWriteDevice devId secno src nsecs = (0, t) ∧ Later s t ∧
      Stored s t (s.devices devId) secno.toNat src 0 nsecs.toNat := by
  have hended := hdWriteLoop_ended (s.devices devId) secno src nsecs.toNat 0 s
  have hr := hended.answers h
  refine ⟨_, ?_, hended.later, hdWriteLoop_stored src (by omega) hr⟩
  rw [hdWriteDevice_eq src hpres (not_size_lt hsize)]
  exact Prod.ext hr rfl

end Device

/-! ## Reading -/

/-- The buffer's sectors `i` to `i + k` hold those of the drive from `secno + i` on. -/
def Loaded (s : Ide) (dev : IdeDevice) (secno : ℕ) (dst buf : ℕ → Word) (i k : ℕ) : Prop :=
  ∀ w, buf w = if i ≤ w / SECTOR_WORDS ∧ w / SECTOR_WORDS < i + k then
    s.sector dev.base (decide (dev.drive ≠ 0#8)) (secno + w / SECTOR_WORDS) (w % SECTOR_WORDS)
    else dst w

/-- How the transfer goes does not depend on the buffer. -/
theorem hdReadLoop_buf (dev : IdeDevice) (secno : Word) (k i : ℕ) (s : Ide) (dst dst' : ℕ → Word) :
    (hdReadLoop dev secno k i s dst).1 = (hdReadLoop dev secno k i s dst').1 := by
  induction k generalizing i s dst dst' with
  | zero => rfl
  | succ k ih =>
    simp only [hdReadLoop]
    split_ifs with hready hdata
    · rfl
    · rfl
    · exact ih _ _ _ _

/-- Whether a read succeeds does not either. -/
theorem blkRead_buf (s : Ide) (dev : Option BlockDevice) (blockno : Word) (buf buf' : ℕ → Word)
    (nblocks : Word) :
    (s.blkRead dev blockno buf nblocks).1 = (s.blkRead dev blockno buf' nblocks).1 := by
  cases dev with
  | none => rfl
  | some dev =>
    simp only [blkRead, hdReadDevice]
    split_ifs
    · rfl
    · exact hdReadLoop_buf _ _ _ _ _ _ _
    · rfl

theorem Got.loaded {dst buf : ℕ → Word} (h : Got s dev secno dst buf i)
    (hi : secno.toNat + i < 2 ^ 28) : Loaded s dev secno.toNat dst buf i 1 := by
  intro w
  rw [h, transfer_slave, transfer_lba hi]
  by_cases hw : w / SECTOR_WORDS = i
  · subst hw
    simp
  · rw [if_neg hw, if_neg fun hh => hw (by omega)]

theorem Loaded.trans {n : ℕ} {dst buf buf' : ℕ → Word}
    (h : Loaded s dev n dst buf i 1) (h' : Loaded t dev n buf buf' (i + 1) k)
    (hsector : t.sector = s.sector) : Loaded s dev n dst buf' i (k + 1) := by
  intro w
  rw [h' w, h w, hsector]
  by_cases hw : w / SECTOR_WORDS = i
  · rw [if_neg fun hh => by omega, if_pos (by omega), if_pos (by omega)]
  · have hiff : i + 1 ≤ w / SECTOR_WORDS ∧ w / SECTOR_WORDS < i + 1 + k ↔
        i ≤ w / SECTOR_WORDS ∧ w / SECTOR_WORDS < i + (k + 1) := by omega
    simp only [hiff, if_neg fun hh : i ≤ w / SECTOR_WORDS ∧ w / SECTOR_WORDS < i + 1 =>
      hw (by omega)]

theorem hdReadLoop_sector (dev : IdeDevice) (secno : Word) (k i : ℕ) (s : Ide) (dst : ℕ → Word) :
    (hdReadLoop dev secno k i s dst).2.1.sector = s.sector := by
  induction k generalizing i s dst with
  | zero => rfl
  | succ k ih =>
    rcases hdReadLoop_cases dev secno k i s dst with
      ⟨t, heq, hsector, -⟩ | ⟨t, buf, heq, hsector, -, -, -⟩
    · rw [heq]
      exact hsector
    · rw [heq]
      exact (ih (i + 1) t buf).trans hsector

theorem hdReadLoop_loaded (dst : ℕ → Word) (hrange : secno.toNat + (i + k) ≤ 2 ^ 28)
    (hr : (hdReadLoop dev secno k i s dst).1 = 0) :
    Loaded s dev secno.toNat dst (hdReadLoop dev secno k i s dst).2.2 i k := by
  induction k generalizing i s dst with
  | zero =>
    intro w
    rw [if_neg fun hh => by omega]
    rfl
  | succ k ih =>
    rcases hdReadLoop_cases dev secno k i s dst with
      ⟨t, heq, -, -⟩ | ⟨t, buf, heq, hsector, -, -, hgot⟩
    · rw [heq] at hr
      exact absurd hr (by simp)
    · rw [heq] at hr ⊢
      exact (hgot.loaded (by omega)).trans (ih buf (by omega) hr) hsector

section Device
variable {devId : ℕ} {nsecs : Word}

theorem hdReadDevice_eq (dst : ℕ → Word) (hpres : (s.devices devId).present = true)
    (hfit : ¬ (s.devices devId).size < secno + nsecs) :
    s.hdReadDevice devId secno dst nsecs =
      hdReadLoop (s.devices devId) secno nsecs.toNat 0 s dst := by
  rw [hdReadDevice, if_neg (by simp [hpres]), if_neg hfit]

theorem hdReadDevice_refused (dst : ℕ → Word) (hpres : (s.devices devId).present = true)
    (hlt : (s.devices devId).size < secno + nsecs) :
    s.hdReadDevice devId secno dst nsecs = (-1, s, dst) := by
  rw [hdReadDevice, if_neg (by simp [hpres]), if_pos hlt]

/-- `hd_read_device` of sectors that the device has. -/
theorem hdReadDevice_spec (secno : Word) (dst : ℕ → Word) (nsecs : Word)
    (h : s.Answers (s.devices devId).base) (hpres : (s.devices devId).present = true)
    (hsize : secno.toNat + nsecs.toNat ≤ (s.devices devId).size.toNat)
    (hrange : secno.toNat + nsecs.toNat ≤ 2 ^ 28) :
    ∃ t buf, s.hdReadDevice devId secno dst nsecs = (0, t, buf) ∧ Later s t ∧
      t.sector = s.sector ∧ Loaded s (s.devices devId) secno.toNat dst buf 0 nsecs.toNat := by
  have hended := hdReadLoop_ended (s.devices devId) secno nsecs.toNat 0 s dst
  have hr := hended.answers h
  refine ⟨_, _, ?_, hended.later, hdReadLoop_sector .., hdReadLoop_loaded dst (by omega) hr⟩
  rw [hdReadDevice_eq dst hpres (not_size_lt hsize)]
  exact Prod.ext hr rfl

end Device

end Loops

/-! ## The sectors that are touched -/

/-- The commands since `s` went to the drive, and to its sectors from `lo` on, below `hi`. -/
def Issued (s t : Ide) (dev : IdeDevice) (lo hi : ℕ) : Prop :=
  ∃ new, t.commands = new ++ s.commands ∧ ∀ c ∈ new, c.base = dev.base ∧
    c.regs.slave = decide (dev.drive ≠ 0#8) ∧ lo ≤ c.regs.lba ∧ c.regs.lba < hi

section Issued
variable {s t u : Ide} {dev : IdeDevice} {secno : Word} {lo hi : ℕ}

theorem Issued.of_eq (h : t.commands = s.commands) : Issued s t dev lo hi := ⟨[], h, by simp⟩

theorem Issued.trans (h : Issued s t dev lo hi) (h' : Issued t u dev lo hi) :
    Issued s u dev lo hi := by
  obtain ⟨new, heq, hall⟩ := h
  obtain ⟨new', heq', hall'⟩ := h'
  refine ⟨new' ++ new, ?_, fun c hc => ?_⟩
  · rw [heq', heq, List.append_assoc]
  · exact (List.mem_append.mp hc).elim (hall' c) (hall c)

theorem Issued.mono (h : Issued s t dev lo hi) {lo' hi' : ℕ} (hlo : lo' ≤ lo) (hhi : hi ≤ hi') :
    Issued s t dev lo' hi' := by
  obtain ⟨new, heq, hall⟩ := h
  refine ⟨new, heq, fun c hc => ?_⟩
  obtain ⟨hbase, hslave, hle, hlt⟩ := hall c hc
  exact ⟨hbase, hslave, by omega, by omega⟩

/-- However the transfer ended. -/
theorem Ended.issued {r : ℤ} {code : Byte} {k : ℕ} (h : Ended s t r dev secno code 0 k)
    (hrange : secno.toNat + k ≤ 2 ^ 28) : Issued s t dev secno.toNat (secno.toNat + k) := by
  obtain ⟨j, hj, htransferred, -⟩ := h.transferred
  refine ⟨_, htransferred, fun c hc => ?_⟩
  obtain ⟨i, hi, rfl⟩ := List.mem_map.mp (List.mem_reverse.mp hc)
  rw [List.mem_range'_1] at hi
  rw [transfer_lba (by omega)]
  exact ⟨rfl, transfer_slave, by omega, by omega⟩

/-- Whether it comes back with an error or not, a transfer touches the blocks it was asked for. -/
theorem blkWrite_issued {b : BlockDevice} {blockno nblocks : Word} (buf : ℕ → Word)
    (hrange : blockno.toNat + nblocks.toNat ≤ 2 ^ 28) :
    Issued s (s.blkWrite (some b) blockno buf nblocks).2 (s.devices b.privateData) blockno.toNat
      (blockno.toNat + nblocks.toNat) := by
  simp only [blkWrite, hdWriteDevice]
  split_ifs
  · exact .of_eq rfl
  · exact (hdWriteLoop_ended _ blockno buf nblocks.toNat 0 s).issued hrange
  · exact .of_eq rfl

theorem blkRead_issued {b : BlockDevice} {blockno nblocks : Word} (buf : ℕ → Word)
    (hrange : blockno.toNat + nblocks.toNat ≤ 2 ^ 28) :
    Issued s (s.blkRead (some b) blockno buf nblocks).2.1 (s.devices b.privateData) blockno.toNat
      (blockno.toNat + nblocks.toNat) := by
  simp only [blkRead, hdReadDevice]
  split_ifs
  · exact .of_eq rfl
  · exact (hdReadLoop_ended _ blockno nblocks.toNat 0 s buf).issued hrange
  · exact .of_eq rfl

end Issued

/-! ## The table of drives -/

section Devices

theorem hdWriteDevice_later (s : Ide) (devId : ℕ) (secno : Word) (src : ℕ → Word) (nsecs : Word) :
    Later s (s.hdWriteDevice devId secno src nsecs).2 := by
  simp only [hdWriteDevice]
  split_ifs
  · exact .refl s
  · exact (hdWriteLoop_ended ..).later
  · exact .refl s

theorem hdReadDevice_later (s : Ide) (devId : ℕ) (secno : Word) (dst : ℕ → Word) (nsecs : Word) :
    Later s (s.hdReadDevice devId secno dst nsecs).2.1 := by
  simp only [hdReadDevice]
  split_ifs
  · exact .refl s
  · exact (hdReadLoop_ended ..).later
  · exact .refl s

/-- Transfers leave the table as it is. -/
theorem blkWrite_devices (s : Ide) (dev : Option BlockDevice) (blockno : Word) (buf : ℕ → Word)
    (nblocks : Word) : (s.blkWrite dev blockno buf nblocks).2.devices = s.devices := by
  cases dev with
  | none => rfl
  | some dev => exact (s.hdWriteDevice_later dev.privateData blockno buf nblocks).devices

theorem blkRead_devices (s : Ide) (dev : Option BlockDevice) (blockno : Word) (buf : ℕ → Word)
    (nblocks : Word) : (s.blkRead dev blockno buf nblocks).2.1.devices = s.devices := by
  cases dev with
  | none => rfl
  | some dev => exact (s.hdReadDevice_later dev.privateData blockno buf nblocks).devices

/-- A write that goes past the end of the drive fails, whatever the drive answers. -/
theorem blkWrite_inside {s : Ide} {b : BlockDevice} {blockno nblocks : Word} {buf : ℕ → Word}
    (h : (s.blkWrite (some b) blockno buf nblocks).1 = 0) :
    ¬ (s.devices b.privateData).size < blockno + nblocks := by
  intro hlt
  simp only [blkWrite, hdWriteDevice, if_pos hlt] at h
  split_ifs at h <;> simp at h

end Devices

end Ide
end Zonix
