import Zonix.Drivers.Detect
import Zonix.Drivers.HdTheorems
import Mathlib.Data.List.Perm.Subperm
import Mathlib.Data.List.Nodup
import Mathlib.Data.List.Forall2

/-!
# The disks that become block devices

After `hd_init` an entry of the table that is present is the position's row of `ide_configs` with
what its drive said, and `num_devices` counts these entries. `blk_init` then registers those among
the first `num_devices` positions. That is every disk if and only if the positions that are occupied
come before those that are not.
-/

namespace Zonix
open Lib.Format Ide

/-! ## Counting -/

section Counting
variable {p : ℕ → Bool} {n : ℕ}

/-- Of the numbers below `n` with `p` there are as many as there are numbers below the first one
without `p`, if those with `p` come first. -/
theorem prefix_iff : (∀ i < ((List.range n).filter p).length, p i) ↔
    ∀ i j, i < j → j < n → p j → p i := by
  constructor
  · intro h i j hij hj hpj
    by_contra hpi
    have hc : ((List.range n).filter p).length ≤ i := by
      by_contra hlt
      exact hpi (h i (by omega))
    -- then `j` is one more
    have hsub : j :: List.range ((List.range n).filter p).length ⊆ (List.range n).filter p := by
      intro k hk
      rw [List.mem_filter, List.mem_range]
      rcases List.mem_cons.mp hk with rfl | hk
      · exact ⟨hj, hpj⟩
      · rw [List.mem_range] at hk
        exact ⟨by omega, h k hk⟩
    have hnodup : (j :: List.range ((List.range n).filter p).length).Nodup := by
      rw [List.nodup_cons, List.mem_range]
      exact ⟨by omega, List.nodup_range⟩
    have hlen := (hnodup.subperm hsub).length_le
    rw [List.length_cons, List.length_range] at hlen
    omega
  · intro h i hi
    by_contra hpi
    -- all of them are below `i`
    have hsub : (List.range n).filter p ⊆ List.range i := by
      intro k hk
      rw [List.mem_filter, List.mem_range] at hk
      rw [List.mem_range]
      by_contra hik
      rcases Nat.lt_or_eq_of_le (Nat.le_of_not_lt hik) with hlt | rfl
      · exact hpi (h i k hlt hk.1 hk.2)
      · exact hpi hk.2
    have hlen := ((List.nodup_range.filter p).subperm hsub).length_le
    rw [List.length_range] at hlen
    omega

end Counting

namespace Hd

/-! ## Detection -/

variable {s t u : Hd} {devId : Fin MAX_IDE_DEVICES} {n : ℕ}

/-- The table is as it was. -/
structure SameTable (s t : Hd) : Prop where
  devices : t.devices = s.devices
  info : t.info = s.info
  numDevices : t.numDevices = s.numDevices
  identify : t.identify = s.identify

/-- The entry of a disk that said `buf`. -/
structure Entry (s : Hd) (devId : Fin MAX_IDE_DEVICES) (buf : ℕ → BitVec 16) : Prop where
  device : s.devices devId =
    ⟨(ideConfigs devId).drive, (ideConfigs devId).base, identifiedSize buf, true⟩
  info : s.info devId = ⟨(ideConfigs devId).channel, (ideConfigs devId).irq, buf 1, buf 3, buf 6,
    true, (ideConfigs devId).name⟩

/-- What the drive at a position says to IDENTIFY. -/
def answer (s : Hd) (devId : Fin MAX_IDE_DEVICES) : ℕ → BitVec 16 :=
  s.identify (ideConfigs devId).base (decide ((ideConfigs devId).drive ≠ 0#8))

theorem probe_regs (ide : Ide) (cfg : IdeConfig) :
    ((probe ide cfg).2.regs cfg.base).slave = decide (cfg.drive ≠ 0#8) := by
  have hregs : (probe ide cfg).2.regs cfg.base =
      { ide.regs cfg.base with
        device := if cfg.drive ≠ 0#8 then IDE_DEV_SLAVE else IDE_DEV_MASTER } :=
    Function.update_self ..
  rw [hregs]
  by_cases hdrive : cfg.drive ≠ 0#8
  · simp only [if_pos hdrive, decide_eq_true hdrive]
    show IDE_DEV_SLAVE.getLsbD 4 = true
    decide
  · simp only [if_neg hdrive, decide_eq_false hdrive]
    show IDE_DEV_MASTER.getLsbD 4 = false
    decide

theorem setIde_sameTable {ide : Ide} (h : ide.devices = s.devices) : SameTable s (s.setIde ide) :=
  ⟨h, rfl, rfl, rfl⟩

theorem foldl_inbStatus_devices (base : Port) (l : List ℕ) (ide : Ide) :
    (l.foldl (fun s _ => (s.inbStatus base).2) ide).devices = ide.devices := by
  induction l generalizing ide with
  | nil => rfl
  | cons _ l ih => exact ih _

theorem probe_devices (ide : Ide) (cfg : IdeConfig) : (probe ide cfg).2.devices = ide.devices := by
  have hpolls := foldl_inbStatus_devices cfg.base (List.range 4)
    (ide.outbDevice cfg.base (if cfg.drive ≠ 0#8 then IDE_DEV_SLAVE else IDE_DEV_MASTER))
  rw [probe]
  exact hpolls

/-- Nothing is written into the table, or the entry of the position. -/
theorem hdDetectDevice_cases (s : Hd) (devId : Fin MAX_IDE_DEVICES) :
    (∃ t, s.hdDetectDevice devId = (-1, t) ∧ SameTable s t) ∨
    ∃ u, s.hdDetectDevice devId = (0, u.fill devId (s.answer devId)) ∧ SameTable s u := by
  have hdevices := probe_devices s.toIde (ideConfigs devId)
  have hpolled := hdWaitDataOnBase_polled (probe s.toIde (ideConfigs devId)).2
    (ideConfigs devId).base
  have hdevices' := hpolled.later.devices.trans hdevices
  rw [hdDetectDevice]
  dsimp only
  split_ifs with hstatus hdata
  · exact Or.inl ⟨_, rfl, setIde_sameTable hdevices⟩
  · exact Or.inl ⟨_, rfl, setIde_sameTable hdevices'⟩
  · rw [answer, ← probe_regs s.toIde (ideConfigs devId), ← hpolled.regs]
    exact Or.inr ⟨_, rfl, setIde_sameTable hdevices'⟩

/-- The positions below `n` have been looked at. -/
structure Scanned (s : Hd) (n : ℕ) : Prop where
  count : s.numDevices = ((List.range n).filter fun i => (s.devices i).present).length
  absent : ∀ i, n ≤ i → i < MAX_IDE_DEVICES → (s.devices i).present = false
  entry : ∀ devId : Fin MAX_IDE_DEVICES, (s.devices devId).present = true →
    Entry s devId (s.answer devId)

theorem scanned_clear (s : Hd) :
    Scanned { (List.finRange MAX_IDE_DEVICES).foldl clear s with numDevices := 0 } 0 := by
  have hclear : ∀ (l : List (Fin MAX_IDE_DEVICES)) (s : Hd) (i : ℕ),
      (i ∈ l.map Fin.val ∨ (s.devices i).present = false) →
        ((l.foldl clear s).devices i).present = false := by
    intro l
    induction l with
    | nil => exact fun s i h => h.resolve_left (List.not_mem_nil)
    | cons j l ih =>
      intro s i h
      apply ih (s.clear j) i
      have hentry : (s.clear j).devices i =
          if i = j then { s.devices j with present := false } else s.devices i :=
        Function.update_apply ..
      by_cases hij : i = j
      · rw [hentry, if_pos hij]
        exact Or.inr rfl
      · rw [hentry, if_neg hij]
        rw [List.map_cons, List.mem_cons] at h
        exact h.imp_left fun h => h.resolve_left hij
  have habsent : ∀ i < MAX_IDE_DEVICES,
      (((List.finRange MAX_IDE_DEVICES).foldl clear s).devices i).present = false := by
    intro i hi
    apply hclear
    exact Or.inl (List.mem_map.mpr ⟨⟨i, hi⟩, List.mem_finRange _, rfl⟩)
  exact ⟨rfl, fun i _ hi => habsent i hi,
    fun devId h => absurd h (by rw [habsent devId devId.isLt]; simp)⟩

/-- The positions below `n` are as before, and the next one is counted if it is present. -/
theorem present_succ (h : ∀ i < n, (t.devices i).present = (s.devices i).present) :
    ((List.range (n + 1)).filter fun i => (t.devices i).present).length =
      ((List.range n).filter fun i => (s.devices i).present).length +
        if (t.devices n).present then 1 else 0 := by
  have hsame : (List.range n).filter (fun i => (t.devices i).present) =
      (List.range n).filter fun i => (s.devices i).present :=
    List.filter_congr fun i hi => h i (List.mem_range.mp hi)
  rw [List.range_succ, List.filter_append, hsame, List.length_append, List.filter_singleton]
  cases (t.devices n).present <;> rfl

/-- The next position has no disk. -/
theorem Scanned.missed (h : Scanned s n) (ht : SameTable s t) (hn : n < MAX_IDE_DEVICES) :
    Scanned t (n + 1) := by
  have hnext := h.absent n (Nat.le_refl n) hn
  refine ⟨?_, fun i hi hlt => ?_, fun devId hp => ?_⟩
  · have hcount := present_succ (s := s) (t := t) (n := n) fun i _ => by rw [ht.devices]
    rw [ht.numDevices, h.count, hcount, ht.devices, hnext]
    rfl
  · rw [ht.devices]
    exact h.absent i (by omega) hlt
  · rw [ht.devices] at hp
    obtain ⟨hdevice, hinfo⟩ := h.entry devId hp
    rw [answer, ht.identify]
    exact ⟨ht.devices ▸ hdevice, ht.info ▸ hinfo⟩

theorem fill_devices (s : Hd) (devId : Fin MAX_IDE_DEVICES) (buf : ℕ → BitVec 16) (i : ℕ) :
    (s.fill devId buf).devices i = if i = devId then
      ⟨(ideConfigs devId).drive, (ideConfigs devId).base, identifiedSize buf, true⟩
    else s.devices i := Function.update_apply ..

theorem fill_info (s : Hd) (devId : Fin MAX_IDE_DEVICES) (buf : ℕ → BitVec 16) (i : ℕ) :
    (s.fill devId buf).info i = if i = devId then
      ⟨(ideConfigs devId).channel, (ideConfigs devId).irq, buf 1, buf 3, buf 6, true,
        (ideConfigs devId).name⟩
    else s.info i := Function.update_apply ..

/-- The next position has one. -/
theorem Scanned.found (h : Scanned s n) (ht : SameTable s t) (hn : devId.val = n) :
    Scanned { t.fill devId (s.answer devId) with numDevices := t.numDevices + 1 } (n + 1) := by
  have hother : ∀ i : ℕ, i ≠ devId → (t.fill devId (s.answer devId)).devices i = s.devices i := by
    intro i hi
    rw [fill_devices, if_neg hi, ht.devices]
  have hself : ((t.fill devId (s.answer devId)).devices n).present = true := by
    rw [fill_devices, if_pos hn.symm]
  refine ⟨?_, fun i hi hlt => ?_, fun i hp => ?_⟩
  · have hcount := present_succ (s := s) (t := t.fill devId (s.answer devId)) (n := n)
      fun i hi => by rw [hother i (by omega)]
    rw [hself, if_pos rfl, ← h.count, ← ht.numDevices] at hcount
    exact hcount.symm
  · show ((t.fill devId (s.answer devId)).devices i).present = false
    rw [hother i (by omega)]
    exact h.absent i (by omega) hlt
  · have hanswer : answer { t.fill devId (s.answer devId) with numDevices := t.numDevices + 1 } i =
        s.answer i := by
      show t.identify _ _ = s.identify _ _
      rw [ht.identify]
    rw [hanswer]
    by_cases hi : i = devId
    · subst hi
      refine ⟨?_, ?_⟩
      · show (t.fill i (s.answer i)).devices i = _
        rw [fill_devices, if_pos rfl]
      · show (t.fill i (s.answer i)).info i = _
        rw [fill_info, if_pos rfl]
    · have hi' : (i : ℕ) ≠ devId := fun heq => hi (Fin.ext heq)
      have hp' : (s.devices i).present = true := by
        rw [← hother i hi']
        exact hp
      obtain ⟨hdevice, hinfo⟩ := h.entry i hp'
      refine ⟨?_, ?_⟩
      · show (t.fill devId (s.answer devId)).devices i = _
        rw [hother i hi', hdevice]
      · show (t.fill devId (s.answer devId)).info i = _
        rw [fill_info, if_neg hi', ht.info, hinfo]

/-- `hd_detect_device` of the next position. -/
theorem Scanned.next (h : Scanned s n) (hn : devId.val = n) :
    Scanned (s.detectNext devId) (n + 1) := by
  have hlt : n < MAX_IDE_DEVICES := hn ▸ devId.isLt
  rcases hdDetectDevice_cases s devId with ⟨t, heq, ht⟩ | ⟨t, heq, ht⟩
  · rw [detectNext, heq]
    exact h.missed ht hlt
  · rw [detectNext, heq]
    exact h.found ht hn

/-- Positions one after the other. -/
theorem Scanned.run (l : List (Fin MAX_IDE_DEVICES)) (h : Scanned s n)
    (hl : l.map Fin.val = List.range' n l.length) :
    Scanned (l.foldl detectNext s) (n + l.length) := by
  induction l generalizing s n with
  | nil => exact h
  | cons devId l ih =>
    rw [List.map_cons, List.length_cons, List.range'_succ, List.cons.injEq] at hl
    have hnext := ih (h.next hl.1) hl.2
    rwa [List.length_cons, Nat.add_comm l.length 1, ← Nat.add_assoc]

/-- What `hd_init` leaves. -/
theorem hdInit_scanned (s : Hd) : Scanned s.hdInit MAX_IDE_DEVICES := by
  have hrun := (scanned_clear s).run (List.finRange MAX_IDE_DEVICES) (by decide)
  rwa [List.length_finRange, Nat.zero_add] at hrun

/-! ## Registration -/

/-- The positions that are occupied, in order. -/
def presentIds (s : Hd) : List ℕ :=
  (List.range MAX_IDE_DEVICES).filter fun i => (s.devices i).present

/-- The block device that is made for a position. -/
def blkDevice (s : Hd) (i : ℕ) : BlkDevice where
  type := BLK_TYPE_DISK
  size := (s.devices i).size
  privateData := i
  name := (s.info i).name

/-- The block device is the disk `devId`, and acts on it. -/
structure Serves (s : Hd) (devId : ℕ) (dev : BlkDevice) : Prop where
  name : dev.name = (s.info devId).name
  size : dev.size = (s.devices devId).size
  read : ∀ (t : Ide) blockno buf nblocks, t.blkRead (some dev.toBlockDevice) blockno buf nblocks =
    t.hdReadDevice devId blockno buf nblocks
  write : ∀ (t : Ide) blockno buf nblocks, t.blkWrite (some dev.toBlockDevice) blockno buf nblocks =
    t.hdWriteDevice devId blockno buf nblocks

/-- There is one block device for each disk, in order. -/
def AllServed (s : Hd) (blockDevices : List BlkDevice) : Prop :=
  List.Forall₂ s.Serves s.presentIds blockDevices

theorem blkDevice_serves (s : Hd) (i : ℕ) : s.Serves i (s.blkDevice i) :=
  ⟨rfl, rfl, fun _ _ _ _ => rfl, fun _ _ _ _ => rfl⟩

theorem registerNext_eq (s : Hd) {blockDevices : List BlkDevice} (i : ℕ)
    (h : blockDevices.length < MAX_BLK_DEV) : registerNext s blockDevices i =
      if (s.devices i).present then blockDevices ++ [s.blkDevice i] else blockDevices := by
  rw [registerNext, hdGetDevice]
  by_cases hp : (s.devices i).present
  · simp only [hp, not_true_eq_false, if_false, if_true]
    rw [blkRegister, if_neg (by omega)]
    rfl
  · rw [if_pos hp, if_neg hp]

/-- The registry is never full. -/
theorem registered_eq (s : Hd) {m : ℕ} (hm : m ≤ MAX_BLK_DEV) :
    (List.range m).foldl (registerNext s) [] =
      ((List.range m).filter fun i => (s.devices i).present).map s.blkDevice := by
  induction m with
  | zero => rfl
  | succ m ih =>
    have hlen : (((List.range m).filter fun i => (s.devices i).present).map s.blkDevice).length <
        MAX_BLK_DEV := by
      have hle := List.length_filter_le (fun i => (s.devices i).present) (List.range m)
      rw [List.length_range] at hle
      rw [List.length_map]
      omega
    rw [List.range_succ, List.foldl_append, ih (by omega), List.foldl_cons, List.foldl_nil,
      registerNext_eq s m hlen, List.filter_append, List.map_append, List.filter_singleton]
    by_cases hp : (s.devices m).present
    · rw [if_pos hp, hp]
      rfl
    · rw [if_neg hp, Bool.eq_false_iff.mpr hp, cond_false, List.map_nil, List.append_nil]

theorem blkInit_fst (s : Hd) : (blkInit s).1 =
    ((List.range s.hdInit.presentIds.length).filter fun i =>
      (s.hdInit.devices i).present).map s.hdInit.blkDevice := by
  have hle := List.length_filter_le (fun i => (s.hdInit.devices i).present)
    (List.range MAX_IDE_DEVICES)
  rw [List.length_range] at hle
  have hmin : min s.hdInit.hdGetDeviceCount MAX_BLK_DEV = s.hdInit.presentIds.length := by
    rw [hdGetDeviceCount, (hdInit_scanned s).count]
    exact Nat.min_eq_left hle
  rw [blkInit]
  dsimp only
  rw [hmin]
  exact registered_eq _ hle

/-- For every outcome of `hd_init`: each disk gets its block device if and only if no position is
empty before one that is occupied. -/
theorem allServed_iff (s : Hd) : (blkInit s).2.AllServed (blkInit s).1 ↔
    ∀ i j, i < j → j < MAX_IDE_DEVICES → (s.hdInit.devices j).present = true →
      (s.hdInit.devices i).present = true := by
  have hsnd : (blkInit s).2 = s.hdInit := by rw [blkInit]
  rw [hsnd, blkInit_fst, ← prefix_iff, AllServed]
  constructor
  · intro h i hi
    have hlen := h.length_eq
    rw [List.length_map] at hlen
    have hall := List.length_filter_eq_length_iff.mp (hlen.symm.trans List.length_range.symm)
    exact hall i (List.mem_range.mpr hi)
  · intro h
    have hall : (List.range s.hdInit.presentIds.length).filter
        (fun i => (s.hdInit.devices i).present) = List.range s.hdInit.presentIds.length :=
      List.filter_eq_self.mpr fun i hi => h i (List.mem_range.mp hi)
    have hids : List.range s.hdInit.presentIds.length = s.hdInit.presentIds := by
      have hle := List.length_filter_le (fun i => (s.hdInit.devices i).present)
        (List.range MAX_IDE_DEVICES)
      rw [List.length_range] at hle
      apply List.Sublist.eq_of_length
      · rw [← hall]
        exact (List.range_sublist.mpr hle).filter _
      · rw [List.length_range]
    rw [hall, hids, List.forall₂_map_right_iff, List.forall₂_same]
    exact fun i _ => blkDevice_serves _ i

/-- Only the master of the secondary channel answers. -/
def onlyHdc : Hd where
  devices := fun _ => ⟨0#8, 0#16, 0#32, false⟩
  status := fun base n => if base = IDE1_BASE ∧ n < 16 then IDE_DRDY ||| IDE_DRQ else 0#8
  polls := 0
  regs := fun _ => ⟨0#8, 0#8, 0#8, 0#8, 0#8⟩
  commands := []
  sector := fun _ _ _ _ => 0#32
  identify := fun _ _ _ => 1000#16
  info := fun _ => ⟨0#8, 0#8, 0#16, 0#16, 0#16, false, ideName 'a' ascii_a_ne⟩
  numDevices := 0

/-- It is counted, but then only `hda` is looked at. -/
theorem blkInit_misses_hdc : onlyHdc.hdInit.numDevices = 1 ∧ (blkInit onlyHdc).2.presentIds = [2] ∧
    (blkInit onlyHdc).1.length = 0 ∧ ¬ (blkInit onlyHdc).2.AllServed (blkInit onlyHdc).1 := by
  have hids : (blkInit onlyHdc).2.presentIds = [2] := by decide +kernel
  have hnone : (blkInit onlyHdc).1.length = 0 := by decide +kernel
  refine ⟨by decide +kernel, hids, hnone, fun h => ?_⟩
  have hlen := h.length_eq
  rw [hids, hnone] at hlen
  exact absurd hlen (by decide)

end Hd
end Zonix
