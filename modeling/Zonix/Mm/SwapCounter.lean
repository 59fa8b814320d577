import Zonix.Mm.SwapArea
import Zonix.Mm.SwapRoundTrip

/-!
# The counter of `swap_out`

How far the counter goes is decided by the size of the disk alone. An entry has room for
`MAX_SWAP_OFFSET_LIMIT` offsets, and nothing holds `max_swap_offset` to it: on a disk with more
slots the counter gets as far as the offset whose entry is zero.
-/

namespace Zonix
open Lib

/-- `1 << 24`, which no function uses. -/
def MAX_SWAP_OFFSET_LIMIT : ℕ := 2 ^ 24

/-- What can be done once swapping is set up, with any `mm_struct`. An iteration of `swap_out` is
an operation of its own, for the values that the counter has inside the loop. -/
inductive CounterOp
  | initMm (mm : MmStruct)
  | call (mm : MmStruct) (op : VmOp)
  | iteration (mm : MmStruct)

namespace Vm

def execCounter (s : Vm) : CounterOp → Option Vm
  | .initMm mm => some (s.swapFifoInitMm mm).1
  | .call mm op => exec mm s op
  | .iteration mm => (s.swapOutOne mm).map Prod.snd

/-- The state that `swap_init` leaves behind on a disk of `size` sectors. -/
def Boots (size : Word) (s : Vm) : Prop :=
  ∃ (s₀ : Vm) (b : BlockDevice), blkGetDevice s₀.blockDevices BLK_TYPE_DISK = some b ∧
    b.size = size ∧ (s₀.ide.devices b.privateData).size = size ∧ s₀.swapOffset = 1#32 ∧
    s₀.swapInit = some s

/-- In some run the counter takes the value, and a page is written to its slot. -/
def Counts (size offset : Word) : Prop :=
  ∃ s t page, Boots size s ∧ Run execCounter (fun _ _ => True) s t ∧ t.swapOffset = offset ∧
    (t.swapfsWrite (offset <<< 8) page).1 = 0

/-- Whatever values the counter takes, their entries are told apart from the empty entry, from a
present one and from each other, and are decoded to the values. -/
structure Lossless (size : Word) : Prop where
  entry_ne : ∀ offset, Counts size offset → offset <<< 8 ≠ 0#32
  absent : ∀ offset, Counts size offset → ¬ Present (offset <<< 8)
  decoded : ∀ offset, Counts size offset → entryOffset (offset <<< 8) = offset
  disjoint : ∀ offset offset', Counts size offset → Counts size offset' → offset ≠ offset' →
    (swapSector (offset <<< 8)).toNat + SECTORS_PER_PAGE.toNat ≤
        (swapSector (offset' <<< 8)).toNat ∨
      (swapSector (offset' <<< 8)).toNat + SECTORS_PER_PAGE.toNat ≤
        (swapSector (offset <<< 8)).toNat

/-! ## What no call changes -/

/-- What the values of the counter depend on. -/
structure SwapParams where
  device : Option BlockDevice
  devices : ℕ → IdeDevice
  maxOffset : Word
  offset : Word

def swapParams (s : Vm) : SwapParams :=
  ⟨s.swapDevice, s.ide.devices, s.maxSwapOffset, s.swapOffset⟩

/-- Wherever the call comes back, they are the same. -/
def Keeps {α : Type} (s : Vm) (vm : α → Vm) (x : Option α) : Prop :=
  ∀ a, x = some a → (vm a).swapParams = s.swapParams

section Params
variable {α β : Type} {s t : Vm} {vm : α → Vm} {vm' : β → Vm}

theorem Keeps.some {a : α} (h : (vm a).swapParams = s.swapParams) : s.Keeps vm (some a) := by
  intro b hb
  rw [← Option.some.inj hb]
  exact h

theorem Keeps.bind {x : Option α} {f : α → Option β} (h : s.Keeps vm x)
    (hf : ∀ a, (vm a).Keeps vm' (f a)) : s.Keeps vm' (x.bind f) := by
  intro b hb
  obtain ⟨a, ha, hfa⟩ := Option.bind_eq_some_iff.mp hb
  exact (hf a b hfa).trans (h a ha)

/-- What comes first does not touch the state. -/
theorem Keeps.of_bind {x : Option α} {f : α → Option β} (hf : ∀ a, s.Keeps vm' (f a)) :
    s.Keeps vm' (x.bind f) := by
  intro b hb
  obtain ⟨a, -, hfa⟩ := Option.bind_eq_some_iff.mp hb
  exact hf a b hfa

theorem Keeps.of_params {x : Option α} (h : t.Keeps vm x) (hs : t.swapParams = s.swapParams) :
    s.Keeps vm x := fun a ha => (h a ha).trans hs

theorem Keeps.map {x : Option α} (h : s.Keeps vm x) : s.Keeps id (x.map vm) := by
  intro u hu
  obtain ⟨a, ha, rfl⟩ := Option.map_eq_some_iff.mp hu
  exact h a ha

theorem nextSwapOffset_of_params (h : t.swapParams = s.swapParams) :
    t.nextSwapOffset = s.nextSwapOffset := by
  have hoffset := congrArg SwapParams.offset h
  have hmax := congrArg SwapParams.maxOffset h
  simp only [swapParams] at hoffset hmax
  rw [nextSwapOffset, nextSwapOffset, hoffset, hmax]

theorem allocPages_keeps (s : Vm) (n : ℕ) : s.Keeps Prod.snd (s.allocPages n) :=
  .of_bind fun _ => .some rfl

theorem pagesFree_keeps (s : Vm) (page n : ℕ) : s.Keeps id (s.pagesFree page n) :=
  .of_bind fun _ => .some rfl

theorem tlbInvl_params (s : Vm) (pgdir : ℕ) (la : Word) :
    (s.tlbInvl pgdir la).swapParams = s.swapParams := by
  rw [tlbInvl]
  split_ifs <;> rfl

theorem getPte_keeps (s : Vm) (pgdir : ℕ) (la : Word) (create : Bool) :
    s.Keeps Prod.snd (s.getPte pgdir la create) := by
  unfold getPte
  split_ifs
  · exact .some rfl
  · exact .some rfl
  · refine (s.allocPages_keeps 1).bind ?_
    rintro ⟨_ | page, t⟩
    · exact .some rfl
    · exact .some rfl

theorem pageInsert_keeps (s : Vm) (pgdir page : ℕ) (la perm : Word) :
    s.Keeps Prod.snd (s.pageInsert pgdir page la perm) := by
  refine (s.getPte_keeps pgdir la true).bind ?_
  rintro ⟨_ | ⟨table, i⟩, t⟩
  · exact .some rfl
  · exact .some (tlbInvl_params _ pgdir la)

theorem pgdirAllocPage_keeps (s : Vm) (pgdir : ℕ) (la perm : Word) :
    s.Keeps Prod.snd (s.pgdirAllocPage pgdir la perm) := by
  refine (s.allocPages_keeps 1).bind ?_
  rintro ⟨_ | page, t⟩
  · exact .some rfl
  · exact (t.pageInsert_keeps pgdir page la perm).bind fun _ => .some rfl

theorem swapfsRead_params (s : Vm) (entry : Word) (page : ℕ) :
    (s.swapfsRead entry page).2.swapParams = s.swapParams := by
  have hdevices := s.ide.blkRead_devices s.swapDevice (swapSector entry)
    (s.mem (pagNum (page2pa page))) SECTORS_PER_PAGE
  simp only [swapfsRead]
  split_ifs <;> exact congrArg (SwapParams.mk _ · _ _) hdevices

theorem swapfsWrite_params (s : Vm) (entry : Word) (page : ℕ) :
    (s.swapfsWrite entry page).2.swapParams = s.swapParams := by
  have hdevices := s.ide.blkWrite_devices s.swapDevice (swapSector entry)
    (s.mem (pagNum (page2pa page))) SECTORS_PER_PAGE
  simp only [swapfsWrite]
  split_ifs <;> exact congrArg (SwapParams.mk _ · _ _) hdevices

theorem swapIn_keeps (s : Vm) (mm : MmStruct) (addr : Word) :
    s.Keeps (fun x => x.2.2) (s.swapIn mm addr) := by
  refine (s.allocPages_keeps 1).bind ?_
  rintro ⟨_ | page, t⟩
  · exact .some rfl
  refine (t.getPte_keeps mm.pgdir addr false).bind ?_
  rintro ⟨_ | ⟨table, i⟩, u⟩
  · exact (u.pagesFree_keeps page 1).bind fun _ => .some rfl
  refine Keeps.of_params ?_ (u.swapfsRead_params (u.mem table i) page)
  dsimp only
  split_ifs
  · exact (pagesFree_keeps _ page 1).bind fun _ => .some rfl
  · exact (pageInsert_keeps _ mm.pgdir page addr _).bind fun _ => .some rfl

theorem vmmPgFault_keeps (s : Vm) (mm : MmStruct) (addr : Word) :
    s.Keeps Prod.snd (s.vmmPgFault mm addr) := by
  refine (s.getPte_keeps mm.pgdir (roundDown addr) true).bind ?_
  rintro ⟨ptep, t⟩
  refine .of_bind fun pte => ?_
  dsimp only
  split_ifs
  · exact (t.pgdirAllocPage_keeps mm.pgdir (roundDown addr) PTE_U).bind fun _ => .some rfl
  · exact (t.swapIn_keeps mm (roundDown addr)).bind fun _ => .some rfl

theorem swapFifoSwapOutVictim_keeps (s : Vm) (mm : MmStruct) :
    s.Keeps (fun x => x.2.2) (s.swapFifoSwapOutVictim mm) := by
  simp only [swapFifoSwapOutVictim]
  split_ifs
  · exact .some rfl
  · exact .of_bind fun _ => .some rfl

end Params

/-! ## The range of the counter -/

/-- What `swap_init` sets up, the counter in its range. -/
structure SwapParams.Valid (p : SwapParams) (size : Word) : Prop where
  disk : ∃ b, p.device = some b ∧ (p.devices b.privateData).size = size
  max : p.maxOffset = (size - SWAP_START_SECTOR) / SECTORS_PER_PAGE
  pos : 0 < p.offset.toNat
  lt : p.offset = 1#32 ∨ p.offset < p.maxOffset

section Range
variable {s t : Vm} {mm : MmStruct} {size offset offset' : Word}

theorem Boots.valid (h : Boots size s) : s.swapParams.Valid size := by
  obtain ⟨s₀, b, hfound, hsize, hdev, hoffset, hinit⟩ := h
  have hdevice : s₀.swapfsInit.swapDevice = some b := hfound
  simp only [swapInit, hdevice, Option.bind_eq_bind, Option.bind_some, Option.some.injEq] at hinit
  subst hinit
  have hone : s₀.swapfsInit.swapOffset = 1#32 := hoffset
  refine ⟨⟨b, rfl, hdev⟩, ?_, ?_, Or.inl hone⟩
  · show (b.size - SWAP_START_SECTOR) / SECTORS_PER_PAGE = _
    rw [hsize]
  · show 0 < s₀.swapfsInit.swapOffset.toNat
    rw [hone]
    decide

/-- On a disk that goes beyond `SWAP_START_SECTOR`. -/
theorem SwapParams.Valid.max_toNat {p : SwapParams} (h : p.Valid size)
    (hle : 1000 ≤ size.toNat) : p.maxOffset.toNat = (size.toNat - 1000) / 8 := by
  have hstart : SWAP_START_SECTOR ≤ size := by
    rw [BitVec.le_def, swapStartSector_toNat]
    exact hle
  rw [h.max, BitVec.toNat_udiv, BitVec.toNat_sub_of_le hstart, swapStartSector_toNat,
    sectorsPerPage_toNat]

/-- However `max_swap_offset` came out, the counter does not overflow. -/
theorem SwapParams.Valid.succ_toNat {p : SwapParams} (h : p.Valid size) :
    (p.offset + 1#32).toNat = p.offset.toNat + 1 := by
  have hmax := (size - SWAP_START_SECTOR).isLt
  have hdiv : p.maxOffset.toNat = (size - SWAP_START_SECTOR).toNat / 8 := by
    rw [h.max, BitVec.toNat_udiv, sectorsPerPage_toNat]
  have hlt : p.offset.toNat < 2 ^ 29 := by
    rcases h.lt with hone | hlt
    · rw [hone]
      decide
    · rw [BitVec.lt_def] at hlt
      omega
  rw [BitVec.toNat_add, BitVec.toNat_ofNat]
  omega

theorem nextSwapOffset_valid (h : s.swapParams.Valid size) :
    ({ s.swapParams with offset := s.nextSwapOffset } : SwapParams).Valid size := by
  have hsucc : (s.swapOffset + 1#32).toNat = s.swapOffset.toNat + 1 := h.succ_toNat
  by_cases hle : s.maxSwapOffset ≤ s.swapOffset + 1#32
  · have hnext : s.nextSwapOffset = 1#32 := if_pos hle
    refine ⟨h.disk, h.max, ?_, Or.inl hnext⟩
    show 0 < s.nextSwapOffset.toNat
    rw [hnext]
    decide
  · have hnext : s.nextSwapOffset = s.swapOffset + 1#32 := if_neg hle
    refine ⟨h.disk, h.max, ?_, Or.inr ?_⟩
    · rw [hnext, hsucc]
      omega
    · rw [hnext]
      exact BitVec.not_le.mp hle

/-- Wherever the call comes back, the counter is where it was or has moved on. -/
def Moves {α : Type} (s : Vm) (vm : α → Vm) (x : Option α) : Prop :=
  ∀ a, x = some a → (vm a).swapParams = s.swapParams ∨
    (vm a).swapParams = { s.swapParams with offset := s.nextSwapOffset }

section Moves
variable {α β : Type} {vm : α → Vm} {vm' : β → Vm} {x : Option α} {f : α → Option β}

theorem Keeps.moves (h : s.Keeps vm x) : s.Moves vm x := fun a ha => Or.inl (h a ha)

theorem Moves.of_params (h : t.Moves vm x) (hs : t.swapParams = s.swapParams) : s.Moves vm x := by
  intro a ha
  rw [← hs, ← nextSwapOffset_of_params hs]
  exact h a ha

theorem Keeps.bind_moves (h : s.Keeps vm x) (hf : ∀ a, (vm a).Moves vm' (f a)) :
    s.Moves vm' (x.bind f) := by
  intro b hb
  obtain ⟨a, ha, hfa⟩ := Option.bind_eq_some_iff.mp hb
  exact (hf a).of_params (h a ha) b hfa

theorem Moves.bind (h : s.Moves vm x) (hf : ∀ a, (vm a).Keeps vm' (f a)) :
    s.Moves vm' (x.bind f) := by
  intro b hb
  obtain ⟨a, ha, hfa⟩ := Option.bind_eq_some_iff.mp hb
  rw [hf a b hfa]
  exact h a ha

end Moves

theorem evict_moves (s : Vm) (mm : MmStruct) (table i : ℕ) (entry : Word) (victim : ℕ)
    (addr : Word) : s.Moves id (s.evict mm table i entry victim addr) := by
  refine Moves.of_params ?_ ((s.setWord table i entry).tlbInvl_params mm.pgdir addr)
  refine (pagesFree_keeps _ victim 1).bind_moves fun u w hw => Or.inr ?_
  rw [← Option.some.inj hw]
  rfl

/-- An iteration leaves the counter alone, or moves it on. -/
theorem swapOutOne_moves (s : Vm) (mm : MmStruct) : s.Moves Prod.snd (s.swapOutOne mm) := by
  refine (s.swapFifoSwapOutVictim_keeps mm).bind_moves ?_
  rintro ⟨r, _ | victim, t⟩
  · exact (Keeps.some rfl).moves
  dsimp only
  split_ifs
  · exact (Keeps.some rfl).moves
  · exact (Keeps.some rfl).moves
  refine (t.getPte_keeps mm.pgdir (t.findVaddrForPage mm victim) false).bind_moves ?_
  rintro ⟨_ | ⟨table, i⟩, u⟩
  · exact (Keeps.some rfl).moves
  refine Moves.of_params ?_ (u.swapfsWrite_params (u.swapOffset <<< 8) victim)
  dsimp only
  split_ifs
  · exact (Keeps.some rfl).moves
  · exact (evict_moves _ mm table i _ victim _).bind fun _ => .some rfl

theorem swapOutOne_valid {o : Outcome} (h : s.swapParams.Valid size)
    (heq : s.swapOutOne mm = some (o, t)) : t.swapParams.Valid size := by
  rcases s.swapOutOne_moves mm _ heq with hsame | hnext
  · rw [hsame]
    exact h
  · rw [hnext]
    exact nextSwapOffset_valid h

theorem swapOut_valid (h : s.swapParams.Valid size) {n r : ℤ}
    (heq : s.swapOut mm n = some (r, t)) : t.swapParams.Valid size :=
  swapOutLoop_invariant (I := fun u => u.swapParams.Valid size)
    (fun _ _ _ hu _ hone => swapOutOne_valid hu hone) h (iterations_true mm n.toNat s) heq

/-- Only `swap_out` moves the counter. -/
theorem exec_keeps (s : Vm) (mm : MmStruct) {op : VmOp} (hop : ∀ n, op ≠ .swapOut n) :
    s.Keeps id (exec mm s op) := by
  cases op with
  | allocPages n => exact (s.allocPages_keeps n).map
  | pagesFree page => exact s.pagesFree_keeps page 1
  | getPte la create => exact (s.getPte_keeps mm.pgdir la create).map
  | pageInsert page la perm => exact (s.pageInsert_keeps mm.pgdir page la perm).map
  | pgdirAllocPage la perm => exact (s.pgdirAllocPage_keeps mm.pgdir la perm).map
  | mapSwappable addr page => exact .some rfl
  | swapIn addr => exact (s.swapIn_keeps mm addr).map
  | swapOut n => exact absurd rfl (hop n)
  | pgFault addr => exact (s.vmmPgFault_keeps mm addr).map

/-- No operation takes the counter out of its range. -/
theorem execCounter_valid (h : s.swapParams.Valid size) {op : CounterOp}
    (heq : s.execCounter op = some t) : t.swapParams.Valid size := by
  cases op with
  | initMm mm =>
    obtain rfl := Option.some.inj heq
    exact h
  | iteration mm =>
    obtain ⟨⟨o, u⟩, hone, rfl⟩ := Option.map_eq_some_iff.mp heq
    exact swapOutOne_valid h hone
  | call mm op =>
    by_cases hop : ∃ n, op = .swapOut n
    · obtain ⟨n, rfl⟩ := hop
      obtain ⟨⟨r, u⟩, hout, rfl⟩ := Option.map_eq_some_iff.mp heq
      exact swapOut_valid h hout
    · have hsame : t.swapParams = s.swapParams :=
        s.exec_keeps mm (fun n hn => hop ⟨n, hn⟩) t heq
      rw [hsame]
      exact h

/-- What was written is on the disk. -/
theorem swapfsWrite_fits {b : BlockDevice} {entry : Word} {page : ℕ} (hb : s.swapDevice = some b)
    (h : (s.swapfsWrite entry page).1 = 0) : Fits (s.ide.devices b.privateData) entry := by
  have hwritten : (s.ide.blkWrite (some b) (swapSector entry) (s.mem (pagNum (page2pa page)))
      SECTORS_PER_PAGE).1 = 0 := by
    simp only [swapfsWrite, hb] at h
    split_ifs at h with hr
    · exact absurd h (by simp)
    · exact not_not.mp hr
  exact not_not.mp fun hno => Ide.blkWrite_inside hwritten (lt_swapSector_iff.mpr hno)

theorem Counts.valid (h : Counts size offset) :
    ∃ t : Vm, t.swapParams.Valid size ∧ t.swapOffset = offset ∧
      1000 + offset.toNat % 2 ^ 24 * 8 + 8 ≤ size.toNat := by
  obtain ⟨s, t, page, hboots, hrun, hoffset, hwritten⟩ := h
  have hvalid : t.swapParams.Valid size :=
    hrun.invariant hboots.valid fun _ _ _ hu _ heq => execCounter_valid hu heq
  obtain ⟨b, hb, hsize⟩ := hvalid.disk
  have hfits := swapfsWrite_fits hb hwritten
  have hsize' : (t.ide.devices b.privateData).size = size := hsize
  rw [Fits, hsize', slotNum_shiftLeft, swapStartSector_toNat, sectorsPerPage_toNat] at hfits
  exact ⟨t, hvalid, hoffset, hfits⟩

/-- On a disk with no more slots than an entry can name, the counter fits in an entry. -/
theorem Counts.bounds (h : Counts size offset)
    (hlimit : (size.toNat - SWAP_START_SECTOR.toNat) / SECTORS_PER_PAGE.toNat ≤
      MAX_SWAP_OFFSET_LIMIT) : 0 < offset.toNat ∧ offset.toNat < 2 ^ 24 := by
  obtain ⟨t, hvalid, rfl, hfits⟩ := h.valid
  have hmax : t.maxSwapOffset.toNat = (size.toNat - 1000) / 8 := hvalid.max_toNat (by omega)
  rw [swapStartSector_toNat, sectorsPerPage_toNat, ← hmax] at hlimit
  refine ⟨hvalid.pos, ?_⟩
  rcases hvalid.lt with hone | hlt
  · have hone' : t.swapOffset = 1#32 := hone
    rw [hone']
    decide
  · exact Nat.lt_of_lt_of_le (BitVec.lt_def.mp hlt) hlimit

theorem lossless_of_le (hlimit : (size.toNat - SWAP_START_SECTOR.toNat) / SECTORS_PER_PAGE.toNat ≤
    MAX_SWAP_OFFSET_LIMIT) : Lossless size := by
  have hslot : ∀ o, Counts size o → slotNum (o <<< 8) = o.toNat := fun o ho => by
    rw [slotNum_shiftLeft, Nat.mod_eq_of_lt (ho.bounds hlimit).2]
  refine ⟨fun o ho hz => ?_, fun o _ => not_present_shiftLeft o, fun o ho => ?_,
    fun o o' ho ho' hne => ?_⟩
  · have hnum := hslot o ho
    have hpos := (ho.bounds hlimit).1
    rw [hz, slotNum, BitVec.toNat_zero, Nat.zero_div] at hnum
    omega
  · apply BitVec.eq_of_toNat_eq
    rw [entryOffset_toNat, hslot o ho]
  · have hne' : o.toNat ≠ o'.toNat := fun hh => hne (BitVec.eq_of_toNat_eq hh)
    rw [swapSector_toNat, swapSector_toNat, hslot o ho, hslot o' ho', sectorsPerPage_toNat]
    omega

end Range

/-! ## A run through the offsets -/

/-- The page at `la` is the only user page that is mapped, its frame is the one page on the queue,
and the counter is at `o`. -/
structure Cycling (s : Vm) (mm : MmStruct) (ram : Set ℕ) (dev : IdeDevice) (la : Word)
    (v o : ℕ) : Prop where
  space : s.Space mm ram [v]
  disk : s.Disk dev
  maps : s.Maps mm.pgdir la v
  only : ∀ la' < KERNEL_BASE, Present (s.pteAt mm.pgdir la') → pagNum la' = pagNum la
  valid : s.swapParams.Valid dev.size
  offset : s.swapOffset.toNat = o

section Cycling
variable {s : Vm} {mm : MmStruct} {ram : Set ℕ} {dev : IdeDevice} {la : Word} {v o : ℕ}

/-- The page goes out to the slot of the counter and comes in again, and the counter is at the next
offset. -/
theorem Cycling.next (h : s.Cycling mm ram dev la v o) (hla : la < KERNEL_BASE)
    (halign : roundDown la = la) (hne : la ≠ 0#32) (hlimit : o < 2 ^ 24)
    (hslots : o + 1 < (dev.size.toNat - 1000) / 8) :
    ∃ q u, Run execCounter (fun _ _ => True) s u ∧ u.Cycling mm ram dev la q (o + 1) := by
  have hfits : Fits dev (s.swapOffset <<< 8) := by
    rw [Fits, slotNum_shiftLeft, h.offset, Nat.mod_eq_of_lt hlimit, swapStartSector_toNat,
      sectorsPerPage_toNat]
    omega
  have honly : ∀ la' < KERNEL_BASE, s.Maps mm.pgdir la' v → pagNum la' = pagNum la :=
    fun la' hlt hmap => h.only la' hlt hmap.1
  obtain ⟨t, q, u, hout, hin, hev, ht, hdt, hloaded, hu, -⟩ :=
    evict_and_load h.space h.disk hfits halign hne hla h.maps honly
  have hok : okSpace mm ram t (.swapIn la) := pdx_ne_vpt hla
  have hexecOut : s.execCounter (.call mm (.swapOut 1)) = some t :=
    congrArg (Option.map Prod.snd) hout
  have hexecIn : t.execCounter (.call mm (.swapIn la)) = some u :=
    congrArg (Option.map fun x : ℤ × Option ℕ × Vm => x.2.2) hin
  refine ⟨q, u, (Run.single ⟨_, trivial, hexecOut⟩).tail ⟨_, trivial, hexecIn⟩, hu,
    exec_disk ht hdt hok hexecIn, hloaded.maps (ht.freeLow q hloaded.wasFree),
    fun la' hlt hp => ?_, execCounter_valid (execCounter_valid h.valid hexecOut) hexecIn, ?_⟩
  · by_contra hother
    rw [hloaded.pteAt, if_neg hother, hev.pteAt, if_neg hother] at hp
    exact hother (h.only la' hlt hp)
  · have hsame : u.swapOffset = t.swapOffset :=
      congrArg SwapParams.offset (t.swapIn_keeps mm la _ hin)
    have hsucc : (s.swapOffset + 1#32).toNat = o + 1 := by
      rw [← h.offset]
      exact h.valid.succ_toNat
    have hmax : s.maxSwapOffset.toNat = (dev.size.toNat - 1000) / 8 :=
      h.valid.max_toNat (by omega)
    rw [hsame, hev.offset, nextSwapOffset, if_neg, hsucc]
    rw [BitVec.le_def, hsucc, hmax]
    omega

/-- Again and again, up to the limit of the entries. -/
theorem Cycling.reaches (h : s.Cycling mm ram dev la v o) (hla : la < KERNEL_BASE)
    (halign : roundDown la = la) (hne : la ≠ 0#32) (k : ℕ) (hlimit : o + k ≤ 2 ^ 24)
    (hslots : o + k < (dev.size.toNat - 1000) / 8) :
    ∃ q u, Run execCounter (fun _ _ => True) s u ∧ u.Cycling mm ram dev la q (o + k) := by
  induction k with
  | zero => exact ⟨v, s, .refl s, h⟩
  | succ k ih =>
    obtain ⟨q, u, hrun, hu⟩ := ih (by omega) (by omega)
    obtain ⟨q', w, hrun', hw⟩ := hu.next hla halign hne (by omega) (by omega)
    exact ⟨q', w, hrun.trans hrun', hw⟩

/-- A page is allocated and queued. -/
theorem Space.queue_one (h : s.Space mm ram []) (hfree : s.pmm.freePages ≠ ∅) (la : Word) :
    ∃ v t, Run execCounter (fun _ _ => True) s t ∧ t.Space mm ram [v] ∧ v ∈ s.pmm.freePages ∧
      t.pmm.freePages = s.pmm.freePages \ {v} ∧ t.mem = s.mem ∧ t.swapParams = s.swapParams ∧
      t.ide = s.ide := by
  obtain ⟨bs, hinv⟩ := h.lists.free
  rcases hinv.alloc_cases le_rfl with ⟨-, hempty⟩ | ⟨v, pmm, halloc, htakes⟩
  · exact absurd (hempty rfl) hfree
  obtain ⟨hv, hrest⟩ := htakes.one
  have h₁ : (s.setPmm pmm).Space mm ram [] := h.takes htakes
  have hout : v ∉ (s.setPmm pmm).pmm.freePages := by
    rw [setPmm_pmm, hrest]
    exact fun hh => hh.2 rfl
  have hdata : v ∉ (s.setPmm pmm).paging mm.pgdir := fun hh => h.pgdir.notFree v hh hv
  have hram := h.inRam hv
  have hexec : s.execCounter (.call mm (.allocPages 1)) = some (s.setPmm pmm) := by
    show (s.allocPages 1).map Prod.snd = _
    rw [allocPages, halloc]
    rfl
  refine ⟨v, (s.setPmm pmm).swapFifoMapSwappable mm v,
    (Run.single ⟨_, trivial, hexec⟩).tail ⟨.call mm (.mapSwappable la v), trivial, rfl⟩,
    h₁.mapSwappable hram hout List.not_mem_nil hdata, hv, ?_, rfl, rfl, rfl⟩
  rw [← hrest, swapFifoMapSwappable, h.head]
  exact (h₁.lists.enqueue hram hout List.not_mem_nil).2

/-- Where no user page is mapped yet and two pages are free, one is allocated, queued and mapped. -/
theorem Space.cycling (h : s.Space mm ram []) (hd : s.Disk dev)
    (hvalid : s.swapParams.Valid dev.size) (hoffset : s.swapOffset = 1#32)
    (hnone : ∀ la' < KERNEL_BASE, ¬ Present (s.pteAt mm.pgdir la')) {p q : ℕ} (hpq : p ≠ q)
    (hp : p ∈ s.pmm.freePages) (hq : q ∈ s.pmm.freePages) (hla : la < KERNEL_BASE) :
    ∃ v u, Run execCounter (fun _ _ => True) s u ∧ u.Cycling mm ram dev la v 1 := by
  obtain ⟨v, t, hrun, ht, hv, hfree, hmem, hparams, hide⟩ :=
    h.queue_one (Set.Nonempty.ne_empty ⟨p, hp⟩) la
  have hvpt := pdx_ne_vpt hla
  have hdt : t.Disk dev := hd.of_eq (congrArg SwapParams.device hparams) hide
  obtain ⟨bs, hinv⟩ := ht.lists.free
  obtain ⟨r, u, hins, hspec⟩ := pageInsert_spec hinv mm.pgdir v la PTE_U
  have hr : r = INSERT_SUCCESS := by
    cases hspec with
    | success => rfl
    | failure hno hempty =>
      -- one of the two pages is still free
      rw [hfree, Set.eq_empty_iff_forall_notMem] at hempty
      have hpv : p = v := by_contra fun hh => hempty p ⟨hp, hh⟩
      have hqv : q = v := by_contra fun hh => hempty q ⟨hq, hh⟩
      exact absurd (hpv.trans hqv.symm) hpq
  subst hr
  have hexec : t.execCounter (.call mm (.pageInsert v la PTE_U)) = some u :=
    congrArg (Option.map Prod.snd) hins
  have hok : okSpace mm ram t (.pageInsert v la PTE_U) := hvpt
  have hsame : u.swapParams = s.swapParams :=
    (t.pageInsert_keeps mm.pgdir v la PTE_U _ hins).trans hparams
  have hpte : ∀ la', pdx la' ≠ pdx VPT → u.pteAt mm.pgdir la' =
      if pagNum la' = pagNum la then page2pa v ||| PTE_U ||| PTE_P else s.pteAt mm.pgdir la' := by
    intro la' hvpt'
    rw [hspec.pteAt ht.pgdir ht.freeLow hvpt hvpt', pteAt, hmem, ← pteAt]
    simp only [true_and]
  refine ⟨v, u, hrun.tail ⟨_, trivial, hexec⟩, ht.pageInsert hspec hvpt, exec_disk ht hdt hok hexec,
    maps_of_entry ((hpte la hvpt).trans (if_pos rfl)) (h.freeLow v hv) (by decide),
    fun la' hlt hpres => ?_, hsame ▸ hvalid, ?_⟩
  · by_contra hother
    rw [hpte la' (pdx_ne_vpt hlt), if_neg hother] at hpres
    exact hnone la' hlt hpres
  · have hone : u.swapOffset = 1#32 := (congrArg SwapParams.offset hsame).trans hoffset
    rw [hone]
    rfl

end Cycling

theorem booted_boots (n : ℕ) (size : Word) : Boots size (booted n size) :=
  ⟨((sample n size).swapFifoInitMm initMm).1, _, rfl, rfl, rfl, rfl, booted_eq n size⟩

/-- On a disk with more slots than an entry can name, the counter gets to the offset whose entry is
zero, and the page is written. -/
theorem counts_limit {size : Word} (hlimit : MAX_SWAP_OFFSET_LIMIT <
    (size.toNat - SWAP_START_SECTOR.toNat) / SECTORS_PER_PAGE.toNat) :
    Counts size (BitVec.ofNat 32 MAX_SWAP_OFFSET_LIMIT) := by
  have hslots : 2 ^ 24 < (size.toNat - 1000) / 8 := hlimit
  have hfree := booted_freePages (n := 8) (by decide) size
  have h₁ : 4 ∈ (booted 8 size).pmm.freePages := by
    rw [hfree, Set.mem_Ico]
    omega
  have h₂ : 5 ∈ (booted 8 size).pmm.freePages := by
    rw [hfree, Set.mem_Ico]
    omega
  have hnone : ∀ la < KERNEL_BASE, ¬ Present ((booted 8 size).pteAt initMm.pgdir la) :=
    fun la hla => by
      rw [booted_pteAt size hla]
      exact not_present_zero
  have hla : 0x400000#32 < KERNEL_BASE := by decide
  obtain ⟨v, s, hrun, hs⟩ := (booted_space (n := 8) (by decide) size (by decide)).cycling
    (booted_disk (n := 8) size) (booted_boots 8 size).valid rfl hnone (by decide) h₁ h₂ hla
  obtain ⟨q, t, hrun', ht⟩ := hs.reaches hla (by decide) (by decide) (2 ^ 24 - 1) (by omega)
    (by omega)
  have hoffset : t.swapOffset = BitVec.ofNat 32 MAX_SWAP_OFFSET_LIMIT :=
    BitVec.eq_of_toNat_eq ht.offset
  have hlow := ht.space.low q (ht.space.lists.inRam q List.mem_cons_self)
  refine ⟨booted 8 size, t, q, booted_boots 8 size, hrun.trans hrun', hoffset, ?_⟩
  rw [(swapfsWrite_disk ht.disk _ hlow).2.1, Fits, slotNum_shiftLeft, swapStartSector_toNat,
    sectorsPerPage_toNat]
  show 1000 + 2 ^ 24 % 2 ^ 32 % 2 ^ 24 * 8 + 8 ≤ size.toNat
  omega

/-- The entries lose nothing if and only if the disk has at most as many slots behind
`SWAP_START_SECTOR` as an entry can name. -/
theorem swapEntries_lossless_iff (size : Word) : Lossless size ↔
    (size.toNat - SWAP_START_SECTOR.toNat) / SECTORS_PER_PAGE.toNat ≤ MAX_SWAP_OFFSET_LIMIT := by
  refine ⟨fun h => ?_, lossless_of_le⟩
  by_contra hmore
  exact h.entry_ne _ (counts_limit (Nat.lt_of_not_le hmore)) (by decide)

/-- On a disk of a little more than 64 GiB, the page that is written when the counter is at
`MAX_SWAP_OFFSET_LIMIT` gets the entry of a page that was never mapped. -/
theorem largeDisk_loses_page : (0x8000400#32).toNat < 2 ^ 28 ∧ Counts 0x8000400#32 0x1000000#32 ∧
    0x1000000#32 <<< 8 = 0#32 ∧ ¬ Lossless 0x8000400#32 := by
  have hcounts : Counts 0x8000400#32 0x1000000#32 := counts_limit (by decide)
  have hzero : 0x1000000#32 <<< 8 = 0#32 := by decide
  exact ⟨by decide, hcounts, hzero, fun h => h.entry_ne _ hcounts hzero⟩

end Vm
end Zonix
