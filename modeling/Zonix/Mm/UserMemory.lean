import Zonix.Mm.PageFault
import Zonix.Mm.SwapEntries
import Zonix.Lib.Memory

/-!
# The memory below `KERNEL_BASE`

A program loads and stores words there. An access to a page that is not present faults:
`vmm_pg_fault` is called, and the instruction starts again. `userMemory` is what the program
has to go by, the content of every page that has one, be it in a frame or in a slot of the
disk. `Backed` is what the kernel keeps true of these pages; every call keeps it, and is an
access to the memory.
-/

namespace Zonix
open Lib

namespace Vm

/-! ## Accesses -/

/-- The word of its page that an address is in. -/
def wordOf (la : Word) : Fin 1024 := ⟨la.toNat % 4096 / 4, by omega⟩

/-- The frame that an access reaches. All code runs in ring 0 with CR0.WP clear, so a page that
is present may be read and written whatever its other flags say. -/
def frameOf (s : Vm) (mm : MmStruct) (la : Word) : Option ℕ := (s.walk mm.pgdir la).map pagNum

/-- Bring in the page of an address: after a fault the instruction starts again. The result is
`none` when it faults once more than `faults` times. -/
def touch (mm : MmStruct) (la : Word) : ℕ → Vm → Option (ℕ × Vm)
  | 0, s => (s.frameOf mm la).map fun frame => (frame, s)
  | faults + 1, s =>
    match s.frameOf mm la with
    | some frame => some (frame, s)
    | none => do
      let (_, s) ← s.vmmPgFault mm la
      touch mm la faults s

/-- What a program does, and what the kernel does in between. -/
inductive MemOp
  | load (la : Word)
  | store (la v : Word)
  | call (op : VmOp)

/-- A load answers the word. -/
def execMem (mm : MmStruct) (faults : ℕ) (s : Vm) : MemOp → Option (Option Word × Vm)
  | .load la => do
    let (frame, s) ← touch mm la faults s
    some (some (s.mem frame (wordOf la)), s)
  | .store la v => do
    let (frame, s) ← touch mm la faults s
    some (none, s.setWord frame (wordOf la) v)
  | .call op => (exec mm s op).map fun s => (none, s)

/-! ## What the program sees -/

/-- The content of the page that an entry stands for: of a frame, or of a swap slot. -/
def content (s : Vm) (dev : IdeDevice) (pte : Word) : Option (Fin 1024 → Word) :=
  if Present pte then some fun w => s.mem (pagNum pte) w
  else if pte = 0#32 then none
  else some fun w => s.slot dev (slotNum pte) w

def userMemory (s : Vm) (mm : MmStruct) (dev : IdeDevice) : Memory ℕ (Fin 1024) Word := fun k =>
  if k < pagNum KERNEL_BASE then s.content dev (s.pteAt mm.pgdir (page2pa k)) else none

/-- The access that an operation is, with its answer. -/
def MemOp.access : MemOp → Option Word → Access ℕ (Fin 1024) Word
  | .load la, answer => .load (pagNum la) (wordOf la) (answer.getD 0#32)
  | .store la v, _ => .store (pagNum la) (wordOf la) v
  | .call (.pageInsert _ la _), _ | .call (.pgdirAllocPage la _), _ => .replace (pagNum la)
  | .call _, _ => .silent

/-! ## What the callers owe -/

/-- No user page is mapped to the frame. -/
def MappedNowhere (s : Vm) (mm : MmStruct) (frame : ℕ) : Prop :=
  ∀ la < KERNEL_BASE, ¬ s.Maps mm.pgdir la frame

/-- The slot that the next eviction is given, if there is one, has an entry that is not empty,
and no user page is in it. -/
def SlotFree (mm : MmStruct) (s : Vm) : Prop :=
  ∀ v, s.Evicts mm v → s.swapOffset <<< 8 ≠ 0#32 ∧
    ∀ la < KERNEL_BASE, s.SwappedOut mm.pgdir la → s.pteAt mm.pgdir la ≠ s.swapOffset <<< 8

/-- There are free pages for the page, and for its page table if that is missing. -/
def Served (s : Vm) (mm : MmStruct) (la : Word) : Prop :=
  ¬ Present (s.pteAt mm.pgdir la) →
    (if Present (s.mem mm.pgdir (pdx la)) then 1 else 2) ≤ s.pmm.nrFree

def okMem (mm : MmStruct) (ram : Set ℕ) (s : Vm) : MemOp → Prop
  | .load la | .store la _ => la < KERNEL_BASE ∧ s.Served mm la
  | .call (.allocPages n) => 1 ≤ n
  | .call (.pagesFree page) => s.Allocated ram page ∧ ¬ s.Queued mm page ∧
    page ∉ s.paging mm.pgdir ∧ s.MappedNowhere mm page
  | .call (.getPte la _) => la < KERNEL_BASE
  | .call (.pageInsert page la perm) => la < KERNEL_BASE ∧ perm < 0x1000#32 ∧
    s.Allocated ram page ∧ page ∉ s.paging mm.pgdir ∧ s.MappedNowhere mm page
  | .call (.pgdirAllocPage la perm) => la < KERNEL_BASE ∧ perm < 0x1000#32
  | .call (.mapSwappable _ page) =>
    s.Allocated ram page ∧ ¬ s.Queued mm page ∧ page ∉ s.paging mm.pgdir
  | .call (.swapIn addr) => addr < KERNEL_BASE ∧ s.SwappedOut mm.pgdir addr
  | .call (.swapOut n) => Iterations mm (SlotFree mm) n.toNat s
  -- the handler is called by the accesses that fault
  | .call (.pgFault _) => False

/-! ## The invariant -/

/-- A frame is mapped at one user page at most; it is allocated and holds no page table. The
entry of a user page that was swapped out was made by `swap_out`, and its slot is on the disk. -/
structure Backed (s : Vm) (mm : MmStruct) (dev : IdeDevice) : Prop where
  once : ∀ la < KERNEL_BASE, ∀ la' < KERNEL_BASE, ∀ f, s.Maps mm.pgdir la f →
    s.Maps mm.pgdir la' f → pagNum la = pagNum la'
  frame : ∀ la < KERNEL_BASE, ∀ f, s.Maps mm.pgdir la f →
    f ∉ s.pmm.freePages ∧ f ∉ s.paging mm.pgdir
  slot : ∀ la < KERNEL_BASE, s.SwappedOut mm.pgdir la →
    Fits dev (s.pteAt mm.pgdir la) ∧ ∃ off : Word, s.pteAt mm.pgdir la = off <<< 8

/-- What a call may change: free frames, page tables, and what it takes from the free frames. -/
structure KeepsPages (s : Vm) (mm : MmStruct) (dev : IdeDevice) (t : Vm) : Prop where
  mem : ∀ f, f ∉ s.pmm.freePages → f ∉ s.paging mm.pgdir → ∀ j, t.mem f j = s.mem f j
  free : t.pmm.freePages ⊆ s.pmm.freePages
  paging : ∀ f ∈ t.paging mm.pgdir, f ∈ s.paging mm.pgdir ∨ f ∈ s.pmm.freePages
  slot : ∀ n w, w < 1024 → t.slot dev n w = s.slot dev n w

section View
variable {s t u : Vm} {mm : MmStruct} {ram : Set ℕ} {qs : List ℕ} {dev : IdeDevice} {la perm : Word}
  {p : ℕ}

theorem pagNum_lt_kernelBase : pagNum la < pagNum KERNEL_BASE ↔ la < KERNEL_BASE := by
  have hk : pagNum KERNEL_BASE = 768 * 1024 := by decide
  have hlt := ptx_lt la
  rw [hk, lt_kernelBase_iff, pagNum_eq_index]
  omega

/-- Every page has an address. -/
theorem exists_page {k : ℕ} (hk : k < pagNum KERNEL_BASE) :
    ∃ la : Word, la < KERNEL_BASE ∧ pagNum la = k := by
  have hlow : k < 2 ^ 20 := hk.trans (by decide)
  have hpage := pagNum_page2pa hlow
  exact ⟨page2pa k, pagNum_lt_kernelBase.mp (hpage.symm ▸ hk), hpage⟩

theorem userMemory_page (hla : la < KERNEL_BASE) :
    s.userMemory mm dev (pagNum la) = s.content dev (s.pteAt mm.pgdir la) := by
  rw [userMemory, if_pos (pagNum_lt_kernelBase.mpr hla),
    s.pteAt_page mm.pgdir (pagNum_page2pa (pagNum_lt la))]

theorem userMemory_high {k : ℕ} (hk : ¬ k < pagNum KERNEL_BASE) :
    s.userMemory mm dev k = none := if_neg hk

/-- The memory is compared page by page. -/
theorem userMemory_eq_of {k : ℕ} (h : ∀ la < KERNEL_BASE, pagNum la = k →
    t.content dev (t.pteAt mm.pgdir la) = s.content dev (s.pteAt mm.pgdir la)) :
    t.userMemory mm dev k = s.userMemory mm dev k := by
  by_cases hk : k < pagNum KERNEL_BASE
  · obtain ⟨la, hla, rfl⟩ := exists_page hk
    rw [userMemory_page hla, userMemory_page hla]
    exact h la hla rfl
  · rw [userMemory_high hk, userMemory_high hk]

theorem content_of_maps (hm : s.Maps mm.pgdir la p) :
    s.content dev (s.pteAt mm.pgdir la) = some fun w : Fin 1024 => s.mem p w := by
  rw [content, if_pos hm.1, hm.2]

theorem content_of_swappedOut (ho : s.SwappedOut mm.pgdir la) :
    s.content dev (s.pteAt mm.pgdir la) =
      some fun w : Fin 1024 => s.slot dev (slotNum (s.pteAt mm.pgdir la)) w := by
  rw [content, if_neg ho.2, if_neg ho.1]

theorem content_of_empty (hz : s.pteAt mm.pgdir la = 0#32) :
    s.content dev (s.pteAt mm.pgdir la) = none := by
  rw [content, hz, if_neg not_present_zero, if_pos rfl]

/-- A page is mapped, swapped out or empty. -/
theorem maps_or_swappedOut (s : Vm) (pgdir : ℕ) (la : Word) :
    s.Maps pgdir la (pagNum (s.pteAt pgdir la)) ∨ s.SwappedOut pgdir la ∨
      s.pteAt pgdir la = 0#32 := by
  by_cases hp : Present (s.pteAt pgdir la)
  · exact Or.inl ⟨hp, rfl⟩
  · by_cases hz : s.pteAt pgdir la = 0#32
    · exact Or.inr (Or.inr hz)
    · exact Or.inr (Or.inl ⟨hz, hp⟩)

/-- With the same entry, and the same word in the frame and in the slot. -/
theorem content_congr (hpte : t.pteAt mm.pgdir la = s.pteAt mm.pgdir la)
    (hmem : ∀ f, s.Maps mm.pgdir la f → ∀ j, t.mem f j = s.mem f j)
    (hslot : s.SwappedOut mm.pgdir la → ∀ w, w < 1024 →
      t.slot dev (slotNum (s.pteAt mm.pgdir la)) w = s.slot dev (slotNum (s.pteAt mm.pgdir la)) w) :
    t.content dev (t.pteAt mm.pgdir la) = s.content dev (s.pteAt mm.pgdir la) := by
  rcases s.maps_or_swappedOut mm.pgdir la with hm | ho | hz
  · rw [content_of_maps hm, content_of_maps ((maps_of_pteAt hpte).mpr hm)]
    simp only [hmem _ hm]
  · rw [content_of_swappedOut ho, content_of_swappedOut ((swappedOut_congr hpte).mpr ho), hpte]
    congr 1
    funext w
    exact hslot ho w w.isLt
  · rw [content_of_empty hz, content_of_empty (hpte.trans hz)]

/-! ## Calls that move no page -/

theorem KeepsPages.refl (s : Vm) : s.KeepsPages mm dev s :=
  ⟨fun _ _ _ _ => rfl, subset_rfl, fun _ hf => Or.inl hf, fun _ _ _ => rfl⟩

theorem KeepsPages.trans (h : s.KeepsPages mm dev t) (h' : t.KeepsPages mm dev u) :
    s.KeepsPages mm dev u where
  mem f hfree hpaging j := by
    have ht : f ∉ t.paging mm.pgdir := fun hf => (h.paging f hf).elim hpaging hfree
    rw [h'.mem f (fun hf => hfree (h.free hf)) ht, h.mem f hfree hpaging]
  free := h'.free.trans h.free
  paging f hf := (h'.paging f hf).elim (h.paging f) fun hf => Or.inr (h.free hf)
  slot n w hw := (h'.slot n w hw).trans (h.slot n w hw)

/-- Only the free frames changed. -/
theorem KeepsPages.of_mem (hmem : ∀ f, f ∉ s.pmm.freePages → ∀ j, t.mem f j = s.mem f j)
    (hdir : ∀ j, t.mem mm.pgdir j = s.mem mm.pgdir j)
    (hfree : t.pmm.freePages ⊆ s.pmm.freePages)
    (hslot : ∀ n w, w < 1024 → t.slot dev n w = s.slot dev n w) : s.KeepsPages mm dev t :=
  ⟨fun f hf _ => hmem f hf, hfree, fun _ hf => Or.inl (paging_congr hdir ▸ hf), hslot⟩

namespace Backed

/-- The frame of a user page is no page table afterwards. -/
theorem frame_keeps (hb : s.Backed mm dev) (hk : s.KeepsPages mm dev t) (hla : la < KERNEL_BASE)
    (hm : s.Maps mm.pgdir la p) : p ∉ t.pmm.freePages ∧ p ∉ t.paging mm.pgdir := by
  obtain ⟨hfree, hpaging⟩ := hb.frame la hla p hm
  exact ⟨fun hf => hfree (hk.free hf), fun hf => (hk.paging p hf).elim hpaging hfree⟩

theorem content_keeps (hb : s.Backed mm dev) (hk : s.KeepsPages mm dev t) (hla : la < KERNEL_BASE)
    (hpte : t.pteAt mm.pgdir la = s.pteAt mm.pgdir la) :
    t.content dev (t.pteAt mm.pgdir la) = s.content dev (s.pteAt mm.pgdir la) := by
  refine content_congr hpte (fun f hm => ?_) fun _ w hw => hk.slot _ w hw
  obtain ⟨hfree, hpaging⟩ := hb.frame la hla f hm
  exact hk.mem f hfree hpaging

/-- No user page has another entry. -/
theorem same (hb : s.Backed mm dev) (hk : s.KeepsPages mm dev t)
    (hpte : ∀ la < KERNEL_BASE, t.pteAt mm.pgdir la = s.pteAt mm.pgdir la) :
    t.Backed mm dev ∧ t.userMemory mm dev = s.userMemory mm dev := by
  have hmaps : ∀ la < KERNEL_BASE, ∀ f, t.Maps mm.pgdir la f → s.Maps mm.pgdir la f :=
    fun la hla f => (maps_of_pteAt (hpte la hla)).mp
  refine ⟨⟨fun la hla la' hla' f hm hm' => ?_, fun la hla f hm => ?_, fun la hla ho => ?_⟩, ?_⟩
  · exact hb.once la hla la' hla' f (hmaps la hla f hm) (hmaps la' hla' f hm')
  · exact hb.frame_keeps hk hla (hmaps la hla f hm)
  · rw [hpte la hla]
    exact hb.slot la hla ((swappedOut_congr (hpte la hla)).mp ho)
  · funext k
    exact userMemory_eq_of fun la hla _ => hb.content_keeps hk hla (hpte la hla)

/-- A user page has become the frame `p`. -/
theorem entry (hb : s.Backed mm dev) (hk : s.KeepsPages mm dev t) (hla : la < KERNEL_BASE)
    (hpte : ∀ la' < KERNEL_BASE, t.pteAt mm.pgdir la' = if pagNum la' = pagNum la
      then page2pa p ||| perm ||| PTE_P else s.pteAt mm.pgdir la')
    (hp : p < 2 ^ 20) (hperm : perm < 0x1000#32) (hfree : p ∉ t.pmm.freePages)
    (hpaging : p ∉ t.paging mm.pgdir) (hno : s.MappedNowhere mm p) :
    t.Backed mm dev ∧ t.Maps mm.pgdir la p ∧
      (s.userMemory mm dev).Sets (pagNum la) (fun w => t.mem p w) (t.userMemory mm dev) := by
  have hat : ∀ la' < KERNEL_BASE, pagNum la' = pagNum la → t.Maps mm.pgdir la' p := by
    intro la' hla' hpage
    have hentry := hpte la' hla'
    rw [if_pos hpage] at hentry
    exact maps_of_entry hentry hp hperm
  have hother : ∀ la' < KERNEL_BASE, pagNum la' ≠ pagNum la →
      t.pteAt mm.pgdir la' = s.pteAt mm.pgdir la' := by
    intro la' hla' hpage
    rw [hpte la' hla', if_neg hpage]
  -- a mapping of `t` is the new one, or one of `s` to another frame
  have hcases : ∀ la' < KERNEL_BASE, ∀ f, t.Maps mm.pgdir la' f →
      pagNum la' = pagNum la ∧ f = p ∨ s.Maps mm.pgdir la' f ∧ f ≠ p := by
    intro la' hla' f hm
    by_cases hpage : pagNum la' = pagNum la
    · exact Or.inl ⟨hpage, hm.eq (hat la' hla' hpage)⟩
    · have hs := (maps_of_pteAt (hother la' hla' hpage)).mp hm
      exact Or.inr ⟨hs, fun heq => hno la' hla' (heq ▸ hs)⟩
  refine ⟨⟨fun la₁ h₁ la₂ h₂ f hm₁ hm₂ => ?_, fun la' hla' f hm => ?_, fun la' hla' ho => ?_⟩,
    hat la hla rfl, ?_, fun k hk' => ?_⟩
  · rcases hcases la₁ h₁ f hm₁ with ⟨hpage₁, hf₁⟩ | ⟨hs₁, hf₁⟩
    · rcases hcases la₂ h₂ f hm₂ with ⟨hpage₂, -⟩ | ⟨-, hf₂⟩
      · exact hpage₁.trans hpage₂.symm
      · exact absurd hf₁ hf₂
    · rcases hcases la₂ h₂ f hm₂ with ⟨-, hf₂⟩ | ⟨hs₂, -⟩
      · exact absurd hf₂ hf₁
      · exact hb.once la₁ h₁ la₂ h₂ f hs₁ hs₂
  · rcases hcases la' hla' f hm with ⟨-, rfl⟩ | ⟨hs, -⟩
    · exact ⟨hfree, hpaging⟩
    · exact hb.frame_keeps hk hla' hs
  · by_cases hpage : pagNum la' = pagNum la
    · exact absurd (hat la' hla' hpage).1 ho.2
    · rw [hother la' hla' hpage]
      exact hb.slot la' hla' ((swappedOut_congr (hother la' hla' hpage)).mp ho)
  · rw [userMemory_page hla, content_of_maps (hat la hla rfl)]
  · apply userMemory_eq_of
    rintro la' hla' rfl
    exact hb.content_keeps hk hla' (hother la' hla' hk')

end Backed
end View
end Vm
end Zonix
