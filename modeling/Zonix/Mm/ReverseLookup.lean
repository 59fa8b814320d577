import Zonix.Mm.Evictions
import Mathlib.Order.Bounds.Basic

/-!
# The reverse lookup of `kern/mm/swap.c`

`find_vaddr_for_page` answers with an address, and with 0 where it finds none. But 0 is an address
as well, and the first one that it looks at: a page that is mapped there is found, and the caller
takes it for one that is not mapped.
-/

namespace Zonix
open Lib

namespace Vm

/-- What is expected of the reverse lookup of a page: the lowest address of a page that maps it; 0
only where no address does; and the page goes to the disk when its turn comes, if the disk takes
it. -/
structure ReverseLookup (s : Vm) (mm : MmStruct) (p : ℕ) : Prop where
  lowest : (∃ la, s.Maps mm.pgdir la p) →
    IsLeast {la | roundDown la = la ∧ s.Maps mm.pgdir la p} (s.findVaddrForPage mm p)
  notFound : s.findVaddrForPage mm p = 0#32 → ∀ la, ¬ s.Maps mm.pgdir la p
  evicted : ∀ ram qs, s.pmm.Lists ram (p :: qs) → mm.swapList = .praListHead →
    (∃ la, s.Maps mm.pgdir la p) →
    ((s.dequeued p).swapfsWrite (s.swapOffset <<< 8) p).1 = 0 →
    ∃ addr t, s.swapOutOne mm = some (.evicted p addr, t)

section Lookup
variable {s : Vm} {mm : MmStruct} {ram : Set ℕ} {qs : List ℕ} {p : ℕ} {la : Word}

/-- Only frames below 4 GB are mapped. -/
theorem Maps.lt (h : s.Maps mm.pgdir la p) : p < 2 ^ 20 := h.2 ▸ pagNum_lt _

theorem roundDown_pageAddr {d t : ℕ} (hd : d < 1024) (ht : t < 1024) :
    roundDown (pageAddr d t) = pageAddr d t := by
  apply BitVec.eq_of_toNat_eq
  rw [roundDown_toNat, pageAddr_toNat hd ht]
  omega

/-- What is found is the lowest page that maps the frame. -/
theorem findVaddrForPage_isLeast (h : ∃ la, s.Maps mm.pgdir la p) :
    IsLeast {la | roundDown la = la ∧ s.Maps mm.pgdir la p} (s.findVaddrForPage mm p) := by
  obtain ⟨la, hla⟩ := h
  rcases findVaddrForPage_cases s mm hla.lt with ⟨d, t, hd, ht, heq, hm, hmin⟩ | ⟨-, hno⟩
  · rw [heq]
    refine ⟨⟨roundDown_pageAddr hd ht, hm⟩, fun la' hla' => ?_⟩
    have hle := hmin la' hla'.2
    have haddr := pageAddr_toNat hd ht
    rw [pagNum_pageAddr hd ht, pagNum_eq] at hle
    rw [BitVec.le_def]
    omega
  · exact absurd hla (hno la)

/-- A page that is mapped, and not at address 0, is not found at 0. -/
theorem findVaddrForPage_ne_zero (hno : ¬ s.Maps mm.pgdir 0#32 p)
    (h : ∃ la, s.Maps mm.pgdir la p) : s.findVaddrForPage mm p ≠ 0#32 := by
  intro hzero
  have hmaps := (findVaddrForPage_isLeast h).1.2
  rw [hzero] at hmaps
  exact hno hmaps

/-- The head of the queue is evicted, when it is found and the disk takes it. -/
theorem swapOutOne_evicted (h : s.pmm.Lists ram (p :: qs)) (hmm : mm.swapList = .praListHead)
    (hp : p < 2 ^ 20) (he : s.Evicts mm p) :
    ∃ t, s.swapOutOne mm = some (.evicted p (s.findVaddrForPage mm p), t) := by
  obtain ⟨hhead, hfind, hwrite⟩ := he
  obtain ⟨o, t, heq, ho, -⟩ := swapOutOne_spec h hmm
  obtain rfl := ho.eq_evicted hmm hp hhead hfind hwrite
  exact ⟨t, heq⟩

/-- The reverse lookup does what is expected of it exactly for the pages that address 0 does not
map. -/
theorem reverseLookup_iff (s : Vm) (mm : MmStruct) (p : ℕ) :
    s.ReverseLookup mm p ↔ ¬ s.Maps mm.pgdir 0#32 p := by
  constructor
  · intro h hzero
    have hleast := (h.lowest ⟨0#32, hzero⟩).2 ⟨by decide, hzero⟩
    have hfind : s.findVaddrForPage mm p = 0#32 := by
      rw [BitVec.le_def] at hleast
      exact BitVec.eq_of_toNat_eq (Nat.le_zero.mp hleast)
    exact h.notFound hfind 0#32 hzero
  · intro hno
    refine ⟨findVaddrForPage_isLeast, fun hfind la hla => ?_, ?_⟩
    · exact findVaddrForPage_ne_zero hno ⟨la, hla⟩ hfind
    · intro ram qs hlists hmm hmapped hwrite
      have hhead : listNext s.pmm.link mm.swapList = .pageLink p := hmm ▸ hlists.next_cons
      have hlow := (findVaddrForPage_isLeast hmapped).1.2.lt
      obtain ⟨t, ht⟩ := swapOutOne_evicted hlists hmm hlow
        ⟨hhead, findVaddrForPage_ne_zero hno hmapped, hwrite⟩
      exact ⟨_, t, ht⟩

end Lookup

/-- The user page at address 0, queued. -/
def zeroOps : List VmOp := [.allocPages 1, .pageInsert 4 0#32 PTE_U, .mapSwappable 0#32 4]

/-- The page at address 0 is found, at 0, and `swap_out` skips it. -/
theorem swapOut_skips_page_zero : ∃ u t, zeroOps.foldlM (exec initMm) (booted 8 1024#32) = some u ∧
    u.Maps initMm.pgdir 0#32 4 ∧ u.findVaddrForPage initMm 4 = 0#32 ∧
    u.swapOutOne initMm = some (.skip, t) ∧ ¬ u.ReverseLookup initMm 4 := by
  have heq : ((zeroOps.foldlM (exec initMm) (booted 8 1024#32)).bind fun u =>
      (u.swapOutOne initMm).map fun x =>
        (decide (u.Maps initMm.pgdir 0#32 4), u.findVaddrForPage initMm 4, x.1)) =
      some (true, 0#32, .skip) := by decide +kernel
  obtain ⟨u, hexec, heq⟩ := Option.bind_eq_some_iff.mp heq
  obtain ⟨⟨o, t⟩, hone, heq⟩ := Option.map_eq_some_iff.mp heq
  obtain ⟨hmaps, heq⟩ := Prod.mk.inj heq
  obtain ⟨hfind, ho⟩ := Prod.mk.inj heq
  dsimp only at ho
  subst ho
  have hzero := of_decide_eq_true hmaps
  exact ⟨u, t, hexec, hzero, hfind, hone, fun h => h.notFound hfind 0#32 hzero⟩

end Vm
end Zonix
