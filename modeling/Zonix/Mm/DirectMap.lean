import Zonix.Mm.SwapTheorems
import Zonix.Mm.PageInit
import Mathlib.Data.Finset.Card
import Mathlib.Data.Finset.Image
import Mathlib.Data.Finset.Range

/-!
# The direct map: `pgdir_init` of `kern/mm/vmm.c`

`pgdir_init` enters one page after the other, and makes the page tables that are missing. One
iteration writes one entry and takes the page table of its page off the missing ones, if it was
among them; so as many free pages as there are missing page tables are enough for all of them.
-/

namespace Zonix
open Lib

namespace Vm

/-- `*ptep = v`. A null pointer is the linear address 0 of the directory in use. -/
def storePte (s : Vm) (ptep : Option (ℕ × ℕ)) (v : Word) : Option Vm :=
  match ptep with
  | some (table, i) => some (s.setWord table i v)
  | none => do
    let pte ← s.walk (pagNum s.cr3) 0#32
    some (s.setWord (pagNum pte) 0 v)

/-- The loop of `pgdir_init`, with `n` pages to go. -/
def pgdirInitLoop (pgdir : ℕ) (perm : Word) : ℕ → Word → Word → Vm → Option Vm
  | 0, _, _, s => some s
  | n + 1, la, pa, s => do
    let (ptep, s) ← s.getPte pgdir la true
    let s ← s.storePte ptep (pa ||| PTE_P ||| perm)
    pgdirInitLoop pgdir perm n (la + BitVec.ofNat 32 PG_SIZE) (pa + BitVec.ofNat 32 PG_SIZE) s

/-- `pgdir_init(pgdir, la, size, pa, perm)` -/
def pgdirInit (s : Vm) (pgdir : ℕ) (la size pa perm : Word) : Option Vm :=
  let n := (roundUp size).toNat / PG_SIZE
  pgdirInitLoop pgdir perm n (roundDown la) (roundDown pa) s

/-- What the tables translate an address to: the physical address, and the flags of its page. -/
def translate (s : Vm) (pgdir : ℕ) (la : Word) : Option (Word × Word) :=
  (s.walk pgdir la).map fun pte => (pteAddr pte + la % BitVec.ofNat 32 PG_SIZE, pteFlags pte)

/-! ## The pages of a range -/

/-- The `k`-th page from `la` on. -/
def nthPage (la : Word) (k : ℕ) : Word := la + BitVec.ofNat 32 (k * PG_SIZE)

/-- The directory entries of the range that lead to no page table. -/
def missingTables (s : Vm) (pgdir : ℕ) (la : Word) (n : ℕ) : Finset ℕ :=
  ((Finset.range n).image fun k => pdx (nthPage la k)).filter fun d => ¬ Present (s.mem pgdir d)

section Pages
variable {s t : Vm} {pgdir : ℕ} {la : Word} {n k : ℕ}

theorem nthPage_zero (la : Word) : nthPage la 0 = la := by
  rw [nthPage, Nat.zero_mul]
  exact BitVec.add_zero la

theorem nthPage_succ (la : Word) (k : ℕ) :
    nthPage la (k + 1) = nthPage (la + BitVec.ofNat 32 PG_SIZE) k := by
  apply BitVec.eq_of_toNat_eq
  simp only [nthPage, BitVec.toNat_add, BitVec.toNat_ofNat, PG_SIZE]
  omega

theorem nthPage_toNat (h : la.toNat + k * 4096 < 2 ^ 32) :
    (nthPage la k).toNat = la.toNat + k * 4096 := by
  rw [nthPage, BitVec.toNat_add, BitVec.toNat_ofNat, PG_SIZE]
  omega

theorem pagNum_nthPage (h : la.toNat + k * 4096 < 2 ^ 32) :
    pagNum (nthPage la k) = pagNum la + k := by
  rw [pagNum_eq, pagNum_eq, nthPage_toNat h]
  omega

theorem mem_missingTables {d : ℕ} : d ∈ s.missingTables pgdir la n ↔
    (∃ k < n, pdx (nthPage la k) = d) ∧ ¬ Present (s.mem pgdir d) := by
  simp only [missingTables, Finset.mem_filter, Finset.mem_image, Finset.mem_range]

/-- Once the first page has its page table, that one is not missing any more. -/
theorem missingTables_erase
    (h : ∀ d, Present (t.mem pgdir d) ↔ d = pdx la ∨ Present (s.mem pgdir d)) :
    t.missingTables pgdir (la + BitVec.ofNat 32 PG_SIZE) n =
      (s.missingTables pgdir la (n + 1)).erase (pdx la) := by
  ext d
  rw [Finset.mem_erase, mem_missingTables, mem_missingTables, h, not_or]
  constructor
  · rintro ⟨⟨k, hk, hd⟩, hne, hp⟩
    exact ⟨hne, ⟨k + 1, by omega, by rw [nthPage_succ, hd]⟩, hp⟩
  · rintro ⟨hne, ⟨k, hk, hd⟩, hp⟩
    cases k with
    | zero =>
      rw [nthPage_zero] at hd
      exact absurd hd.symm hne
    | succ k =>
      rw [nthPage_succ] at hd
      exact ⟨⟨k, by omega, hd⟩, hne, hp⟩

/-- The page table of the first page is missing if its directory entry is not present. -/
theorem pdx_mem_missingTables :
    pdx la ∈ s.missingTables pgdir la (n + 1) ↔ ¬ Present (s.mem pgdir (pdx la)) := by
  rw [mem_missingTables]
  exact and_iff_right ⟨0, by omega, by rw [nthPage_zero]⟩

end Pages

/-! ## One iteration -/

section Iteration
variable {s : Vm} {pgdir : ℕ} {la pa perm : Word} {ram : Set ℕ} {bs : List Extent} {n : ℕ}

/-- What one iteration does: it sets the entry of one page, and takes a free page if the page table
was missing. -/
structure MapsOne (s : Vm) (pgdir : ℕ) (la v : Word) (ram : Set ℕ) (t : Vm) : Prop where
  inv : ∃ bs, t.pmm.Inv ram bs
  pgdirOk : t.PgdirOk pgdir
  nrFree : t.pmm.nrFree + (if Present (s.mem pgdir (pdx la)) then 0 else 1) = s.pmm.nrFree
  pde : ∀ d, Present (t.mem pgdir d) ↔ d = pdx la ∨ Present (s.mem pgdir d)
  pteAt : ∀ la', pdx la' ≠ pdx VPT →
    t.pteAt pgdir la' = if pagNum la' = pagNum la then v else s.pteAt pgdir la'

/-- An entry that `get_pte` returned is written. -/
theorem GetPte.mapsOne {u : Vm} {table i : ℕ} (hget : GetPte s pgdir la true (some (table, i)) u)
    (h : s.pmm.Inv ram bs) (hlow : ∀ p ∈ ram, p < 2 ^ 20) (hpg : s.PgdirOk pgdir)
    (hv : pdx la ≠ pdx VPT) (v : Word) : s.MapsOne pgdir la v ram (u.setWord table i v) := by
  have hfreeLow : ∀ p ∈ s.pmm.freePages, p < 2 ^ 20 := fun p hp => hlow p (h.mem_ram hp)
  have hu := hget.pgdirOk hpg hfreeLow hv
  obtain ⟨htable, rfl⟩ := hget.isTable hpg hfreeLow hv
  have hw : WritesEntry u (u.setWord table (ptx la) v) table (ptx la) v :=
    u.setWord_mem table (ptx la) v
  have hdir := hw.directory hu htable
  refine ⟨hget.inv h, hu.congr hdir fun f hf => hu.notFree f hf, ?_, fun d => ?_, fun la' hv' => ?_⟩
  · rw [setWord_pmm]
    generalize hr : some (table, ptx la) = r at hget
    cases hget with
    | table hp => rw [if_pos hp, Nat.add_zero]
    | absent | exhausted => exact absurd hr (by simp)
    | created page pmm hp hc ht =>
      have hpos : s.pmm.nrFree ≠ 0 := fun hz =>
        absurd ht.one.1 (h.nrFree_eq_zero_iff.mp hz ▸ Set.notMem_empty page)
      rw [if_neg hp, newTable_pmm, Pmm.setRef_nrFree, ht.nrFree]
      omega
  · rw [hdir]
    generalize hr : some (table, ptx la) = r at hget
    cases hget with
    | table hp =>
      constructor
      · exact Or.inr
      · rintro (rfl | hd)
        · exact hp
        · exact hd
    | absent | exhausted => exact absurd hr (by simp)
    | created page pmm hp hc ht =>
      have hfree := ht.one.1
      rw [newTable_directory la pmm hpg hfree (hfreeLow page hfree)]
      by_cases hd : d = pdx la
      · rw [if_pos hd]
        exact iff_of_true ((present_or _ _).mpr (Or.inr present_PTE_USER)) (Or.inl hd)
      · rw [if_neg hd, or_iff_right hd]
  · rw [hw.pteAt hu htable hv', hget.pteAt hpg hfreeLow hv hv']
    simp only [pagNum_inj]

/-- With a free page for the page table, should it be missing, the iteration comes to its end. -/
theorem pgdirInit_iteration (h : s.pmm.Inv ram bs) (hlow : ∀ p ∈ ram, p < 2 ^ 20)
    (hpg : s.PgdirOk pgdir) (hv : pdx la ≠ pdx VPT)
    (hfree : Present (s.mem pgdir (pdx la)) ∨ s.pmm.nrFree ≠ 0) (v : Word) :
    ∃ ptep u t, s.getPte pgdir la true = some (ptep, u) ∧ u.storePte ptep v = some t ∧
      s.MapsOne pgdir la v ram t := by
  obtain ⟨ptep, u, heq, hget⟩ := getPte_spec h pgdir la true
  cases ptep with
  | some x => exact ⟨_, u, _, heq, rfl, hget.mapsOne h hlow hpg hv v⟩
  | none =>
    cases hget with
    | absent hp hc => exact absurd hc (by decide)
    | exhausted hp hc hempty =>
      exact (hfree.elim hp fun hne => hne (h.nrFree_eq_zero_iff.mpr hempty)).elim

end Iteration

/-! ## The loop -/

section Loop
variable {s : Vm} {pgdir : ℕ} {la pa perm : Word} {ram : Set ℕ} {bs : List Extent} {n : ℕ}

/-- What the loop does to `n` pages from `la` on. -/
structure MapsRange (s : Vm) (pgdir : ℕ) (la pa perm : Word) (n : ℕ) (t : Vm) : Prop where
  nrFree : t.pmm.nrFree + (s.missingTables pgdir la n).card = s.pmm.nrFree
  inside : ∀ k < n, t.pteAt pgdir (nthPage la k) = nthPage pa k ||| PTE_P ||| perm
  outside : ∀ la', pdx la' ≠ pdx VPT → (∀ k < n, pagNum la' ≠ pagNum (nthPage la k)) →
    t.pteAt pgdir la' = s.pteAt pgdir la'

/-- The first page, and then the others. -/
theorem MapsOne.mapsRange {u t : Vm} (hone : s.MapsOne pgdir la (pa ||| PTE_P ||| perm) ram u)
    (hwrap : la.toNat + (n + 1) * 4096 ≤ 2 ^ 32) (hv : ∀ k < n + 1, pdx (nthPage la k) ≠ pdx VPT)
    (hrest : u.MapsRange pgdir (la + BitVec.ofNat 32 PG_SIZE) (pa + BitVec.ofNat 32 PG_SIZE) perm n
      t) : s.MapsRange pgdir la pa perm (n + 1) t := by
  have hfirst : pdx la ≠ pdx VPT := nthPage_zero la ▸ hv 0 (by omega)
  constructor
  · have hcount := hrest.nrFree
    have htaken := hone.nrFree
    rw [missingTables_erase hone.pde] at hcount
    by_cases hp : Present (s.mem pgdir (pdx la))
    · rw [Finset.erase_eq_of_notMem fun hmem => pdx_mem_missingTables.mp hmem hp] at hcount
      rw [if_pos hp] at htaken
      omega
    · have hmem := pdx_mem_missingTables (n := n).mpr hp
      have hcard := Finset.card_erase_add_one hmem
      rw [if_neg hp] at htaken
      omega
  · intro k hk
    cases k with
    | zero =>
      -- the pages that come later are other pages
      have hlater : ∀ k < n,
          pagNum la ≠ pagNum (nthPage (la + BitVec.ofNat 32 PG_SIZE) k) := by
        intro k hk
        rw [← nthPage_succ, pagNum_nthPage (by omega)]
        omega
      rw [nthPage_zero, nthPage_zero, hrest.outside la hfirst hlater, hone.pteAt la hfirst,
        if_pos rfl]
    | succ k =>
      rw [nthPage_succ, nthPage_succ]
      exact hrest.inside k (by omega)
  · intro la' hv' hout
    have hne := hout 0 (by omega)
    rw [nthPage_zero] at hne
    rw [hrest.outside la' hv' fun k hk => nthPage_succ la k ▸ hout (k + 1) (by omega),
      hone.pteAt la' hv', if_neg hne]

/-- The loop comes to its end if there is a free page for each missing page table. -/
theorem pgdirInitLoop_spec (pa perm : Word) (hlow : ∀ p ∈ ram, p < 2 ^ 20)
    (h : s.pmm.Inv ram bs) (hpg : s.PgdirOk pgdir) (hwrap : la.toNat + n * 4096 ≤ 2 ^ 32)
    (hv : ∀ k < n, pdx (nthPage la k) ≠ pdx VPT)
    (hfree : (s.missingTables pgdir la n).card ≤ s.pmm.nrFree) :
    ∃ t, pgdirInitLoop pgdir perm n la pa s = some t ∧ s.MapsRange pgdir la pa perm n t := by
  induction n generalizing s la pa bs with
  | zero =>
    exact ⟨s, rfl, rfl, fun k hk => absurd hk (Nat.not_lt_zero k), fun la' _ _ => rfl⟩
  | succ n ih =>
    have hfirst : pdx la ≠ pdx VPT := nthPage_zero la ▸ hv 0 (by omega)
    have hone : Present (s.mem pgdir (pdx la)) ∨ s.pmm.nrFree ≠ 0 := by
      by_contra hno
      obtain ⟨hp, hz⟩ := not_or.mp hno
      have hpos := Finset.card_pos.mpr ⟨_, pdx_mem_missingTables (n := n).mpr hp⟩
      omega
    obtain ⟨ptep, u, w, hget, hstore, hmaps⟩ :=
      pgdirInit_iteration h hlow hpg hfirst hone (pa ||| PTE_P ||| perm)
    obtain ⟨bs', hinv⟩ := hmaps.inv
    have hcard : (w.missingTables pgdir (la + BitVec.ofNat 32 PG_SIZE) n).card ≤ w.pmm.nrFree := by
      have htaken := hmaps.nrFree
      rw [missingTables_erase hmaps.pde]
      by_cases hp : Present (s.mem pgdir (pdx la))
      · have hle := Finset.card_erase_le (s := s.missingTables pgdir la (n + 1)) (a := pdx la)
        rw [if_pos hp] at htaken
        omega
      · have hmem := Finset.card_erase_add_one (pdx_mem_missingTables (n := n).mpr hp)
        rw [if_neg hp] at htaken
        omega
    have hnext : n ≠ 0 → (la + BitVec.ofNat 32 PG_SIZE).toNat = la.toNat + 4096 := by
      intro hn
      have hsize : (BitVec.ofNat 32 PG_SIZE).toNat = 4096 := rfl
      rw [BitVec.toNat_add, hsize]
      omega
    have hwrap' : (la + BitVec.ofNat 32 PG_SIZE).toNat + n * 4096 ≤ 2 ^ 32 := by
      have hlt := (la + BitVec.ofNat 32 PG_SIZE).isLt
      by_cases hn : n = 0
      · omega
      · rw [hnext hn]
        omega
    obtain ⟨t, hloop, hrest⟩ := ih (pa + BitVec.ofNat 32 PG_SIZE) hinv hmaps.pgdirOk hwrap'
      (fun k hk => nthPage_succ la k ▸ hv (k + 1) (by omega)) hcard
    refine ⟨t, ?_, hmaps.mapsRange hwrap hv hrest⟩
    rw [pgdirInitLoop, hget, Option.bind_eq_bind, Option.bind_some]
    dsimp only
    rw [hstore, Option.bind_eq_bind, Option.bind_some, hloop]

end Loop

/-! ## The call -/

section Call
variable {s t : Vm} {pgdir : ℕ} {la pa perm size : Word} {ram : Set ℕ} {bs : List Extent} {k : ℕ}

theorem aligned_iff {a : Word} : roundDown a = a ↔ a.toNat % 4096 = 0 := by
  have hround := roundDown_toNat a
  constructor
  · intro h
    rw [h] at hround
    omega
  · intro h
    apply BitVec.eq_of_toNat_eq
    omega

theorem page2pa_pagNum (h : roundDown la = la) : page2pa (pagNum la) = la := by
  rw [aligned_iff] at h
  apply BitVec.eq_of_toNat_eq
  rw [page2pa_toNat (pagNum_lt la), pagNum_eq]
  omega

theorem nthPage_aligned (h : roundDown la = la) (k : ℕ) :
    roundDown (nthPage la k) = nthPage la k := by
  rw [aligned_iff] at h ⊢
  rw [nthPage, BitVec.toNat_add, BitVec.toNat_ofNat, PG_SIZE]
  omega

theorem translate_congr {la' : Word} (h : t.pteAt pgdir la' = s.pteAt pgdir la') :
    t.translate pgdir la' = s.translate pgdir la' := by
  rw [translate, translate, walk_congr h]

/-- An entry that `pgdir_init` writes translates the addresses of its page. -/
theorem translate_of_pteAt (hperm : perm < 0x1000#32) (hpa : roundDown pa = pa)
    (h : s.pteAt pgdir la = pa ||| PTE_P ||| perm) :
    s.translate pgdir la = some (pa + la % BitVec.ofNat 32 PG_SIZE, perm ||| PTE_P) := by
  have hflags := or_PTE_P_lt hperm
  have hentry : s.pteAt pgdir la = page2pa (pagNum pa) ||| (perm ||| PTE_P) := by
    rw [h, page2pa_pagNum hpa, BitVec.or_assoc, BitVec.or_comm PTE_P]
  have hp : Present (s.pteAt pgdir la) := by
    rw [hentry, ← BitVec.or_assoc]
    exact present_entry _
  rw [translate, walk, if_pos hp, Option.map_some, hentry, pteAddr_entry _ hflags,
    pteFlags_entry _ hflags, page2pa_pagNum hpa]

/-- The addresses of a range are those of its pages. -/
theorem page_of_offset (pa : Word) (hla : roundDown la = la) (off : Word)
    (hwrap : la.toNat + off.toNat < 2 ^ 32) :
    pagNum (la + off) = pagNum (nthPage la (off.toNat / 4096)) ∧
      nthPage pa (off.toNat / 4096) + (la + off) % BitVec.ofNat 32 PG_SIZE = pa + off := by
  have hsize : (BitVec.ofNat 32 PG_SIZE).toNat = 4096 := rfl
  rw [aligned_iff] at hla
  constructor
  · rw [pagNum_nthPage (by omega), pagNum_eq, pagNum_eq, BitVec.toNat_add]
    omega
  · have hoffset : ((la + off) % BitVec.ofNat 32 PG_SIZE).toNat = off.toNat % 4096 := by
      rw [BitVec.toNat_umod, BitVec.toNat_add, hsize]
      omega
    apply BitVec.eq_of_toNat_eq
    rw [nthPage, BitVec.toNat_add, BitVec.toNat_add, BitVec.toNat_ofNat, hoffset, BitVec.toNat_add,
      PG_SIZE]
    omega

/-- A range that avoids the self-mapping slot does not lose its size when it is rounded. -/
theorem roundUp_size (hla : roundDown la = la) (hwrap : la.toNat + size.toNat ≤ 2 ^ 32)
    (hv : ∀ off < size, pdx (la + off) ≠ pdx VPT) :
    (roundUp size).toNat = (size.toNat + 4095) / 4096 * 4096 := by
  have hpage : (BitVec.ofNat 32 PG_SIZE).toNat = 4096 := rfl
  have hone : (1#32).toNat = 1 := rfl
  have hvpt : VPT.toNat = 0xFAC00000 := by decide
  have hsize : size.toNat ≤ 2 ^ 32 - 4096 := by
    by_contra hlarge
    rw [aligned_iff] at hla
    have hzero : la = 0#32 := BitVec.eq_of_toNat_eq (by rw [BitVec.toNat_zero]; omega)
    refine hv VPT ?_ ?_
    · rw [BitVec.lt_def, hvpt]
      omega
    · rw [hzero, BitVec.zero_add]
  rw [roundUp, roundDown_toNat, BitVec.toNat_sub, BitVec.toNat_add, hpage, hone]
  omega

/-- After `pgdir_init` every address of the range translates to its offset in the physical range,
every page outside the rounded range translates as before, and the page tables that were missing
are the pages that were taken. -/
theorem pgdirInit_maps (h : s.pmm.Inv ram bs) (hlow : ∀ p ∈ ram, p < 2 ^ 20)
    (hpg : s.PgdirOk pgdir) (hperm : perm < 0x1000#32) (hla : roundDown la = la)
    (hpa : roundDown pa = pa) (hwrap : la.toNat + size.toNat ≤ 2 ^ 32)
    (hv : ∀ off < size, pdx (la + off) ≠ pdx VPT)
    (hfree : (s.missingTables pgdir la ((roundUp size).toNat / PG_SIZE)).card ≤ s.pmm.nrFree) :
    ∃ t, s.pgdirInit pgdir la size pa perm = some t ∧
      (∀ off < size, t.translate pgdir (la + off) = some (pa + off, perm ||| PTE_P)) ∧
      (∀ la', pdx la' ≠ pdx VPT →
        la'.toNat < la.toNat ∨ la.toNat + (roundUp size).toNat ≤ la'.toNat →
        t.translate pgdir la' = s.translate pgdir la') ∧
      t.pmm.nrFree + (s.missingTables pgdir la ((roundUp size).toNat / PG_SIZE)).card =
        s.pmm.nrFree := by
  have hround := roundUp_size hla hwrap hv
  have haligned := aligned_iff.mp hla
  have hn : (roundUp size).toNat / PG_SIZE = (size.toNat + 4095) / 4096 := by
    rw [hround, PG_SIZE]
    omega
  rw [pgdirInit, hla, hpa]
  rw [hn] at hfree ⊢
  have hpages : ∀ k < (size.toNat + 4095) / 4096, pdx (nthPage la k) ≠ pdx VPT := by
    intro k hk
    refine hv (BitVec.ofNat 32 (k * PG_SIZE)) ?_
    rw [BitVec.lt_def, BitVec.toNat_ofNat, PG_SIZE]
    omega
  obtain ⟨t, hloop, hmaps⟩ := pgdirInitLoop_spec pa perm hlow h hpg
    (n := (size.toNat + 4095) / 4096) (by omega) hpages hfree
  refine ⟨t, hloop, fun off hoff => ?_, fun la' hv' hout => ?_, hmaps.nrFree⟩
  · rw [BitVec.lt_def] at hoff
    obtain ⟨hpage, haddr⟩ := page_of_offset pa hla off (by omega)
    have hpte := hmaps.inside (off.toNat / 4096) (by omega)
    rw [← pteAt_page t pgdir hpage] at hpte
    rw [translate_of_pteAt hperm (nthPage_aligned hpa _) hpte, haddr]
  · rw [hround] at hout
    refine translate_congr (hmaps.outside la' hv' fun k hk => ?_)
    rw [pagNum_nthPage (by omega), pagNum_eq, pagNum_eq]
    omega

end Call

/-- The call of `vmm_init`, on the small machine with 300 free pages. -/
theorem pgdirInit_maps_kernel : ∃ t,
    (sample 300 0#32).pgdirInit 1 KERNEL_BASE KERNEL_MEM_SIZE 0#32 PTE_W = some t ∧
      (∀ off < KERNEL_MEM_SIZE, t.translate 1 (KERNEL_BASE + off) =
        some (0#32 + off, PTE_W ||| PTE_P)) ∧
      (∀ la', pdx la' ≠ pdx VPT → la'.toNat < KERNEL_BASE.toNat ∨
          KERNEL_BASE.toNat + (roundUp KERNEL_MEM_SIZE).toNat ≤ la'.toNat →
        t.translate 1 la' = (sample 300 0#32).translate 1 la') ∧
      t.pmm.nrFree + ((sample 300 0#32).missingTables 1 KERNEL_BASE
        ((roundUp KERNEL_MEM_SIZE).toNat / PG_SIZE)).card = (sample 300 0#32).pmm.nrFree := by
  have hinv := sample_inv (n := 300) (by decide) 0#32
  have hbase : KERNEL_BASE.toNat = 0xC0000000 := by decide
  have hsize : KERNEL_MEM_SIZE.toNat = 0x38000000 := by decide
  have hpages : (roundUp KERNEL_MEM_SIZE).toNat / PG_SIZE = 229376 := by decide
  refine pgdirInit_maps hinv (fun p hp => ?_) (sample_pgdirOk (by decide) 0#32) (by decide)
    (by decide) (by decide) (by decide) (fun off hoff => ?_) ?_
  · rw [Set.mem_Ico] at hp
    omega
  · rw [BitVec.lt_def, hsize] at hoff
    rw [pdx_vpt, pdx_eq, BitVec.toNat_add, hbase]
    omega
  · -- the range has the directory entries from 768 on
    have hsub : (sample 300 0#32).missingTables 1 KERNEL_BASE 229376 ⊆
        (Finset.range 224).image (768 + ·) := by
      intro d hd
      obtain ⟨⟨k, hk, rfl⟩, -⟩ := mem_missingTables.mp hd
      rw [pdx_eq, nthPage_toNat (by omega), hbase, Finset.mem_image]
      exact ⟨k / 1024, Finset.mem_range.mpr (by omega), by omega⟩
    have hcard := (Finset.card_le_card hsub).trans Finset.card_image_le
    have hnr : (sample 300 0#32).pmm.nrFree = 300 := hinv.nrFree
    rw [Finset.card_range] at hcard
    rw [hpages, hnr]
    omega

end Vm
end Zonix
