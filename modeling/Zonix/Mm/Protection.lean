import Zonix.Mm.SwapRoundTrip
import Zonix.Mm.PageFault
import Zonix.Mm.Evictions

/-!
# The protection of pages that come back from the disk

`swap_out` overwrites the entry of a page with its slot, and `swap_in` maps what it loads with
`PTE_P | PTE_W | PTE_U`. What the page was mapped with is not kept anywhere in between.
-/

namespace Zonix
open Lib

namespace Vm

/-- The bits of an entry that say who may do what with the page. -/
def protection (s : Vm) (pgdir : ℕ) (la : Word) : Word :=
  s.pteAt pgdir la &&& (PTE_W ||| PTE_U)

/-! ## Directory entries stay -/

section Directory
variable {s t : Vm} {mm : MmStruct} {ram : Set ℕ} {qs : List ℕ} {i : ℕ}

theorem PageInsert.pde {page : ℕ} {la perm : Word} {res : ℤ} (h : s.Space mm ram qs)
    (hins : PageInsert s mm.pgdir page la perm res t) (hv : pdx la ≠ pdx VPT)
    (hp : Present (s.mem mm.pgdir i)) : t.mem mm.pgdir i = s.mem mm.pgdir i := by
  cases hins with
  | failure => rfl
  | success hget =>
    have ht := hget.pgdirOk h.pgdir h.freeLow hv
    have htable := (hget.isTable h.pgdir h.freeLow hv).1
    rw [(mapPage_writesEntry _ _ _ _ _ _ _).directory ht htable]
    cases hget with
    | table => rfl
    | created q pmm hno hc htaken =>
      have hfree := htaken.one.1
      rw [newTable_directory la pmm h.pgdir hfree (h.freeLow q hfree), if_neg]
      rintro rfl
      exact hno hp

/-- An iteration of `swap_out` writes to page tables only. -/
theorem Space.loop_directory (h : s.Space mm ram qs) {k : ℕ} {j r : ℤ}
    (heq : swapOutLoop mm k j s = some (r, t)) (i : ℕ) :
    t.mem mm.pgdir i = s.mem mm.pgdir i := by
  refine (h.loop_keeps (I := fun u => u.mem mm.pgdir i = s.mem mm.pgdir i)
    (fun hu hsame hone => ?_) rfl heq).2
  rw [← hsame]
  rcases hu.iteration hone with ⟨v, addr, -, hev⟩ | ⟨-, hno⟩
  · exact hev.dir i
  · exact hno.mem _ (hu.pgdir.notFree _ (Or.inl rfl)) i

/-- No operation takes a page table away, or replaces it. -/
theorem exec_pde (h : s.Space mm ram qs) {op : VmOp} (hok : okSpace mm ram s op)
    (heq : exec mm s op = some t) (hp : Present (s.mem mm.pgdir i)) :
    t.mem mm.pgdir i = s.mem mm.pgdir i := by
  obtain ⟨heffect, -⟩ := exec_space h hok heq
  cases heffect with
  | exhausted | allocPages | mapSwappable => rfl
  | pageInsert hins => exact hins.pde h hok hp
  | pgdirAllocPage hall =>
    cases hall with
    | exhausted => rfl
    | @allocated page pmm res t ht hins =>
      show t.mem mm.pgdir i = (s.setPmm pmm).mem mm.pgdir i
      exact hins.pde (h.takes ht) hok hp
  | @swapIn addr r p t hin =>
    cases p with
    | none => exact (hin.same h rfl).2.mem _ (h.pgdir.notFree _ (Or.inl rfl)) i
    | some q => exact (hin.loaded_space h hok).1.dir i
  | swapOut hout => exact h.loop_directory hout i

/-- Along a history, a page table stays. -/
theorem run_pde (h : s.Space mm ram qs) (hrun : Run (exec mm) (okSpace mm ram) s t)
    (hp : Present (s.mem mm.pgdir i)) : Present (t.mem mm.pgdir i) := by
  refine (h.run_invariant (I := fun u => Present (u.mem mm.pgdir i)) (fun _ _ hok => hok)
    (fun hu hpu hok heq => ?_) hp hrun).2
  rw [exec_pde hu hok heq hpu]
  exact hpu

end Directory

/-! ## Coming back -/

section Reload
variable {s t u w : Vm} {mm : MmStruct} {ram : Set ℕ} {qs : List ℕ} {la : Word}

/-- The protection of an entry is that of the flags that it is made of. -/
theorem protection_of_pteAt {pgdir page : ℕ} {flags : Word} (hf : flags < 0x1000#32)
    (h : s.pteAt pgdir la = page2pa page ||| flags) :
    s.protection pgdir la = flags &&& (PTE_W ||| PTE_U) := by
  rw [protection, h]
  exact entry_and page hf (by decide)

/-- Whatever the page was mapped with, `swap_in` lets everybody read and write it. -/
theorem SwapIn.protection (h : s.Space mm ram qs) {q : ℕ} {r : ℤ} {addr : Word}
    (hin : SwapIn s mm addr r (some q) t) (hv : pdx addr ≠ pdx VPT)
    (hla : pagNum la = pagNum addr) : t.protection mm.pgdir la = PTE_W ||| PTE_U := by
  have hpte := (hin.loaded_space h hv).1.pteAt la
  rw [if_pos hla, BitVec.or_assoc] at hpte
  rw [protection_of_pteAt (by decide) hpte]
  decide

/-- A page that `vmm_pg_fault` finds never mapped is given to the user, to read only. -/
theorem PgdirAllocPage.protection (h : s.Space mm ram qs) {p : Option ℕ} {addr : Word}
    (hall : PgdirAllocPage s mm.pgdir addr PTE_U p t) (hv : pdx addr ≠ pdx VPT)
    (hla : pagNum la = pagNum addr) (hno : ¬ Present (s.pteAt mm.pgdir la))
    (hp : Present (t.pteAt mm.pgdir la)) : t.protection mm.pgdir la = PTE_U := by
  cases hall with
  | exhausted => exact absurd hp hno
  | @allocated page pmm res t ht hins =>
    have hu := h.takes ht
    have hv' : pdx la ≠ pdx VPT := by rwa [(pagNum_inj.mp hla).1]
    have hpte := hins.pteAt hu.pgdir hu.freeLow hv hv'
    by_cases hres : res = INSERT_SUCCESS
    · rw [if_pos ⟨hres, hla⟩, BitVec.or_assoc] at hpte
      rw [protection_of_pteAt (by decide) hpte]
      decide
    · rw [if_neg fun hh => hres hh.1] at hpte
      exact absurd (hpte ▸ hp) hno

/-- A page that `swap_out` evicts from a user address, and that is brought back after whatever
history left its entry alone, has the protection that it had exactly when this was the one that
`swap_in` gives; or, where the entry is empty, since the slot was slot 0, the one of new pages. -/
theorem reload_keeps_protection_iff (h : s.Space mm ram qs) (hla : la < KERNEL_BASE)
    (hmap : Present (s.pteAt mm.pgdir la)) {n r : ℤ} (hout : s.swapOut mm n = some (r, u))
    (hgone : ¬ Present (u.pteAt mm.pgdir la)) (hrun : Run (exec mm) (okSpace mm ram) u w)
    (hsame : w.pteAt mm.pgdir la = u.pteAt mm.pgdir la) :
    (∀ q t, w.swapIn mm la = some (0, some q, t) →
      (t.protection mm.pgdir la = s.protection mm.pgdir la ↔
        s.protection mm.pgdir la = PTE_W ||| PTE_U)) ∧
    ∀ r t, w.vmmPgFault mm la = some (r, t) → Present (t.pteAt mm.pgdir la) →
      (t.protection mm.pgdir la = s.protection mm.pgdir la ↔
        s.protection mm.pgdir la =
          if w.pteAt mm.pgdir la = 0#32 then PTE_U else PTE_W ||| PTE_U) := by
  obtain ⟨qu, hu⟩ := h.swapOut hout
  obtain ⟨qw, hw⟩ := run_space hu hrun
  have hv := pdx_ne_vpt hla
  have hpde : Present (s.mem mm.pgdir (pdx la)) := Maps.present ⟨hmap, rfl⟩
  have hpde' : Present (w.mem mm.pgdir (pdx la)) :=
    run_pde hu hrun (by rwa [h.loop_directory hout])
  constructor
  · intro q t heq
    obtain ⟨r', p', t', heq', hin, -⟩ := swapIn_spec hw.lists hw.head la
    obtain ⟨rfl, hp, rfl⟩ := by simpa using heq.symm.trans heq'
    subst hp
    rw [hin.protection hw hv rfl, eq_comm]
  · intro r t heq hp
    have hv' : pdx (roundDown la) ≠ pdx VPT := by rwa [pdx_roundDown]
    have hpage := (pagNum_roundDown la).symm
    rw [vmmPgFault_table hpde'] at heq
    split_ifs at heq ⊢ with hz
    · -- the entry of slot 0 is the empty entry
      obtain ⟨bs, hinv⟩ := hw.lists.free
      obtain ⟨p, t', heq', hall⟩ := pgdirAllocPage_spec hinv mm.pgdir (roundDown la) PTE_U
      rw [heq', Option.map_some, Option.some.injEq] at heq
      obtain ⟨-, rfl⟩ := Prod.mk.inj heq
      rw [hall.protection hw hv' hpage (hsame ▸ hgone) hp, eq_comm]
    · obtain ⟨r', p, t', heq', hin, -⟩ := swapIn_spec hw.lists hw.head (roundDown la)
      rw [heq', Option.map_some, Option.some.injEq] at heq
      obtain ⟨-, rfl⟩ := Prod.mk.inj heq
      cases p with
      | none =>
        rw [(hin.same hw rfl).2.pteAt hw, hsame] at hp
        exact absurd hp hgone
      | some q => rw [hin.protection hw hv' hpage, eq_comm]

end Reload

/-- A page that the user may only read goes to the disk, and comes back as one to write to. -/
theorem reload_makes_writable : ∃ u t q w,
    mappedOps.foldlM (exec initMm) (booted 8 2048#32) = some u ∧
    u.swapOut initMm 1 = some (1, t) ∧ t.swapIn initMm 0x400000#32 = some (0, some q, w) ∧
    u.protection initMm.pgdir 0x400000#32 = PTE_U ∧
    w.protection initMm.pgdir 0x400000#32 = PTE_W ||| PTE_U := by
  have heq : ((mappedOps.foldlM (exec initMm) (booted 8 2048#32)).bind fun u =>
      (u.swapOut initMm 1).bind fun x => (x.2.swapIn initMm 0x400000#32).map fun y =>
        (x.1, y.1, y.2.1, u.protection initMm.pgdir 0x400000#32,
          y.2.2.protection initMm.pgdir 0x400000#32)) =
      some (1, 0, some 6, PTE_U, PTE_W ||| PTE_U) := by decide +kernel
  obtain ⟨u, hu, heq⟩ := Option.bind_eq_some_iff.mp heq
  obtain ⟨⟨r, t⟩, hout, heq⟩ := Option.bind_eq_some_iff.mp heq
  obtain ⟨⟨r', p, w⟩, hin, heq⟩ := Option.map_eq_some_iff.mp heq
  obtain ⟨rfl, rfl, rfl, hbefore, hafter⟩ := by simpa using heq
  exact ⟨u, t, 6, w, hu, hout, hin, hbefore, hafter⟩

theorem reload_keeps_protection_four : ∃ u t r,
    mappedOps.foldlM (exec initMm) (booted 8 2048#32) = some u ∧
    u.swapOut initMm 1 = some (r, t) ∧
    (∀ q w, t.swapIn initMm 0x400000#32 = some (0, some q, w) →
      (w.protection initMm.pgdir 0x400000#32 = u.protection initMm.pgdir 0x400000#32 ↔
        u.protection initMm.pgdir 0x400000#32 = PTE_W ||| PTE_U)) ∧
    ∀ r w, t.vmmPgFault initMm 0x400000#32 = some (r, w) →
      Present (w.pteAt initMm.pgdir 0x400000#32) →
      (w.protection initMm.pgdir 0x400000#32 = u.protection initMm.pgdir 0x400000#32 ↔
        u.protection initMm.pgdir 0x400000#32 =
          if t.pteAt initMm.pgdir 0x400000#32 = 0#32 then PTE_U else PTE_W ||| PTE_U) := by
  have heq : ((mappedOps.foldlM (exec initMm) (booted 8 2048#32)).bind fun u =>
      (u.swapOut initMm 1).map fun x => (decide (Present (u.pteAt initMm.pgdir 0x400000#32)),
        decide (Present (x.2.pteAt initMm.pgdir 0x400000#32)))) = some (true, false) := by
    decide +kernel
  obtain ⟨u, hu, heq⟩ := Option.bind_eq_some_iff.mp heq
  obtain ⟨⟨r, t⟩, hout, heq⟩ := Option.map_eq_some_iff.mp heq
  obtain ⟨hmap, hgone⟩ := Prod.mk.inj heq
  obtain ⟨qs, hspace⟩ := run_space (booted_space (by decide) 2048#32 (by decide))
    (Run.of_foldlM mappedOps_allowed hu)
  exact ⟨u, t, r, hu, hout, reload_keeps_protection_iff hspace (by decide)
    (of_decide_eq_true hmap) hout (of_decide_eq_false hgone) (Run.refl t) rfl⟩

end Vm
end Zonix
