import Zonix.Sched.SchedTheorems
import Zonix.Mm.Spaces
import Zonix.Lib.Machine

/-!
# The system and its TLB

`Cached` is the system beside everything that the TLB may hold: for a page, all translations that
the tables of the directory in use gave since CR3 was loaded or the page was invalidated. The
processor may load an entry after any write to memory, so the functions that edit page tables are
stated again, with their writes one by one; without the TLB they are those of the system
(`Cached.exec_sys`). `swap_out` also notes the moment at which it frees a frame.
-/

namespace Zonix
open Lib

/-- The moment at which `swap_out` frees a frame that it has unmapped from `addr`. -/
structure Release where
  pgdir : ℕ
  addr : Word
  vm : Vm
  cache : Cache ℕ Word
  closed : ∀ page, vm.translations page ⊆ cache page

structure Cached where
  sys : Sched
  /-- The entries that the TLB may hold for a page. -/
  cache : Cache ℕ Word
  releases : List Release
  /-- What the tables give may be loaded at any time. -/
  closed : ∀ page, sys.vm.translations page ⊆ cache page

theorem Vm.tlbInvl_translations (s : Vm) (pgdir : ℕ) (la : Word) :
    (s.tlbInvl pgdir la).translations = s.translations := by
  rw [tlbInvl]
  split_ifs <;> rfl

namespace Cached

def vm (c : Cached) : Vm := c.sys.vm

/-! ## Accesses -/

/-- CR3 was just loaded. -/
def flushed (sys : Sched) : Cached := ⟨sys, sys.vm.translations, [], fun _ => subset_rfl⟩

def setSys (c : Cached) (sys : Sched) : Cached :=
  ⟨sys, c.cache.load sys.vm.translations, c.releases, Cache.subset_load _ _⟩

def setVm (c : Cached) (vm : Vm) : Cached := c.setSys (c.sys.setVm vm)

def setPmm (c : Cached) (pmm : Pmm) : Cached := c.setVm (c.vm.setPmm pmm)

def setFrame (c : Cached) (frame : ℕ) (content : ℕ → Word) : Cached :=
  c.setVm (c.vm.setFrame frame content)

def setWord (c : Cached) (frame i : ℕ) (v : Word) : Cached := c.setVm (c.vm.setWord frame i v)

/-- `invlpg(la)`, when `pgdir` is the directory in use. -/
def tlbInvl (c : Cached) (pgdir : ℕ) (la : Word) : Cached where
  sys := c.sys.setVm (c.vm.tlbInvl pgdir la)
  cache := if c.vm.cr3 = page2pa pgdir then c.cache.drop c.vm.translations (pagNum la) else c.cache
  releases := c.releases
  closed page := by
    show (c.vm.tlbInvl pgdir la).translations page ⊆ _
    rw [Vm.tlbInvl_translations]
    split_ifs
    · exact Cache.subset_drop c.closed page
    · exact c.closed page

/-- `lcr3(cr3)` -/
def lcr3 (c : Cached) (cr3 : Word) : Cached where
  sys := c.sys.setVm (c.vm.lcr3 cr3)
  cache := (c.vm.lcr3 cr3).translations
  releases := c.releases
  closed _ := subset_rfl

/-- An access to `la` by means of the entry `pte`: a load, or a store of a word. -/
def access (c : Cached) (la pte : Word) : Option Word → Cached
  | none => c
  | some v => c.setWord (pagNum pte) (la.toNat % 4096 / 4) v

/-! ## `pmm.c` -/

def allocPages (c : Cached) (n : ℕ) : Option (Option ℕ × Cached) := do
  let (page, vm) ← c.vm.allocPages n
  some (page, c.setVm vm)

def pagesFree (c : Cached) (base n : ℕ) : Option Cached := do
  let vm ← c.vm.pagesFree base n
  some (c.setVm vm)

def getPte (c : Cached) (pgdir : ℕ) (la : Word) (create : Bool) :
    Option (Option (ℕ × ℕ) × Cached) :=
  if Present (c.vm.mem pgdir (pdx la)) then
    some (some (pagNum (pteAddr (c.vm.mem pgdir (pdx la))), ptx la), c)
  else if !create then some (none, c)
  else do
    match ← c.allocPages 1 with
    | (none, c) => some (none, c)
    | (some page, c) =>
      let c := c.setPmm (c.vm.pmm.setRef page PAGE_REF_INIT)
      let pa := page2pa page
      -- the tables do not lead to the frame yet
      let c := c.setFrame (pagNum pa) fun _ => 0#32
      let c := c.setWord pgdir (pdx la) (pa ||| PTE_USER)
      some (some (pagNum (pteAddr (c.vm.mem pgdir (pdx la))), ptx la), c)

def pageInsert (c : Cached) (pgdir page : ℕ) (la perm : Word) : Option (ℤ × Cached) := do
  match ← c.getPte pgdir la true with
  | (none, c) => some (INSERT_FAILURE, c)
  | (some (table, i), c) =>
    let c := c.setPmm (c.vm.pmm.setRef page ((c.vm.pmm.page page).ref + 1))
    let c := c.setWord table i (page2pa page ||| perm ||| PTE_P)
    some (INSERT_SUCCESS, c.tlbInvl pgdir la)

/-! ## `swap.c` -/

def swapFifoMapSwappable (c : Cached) (mm : MmStruct) (page : ℕ) : Cached :=
  c.setVm (c.vm.swapFifoMapSwappable mm page)

def swapFifoSwapOutVictim (c : Cached) (mm : MmStruct) : Option (ℤ × Option ℕ × Cached) := do
  let (r, page, vm) ← c.vm.swapFifoSwapOutVictim mm
  some (r, page, c.setVm vm)

def swapfsRead (c : Cached) (entry : Word) (page : ℕ) : ℤ × Cached :=
  let (r, vm) := c.vm.swapfsRead entry page
  (r, c.setVm vm)

def swapfsWrite (c : Cached) (entry : Word) (page : ℕ) : ℤ × Cached :=
  let (r, vm) := c.vm.swapfsWrite entry page
  (r, c.setVm vm)

def swapIn (c : Cached) (mm : MmStruct) (addr : Word) : Option (ℤ × Option ℕ × Cached) := do
  match ← c.allocPages 1 with
  | (none, c) => some (-1, none, c)
  | (some page, c) =>
    match ← c.getPte mm.pgdir addr false with
    | (none, c) =>
      let c ← c.pagesFree page 1
      some (-1, none, c)
    | (some (table, i), c) =>
      let swapEntry := c.vm.mem table i
      let (r, c) := c.swapfsRead swapEntry page
      if r ≠ 0 then
        let c ← c.pagesFree page 1
        some (-1, none, c)
      else
        let (_, c) ← c.pageInsert mm.pgdir page addr (PTE_P ||| PTE_W ||| PTE_U)
        some (0, some page, c.swapFifoMapSwappable mm page)

/-- Note that a frame is about to be freed. -/
def release (c : Cached) (pgdir : ℕ) (addr : Word) : Cached :=
  { c with releases := ⟨pgdir, addr, c.vm, c.cache, c.closed⟩ :: c.releases }

def evict (c : Cached) (mm : MmStruct) (table i : ℕ) (swapEntry : Word) (victim : ℕ)
    (victimAddr : Word) : Option Cached := do
  -- until the next line the TLB may still hold what the entry was
  let c := c.setWord table i swapEntry
  let c := c.tlbInvl mm.pgdir victimAddr
  let c := c.release mm.pgdir victimAddr
  let c ← c.pagesFree victim 1
  some (c.setVm { c.vm with swapOffset := c.vm.nextSwapOffset })

def swapOutOne (c : Cached) (mm : MmStruct) : Option (Vm.Outcome × Cached) := do
  match ← c.swapFifoSwapOutVictim mm with
  | (_, none, c) => some (.stop, c)
  | (r, some victim, c) =>
    if r ≠ 0 then some (.stop, c)
    else
      let victimAddr := c.vm.findVaddrForPage mm victim
      if victimAddr = 0#32 then some (.skip, c)
      else
        match ← c.getPte mm.pgdir victimAddr false with
        | (none, c) => some (.skip, c)
        | (some (table, i), c) =>
          let swapEntry := c.vm.swapOffset <<< 8
          let (r, c) := c.swapfsWrite swapEntry victim
          if r ≠ 0 then some (.skip, c)
          else do
            let c ← c.evict mm table i swapEntry victim victimAddr
            some (.evicted victim victimAddr, c)

def swapOutLoop (mm : MmStruct) : ℕ → ℤ → Cached → Option (ℤ × Cached)
  | 0, i, c => some (i, c)
  | k + 1, i, c => do
    match ← c.swapOutOne mm with
    | (.stop, c) => some (i, c)
    | (_, c) => swapOutLoop mm k (i + 1) c

def swapOut (c : Cached) (mm : MmStruct) (n : ℤ) : Option (ℤ × Cached) :=
  swapOutLoop mm n.toNat 0 c

/-! ## `sched.c` -/

def beforeSwitch (c : Cached) (proc : ℕ) : Option (Word × Cached) := do
  let (flag, s) := c.sys.intrSave
  let prev := s.current
  let s := s.setCurrent proc
  let s := s.setState proc .running
  let nextCr3 ← s.procGetCr3 proc
  let prevCr3 ← s.procGetCr3 prev
  let c := c.setSys s
  let c := if nextCr3 ≠ prevCr3 then c.lcr3 nextCr3 else c
  some (flag, c)

def procRun (c : Cached) (proc : ℕ) (callers : List Word) : Option Cached :=
  if proc ≠ c.sys.current then do
    let (flag, t) ← c.beforeSwitch proc
    let sys ← t.sys.switchTo c.sys.current proc (flag :: callers)
    some (t.setSys sys)
  else some (c.setSys (c.sys.restoreAll callers))

end Cached

/-! ## Operations -/

/-- What edits page tables, uses them or changes the directory. -/
inductive TlbOp
  | pageInsert (mm : MmStruct) (page : ℕ) (la perm : Word)
  /-- `get_pte` with creation -/
  | getPte (mm : MmStruct) (la : Word)
  | swapIn (mm : MmStruct) (addr : Word)
  | swapOut (mm : MmStruct) (n : ℤ)
  | access (la pte : Word) (store : Option Word)
  | procRun (proc : ℕ) (callers : List Word)

/-- The operations without a TLB. -/
def Sched.perform (s : Sched) : TlbOp → Option Sched
  | .pageInsert mm page la perm =>
    (s.vm.pageInsert mm.pgdir page la perm).map fun x => s.setVm x.2
  | .getPte mm la => (s.vm.getPte mm.pgdir la true).map fun x => s.setVm x.2
  | .swapIn mm addr => (s.vm.swapIn mm addr).map fun x => s.setVm x.2.2
  | .swapOut mm n => (s.vm.swapOut mm n).map fun x => s.setVm x.2
  | .access _ _ none => some s
  | .access la pte (some v) =>
    some (s.setVm (s.vm.setWord (pagNum pte) (la.toNat % 4096 / 4) v))
  | .procRun proc callers => s.procRun proc callers

namespace Cached

def exec (c : Cached) : TlbOp → Option Cached
  | .pageInsert mm page la perm => (c.pageInsert mm.pgdir page la perm).map Prod.snd
  | .getPte mm la => (c.getPte mm.pgdir la true).map Prod.snd
  | .swapIn mm addr => (c.swapIn mm addr).map fun x => x.2.2
  | .swapOut mm n => (c.swapOut mm n).map Prod.snd
  | .access la pte store => some (c.access la pte store)
  | .procRun proc callers => c.procRun proc callers

/-! ## The system without the TLB

A call of these functions comes back when the call of the system does, with the same result and
in the same state. -/

section Erase
variable {sys : Sched} {c : Cached} {s : Vm}

/-- The memory of the system is `s`, and the rest is that of `sys`. -/
def Over (sys : Sched) (c : Cached) (s : Vm) : Prop := c.sys = sys.setVm s

theorem over_self (c : Cached) : Over c.sys c c.vm := rfl

theorem Over.vm (h : Over sys c s) : c.vm = s := congrArg Sched.vm h

theorem Over.replace (h : Over sys c s) (vm : Vm) : c.sys.setVm vm = sys.setVm vm := by
  rw [h]
  rfl

theorem Over.setVm (h : Over sys c s) (vm : Vm) : Over sys (c.setVm vm) vm := h.replace vm

/-- The same result, with the system over the memory. -/
def Same {α : Type} (sys : Sched) (x : α × Cached) (y : α × Vm) : Prop :=
  x.1 = y.1 ∧ Over sys x.2 y.2

theorem map_eq_of_rel {α β : Type} {R : α → β → Prop} {x : Option α} {y : Option β}
    (h : Option.Rel R x y) {f : α → Cached} {g : β → Vm}
    (hR : ∀ a b, R a b → Over c.sys (f a) (g b)) :
    (x.map f).map Cached.sys = y.map fun b => c.sys.setVm (g b) := by
  cases h with
  | none => rfl
  | some h => exact congrArg some (hR _ _ h)

theorem allocPages_over (h : Over sys c s) (n : ℕ) :
    Option.Rel (Same sys) (c.allocPages n) (s.allocPages n) := by
  rw [allocPages, h.vm]
  cases s.allocPages n with
  | none => exact .none
  | some x => exact .some ⟨rfl, h.setVm x.2⟩

theorem pagesFree_over (h : Over sys c s) (base n : ℕ) :
    Option.Rel (Over sys) (c.pagesFree base n) (s.pagesFree base n) := by
  rw [pagesFree, h.vm]
  cases s.pagesFree base n with
  | none => exact .none
  | some vm => exact .some (h.setVm vm)

theorem getPte_over (h : Over sys c s) (pgdir : ℕ) (la : Word) (create : Bool) :
    Option.Rel (Same sys) (c.getPte pgdir la create) (s.getPte pgdir la create) := by
  unfold getPte Vm.getPte
  rw [h.vm]
  by_cases hp : Present (s.mem pgdir (pdx la))
  · rw [if_pos hp, if_pos hp]
    exact .some ⟨rfl, h⟩
  rw [if_neg hp, if_neg hp]
  cases create with
  | false => exact .some ⟨rfl, h⟩
  | true =>
    apply rel_bind (allocPages_over h 1)
    rintro ⟨page, c₁⟩ ⟨_, s₁⟩ ⟨rfl, h₁⟩
    obtain rfl := h₁.vm
    cases page with
    | none => exact .some ⟨rfl, h₁⟩
    | some page => exact .some ⟨rfl, h₁.setVm _⟩

theorem tlbInvl_over (h : Over sys c s) (pgdir : ℕ) (la : Word) :
    Over sys (c.tlbInvl pgdir la) (s.tlbInvl pgdir la) := by
  obtain rfl := h.vm
  exact h.replace _

theorem pageInsert_over (h : Over sys c s) (pgdir page : ℕ) (la perm : Word) :
    Option.Rel (Same sys) (c.pageInsert pgdir page la perm) (s.pageInsert pgdir page la perm) := by
  apply rel_bind (getPte_over h pgdir la true)
  rintro ⟨ptep, c₁⟩ ⟨_, s₁⟩ ⟨rfl, h₁⟩
  obtain rfl := h₁.vm
  cases ptep with
  | none => exact .some ⟨rfl, h₁⟩
  | some ptep => exact .some ⟨rfl, tlbInvl_over (h₁.setVm _) pgdir la⟩

theorem swapIn_over (h : Over sys c s) (mm : MmStruct) (addr : Word) :
    Option.Rel (fun x y => x.1 = y.1 ∧ Same sys x.2 y.2) (c.swapIn mm addr) (s.swapIn mm addr) := by
  apply rel_bind (allocPages_over h 1)
  rintro ⟨page, c₁⟩ ⟨_, s₁⟩ ⟨rfl, h₁⟩
  cases page with
  | none => exact .some ⟨rfl, rfl, h₁⟩
  | some page =>
    apply rel_bind (getPte_over h₁ mm.pgdir addr false)
    rintro ⟨ptep, c₂⟩ ⟨_, s₂⟩ ⟨rfl, h₂⟩
    obtain rfl := h₂.vm
    cases ptep with
    | none =>
      apply rel_bind (pagesFree_over h₂ page 1)
      intro c₃ s₃ h₃
      exact .some ⟨rfl, rfl, h₃⟩
    | some ptep =>
      have h₃ := h₂.setVm (c₂.vm.swapfsRead (c₂.vm.mem ptep.1 ptep.2) page).2
      dsimp only [swapfsRead]
      by_cases hr : (c₂.vm.swapfsRead (c₂.vm.mem ptep.1 ptep.2) page).1 ≠ 0
      · rw [if_pos hr, if_pos hr]
        apply rel_bind (pagesFree_over h₃ page 1)
        intro c₄ s₄ h₄
        exact .some ⟨rfl, rfl, h₄⟩
      · rw [if_neg hr, if_neg hr]
        apply rel_bind (pageInsert_over h₃ mm.pgdir page addr (PTE_P ||| PTE_W ||| PTE_U))
        rintro ⟨res, c₄⟩ ⟨_, s₄⟩ ⟨rfl, h₄⟩
        obtain rfl := h₄.vm
        exact .some ⟨rfl, rfl, h₄.setVm _⟩

theorem evict_over (h : Over sys c s) (mm : MmStruct) (table i : ℕ) (swapEntry : Word)
    (victim : ℕ) (victimAddr : Word) :
    Option.Rel (Over sys) (c.evict mm table i swapEntry victim victimAddr)
      (s.evict mm table i swapEntry victim victimAddr) := by
  obtain rfl := h.vm
  have h₁ := tlbInvl_over (h.setVm (c.vm.setWord table i swapEntry)) mm.pgdir victimAddr
  have h₂ : Over sys (((c.setWord table i swapEntry).tlbInvl mm.pgdir victimAddr).release mm.pgdir
    victimAddr) ((c.vm.setWord table i swapEntry).tlbInvl mm.pgdir victimAddr) := h₁
  apply rel_bind (pagesFree_over h₂ victim 1)
  intro c₂ s₂ h₂
  obtain rfl := h₂.vm
  exact .some (h₂.setVm _)

theorem swapOutOne_over (h : Over sys c s) (mm : MmStruct) :
    Option.Rel (Same sys) (c.swapOutOne mm) (s.swapOutOne mm) := by
  unfold swapOutOne Vm.swapOutOne swapFifoSwapOutVictim
  rw [h.vm]
  cases s.swapFifoSwapOutVictim mm with
  | none => exact .none
  | some x =>
    obtain ⟨r, victim, s₁⟩ := x
    have h₁ := h.setVm s₁
    cases victim with
    | none => exact .some ⟨rfl, h₁⟩
    | some victim =>
      show Option.Rel (Same sys) (if r ≠ 0 then _ else _) (if r ≠ 0 then _ else _)
      by_cases hr : r ≠ 0
      · rw [if_pos hr, if_pos hr]
        exact .some ⟨rfl, h₁⟩
      rw [if_neg hr, if_neg hr, h₁.vm]
      by_cases hz : s₁.findVaddrForPage mm victim = 0#32
      · simp only [hz, if_true]
        exact .some ⟨rfl, h₁⟩
      simp only [hz, if_false]
      apply rel_bind (getPte_over h₁ mm.pgdir (s₁.findVaddrForPage mm victim) false)
      rintro ⟨ptep, c₂⟩ ⟨_, s₂⟩ ⟨rfl, h₂⟩
      obtain rfl := h₂.vm
      cases ptep with
      | none => exact .some ⟨rfl, h₂⟩
      | some ptep =>
        have h₃ := h₂.setVm (c₂.vm.swapfsWrite (c₂.vm.swapOffset <<< 8) victim).2
        show Option.Rel (Same sys)
          (if (c₂.vm.swapfsWrite (c₂.vm.swapOffset <<< 8) victim).1 ≠ 0 then _ else _)
          (if (c₂.vm.swapfsWrite (c₂.vm.swapOffset <<< 8) victim).1 ≠ 0 then _ else _)
        by_cases hw : (c₂.vm.swapfsWrite (c₂.vm.swapOffset <<< 8) victim).1 ≠ 0
        · rw [if_pos hw, if_pos hw]
          exact .some ⟨rfl, h₃⟩
        · rw [if_neg hw, if_neg hw]
          apply rel_bind (evict_over h₃ mm ptep.1 ptep.2 _ victim _)
          intro c₄ s₄ h₄
          exact .some ⟨rfl, h₄⟩

theorem swapOutLoop_over (mm : MmStruct) (k : ℕ) (i : ℤ) (h : Over sys c s) :
    Option.Rel (Same sys) (swapOutLoop mm k i c) (Vm.swapOutLoop mm k i s) := by
  induction k generalizing c s i with
  | zero => exact .some ⟨rfl, h⟩
  | succ k ih =>
    apply rel_bind (swapOutOne_over h mm)
    rintro ⟨o, c₁⟩ ⟨_, s₁⟩ ⟨rfl, h₁⟩
    cases o with
    | stop => exact .some ⟨rfl, h₁⟩
    | skip | evicted => exact ih (i + 1) h₁

theorem beforeSwitch_sys (c : Cached) (proc : ℕ) :
    (c.beforeSwitch proc).map (fun x => (x.1, x.2.sys)) = c.sys.beforeSwitch proc := by
  unfold beforeSwitch Sched.beforeSwitch
  simp only [Option.bind_eq_bind, Option.map_bind, Function.comp_def, Option.map_some]
  refine congrArg _ (funext fun next => congrArg _ (funext fun prev => ?_))
  split_ifs <;> rfl

theorem procRun_sys (c : Cached) (proc : ℕ) (callers : List Word) :
    (c.procRun proc callers).map Cached.sys = c.sys.procRun proc callers := by
  unfold procRun Sched.procRun
  by_cases hne : proc ≠ c.sys.current
  · rw [if_pos hne, if_pos hne, ← beforeSwitch_sys]
    cases c.beforeSwitch proc with
    | none => rfl
    | some x =>
      show ((x.2.sys.switchTo c.sys.current proc (x.1 :: callers)).bind _).map _ =
        x.2.sys.switchTo c.sys.current proc (x.1 :: callers)
      cases x.2.sys.switchTo c.sys.current proc (x.1 :: callers) <;> rfl
  · rw [if_neg hne, if_neg hne]
    rfl

/-- The TLB that may hold anything does not change what the system does. -/
theorem exec_sys (c : Cached) (op : TlbOp) : (c.exec op).map Cached.sys = c.sys.perform op := by
  cases op with
  | pageInsert mm page la perm =>
    exact map_eq_of_rel (pageInsert_over (over_self c) mm.pgdir page la perm) fun _ _ h => h.2
  | getPte mm la =>
    exact map_eq_of_rel (getPte_over (over_self c) mm.pgdir la true) fun _ _ h => h.2
  | swapIn mm addr => exact map_eq_of_rel (swapIn_over (over_self c) mm addr) fun _ _ h => h.2.2
  | swapOut mm n =>
    exact map_eq_of_rel (swapOutLoop_over mm n.toNat 0 (over_self c)) fun _ _ h => h.2
  | access la pte store => cases store <;> rfl
  | procRun proc callers => exact procRun_sys c proc callers

end Erase

end Cached
end Zonix
