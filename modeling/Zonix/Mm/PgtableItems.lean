import Zonix.Arch.Mmu
import Zonix.Lib.Runs
import Mathlib.Data.List.Forall2

/-!
# The items of a page table: `get_pgtable_items` of `kern/mm/vmm.c`

`table i` is what reading an entry gives, and nothing where there is no entry to read. A cursor does
not pass `limit`, so that a `size_t` is a natural number here.
-/

namespace Zonix
open Lib

/-- `while (start < limit && !(table[start] & PTE_P)) start++` -/
def skipAbsent (table : ℕ → Option Word) (limit start : ℕ) : Option ℕ :=
  if start < limit then do
    let pte ← table start
    if ¬ Present pte then skipAbsent table limit (start + 1) else some start
  else some start
termination_by limit - start

/-- `while (start < limit && (table[start] & PTE_USER) == perm) start++` -/
def skipSame (table : ℕ → Option Word) (limit : ℕ) (perm : Word) (start : ℕ) : Option ℕ :=
  if start < limit then do
    let pte ← table start
    if pte &&& PTE_USER = perm then skipSame table limit perm (start + 1) else some start
  else some start
termination_by limit - start

/-- `get_pgtable_items(start, limit, table, &left, &right)`: what it returns, `left` and `right`. -/
def getPgtableItems (start limit : ℕ) (table : ℕ → Option Word) (left right : ℕ) :
    Option (Word × ℕ × ℕ) :=
  if limit ≤ start then some (0#32, left, right)
  else do
    let start ← skipAbsent table limit start
    if start < limit then
      let left := start
      let pte ← table start
      let perm := pte &&& PTE_USER
      let right ← skipSame table limit perm (start + 1)
      some (perm, left, right)
    else some (0#32, left, right)

/-- `while ((perm = get_pgtable_items(right, limit, table, &left, &right)) != 0)`, and the items. -/
def pgtableItems (table : ℕ → Option Word) (limit : ℕ) : ℕ → ℕ → ℕ → Option (List (Span Word))
  | 0, _, _ => none
  | k + 1, left, right => do
    let (perm, left, right) ← getPgtableItems right limit table left right
    if perm ≠ 0#32 then
      let items ← pgtableItems table limit k left right
      some (⟨left, right, perm⟩ :: items)
    else some []

/-- A `PDE` line of `print_pgdir`, and the `PTE` lines under it. -/
structure PgdirLines where
  pde : Span Word
  ptes : List (Span Word)

/-- The inner loop of `print_pgdir`. -/
def printPtes (vpt : ℕ → Option Word) (k : ℕ) (pde : Span Word) : Option PgdirLines :=
  (pgtableItems vpt (pde.right * PTE_NUM) k 0 (pde.left * PTE_NUM)).map fun ptes => ⟨pde, ptes⟩

/-- `print_pgdir()`: the lines between the first one and the last one, as the items they are made
of. -/
def printPgdir (vpd vpt : ℕ → Option Word) (k : ℕ) : Option (List PgdirLines) := do
  let pdes ← pgtableItems vpd PDE_NUM k 0 0
  pdes.mapM (printPtes vpt k)

/-- The `PTE_USER` bits of an entry that is present. -/
def userBits (table : ℕ → Word) (i : ℕ) : Option Word :=
  if Present (table i) then some (table i &&& PTE_USER) else none

section
variable {read : ℕ → Option Word} {table : ℕ → Word} {limit start : ℕ} {perm : Word}

theorem present_and_user (pte : Word) : Present (pte &&& PTE_USER) ↔ Present pte := by
  rw [present_iff, present_iff, BitVec.getLsbD_and]
  have huser : PTE_USER.getLsbD 0 = true := rfl
  rw [huser, Bool.and_true]

theorem userBits_eq_some_iff {i : ℕ} (hperm : Present perm) :
    userBits table i = some perm ↔ table i &&& PTE_USER = perm := by
  unfold userBits
  split_ifs with hpres
  · exact Option.some_inj
  · refine iff_of_false (by simp) ?_
    rintro rfl
    exact hpres ((present_and_user _).mp hperm)

/-- The first loop stops at the first present entry, if there is one. -/
theorem skipAbsent_spec (hread : ∀ i, start ≤ i → i < limit → read i = some (table i))
    (hle : start ≤ limit) : ∃ stop, skipAbsent read limit start = some stop ∧ start ≤ stop ∧
      stop ≤ limit ∧ (∀ i, start ≤ i → i < stop → userBits table i = none) ∧
      (stop < limit → Present (table stop)) := by
  fun_induction skipAbsent read limit start with
  | case1 start hlt ih =>
    rw [hread start (Nat.le_refl _) hlt, Option.bind_eq_bind, Option.bind_some]
    by_cases hpres : Present (table start)
    · rw [if_neg (not_not_intro hpres)]
      exact ⟨start, rfl, Nat.le_refl _, hle, fun i hi hi' => by omega, fun _ => hpres⟩
    · rw [if_pos hpres]
      obtain ⟨stop, heq, hstart, hstop, habsent, hfound⟩ :=
        ih (fun i hi => hread i (by omega)) hlt
      refine ⟨stop, heq, by omega, hstop, fun i hi hi' => ?_, hfound⟩
      rcases Nat.eq_or_lt_of_le hi with rfl | hi
      · exact if_neg hpres
      · exact habsent i hi hi'
  | case2 start hge =>
    exact ⟨start, rfl, Nat.le_refl _, hle, fun i hi hi' => by omega, fun hlt => absurd hlt hge⟩

/-- The second loop stops behind the last entry with the same bits. -/
theorem skipSame_spec (hread : ∀ i, start ≤ i → i < limit → read i = some (table i))
    (hle : start ≤ limit) : ∃ stop, skipSame read limit perm start = some stop ∧ start ≤ stop ∧
      stop ≤ limit ∧ (∀ i, start ≤ i → i < stop → table i &&& PTE_USER = perm) ∧
      (stop < limit → table stop &&& PTE_USER ≠ perm) := by
  fun_induction skipSame read limit perm start with
  | case1 start hlt ih =>
    rw [hread start (Nat.le_refl _) hlt, Option.bind_eq_bind, Option.bind_some]
    by_cases hsame : table start &&& PTE_USER = perm
    · rw [if_pos hsame]
      obtain ⟨stop, heq, hstart, hstop, hall, hnext⟩ :=
        ih (fun i hi => hread i (by omega)) hlt
      refine ⟨stop, heq, by omega, hstop, fun i hi hi' => ?_, hnext⟩
      rcases Nat.eq_or_lt_of_le hi with rfl | hi
      · exact hsame
      · exact hall i hi hi'
    · rw [if_neg hsame]
      exact ⟨start, rfl, Nat.le_refl _, hle, fun i hi hi' => by omega, fun _ => hsame⟩
  | case2 start hge =>
    exact ⟨start, rfl, Nat.le_refl _, hle, fun i hi hi' => by omega, fun hlt => absurd hlt hge⟩

/-- A call finds the first run of the window, or there is none and `left` and `right` stay. -/
theorem getPgtableItems_cases (hread : ∀ i, start ≤ i → i < limit → read i = some (table i))
    (left right : ℕ) :
    ((∀ i, start ≤ i → i < limit → userBits table i = none) ∧
      getPgtableItems start limit read left right = some (0#32, left, right)) ∨
    ∃ run, Span.First (userBits table) start limit run ∧ run.key ≠ 0#32 ∧
      getPgtableItems start limit read left right = some (run.key, run.left, run.right) := by
  by_cases hlimit : limit ≤ start
  · left
    rw [getPgtableItems, if_pos hlimit]
    exact ⟨fun i hi hi' => by omega, rfl⟩
  obtain ⟨l, hskip, hl, hl', habsent, hpres⟩ := skipAbsent_spec hread (by omega)
  rw [getPgtableItems, if_neg hlimit, hskip, Option.bind_eq_bind, Option.bind_some]
  by_cases hfound : l < limit
  · right
    have hperm : Present (table l &&& PTE_USER) := (present_and_user _).mpr (hpres hfound)
    obtain ⟨r, hsame, hr, hr', hall, hnext⟩ :=
      @skipSame_spec read table limit (l + 1) (table l &&& PTE_USER)
        (fun i hi => hread i (by omega)) hfound
    refine ⟨⟨l, r, table l &&& PTE_USER⟩, ⟨hr, hl, hr', habsent, fun i hi hi' => ?_, ?_⟩, ?_, ?_⟩
    · rw [userBits_eq_some_iff hperm]
      rcases Nat.eq_or_lt_of_le hi with rfl | hi
      · rfl
      · exact hall i hi hi'
    · rcases Nat.eq_or_lt_of_le hr' with heq | hlt
      · exact Or.inl heq
      · right
        rw [Ne, userBits_eq_some_iff hperm]
        exact hnext hlt
    · intro (hzero : table l &&& PTE_USER = 0#32)
      rw [hzero] at hperm
      exact not_present_zero hperm
    · rw [if_pos hfound, hread l hl hfound]
      simp only [Option.bind_eq_bind, Option.bind_some, hsame]
  · left
    rw [if_neg hfound]
    exact ⟨fun i hi hi' => habsent i hi (by omega), rfl⟩

/-- The calls from `start` on give the window, run after run. -/
theorem pgtableItems_split (hread : ∀ i, start ≤ i → i < limit → read i = some (table i))
    (left : ℕ) : ∃ items, Span.Split (userBits table) limit start items ∧
      ∀ k, items.length < k → pgtableItems read limit k left start = some items := by
  induction h : limit - start using Nat.strongRecOn generalizing start left with
  | _ n ih =>
    subst h
    rcases getPgtableItems_cases hread left start with ⟨habsent, heq⟩ | ⟨run, hfirst, hne, heq⟩
    · refine ⟨[], .done habsent, fun k hk => ?_⟩
      obtain ⟨k, rfl⟩ := Nat.exists_eq_succ_of_ne_zero (Nat.ne_of_gt hk)
      rw [pgtableItems, heq]
      rfl
    · have hstart := hfirst.start_le
      have hnonempty := hfirst.nonempty
      have hle := hfirst.le_limit
      obtain ⟨items, hsplit, hitems⟩ :=
        ih (limit - run.right) (by omega) (fun i hi => hread i (by omega)) run.left rfl
      refine ⟨run :: items, .next hfirst hsplit, fun k hk => ?_⟩
      rw [List.length_cons] at hk
      obtain ⟨k, rfl⟩ := Nat.exists_eq_succ_of_ne_zero (Nat.ne_of_gt (Nat.zero_lt_of_lt hk))
      rw [pgtableItems, heq, Option.bind_eq_bind, Option.bind_some]
      simp only [if_pos hne, hitems k (by omega)]
      rfl

/-- For every table and limit, when only the entries below `limit` can be read: the calls come to an
end, and what they give are, in order, the maximal runs of present entries with equal bits. -/
theorem pgtableItems_maximal (table : ℕ → Word) (limit left : ℕ) :
    ∃ items, (∀ k, limit < k → pgtableItems (fun i => if i < limit then some (table i) else none)
        limit k left 0 = some items) ∧
      (items.Pairwise fun a b => a.right ≤ b.left) ∧
      ∀ run, run ∈ items ↔ Span.Maximal (userBits table) 0 limit run := by
  have hread : ∀ i, 0 ≤ i → i < limit →
      (if i < limit then some (table i) else none) = some (table i) := fun i _ hi => if_pos hi
  obtain ⟨items, hsplit, hitems⟩ := pgtableItems_split hread left
  have hlen := hsplit.length_le
  exact ⟨items, fun k hk => hitems k (by omega), hsplit.ordered, hsplit.maximal_iff⟩

/-! ## `print_pgdir` -/

/-- The entries of a page table can be read through `vpt` where the directory leads to one. -/
def readVpt (vpd vpt : ℕ → Word) (i : ℕ) : Option Word :=
  if Present (vpd (i / PTE_NUM)) then some (vpt i) else none

/-- The lines under a `PDE` line are, in order, the maximal runs of the entries that its run of page
tables has. -/
structure PgdirLines.Listed (vpt : ℕ → Word) (pde : Span Word) (lines : PgdirLines) : Prop where
  under : lines.pde = pde
  ordered : lines.ptes.Pairwise fun a b => a.right ≤ b.left
  ptes : ∀ run, run ∈ lines.ptes ↔
    Span.Maximal (userBits vpt) (pde.left * PTE_NUM) (pde.right * PTE_NUM) run

theorem printPtes_listed {vpd vpt : ℕ → Word} {pde : Span Word}
    (h : Span.Maximal (userBits vpd) 0 PDE_NUM pde) :
    ∃ lines, PgdirLines.Listed vpt pde lines ∧
      ∀ k, PDE_NUM * PTE_NUM < k → printPtes (readVpt vpd vpt) k pde = some lines := by
  have hread : ∀ i, pde.left * PTE_NUM ≤ i → i < pde.right * PTE_NUM →
      readVpt vpd vpt i = some (vpt i) := by
    intro i hi hi'
    -- the page table is one of the run
    have hleft : pde.left ≤ i / PTE_NUM := (Nat.le_div_iff_mul_le (by decide)).mpr hi
    have hright : i / PTE_NUM < pde.right := (Nat.div_lt_iff_lt_mul (by decide)).mpr hi'
    have hkey := h.same (i / PTE_NUM) hleft hright
    unfold userBits at hkey
    split_ifs at hkey with hpres
    exact if_pos hpres
  obtain ⟨ptes, hsplit, hptes⟩ := pgtableItems_split hread 0
  have hlen : ptes.length ≤ PDE_NUM * PTE_NUM :=
    calc ptes.length ≤ pde.right * PTE_NUM - pde.left * PTE_NUM := hsplit.length_le
      _ ≤ pde.right * PTE_NUM := Nat.sub_le _ _
      _ ≤ PDE_NUM * PTE_NUM := Nat.mul_le_mul_right _ h.le_limit
  refine ⟨⟨pde, ptes⟩, ⟨rfl, hsplit.ordered, hsplit.maximal_iff⟩, fun k hk => ?_⟩
  rw [printPtes, hptes k (Nat.lt_of_le_of_lt hlen hk)]
  rfl

/-- `print_pgdir` comes to an end and reads no page table that is not there. Its `PDE` lines are the
maximal runs of the directory, and the `PTE` lines under each of them those of its page tables. -/
theorem printPgdir_listed (vpd vpt : ℕ → Word) :
    ∃ pdes lines, (∀ k, PDE_NUM * PTE_NUM < k →
        printPgdir (fun i => if i < PDE_NUM then some (vpd i) else none) (readVpt vpd vpt) k =
          some lines) ∧
      (pdes.Pairwise fun a b => a.right ≤ b.left) ∧
      (∀ run, run ∈ pdes ↔ Span.Maximal (userBits vpd) 0 PDE_NUM run) ∧
      List.Forall₂ (PgdirLines.Listed vpt) pdes lines := by
  have hread : ∀ i, 0 ≤ i → i < PDE_NUM →
      (if i < PDE_NUM then some (vpd i) else none) = some (vpd i) := fun i _ hi => if_pos hi
  obtain ⟨pdes, hsplit, hpdes⟩ := pgtableItems_split hread 0
  have hlines : ∀ l ⊆ pdes, ∃ lines, List.Forall₂ (PgdirLines.Listed vpt) l lines ∧
      ∀ k, PDE_NUM * PTE_NUM < k → l.mapM (printPtes (readVpt vpd vpt) k) = some lines := by
    intro l hl
    induction l with
    | nil => exact ⟨[], .nil, fun k _ => rfl⟩
    | cons pde l ih =>
      obtain ⟨hpde, hl⟩ := List.cons_subset.mp hl
      obtain ⟨lines, hlisted, hlines⟩ := printPtes_listed (hsplit.maximal_iff pde |>.mp hpde)
      obtain ⟨rest, hrest, hmap⟩ := ih hl
      refine ⟨lines :: rest, .cons hlisted hrest, fun k hk => ?_⟩
      rw [List.mapM_cons, hlines k hk, hmap k hk]
      rfl
  obtain ⟨lines, hlisted, hmap⟩ := hlines pdes (List.Subset.refl _)
  have hlen : pdes.length ≤ PDE_NUM * PTE_NUM :=
    calc pdes.length ≤ PDE_NUM - 0 := hsplit.length_le
      _ ≤ PDE_NUM * PTE_NUM := by decide
  refine ⟨pdes, lines, fun k hk => ?_, hsplit.ordered, hsplit.maximal_iff, hlisted⟩
  rw [printPgdir, hpdes k (Nat.lt_of_le_of_lt hlen hk)]
  exact hmap k hk

end
end Zonix
