import Zonix.Lib.Links

/-!
# `kern/include/list.h`

The kernel's intrusive lists, over a memory of link fields. Each operation is the
source's sequence of pointer writes; the ring lemmas say what it does to the sequence of
entries of the list it is called on.
-/

namespace Zonix
open Lib

variable {ε : Type*} [DecidableEq ε]

/-- `__list_add`: `prev->next = next->prev = elm; elm->next = next; elm->prev = prev;` -/
def listAddRaw (m : Links ε) (elm prev next : ε) : Links ε :=
  (((m.setPrev next elm).setNext prev elm).setNext elm next).setPrev elm prev

/-- `__list_del`: `prev->next = next; next->prev = prev;` -/
def listDelRaw (m : Links ε) (prev next : ε) : Links ε :=
  (m.setNext prev next).setPrev next prev

def listInit (m : Links ε) (l : ε) : Links ε :=
  (m.setNext l l).setPrev l l

def listNext (m : Links ε) (l : ε) : ε := m.next l

def listPrev (m : Links ε) (l : ε) : ε := m.prev l

def listAddBefore (m : Links ε) (l elm : ε) : Links ε := listAddRaw m elm (m.prev l) l

def listAddAfter (m : Links ε) (l elm : ε) : Links ε := listAddRaw m elm l (m.next l)

def listDel (m : Links ε) (l : ε) : Links ε := listDelRaw m (m.prev l) (m.next l)

def listAdd (m : Links ε) (l elm : ε) : Links ε := listAddAfter m l elm

/-- `while ((le = list_next(le)) != head)`, until the structure that the entry is embedded in is
`good`; the structure that was found. `container` is `le2page` or `le2proc`. An embedding that is
not there, and a walk that needs more than `k` steps, are `none`. -/
def listSearch {β : Type*} (m : Links ε) (head : ε) (container : ε → Option β)
    (good : β → Bool) : ℕ → ε → Option (Option β)
  | 0, _ => none
  | k + 1, le =>
    if listNext m le = head then some none
    else do
      let x ← container (listNext m le)
      if good x then some (some x) else listSearch m head container good k (listNext m le)

/-- `while ((le = list_prev(le)) != head)`, with what `body` makes of each structure. The walk ends
with `none` as that of `listSearch` does, or where `body` does. -/
def listForEachPrev {β γ : Type} (m : Links ε) (head : ε) (container : ε → Option β)
    (body : β → Option γ) : ℕ → ε → Option (List γ)
  | 0, _ => none
  | k + 1, le =>
    if listPrev m le = head then some []
    else do
      let x ← container (listPrev m le)
      let y ← body x
      let ys ← listForEachPrev m head container body k (listPrev m le)
      some (y :: ys)

theorem listAddRaw_eq (m : Links ε) (elm prev next : ε) :
    listAddRaw m elm prev next = m.insertBetween elm prev next := rfl

theorem listDelRaw_eq (m : Links ε) (prev next : ε) : listDelRaw m prev next = m.bridge prev next :=
  rfl

theorem listInit_ring (m : Links ε) (l : ε) : (listInit m l).Ring l [] := Links.ring_selfLoop m l

theorem listInit_sameOff (m : Links ε) (l : ε) : Links.SameOff {l} m (listInit m l) :=
  Links.selfLoop_sameOff m l

/-- `list_add(l, elm)` puts `elm` right after `l`, the last entry before the cut. -/
theorem listAdd_ring {m : Links ε} {h l elm : ε} {as bs : List ε} (hr : m.Ring h (as ++ bs))
    (hnew : elm ∉ h :: (as ++ bs)) (hl : (h :: as).getLast? = some l) :
    (listAdd m l elm).Ring h (as ++ elm :: bs) := by
  obtain ⟨b, hb⟩ : ∃ b, (bs ++ [h]).head? = some b := ⟨_, List.head?_eq_some_head (by simp)⟩
  rw [listAdd, listAddAfter, hr.next_eq hl hb, listAddRaw_eq]
  exact hr.insertBetween hnew hl hb

/-- `list_add_before(l, elm)` puts `elm` right before `l`, the first entry after the cut. -/
theorem listAddBefore_ring {m : Links ε} {h l elm : ε} {as bs : List ε}
    (hr : m.Ring h (as ++ bs)) (hnew : elm ∉ h :: (as ++ bs))
    (hl : (bs ++ [h]).head? = some l) : (listAddBefore m l elm).Ring h (as ++ elm :: bs) := by
  obtain ⟨a, ha⟩ : ∃ a, (h :: as).getLast? = some a := ⟨_, List.getLast?_eq_some_getLast (by simp)⟩
  rw [listAddBefore, hr.prev_eq ha hl, listAddRaw_eq]
  exact hr.insertBetween hnew ha hl

/-- `list_del(x)` takes `x` out and leaves the rest as it was. -/
theorem listDel_ring {m : Links ε} {h x : ε} {as bs : List ε} (hr : m.Ring h (as ++ x :: bs)) :
    (listDel m x).Ring h (as ++ bs) := by
  rw [listDel, listDelRaw_eq]
  exact hr.bridge

/-- `list_add` at the head puts `elm` at the front. -/
theorem listAdd_front {m : Links ε} {h elm : ε} {xs : List ε} (hr : m.Ring h xs)
    (hnew : elm ∉ h :: xs) : (listAdd m h elm).Ring h (elm :: xs) := by
  have hring : m.Ring h ([] ++ xs) := hr
  exact listAdd_ring hring hnew rfl

/-- `list_add_before` at the head puts `elm` at the end. -/
theorem listAddBefore_back {m : Links ε} {h elm : ε} {xs : List ε} (hr : m.Ring h xs)
    (hnew : elm ∉ h :: xs) : (listAddBefore m h elm).Ring h (xs ++ [elm]) := by
  have hring : m.Ring h (xs ++ []) := by
    rw [List.append_nil]
    exact hr
  exact listAddBefore_ring hring (by rwa [List.append_nil]) rfl

/-- The sequence of a ring from which an entry is deleted. -/
theorem listDel_erase {m : Links ε} {h x : ε} {xs : List ε} (hr : m.Ring h xs) (hx : x ∈ xs) :
    (listDel m x).Ring h (xs.erase x) := by
  obtain ⟨as, bs, rfl⟩ := List.append_of_mem hx
  have has : x ∉ as := fun hmem =>
    (List.nodup_append.mp hr.nodup_entries).2.2 x hmem x List.mem_cons_self rfl
  rw [List.erase_append_right _ has, List.erase_cons_head]
  exact listDel_ring hr

/-- The same where the entries are embedded in other things. -/
theorem listDel_erase_map {β : Type*} [DecidableEq β] {m : Links ε} {h : ε} {f : β → ε}
    (hf : Function.Injective f) {ys : List β} {y : β} (hr : m.Ring h (ys.map f)) (hy : y ∈ ys) :
    (listDel m (f y)).Ring h ((ys.erase y).map f) := by
  rw [List.map_erase hf]
  exact listDel_erase hr (List.mem_map_of_mem hy)

theorem listAdd_sameOff (m : Links ε) (l elm : ε) :
    Links.SameOff {elm, l, m.next l} m (listAdd m l elm) :=
  Links.insertBetween_sameOff m elm l (m.next l)

theorem listAddBefore_sameOff (m : Links ε) (l elm : ε) :
    Links.SameOff {elm, m.prev l, l} m (listAddBefore m l elm) :=
  Links.insertBetween_sameOff m elm (m.prev l) l

theorem listDel_sameOff (m : Links ε) (l : ε) :
    Links.SameOff {m.prev l, m.next l} m (listDel m l) :=
  Links.bridge_sameOff m (m.prev l) (m.next l)

/-- Deleting an entry leaves its own `next` readable, as the loops that delete the entry
they stand on rely on. -/
theorem listDel_next_self {m : Links ε} {h x : ε} {as bs : List ε}
    (hr : m.Ring h (as ++ x :: bs)) : (listDel m x).next x = m.next x := by
  rw [listDel, listDelRaw_eq, Links.bridge_next, if_neg (Ne.symm hr.prev_ne)]

/-- The walk from an entry of a ring looks at the entries behind it. -/
theorem listSearch_from {β : Type*} {m : Links ε} {h le : ε} {container : ε → Option β}
    {good : β → Bool} {entry : β → ε} (hentry : ∀ x, container (entry x) = some x)
    {as : List ε} {xs : List β} (hr : m.Ring h (as ++ xs.map entry))
    (hle : (h :: as).getLast? = some le) {k : ℕ} (hk : xs.length < k) :
    listSearch m h container good k le = some (xs.find? good) := by
  induction xs generalizing as le k with
  | nil =>
    obtain ⟨k, rfl⟩ := Nat.exists_eq_succ_of_ne_zero (Nat.ne_of_gt hk)
    have hnext : listNext m le = h := hr.next_eq hle rfl
    rw [listSearch, if_pos hnext, List.find?_nil]
  | cons x xs ih =>
    obtain ⟨k, rfl⟩ := Nat.exists_eq_succ_of_ne_zero (Nat.ne_of_gt (Nat.zero_lt_of_lt hk))
    have hnext : listNext m le = entry x := hr.next_eq hle rfl
    have hne : entry x ≠ h := by
      intro heq
      have hnd := hr.head_notMem
      rw [← heq] at hnd
      simp at hnd
    rw [listSearch, hnext, if_neg hne, hentry, Option.bind_eq_bind, Option.bind_some,
      List.find?_cons]
    cases hx : good x with
    | true => rfl
    | false =>
      have hr' : m.Ring h ((as ++ [entry x]) ++ xs.map entry) := by rwa [List.append_assoc]
      exact ih hr' (Links.getLast?_cons_concat h _ as) (Nat.lt_of_succ_lt_succ hk)

/-- The walk along a ring finds the first good structure. -/
theorem listSearch_ring {β : Type*} {m : Links ε} {h : ε} {container : ε → Option β}
    {good : β → Bool} {entry : β → ε} (hentry : ∀ x, container (entry x) = some x)
    {xs : List β} (hr : m.Ring h (xs.map entry)) {k : ℕ} (hk : xs.length < k) :
    listSearch m h container good k h = some (xs.find? good) := by
  have hr' : m.Ring h ([] ++ xs.map entry) := hr
  exact listSearch_from hentry hr' rfl hk

/-- The walk backwards from an entry, with the entries as they are met. -/
theorem listForEachPrev_from {β γ : Type} {m : Links ε} {h le : ε} {container : ε → Option β}
    {body : β → Option γ} {entry : β → ε} (hentry : ∀ x, container (entry x) = some x)
    {as : List ε} {xs : List β} (hr : m.turned.Ring h (as ++ xs.map entry))
    (hle : (h :: as).getLast? = some le) {k : ℕ} (hk : xs.length < k) :
    listForEachPrev m h container body k le = xs.mapM body := by
  induction xs generalizing as le k with
  | nil =>
    obtain ⟨k, rfl⟩ := Nat.exists_eq_succ_of_ne_zero (Nat.ne_of_gt hk)
    have hprev : listPrev m le = h := hr.next_eq hle rfl
    rw [listForEachPrev, if_pos hprev]
    rfl
  | cons x xs ih =>
    obtain ⟨k, rfl⟩ := Nat.exists_eq_succ_of_ne_zero (Nat.ne_of_gt (Nat.zero_lt_of_lt hk))
    have hprev : listPrev m le = entry x := hr.next_eq hle rfl
    have hne : entry x ≠ h := by
      intro heq
      have hnd := hr.head_notMem
      rw [← heq] at hnd
      simp at hnd
    have hr' : m.turned.Ring h ((as ++ [entry x]) ++ xs.map entry) := by rwa [List.append_assoc]
    have hrest := ih hr' (Links.getLast?_cons_concat h _ as) (Nat.lt_of_succ_lt_succ hk)
    rw [listForEachPrev, hprev, if_neg hne, hentry, Option.bind_eq_bind, Option.bind_some,
      List.mapM_cons, hrest]
    rfl

/-- The walk along `prev` does the last entry of the ring first. -/
theorem listForEachPrev_ring {β γ : Type} {m : Links ε} {h : ε} {container : ε → Option β}
    {body : β → Option γ} {entry : β → ε} (hentry : ∀ x, container (entry x) = some x)
    {xs : List β} (hr : m.Ring h (xs.map entry)) {k : ℕ} (hk : xs.length < k) :
    listForEachPrev m h container body k h = xs.reverse.mapM body := by
  have hr' : m.turned.Ring h ([] ++ xs.reverse.map entry) := by
    rw [List.nil_append, List.map_reverse]
    exact hr.turned
  refine listForEachPrev_from hentry hr' rfl ?_
  rwa [List.length_reverse]

end Zonix
