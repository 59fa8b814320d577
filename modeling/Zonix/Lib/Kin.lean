import Mathlib.Data.List.Nodup
import Mathlib.Logic.Function.Basic
import Mathlib.Logic.Relation

/-!
# Trees kept by parent, child and sibling pointers

Each node of an arbitrary type `α` has a pointer to its parent, to its youngest child, and to
its next younger and next older sibling. `k.Chain y c xs` says that from `c` the `optr`
pointers visit exactly `xs` and end, and that `yptr` is the way back, with `y` before the
first node. A `Family` has such a chain for every member, made of the members whose parent
it is, and its parent pointers lead to the root.

There are three edits: `push` a youngest child, `adopt` the youngest child of another member,
and `remove` a member without children. Adoption leaves a stale `yptr` in the chain it takes
the child from; `Orphaning` is a family but for that. `Siblings` and `Leaving` are the chains alone,
which adoption keeps wherever the parent pointers lead.
-/

namespace Zonix.Lib

/-- The four pointers of every node. -/
@[ext] structure Kin (α : Type*) where
  parent : α → Option α
  cptr : α → Option α
  yptr : α → Option α
  optr : α → Option α

namespace Kin

variable {α : Type*}

/-- From `c`, `optr` visits `xs` and ends; `y` is younger than the first of them. -/
def Chain (k : Kin α) : Option α → Option α → List α → Prop
  | _, c, [] => c = none
  | y, c, a :: xs => c = some a ∧ k.yptr a = y ∧ Chain k (some a) (k.optr a) xs

/-- The parent pointers lead from `a` to `b`. -/
def Descends (k : Kin α) : α → α → Prop :=
  Relation.ReflTransGen fun a b => k.parent a = some b

/-- What the parent pointers of the members say: everybody descends from the root. -/
structure Ancestry (k : Kin α) (members : List α) (root : α) : Prop where
  closed : ∀ c ∈ members, ∀ p, k.parent c = some p → p ∈ members
  top : k.parent root = none
  descends : ∀ p ∈ members, k.Descends p root

/-- `children` lists for each member the members whose parent it is. -/
structure Lists (k : Kin α) (members : List α) (children : α → List α) : Prop where
  nodup : ∀ p ∈ members, (children p).Nodup
  mem : ∀ p ∈ members, ∀ c, c ∈ children p ↔ c ∈ members ∧ k.parent c = some p

structure Family (k : Kin α) (members : List α) (root : α) (children : α → List α) : Prop
    extends Ancestry k members root, Lists k members children where
  chain : ∀ p ∈ members, k.Chain none (k.cptr p) (children p)

/-- A family, but for a stale pointer before the first child of `dying`. -/
structure Orphaning (k : Kin α) (members : List α) (root dying : α) (children : α → List α) :
    Prop extends Ancestry k members root, Lists k members children where
  chain : ∀ p ∈ members, p ≠ dying → k.Chain none (k.cptr p) (children p)
  dyingChain : ∃ y, k.Chain y (k.cptr dying) (children dying)

/-- The chains of a family, whoever descends from whom. -/
structure Siblings (k : Kin α) (members : List α) (children : α → List α) : Prop
    extends Lists k members children where
  closed : ∀ c ∈ members, ∀ p, k.parent c = some p → p ∈ members
  chain : ∀ p ∈ members, k.Chain none (k.cptr p) (children p)

/-- The chains while the children of `dying` are given away. -/
structure Leaving (k : Kin α) (members : List α) (dying : α) (children : α → List α) : Prop
    extends Lists k members children where
  closed : ∀ c ∈ members, ∀ p, k.parent c = some p → p ∈ members
  chain : ∀ p ∈ members, p ≠ dying → k.Chain none (k.cptr p) (children p)
  dyingChain : ∃ y, k.Chain y (k.cptr dying) (children dying)

variable {k k' : Kin α} {members xs as bs : List α} {root dying a b c p q : α}
  {children : α → List α} {y o : Option α}

/-! ## Chains -/

@[simp] theorem chain_nil : k.Chain y o [] ↔ o = none := Iff.rfl

@[simp] theorem chain_cons :
    k.Chain y o (a :: xs) ↔ o = some a ∧ k.yptr a = y ∧ k.Chain (some a) (k.optr a) xs := Iff.rfl

theorem Chain.congr (h : k.Chain y o xs) (hyptr : ∀ a ∈ xs, k'.yptr a = k.yptr a)
    (hoptr : ∀ a ∈ xs, k'.optr a = k.optr a) : k'.Chain y o xs := by
  induction xs generalizing y o with
  | nil => exact h
  | cons a xs ih =>
    obtain ⟨ho, hy, hxs⟩ := h
    refine ⟨ho, ?_, ?_⟩
    · rw [hyptr a List.mem_cons_self, hy]
    · rw [hoptr a List.mem_cons_self]
      exact ih hxs (fun b hb => hyptr b (List.mem_cons_of_mem a hb))
        fun b hb => hoptr b (List.mem_cons_of_mem a hb)

theorem Chain.head? (h : k.Chain y o xs) : o = xs.head? := by
  cases xs with
  | nil => exact h
  | cons a xs => exact h.1

/-- The pointers say which nodes are in a chain. -/
theorem Chain.unique {ys : List α} {y' : Option α} (h : k.Chain y o xs) (h' : k.Chain y' o ys) :
    xs = ys := by
  induction xs generalizing y y' o ys with
  | nil => cases ys with
    | nil => rfl
    | cons b ys => exact absurd (h.symm.trans h'.1) (by simp)
  | cons a xs ih => cases ys with
    | nil => exact absurd (h.1.symm.trans h') (by simp)
    | cons b ys =>
      obtain rfl := Option.some.inj (h.1.symm.trans h'.1)
      rw [ih h.2.2 h'.2.2]

theorem Chain.optr_eq (h : k.Chain y o (as ++ p :: bs)) : k.optr p = bs.head? := by
  induction as generalizing y o with
  | nil => exact h.2.2.head?
  | cons a as ih => exact ih h.2.2

theorem Chain.yptr_eq (h : k.Chain y o (as ++ p :: bs)) : k.yptr p = as.getLast?.or y := by
  induction as generalizing y o with
  | nil => exact h.2.1
  | cons a as ih =>
    rw [ih h.2.2]
    cases as with
    | nil => rfl
    | cons b as => simp [List.getLast?_cons]

/-! ## Descent -/

theorem Descends.refl (k : Kin α) (a : α) : k.Descends a a := Relation.ReflTransGen.refl

theorem Descends.head (hab : k.parent a = some b) (h : k.Descends b c) : k.Descends a c :=
  Relation.ReflTransGen.head hab h

/-- A way up that does not pass `c` is there whatever happens to the parent of `c`. -/
theorem Descends.redirect (hsame : ∀ x, x ≠ c → k'.parent x = k.parent x) (h : k.Descends a b)
    (hno : ¬ k.Descends a c) : k'.Descends a b := by
  induction h using Relation.ReflTransGen.head_induction_on with
  | refl => exact Descends.refl k' b
  | @head a x hax hxb ih =>
    have hne : a ≠ c := by
      rintro rfl
      exact hno (Descends.refl k a)
    have hx : ¬ k.Descends x c := fun hxc => hno (hxc.head hax)
    exact (ih hx).head ((hsame a hne).trans hax)

/-- Parents stay among `members'` when `c` is given one that is. -/
theorem closed_redirect {members' : List α}
    (h : ∀ x ∈ members, ∀ p, k.parent x = some p → p ∈ members') (hq : q ∈ members')
    (hsame : ∀ x, x ≠ c → k'.parent x = k.parent x) (hc : k'.parent c = some q) :
    ∀ x ∈ c :: members, ∀ p, k'.parent x = some p → p ∈ members' := by
  intro x hx p hp
  by_cases hxc : x = c
  · rw [hxc, hc] at hp
    rwa [← Option.some.inj hp]
  · rw [hsame x hxc] at hp
    exact h x (List.mem_of_ne_of_mem hxc hx) p hp

/-- The ways up still lead to the root when `c` is given a parent that is not below it. -/
theorem Ancestry.redirect (h : k.Ancestry members root) (hq : q ∈ members)
    (hsame : ∀ x, x ≠ c → k'.parent x = k.parent x) (hc : k'.parent c = some q)
    (hqc : ¬ k.Descends q c) (hroot : c ≠ root) : k'.Ancestry members root := by
  refine ⟨fun x hx => closed_redirect h.closed hq hsame hc x (List.mem_cons_of_mem c hx), ?_,
    fun x hx => ?_⟩
  · rw [hsame root (Ne.symm hroot), h.top]
  · -- the way up from `x` is the old one, or it comes to `c` and goes on at `q`
    have hup : k'.Descends c root := ((h.descends q hq).redirect hsame hqc).head hc
    have hx := h.descends x hx
    clear * - hx hup hsame
    induction hx using Relation.ReflTransGen.head_induction_on with
    | refl => exact Descends.refl k' root
    | @head u x hux _ ih =>
      by_cases huc : u = c
      · exact huc ▸ hup
      · exact ih.head ((hsame u huc).trans hux)

/-- A way up that `c` was given leads nowhere that `c` did not lead to before. -/
theorem Descends.of_redirect (hsame : ∀ x, x ≠ c → k'.parent x = k.parent x)
    (hc : k.Descends c b) (h : k'.Descends a b) : k.Descends a b := by
  induction h using Relation.ReflTransGen.head_induction_on with
  | refl => exact Descends.refl k b
  | @head u x hux _ ih =>
    by_cases huc : u = c
    · exact huc ▸ hc
    · exact ih.head ((hsame u huc).symm.trans hux)

/-- The parent pointers of a family do not go round in a circle. -/
theorem Ancestry.acyclic (h : k.Ancestry members root) (hp : p ∈ members)
    (hpq : k.parent p = some q) : ¬ k.Descends q p := by
  intro hqp
  -- whatever `p` descends from, descends from `p` again; the root does not
  have hcycle : ∀ x, k.Descends p x → ∃ z, k.parent x = some z ∧ k.Descends z p := by
    intro x hx
    induction hx with
    | refl => exact ⟨q, hpq, hqp⟩
    | tail _ hax ih =>
      obtain ⟨z, hz, hzp⟩ := ih
      obtain rfl := Option.some.inj (hz.symm.trans hax)
      rcases Relation.ReflTransGen.cases_head hzp with rfl | ⟨w, hw, hwp⟩
      · exact ⟨q, hpq, hqp⟩
      · exact ⟨w, hw, hwp⟩
  obtain ⟨z, hz, -⟩ := hcycle root (h.descends p hp)
  rw [h.top] at hz
  exact absurd hz (by simp)

theorem Ancestry.mem_of_descends (h : k.Ancestry members root) (hp : p ∈ members)
    (hpq : k.Descends p q) : q ∈ members := by
  induction hpq with
  | refl => exact hp
  | tail _ hab ih => exact h.closed _ ih _ hab

/-! ## Children -/

/-- Nobody is a child of two members. -/
theorem Lists.parent_unique (h : k.Lists members children) (hp : p ∈ members) (hq : q ∈ members)
    (hcp : c ∈ children p) (hcq : c ∈ children q) : p = q := by
  have hpp := ((h.mem p hp c).mp hcp).2
  have hqq := ((h.mem q hq c).mp hcq).2
  exact Option.some.inj (hpp.symm.trans hqq)

/-- The head of a chain is the first child, and so a child of no other member. -/
theorem Lists.head_notMem (h : k.Lists members children) (hp : p ∈ members) (hq : q ∈ members)
    (hne : q ≠ p) (hc : k.Chain y (k.cptr q) (children q)) :
    ∀ a ∈ children p, k.cptr q ≠ some a := by
  intro a ha hqa
  rw [hc.head?] at hqa
  exact hne (h.parent_unique hq hp (List.mem_of_head? hqa) ha)

theorem Family.orphaning (h : k.Family members root children) (hd : dying ∈ members) :
    k.Orphaning members root dying children :=
  ⟨h.toAncestry, h.toLists, fun p hp _ => h.chain p hp, none, h.chain dying hd⟩

theorem Siblings.leaving (h : k.Siblings members children) (hd : dying ∈ members) :
    k.Leaving members dying children :=
  ⟨h.toLists, h.closed, fun p hp _ => h.chain p hp, none, h.chain dying hd⟩

/-- When the last child is gone there is nothing stale any more. -/
theorem Leaving.siblings (h : k.Leaving members dying children) (hnil : children dying = []) :
    k.Siblings members children := by
  refine ⟨h.toLists, h.closed, fun p hp => ?_⟩
  by_cases hpd : p = dying
  · obtain ⟨y, hy⟩ := h.dyingChain
    rw [hpd]
    rw [hnil] at hy ⊢
    exact hy
  · exact h.chain p hp hpd

theorem Family.siblings (h : k.Family members root children) : k.Siblings members children :=
  ⟨h.toLists, h.closed, h.chain⟩

theorem Orphaning.leaving (h : k.Orphaning members root dying children) :
    k.Leaving members dying children := ⟨h.toLists, h.closed, h.chain, h.dyingChain⟩

theorem Orphaning.family (h : k.Orphaning members root dying children)
    (hnil : children dying = []) : k.Family members root children :=
  ⟨h.toAncestry, h.toLists, (h.leaving.siblings hnil).chain⟩

/-! ## Edits -/

variable [DecidableEq α]

/-- Make `c` the youngest child of `p`. -/
def push (k : Kin α) (p c : α) : Kin α where
  parent := Function.update k.parent c (some p)
  cptr := Function.update (Function.update k.cptr c none) p (some c)
  yptr x := if k.cptr p = some x then some c else if x = c then none else k.yptr x
  optr := Function.update k.optr c (k.cptr p)

/-- Take the youngest child `c` of `p` and make it the youngest child of `q`. -/
def adopt (k : Kin α) (p q c : α) : Kin α where
  parent := Function.update k.parent c (some q)
  cptr := Function.update (Function.update k.cptr p (k.optr c)) q (some c)
  yptr x := if k.cptr q = some x then some c else if x = c then none else k.yptr x
  optr := Function.update k.optr c (k.cptr q)

/-- Join the neighbours of `p`, or the parent and the older neighbour. -/
def remove (k : Kin α) (p : α) : Kin α where
  parent := k.parent
  cptr x := if k.yptr p = none ∧ k.parent p = some x then k.optr p else k.cptr x
  yptr x := if k.optr p = some x then k.yptr p else k.yptr x
  optr x := if k.yptr p = some x then k.optr p else k.optr x

/-- A chain with another node before its first one. -/
theorem Chain.reattach (h : k.Chain y o xs) (hnd : xs.Nodup) {y' : Option α}
    (hyptr : ∀ a ∈ xs, k'.yptr a = if o = some a then y' else k.yptr a)
    (hoptr : ∀ a ∈ xs, k'.optr a = k.optr a) : k'.Chain y' o xs := by
  cases xs with
  | nil => exact h
  | cons a xs =>
    obtain ⟨rfl, -, hxs⟩ := h
    obtain ⟨ha, -⟩ := List.nodup_cons.mp hnd
    refine ⟨rfl, ?_, ?_⟩
    · rw [hyptr a List.mem_cons_self, if_pos rfl]
    · rw [hoptr a List.mem_cons_self]
      refine hxs.congr (fun b hb => ?_) fun b hb => hoptr b (List.mem_cons_of_mem a hb)
      have hne : some a ≠ some b := fun hab => ha (Option.some.inj hab ▸ hb)
      rw [hyptr b (List.mem_cons_of_mem a hb), if_neg hne]

/-- A new youngest child. -/
theorem Chain.cons_front (h : k.Chain y o xs) (hnd : xs.Nodup) (hc : c ∉ xs)
    (hyptr : ∀ x ∈ c :: xs, k'.yptr x =
      if o = some x then some c else if x = c then none else k.yptr x)
    (hoptr : ∀ x ∈ c :: xs, k'.optr x = if x = c then o else k.optr x) :
    k'.Chain none (some c) (c :: xs) := by
  have hne : ∀ x ∈ xs, x ≠ c := fun x hx hxc => hc (hxc ▸ hx)
  have hoc : o ≠ some c := by
    rw [h.head?]
    exact fun hhead => hc (List.mem_of_head? hhead)
  refine ⟨rfl, ?_, ?_⟩
  · rw [hyptr c List.mem_cons_self, if_neg hoc, if_pos rfl]
  · rw [hoptr c List.mem_cons_self, if_pos rfl]
    refine h.reattach hnd (fun a ha => ?_) fun a ha => ?_
    · rw [hyptr a (List.mem_cons_of_mem c ha), if_neg (hne a ha)]
    · rw [hoptr a (List.mem_cons_of_mem c ha), if_neg (hne a ha)]

/-! ### A new child -/

/-- The children of everybody after `push`. -/
def pushed (children : α → List α) (p c : α) : α → List α :=
  Function.update (Function.update children c []) p (c :: children p)

theorem pushed_self : pushed children p c p = c :: children p := Function.update_self ..

theorem pushed_new (hpc : p ≠ c) : pushed children p c c = [] := by
  rw [pushed, Function.update_of_ne (Ne.symm hpc), Function.update_self]

theorem pushed_of_ne {r : α} (hrp : r ≠ p) (hrc : r ≠ c) : pushed children p c r = children r := by
  rw [pushed, Function.update_of_ne hrp, Function.update_of_ne hrc]

theorem closed_push (hp : p ∈ members)
    (h : ∀ x ∈ members, ∀ r, k.parent x = some r → r ∈ members) :
    ∀ x ∈ c :: members, ∀ r, (k.push p c).parent x = some r → r ∈ c :: members :=
  closed_redirect (fun x hx r hr => List.mem_cons_of_mem c (h x hx r hr))
    (List.mem_cons_of_mem c hp) (fun _ hx => Function.update_of_ne hx ..)
    (Function.update_self ..)

section Push
variable (hp : p ∈ members) (hc : c ∉ members)
include hp hc

theorem Ancestry.push (h : k.Ancestry members root) :
    (k.push p c).Ancestry (c :: members) root := by
  have hne : ∀ x ∈ members, x ≠ c := fun x hx hxc => hc (hxc ▸ hx)
  have hparent : ∀ x, x ≠ c → (k.push p c).parent x = k.parent x :=
    fun x hx => Function.update_of_ne hx ..
  have hnew : (k.push p c).parent c = some p := Function.update_self ..
  have hup : ∀ x ∈ members, (k.push p c).Descends x root := fun x hx =>
    (h.descends x hx).redirect hparent fun hxc => hc (h.mem_of_descends hx hxc)
  have hroot : root ∈ members := h.mem_of_descends hp (h.descends p hp)
  refine ⟨closed_push hp h.closed, ?_, ?_⟩
  · rw [hparent root (hne root hroot), h.top]
  · intro x hx
    rcases List.mem_cons.mp hx with rfl | hx
    · exact (hup p hp).head hnew
    · exact hup x hx

theorem Lists.push (h : k.Lists members children)
    (hclosed : ∀ x ∈ members, ∀ r, k.parent x = some r → r ∈ members) :
    (k.push p c).Lists (c :: members) (pushed children p c) := by
  have hpc : p ≠ c := fun hpc => hc (hpc ▸ hp)
  have hparent : ∀ x, x ≠ c → (k.push p c).parent x = k.parent x :=
    fun x hx => Function.update_of_ne hx ..
  have hnew : (k.push p c).parent c = some p := Function.update_self ..
  have hnotChild : ∀ r ∈ members, c ∉ children r := fun r hr hcr => hc ((h.mem r hr c).mp hcr).1
  constructor
  · intro r hr
    by_cases hrp : r = p
    · rw [hrp, pushed_self, List.nodup_cons]
      exact ⟨hnotChild p hp, h.nodup p hp⟩
    by_cases hrc : r = c
    · rw [hrc, pushed_new hpc]
      exact List.nodup_nil
    · rw [pushed_of_ne hrp hrc]
      exact h.nodup r (List.mem_of_ne_of_mem hrc hr)
  · intro r hr x
    by_cases hrc : r = c
    · -- the new node has no children yet
      rw [hrc, pushed_new hpc]
      refine iff_of_false (by simp) ?_
      rintro ⟨hx, hxc⟩
      by_cases hx' : x = c
      · rw [hx', hnew] at hxc
        exact hpc (Option.some.inj hxc)
      · rw [hparent x hx'] at hxc
        exact hc (hclosed x (List.mem_of_ne_of_mem hx' hx) c hxc)
    have hr' := List.mem_of_ne_of_mem hrc hr
    by_cases hxc : x = c
    · -- only `p` lists the new node
      rw [hxc, hnew, Option.some_inj]
      by_cases hrp : r = p
      · simp [hrp, pushed_self]
      · rw [pushed_of_ne hrp hrc]
        exact iff_of_false (hnotChild r hr') fun hx => hrp hx.2.symm
    · rw [hparent x hxc, List.mem_cons, or_iff_right hxc, ← h.mem r hr' x]
      by_cases hrp : r = p
      · rw [hrp, pushed_self, List.mem_cons, or_iff_right hxc]
      · rw [pushed_of_ne hrp hrc]

theorem Siblings.push (h : k.Siblings members children) :
    (k.push p c).Siblings (c :: members) (pushed children p c) := by
  have hpc : p ≠ c := fun hpc => hc (hpc ▸ hp)
  have hne : ∀ r ∈ members, ∀ x ∈ children r, x ≠ c :=
    fun r hr x hx hxc => hc (hxc ▸ ((h.mem r hr x).mp hx).1)
  refine ⟨h.toLists.push hp hc h.closed, closed_push hp h.closed, fun r hr => ?_⟩
  by_cases hrp : r = p
  · have hcptr : (k.push p c).cptr p = some c := Function.update_self ..
    rw [hrp, hcptr, pushed_self]
    exact (h.chain p hp).cons_front (h.nodup p hp) (fun hcp => hne p hp c hcp rfl)
      (fun x _ => rfl) fun x _ => Function.update_apply ..
  by_cases hrc : r = c
  · rw [hrc, pushed_new hpc, chain_nil]
    show Function.update (Function.update k.cptr c none) p (some c) c = none
    rw [Function.update_of_ne (Ne.symm hpc), Function.update_self]
  · have hr' := List.mem_of_ne_of_mem hrc hr
    have hcptr : (k.push p c).cptr r = k.cptr r := by
      show Function.update (Function.update k.cptr c none) p (some c) r = k.cptr r
      rw [Function.update_of_ne hrp, Function.update_of_ne hrc]
    rw [hcptr, pushed_of_ne hrp hrc]
    -- of the old nodes, only the former first child of `p` is written
    refine (h.chain r hr').congr (fun x hx => ?_) fun x hx => ?_
    · have hhead := h.head_notMem hr' hp (Ne.symm hrp) (h.chain p hp) x hx
      show (if k.cptr p = some x then some c else if x = c then none else k.yptr x) = k.yptr x
      rw [if_neg hhead, if_neg (hne r hr' x hx)]
    · exact Function.update_of_ne (hne r hr' x hx) ..

theorem Family.push (h : k.Family members root children) :
    (k.push p c).Family (c :: members) root (pushed children p c) :=
  have hs := h.siblings.push hp hc
  ⟨h.toAncestry.push hp hc, hs.toLists, hs.chain⟩

end Push

/-! ### A child that moves -/

/-- The children of everybody after `adopt`, which leaves `cs` to `p`. -/
def adopted (children : α → List α) (p q c : α) (cs : List α) : α → List α :=
  Function.update (Function.update children p cs) q (c :: children q)

theorem adopted_to {cs : List α} : adopted children p q c cs q = c :: children q :=
  Function.update_self ..

theorem adopted_from {cs : List α} (hqp : p ≠ q) : adopted children p q c cs p = cs := by
  rw [adopted, Function.update_of_ne hqp, Function.update_self]

theorem adopted_of_ne {r : α} {cs : List α} (hrp : r ≠ p) (hrq : r ≠ q) :
    adopted children p q c cs r = children r := by
  rw [adopted, Function.update_of_ne hrq, Function.update_of_ne hrp]

theorem Lists.adopt {cs : List α} (h : k.Lists members children) (hp : p ∈ members)
    (hq : q ∈ members) (hpq : p ≠ q) (hcs : children p = c :: cs) :
    (k.adopt p q c).Lists members (adopted children p q c cs) := by
  have hcp : c ∈ children p := hcs ▸ List.mem_cons_self
  obtain ⟨hcm, hparent⟩ := (h.mem p hp c).mp hcp
  have hnd := h.nodup p hp
  rw [hcs, List.nodup_cons] at hnd
  have hcq : ∀ r ∈ members, r ≠ p → c ∉ children r :=
    fun r hr hrp hcr => hrp (h.parent_unique hr hp hcr hcp)
  have hsame : ∀ x, x ≠ c → (k.adopt p q c).parent x = k.parent x :=
    fun x hx => Function.update_of_ne hx ..
  have hnew : (k.adopt p q c).parent c = some q := Function.update_self ..
  constructor
  · intro r hr
    by_cases hrq : r = q
    · rw [hrq, adopted_to, List.nodup_cons]
      exact ⟨hcq q hq (Ne.symm hpq), h.nodup q hq⟩
    by_cases hrp : r = p
    · rw [hrp, adopted_from hpq]
      exact hnd.2
    · rw [adopted_of_ne hrp hrq]
      exact h.nodup r hr
  · intro r hr x
    by_cases hxc : x = c
    · -- the child that moves is in the list of `q` and no other
      rw [hxc, hnew, Option.some_inj, and_iff_right hcm]
      by_cases hrq : r = q
      · simp [hrq, adopted_to]
      refine iff_of_false ?_ (Ne.symm hrq)
      by_cases hrp : r = p
      · rw [hrp, adopted_from hpq]
        exact hnd.1
      · rw [adopted_of_ne hrp hrq]
        exact hcq r hr hrp
    · rw [hsame x hxc, ← h.mem r hr x]
      by_cases hrq : r = q
      · rw [hrq, adopted_to, List.mem_cons, or_iff_right hxc]
      by_cases hrp : r = p
      · rw [hrp, adopted_from hpq, hcs, List.mem_cons, or_iff_right hxc]
      · rw [adopted_of_ne hrp hrq]

/-- The children of everybody but `q`, and but for `c`, lie away from the pointers that are
written. -/
theorem Lists.adopt_away (h : k.Lists members children) (hq : q ∈ members)
    (hchain : k.Chain none (k.cptr q) (children q)) {r x : α} (hr : r ∈ members) (hrq : r ≠ q)
    (hx : x ∈ children r) (hxc : x ≠ c) :
    (k.adopt p q c).yptr x = k.yptr x ∧ (k.adopt p q c).optr x = k.optr x := by
  constructor
  · show (if k.cptr q = some x then some c else if x = c then none else k.yptr x) = k.yptr x
    rw [if_neg (h.head_notMem hr hq (Ne.symm hrq) hchain x hx), if_neg hxc]
  · exact Function.update_of_ne hxc ..

/-- One child moves from `p` to `q`. -/
theorem Leaving.adopt {cs : List α} (h : k.Leaving members p children) (hp : p ∈ members)
    (hq : q ∈ members) (hpq : p ≠ q) (hcs : children p = c :: cs) :
    (k.adopt p q c).Leaving members p (adopted children p q c cs) := by
  have hcp : c ∈ children p := hcs ▸ List.mem_cons_self
  have hchain : k.Chain none (k.cptr q) (children q) := h.chain q hq (Ne.symm hpq)
  refine ⟨h.toLists.adopt hp hq hpq hcs, fun x hx => closed_redirect h.closed hq
    (fun x hx => Function.update_of_ne hx ..) (Function.update_self ..) x
    (List.mem_cons_of_mem c hx), fun r hr hrp => ?_, ?_⟩
  · -- the chain of `q` has a new front, those of the others are what they were
    by_cases hrq : r = q
    · have hcptr : (k.adopt p q c).cptr q = some c := Function.update_self ..
      have hnot : c ∉ children q := fun hcq' => hpq (h.parent_unique hp hq hcp hcq')
      rw [hrq, hcptr, adopted_to]
      exact hchain.cons_front (h.nodup q hq) hnot (fun x _ => rfl)
        fun x _ => Function.update_apply ..
    · have hcptr : (k.adopt p q c).cptr r = k.cptr r := by
        show Function.update (Function.update k.cptr p (k.optr c)) q (some c) r = k.cptr r
        rw [Function.update_of_ne hrq, Function.update_of_ne hrp]
      have hne : ∀ x ∈ children r, x ≠ c :=
        fun x hx hxc => hrp (h.parent_unique hr hp (hxc ▸ hx) hcp)
      have haway := fun x hx => h.toLists.adopt_away (p := p) hq hchain hr hrq hx (hne x hx)
      rw [hcptr, adopted_of_ne hrp hrq]
      exact (h.chain r hr hrp).congr (fun x hx => (haway x hx).1) fun x hx => (haway x hx).2
  · -- what is left of the chain of `p` begins behind `c`
    obtain ⟨y, hy⟩ := h.dyingChain
    have hnd := h.nodup p hp
    rw [hcs] at hy hnd
    have hne : ∀ x ∈ cs, x ≠ c := fun x hx hxc => (List.nodup_cons.mp hnd).1 (hxc ▸ hx)
    have haway := fun x (hx : x ∈ cs) => h.toLists.adopt_away (p := p) hq hchain hp hpq
      (hcs ▸ List.mem_cons_of_mem c hx) (hne x hx)
    have hcptr : (k.adopt p q c).cptr p = k.optr c := by
      show Function.update (Function.update k.cptr p (k.optr c)) q (some c) p = k.optr c
      rw [Function.update_of_ne hpq, Function.update_self]
    refine ⟨some c, ?_⟩
    rw [hcptr, adopted_from hpq]
    exact hy.2.2.congr (fun x hx => (haway x hx).1) fun x hx => (haway x hx).2

/-- The same in a family, in which `q` must not be below `p`. -/
theorem Orphaning.adopt {cs : List α} (h : k.Orphaning members root p children)
    (hp : p ∈ members) (hq : q ∈ members) (hqp : ¬ k.Descends q p) (hcs : children p = c :: cs) :
    (k.adopt p q c).Orphaning members root p (adopted children p q c cs) ∧
      ¬ (k.adopt p q c).Descends q p := by
  have hpq : p ≠ q := by
    rintro rfl
    exact hqp (Descends.refl k p)
  have hcp : c ∈ children p := hcs ▸ List.mem_cons_self
  obtain ⟨hcm, hparent⟩ := (h.mem p hp c).mp hcp
  have hup : k.Descends c p := (Descends.refl k p).head hparent
  have hsame : ∀ x, x ≠ c → (k.adopt p q c).parent x = k.parent x :=
    fun x hx => Function.update_of_ne hx ..
  have hcq : ¬ k.Descends q c := fun hqc => hqp (Relation.ReflTransGen.trans hqc hup)
  have hroot : c ≠ root := by
    rintro rfl
    exact absurd (h.top.symm.trans hparent) (by simp)
  have hleaving := h.leaving.adopt hp hq hpq hcs
  refine ⟨⟨h.toAncestry.redirect hq hsame (Function.update_self ..) hcq hroot, hleaving.toLists,
    hleaving.chain, hleaving.dyingChain⟩, fun hqp' => hqp (Descends.of_redirect hsame hup hqp')⟩

/-! ### A member that goes -/

/-- `remove` in the chain that `p` is in. -/
theorem Chain.remove (h : k.Chain y o (as ++ p :: bs)) (hnd : (as ++ p :: bs).Nodup)
    (hy : ∀ x ∈ bs, y ≠ some x) :
    (k.remove p).Chain y (if as = [] then k.optr p else o) (as ++ bs) := by
  -- on what is before `p`; behind `p` only the first `yptr` changes
  induction as generalizing y o with
  | nil =>
    obtain ⟨-, hyp, hbs⟩ := h
    refine hbs.reattach (List.nodup_cons.mp hnd).2 (fun x _ => ?_) fun x hx => ?_
    · show (if k.optr p = some x then k.yptr p else k.yptr x) = _
      rw [hyp]
    · show (if k.yptr p = some x then k.optr p else k.optr x) = _
      rw [hyp, if_neg (hy x hx)]
  | cons a as ih =>
    have hoptr := h.optr_eq
    have hyptr := Chain.yptr_eq h.2.2
    obtain ⟨ho, hya, hrest⟩ := h
    rw [List.cons_append, List.nodup_cons] at hnd
    have hbs : ∀ x ∈ bs, some a ≠ some x := by
      intro x hx hax
      refine hnd.1 ?_
      rw [Option.some.inj hax]
      simp [hx]
    have hne : k.optr p ≠ some a := by
      rw [hoptr]
      exact fun hhead => hbs a (List.mem_of_head? hhead) rfl
    have hnext : (k.remove p).optr a = if as = [] then k.optr p else k.optr a := by
      show (if k.yptr p = some a then k.optr p else k.optr a) = _
      rw [hyptr]
      cases has : as.getLast? with
      | none => simp [List.getLast?_eq_none_iff.mp has]
      | some b =>
        have hb := List.mem_of_getLast? has
        have hba : b ≠ a := fun hba => hnd.1 (List.mem_append_left _ (hba ▸ hb))
        rw [Option.some_or, if_neg (fun heq => hba (Option.some.inj heq)),
          if_neg (List.ne_nil_of_mem hb)]
    rw [if_neg (List.cons_ne_nil a as)]
    refine ⟨ho, ?_, ?_⟩
    · show (if k.optr p = some a then k.yptr p else k.yptr a) = y
      rw [if_neg hne, hya]
    · rw [hnext]
      exact ih hrest hnd.2 hbs

/-- `remove` in a chain that neither `p` nor its neighbours are in. -/
theorem Chain.remove_away {o' : Option α} (h : k.Chain y o xs)
    (hp : k.Chain none o' (as ++ p :: bs)) (hnot : ∀ x ∈ as ++ p :: bs, x ∉ xs) :
    (k.remove p).Chain y o xs := by
  refine h.congr (fun x hx => ?_) fun x hx => ?_
  · show (if k.optr p = some x then k.yptr p else k.yptr x) = k.yptr x
    rw [if_neg]
    intro hox
    rw [hp.optr_eq] at hox
    exact hnot x (by simp [List.mem_of_head? hox]) hx
  · show (if k.yptr p = some x then k.optr p else k.optr x) = k.optr x
    rw [if_neg]
    intro hyx
    rw [hp.yptr_eq, Option.or_none] at hyx
    exact hnot x (by simp [List.mem_of_getLast? hyx]) hx

theorem Family.remove {g : α} (h : k.Family members root children) (hnd : members.Nodup)
    (hp : p ∈ members) (hg : k.parent p = some g) (hnil : children p = []) :
    (k.remove p).Family (members.erase p) root fun r => (children r).erase p := by
  have hgm := h.closed p hp g hg
  have hchild : ∀ x ∈ members, k.parent x ≠ some p := fun x hx hxp => by
    have hmem := (h.mem p hp x).mpr ⟨hx, hxp⟩
    rw [hnil] at hmem
    exact absurd hmem (by simp)
  have hpg : p ∈ children g := (h.mem g hgm p).mpr ⟨hp, hg⟩
  have hmem : ∀ {x}, x ∈ members.erase p ↔ x ≠ p ∧ x ∈ members := hnd.mem_erase_iff
  refine ⟨⟨fun x hx r hr => ?_, h.top, fun x hx => ?_⟩, ⟨fun r hr => ?_, fun r hr x => ?_⟩,
    fun r hr => ?_⟩
  · have hx' := (hmem.mp hx).2
    exact hmem.mpr ⟨fun hrp => hchild x hx' (hrp ▸ hr), h.closed x hx' r hr⟩
  · exact h.descends x (hmem.mp hx).2
  · exact (h.nodup r (hmem.mp hr).2).erase p
  · have hr' := (hmem.mp hr).2
    rw [(h.nodup r hr').mem_erase_iff, h.mem r hr' x, hmem, and_assoc]
    exact Iff.rfl
  · have hr' := (hmem.mp hr).2
    obtain ⟨as, bs, hsplit⟩ := List.append_of_mem hpg
    have hchain := h.chain g hgm
    have hndg := h.nodup g hgm
    rw [hsplit] at hchain hndg
    -- `p` was in the chain of its parent, and the two pointers written are in that chain too
    by_cases hrg : r = g
    · have hcptr : (k.remove p).cptr g = if as = [] then k.optr p else k.cptr g := by
        show (if k.yptr p = none ∧ k.parent p = some g then k.optr p else k.cptr g) = _
        rw [hchain.yptr_eq]
        simp [hg]
      have hpas : p ∉ as := fun hpa => (List.nodup_append.mp hndg).2.2 p hpa p (by simp) rfl
      rw [hrg, hcptr, hsplit, List.erase_append_right _ hpas, List.erase_cons_head]
      exact hchain.remove hndg (by simp)
    · have hcptr : (k.remove p).cptr r = k.cptr r := by
        show (if k.yptr p = none ∧ k.parent p = some r then k.optr p else k.cptr r) = _
        rw [if_neg]
        rintro ⟨-, hpr⟩
        exact hrg (Option.some.inj (hpr.symm.trans hg))
      have hnot : ∀ x ∈ children g, x ∉ children r :=
        fun x hxg hxr => hrg (h.parent_unique hr' hgm hxr hxg)
      rw [hcptr, List.erase_of_not_mem (hnot p hpg)]
      exact (h.chain r hr').remove_away hchain (hsplit ▸ hnot)

end Kin
end Zonix.Lib
