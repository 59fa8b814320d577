import Zonix.Lib.Links
import Mathlib.Data.List.InsertIdx

/-!
# Several circular lists in one memory

`m.Rings heads seq` says that the memory holds a ring for every head of a set, that its entries are
those of the sequence `seq h`, and that no entry is on two rings. An operation on one ring changes
one sequence (`Turns`). For that it is enough that the ring is there afterwards, and that the links
of the other rings are not touched (`Rings.turns`).

The sequences have operations of their own: `insertBefore`, `insertAfter` and `List.erase`. The head
stands at both ends of its sequence, so an insertion before it is one at the end, and an insertion
after it is one at the front.
-/

namespace Zonix.Lib.Links

variable {ε : Type*}

/-- The entry `e` is on none of the lists. -/
def Fresh (heads : Set ε) (seq : ε → List ε) (e : ε) : Prop := ∀ h ∈ heads, e ∉ h :: seq h

/-- A ring for every head, and no two of them share an entry. -/
structure Rings (m : Links ε) (heads : Set ε) (seq : ε → List ε) : Prop where
  ring : ∀ h ∈ heads, m.Ring h (seq h)
  disjoint : ∀ h ∈ heads, ∀ h' ∈ heads, h ≠ h' → ∀ e ∈ h :: seq h, e ∉ h' :: seq h'

/-! ## The two directions -/

section
variable {m : Links ε} {h e : ε} {xs : List ε}

/-- An entry of a ring ends a part of it. -/
theorem exists_cut_after (he : e ∈ h :: xs) :
    ∃ as bs, xs = as ++ bs ∧ (h :: as).getLast? = some e := by
  rcases List.mem_cons.mp he with rfl | he
  · exact ⟨[], xs, rfl, rfl⟩
  · obtain ⟨as, bs, rfl⟩ := List.append_of_mem he
    exact ⟨as ++ [e], bs, List.append_cons as e bs, getLast?_cons_concat h e as⟩

/-- An entry of a ring begins a part of it. -/
theorem exists_cut_before (he : e ∈ h :: xs) :
    ∃ as bs, xs = as ++ bs ∧ (bs ++ [h]).head? = some e := by
  rcases List.mem_cons.mp he with rfl | he
  · exact ⟨xs, [], (List.append_nil xs).symm, rfl⟩
  · obtain ⟨as, bs, rfl⟩ := List.append_of_mem he
    exact ⟨as, e :: bs, rfl, rfl⟩

theorem Ring.prev_next (hr : m.Ring h xs) (he : e ∈ h :: xs) : m.prev (m.next e) = e := by
  obtain ⟨as, bs, rfl, hlast⟩ := exists_cut_after he
  obtain ⟨b, hb⟩ : ∃ b, (bs ++ [h]).head? = some b := ⟨_, List.head?_eq_some_head (by simp)⟩
  rw [hr.next_eq hlast hb, hr.prev_eq hlast hb]

theorem Ring.next_prev (hr : m.Ring h xs) (he : e ∈ h :: xs) : m.next (m.prev e) = e := by
  obtain ⟨as, bs, rfl, hhead⟩ := exists_cut_before he
  obtain ⟨a, ha⟩ : ∃ a, (h :: as).getLast? = some a := ⟨_, List.getLast?_eq_some_getLast (by simp)⟩
  rw [hr.prev_eq ha hhead, hr.next_eq ha hhead]

/-- An entry is not its own neighbour. -/
theorem Ring.notMem_neighbours (hr : m.Ring h xs) (he : e ∈ xs) :
    e ∉ ({m.prev e, m.next e} : Set ε) := by
  have hne : m.prev e ≠ e := by
    obtain ⟨as, bs, rfl⟩ := List.append_of_mem he
    exact hr.prev_ne
  rintro (heq | heq)
  · exact hne heq.symm
  · have hback := hr.prev_next (List.mem_cons_of_mem h he)
    rw [← heq] at hback
    exact hne hback

end

/-! ## Operations on one ring -/

variable [DecidableEq ε]

/-- `m'` is `m` with the sequence of the head `h` turned into `xs`: the rings are there, `next` and
`prev` are inverse on each of them, and the links of the others are what they were. -/
structure Turns (m m' : Links ε) (heads : Set ε) (seq : ε → List ε) (h : ε) (xs : List ε) :
    Prop where
  rings : m'.Rings heads (Function.update seq h xs)
  inverse : ∀ h' ∈ heads, ∀ e ∈ h' :: Function.update seq h xs h',
    m'.prev (m'.next e) = e ∧ m'.next (m'.prev e) = e
  others : ∀ h' ∈ heads, h' ≠ h → ∀ e ∈ h' :: seq h',
    m'.next e = m.next e ∧ m'.prev e = m.prev e

section
variable {m m' : Links ε} {heads : Set ε} {seq : ε → List ε} {h : ε} {xs : List ε} {S : Set ε}

/-- The entries that an operation touches, and those of the ring that it leaves, are of its own ring
or fresh. -/
theorem Rings.turns (hm : m.Rings heads seq) (hh : h ∈ heads) (hS : SameOff S m m')
    (hown : ∀ e ∈ S, e ∈ h :: seq h ∨ Fresh heads seq e) (hr : m'.Ring h xs)
    (hxs : ∀ e ∈ xs, e ∈ h :: seq h ∨ Fresh heads seq e) : Turns m m' heads seq h xs := by
  have hoff : ∀ e, e ∈ h :: seq h ∨ Fresh heads seq e →
      ∀ h' ∈ heads, h' ≠ h → e ∉ h' :: seq h' := by
    rintro e (he | he) h' hh' hne
    · exact hm.disjoint h hh h' hh' hne.symm e he
    · exact he h' hh'
  have hsame : ∀ h' ∈ heads, h' ≠ h → ∀ e ∈ h' :: seq h', e ∉ S :=
    fun h' hh' hne e he heS => hoff e (hown e heS) h' hh' hne he
  have hrings : m'.Rings heads (Function.update seq h xs) := by
    refine ⟨fun h' hh' => ?_, fun h₁ hh₁ h₂ hh₂ hne e he₁ => ?_⟩
    · by_cases hne : h' = h
      · rw [hne, Function.update_self]
        exact hr
      · rw [Function.update_of_ne hne]
        exact (hm.ring h' hh').frame hS (hsame h' hh' hne h' List.mem_cons_self)
          fun e he => hsame h' hh' hne e (List.mem_cons_of_mem h' he)
    · have hnew : ∀ e ∈ h :: xs, e ∈ h :: seq h ∨ Fresh heads seq e := by
        intro e he
        rcases List.mem_cons.mp he with rfl | he
        · exact Or.inl List.mem_cons_self
        · exact hxs e he
      -- one of the two rings is the one that changed, or neither is
      by_cases hne₁ : h₁ = h
      · subst hne₁
        rw [Function.update_self] at he₁
        rw [Function.update_of_ne hne.symm]
        exact hoff e (hnew e he₁) h₂ hh₂ hne.symm
      · rw [Function.update_of_ne hne₁] at he₁
        by_cases hne₂ : h₂ = h
        · subst hne₂
          rw [Function.update_self]
          exact fun he₂ => hoff e (hnew e he₂) h₁ hh₁ hne₁ he₁
        · rw [Function.update_of_ne hne₂]
          exact hm.disjoint h₁ hh₁ h₂ hh₂ hne e he₁
  exact ⟨hrings,
    fun h' hh' e he => ⟨(hrings.ring h' hh').prev_next he, (hrings.ring h' hh').next_prev he⟩,
    fun h' hh' hne e he => hS e (hsame h' hh' hne e he)⟩

end

/-! ## Operations on a sequence -/

/-- `elm` right before `l`, in the sequence with the head at its end. -/
def insertBefore (h l elm : ε) (xs : List ε) : List ε := xs.insertIdx ((xs ++ [h]).idxOf l) elm

/-- `elm` right after `l`, in the sequence with the head at its front. -/
def insertAfter (h l elm : ε) (xs : List ε) : List ε := xs.insertIdx ((h :: xs).idxOf l) elm

section
variable {h l elm : ε} {as bs : List ε}

omit [DecidableEq ε] in
theorem insertIdx_length (as bs : List ε) (elm : ε) :
    (as ++ bs).insertIdx as.length elm = as ++ elm :: bs := by
  induction as with
  | nil => rfl
  | cons a as ih =>
    rw [List.cons_append, List.length_cons, List.insertIdx_succ_cons, ih]
    rfl

theorem insertBefore_eq (hnd : (h :: (as ++ bs)).Nodup) (hl : (bs ++ [h]).head? = some l) :
    insertBefore h l elm (as ++ bs) = as ++ elm :: bs := by
  have hmem : l ∉ as := by
    intro hmem
    have hwhole : (as ++ (bs ++ [h])).Nodup := by
      rw [← List.append_assoc]
      exact (List.perm_append_singleton h (as ++ bs)).nodup_iff.mpr hnd
    exact (List.nodup_append.mp hwhole).2.2 l hmem l (List.mem_of_head? hl) rfl
  have hpos : (as ++ bs ++ [h]).idxOf l = as.length := by
    obtain ⟨tl, htl⟩ : ∃ tl, bs ++ [h] = l :: tl := List.head?_eq_some_iff.mp hl
    rw [List.append_assoc, List.idxOf_append_of_notMem hmem, htl, List.idxOf_cons_self]
    rfl
  rw [insertBefore, hpos, insertIdx_length]

theorem insertAfter_eq (hnd : (h :: (as ++ bs)).Nodup) (hl : (h :: as).getLast? = some l) :
    insertAfter h l elm (as ++ bs) = as ++ elm :: bs := by
  have hpos : (h :: (as ++ bs)).idxOf l = as.length := by
    obtain ⟨init, hinit⟩ : ∃ init, h :: as = init ++ [l] := List.getLast?_eq_some_iff.mp hl
    have hlen : as.length = init.length := by
      have hlengths := congrArg List.length hinit
      rw [List.length_cons, List.length_append, List.length_singleton] at hlengths
      omega
    rw [← List.cons_append, hinit, List.append_assoc] at hnd
    have hmem : l ∉ init := fun hmem =>
      (List.nodup_append.mp hnd).2.2 l hmem l List.mem_cons_self rfl
    rw [← List.cons_append, hinit, List.append_assoc, List.idxOf_append_of_notMem hmem, hlen]
    simp
  rw [insertAfter, hpos, insertIdx_length]

end
end Zonix.Lib.Links
