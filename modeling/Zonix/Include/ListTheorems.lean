import Zonix.Include.List
import Zonix.Lib.Machine
import Zonix.Lib.Rings

/-!
# The lists of `list.h` are sequences

A memory holds any number of circular lists. An operation on an entry of one of them is the
operation of the same name on the sequence of that list, and nothing else changes. So any run of
operations keeps the lists, and leads to the sequences that the same run on sequences leads to.
-/

namespace Zonix
open Lib Lib.Links

variable {ε : Type*} {m : Links ε} {heads : Set ε} {seq : ε → List ε} {h : ε}

/-- What an insertion puts on the list of `h` was on it before, or is the fresh entry. -/
theorem mem_inserted {elm : ε} (hnew : Fresh heads seq elm) {as bs : List ε}
    (hseq : seq h = as ++ bs) :
    ∀ e ∈ as ++ elm :: bs, e ∈ h :: seq h ∨ Fresh heads seq e := by
  intro e he
  have hcases : e ∈ as ++ bs ∨ e = elm := by
    simp only [List.mem_append, List.mem_cons] at he ⊢
    tauto
  rcases hcases with he | rfl
  · exact Or.inl (List.mem_cons_of_mem h (hseq ▸ he))
  · exact Or.inr hnew

/-- An insertion touches the fresh entry and its two neighbours. -/
theorem own_inserted {elm a b : ε} (hnew : Fresh heads seq elm) (ha : a ∈ h :: seq h)
    (hb : b ∈ h :: seq h) :
    ∀ e ∈ ({elm, a, b} : Set ε), e ∈ h :: seq h ∨ Fresh heads seq e := by
  rintro e (rfl | rfl | rfl)
  · exact Or.inr hnew
  · exact Or.inl ha
  · exact Or.inl hb

variable [DecidableEq ε]

theorem listAddBefore_turns (hm : m.Rings heads seq) (hh : h ∈ heads) {l elm : ε}
    (hl : l ∈ h :: seq h) (hnew : Fresh heads seq elm) :
    Turns m (listAddBefore m l elm) heads seq h (insertBefore h l elm (seq h)) := by
  have hr := hm.ring h hh
  obtain ⟨as, bs, hseq, hhead⟩ := exists_cut_before hl
  rw [hseq] at hr
  have hspec : insertBefore h l elm (seq h) = as ++ elm :: bs := by
    rw [hseq]
    exact insertBefore_eq hr.nodup hhead
  have hnew' : elm ∉ h :: (as ++ bs) := hseq ▸ hnew h hh
  rw [hspec]
  exact hm.turns hh (listAddBefore_sameOff m l elm)
    (own_inserted hnew ((hm.ring h hh).prev_mem hl) hl) (listAddBefore_ring hr hnew' hhead)
    (mem_inserted hnew hseq)

theorem listAddAfter_turns (hm : m.Rings heads seq) (hh : h ∈ heads) {l elm : ε}
    (hl : l ∈ h :: seq h) (hnew : Fresh heads seq elm) :
    Turns m (listAddAfter m l elm) heads seq h (insertAfter h l elm (seq h)) := by
  have hr := hm.ring h hh
  obtain ⟨as, bs, hseq, hlast⟩ := exists_cut_after hl
  rw [hseq] at hr
  have hspec : insertAfter h l elm (seq h) = as ++ elm :: bs := by
    rw [hseq]
    exact insertAfter_eq hr.nodup hlast
  have hnew' : elm ∉ h :: (as ++ bs) := hseq ▸ hnew h hh
  rw [hspec]
  exact hm.turns hh (listAdd_sameOff m l elm)
    (own_inserted hnew hl ((hm.ring h hh).next_mem hl)) (listAdd_ring hr hnew' hlast)
    (mem_inserted hnew hseq)

theorem listDel_turns (hm : m.Rings heads seq) (hh : h ∈ heads) {x : ε} (hx : x ∈ seq h) :
    Turns m (listDel m x) heads seq h ((seq h).erase x) := by
  have hr := hm.ring h hh
  have hmem : x ∈ h :: seq h := List.mem_cons_of_mem h hx
  have hown : ∀ e ∈ ({m.prev x, m.next x} : Set ε), e ∈ h :: seq h ∨ Fresh heads seq e := by
    rintro e (rfl | rfl)
    · exact Or.inl (hr.prev_mem hmem)
    · exact Or.inl (hr.next_mem hmem)
  have hleft : ∀ e ∈ (seq h).erase x, e ∈ h :: seq h ∨ Fresh heads seq e := fun e he =>
    Or.inl (List.mem_cons_of_mem h (List.mem_of_mem_erase he))
  exact hm.turns hh (listDel_sameOff m x) hown (listDel_erase hr hx) hleft

/-- The operations on a list are operations on its sequence: inserting an entry that is on no list,
before or after an entry or the head, and deleting an entry. -/
theorem lists_refine_sequences (hm : m.Rings heads seq) (hh : h ∈ heads) :
    (∀ l ∈ h :: seq h, ∀ elm, Fresh heads seq elm →
      Turns m (listAddBefore m l elm) heads seq h (insertBefore h l elm (seq h)) ∧
      Turns m (listAddAfter m l elm) heads seq h (insertAfter h l elm (seq h)) ∧
      Turns m (listAdd m l elm) heads seq h (insertAfter h l elm (seq h))) ∧
    ∀ x ∈ seq h, Turns m (listDel m x) heads seq h ((seq h).erase x) :=
  ⟨fun _ hl _ hnew => ⟨listAddBefore_turns hm hh hl hnew, listAddAfter_turns hm hh hl hnew,
    listAddAfter_turns hm hh hl hnew⟩, fun _ hx => listDel_turns hm hh hx⟩

/-! ## Runs -/

/-- An operation on the list of `h`. -/
inductive ListOp (ε : Type*)
  | addBefore (h l elm : ε)
  | addAfter (h l elm : ε)
  | del (h x : ε)

namespace ListOp

def exec (m : Links ε) : ListOp ε → Links ε
  | .addBefore _ l elm => listAddBefore m l elm
  | .addAfter _ l elm => listAddAfter m l elm
  | .del _ x => listDel m x

def onSeq (seq : ε → List ε) : ListOp ε → ε → List ε
  | .addBefore h l elm => Function.update seq h (insertBefore h l elm (seq h))
  | .addAfter h l elm => Function.update seq h (insertAfter h l elm (seq h))
  | .del h x => Function.update seq h ((seq h).erase x)

/-- What the callers owe: an entry is inserted next to one of the list, and is on no list before; an
entry that is deleted is on the list. -/
def ok (heads : Set ε) (seq : ε → List ε) : ListOp ε → Prop
  | .addBefore h l elm => h ∈ heads ∧ l ∈ h :: seq h ∧ Fresh heads seq elm
  | .addAfter h l elm => h ∈ heads ∧ l ∈ h :: seq h ∧ Fresh heads seq elm
  | .del h x => h ∈ heads ∧ x ∈ seq h

theorem exec_rings (hm : m.Rings heads seq) {op : ListOp ε} (hok : op.ok heads seq) :
    (op.exec m).Rings heads (op.onSeq seq) := by
  cases op with
  | addBefore h l elm => exact (listAddBefore_turns hm hok.1 hok.2.1 hok.2.2).rings
  | addAfter h l elm => exact (listAddAfter_turns hm hok.1 hok.2.1 hok.2.2).rings
  | del h x => exact (listDel_turns hm hok.1 hok.2).rings

/-- A run of operations refines the run on the sequences. -/
theorem run_rings (hm : m.Rings heads seq) {ops : List (ListOp ε)}
    (hok : Allowed (fun seq op => some (onSeq seq op)) (ok heads) ops seq) :
    (ops.foldl exec m).Rings heads (ops.foldl onSeq seq) := by
  induction ops generalizing m seq with
  | nil => exact hm
  | cons op ops ih => exact ih (exec_rings hm hok.1) (hok.2 _ rfl)

end ListOp

/-! ## Two lists -/

/-- Every entry is alone. -/
def aloneLinks : Links ℕ := ⟨id, id⟩

theorem aloneLinks_rings (heads : Set ℕ) : aloneLinks.Rings heads fun _ => [] := by
  refine ⟨fun h _ => ⟨by simp, ?_⟩, fun h _ h' _ hne e he => ?_⟩
  · exact List.IsChain.cons_cons ⟨rfl, rfl⟩ (List.IsChain.singleton h)
  · rw [List.mem_singleton] at he ⊢
    rw [he]
    exact hne

/-- The list of 0 holds 1 and 2, and the list of 10 is empty. -/
def twoLists : Links ℕ := listAddBefore (listAddBefore aloneLinks 0 1) 0 2

def twoSeq : ℕ → List ℕ := Function.update (fun _ => []) 0 [1, 2]

theorem twoLists_rings : twoLists.Rings {0, 10} twoSeq := by
  have hone : Turns aloneLinks (listAddBefore aloneLinks 0 1) {0, 10} (fun _ => []) 0 [1] :=
    listAddBefore_turns (aloneLinks_rings {0, 10}) (by simp) (by simp) (by simp [Fresh])
  have htwo : Turns (listAddBefore aloneLinks 0 1) twoLists {0, 10}
      (Function.update (fun _ => []) 0 [1]) 0 [1, 2] :=
    listAddBefore_turns hone.rings (by simp) (by simp) (by simp [Fresh])
  have hseq := htwo.rings
  rw [Function.update_idem] at hseq
  exact hseq

theorem lists_refine_sequences_two :
    Turns twoLists (listAddBefore twoLists 2 3) {0, 10} twoSeq 0 [1, 3, 2] ∧
      Turns twoLists (listAddAfter twoLists 2 3) {0, 10} twoSeq 0 [1, 2, 3] ∧
      Turns twoLists (listDel twoLists 1) {0, 10} twoSeq 0 [2] := by
  have hall := lists_refine_sequences twoLists_rings (show (0 : ℕ) ∈ ({0, 10} : Set ℕ) by simp)
  have hadd := hall.1 2 (by simp [twoSeq]) 3 (by simp [Fresh, twoSeq])
  exact ⟨hadd.1, hadd.2.1, hall.2 1 (by simp [twoSeq])⟩

end Zonix
