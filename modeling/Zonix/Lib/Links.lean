import Mathlib.Data.List.Chain
import Mathlib.Logic.Function.Basic
import Mathlib.Data.Set.Insert

/-!
# Intrusive circular doubly-linked lists

A memory of list entries is a pair of link fields for every entry of an arbitrary type
`ε`. Nothing says that the links of an entry make sense: that is what a *ring* is for.
`m.Ring h xs` says that following `next` from the head `h` visits exactly `xs` and comes
back to `h`, that no entry is visited twice, and that `prev` is the way back.

Two ring edits are all a list library needs: `insertBetween`, which puts an entry between
two neighbours, and `bridge`, which joins the two neighbours of an entry that leaves. The
ring lemmas speak of the sequence of entries, cut where the edit happens. `SameOff` is the
frame condition the edits (and whatever is built from them) report: the entries whose
links may have changed.
-/

namespace Zonix.Lib

/-- The two link fields of every entry. -/
structure Links (ε : Type*) where
  next : ε → ε
  prev : ε → ε

namespace Links

variable {ε : Type*}

/-- `b` follows `a`, in both directions. -/
def Adj (m : Links ε) (a b : ε) : Prop :=
  m.next a = b ∧ m.prev b = a

/-- From the head `h`, the links visit `xs` once each and return to `h`. -/
structure Ring (m : Links ε) (h : ε) (xs : List ε) : Prop where
  nodup : (h :: xs).Nodup
  chain : (h :: (xs ++ [h])).IsChain m.Adj

/-- The entries that a walk along `next` meets before it is back at `h`. -/
inductive OnList (m : Links ε) (h : ε) : ε → Prop
  | first : m.next h ≠ h → OnList m h (m.next h)
  | step {e : ε} : OnList m h e → m.next e ≠ h → OnList m h (m.next e)

/-- The two memories agree on every entry outside `S`. -/
def SameOff (S : Set ε) (m m' : Links ε) : Prop :=
  ∀ e ∉ S, m'.next e = m.next e ∧ m'.prev e = m.prev e

/-! ## Reading a ring -/

theorem getLast?_cons_concat (h a : ε) (as : List ε) : (h :: (as ++ [a])).getLast? = some a := by
  rw [← List.cons_append, List.getLast?_concat]

theorem Ring.adj {m : Links ε} {h : ε} {as bs : List ε} (hr : m.Ring h (as ++ bs)) :
    m.Adj ((h :: as).getLast (by simp)) ((bs ++ [h]).head (by simp)) := by
  have hc := hr.chain
  rw [List.append_assoc, ← List.cons_append] at hc
  exact hc.rel_getLast_head_of_append (by simp) (by simp)

/-- The entry after the last one of a prefix is the first one of the rest. -/
theorem Ring.next_eq {m : Links ε} {h a b : ε} {as bs : List ε} (hr : m.Ring h (as ++ bs))
    (ha : (h :: as).getLast? = some a) (hb : (bs ++ [h]).head? = some b) : m.next a = b := by
  have hadj := hr.adj.1
  rw [List.getLast?_eq_some_getLast (by simp), Option.some_inj] at ha
  rw [List.head?_eq_some_head (by simp), Option.some_inj] at hb
  rwa [ha, hb] at hadj

/-- The entry before the first one of a suffix is the last one of the rest. -/
theorem Ring.prev_eq {m : Links ε} {h a b : ε} {as bs : List ε} (hr : m.Ring h (as ++ bs))
    (ha : (h :: as).getLast? = some a) (hb : (bs ++ [h]).head? = some b) : m.prev b = a := by
  have hadj := hr.adj.2
  rw [List.getLast?_eq_some_getLast (by simp), Option.some_inj] at ha
  rw [List.head?_eq_some_head (by simp), Option.some_inj] at hb
  rwa [ha, hb] at hadj

theorem Ring.next_head {m : Links ε} {h b : ε} {xs : List ε} (hr : m.Ring h xs)
    (hb : (xs ++ [h]).head? = some b) : m.next h = b := by
  have hr' : m.Ring h ([] ++ xs) := hr
  exact hr'.next_eq rfl hb

/-- The ring is empty when the head is followed by itself. -/
theorem Ring.next_eq_head_iff {m : Links ε} {h : ε} {xs : List ε} (hr : m.Ring h xs) :
    m.next h = h ↔ xs = [] := by
  cases xs with
  | nil => exact iff_of_true (hr.next_head rfl) rfl
  | cons x xs =>
    have hnext : m.next h = x := hr.next_head rfl
    rw [hnext]
    refine iff_of_false ?_ (List.cons_ne_nil x xs)
    rintro rfl
    exact (List.nodup_cons.mp hr.nodup).1 List.mem_cons_self

theorem Ring.prev_head {m : Links ε} {h a : ε} {xs : List ε} (hr : m.Ring h xs)
    (ha : (h :: xs).getLast? = some a) : m.prev h = a := by
  have hr' : m.Ring h (xs ++ []) := by rwa [List.append_nil]
  exact hr'.prev_eq ha rfl

/-- The entry after `x`. -/
theorem Ring.next_entry {m : Links ε} {h x b : ε} {as bs : List ε}
    (hr : m.Ring h (as ++ x :: bs)) (hb : (bs ++ [h]).head? = some b) : m.next x = b := by
  have hr' : m.Ring h ((as ++ [x]) ++ bs) := by rwa [List.append_assoc]
  exact hr'.next_eq (getLast?_cons_concat h x as) hb

theorem Ring.head_notMem {m : Links ε} {h : ε} {xs : List ε} (hr : m.Ring h xs) : h ∉ xs :=
  (List.nodup_cons.mp hr.nodup).1

theorem Ring.nodup_entries {m : Links ε} {h : ε} {xs : List ε} (hr : m.Ring h xs) : xs.Nodup :=
  (List.nodup_cons.mp hr.nodup).2

/-- An entry of a ring is not its own predecessor. -/
theorem Ring.prev_ne {m : Links ε} {h x : ε} {as bs : List ε} (hr : m.Ring h (as ++ x :: bs)) :
    m.prev x ≠ x := by
  obtain ⟨a, ha⟩ : ∃ a, (h :: as).getLast? = some a := ⟨_, List.getLast?_eq_some_getLast (by simp)⟩
  rw [hr.prev_eq ha rfl]
  rintro rfl
  have hnd := hr.nodup
  rw [← List.cons_append, List.nodup_append] at hnd
  exact hnd.2.2 a (List.mem_of_getLast? ha) a (by simp) rfl

/-- The neighbours of an entry are the head or entries of its ring. -/
theorem Ring.next_mem {m : Links ε} {h x : ε} {xs : List ε} (hr : m.Ring h xs)
    (hx : x ∈ h :: xs) : m.next x ∈ h :: xs := by
  rcases List.mem_cons.mp hx with rfl | hx
  · cases xs with
    | nil => simp [hr.next_head rfl]
    | cons y ys => simp [hr.next_head rfl]
  · obtain ⟨as, bs, rfl⟩ := List.append_of_mem hx
    cases bs with
    | nil => simp [hr.next_entry rfl]
    | cons y ys => simp [hr.next_entry rfl]

theorem Ring.prev_mem {m : Links ε} {h x : ε} {xs : List ε} (hr : m.Ring h xs)
    (hx : x ∈ h :: xs) : m.prev x ∈ h :: xs := by
  rcases List.mem_cons.mp hx with rfl | hx
  · rw [hr.prev_head (List.getLast?_eq_some_getLast (by simp))]
    exact List.getLast_mem _
  · obtain ⟨as, bs, rfl⟩ := List.append_of_mem hx
    have hlast := List.getLast?_eq_some_getLast (l := h :: as) (by simp)
    rw [hr.prev_eq hlast rfl, ← List.cons_append]
    exact List.mem_append_left _ (List.getLast_mem _)

/-- The walk from the head of a ring meets its entries and nothing else. -/
theorem Ring.onList_iff {m : Links ε} {h e : ε} {xs : List ε} (hr : m.Ring h xs) :
    m.OnList h e ↔ e ∈ xs := by
  constructor
  · intro he
    induction he with
    | first hne =>
      cases xs with
      | nil => exact absurd (hr.next_head rfl) hne
      | cons x xs =>
        rw [hr.next_head rfl]
        exact List.mem_cons_self
    | @step e _ hne ih =>
      obtain ⟨as, bs, rfl⟩ := List.append_of_mem ih
      cases bs with
      | nil => exact absurd (hr.next_entry rfl) hne
      | cons b bs =>
        rw [hr.next_entry rfl]
        simp
  · intro he
    obtain ⟨as, bs, rfl⟩ := List.append_of_mem he
    -- the walk reaches the entries of the ring one after the other, from the left
    induction as using List.reverseRecOn generalizing e bs with
    | nil =>
      have hnext : m.next h = e := hr.next_head rfl
      have hne : m.next h ≠ h := by
        rw [hnext]
        rintro rfl
        exact hr.head_notMem (by simp)
      simpa only [hnext] using OnList.first hne
    | append_singleton as a ih =>
      rw [List.append_assoc, List.singleton_append] at hr he
      have ha : m.OnList h a := ih (e :: bs) hr (by simp)
      have hnext : m.next a = e := hr.next_entry rfl
      have hne : m.next a ≠ h := by
        rw [hnext]
        rintro rfl
        exact hr.head_notMem (by simp)
      simpa only [hnext] using OnList.step ha hne

/-! ## Reading it backwards -/

/-- The entries with `prev` and `next` exchanged. -/
def turned (m : Links ε) : Links ε := ⟨m.prev, m.next⟩

/-- Following `prev`, a ring has its entries the other way round. -/
theorem Ring.turned {m : Links ε} {h : ε} {xs : List ε} (hr : m.Ring h xs) :
    m.turned.Ring h xs.reverse where
  nodup := by
    have hperm : (h :: xs.reverse).Perm (h :: xs) := (List.reverse_perm xs).cons h
    exact hperm.nodup_iff.mpr hr.nodup
  chain := by
    have hcycle : h :: (xs.reverse ++ [h]) = (h :: (xs ++ [h])).reverse := by simp
    rw [hcycle, List.isChain_reverse]
    exact hr.chain.imp fun a b hab => ⟨hab.2, hab.1⟩

/-! ## Frames -/

theorem SameOff.refl (S : Set ε) (m : Links ε) : SameOff S m m :=
  fun _ _ => ⟨rfl, rfl⟩

theorem SameOff.trans {S : Set ε} {m m' m'' : Links ε} (h : SameOff S m m')
    (h' : SameOff S m' m'') : SameOff S m m'' :=
  fun e he => ⟨(h' e he).1.trans (h e he).1, (h' e he).2.trans (h e he).2⟩

theorem SameOff.mono {S T : Set ε} {m m' : Links ε} (h : SameOff S m m') (hST : S ⊆ T) :
    SameOff T m m' :=
  fun e he => h e fun hS => he (hST hS)

/-- A path survives when `next` is kept on all but its last entry and `prev` on all but
its first. -/
theorem isChain_congr {m m' : Links ε} {l : List ε} (hl : l.IsChain m.Adj)
    (hnext : ∀ e ∈ l.dropLast, m'.next e = m.next e)
    (hprev : ∀ e ∈ l.tail, m'.prev e = m.prev e) : l.IsChain m'.Adj := by
  induction l with
  | nil => exact List.IsChain.nil
  | cons a l ih =>
    cases l with
    | nil => exact List.IsChain.singleton a
    | cons b l =>
      rw [List.isChain_cons_cons] at hl ⊢
      obtain ⟨⟨hab, hba⟩, hl⟩ := hl
      refine ⟨⟨?_, ?_⟩, ih hl ?_ ?_⟩
      · rw [hnext a (by simp), hab]
      · rw [hprev b (by simp), hba]
      · exact fun e he => hnext e (by simp [he])
      · exact fun e he => hprev e (by simp only [List.tail_cons] at he ⊢; simp [he])

/-- A ring none of whose entries was touched is still there. -/
theorem Ring.frame {m m' : Links ε} {h : ε} {xs : List ε} {S : Set ε} (hr : m.Ring h xs)
    (hS : SameOff S m m') (hh : h ∉ S) (hxs : ∀ e ∈ xs, e ∉ S) : m'.Ring h xs := by
  have hoff : ∀ e ∈ h :: (xs ++ [h]), e ∉ S := by
    intro e he
    simp only [List.mem_cons, List.mem_append, List.not_mem_nil, or_false] at he
    rcases he with rfl | he | rfl
    · exact hh
    · exact hxs e he
    · exact hh
  exact ⟨hr.nodup, isChain_congr hr.chain
    (fun e he => (hS e (hoff e (List.dropLast_subset _ he))).1)
    (fun e he => (hS e (hoff e (List.mem_of_mem_tail he))).2)⟩

/-- A ring is cut into a path up to the cut, a path from the cut, and the adjacency of
the two entries at the cut. -/
theorem ring_append_iff {m : Links ε} {h a b : ε} {as bs : List ε}
    (ha : (h :: as).getLast? = some a) (hb : (bs ++ [h]).head? = some b) :
    m.Ring h (as ++ bs) ↔ (h :: (as ++ bs)).Nodup ∧ (h :: as).IsChain m.Adj ∧
      (bs ++ [h]).IsChain m.Adj ∧ m.Adj a b := by
  have hsplit : (h :: (as ++ bs ++ [h])).IsChain m.Adj ↔ (h :: as).IsChain m.Adj ∧
      (bs ++ [h]).IsChain m.Adj ∧ m.Adj a b := by
    rw [List.append_assoc, ← List.cons_append, List.isChain_append, ha, hb]
    simp
  exact ⟨fun hr => ⟨hr.nodup, hsplit.mp hr.chain⟩, fun hr => ⟨hr.1, hsplit.mpr hr.2⟩⟩

/-- The path up to a cut survives edits of the links at the cut. -/
private theorem isChain_left {m m' : Links ε} {h a b : ε} {as bs : List ε}
    (hnd : (h :: (as ++ bs)).Nodup) (hc : (h :: as).IsChain m.Adj)
    (ha : (h :: as).getLast? = some a) (hb : (bs ++ [h]).head? = some b)
    (hnext : ∀ e ∈ h :: (as ++ bs), e ≠ a → m'.next e = m.next e)
    (hprev : ∀ e ∈ h :: (as ++ bs), e ≠ b → m'.prev e = m.prev e) :
    (h :: as).IsChain m'.Adj := by
  rw [← List.cons_append, List.nodup_append] at hnd
  obtain ⟨hnda, -, hdisj⟩ := hnd
  refine isChain_congr hc (fun e he => ?_) (fun e he => ?_)
  · have hmem : e ∈ h :: as := List.dropLast_subset _ he
    refine hnext e (by rw [← List.cons_append]; exact List.mem_append_left _ hmem) ?_
    -- `a` ends the path, and no entry is there twice
    rintro rfl
    rw [← List.dropLast_append_getLast? e ha, List.nodup_append] at hnda
    exact hnda.2.2 e he e (by simp) rfl
  · have hmem : e ∈ as := he
    refine hprev e (by simp [hmem]) ?_
    rintro rfl
    cases bs with
    | nil =>
      obtain rfl : h = e := by simpa using hb
      exact (List.nodup_cons.mp hnda).1 hmem
    | cons b' bs =>
      obtain rfl : b' = e := by simpa using hb
      exact hdisj b' (by simp [hmem]) b' (by simp) rfl

/-- The path from a cut survives edits of the links at the cut. -/
private theorem isChain_right {m m' : Links ε} {h a b : ε} {as bs : List ε}
    (hnd : (h :: (as ++ bs)).Nodup) (hc : (bs ++ [h]).IsChain m.Adj)
    (ha : (h :: as).getLast? = some a) (hb : (bs ++ [h]).head? = some b)
    (hnext : ∀ e ∈ h :: (as ++ bs), e ≠ a → m'.next e = m.next e)
    (hprev : ∀ e ∈ h :: (as ++ bs), e ≠ b → m'.prev e = m.prev e) :
    (bs ++ [h]).IsChain m'.Adj := by
  rw [← List.cons_append, List.nodup_append] at hnd
  obtain ⟨-, hndb, hdisj⟩ := hnd
  refine isChain_congr hc (fun e he => ?_) (fun e he => ?_)
  · have hmem : e ∈ bs := by simpa using he
    refine hnext e (by simp [hmem]) ?_
    rintro rfl
    exact hdisj e (List.mem_of_getLast? ha) e hmem rfl
  · cases bs with
    | nil => simp at he
    | cons b' bs =>
      obtain rfl : b' = b := by simpa using hb
      have he' : e ∈ bs ∨ e = h := by simpa using he
      rcases he' with he' | rfl
      · refine hprev e (by simp [he']) ?_
        rintro rfl
        exact (List.nodup_cons.mp hndb).1 he'
      · refine hprev e (by simp) ?_
        rintro rfl
        exact hdisj e (by simp) e (by simp) rfl

/-! ## Edits -/

variable [DecidableEq ε]

def setNext (m : Links ε) (e x : ε) : Links ε :=
  { m with next := Function.update m.next e x }

def setPrev (m : Links ε) (e x : ε) : Links ε :=
  { m with prev := Function.update m.prev e x }

/-- Make `elm` the entry between the neighbours `a` and `b`. -/
def insertBetween (m : Links ε) (elm a b : ε) : Links ε :=
  (((m.setPrev b elm).setNext a elm).setNext elm b).setPrev elm a

/-- Make `a` and `b` neighbours. -/
def bridge (m : Links ε) (a b : ε) : Links ε :=
  (m.setNext a b).setPrev b a

/-- An entry alone: the empty ring. -/
def selfLoop (m : Links ε) (h : ε) : Links ε :=
  (m.setNext h h).setPrev h h

theorem insertBetween_next (m : Links ε) (elm a b e : ε) :
    (m.insertBetween elm a b).next e =
      if e = elm then b else if e = a then elm else m.next e := by
  simp only [insertBetween, setNext, setPrev, Function.update_apply]

theorem insertBetween_prev (m : Links ε) (elm a b e : ε) :
    (m.insertBetween elm a b).prev e =
      if e = elm then a else if e = b then elm else m.prev e := by
  simp only [insertBetween, setNext, setPrev, Function.update_apply]

theorem bridge_next (m : Links ε) (a b e : ε) :
    (m.bridge a b).next e = if e = a then b else m.next e := by
  simp only [bridge, setNext, setPrev, Function.update_apply]

theorem bridge_prev (m : Links ε) (a b e : ε) :
    (m.bridge a b).prev e = if e = b then a else m.prev e := by
  simp only [bridge, setNext, setPrev, Function.update_apply]

theorem insertBetween_sameOff (m : Links ε) (elm a b : ε) :
    SameOff {elm, a, b} m (m.insertBetween elm a b) := by
  intro e he
  simp only [Set.mem_insert_iff, Set.mem_singleton_iff, not_or] at he
  simp [insertBetween_next, insertBetween_prev, he.1, he.2.1, he.2.2]

theorem bridge_sameOff (m : Links ε) (a b : ε) : SameOff {a, b} m (m.bridge a b) := by
  intro e he
  simp only [Set.mem_insert_iff, Set.mem_singleton_iff, not_or] at he
  simp [bridge_next, bridge_prev, he.1, he.2]

theorem selfLoop_sameOff (m : Links ε) (h : ε) : SameOff {h} m (m.selfLoop h) := by
  intro e he
  simp only [Set.mem_singleton_iff] at he
  simp [selfLoop, setNext, setPrev, he]

theorem ring_selfLoop (m : Links ε) (h : ε) : (m.selfLoop h).Ring h [] := by
  refine ⟨by simp, ?_⟩
  simp [selfLoop, setNext, setPrev, Adj]

/-- Inserting a fresh entry where the ring is cut. -/
theorem Ring.insertBetween {m : Links ε} {h elm a b : ε} {as bs : List ε}
    (hr : m.Ring h (as ++ bs)) (hnew : elm ∉ h :: (as ++ bs))
    (ha : (h :: as).getLast? = some a) (hb : (bs ++ [h]).head? = some b) :
    (m.insertBetween elm a b).Ring h (as ++ elm :: bs) := by
  obtain ⟨hnd, hca, hcb, -⟩ := (ring_append_iff ha hb).mp hr
  have hne : ∀ e ∈ h :: (as ++ bs), e ≠ elm := fun e he heq => hnew (heq ▸ he)
  have hnext : ∀ e ∈ h :: (as ++ bs), e ≠ a → (m.insertBetween elm a b).next e = m.next e :=
    fun e he hea => by rw [insertBetween_next, if_neg (hne e he), if_neg hea]
  have hprev : ∀ e ∈ h :: (as ++ bs), e ≠ b → (m.insertBetween elm a b).prev e = m.prev e :=
    fun e he heb => by rw [insertBetween_prev, if_neg (hne e he), if_neg heb]
  have hae : a ≠ elm := by
    refine hne a ?_
    rw [← List.cons_append]
    exact List.mem_append_left _ (List.mem_of_getLast? ha)
  have hbe : b ≠ elm := by
    have hmem : b ∈ bs ++ [h] := List.mem_of_head? hb
    refine hne b ?_
    simp only [List.mem_append, List.mem_cons, List.not_mem_nil, or_false] at hmem ⊢
    tauto
  rw [ring_append_iff ha (show (elm :: bs ++ [h]).head? = some elm from rfl)]
  refine ⟨?_, isChain_left hnd hca ha hb hnext hprev, ?_, ?_⟩
  · have hperm : (h :: (as ++ elm :: bs)).Perm (elm :: h :: (as ++ bs)) :=
      (List.Perm.cons h List.perm_middle).trans (List.Perm.swap elm h _)
    rw [hperm.nodup_iff, List.nodup_cons]
    exact ⟨hnew, hnd⟩
  · rw [List.cons_append, List.isChain_cons, hb]
    refine ⟨?_, isChain_right hnd hcb ha hb hnext hprev⟩
    rintro _ ⟨rfl⟩
    exact ⟨by rw [insertBetween_next, if_pos rfl],
      by rw [insertBetween_prev, if_neg hbe, if_pos rfl]⟩
  · exact ⟨by rw [insertBetween_next, if_neg hae, if_pos rfl],
      by rw [insertBetween_prev, if_pos rfl]⟩

/-- Joining the neighbours of an entry takes it out of its ring. -/
theorem Ring.bridge {m : Links ε} {h x : ε} {as bs : List ε}
    (hr : m.Ring h (as ++ x :: bs)) : (m.bridge (m.prev x) (m.next x)).Ring h (as ++ bs) := by
  obtain ⟨a, ha⟩ : ∃ a, (h :: as).getLast? = some a := ⟨_, List.getLast?_eq_some_getLast (by simp)⟩
  obtain ⟨b, hb⟩ : ∃ b, (bs ++ [h]).head? = some b := ⟨_, List.head?_eq_some_head (by simp)⟩
  have hpx : m.prev x = a := Ring.prev_eq hr ha rfl
  have hnx : m.next x = b := hr.next_entry hb
  rw [hpx, hnx]
  obtain ⟨hnd, hca, hcxb, -⟩ := (ring_append_iff ha rfl).mp hr
  have hcb : (bs ++ [h]).IsChain m.Adj := hcxb.tail
  have hnd' : (h :: (as ++ bs)).Nodup := by
    have hperm : (h :: (as ++ x :: bs)).Perm (x :: h :: (as ++ bs)) :=
      (List.Perm.cons h List.perm_middle).trans (List.Perm.swap x h _)
    exact (List.nodup_cons.mp (hperm.nodup_iff.mp hnd)).2
  have hnext : ∀ e ∈ h :: (as ++ bs), e ≠ a → (m.bridge a b).next e = m.next e :=
    fun e _ hea => by rw [bridge_next, if_neg hea]
  have hprev : ∀ e ∈ h :: (as ++ bs), e ≠ b → (m.bridge a b).prev e = m.prev e :=
    fun e _ heb => by rw [bridge_prev, if_neg heb]
  rw [ring_append_iff ha hb]
  exact ⟨hnd', isChain_left hnd' hca ha hb hnext hprev, isChain_right hnd' hcb ha hb hnext hprev,
    by rw [bridge_next, if_pos rfl], by rw [bridge_prev, if_pos rfl]⟩

end Links
end Zonix.Lib
