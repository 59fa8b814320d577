import Mathlib.Data.List.Basic
import Mathlib.Logic.Function.Basic

/-!
# Least recently used

Every key carries the time of its last use, or none when it is not held. A list is a *recency
order* when it lists the held keys from the one that was used first: using a key moves it to the
end, and giving up the key at the front keeps the order. What a list answers that is ordered so is
what the times say (`Oldest`).
-/

namespace Zonix.Lib

variable {κ : Type*} {stamp : κ → Option ℕ} {now : ℕ} {q : List κ} {k v : κ}

/-- The list holds the keys that carry a time, in the order of the times. -/
structure Recency (stamp : κ → Option ℕ) (now : ℕ) (q : List κ) : Prop where
  held : ∀ k, k ∈ q ↔ stamp k ≠ none
  sorted : q.Pairwise fun a b => ∀ t u, stamp a = some t → stamp b = some u → t < u
  past : ∀ k t, stamp k = some t → t < now

/-- The held key whose last use is the longest ago; `none` where no key is held. -/
def Oldest (stamp : κ → Option ℕ) : Option κ → Prop
  | none => ∀ k, stamp k = none
  | some v => ∃ t, stamp v = some t ∧ ∀ k u, stamp k = some u → t ≤ u

namespace Recency

theorem empty (now : ℕ) : Recency (fun _ : κ => none) now [] :=
  ⟨fun _ => iff_of_false List.not_mem_nil fun h => h rfl, List.Pairwise.nil,
    fun _ t h => absurd h.symm (Option.some_ne_none t)⟩

theorem tick (h : Recency stamp now q) : Recency stamp (now + 1) q :=
  ⟨h.held, h.sorted, fun k t ht => Nat.lt_succ_of_lt (h.past k t ht)⟩

theorem nodup (h : Recency stamp now q) : q.Nodup := by
  refine h.sorted.imp_of_mem fun {a b} ha _ hab heq => ?_
  obtain ⟨t, ht⟩ := Option.ne_none_iff_exists'.mp ((h.held a).mp ha)
  exact absurd (hab t t ht (heq ▸ ht)) (Nat.lt_irrefl t)

/-- The key at the front was used before every other one. -/
theorem lt_of_mem (h : Recency stamp now (v :: q)) (hk : k ∈ q) {t u : ℕ} (ht : stamp v = some t)
    (hu : stamp k = some u) : t < u :=
  (List.pairwise_cons.mp h.sorted).1 k hk t u ht hu

theorem oldest_head (h : Recency stamp now q) : Oldest stamp q.head? := by
  cases q with
  | nil =>
    intro k
    have hk := (not_congr (h.held k)).mp List.not_mem_nil
    exact not_not.mp hk
  | cons v q =>
    obtain ⟨t, ht⟩ := Option.ne_none_iff_exists'.mp ((h.held v).mp List.mem_cons_self)
    refine ⟨t, ht, fun k u hu => ?_⟩
    have hk : k ∈ v :: q := (h.held k).mpr (by simp [hu])
    rcases List.mem_cons.mp hk with rfl | hk
    · exact Nat.le_of_eq (Option.some.inj (ht.symm.trans hu))
    · exact Nat.le_of_lt (h.lt_of_mem hk ht hu)

/-- No other key is the oldest one. -/
theorem oldest_unique (h : Recency stamp now q) {o : Option κ} (ho : Oldest stamp o) :
    o = q.head? := by
  cases q with
  | nil =>
    cases o with
    | none => rfl
    | some k =>
      obtain ⟨t, ht, -⟩ := ho
      have hk : k ∈ ([] : List κ) := (h.held k).mpr (by simp [ht])
      exact absurd hk List.not_mem_nil
  | cons v q =>
    obtain ⟨t, ht⟩ := Option.ne_none_iff_exists'.mp ((h.held v).mp List.mem_cons_self)
    cases o with
    | none => exact absurd (ht.symm.trans (ho v)) (Option.some_ne_none t)
    | some k =>
      obtain ⟨u, hu, hle⟩ := ho
      have hk : k ∈ v :: q := (h.held k).mpr (by simp [hu])
      rcases List.mem_cons.mp hk with rfl | hk
      · rfl
      · have hlt := h.lt_of_mem hk ht hu
        have hge := hle v t ht
        omega

variable [DecidableEq κ]

/-- Using a key moves it to the end. -/
theorem touch (h : Recency stamp now q) (k : κ) :
    Recency (Function.update stamp k (some now)) (now + 1) (q.erase k ++ [k]) := by
  have hstamp : ∀ a ∈ q.erase k, Function.update stamp k (some now) a = stamp a := by
    intro a ha
    refine Function.update_of_ne ?_ _ _
    rintro rfl
    exact h.nodup.not_mem_erase ha
  refine ⟨fun a => ?_, ?_, fun a t ht => ?_⟩
  · by_cases hak : a = k
    · rw [hak, Function.update_self]
      exact iff_of_true (by simp) (by simp)
    · rw [Function.update_of_ne hak, ← h.held a, List.mem_append, List.mem_erase_of_ne hak,
        List.mem_singleton]
      exact or_iff_left hak
  · rw [List.pairwise_append]
    refine ⟨?_, List.pairwise_singleton _ k, fun a ha b hb t u ht hu => ?_⟩
    · refine (h.sorted.sublist List.erase_sublist).imp_of_mem fun {a b} ha hb hab => ?_
      rw [hstamp a ha, hstamp b hb]
      exact hab
    · -- every other key was used before now
      rw [hstamp a ha] at ht
      rw [List.mem_singleton.mp hb, Function.update_self] at hu
      rw [← Option.some.inj hu]
      exact h.past a t ht
  · by_cases hak : a = k
    · rw [hak, Function.update_self] at ht
      rw [← Option.some.inj ht]
      exact Nat.lt_succ_self now
    · rw [Function.update_of_ne hak] at ht
      exact Nat.lt_succ_of_lt (h.past a t ht)

/-- Giving up the key at the front. -/
theorem pop (h : Recency stamp now (v :: q)) :
    Recency (Function.update stamp v none) (now + 1) q := by
  have hv : v ∉ q := (List.nodup_cons.mp h.nodup).1
  have hstamp : ∀ a ∈ q, Function.update stamp v none a = stamp a := by
    intro a ha
    refine Function.update_of_ne ?_ _ _
    rintro rfl
    exact hv ha
  refine ⟨fun a => ?_, ?_, fun a t ht => ?_⟩
  · by_cases hav : a = v
    · rw [hav, Function.update_self]
      exact iff_of_false hv fun hno => hno rfl
    · rw [Function.update_of_ne hav, ← h.held a, List.mem_cons]
      exact (or_iff_right hav).symm
  · refine (List.pairwise_cons.mp h.sorted).2.imp_of_mem fun {a b} ha hb hab => ?_
    rw [hstamp a ha, hstamp b hb]
    exact hab
  · by_cases hav : a = v
    · rw [hav, Function.update_self] at ht
      exact absurd ht.symm (Option.some_ne_none t)
    · rw [Function.update_of_ne hav] at ht
      exact Nat.lt_succ_of_lt (h.past a t ht)

end Recency
end Zonix.Lib
