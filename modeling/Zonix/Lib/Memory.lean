import Zonix.Lib.Machine

/-!
# A memory of pages

A page that nothing has touched has no content yet; what it is given when it is touched is left
open, and from then on only stores change it. Where the pages are kept is no part of the
memory: an implementation may move them as it likes. What is known of a word after a store
stays known until the word is stored to again, or its page is replaced.
-/

namespace Zonix.Lib

variable {κ ι β : Type*}

/-- The content of every page that has one. -/
abbrev Memory (κ ι β : Type*) := κ → Option (ι → β)

/-- What an operation was to a memory. -/
inductive Access (κ ι β : Type*)
  | load (k : κ) (i : ι) (v : β)
  | store (k : κ) (i : ι) (v : β)
  /-- The page was given a content of another origin. -/
  | replace (k : κ)
  | silent

/-- The access leaves the word alone. -/
def Access.Spares (k : κ) (i : ι) : Access κ ι β → Prop
  | .store k' i' _ => k' = k → i' ≠ i
  | .replace k' => k' ≠ k
  | .load _ _ _ | .silent => True

namespace Memory

variable {m m' : Memory κ ι β} {k k' : κ} {i i' : ι} {v r : β}

/-- The page has the content, and the other pages are as before. -/
structure Sets (m : Memory κ ι β) (k : κ) (content : ι → β) (m' : Memory κ ι β) : Prop where
  page : m' k = some content
  others : ∀ k' ≠ k, m' k' = m k'

/-- The page had the content, or none. -/
def Fits (m : Memory κ ι β) (k : κ) (content : ι → β) : Prop := ∀ c, m k = some c → c = content

variable [DecidableEq ι]

inductive Step (m : Memory κ ι β) : Access κ ι β → Memory κ ι β → Prop
  | load {k : κ} {i : ι} {content : ι → β} {m' : Memory κ ι β} (hfits : m.Fits k content)
      (hsets : m.Sets k content m') : Step m (.load k i (content i)) m'
  | store {k : κ} {i : ι} {v : β} {content : ι → β} {m' : Memory κ ι β}
      (hfits : m.Fits k content) (hsets : m.Sets k (Function.update content i v) m') :
      Step m (.store k i v) m'
  | replace {k : κ} {m' : Memory κ ι β} (hothers : ∀ k' ≠ k, m' k' = m k') :
      Step m (.replace k) m'
  | silent : Step m .silent m

/-- The word is known to be `v`. -/
def Holds (m : Memory κ ι β) (k : κ) (i : ι) (v : β) : Prop := ∃ c, m k = some c ∧ c i = v

theorem Step.stored (h : m.Step (.store k i v) m') : m'.Holds k i v := by
  cases h with
  | store hfits hsets => exact ⟨_, hsets.page, Function.update_self ..⟩

theorem Step.loaded (h : m.Step (.load k i r) m') (hv : m.Holds k i v) : r = v := by
  obtain ⟨c, hc, rfl⟩ := hv
  cases h with
  | load hfits hsets => rw [hfits c hc]

/-- A known word stays known. -/
theorem Step.holds {a : Access κ ι β} (h : m.Step a m') (ha : a.Spares k i)
    (hv : m.Holds k i v) : m'.Holds k i v := by
  obtain ⟨c, hc, rfl⟩ := hv
  cases h with
  | @load k' i' content _ hfits hsets =>
    by_cases hk : k = k'
    · subst hk
      obtain rfl := hfits c hc
      exact ⟨c, hsets.page, rfl⟩
    · exact ⟨c, (hsets.others k hk).trans hc, rfl⟩
  | @store k' i' v' content _ hfits hsets =>
    by_cases hk : k = k'
    · subst hk
      obtain rfl := hfits c hc
      exact ⟨_, hsets.page, Function.update_of_ne (Ne.symm (ha rfl)) ..⟩
    · exact ⟨c, (hsets.others k hk).trans hc, rfl⟩
  | @replace k' _ hothers =>
    have hk : k ≠ k' := Ne.symm ha
    exact ⟨c, (hothers k hk).trans hc, rfl⟩
  | silent => exact ⟨c, hc, rfl⟩

/-! ## Machines with a memory -/

section Machine
variable {σ Op ρ : Type*} {impl : σ → Op → Option (ρ × σ)} {ok : σ → Op → Prop} {I : σ → Prop}
  {view : σ → Memory κ ι β} {access : Op → ρ → Access κ ι β} {s : σ}

/-- The operations come back, the invariant holds after them, and a known word that they all
spare stays known. -/
theorem outputs_holds
    (hstep : ∀ s op, I s → ok s op →
      ∃ r t, impl s op = some (r, t) ∧ I t ∧ (view s).Step (access op r) (view t))
    {ops : List Op} (hok : Allowed (states impl) ok ops s)
    (hspares : ∀ op ∈ ops, ∀ r, (access op r).Spares k i) (hs : I s) :
    ∃ rs t, outputs impl ops s = some (rs, t) ∧ I t ∧
      ((view s).Holds k i v → (view t).Holds k i v) := by
  induction ops generalizing s with
  | nil => exact ⟨[], s, rfl, hs, id⟩
  | cons op ops ih =>
    obtain ⟨r, t, heq, ht, hacc⟩ := hstep s op hs hok.1
    have hstate : states impl s op = some t := by rw [states, heq, Option.map_some]
    obtain ⟨rs, u, houts, hu, hholds⟩ := ih (hok.2 t hstate)
      (fun op' hop' => hspares op' (List.mem_cons_of_mem op hop')) ht
    refine ⟨r :: rs, u, ?_, hu, fun hv => ?_⟩
    · rw [outputs_cons heq, houts]
      rfl
    · exact hholds (hacc.holds (hspares op List.mem_cons_self r) hv)

/-- Without a word to watch. -/
theorem outputs_invariant
    (hstep : ∀ s op, I s → ok s op →
      ∃ r t, impl s op = some (r, t) ∧ I t ∧ (view s).Step (access op r) (view t))
    {ops : List Op} (hok : Allowed (states impl) ok ops s) (hs : I s) :
    ∃ rs t, outputs impl ops s = some (rs, t) ∧ I t := by
  induction ops generalizing s with
  | nil => exact ⟨[], s, rfl, hs⟩
  | cons op ops ih =>
    obtain ⟨r, t, heq, ht, -⟩ := hstep s op hs hok.1
    have hstate : states impl s op = some t := by rw [states, heq, Option.map_some]
    obtain ⟨rs, u, houts, hu⟩ := ih (hok.2 t hstate) ht
    refine ⟨r :: rs, u, ?_, hu⟩
    rw [outputs_cons heq, houts]
    rfl

/-- A load of a word answers what was last stored there, whatever else was done before the store,
and between the two. -/
theorem outputs_load
    (hstep : ∀ s op, I s → ok s op →
      ∃ r t, impl s op = some (r, t) ∧ I t ∧ (view s).Step (access op r) (view t))
    {pre mid : List Op} {st ld : Op}
    (hok : Allowed (states impl) ok (pre ++ (st :: (mid ++ [ld]))) s) (hs : I s)
    (hst : ∀ r, access st r = .store k i v)
    (hmid : ∀ op ∈ mid, ∀ r, (access op r).Spares k i) :
    ∃ rs r t u, outputs impl (pre ++ (st :: (mid ++ [ld]))) s = some (rs ++ [r], t) ∧ I t ∧
      impl u ld = some (r, t) ∧ ∀ w, access ld r = .load k i w → w = v := by
  obtain ⟨rs₁, s₁, h₁, hs₁⟩ := outputs_invariant hstep hok.left hs
  have hok₁ := hok.of_outputs h₁
  obtain ⟨r₂, s₂, h₂, hs₂, hstored⟩ := hstep s₁ st hs₁ hok₁.1
  rw [hst] at hstored
  have hok₂ := hok₁.2 s₂ (by rw [states, h₂, Option.map_some])
  obtain ⟨rs₃, s₃, h₃, hs₃, hholds⟩ := outputs_holds hstep hok₂.left hmid hs₂
  have hok₃ := hok₂.of_outputs h₃
  obtain ⟨r₄, s₄, h₄, hs₄, hloaded⟩ := hstep s₃ ld hs₃ hok₃.1
  refine ⟨rs₁ ++ r₂ :: rs₃, r₄, s₄, s₃, ?_, hs₄, h₄, fun w hw => ?_⟩
  · rw [outputs_append h₁, outputs_cons h₂, outputs_append h₃, outputs_cons h₄]
    simp [outputs]
  · rw [hw] at hloaded
    exact hloaded.loaded (hholds hstored.stored)

end Machine
end Memory
end Zonix.Lib
