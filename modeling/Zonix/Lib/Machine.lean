import Mathlib.Data.List.Infix
import Mathlib.Logic.Relation

/-!
# Machines driven by operations

A machine is a function `exec` that performs an operation on a state, or returns `none`
when the operation never comes back. A run is any sequence of operations, each of them one
that `ok` allows in the state it is performed in: `ok` is where the callers' obligations
and the circumstances of an environment are written down.
-/

namespace Zonix.Lib

variable {σ Op : Type*} {exec : σ → Op → Option σ} {ok ok' : σ → Op → Prop} {s t u : σ}

/-- One allowed operation that comes back. -/
def Step (exec : σ → Op → Option σ) (ok : σ → Op → Prop) (s t : σ) : Prop :=
  ∃ op, ok s op ∧ exec s op = some t

/-- The operations are allowed, each in the state that those before it lead to. -/
def Allowed (exec : σ → Op → Option σ) (ok : σ → Op → Prop) : List Op → σ → Prop
  | [], _ => True
  | op :: ops, s => ok s op ∧ ∀ t, exec s op = some t → Allowed exec ok ops t

instance Allowed.decidable [∀ s op, Decidable (ok s op)] :
    ∀ (ops : List Op) (s : σ), Decidable (Allowed exec ok ops s)
  | [], _ => isTrue trivial
  | op :: ops, s =>
    match heq : exec s op with
    | none =>
      decidable_of_iff (ok s op) ⟨fun h => ⟨h, fun t ht => by simp [heq] at ht⟩, fun h => h.1⟩
    | some t =>
      have := Allowed.decidable ops t
      decidable_of_iff (ok s op ∧ Allowed exec ok ops t)
        ⟨fun h => ⟨h.1, fun u hu => Option.some.inj (heq.symm.trans hu) ▸ h.2⟩,
          fun h => ⟨h.1, h.2 t heq⟩⟩

theorem Allowed.trivial (ops : List Op) (s : σ) : Allowed exec (fun _ _ => True) ops s := by
  induction ops generalizing s with
  | nil => exact True.intro
  | cons op ops ih => exact ⟨True.intro, fun t _ => ih t⟩

/-- Every operation of a run is allowed in the state that those before it lead to. -/
theorem Allowed.of_append {pre post : List Op} {op : Op}
    (h : Allowed exec ok (pre ++ op :: post) s) (heq : pre.foldlM exec s = some t) : ok t op := by
  induction pre generalizing s with
  | nil =>
    obtain rfl : s = t := Option.some.inj heq
    exact h.1
  | cons a pre ih =>
    rw [List.foldlM_cons, Option.bind_eq_bind, Option.bind_eq_some_iff] at heq
    obtain ⟨u, hu, heq⟩ := heq
    exact ih (h.2 u hu) heq

theorem Allowed.left {ops ops' : List Op} (h : Allowed exec ok (ops ++ ops') s) :
    Allowed exec ok ops s := by
  induction ops generalizing s with
  | nil => exact True.intro
  | cons op ops ih => exact ⟨h.1, fun t ht => ih (h.2 t ht)⟩

theorem Allowed.mono {ops : List Op} (h : Allowed exec ok ops s)
    (hok : ∀ s, ∀ op ∈ ops, ok s op → ok' s op) : Allowed exec ok' ops s := by
  induction ops generalizing s with
  | nil => trivial
  | cons op ops ih =>
    refine ⟨hok s op List.mem_cons_self h.1, fun t ht => ih (h.2 t ht) fun u op' hop' => ?_⟩
    exact hok u op' (List.mem_cons_of_mem op hop')

/-- The same for operations that may not come back, and are allowed: where the condition is met the
invariant is kept, and where the invariant holds the operation is good if and only if the condition
is met. So all of them are good if and only if every one of them meets the condition. -/
theorem allowed_iff {I : σ → Prop} {good C : σ → Op → Prop}
    (hstep : ∀ s op, I s → ok s op → (good s op ↔ C s op))
    (hkeep : ∀ s op t, I s → ok s op → C s op → exec s op = some t → I t) (hs : I s)
    {ops : List Op} (hok : Allowed exec ok ops s) :
    Allowed exec good ops s ↔ Allowed exec C ops s := by
  induction ops generalizing s with
  | nil => exact Iff.rfl
  | cons op ops ih =>
    obtain ⟨hop, hrest⟩ := hok
    have hiff := hstep s op hs hop
    constructor
    · rintro ⟨hgood, hall⟩
      have hC := hiff.mp hgood
      exact ⟨hC, fun t ht => (ih (hkeep s op t hs hop hC ht) (hrest t ht)).mp (hall t ht)⟩
    · rintro ⟨hC, hall⟩
      exact ⟨hiff.mpr hC, fun t ht => (ih (hkeep s op t hs hop hC ht) (hrest t ht)).mpr (hall t ht)⟩

/-- Any number of allowed operations, one after the other. -/
def Run (exec : σ → Op → Option σ) (ok : σ → Op → Prop) : σ → σ → Prop :=
  Relation.ReflTransGen (Step exec ok)

theorem Step.mono (h : Step exec ok s t) (hok : ∀ op, ok s op → ok' s op) :
    Step exec ok' s t := by
  obtain ⟨op, ho, he⟩ := h
  exact ⟨op, hok op ho, he⟩

namespace Run

theorem refl (s : σ) : Run exec ok s s := Relation.ReflTransGen.refl

theorem tail (h : Run exec ok s t) (hstep : Step exec ok t u) : Run exec ok s u :=
  Relation.ReflTransGen.tail h hstep

theorem single (hstep : Step exec ok s t) : Run exec ok s t := (refl s).tail hstep

theorem trans (h : Run exec ok s t) (h' : Run exec ok t u) : Run exec ok s u :=
  Relation.ReflTransGen.trans h h'

theorem of_foldlM {ops : List Op} (h : Allowed exec ok ops s) (heq : ops.foldlM exec s = some t) :
    Run exec ok s t := by
  induction ops generalizing s with
  | nil =>
    rw [List.foldlM_nil] at heq
    exact Option.some.inj heq ▸ refl s
  | cons op ops ih =>
    rw [List.foldlM_cons, Option.bind_eq_bind, Option.bind_eq_some_iff] at heq
    obtain ⟨u, hu, heq⟩ := heq
    exact (single ⟨op, h.1, hu⟩).trans (ih (h.2 u hu) heq)

/-- Allowing more operations keeps every run. -/
theorem mono (h : Run exec ok s t) (hok : ∀ s op, ok s op → ok' s op) : Run exec ok' s t :=
  Relation.ReflTransGen.mono (fun s _ hst => hst.mono (hok s)) _ _ h

/-- What every allowed operation keeps, every run keeps. -/
theorem invariant {I : σ → Prop} (h : Run exec ok s t) (hs : I s)
    (hstep : ∀ t op u, I t → ok t op → exec t op = some u → I u) : I t := by
  induction h with
  | refl => exact hs
  | tail _ hst ih =>
    obtain ⟨op, ho, he⟩ := hst
    exact hstep _ op _ ih ho he

end Run

/-- A machine that always comes back: where the invariant holds before a step, it holds after it if
and only if the condition was met. So it holds all along if and only if the condition was met at
every step. -/
theorem foldl_invariant_iff {α : Type*} {f : σ → α → σ} {I : σ → Prop} {C : σ → α → Prop}
    (hstep : ∀ s a, I s → (I (f s a) ↔ C s a)) (hs : I s) (l : List α) :
    (∀ pre, pre <+: l → I (pre.foldl f s)) ↔
      ∀ pre a, pre ++ [a] <+: l → C (pre.foldl f s) a := by
  constructor
  · intro h pre a hpre
    have hbefore : I (pre.foldl f s) := h pre ((List.prefix_append pre [a]).trans hpre)
    have hafter := h (pre ++ [a]) hpre
    rw [List.foldl_append] at hafter
    exact (hstep _ a hbefore).mp hafter
  · intro h pre hpre
    -- on the steps taken, from the last one backwards
    induction pre using List.reverseRecOn with
    | nil => exact hs
    | append_singleton pre a ih =>
      rw [List.foldl_append]
      exact (hstep _ a (ih ((List.prefix_append pre [a]).trans hpre))).mpr (h pre a hpre)

/-! ## Machines that answer -/

/-- The answers of the operations, one after the other, and the state they lead to. -/
def outputs {ρ : Type*} (exec : σ → Op → Option (ρ × σ)) : List Op → σ → Option (List ρ × σ)
  | [], s => some ([], s)
  | op :: ops, s => do
    let (r, s) ← exec s op
    let (rs, s) ← outputs exec ops s
    some (r :: rs, s)

/-- The same for a machine whose every operation comes back. -/
def answers {ρ : Type*} (step : σ → Op → ρ × σ) : List Op → σ → List ρ × σ
  | [], s => ([], s)
  | op :: ops, s =>
    let rest := answers step ops (step s op).2
    ((step s op).1 :: rest.1, rest.2)

/-- The states that the operations of a machine that answers lead to. -/
def states {ρ : Type*} (exec : σ → Op → Option (ρ × σ)) (s : σ) (op : Op) : Option σ :=
  (exec s op).map Prod.snd

section Outputs
variable {ρ : Type*} {impl : σ → Op → Option (ρ × σ)} {r : ρ}

theorem outputs_cons {op : Op} (h : impl s op = some (r, t)) (ops : List Op) :
    outputs impl (op :: ops) s = (outputs impl ops t).map fun x => (r :: x.1, x.2) := by
  rw [outputs, h]
  show (outputs impl ops t).bind _ = _
  cases outputs impl ops t <;> rfl

theorem outputs_append {ops ops' : List Op} {rs : List ρ}
    (h : outputs impl ops s = some (rs, t)) :
    outputs impl (ops ++ ops') s = (outputs impl ops' t).map fun x => (rs ++ x.1, x.2) := by
  induction ops generalizing s rs with
  | nil =>
    obtain ⟨rfl, rfl⟩ := Prod.mk.inj (Option.some.inj h)
    simp
  | cons op ops ih =>
    cases hop : impl s op with
    | none => simp [outputs, hop] at h
    | some x =>
      obtain ⟨r, u⟩ := x
      rw [outputs_cons hop, Option.map_eq_some_iff] at h
      obtain ⟨⟨rs', t'⟩, hrest, heq⟩ := h
      obtain ⟨rfl, rfl⟩ := Prod.mk.inj heq
      rw [List.cons_append, outputs_cons hop, ih hrest, Option.map_map]
      rfl

/-- What is allowed after operations that came back. -/
theorem Allowed.of_outputs {ops ops' : List Op} {rs : List ρ}
    (h : Allowed (states impl) ok (ops ++ ops') s) (heq : outputs impl ops s = some (rs, t)) :
    Allowed (states impl) ok ops' t := by
  induction ops generalizing s rs with
  | nil =>
    obtain ⟨-, rfl⟩ := Prod.mk.inj (Option.some.inj heq)
    exact h
  | cons op ops ih =>
    cases hop : impl s op with
    | none => simp [outputs, hop] at heq
    | some x =>
      obtain ⟨r, u⟩ := x
      rw [outputs_cons hop, Option.map_eq_some_iff] at heq
      obtain ⟨⟨rs', t'⟩, hrest, heq⟩ := heq
      obtain ⟨-, rfl⟩ := Prod.mk.inj heq
      exact ih (h.2 u (by rw [states, hop, Option.map_some])) hrest

end Outputs

section Simulation
variable {ρ τ : Type*} {impl : σ → Op → Option (ρ × σ)} {step : τ → Op → ρ × τ}
  {R : σ → τ → Prop} {q : τ}

/-- An implementation whose every allowed operation answers as the specification does, and keeps
the relation to it, gives the same answers all along. -/
theorem outputs_simulates
    (hstep : ∀ s q op, R s q → ok s op →
      ∃ t, impl s op = some ((step q op).1, t) ∧ R t (step q op).2)
    (hs : R s q) {ops : List Op} (hok : Allowed (states impl) ok ops s) :
    ∃ t, outputs impl ops s = some ((answers step ops q).1, t) ∧ R t (answers step ops q).2 := by
  induction ops generalizing s q with
  | nil => exact ⟨s, rfl, hs⟩
  | cons op ops ih =>
    obtain ⟨t, heq, ht⟩ := hstep s q op hs hok.1
    have hstate : states impl s op = some t := by rw [states, heq, Option.map_some]
    obtain ⟨u, houts, hu⟩ := ih ht (hok.2 t hstate)
    refine ⟨u, ?_, hu⟩
    have hrest : outputs impl (op :: ops) s =
        (outputs impl ops t).bind fun a => some ((step q op).1 :: a.1, a.2) := by
      rw [outputs, heq]
      rfl
    rw [hrest, houts]
    rfl

/-- What the specification allows, step by step, the implementation is allowed. -/
theorem allowed_of_simulates {P : τ → Op → Prop}
    (hstep : ∀ s q op, R s q → ok s op →
      ∃ t, impl s op = some ((step q op).1, t) ∧ R t (step q op).2)
    (hok : ∀ s q op, R s q → P q op → ok s op) (hs : R s q) {ops : List Op}
    (h : Allowed (fun q op => some (step q op).2) P ops q) :
    Allowed (states impl) ok ops s := by
  induction ops generalizing s q with
  | nil => trivial
  | cons op ops ih =>
    have hop := hok s q op hs h.1
    refine ⟨hop, fun t ht => ?_⟩
    obtain ⟨u, heq, hu⟩ := hstep s q op hs hop
    rw [states, heq, Option.map_some] at ht
    obtain rfl := Option.some.inj ht
    exact ih hu (h.2 _ rfl)

/-- What the implementation is allowed, step by step, the specification is allowed. -/
theorem spec_allowed_of_simulates {P : τ → Op → Prop}
    (hstep : ∀ s q op, R s q → ok s op →
      ∃ t, impl s op = some ((step q op).1, t) ∧ R t (step q op).2)
    (hP : ∀ s q op, R s q → ok s op → P q op) (hs : R s q) {ops : List Op}
    (h : Allowed (states impl) ok ops s) :
    Allowed (fun q op => some (step q op).2) P ops q := by
  induction ops generalizing s q with
  | nil => trivial
  | cons op ops ih =>
    refine ⟨hP s q op hs h.1, fun r hr => ?_⟩
    obtain rfl := Option.some.inj hr
    obtain ⟨t, heq, ht⟩ := hstep s q op hs h.1
    exact ih ht (h.2 t (by rw [states, heq, Option.map_some]))

end Simulation

/-- Two calls in a row: when the first ones correspond, and the second ones do after results that
correspond. -/
theorem rel_bind {α β γ δ : Type*} {R : α → β → Prop} {R' : γ → δ → Prop} {x : Option α}
    {y : Option β} {f : α → Option γ} {g : β → Option δ} (h : Option.Rel R x y)
    (hfg : ∀ a b, R a b → Option.Rel R' (f a) (g b)) :
    Option.Rel R' (x.bind f) (y.bind g) := by
  cases h with
  | none => exact .none
  | some hab => exact hfg _ _ hab

end Zonix.Lib
