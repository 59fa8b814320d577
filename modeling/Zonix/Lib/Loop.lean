import Mathlib.Data.Nat.Notation
import Mathlib.Tactic.TypeStar

/-!
# Loops

Code that may not end is a function of the fuel that it is given, and `none` says that the fuel ran
out. More fuel does not change a result (`Mono`), and code ends in a state when enough fuel leads to
it (`Ends`).

A loop hands the fuel that is left to its body. `ends_loop_pos` and `ends_loop_neg` are the equation
of `while`; a loop that ends keeps an invariant (`Ends.loop_inv`), and it ends when a measure
decreases as well (`loop_ends`). A function that calls itself at most once answers, whatever the
fuel beyond the number of its calls (`calls_answer`).
-/

namespace Zonix.Lib.Loop
variable {α β γ δ σ : Type*}

/-- The code ends in `t`, when it starts in `s`. -/
def Ends (f : ℕ → α → Option β) (s : α) (t : β) : Prop := ∃ n, f n s = some t

/-- More fuel does not change a result. -/
def Mono (f : ℕ → α → Option β) : Prop := ∀ n m s t, n ≤ m → f n s = some t → f m s = some t

/-- One after the other. -/
def andThen (f : ℕ → α → Option β) (g : ℕ → β → Option γ) : ℕ → α → Option γ :=
  fun n s => (f n s).bind (g n)

/-- `while (cond) body` -/
def loop (cond : σ → Prop) [DecidablePred cond] (body : ℕ → σ → Option σ) : ℕ → σ → Option σ
  | 0, _ => none
  | n + 1, s => if cond s then (body n s).bind (loop cond body n) else some s

section
variable {f : ℕ → α → Option β} {g : ℕ → β → Option γ} {a : α} {b b' : β} {c : γ}

theorem Ends.unique (hf : Mono f) (h : Ends f a b) (h' : Ends f a b') : b = b' := by
  obtain ⟨n, hn⟩ := h
  obtain ⟨m, hm⟩ := h'
  have hmax := hf n (max n m) a b (Nat.le_max_left n m) hn
  have hmax' := hf m (max n m) a b' (Nat.le_max_right n m) hm
  exact Option.some.inj (hmax.symm.trans hmax')

/-- Code without a loop. -/
theorem mono_total (f : α → β) : Mono fun _ a => some (f a) := fun _ _ _ _ _ h => h

theorem ends_total (f : α → β) (a : α) : Ends (fun _ a => some (f a)) a (f a) := ⟨0, rfl⟩

theorem Mono.andThen (hf : Mono f) (hg : Mono g) : Mono (andThen f g) := by
  intro n m s t hnm h
  obtain ⟨b, hb, hc⟩ := Option.bind_eq_some_iff.mp h
  exact Option.bind_eq_some_iff.mpr ⟨b, hf n m s b hnm hb, hg n m b t hnm hc⟩

theorem ends_andThen_iff (hf : Mono f) (hg : Mono g) :
    Ends (andThen f g) a c ↔ ∃ b, Ends f a b ∧ Ends g b c := by
  constructor
  · intro ⟨n, h⟩
    obtain ⟨b, hb, hc⟩ := Option.bind_eq_some_iff.mp h
    exact ⟨b, ⟨n, hb⟩, ⟨n, hc⟩⟩
  · intro ⟨b, ⟨n, hb⟩, ⟨m, hc⟩⟩
    have hb' := hf n (max n m) a b (Nat.le_max_left n m) hb
    have hc' := hg m (max n m) b c (Nat.le_max_right n m) hc
    exact ⟨max n m, Option.bind_eq_some_iff.mpr ⟨b, hb', hc'⟩⟩

/-- Code that runs other code, and computes its result from that. -/
theorem ends_of_map {h : ℕ → γ → Option δ} {k : δ → β} (heq : ∀ n, f n a = (h n c).map k) :
    Ends f a b ↔ ∃ d, Ends h c d ∧ k d = b := by
  constructor
  · intro ⟨n, hn⟩
    rw [heq] at hn
    obtain ⟨d, hd, hb⟩ := Option.map_eq_some_iff.mp hn
    exact ⟨d, ⟨n, hd⟩, hb⟩
  · intro ⟨d, ⟨n, hd⟩, hb⟩
    refine ⟨n, ?_⟩
    rw [heq]
    exact Option.map_eq_some_iff.mpr ⟨d, hd, hb⟩

theorem mono_of_map {h : α → ℕ → γ → Option δ} {i : α → γ} {k : α → δ → β}
    (heq : ∀ n a, f n a = (h a n (i a)).map (k a)) (hh : ∀ a, Mono (h a)) : Mono f := by
  intro n m a b hnm hn
  rw [heq] at hn ⊢
  obtain ⟨d, hd, hb⟩ := Option.map_eq_some_iff.mp hn
  exact Option.map_eq_some_iff.mpr ⟨d, hh a n m _ d hnm hd, hb⟩

theorem Ends.andThen (hf : Mono f) (hg : Mono g) (h : Ends f a b) (h' : Ends g b c) :
    Ends (andThen f g) a c :=
  (ends_andThen_iff hf hg).mpr ⟨b, h, h'⟩

end

section
variable {cond : σ → Prop} [DecidablePred cond] {body : ℕ → σ → Option σ} {s u : σ}

theorem Mono.loop (hbody : Mono body) : Mono (loop cond body) := by
  -- the body gets the fuel that the rest of the loop gets, so both grow together
  intro n
  induction n with
  | zero =>
    intro m s t _ h
    exact absurd h (Option.some_ne_none t).symm
  | succ n ih =>
    intro m s t hnm h
    obtain ⟨k, rfl⟩ : ∃ k, m = k + 1 := ⟨m - 1, by omega⟩
    unfold Loop.loop at h ⊢
    by_cases hc : cond s
    · rw [if_pos hc] at h ⊢
      obtain ⟨b, hb, ht⟩ := Option.bind_eq_some_iff.mp h
      have hb' := hbody n k s b (by omega) hb
      exact Option.bind_eq_some_iff.mpr ⟨b, hb', ih k b t (by omega) ht⟩
    · rwa [if_neg hc] at h ⊢

theorem ends_loop_neg (hc : ¬ cond s) : Ends (loop cond body) s u ↔ u = s := by
  constructor
  · intro ⟨n, h⟩
    cases n with
    | zero => exact absurd h (Option.some_ne_none u).symm
    | succ n =>
      rw [loop, if_neg hc] at h
      exact (Option.some.inj h).symm
  · intro h
    refine ⟨1, ?_⟩
    rw [loop, if_neg hc, h]

theorem ends_loop_pos (hbody : Mono body) (hc : cond s) :
    Ends (loop cond body) s u ↔ ∃ t, Ends body s t ∧ Ends (loop cond body) t u := by
  constructor
  · intro ⟨n, h⟩
    cases n with
    | zero => exact absurd h (Option.some_ne_none u).symm
    | succ n =>
      rw [loop, if_pos hc] at h
      obtain ⟨t, ht, hu⟩ := Option.bind_eq_some_iff.mp h
      exact ⟨t, ⟨n, ht⟩, ⟨n, hu⟩⟩
  · intro h
    obtain ⟨n, h⟩ := (ends_andThen_iff hbody hbody.loop).mpr h
    refine ⟨n + 1, ?_⟩
    rw [loop, if_pos hc]
    exact h

/-- A loop that ends keeps what its body keeps. -/
theorem Ends.loop_inv (I : σ → Prop) (hstep : ∀ s t, I s → cond s → Ends body s t → I t)
    (hs : I s) (h : Ends (loop cond body) s u) : I u ∧ ¬ cond u := by
  obtain ⟨n, h⟩ := h
  induction n generalizing s with
  | zero => exact absurd h (Option.some_ne_none u).symm
  | succ n ih =>
    unfold loop at h
    by_cases hc : cond s
    · rw [if_pos hc] at h
      obtain ⟨t, ht, hu⟩ := Option.bind_eq_some_iff.mp h
      exact ih (hstep s t hs hc ⟨n, ht⟩) hu
    · rw [if_neg hc] at h
      rw [← Option.some.inj h]
      exact ⟨hs, hc⟩

/-- A loop does not end when its condition is part of what its body keeps. -/
theorem loop_diverges (I : σ → Prop) (hstep : ∀ s t, I s → Ends body s t → I t)
    (hcond : ∀ s, I s → cond s) (hs : I s) : ¬ Ends (loop cond body) s u := by
  intro h
  have hend := h.loop_inv I (fun s t hs _ ht => hstep s t hs ht) hs
  exact hend.2 (hcond u hend.1)

/-- A loop ends when each run of its body ends, and decreases the measure. -/
theorem loop_ends (hbody : Mono body) (I : σ → Prop) (measure : σ → ℕ)
    (hstep : ∀ s, I s → cond s → ∃ t, Ends body s t ∧ I t ∧ measure t < measure s) (hs : I s) :
    ∃ u, Ends (loop cond body) s u ∧ I u ∧ ¬ cond u := by
  -- on the measure: there is no fuel to begin with
  induction hm : measure s using Nat.strongRecOn generalizing s with
  | _ m ih =>
    by_cases hc : cond s
    · obtain ⟨t, ht, hI, hlt⟩ := hstep s hs hc
      obtain ⟨u, hu, hend⟩ := ih (measure t) (by omega) hI rfl
      exact ⟨u, (ends_loop_pos hbody hc).mpr ⟨t, ht, hu⟩, hend⟩
    · exact ⟨s, (ends_loop_neg hc).mpr rfl, hs, hc⟩

end

/-- `Within k s`: from `s`, the function calls itself at most `k` times. -/
theorem calls_answer {f : ℕ → σ → Option β} {Within : ℕ → σ → Prop}
    (hstep : ∀ k s, Within k s → (∃ b, ∀ fuel, f (fuel + 1) s = some b) ∨
      ∃ j t g, k = j + 1 ∧ Within j t ∧ ∀ fuel, f (fuel + 1) s = (f fuel t).map g)
    {k : ℕ} {s : σ} (hs : Within k s) : ∃ b, ∀ fuel, k < fuel → f fuel s = some b := by
  induction k generalizing s with
  | zero =>
    rcases hstep 0 s hs with ⟨b, hb⟩ | ⟨j, t, g, hj, -, -⟩
    · refine ⟨b, fun fuel hfuel => ?_⟩
      obtain ⟨n, rfl⟩ : ∃ n, fuel = n + 1 := ⟨fuel - 1, by omega⟩
      exact hb n
    · omega
  | succ k ih =>
    rcases hstep (k + 1) s hs with ⟨b, hb⟩ | ⟨j, t, g, hj, ht, hf⟩
    · refine ⟨b, fun fuel hfuel => ?_⟩
      obtain ⟨n, rfl⟩ : ∃ n, fuel = n + 1 := ⟨fuel - 1, by omega⟩
      exact hb n
    · obtain rfl : k = j := by omega
      obtain ⟨b, hb⟩ := ih ht
      refine ⟨g b, fun fuel hfuel => ?_⟩
      obtain ⟨n, rfl⟩ : ∃ n, fuel = n + 1 := ⟨fuel - 1, by omega⟩
      rw [hf, hb n (by omega), Option.map_some]

end Zonix.Lib.Loop
