import FastWasm.Logged

/-!
# Coupled computations

Two computations, run from related states: what the first one does within a monitor and up to
its end, the second one does too, with the same result, and the states afterwards are related. The
relation may depend on the state of the monitor, which reads the log of the first one. One rule for
each way of building a computation.

The relation goes in one direction, and asks for nothing where the first computation halts or its
log is not accepted. So the monitor is the condition under which the second run follows the first:
what the first one must not do for the difference between the two states to play no role. The second
log is left open.
-/

namespace Logged

universe u v

variable {ε η σ α β : Type u} {γ : Type v} {M : Monitor γ ε} {R : γ → σ → σ → Prop} {g : γ}
  {t s : σ}

/-- What `m` does from `t`, `m'` does from `s`: when `m` returns and its log is accepted, `m'`
returns the same, and the states are related again. -/
def Coupled (M : Monitor γ ε) (R : γ → σ → σ → Prop) (g : γ) (t s : σ)
    (m m' : Logged ε η σ α) : Prop :=
  ∀ a t', M.Accepts g (m t).log → (m t).res = .ok (a, t') →
    ∃ s', (m' s).res = .ok (a, s') ∧ R (M.after g (m t).log) t' s'

/-- What `m` does, it does from every related state, so a computation may be compared with itself.
-/
def Carries (M : Monitor γ ε) (R : γ → σ → σ → Prop) (m : Logged ε η σ α) : Prop :=
  ∀ g t s, R g t s → Coupled M R g t s m m

namespace Coupled

theorem pure (h : R g t s) (a : α) :
    Coupled M R g t s (pure a : Logged ε η σ α) (Pure.pure a) := by
  intro b t' _ hr
  obtain ⟨rfl, rfl⟩ := Prod.mk.inj (Except.ok.inj hr)
  exact ⟨s, rfl, h⟩

theorem halt (e : η) (m' : Logged ε η σ α) : Coupled M R g t s (halt e) m' :=
  fun _ _ _ hr => by cases hr

theorem bind {m m' : Logged ε η σ α} {f f' : α → Logged ε η σ β} (hm : Coupled M R g t s m m')
    (hf : ∀ a g t s, R g t s → Coupled M R g t s (f a) (f' a)) :
    Coupled M R g t s (m >>= f) (m' >>= f') := by
  intro b t' hl hr
  obtain ⟨a, t₁, hm₁, hf₁, hlog⟩ := bind_eq_ok hr
  rw [hlog, M.accepts_append] at hl
  obtain ⟨s₁, hs₁, hR₁⟩ := hm a t₁ hl.1 hm₁
  obtain ⟨s', hs', hR'⟩ := hf a _ t₁ s₁ hR₁ b t' hl.2 hf₁
  refine ⟨s', ?_, ?_⟩
  · rw [bind_of_ok hs₁]
    exact hs'
  · rw [hlog, M.after_append]
    exact hR'

theorem get_bind {f f' : σ → Logged ε η σ β} (h : Coupled M R g t s (f t) (f' s)) :
    Coupled M R g t s (get >>= f) (get >>= f') := by
  intro b t' hl hr
  rw [get_bind_apply] at hl hr ⊢
  rw [get_bind_apply]
  exact h b t' hl hr

theorem set_bind {f f' : PUnit → Logged ε η σ β} {t₁ s₁ : σ}
    (h : Coupled M R g t₁ s₁ (f ⟨⟩) (f' ⟨⟩)) :
    Coupled M R g t s (set t₁ >>= f) (set s₁ >>= f') := by
  intro b t' hl hr
  rw [set_bind_apply] at hl hr ⊢
  rw [set_bind_apply]
  exact h b t' hl hr

theorem emit_bind {f f' : PUnit → Logged ε η σ β} {e e' : ε}
    (h : M.ok g e → Coupled M R (M.step g e) t s (f ⟨⟩) (f' ⟨⟩)) :
    Coupled M R g t s (emit e >>= f) (emit e' >>= f') := by
  intro b t' hl hr
  rw [emit_bind_apply] at hl hr ⊢
  rw [emit_bind_apply]
  exact h hl.1 b t' hl.2 hr

theorem set (t₁ s₁ : σ) (h : R g t₁ s₁) :
    Coupled M R g t s (set t₁ : Logged ε η σ PUnit) (Logged.set s₁) := by
  intro a t' _ hr
  obtain ⟨rfl, rfl⟩ := Prod.mk.inj (Except.ok.inj hr)
  exact ⟨s₁, rfl, h⟩

theorem ite {c : Prop} [Decidable c] {m₁ m₂ m₁' m₂' : Logged ε η σ α}
    (h₁ : c → Coupled M R g t s m₁ m₁') (h₂ : ¬ c → Coupled M R g t s m₂ m₂') :
    Coupled M R g t s (if c then m₁ else m₂) (if c then m₁' else m₂') := by
  by_cases hc : c
  · rw [if_pos hc, if_pos hc]
    exact h₁ hc
  · rw [if_neg hc, if_neg hc]
    exact h₂ hc

end Coupled

namespace Carries

theorem pure (a : α) : Carries M R (pure a : Logged ε η σ α) := fun _ _ _ h => .pure h a

theorem halt (e : η) : Carries M R (halt e : Logged ε η σ α) := fun _ _ _ _ => .halt e _

theorem bind {m : Logged ε η σ α} {f : α → Logged ε η σ β} (hm : Carries M R m)
    (hf : ∀ a, Carries M R (f a)) : Carries M R (m >>= f) :=
  fun g t s h => (hm g t s h).bind hf

/-- An event that does not matter, because the monitor does not mind it. -/
theorem emit {e : ε} (he : ∀ g, M.step g e = g) : Carries M R (emit e : Logged ε η σ PUnit) := by
  intro g t s h a t' _ hr
  obtain ⟨rfl, rfl⟩ := Prod.mk.inj (Except.ok.inj hr)
  refine ⟨s, rfl, ?_⟩
  change R (M.step g e) t s
  rw [he]
  exact h

theorem ite {c : Prop} [Decidable c] {m m' : Logged ε η σ α} (h : c → Carries M R m)
    (h' : ¬ c → Carries M R m') : Carries M R (if c then m else m') := by
  by_cases hc : c
  · rw [if_pos hc]
    exact h hc
  · rw [if_neg hc]
    exact h' hc

end Carries

end Logged
