import FastWasm.Logged

/-!
# Computations over two representations

One computation over two kinds of states, a concrete and an abstract one. They log the same,
they end in the same way with the same value, and related states lead to related states. One rule
for each way of building a computation.

The relation is two-sided: a run of either side halts exactly when the other does, and for the same
reason (`halts_iff`). So what is proved about the logs and the values of the abstract computation
holds of the concrete one, and the other way round. The relation between the states may change from
one place to the next, as the assertions of a triple do, so an invariant of the concrete state that
is broken in the middle of an operation is no obstacle.
-/

namespace Logged

universe u

variable {ε η σ τ α β : Type u}

/-- The ends of two runs agree, and their states are related. -/
def SameEnd (Q : α → σ → τ → Prop) : Except η (α × σ) → Except η (α × τ) → Prop
  | .error e, .error e' => e = e'
  | .ok (a, s), .ok (b, t) => a = b ∧ Q a s t
  | _, _ => False

/-- From states in `P`, the two computations log the same and end alike, in states in `Q`. The value
is the same on both sides, and `Q` may depend on it. -/
def Refines (P : σ → τ → Prop) (m : Logged ε η σ α) (m' : Logged ε η τ α)
    (Q : α → σ → τ → Prop) : Prop :=
  ∀ s t, P s t → (m s).log = (m' t).log ∧ SameEnd Q (m s).res (m' t).res

namespace Refines

variable {P : σ → τ → Prop} {m : Logged ε η σ α} {m' : Logged ε η τ α}
  {Q Q' : α → σ → τ → Prop} {R : β → σ → τ → Prop} {R' : PUnit → σ → τ → Prop}

/-- A run that returns has a counterpart that returns the same, in a state that is related to its
own. -/
theorem returns (h : Refines P m m' Q) {s s' : σ} {t : τ} {a : α} (hp : P s t)
    (hr : (m s).res = .ok (a, s')) : ∃ t', (m' t).res = .ok (a, t') ∧ Q a s' t' := by
  obtain ⟨-, hend⟩ := h s t hp
  rw [hr] at hend
  rcases hr' : (m' t).res with e | ⟨b, t'⟩ <;> rw [hr'] at hend
  · exact hend.elim
  · obtain ⟨rfl, hq⟩ := hend
    exact ⟨t', rfl, hq⟩

/-- A run halts for a reason exactly when the other one does. There is no reason that only one side
can give. -/
theorem halts_iff (h : Refines P m m' Q) {s : σ} {t : τ} (hp : P s t) (e : η) :
    (m s).res = .error e ↔ (m' t).res = .error e := by
  obtain ⟨-, hend⟩ := h s t hp
  rcases hr : (m s).res with e₁ | ⟨a, s'⟩ <;> rcases hr' : (m' t).res with e₂ | ⟨b, t'⟩ <;>
    rw [hr, hr'] at hend
  · rw [show e₁ = e₂ from hend, Except.error.injEq, Except.error.injEq]
  · exact hend.elim
  · exact hend.elim
  · exact iff_of_false nofun nofun

theorem post (h : Refines P m m' Q) (hq : ∀ a s t, Q a s t → Q' a s t) : Refines P m m' Q' := by
  intro s t hp
  obtain ⟨hlog, hend⟩ := h s t hp
  refine ⟨hlog, ?_⟩
  rcases hr : (m s).res with e | ⟨a, s'⟩ <;> rcases hr' : (m' t).res with e' | ⟨b, t'⟩ <;>
    rw [hr, hr'] at hend
  · exact hend
  · exact hend.elim
  · exact hend.elim
  · exact ⟨hend.1, hq a s' t' hend.2⟩

theorem pure {a : α} (h : ∀ s t, P s t → Q a s t) :
    Refines P (pure a : Logged ε η σ α) (Pure.pure a) Q :=
  fun s t hp => ⟨rfl, rfl, h s t hp⟩

theorem halt (e : η) : Refines P (halt e : Logged ε η σ α) (Logged.halt e) Q :=
  fun _ _ _ => ⟨rfl, rfl⟩

theorem emit (e : ε) (h : ∀ s t, P s t → R' ⟨⟩ s t) :
    Refines P (emit e : Logged ε η σ PUnit) (Logged.emit e) R' :=
  fun s t hp => ⟨rfl, rfl, h s t hp⟩

theorem set {s₁ : σ} {t₁ : τ} (h : ∀ s t, P s t → R' ⟨⟩ s₁ t₁) :
    Refines P (set s₁ : Logged ε η σ PUnit) (Logged.set t₁) R' :=
  fun s t hp => ⟨rfl, rfl, h s t hp⟩

theorem bind {f : α → Logged ε η σ β} {f' : α → Logged ε η τ β} (h : Refines P m m' Q)
    (hf : ∀ a, Refines (Q a) (f a) (f' a) R) : Refines P (m >>= f) (m' >>= f') R := by
  intro s t hp
  obtain ⟨hlog, hend⟩ := h s t hp
  rcases hr : (m s).res with e | ⟨a, s'⟩ <;> rcases hr' : (m' t).res with e' | ⟨b, t'⟩ <;>
    rw [hr, hr'] at hend
  · obtain rfl : e = e' := hend
    rw [bind_of_error hr, bind_of_error hr']
    exact ⟨hlog, rfl⟩
  · exact hend.elim
  · exact hend.elim
  · obtain ⟨rfl, hq⟩ := hend
    obtain ⟨hlog', hend'⟩ := hf a s' t' hq
    rw [bind_of_ok hr, bind_of_ok hr']
    exact ⟨by rw [hlog, hlog'], hend'⟩

/-- The states may be looked at: what comes next is related for each pair of states that the
computation may be in. -/
theorem get_bind {f : σ → Logged ε η σ α} {f' : τ → Logged ε η τ α}
    (h : ∀ s t, P s t → Refines (fun s' t' => s' = s ∧ t' = t) (f s) (f' t) Q) :
    Refines P (get >>= f) (get >>= f') Q := by
  intro s t hp
  rw [get_bind_apply, get_bind_apply]
  exact h s t hp s t ⟨rfl, rfl⟩

theorem ite {c : Prop} [Decidable c] {m₁ m₂ : Logged ε η σ α} {m₁' m₂' : Logged ε η τ α}
    (h₁ : c → Refines P m₁ m₁' Q) (h₂ : ¬ c → Refines P m₂ m₂' Q) :
    Refines P (if c then m₁ else m₂) (if c then m₁' else m₂') Q := by
  by_cases hc : c
  · rw [if_pos hc, if_pos hc]
    exact h₁ hc
  · rw [if_neg hc, if_neg hc]
    exact h₂ hc

end Refines

end Logged
