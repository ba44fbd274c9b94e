import FastWasm.Logged

/-!
# What is seen of a computation

A computation may be given by approximations, each running further than the one before, and some of
the events that it logs may be internal. `Settles` says what is seen of it in the end: from some
approximation on, the log without the internal events and the result. Outcomes are composed as
computations are (`Outcome.bind`), so what is seen of a sequence follows from what is seen of its
parts.

A computation that is specified without approximations is compared with them in two ways. `Agrees`
goes from the specification to the approximations, where it ends. `Reaches` goes the other way: an
approximation that runs out of steps has done a beginning of what is specified, and one that ends
has done all of it. Both allow for ends of the specification about which nothing is said.
-/

namespace Logged

universe u v

variable {ε η η' σ α β : Type u}

/-! ## Outcomes

What can be said of a run without running it: its log and its result. -/

namespace Outcome

/-- The outcome without the events that are not shown. -/
def seen (shown : ε → Bool) (o : Outcome ε η σ α) : Outcome ε η σ α := ⟨o.log.filter shown, o.res⟩

/-- An outcome after some events. -/
def after (l : List ε) (o : Outcome ε η σ α) : Outcome ε η σ α := ⟨l ++ o.log, o.res⟩

/-- The outcome of a sequence. -/
def bind (o : Outcome ε η σ α) (k : α → σ → Outcome ε η σ β) : Outcome ε η σ β :=
  match o.res with
  | .error h => ⟨o.log, .error h⟩
  | .ok (a, s) => (k a s).after o.log

/-- The same outcome, among those of computations that may halt for more reasons. -/
def lift (f : η → η') (o : Outcome ε η σ α) : Outcome ε η' σ α := ⟨o.log, o.res.mapError f⟩

variable {shown : ε → Bool} {l l' : List ε} {o : Outcome ε η σ α} {k : α → σ → Outcome ε η σ β}

theorem bind_of_ok {a : α} {s : σ} (h : o.res = .ok (a, s)) : o.bind k = (k a s).after o.log := by
  rw [bind, h]

theorem bind_of_error {e : η} (h : o.res = .error e) : o.bind k = ⟨o.log, .error e⟩ := by
  rw [bind, h]

@[simp] theorem after_nil : o.after [] = o := rfl

@[simp] theorem after_after : (o.after l').after l = o.after (l ++ l') :=
  Outcome.ext (List.append_assoc ..).symm rfl

theorem seen_after : (o.after l).seen shown = (o.seen shown).after (l.filter shown) :=
  Outcome.ext (List.filter_append ..) rfl

theorem seen_bind : (o.bind k).seen shown = (o.seen shown).bind fun a s => (k a s).seen shown := by
  rcases hr : o.res with e | ⟨a, s⟩
  · rw [bind_of_error hr, bind_of_error (o := o.seen shown) hr]
    rfl
  · rw [bind_of_ok hr, bind_of_ok (o := o.seen shown) hr, seen_after]
    rfl

end Outcome

/-- The outcome of a sequence, from the outcomes of its parts. -/
theorem bind_apply (m : Logged ε η σ α) (f : α → Logged ε η σ β) (s : σ) :
    (m >>= f) s = (m s).bind fun a s' => f a s' := by
  rcases hr : (m s).res with e | ⟨a, s'⟩
  · exact (bind_of_error hr).trans (Outcome.bind_of_error hr).symm
  · exact (bind_of_ok hr).trans (Outcome.bind_of_ok hr).symm

/-- A sequence that only returns what its first part returned. -/
theorem bind_pure (m : Logged ε η σ α) : m >>= Pure.pure = m := by
  funext s
  rw [bind_apply]
  rcases hr : (m s).res with e | ⟨a, s'⟩
  · exact (Outcome.bind_of_error hr).trans (Outcome.ext rfl hr.symm)
  · exact (Outcome.bind_of_ok hr).trans (Outcome.ext (List.append_nil _) hr.symm)

/-- What is seen of a sequence is put together from what is seen of its parts. -/
theorem seen_bind_apply (shown : ε → Bool) (m : Logged ε η σ α) (f : α → Logged ε η σ β) (s : σ) :
    ((m >>= f) s).seen shown =
      ((m s).seen shown).bind fun a s' => (f a s').seen shown := by
  rw [bind_apply, Outcome.seen_bind]

/-! ## More reasons to halt

The same computation, where others that it is composed with may halt for reasons that it does not
have. -/

/-- The same computation, among those that may halt for more reasons. -/
def lift (f : η → η') (m : Logged ε η σ α) : Logged ε η' σ α := fun s => (m s).lift f

section Lift

variable {f : η → η'} {o : Outcome ε η σ α} {o' : Outcome ε η' σ α} {s : σ} {a : α}

/-- What lifts to a halt. -/
theorem lift_eq_error {e : η'} (h : o.lift f = o') (he : o'.res = .error e) :
    ∃ h, f h = e ∧ o = ⟨o'.log, .error h⟩ := by
  subst h
  rcases o with ⟨l, h | x⟩
  · exact ⟨h, Except.error.inj he, rfl⟩
  · cases he

/-- What lifts to a return. -/
theorem lift_eq_ok (h : o.lift f = o') (ha : o'.res = .ok (a, s)) : o = ⟨o'.log, .ok (a, s)⟩ := by
  subst h
  rcases o with ⟨l, h | x⟩
  · cases ha
  · obtain rfl := Except.ok.inj ha
    rfl

/-- What lifts to an outcome after some events. -/
theorem lift_eq_after {l : List ε} (h : o.lift f = o'.after l) :
    ∃ o₁ : Outcome ε η σ α, o₁.lift f = o' ∧ o = o₁.after l :=
  ⟨⟨o'.log, o.res⟩, Outcome.ext rfl (Outcome.mk.inj h).2, Outcome.ext (Outcome.mk.inj h).1 rfl⟩

/-- A triple of the same computation, among those that may halt for more reasons. -/
theorem Triple.lift {γ : Type v} {M : Monitor γ ε} {P : γ → σ → Prop} {m : Logged ε η σ α}
    {Q : α → γ → σ → Prop} {H : η → γ → Prop} {H' : η' → γ → Prop} (h : Triple M P m Q H)
    (hH : ∀ s e, (m s).res = .error e → ∀ g, H e g → H' (f e) g) :
    Triple M P (Logged.lift f m) Q H' := by
  intro g s hs
  obtain ⟨hacc, hends⟩ := h g s hs
  refine ⟨hacc, ?_⟩
  change Ends Q H' (M.after g (m s).log) ((m s).res.mapError f)
  rcases hr : (m s).res with e | ⟨a, s'⟩ <;> rw [hr] at hends
  · exact hH s e hr _ hends
  · exact hends

end Lift

/-! ## Events that are not shown

Monitors that do not mind them see the same as without them. -/

section Hidden

variable {γ : Type v} {M : Monitor γ ε} {shown : ε → Bool}

/-- A monitor that does not mind the events that are not shown accepts a log when it accepts what is
seen of it. -/
theorem Monitor.accepts_filter (hM : ∀ g e, shown e = false → M.ok g e ∧ M.step g e = g) (g : γ)
    (l : List ε) : M.Accepts g (l.filter shown) ↔ M.Accepts g l := by
  induction l generalizing g with
  | nil => exact Iff.rfl
  | cons e l ih =>
    cases he : shown e with
    | true => rw [List.filter_cons_of_pos he, accepts_cons, accepts_cons, ih]
    | false =>
      obtain ⟨hok, hstep⟩ := hM g e he
      rw [List.filter_cons_of_neg (Bool.not_eq_true _ ▸ he), accepts_cons, hstep, ih]
      exact (and_iff_right hok).symm

theorem Monitor.after_filter (hM : ∀ g e, shown e = false → M.ok g e ∧ M.step g e = g) (g : γ)
    (l : List ε) : M.after g (l.filter shown) = M.after g l := by
  induction l generalizing g with
  | nil => rfl
  | cons e l ih =>
    cases he : shown e with
    | true => rw [List.filter_cons_of_pos he, after_cons, after_cons, ih]
    | false =>
      rw [List.filter_cons_of_neg (Bool.not_eq_true _ ▸ he), after_cons, (hM g e he).2, ih]

end Hidden

/-! ## Approximations

A family of computations, and an outcome that all of them have from some point on. There may be more
to the outcome than any bound on that point tells. -/

/-- From some approximation on, this outcome is seen, and it stays so. -/
def Settles (shown : ε → Bool) (m : ℕ → Logged ε η σ α) (s : σ) (o : Outcome ε η σ α) : Prop :=
  ∃ N, ∀ n ≥ N, (m n s).seen shown = o

namespace Settles

variable {shown : ε → Bool} {m m' : ℕ → Logged ε η σ α} {f : ℕ → α → Logged ε η σ β} {s : σ}
  {o : Outcome ε η σ α}

/-- A computation that is not approximated. -/
theorem const (m : Logged ε η σ α) (s : σ) : Settles shown (fun _ => m) s ((m s).seen shown) :=
  ⟨0, fun _ _ => rfl⟩

theorem congr (h : Settles shown m s o) (hm : ∀ n, m' n s = m n s) : Settles shown m' s o := by
  obtain ⟨N, h⟩ := h
  exact ⟨N, fun n hn => by rw [hm, h n hn]⟩

/-- One approximation later. -/
theorem succ (h : Settles shown m s o)
    (hm : ∀ n, (m' (n + 1) s).seen shown = (m n s).seen shown) : Settles shown m' s o := by
  obtain ⟨N, h⟩ := h
  refine ⟨N + 1, fun n hn => ?_⟩
  obtain ⟨n, rfl⟩ : ∃ n', n = n' + 1 := ⟨n - 1, by omega⟩
  rw [hm]
  exact h n (Nat.le_of_succ_le_succ hn)

/-- Sequencing. -/
theorem bind (h : Settles shown m s o) {k : α → σ → Outcome ε η σ β}
    (hf : ∀ a s', o.res = .ok (a, s') → Settles shown (fun n => f n a) s' (k a s')) :
    Settles shown (fun n => m n >>= f n) s (o.bind k) := by
  obtain ⟨N, h⟩ := h
  rcases hr : o.res with e | ⟨a, s'⟩
  · refine ⟨N, fun n hn => ?_⟩
    refine (seen_bind_apply ..).trans ?_
    rw [h n hn, Outcome.bind_of_error hr, Outcome.bind_of_error hr]
  · obtain ⟨N', hf⟩ := hf a s' hr
    refine ⟨max N N', fun n hn => ?_⟩
    refine (seen_bind_apply ..).trans ?_
    rw [h n (Nat.le_trans (Nat.le_max_left N N') hn), Outcome.bind_of_ok hr, Outcome.bind_of_ok hr,
      ← hf n (Nat.le_trans (Nat.le_max_right N N') hn)]

end Settles

/-! ## Agreement

For each way of composing a computation: if the parts agree, the whole does. -/

/-- Where `m` ends like a computation that halts for reasons `f` only, the approximations come to
the same end, with the same events shown. -/
def Agrees (shown : ε → Bool) (f : η → η') (s : σ) (m : Logged ε η' σ α)
    (m' : ℕ → Logged ε η σ α) : Prop :=
  ∀ o : Outcome ε η σ α, o.lift f = m s → Settles shown m' s (o.seen shown)

namespace Agrees

variable {shown : ε → Bool} {f : η → η'} {s : σ} {m : Logged ε η' σ α}
  {m' m₁' : ℕ → Logged ε η σ α} {k : α → Logged ε η' σ β} {k' : ℕ → α → Logged ε η σ β}

/-- A computation among those that may halt for more reasons. -/
theorem of_lift (m : Logged ε η σ α) {f : η → η'} (hf : f.Injective) :
    Agrees shown f s (lift f m) fun _ => m := by
  intro o h
  obtain rfl : o = m s := by
    rcases hr : (m s).res with e | ⟨a, s'⟩
    · have he : (lift f m s).res = .error (f e) := by rw [lift, Outcome.lift, hr]; rfl
      obtain ⟨e', hfe, rfl⟩ := lift_eq_error h he
      exact Outcome.ext rfl (by rw [hf hfe, hr])
    · have ha : (lift f m s).res = .ok (a, s') := by rw [lift, Outcome.lift, hr]; rfl
      rw [lift_eq_ok h ha]
      exact Outcome.ext rfl hr.symm
  exact .const m s

theorem pure (a : α) : Agrees shown f s (pure a) fun _ => (Pure.pure a : Logged ε η σ α) := by
  intro o h
  rw [lift_eq_ok h rfl]
  exact .const _ s

/-- A halt for another reason. -/
theorem halt {e : η'} (he : ∀ h, f h ≠ e) : Agrees shown f s (halt e : Logged ε η' σ α) m' := by
  intro o h
  obtain ⟨h', hfe, -⟩ := lift_eq_error h rfl
  exact absurd hfe (he h')

/-- Sequencing. The approximations may return something else than `m`, which `g` computes. -/
theorem map_bind {δ : Type u} {g : α → δ} {m' : ℕ → Logged ε η σ δ} {k' : ℕ → δ → Logged ε η σ β}
    (h : Agrees shown f s (m >>= fun a => Pure.pure (g a)) m')
    (hk : ∀ a s', Agrees shown f s' (k a) fun n => k' n (g a)) :
    Agrees shown f s (m >>= k) fun n => m' n >>= k' n := by
  intro o ho
  rcases hr : (m s).res with e | ⟨a, s'⟩
  · rw [bind_of_error hr] at ho
    obtain ⟨h', rfl, rfl⟩ := lift_eq_error ho rfl
    have hm := h ⟨(m s).log, .error h'⟩ (by rw [bind_of_error hr]; rfl)
    exact hm.bind (k := fun _ _ => ⟨[], .error h'⟩) fun a s' ha => by cases ha
  · rw [bind_of_ok hr] at ho
    obtain ⟨o₁, ho₁, rfl⟩ := lift_eq_after ho
    have hm := h ⟨(m s).log, .ok (g a, s')⟩ (by
      rw [bind_of_ok hr]
      exact Outcome.ext (List.append_nil _).symm rfl)
    rw [Outcome.seen_after]
    refine hm.bind (k := fun _ _ => o₁.seen shown) fun d s₁ hd => ?_
    obtain ⟨rfl, rfl⟩ := Prod.mk.inj (Except.ok.inj hd)
    exact hk a s' o₁ ho₁

theorem congr_left {m₁ : Logged ε η' σ α} (h : Agrees shown f s m m') (hm : m₁ s = m s) :
    Agrees shown f s m₁ m' :=
  fun o ho => h o (ho.trans hm)

theorem congr (h : Agrees shown f s m m') (hm : ∀ n, m₁' n s = m' n s) :
    Agrees shown f s m m₁' :=
  fun o ho => (h o ho).congr hm

/-- One approximation later. -/
theorem succ (h : Agrees shown f s m m')
    (hm : ∀ n, (m₁' (n + 1) s).seen shown = (m' n s).seen shown) : Agrees shown f s m m₁' :=
  fun o ho => (h o ho).succ hm

end Agrees

/-! ## Reach

The converse for so many approximations. What an approximation has done is a beginning of what there
is to do. -/

/-- Each of the first `N` approximations ends as `m` does, or it halts for want of steps, with
`short`, after the first of the events that are seen of `m`. Nothing is said where `m` halts with
`stray`. -/
def Reaches (shown : ε → Bool) (f : η → η') (short : η) (stray : η') (N : ℕ) (s : σ)
    (m : Logged ε η' σ α) (m' : ℕ → Logged ε η σ α) : Prop :=
  ∀ n ≤ N, (m s).res ≠ .error stray →
    ((m' n s).res = .error short ∧ ((m' n s).seen shown).log <+: ((m s).seen shown).log) ∨
      ((m' n s).seen shown).lift f = (m s).seen shown

namespace Reaches

variable {shown : ε → Bool} {f : η → η'} {short : η} {stray : η'} {N : ℕ} {s : σ}
  {m : Logged ε η' σ α} {m' m₁' : ℕ → Logged ε η σ α} {k : α → Logged ε η' σ β}
  {k' : ℕ → α → Logged ε η σ β}

/-- A computation among those that may halt for more reasons. -/
theorem of_lift (m : Logged ε η σ α) : Reaches shown f short stray N s (lift f m) fun _ => m :=
  fun _ _ _ => .inr rfl

theorem pure (a : α) :
    Reaches shown f short stray N s (pure a) fun _ => (Pure.pure a : Logged ε η σ α) :=
  fun _ _ _ => .inr rfl

theorem halt_stray : Reaches shown f short stray N s (halt stray : Logged ε η' σ α) m' :=
  fun _ _ hstray => absurd rfl hstray

/-- No steps are made. -/
theorem zero (h0 : m' 0 s = ⟨[], .error short⟩) : Reaches shown f short stray 0 s m m' := by
  intro n hn _
  obtain rfl := Nat.le_zero.mp hn
  refine .inl ⟨by rw [h0], ?_⟩
  rw [h0]
  exact List.nil_prefix

/-- Sequencing. The approximations may return something else than `m`, which `g` computes. Where the
first part comes short the whole does, with a log that is a prefix; otherwise the second part goes
on from the same state. -/
theorem map_bind {δ : Type u} {g : α → δ} {m' : ℕ → Logged ε η σ δ} {k' : ℕ → δ → Logged ε η σ β}
    (h : Reaches shown f short stray N s (m >>= fun a => Pure.pure (g a)) m')
    (hk : ∀ a s', Reaches shown f short stray N s' (k a) fun n => k' n (g a)) :
    Reaches shown f short stray N s (m >>= k) fun n => m' n >>= k' n := by
  intro n hn (hstray : ((m >>= k) s).res ≠ .error stray)
  change (((m' n >>= k' n) s).res = _ ∧ (((m' n >>= k' n) s).seen shown).log <+: _) ∨
    (((m' n >>= k' n) s).seen shown).lift f = _
  rcases hr : (m s).res with e | ⟨a, s'⟩
  · rw [bind_of_error hr] at hstray
    have hm := h n hn (by
      rw [bind_of_error hr]
      exact fun he => hstray (congrArg _ (Except.error.inj he)))
    rw [bind_of_error hr] at hm ⊢
    rcases hm with ⟨hshort, hlog⟩ | hm
    · rw [bind_of_error hshort]
      exact .inl ⟨rfl, hlog⟩
    · obtain ⟨e', rfl, hseen⟩ := lift_eq_error hm rfl
      rw [bind_of_error (Outcome.mk.inj hseen).2]
      exact .inr (Outcome.ext (Outcome.mk.inj hseen).1 rfl)
  · rw [bind_of_ok hr] at hstray
    have hm := h n hn (by rw [bind_of_ok hr]; rintro ⟨⟩)
    rw [bind_of_ok hr] at hm ⊢
    have hlog : ((m s).log ++ ((Pure.pure (g a) : Logged ε η' σ δ) s').log).filter shown =
        (m s).log.filter shown := congrArg _ (List.append_nil _)
    rcases hm with ⟨hshort, hpre⟩ | hm
    · rw [bind_of_error hshort]
      have hpre' : ((m' n s).seen shown).log <+: (m s).log.filter shown := by
        rw [← hlog]
        exact hpre
      refine .inl ⟨rfl, hpre'.trans ?_⟩
      simp only [Outcome.seen, List.filter_append]
      exact List.prefix_append ..
    · have hok := lift_eq_ok hm rfl
      have hseen : (m' n s).log.filter shown = (m s).log.filter shown :=
        (Outcome.mk.inj hok).1.trans hlog
      rw [bind_of_ok (Outcome.mk.inj hok).2]
      rcases hk a s' n hn hstray with ⟨hshort, hpre⟩ | hk
      · refine .inl ⟨hshort, ?_⟩
        simp only [Outcome.seen, List.filter_append, hseen]
        exact (List.prefix_append_right_inj _).mpr hpre
      · refine .inr (Outcome.ext ?_ (Outcome.mk.inj hk).2)
        simp only [Outcome.seen, Outcome.lift, List.filter_append, hseen]
        exact congrArg _ (Outcome.mk.inj hk).1

theorem congr_left {m₁ : Logged ε η' σ α} (h : Reaches shown f short stray N s m m')
    (hm : m₁ s = m s) : Reaches shown f short stray N s m₁ m' := by
  intro n hn hstray
  rw [hm] at hstray ⊢
  exact h n hn hstray

theorem congr (h : Reaches shown f short stray N s m m') (hm : ∀ n, m₁' n s = m' n s) :
    Reaches shown f short stray N s m m₁' := by
  intro n hn hstray
  rw [hm]
  exact h n hn hstray

/-- One approximation later. -/
theorem succ (h : Reaches shown f short stray N s m m') (h0 : m₁' 0 s = ⟨[], .error short⟩)
    (hm : ∀ n, (m₁' (n + 1) s).seen shown = (m' n s).seen shown) :
    Reaches shown f short stray (N + 1) s m m₁' := by
  intro n hn hstray
  cases n with
  | zero => exact zero h0 0 (Nat.le_refl 0) hstray
  | succ n =>
    have hres : (m₁' (n + 1) s).res = (m' n s).res := (Outcome.mk.inj (hm n)).2
    rw [hres, hm]
    exact h n (Nat.le_of_succ_le_succ hn) hstray

theorem mono {N' : ℕ} (h : Reaches shown f short stray N s m m') (hN : N' ≤ N) :
    Reaches shown f short stray N' s m m' :=
  fun n hn => h n (Nat.le_trans hn hN)

/-- When an approximation has enough steps, `m` does not halt for other reasons than it may. -/
theorem ends {n : ℕ} (h : Reaches shown f short stray N s m m') (hn : n ≤ N)
    (hshort : (m' n s).res ≠ .error short) {e : η'} (he : e ≠ stray) (hf : ∀ e', f e' ≠ e) :
    (m s).res ≠ .error e := by
  intro hr
  rcases h n hn (by rw [hr]; exact fun h => he (Except.error.inj h)) with ⟨h, -⟩ | h
  · exact hshort h
  · obtain ⟨e', hfe, -⟩ := lift_eq_error h hr
    exact hf e' hfe

/-- What is proved of `m`, an approximation does as well, if it does not halt for want of steps. The
events that are not shown must not matter. -/
theorem triple {γ : Type v} {M : Monitor γ ε} {P : γ → σ → Prop} {Q : α → γ → σ → Prop}
    {H : η' → γ → Prop} (hM : ∀ g e, shown e = false → M.ok g e ∧ M.step g e = g)
    (hm : Triple M P m Q H) (hstray : ∀ g, ¬ H stray g)
    (h : ∀ s, Reaches shown f short stray N s m m') {n : ℕ} (hn : n ≤ N) :
    Triple M P (m' n) Q fun e g => e = short ∨ H (f e) g := by
  intro g s hs
  obtain ⟨hacc, hends⟩ := hm g s hs
  rw [← M.accepts_filter hM] at hacc ⊢
  rw [← M.after_filter hM] at hends ⊢
  have hproper : (m s).res ≠ .error stray := fun he => by
    rw [he] at hends
    exact hstray _ hends
  rcases h s n hn hproper with ⟨hshort, l, hlog⟩ | heq
  · change ((m' n s).log.filter shown) ++ l = (m s).log.filter shown at hlog
    rw [← hlog, M.accepts_append] at hacc
    rw [hshort]
    exact ⟨hacc.1, .inl rfl⟩
  · have hlog : (m' n s).log.filter shown = (m s).log.filter shown := (Outcome.mk.inj heq).1
    have hres : (m' n s).res.mapError f = (m s).res := (Outcome.mk.inj heq).2
    rw [hlog]
    refine ⟨hacc, ?_⟩
    rw [← hres] at hends
    rcases hr : (m' n s).res with e | ⟨a, s'⟩ <;> rw [hr] at hends
    · exact .inr hends
    · exact hends

end Reaches

end Logged
